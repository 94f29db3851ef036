import SchemaQuery.Proofs.KeyValue.Binding
import SchemaQuery.Proofs.KeyValue.Rendering
import SchemaQuery.Proofs.Predicate.Lookups

/-!
# Rows that a query and a scan select

A query divides what a plan asks between its key condition and its filter, a scan puts all of it into
the filter. Joined by "and", the parts say of a row what the whole says, whatever a store makes of the
single clauses: both are read as conjunctions of the same atoms over the same placeholders.
-/

namespace SchemaQuery

namespace KeyValue

/-! ### Selecting -/

/-- What a formula says of a row, given what each clause says of it. -/
def Formula.holds {V : Type} (verdict : Clause V → Bool) : Formula V → Bool
  | .clause asked => verdict asked
  | .not formula => !formula.holds verdict
  | .and left right => left.holds verdict && right.holds verdict
  | .or left right => left.holds verdict || right.holds verdict

/-- What an expression says of a row; one that is absent holds. Nothing, if it cannot be read or a
placeholder is not bound. -/
def expressionHolds (bound : Placeholders) (verdict : Clause Json → Bool) :
    Option String → Option Bool
  | none => some true
  | some text => do
      let written ← Formula.parse text
      let resolved ← written.resolve bound
      some (resolved.holds verdict)

/-- Whether a read selects a row: both the key condition and the filter hold. -/
def TableRead.selects (read : TableRead) (verdict : Clause Json → Bool) : Option Bool := do
  let key ← expressionHolds ⟨read.names, read.values⟩ verdict read.keyCondition
  let filter ← expressionHolds ⟨read.names, read.values⟩ verdict read.filter
  some (key && filter)

variable {bound : Placeholders} {verdict : Clause Json → Bool}

/-- A text is read, and says so much of a row. -/
def Decides (bound : Placeholders) (verdict : Clause Json → Bool) (level : Level) (text : String)
    (holds : Bool) : Prop :=
  ∃ written resolved, Reads level text written ∧ written.resolve bound = some resolved ∧
    resolved.holds verdict = holds

namespace Decides

variable {text other : String} {holds behind : Bool}

theorem conjunction (hdecides : Decides bound verdict .negation text holds) :
    Decides bound verdict .conjunction text holds := by
  obtain ⟨written, resolved, hreads, hresolve⟩ := hdecides
  exact ⟨written, resolved, hreads.conjunction, hresolve⟩

theorem and (hleft : Decides bound verdict .negation text holds)
    (hright : Decides bound verdict .conjunction other behind) :
    Decides bound verdict .conjunction (text ++ " and " ++ other) (holds && behind) := by
  obtain ⟨written, resolved, hreads, hresolve, rfl⟩ := hleft
  obtain ⟨written', resolved', hreads', hresolve', rfl⟩ := hright
  refine ⟨.and written written', .and resolved resolved', hreads.and hreads', ?_, rfl⟩
  rw [Formula.resolve, hresolve, hresolve']
  rfl

theorem expressionHolds_eq (hdecides : Decides bound verdict .conjunction text holds) :
    expressionHolds bound verdict (some text) = some holds := by
  obtain ⟨written, resolved, hreads, hresolve, rfl⟩ := hdecides
  simp only [expressionHolds, hreads.disjunction.parse_eq, Option.bind_eq_bind, Option.bind_some,
    hresolve]

end Decides

/-- What an atom says of a row. -/
def Atom.holds (bound : Placeholders) (verdict : Clause Json → Bool) (atom : Atom) : Bool :=
  (expressionHolds bound verdict (some atom.text)).getD false

theorem Asks.decides {path : List String} {atom : Atom} {test : Test}
    (hasks : Asks bound path atom test) :
    Decides bound verdict .negation atom.text (atom.holds bound verdict) := by
  obtain ⟨written, resolved, hreads, hresolve, -⟩ := hasks.denotes
  have hdecides : Decides bound verdict .negation atom.text (resolved.holds verdict) :=
    ⟨written, resolved, hreads, hresolve, rfl⟩
  rwa [Atom.holds, hdecides.conjunction.expressionHolds_eq]

/-! ### Conjunctions of atoms -/

theorem joinAtoms_cons_cons (atom next : Atom) (atoms : List Atom) :
    joinAtoms .and (atom :: next :: atoms) =
      (joinAtoms .and (next :: atoms)).map (atom.text ++ " and " ++ ·) := by
  simp only [joinAtoms, List.map_cons, joinWith, String.intercalate_cons_cons, Option.map_some]
  rfl

theorem joinAtoms_decides {atoms : List Atom} {text : String}
    (hatoms : ∀ atom ∈ atoms, Decides bound verdict .negation atom.text (atom.holds bound verdict))
    (htext : joinAtoms .and atoms = some text) :
    Decides bound verdict .conjunction text (atoms.all (Atom.holds bound verdict)) := by
  induction atoms generalizing text with
  | nil => cases htext
  | cons atom rest ih =>
      obtain ⟨hatom, hrest⟩ := List.forall_mem_cons.mp hatoms
      cases rest with
      | nil =>
          obtain rfl := Option.some.inj htext
          rw [List.all_cons, List.all_nil, Bool.and_true]
          exact hatom.conjunction
      | cons next atoms =>
          rw [joinAtoms_cons_cons] at htext
          obtain ⟨behind, hbehind, rfl⟩ := Option.map_eq_some_iff.mp htext
          rw [List.all_cons]
          exact hatom.and (ih hrest hbehind)

theorem expressionHolds_joinAtoms {atoms : List Atom}
    (hatoms : ∀ atom ∈ atoms, Decides bound verdict .negation atom.text (atom.holds bound verdict)) :
    expressionHolds bound verdict (joinAtoms .and atoms) =
      some (atoms.all (Atom.holds bound verdict)) := by
  cases htext : joinAtoms .and atoms with
  | none =>
      cases atoms with
      | nil => rfl
      | cons => cases htext
  | some text => exact (joinAtoms_decides hatoms htext).expressionHolds_eq

/-- Joined by "and", the hash equality is one atom more. -/
theorem withHash_and (hash : Option Atom) (atoms : List Atom) :
    withHash .and hash atoms = joinAtoms .and (hash.toList ++ atoms) := by
  cases hash with
  | none => rfl
  | some hash =>
      cases atoms with
      | nil => rfl
      | cons atom atoms =>
          show _ = joinAtoms .and (hash :: atom :: atoms)
          rw [joinAtoms_cons_cons]
          rfl

theorem all_sides (holds : Atom → Bool) (entries : List (Side × Atom)) :
    (((entries.filter fun entry => entry.1 == .key).map Prod.snd).all holds &&
      ((entries.filter fun entry => entry.1 == .filter).map Prod.snd).all holds) =
      (entries.map Prod.snd).all holds := by
  induction entries with
  | nil => rfl
  | cons entry rest ih =>
      obtain ⟨side, atom⟩ := entry
      rw [List.map_cons, List.all_cons, ← ih]
      cases side with
      | key => exact Bool.and_assoc ..
      | filter => exact Bool.and_left_comm ..

/-! ### Reads of a plan -/

theorem bindCondition_demand (bound : Placeholders) {condition other : Condition}
    (hsame : condition.demand = other.demand) :
    bindCondition bound condition = bindCondition bound other := by
  obtain ⟨hpath, htest⟩ := Prod.mk.inj hsame
  rw [bindCondition, bindCondition, hpath, htest]

/-- Neither placeholders nor atoms depend on the sides of the conditions. -/
theorem bindConditions_demand (bound : Placeholders) {conditions others : List Condition}
    (hsame : conditions.map Condition.demand = others.map Condition.demand) :
    (bindConditions bound conditions).2 = (bindConditions bound others).2 ∧
      (bindConditions bound conditions).1.map Prod.snd =
        (bindConditions bound others).1.map Prod.snd := by
  induction conditions generalizing bound others with
  | nil =>
      obtain rfl := List.map_eq_nil_iff.mp hsame.symm
      exact ⟨rfl, rfl⟩
  | cons condition rest ih =>
      obtain ⟨other, more, rfl, hfirst, hrest⟩ := List.map_eq_cons_iff.mp hsame.symm
      have hbound := bindCondition_demand bound hfirst
      obtain ⟨hlater, hatoms⟩ := ih (bindCondition bound condition).2 hrest.symm
      simp only [bindConditions, hbound, List.map_cons]
      exact ⟨hlater, congrArg _ hatoms⟩

/-- The atoms that a plan is rendered to, the hash equality first. -/
def atomsOf (plan : Plan) : List Atom :=
  (bindHash .empty plan.hashKey).1.toList ++
    (bindConditions (bindHash .empty plan.hashKey).2 plan.conditions).1.map Prod.snd

/-- The placeholders that are bound once all atoms are made. -/
def placeholdersOf (plan : Plan) : Placeholders :=
  (bindConditions (bindHash .empty plan.hashKey).2 plan.conditions).2

theorem atomsOf_decides {plan : Plan}
    (hwritable : ∀ condition ∈ plan.conditions, Writable condition) :
    ∀ atom ∈ atomsOf plan, Decides (placeholdersOf plan) verdict .negation atom.text
      (atom.holds (placeholdersOf plan) verdict) := by
  obtain ⟨hhash, -⟩ := bindHash_asksHash .empty plan.hashKey
  obtain ⟨hask, hlater⟩ := bindConditions_askAll (bindHash .empty plan.hashKey).2 hwritable
  intro atom hatom
  rcases List.mem_append.mp hatom with hatom | hatom
  · have hequal : AsksHash (placeholdersOf plan) (bindHash .empty plan.hashKey).1 plan.hashKey :=
      hhash.extends hlater
    rw [Option.mem_toList.mp hatom] at hequal
    generalize plan.hashKey = binding at hequal
    cases hequal with
    | some hasks => exact hasks.decides
  · have hall := hask.atoms.imp fun _ _ hasks => And.intro (@Asks.decides _ verdict _ _ _ hasks) hasks
    exact ((List.forall₂_and_left _ _).mp hall).1 atom hatom

theorem joinAtoms_isSome {junction : Junction} {atoms : List Atom} (hatoms : atoms ≠ []) :
    (joinAtoms junction atoms).isSome = true := by
  cases atoms with
  | nil => exact absurd rfl hatoms
  | cons atom atoms => rfl

section

variable {plan : Plan} (hjunction : plan.junction = .and) (hash : Option Atom)
  (entries : List (Side × Atom))

include hjunction

/-- The parts of a plan say together what its atoms say. -/
theorem expressions_holds (hatoms : ∀ atom ∈ hash.toList ++ entries.map Prod.snd,
      Decides bound verdict .negation atom.text (atom.holds bound verdict)) :
    ∃ key filter, expressionHolds bound verdict (expressions plan hash entries).1 = some key ∧
      expressionHolds bound verdict (expressions plan hash entries).2 = some filter ∧
      (key && filter) = (hash.toList ++ entries.map Prod.snd).all (Atom.holds bound verdict) := by
  rw [expressions, hjunction]
  cases plan.lookup with
  | query =>
      -- The atoms of either side are among those of the plan.
      have hside (side : Side) : ∀ atom ∈ (entries.filter fun entry => entry.1 == side).map Prod.snd,
          atom ∈ entries.map Prod.snd := fun atom hmem =>
        (List.filter_sublist.map Prod.snd).mem hmem
      have hkey := @expressionHolds_joinAtoms bound verdict
        (hash.toList ++ (entries.filter fun entry => entry.1 == .key).map Prod.snd)
        fun atom hmem => hatoms atom <| (List.mem_append.mp hmem).elim
          (List.mem_append_left _) fun hmem => List.mem_append_right _ (hside .key atom hmem)
      have hfilter := @expressionHolds_joinAtoms bound verdict
        ((entries.filter fun entry => entry.1 == .filter).map Prod.snd)
        fun atom hmem => hatoms atom (List.mem_append_right _ (hside .filter atom hmem))
      refine ⟨_, _, by rw [withHash_and]; exact hkey, hfilter, ?_⟩
      rw [List.all_append, List.all_append, Bool.and_assoc, all_sides]
  | scan =>
      simp only [withHash_and]
      exact ⟨true, _, rfl, expressionHolds_joinAtoms hatoms, Bool.true_and _⟩

theorem expressions_isSome (hatoms : hash.toList ++ entries.map Prod.snd ≠ []) :
    (expressions plan hash entries).1.isSome = true ∨
      (expressions plan hash entries).2.isSome = true := by
  rw [expressions, hjunction]
  cases plan.lookup with
  | query =>
      simp only [withHash_and]
      cases entries with
      | nil => exact .inl (joinAtoms_isSome hatoms)
      | cons entry rest =>
          obtain ⟨side, atom⟩ := entry
          cases side with
          | key => exact .inl (joinAtoms_isSome (List.append_ne_nil_of_right_ne_nil _ (by simp)))
          | filter => exact .inr (joinAtoms_isSome (by simp))
  | scan =>
      simp only [withHash_and]
      exact .inr (joinAtoms_isSome hatoms)

end

variable {plan : Plan}

theorem atomsOf_ne_nil (hasks : plan.isUnconstrained = false) : atomsOf plan ≠ [] := by
  obtain ⟨hashKey, conditions, junction, lookup, index, descending, skipped⟩ := plan
  cases hashKey with
  | some binding => exact List.cons_ne_nil _ _
  | none =>
      cases conditions with
      | nil => cases hasks
      | cons condition rest => exact List.cons_ne_nil _ _

/-- What is read has the compiled parts and the placeholders bound for them. -/
theorem render_parts (hjunction : plan.junction = .and) (hasks : plan.isUnconstrained = false)
    (table : String) (pageSize : Option UInt32) :
    let read := render plan table pageSize none
    let parts := expressions plan (bindHash .empty plan.hashKey).1
      (bindConditions (bindHash .empty plan.hashKey).2 plan.conditions).1
    read.keyCondition = parts.1 ∧ read.filter = parts.2 ∧
      (⟨read.names, read.values⟩ : Placeholders) = placeholdersOf plan := by
  intro read parts
  have hsome : parts.1.isSome = true ∨ parts.2.isSome = true :=
    expressions_isSome hjunction _ _ (atomsOf_ne_nil hasks)
  have hfilter : (parts.2.isNone && plan.lookup == .scan) = false := by
    cases hlookup : plan.lookup with
    | query => exact Bool.and_false _
    | scan =>
        have hkey : parts.1 = none := by simp only [parts, expressions, hlookup]
        rw [hkey] at hsome
        rw [← Option.not_isSome, hsome.resolve_left Bool.false_ne_true]
        rfl
  refine ⟨rfl, ?_, strip_of_isSome none (placeholdersOf plan) hsome⟩
  show (if parts.2.isNone && plan.lookup == .scan then some unconstrained else parts.2) = parts.2
  rw [hfilter, if_neg Bool.false_ne_true]

/-- A row is selected if all atoms of the plan hold of it. -/
theorem render_selects (hjunction : plan.junction = .and) (hasks : plan.isUnconstrained = false)
    (hwritable : ∀ condition ∈ plan.conditions, Writable condition) (table : String)
    (pageSize : Option UInt32) (verdict : Clause Json → Bool) :
    (render plan table pageSize none).selects verdict =
      some ((atomsOf plan).all (Atom.holds (placeholdersOf plan) verdict)) := by
  obtain ⟨hkeyCondition, hfilterText, hbound⟩ := render_parts hjunction hasks table pageSize
  obtain ⟨key, filter, hkey, hfilter, hall⟩ :=
    expressions_holds hjunction _ _ (@atomsOf_decides verdict plan hwritable)
  rw [TableRead.selects, hbound, hkeyCondition, hfilterText, hkey, hfilter, atomsOf, ← hall]
  rfl

/-! ### Plans of an entity -/

theorem atomsOf_eq_of_sameDemands {narrowing whole : Plan} (hsame : narrowing.SameDemands whole) :
    atomsOf narrowing = atomsOf whole ∧ placeholdersOf narrowing = placeholdersOf whole := by
  obtain ⟨hlater, hatoms⟩ :=
    bindConditions_demand (bindHash .empty narrowing.hashKey).2 hsame.conditions
  rw [hsame.hashKey] at hlater hatoms
  constructor
  · rw [atomsOf, atomsOf, hsame.hashKey, hatoms]
  · rw [placeholdersOf, placeholdersOf, hsame.hashKey, hlater]

theorem ne_oneOf_nil_of_textTest? {value : Json} {standing : Standing} {mode : TextMatch}
    {test : Test} (htest : textTest? value standing mode = some test) : test ≠ .oneOf [] := by
  unfold textTest? at htest
  split at htest
  next => cases htest
  next items hitems =>
    obtain ⟨texts, htexts, rfl⟩ := Option.map_eq_some_iff.mp htest
    intro hnil
    obtain rfl := Test.oneOf.inj hnil
    cases items with
    | nil => exact hitems rfl
    | cons item items => simp [Option.bind_eq_some_iff] at htexts
  next =>
    obtain ⟨text, -, rfl⟩ := Option.map_eq_some_iff.mp htest
    split <;> nofun

theorem ne_oneOf_nil_of_itemTest? {value : Json} {test : Test}
    (htest : itemTest? value = some test) : test ≠ .oneOf [] := by
  rintro rfl
  unfold itemTest? at htest
  split at htest
  next =>
    split at htest
    next => split at htest <;> cases htest
    next => cases htest
  next => cases htest
  next => cases htest

theorem ne_oneOf_nil_of_conditions? {field : String} {value : Json} {declared : Kind}
    {standing : Standing} {mode : TextMatch} {conditions : List Condition}
    (hconditions : conditions? field value declared standing mode = some conditions) :
    ∀ condition ∈ conditions, condition.test ≠ .oneOf [] := by
  intro condition hmem
  rcases conditions?_cases hconditions with ⟨test, side, htest, rfl⟩ | rfl
  · obtain rfl := List.mem_singleton.mp hmem
    cases htest with
    | text htest => exact ne_oneOf_nil_of_textTest? htest
    | item htest => exact ne_oneOf_nil_of_itemTest? htest
    | scalar | range => exact Test.noConfusion
  · obtain ⟨leaf, -, rfl⟩ := List.mem_map.mp hmem
    unfold Condition.ofLeaf
    split <;> exact Test.noConfusion

/-- Whatever is planned can be written. -/
theorem writable_of_plan {entity : Entity} {predicate : Predicate} {options : Options}
    {plan : Plan} (hplan : entity.plan predicate options = .ok plan) :
    ∀ condition ∈ plan.conditions, Writable condition := by
  rw [Entity.eq_laidOut_of_plan hplan]
  intro condition hmem
  obtain ⟨member, -, hmem⟩ := List.mem_flatMap.mp hmem
  refine ⟨fun hnil => ?_, ?_⟩
  · have hhead := Entity.head?_path_of_mem_asked? hmem
    rw [hnil] at hhead
    cases hhead
  · unfold Entity.asked? at hmem
    split at hmem
    next => exact absurd hmem List.not_mem_nil
    next =>
      generalize hown : conditions? _ _ _ _ _ = own at hmem
      cases own with
      | none => exact absurd hmem List.not_mem_nil
      | some own => exact ne_oneOf_nil_of_conditions? hown condition hmem

theorem isUnconstrained_eq_false_iff {plan : Plan} :
    plan.isUnconstrained = false ↔ plan.hashKey ≠ none ∨ plan.conditions ≠ [] := by
  rw [Plan.isUnconstrained, ← Bool.not_eq_true, Bool.and_eq_true, Option.isNone_iff_eq_none,
    List.isEmpty_iff, not_and_or]

theorem isUnconstrained_of_sameDemands {narrowing whole : Plan}
    (hsame : narrowing.SameDemands whole) : narrowing.isUnconstrained = whole.isUnconstrained := by
  have hlength := congrArg List.isEmpty hsame.conditions
  rw [List.isEmpty_map, List.isEmpty_map] at hlength
  rw [Plan.isUnconstrained, Plan.isUnconstrained, hsame.hashKey, hlength]

/-- **Either lookup.** Where texts are matched as a whole, a query and a scan of a predicate are
refused for the same reason, or planned with the same demands. Joined by "and", and asking anything,
they then select the same rows, whatever the store makes of the single clauses. -/
theorem query_selects_as_scan (entity : Entity) (predicate : Predicate) (options : Options)
    (hmode : options.textMatch = .equal) :
    (∃ fault, entity.plan predicate { options with lookup := .query } = .error fault ∧
      entity.plan predicate { options with lookup := .scan } = .error fault) ∨
    ∃ narrowing whole, entity.plan predicate { options with lookup := .query } = .ok narrowing ∧
      entity.plan predicate { options with lookup := .scan } = .ok whole ∧
      narrowing.SameDemands whole ∧
      (options.junction = .and → narrowing.hashKey ≠ none ∨ narrowing.conditions ≠ [] →
        ∀ table, ∃ query scan,
          compile entity predicate { options with lookup := .query } table none = .ok query ∧
          compile entity predicate { options with lookup := .scan } table none = .ok scan ∧
          ∀ verdict, ∃ selected, query.selects verdict = some selected ∧
            scan.selects verdict = some selected) := by
  rcases Entity.plan_query_scan hmode with hfault | ⟨narrowing, whole, hquery, hscan, hsame⟩
  · exact .inl hfault
  refine .inr ⟨narrowing, whole, hquery, hscan, hsame, fun hjunction hasks table => ?_⟩
  have hnarrowing : narrowing.junction = .and := by
    rw [Entity.eq_laidOut_of_plan hquery]
    exact hjunction
  have hwhole : whole.junction = .and := hsame.junction ▸ hnarrowing
  have hconstrained : narrowing.isUnconstrained = false := isUnconstrained_eq_false_iff.mpr hasks
  refine ⟨render narrowing table options.pageSize none, render whole table options.pageSize none,
    by rw [compile, hquery]; rfl, by rw [compile, hscan]; rfl, fun verdict => ⟨_,
      render_selects hnarrowing hconstrained (writable_of_plan hquery) table _ verdict, ?_⟩⟩
  obtain ⟨hatoms, hbound⟩ := atomsOf_eq_of_sameDemands hsame
  rw [hatoms, hbound]
  exact render_selects hwhole (isUnconstrained_of_sameDemands hsame ▸ hconstrained)
    (writable_of_plan hscan) table _ verdict

/-- Readings of sensors, in the order of their times. -/
def readings : Entity where
  schema := ⟨"readings", [("sensor", { type := .string, isHashKey := true }),
    ("time", { type := .number, isRangeKey := true }), ("level", { type := .number }),
    ("marks", { type := .list })], by decide⟩
  valid := by decide

/-- A reading of a sensor, if it is of some level and not marked as a test. -/
def sensorReading : Predicate where
  wanted := [("level", .nat 3), ("marks", .string "!test"), ("sensor", .string "attic"),
    ("time", .nat 5)]

theorem query_selects_as_scan_sensorReading : ∃ query scan,
    compile readings sensorReading {} "readings" none = .ok query ∧
      compile readings sensorReading { lookup := .scan } "readings" none = .ok scan ∧
      query.keyCondition = some "#sensor = :sensor and #time = :time" ∧
      query.filter = some "#level = :level and not contains(#marks, :marks)" ∧
      ∀ verdict, ∃ selected, query.selects verdict = some selected ∧
        scan.selects verdict = some selected := by
  rcases query_selects_as_scan readings sensorReading {} rfl with
    ⟨_, hfault, -⟩ | ⟨narrowing, whole, hplan, -, -, hselects⟩
  · cases hfault
  · obtain rfl := Except.ok.inj hplan
    obtain ⟨query, scan, hquery, hscan, hrows⟩ := hselects rfl (.inl nofun) "readings"
    refine ⟨query, scan, hquery, hscan, ?_, ?_, hrows⟩
    · obtain rfl := Except.ok.inj hquery
      decide +kernel
    · obtain rfl := Except.ok.inj hquery
      decide +kernel

end KeyValue

end SchemaQuery
