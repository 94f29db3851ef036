import SchemaQuery.Proofs.KeyValue.Denotation

/-!
# Rendered plans keep their meaning

The atoms of a plan ask what its conditions ask, of the placeholders that are bound once all of them
have been made. Joined, put into parentheses where a disjunction stands behind the hash equality,
and read again by the grammar of the store, they are the formula of the plan.
-/

namespace SchemaQuery

open KeyValue

namespace Plan

/-- The conditions joined by the junction of the plan; nothing for none. -/
def joined (plan : Plan) (conditions : List Condition) : Option (Formula Json) :=
  plan.junction.connectAll (conditions.map Condition.formula)

/-- The hash equality and what is asked besides, where they are there. -/
def underHash (plan : Plan) (rest : Option (Formula Json)) : Option (Formula Json) :=
  Formula.both (plan.hashKey.map HashBinding.formula) rest

/-- What a plan asks of the keys. -/
def keyFormula (plan : Plan) : Option (Formula Json) :=
  match plan.lookup with
  | .query => plan.underHash (plan.joined (plan.on .key))
  | .scan => none

/-- What a plan asks of the rows read. A scan that asks nothing asks for the absence of the reserved
attribute. -/
def filterFormula (plan : Plan) : Option (Formula Json) :=
  match plan.lookup with
  | .query => plan.joined (plan.on .filter)
  | .scan =>
      some ((plan.underHash (plan.joined plan.conditions)).getD
        (.clause (.absent [.field Predicate.reservedField])))

end Plan

namespace KeyValue

/-! ### Binding -/

theorem valueAll_standsForAll (bound : Placeholders) (hint : String) (place : Nat)
    (items : List Json) :
    (valueAll bound hint place items).2.StandsForAll (valueAll bound hint place items).1 items ∧
      bound.Extends (valueAll bound hint place items).2 := by
  induction items generalizing bound place with
  | nil => exact ⟨.nil, .refl bound⟩
  | cons json rest ih =>
      obtain ⟨hvalue, hfirst⟩ :=
        bound.value_standsFor (hint ++ String.ofList (Nat.toDigits 10 place)) json
      obtain ⟨hvalues, hrest⟩ :=
        ih (bound.value (hint ++ String.ofList (Nat.toDigits 10 place)) json).2 (place + 1)
      exact ⟨.cons (hvalue.extends hrest) hvalues, hfirst.trans hrest⟩

theorem bindTest_asks {bound : Placeholders} {text : String} {path : List String} (hint : String)
    {test : Test} (hpath : PathNames bound text path) (hitems : test ≠ .oneOf []) :
    Asks (bindTest bound text hint test).2 path (bindTest bound text hint test).1 test ∧
      bound.Extends (bindTest bound text hint test).2 := by
  cases test with
  | equal json =>
      obtain ⟨hvalue, hlater⟩ := bound.value_standsFor hint json
      exact ⟨.equal (hpath.extends hlater) hvalue, hlater⟩
  | contains json =>
      obtain ⟨hvalue, hlater⟩ := bound.value_standsFor hint json
      exact ⟨.contains (hpath.extends hlater) hvalue, hlater⟩
  | hasItem json =>
      obtain ⟨hvalue, hlater⟩ := bound.value_standsFor hint json
      exact ⟨.hasItem (hpath.extends hlater) hvalue, hlater⟩
  | lacksItem json =>
      obtain ⟨hvalue, hlater⟩ := bound.value_standsFor hint json
      exact ⟨.lacksItem (hpath.extends hlater) hvalue, hlater⟩
  | oneOf items =>
      obtain ⟨hvalues, hlater⟩ := valueAll_standsForAll bound hint 0 items
      refine ⟨.oneOf (hpath.extends hlater) (fun hnil => ?_) hvalues, hlater⟩
      rw [hnil] at hvalues
      obtain rfl := List.forall₂_nil_left_iff.mp hvalues
      exact hitems rfl
  | range first last =>
      cases first with
      | none =>
          cases last with
          | none => exact ⟨.present hpath, .refl bound⟩
          | some high =>
              obtain ⟨hvalue, hlater⟩ := bound.value_standsFor (hint ++ "End") high
              exact ⟨.atMost (hpath.extends hlater) hvalue, hlater⟩
      | some low =>
          obtain ⟨hlow, hfirst⟩ := bound.value_standsFor (hint ++ "Begin") low
          cases last with
          | none => exact ⟨.atLeast (hpath.extends hfirst) hlow, hfirst⟩
          | some high =>
              obtain ⟨hhigh, hlast⟩ :=
                (bound.value (hint ++ "Begin") low).2.value_standsFor (hint ++ "End") high
              have hlater := hfirst.trans hlast
              exact ⟨.between (hpath.extends hlater) (hlow.extends hlast) hhigh, hlater⟩

/-- A condition that can be written: it has a path, and items if it asks for one of them. -/
def Writable (condition : Condition) : Prop :=
  condition.path ≠ [] ∧ condition.test ≠ .oneOf []

theorem path_pathNames (bound : Placeholders) {segments : List String} (hne : segments ≠ []) :
    PathNames (bound.path segments).2 (bound.path segments).1 segments ∧
      bound.Extends (bound.path segments).2 := by
  obtain ⟨hnames, hlater⟩ := bound.nameAll_namesAll segments
  refine ⟨⟨(bound.nameAll segments).1, fun hnil => ?_, rfl, hnames⟩, hlater⟩
  rw [hnil] at hnames
  exact hne (List.forall₂_nil_left_iff.mp hnames)

theorem bindCondition_asks (bound : Placeholders) {condition : Condition}
    (hwritable : Writable condition) :
    Asks (bindCondition bound condition).2 condition.path (bindCondition bound condition).1
        condition.test ∧
      bound.Extends (bindCondition bound condition).2 := by
  obtain ⟨hpath, hfirst⟩ := path_pathNames bound hwritable.1
  obtain ⟨hasks, hrest⟩ :=
    bindTest_asks (String.intercalate "_" condition.path) hpath hwritable.2
  exact ⟨hasks, hfirst.trans hrest⟩

/-- The atoms of some conditions, each on the side of its condition. -/
def AskAll (bound : Placeholders) : List (Side × Atom) → List Condition → Prop :=
  List.Forall₂ fun entry condition =>
    entry.1 = condition.side ∧ Asks bound condition.path entry.2 condition.test

theorem bindConditions_askAll (bound : Placeholders) {conditions : List Condition}
    (hwritable : ∀ condition ∈ conditions, Writable condition) :
    AskAll (bindConditions bound conditions).2 (bindConditions bound conditions).1 conditions ∧
      bound.Extends (bindConditions bound conditions).2 := by
  induction conditions generalizing bound with
  | nil => exact ⟨.nil, .refl bound⟩
  | cons condition rest ih =>
      obtain ⟨hcondition, hrest⟩ := List.forall_mem_cons.mp hwritable
      obtain ⟨hasks, hfirst⟩ := bindCondition_asks bound hcondition
      obtain ⟨hask, hlater⟩ := ih (bindCondition bound condition).2 hrest
      exact ⟨.cons ⟨rfl, hasks.extends hlater⟩ hask, hfirst.trans hlater⟩

/-- The conditions of one side have the atoms of that side. -/
theorem AskAll.filter {bound : Placeholders} {atoms : List (Side × Atom)}
    {conditions : List Condition} (hask : AskAll bound atoms conditions) (side : Side) :
    AskAll bound (atoms.filter fun entry => entry.1 == side)
      (conditions.filter fun condition => condition.side == side) := by
  induction hask with
  | nil => exact .nil
  | @cons entry condition _ _ hentry _ ih =>
      rw [List.filter_cons, List.filter_cons, hentry.1]
      split
      · exact .cons hentry ih
      · exact ih

/-- The atom of the hash equality. -/
abbrev AsksHash (bound : Placeholders) : Option Atom → Option HashBinding → Prop :=
  Option.Rel fun atom binding => Asks bound [binding.field] atom (.equal binding.value)

theorem AsksHash.extends {bound later : Placeholders} {atom : Option Atom}
    {binding : Option HashBinding} (hhash : AsksHash bound atom binding)
    (hlater : bound.Extends later) : AsksHash later atom binding := by
  cases hhash with
  | none => exact .none
  | some hasks => exact .some (hasks.extends hlater)

theorem bindHash_asksHash (bound : Placeholders) (binding : Option HashBinding) :
    AsksHash (bindHash bound binding).2 (bindHash bound binding).1 binding ∧
      bound.Extends (bindHash bound binding).2 := by
  cases binding with
  | none => exact ⟨.none, .refl bound⟩
  | some binding =>
      obtain ⟨hname, hfirst⟩ := bound.name_names binding.field
      obtain ⟨hvalue, hlater⟩ :=
        (bound.name binding.field).2.value_standsFor binding.field binding.value
      have hpath : PathNames (bound.name binding.field).2 (bound.name binding.field).1
          [binding.field] :=
        ⟨[(bound.name binding.field).1], List.cons_ne_nil _ _, String.intercalate_singleton.symm,
          .cons hname .nil⟩
      exact ⟨.some (.equal (hpath.extends hlater) hvalue), hfirst.trans hlater⟩

/-! ### Joining -/

theorem Denotes.join {bound : Placeholders} {text other : String} {formula behind : Formula Json}
    (junction : Junction) (hleft : Denotes bound .negation text formula)
    (hright : Denotes bound (levelOf junction) other behind) :
    Denotes bound (levelOf junction) (text ++ (" " ++ junction.keyword ++ " ") ++ other)
      (junction.connect formula behind) := by
  cases junction with
  | and => exact hleft.and hright
  | or => exact hleft.conjunction.or hright

theorem Denotes.alone {bound : Placeholders} {text : String} {formula : Formula Json}
    (junction : Junction) (hdenotes : Denotes bound .negation text formula) :
    Denotes bound (levelOf junction) text formula := by
  obtain ⟨written, resolved, hreads, hresolve⟩ := hdenotes
  exact ⟨written, resolved, hreads.alone junction, hresolve⟩

theorem Denotes.whole {bound : Placeholders} {text : String} {formula : Formula Json}
    {junction : Junction} (hdenotes : Denotes bound (levelOf junction) text formula) :
    Denotes bound .disjunction text formula := by
  obtain ⟨written, resolved, hreads, hresolve⟩ := hdenotes
  exact ⟨written, resolved, hreads.whole, hresolve⟩

theorem joinAtoms_denotes {bound : Placeholders} (junction : Junction) {atoms : List Atom}
    {conditions : List Condition}
    (hask : List.Forall₂ (fun atom condition => Asks bound condition.path atom condition.test) atoms
      conditions) :
    Option.Rel (Denotes bound (levelOf junction)) (joinAtoms junction atoms)
      (junction.connectAll (conditions.map Condition.formula)) := by
  induction hask with
  | nil => exact .none
  | @cons atom condition atoms conditions hasks hrest ih =>
      have hatom : Denotes bound .negation atom.text condition.formula := hasks.denotes
      cases hrest with
      | nil => exact .some (hatom.alone junction)
      | @cons next other atoms conditions hnext hmore =>
          simp only [List.map_cons, Junction.connectAll, joinAtoms] at ih ⊢
          generalize hconnect : junction.connectAll
            (other.formula :: conditions.map Condition.formula) = connected at ih ⊢
          cases ih with
          | some hjoined =>
              refine .some ?_
              rw [joinWith, String.intercalate_cons_cons]
              exact hatom.join junction hjoined

theorem joinAtoms_denotes_whole {bound : Placeholders} (junction : Junction) {atoms : List Atom}
    {conditions : List Condition}
    (hask : List.Forall₂ (fun atom condition => Asks bound condition.path atom condition.test) atoms
      conditions) :
    Option.Rel (Denotes bound .disjunction) (joinAtoms junction atoms)
      (junction.connectAll (conditions.map Condition.formula)) := by
  have hjoin := joinAtoms_denotes junction hask
  generalize joinAtoms junction atoms = text at hjoin ⊢
  generalize junction.connectAll (conditions.map Condition.formula) = formula at hjoin ⊢
  cases hjoin with
  | none => exact .none
  | some hjoined => exact .some hjoined.whole

/-- What the hash equality binds: a single condition, a conjunction, or a disjunction in
parentheses. -/
theorem boundByHash_denotes {bound : Placeholders} {junction : Junction} {atoms : List Atom}
    {conditions : List Condition} {rest : String} {formula : Formula Json}
    (hask : List.Forall₂ (fun atom condition => Asks bound condition.path atom condition.test) atoms
      conditions)
    (hrest : joinAtoms junction atoms = some rest)
    (hformula : junction.connectAll (conditions.map Condition.formula) = some formula) :
    Denotes bound .conjunction
      (if junction = .or ∧ 1 < atoms.length then parenthesized rest else rest) formula := by
  have hjoin := joinAtoms_denotes junction hask
  rw [hrest, hformula] at hjoin
  cases hjoin with
  | some hjoined =>
      split
      next => exact hjoined.whole.group.conjunction
      next hplain =>
        cases junction with
        | and => exact hjoined
        | or =>
            cases hask with
            | nil => cases hrest
            | cons hasks hmore =>
                cases hmore with
                | nil =>
                    obtain rfl := Option.some.inj hrest
                    obtain rfl := Option.some.inj hformula
                    exact hasks.denotes.conjunction
                | cons => exact absurd ⟨rfl, by simp⟩ hplain

theorem withHash_denotes {bound : Placeholders} (junction : Junction) {hash : Option Atom}
    {binding : Option HashBinding} {atoms : List Atom} {conditions : List Condition}
    (hhash : AsksHash bound hash binding)
    (hask : List.Forall₂ (fun atom condition => Asks bound condition.path atom condition.test) atoms
      conditions) :
    Option.Rel (Denotes bound .disjunction) (withHash junction hash atoms)
      (Formula.both (binding.map HashBinding.formula)
        (junction.connectAll (conditions.map Condition.formula))) := by
  have hjoin := joinAtoms_denotes junction hask
  unfold withHash
  cases hhash with
  | none => exact joinAtoms_denotes_whole junction hask
  | @some hash binding hasks =>
      have hequal : Denotes bound .negation hash.text binding.formula := hasks.denotes
      generalize hrest : joinAtoms junction atoms = rest at hjoin ⊢
      generalize hformula : junction.connectAll (conditions.map Condition.formula) = formula
        at hjoin ⊢
      cases hjoin with
      | none => exact .some hequal.conjunction.disjunction
      | some =>
          have hbehind := (hequal.and (boundByHash_denotes hask hrest hformula)).disjunction
          simp only
          split
          next hgroup =>
            rw [if_pos hgroup] at hbehind
            exact .some hbehind
          next hplain =>
            rw [if_neg hplain] at hbehind
            exact .some hbehind

/-! ### The read of a plan -/

/-- A text, if there is one, is parsed as a formula over placeholders, and with these replaced it is
the formula that is asked for, up to the equality of values. -/
def Means (bound : Placeholders) : Option String → Option (Formula Json) → Prop :=
  Option.Rel fun text formula => ∃ written resolved, Formula.parse text = some written ∧
    written.resolve bound = some resolved ∧ (resolved == formula) = true

theorem means_of_denotes {bound : Placeholders} {text : Option String}
    {formula : Option (Formula Json)}
    (hdenotes : Option.Rel (Denotes bound .disjunction) text formula) :
    Means bound text formula := by
  cases hdenotes with
  | none => exact .none
  | some hdenotes =>
      obtain ⟨written, resolved, hreads, hresolve⟩ := hdenotes
      exact .some ⟨written, resolved, hreads.parse_eq, hresolve⟩

theorem AskAll.atoms {bound : Placeholders} {entries : List (Side × Atom)}
    {conditions : List Condition} (hask : AskAll bound entries conditions) :
    List.Forall₂ (fun atom condition => Asks bound condition.path atom condition.test)
      (entries.map (·.2)) conditions :=
  List.forall₂_map_left_iff.mpr (List.Forall₂.imp (fun _ _ hentry => hentry.2) hask)

/-- The expressions of a plan, where a scan may be left without any. -/
theorem expressions_means {bound : Placeholders} {plan : Plan} {hash : Option Atom}
    {entries : List (Side × Atom)} (hhash : AsksHash bound hash plan.hashKey)
    (hask : AskAll bound entries plan.conditions) :
    Means bound (expressions plan hash entries).1 plan.keyFormula ∧
      Means bound (expressions plan hash entries).2
        (match plan.lookup with
        | .query => plan.joined (plan.on .filter)
        | .scan => plan.underHash (plan.joined plan.conditions)) := by
  rw [expressions, Plan.keyFormula]
  cases plan.lookup with
  | query =>
      exact ⟨means_of_denotes (withHash_denotes plan.junction hhash (hask.filter .key).atoms),
        means_of_denotes (joinAtoms_denotes_whole plan.junction (hask.filter .filter).atoms)⟩
  | scan => exact ⟨.none, means_of_denotes (withHash_denotes plan.junction hhash hask.atoms)⟩

theorem means_unconstrained (bound : Placeholders) :
    Means bound (some unconstrained) (some (.clause (.absent [.field Predicate.reservedField]))) :=
  .some ⟨.clause (.absent [.field "dummy"]), .clause (.absent [.field "dummy"]), rfl, rfl, rfl⟩

/-- The placeholders that are taken off stand in no expression. -/
theorem Means.strip {bound : Placeholders} {key filter : Option String}
    {keyFormula filterFormula : Option (Formula Json)} (hkey : Means bound key keyFormula)
    (hfilter : Means bound filter filterFormula) :
    Means (strip key filter none bound) key keyFormula ∧
      Means (strip key filter none bound) filter filterFormula := by
  rw [KeyValue.strip]
  split
  next => exact ⟨hkey, hfilter⟩
  next hnone =>
    cases hkey with
    | some _ => exact absurd rfl hnone
    | none =>
        cases hfilter with
        | some _ => exact absurd rfl hnone
        | none => exact ⟨.none, .none⟩

theorem filter_means {bound : Placeholders} {plan : Plan} {filter : Option String}
    (hfilter : Means bound filter
      (match plan.lookup with
      | .query => plan.joined (plan.on .filter)
      | .scan => plan.underHash (plan.joined plan.conditions))) :
    Means bound (if filter.isNone && plan.lookup == .scan then some unconstrained else filter)
      plan.filterFormula := by
  rw [Plan.filterFormula]
  cases hlookup : plan.lookup with
  | query =>
      rw [hlookup] at hfilter
      rw [show (Lookup.query == Lookup.scan) = false from rfl, Bool.and_false,
        if_neg Bool.false_ne_true]
      exact hfilter
  | scan =>
      rw [hlookup] at hfilter
      simp only at hfilter ⊢
      generalize plan.underHash (plan.joined plan.conditions) = asked at hfilter ⊢
      cases hfilter with
      | none => exact means_unconstrained bound
      | some hmeans => exact .some hmeans

/-- **What a plan is rendered as.** Read again, the key condition and the filter are the formulas of
the plan. A plan that asks nothing gives no key condition, no placeholder, and no filter but the
absence of the reserved attribute, and that only as a scan. -/
theorem render_means (plan : Plan) (table : String) (pageSize : Option UInt32)
    (hwritable : ∀ condition ∈ plan.conditions, condition.path ≠ [] ∧ condition.test ≠ .oneOf []) :
    let read := render plan table pageSize none
    Means ⟨read.names, read.values⟩ read.keyCondition plan.keyFormula ∧
      Means ⟨read.names, read.values⟩ read.filter plan.filterFormula ∧
      (plan.isUnconstrained = true → read.keyCondition = none ∧ read.names = [] ∧
        read.values = [] ∧ read.filter =
          (match plan.lookup with
          | .query => none
          | .scan => some "attribute_not_exists(dummy)")) := by
  intro read
  obtain ⟨hhash, -⟩ := bindHash_asksHash .empty plan.hashKey
  obtain ⟨hask, hlater⟩ := bindConditions_askAll (bindHash .empty plan.hashKey).2 hwritable
  obtain ⟨hkey, hfilter⟩ := expressions_means (hhash.extends hlater) hask
  obtain ⟨hkey, hfilter⟩ := hkey.strip hfilter
  refine ⟨hkey, filter_means hfilter, fun hnothing => ?_⟩
  rw [Plan.isUnconstrained, Bool.and_eq_true, Option.isNone_iff_eq_none, List.isEmpty_iff]
    at hnothing
  obtain ⟨hashKey, conditions, junction, lookup, index, descending, skipped⟩ := plan
  obtain ⟨rfl, rfl⟩ := hnothing
  cases lookup with
  | query => exact ⟨rfl, rfl, rfl, rfl⟩
  | scan => exact ⟨rfl, rfl, rfl, rfl⟩

/-- A disjunction behind a hash equality, where two paths and two values ask for one placeholder. -/
def cityOrTag : Plan where
  hashKey := some ⟨"home-city", .string "Oslo"⟩
  conditions := [
    ⟨["home", "city"], .oneOf [.string "Oslo", .string "Rome"], .filter⟩,
    ⟨["home_city"], .range (some (.nat 1)) (some (.nat 5)), .filter⟩,
    ⟨["tags"], .lacksItem (.string "old"), .filter⟩]
  junction := .or
  lookup := .scan
  index := none
  descending := false
  skipped := []

theorem render_means_cityOrTag :
    let read := render cityOrTag "people" none none
    read.filter = some ("#home_city = :home_city and (#home.#city IN (:home_city0,:home_city1)" ++
        " or #home_city_1 between :home_cityBegin and :home_cityEnd" ++
        " or not contains(#tags, :tags))") ∧
      Means ⟨read.names, read.values⟩ read.filter cityOrTag.filterFormula :=
  ⟨by decide +kernel, (render_means cityOrTag "people" none (by simp [cityOrTag])).2.1⟩

end KeyValue

end SchemaQuery
