import Mathlib.Data.List.Nodup
import SchemaQuery.Proofs.Predicate.Planned

/-!
# What becomes of each field of a predicate

Planning goes through a predicate field by field. The hash field is bound, a field that is reserved
or `null` asks for nothing, and any other asks for conditions that all begin with it or is passed
over. So a plan can be laid out by fields, and the two modes differ in no more than the first field
passed over, which is what strictness refuses. Where the sort order itself is at fault, neither mode
comes to the fields.
-/

namespace SchemaQuery

variable {entity : Entity} {index : Option Index} {options : Options}

/-! ### Conditions by their fields -/

/-- The conditions on one field, at any depth. -/
def Plan.conditionsOn (plan : Plan) (field : String) : List Condition :=
  plan.conditions.filter fun condition => condition.path.head? == some field

namespace Json

mutual

theorem prefix_of_mem_leaves : ∀ (value : Json) (path : List String),
    ∀ leaf ∈ value.leaves path, path <+: leaf.1
  | null, path, leaf, hmem => absurd hmem List.not_mem_nil
  | bool _, path, leaf, hmem | number _, path, leaf, hmem | string _, path, leaf, hmem
  | array _, path, leaf, hmem | object [], path, leaf, hmem => by
      obtain rfl := List.mem_singleton.mp hmem
      exact List.prefix_rfl
  | object (member :: members), path, leaf, hmem =>
      prefix_of_mem_memberLeaves (member :: members) path leaf hmem

theorem prefix_of_mem_memberLeaves : ∀ (members : List (String × Json)) (path : List String),
    ∀ leaf ∈ memberLeaves path members, path <+: leaf.1
  | [], path, leaf, hmem => absurd hmem List.not_mem_nil
  | (name, value) :: rest, path, leaf, hmem => by
      rcases List.mem_append.mp hmem with hmem | hmem
      · exact (List.prefix_append path [name]).trans
          (prefix_of_mem_leaves value (path ++ [name]) leaf hmem)
      · exact prefix_of_mem_memberLeaves rest path leaf hmem

end

theorem isConcrete_iff {value : Json} :
    value.isConcrete = true ↔ value ≠ .null ∧ value ≠ .string "" := by
  cases value <;> simp [isConcrete]

end Json

/-- What a field asks for is asked of the field itself or of something in it. -/
theorem head?_path_of_conditions? {field : String} {value : Json} {declared : Kind}
    {standing : Standing} {mode : TextMatch} {conditions : List Condition}
    (hconditions : conditions? field value declared standing mode = some conditions) :
    ∀ condition ∈ conditions, condition.path.head? = some field := by
  intro condition hmem
  rcases conditions?_cases hconditions with ⟨test, side, -, rfl⟩ | rfl
  · obtain rfl := List.mem_singleton.mp hmem
    rfl
  · obtain ⟨leaf, hleaf, rfl⟩ := List.mem_map.mp hmem
    obtain ⟨more, hmore⟩ := Json.prefix_of_mem_leaves value [field] leaf hleaf
    show leaf.1.head? = some field
    rw [← hmore]
    rfl

/-! ### Fields that ask -/

/-- A field that asks for conditions, or is passed over: not the hash field, not the reserved one,
and not `null`. -/
def IsAsking (hashField : Option String) (member : String × Json) : Prop :=
  hashField ≠ some member.1 ∧ member.1 ≠ Predicate.reservedField ∧ member.2 ≠ .null

namespace Entity

theorem isPassive_eq_false_iff {hashField : Option String} {member : String × Json} :
    isPassive hashField member.1 member.2 = false ↔ IsAsking hashField member := by
  have hnull : member.2.isNull = false ↔ member.2 ≠ .null := by
    cases member.2 <;> simp [Json.isNull]
  simp [isPassive, IsAsking, hnull, and_assoc]

/-- The conditions that a member asks for; nothing if its value does not suit its type. -/
def asked? (entity : Entity) (index : Option Index) (lookup : Lookup) (mode : TextMatch)
    (member : String × Json) : Option (List Condition) :=
  if isPassive (entity.layout.hashField index) member.1 member.2 then some []
  else conditions? member.1 member.2 (Kind.ofField entity.schema member.1)
    (entity.standing index lookup member.1) mode

theorem head?_path_of_asked? {lookup : Lookup} {mode : TextMatch} {member : String × Json}
    {own : List Condition} (hown : entity.asked? index lookup mode member = some own) :
    ∀ condition ∈ own, condition.path.head? = some member.1 := by
  rw [asked?] at hown
  split at hown
  next =>
    obtain rfl := Option.some.inj hown
    exact fun _ hmem => absurd hmem List.not_mem_nil
  next => exact head?_path_of_conditions? hown

theorem isAsking_of_asked?_ne {lookup : Lookup} {mode : TextMatch} {member : String × Json}
    (hown : entity.asked? index lookup mode member ≠ some []) :
    IsAsking (entity.layout.hashField index) member := by
  rw [← isPassive_eq_false_iff, Bool.eq_false_iff]
  intro hpassive
  exact hown (if_pos hpassive)

/-- The members whose values do not suit their types. -/
def unsuited (entity : Entity) (index : Option Index) (lookup : Lookup) (mode : TextMatch)
    (record : Record) : Record :=
  record.filter fun member => (entity.asked? index lookup mode member).isNone

/-- The error of a member whose value does not suit its type. -/
def refusal (entity : Entity) (member : String × Json) : CompileError :=
  .unsupportedField member.1 (Kind.ofField entity.schema member.1) (Kind.ofValue member.2)

/-- The conditions of the members in their order, and the names of those passed over, unless
strictness refuses the first of these. -/
def lowered (entity : Entity) (index : Option Index) (options : Options) (record : Record) :
    Except CompileError (List Condition × List String) :=
  match if options.strict then
    (entity.unsuited index options.lookup options.textMatch record).head? else none with
  | some member => .error (entity.refusal member)
  | none => .ok
      (record.flatMap fun member =>
        (entity.asked? index options.lookup options.textMatch member).getD [],
      (entity.unsuited index options.lookup options.textMatch record).map Prod.fst)

theorem conditionsOf_eq (entity : Entity) (index : Option Index) (options : Options)
    (record : Record) :
    entity.conditionsOf index options record = entity.lowered index options record := by
  induction record with
  | nil => cases hstrict : options.strict <;> simp [conditionsOf, lowered, unsuited]
  | cons member rest ih =>
      obtain ⟨name, value⟩ := member
      rw [conditionsOf, ih]
      simp only [lowered, unsuited, List.filter_cons, List.flatMap_cons, asked?]
      cases isPassive (entity.layout.hashField index) name value with
      | true => rfl
      | false =>
          simp only [Bool.false_eq_true, if_false]
          cases conditions? name value (Kind.ofField entity.schema name)
            (entity.standing index options.lookup name) options.textMatch with
          | some own =>
              -- What strictness refuses, if anything, is further on.
              simp only [Option.isNone_some, Bool.false_eq_true, if_false]
              generalize (if options.strict = true then List.head? _ else none) = first
              cases first <;> rfl
          | none => cases options.strict <;> simp [refusal]

/-! ### Planning as a whole -/

/-- What is wrong with a sort order: no index has its name, or the index is a global one and there
is no concrete value for its hash field. -/
def sortFault? (entity : Entity) (predicate : Predicate) (sort : Option SortOrder) :
    Option CompileError :=
  sort.bind fun sort =>
    match entity.layout.index? sort.index with
    | none => some (.unknownIndex sort.index)
    | some (.onField _) => none
    | some (.global index) =>
        if (predicate.wanted.get? index.hashKey).any Json.isConcrete then none
        else some (.missingIndexHashKey index.name index.hashKey)

/-- The index that a sort order reads by. -/
def indexOf (entity : Entity) (sort : Option SortOrder) : Option Index :=
  sort.bind fun sort => entity.layout.index? sort.index

/-- The plan of a predicate in which nothing is refused. -/
def laidOut (entity : Entity) (predicate : Predicate) (options : Options) : Plan where
  hashKey := (entity.layout.hashField (entity.indexOf options.sort)).bind
    (entity.hashBinding? predicate)
  conditions := predicate.wanted.flatMap fun member =>
    (entity.asked? (entity.indexOf options.sort) options.lookup options.textMatch member).getD []
  junction := options.junction
  lookup := options.lookup
  index := (entity.indexOf options.sort).map Index.toPlan
  descending := (options.sort.map SortOrder.descending).getD false
  skipped := (entity.unsuited (entity.indexOf options.sort) options.lookup options.textMatch
    predicate.wanted).map Prod.fst

theorem hashBinding?_eq_some_iff {predicate : Predicate} {field : String}
    {binding : HashBinding} :
    entity.hashBinding? predicate field = some binding ↔
      ∃ value, predicate.wanted.get? field = some value ∧ value.isConcrete = true ∧
        binding = ⟨field, if Kind.ofField entity.schema field = .string then
          value.asText?.getD value else value⟩ := by
  rw [hashBinding?]
  cases predicate.wanted.get? field with
  | none => simp only [reduceCtorEq, false_and, exists_false]
  | some value =>
      simp only [Option.ite_none_right_eq_some, Option.some.injEq, exists_eq_left',
        @eq_comm _ binding]

theorem hashBinding?_of_isConcrete (entity : Entity) {predicate : Predicate} {field : String}
    {value : Json} (hvalue : predicate.wanted.get? field = some value)
    (hconcrete : value.isConcrete = true) :
    entity.hashBinding? predicate field = some ⟨field,
      if Kind.ofField entity.schema field = .string then value.asText?.getD value else value⟩ :=
  hashBinding?_eq_some_iff.mpr ⟨value, hvalue, hconcrete, rfl⟩

theorem hashBinding?_isSome (predicate : Predicate) (field : String) :
    (entity.hashBinding? predicate field).isSome =
      (predicate.wanted.get? field).any Json.isConcrete := by
  rw [hashBinding?]
  cases predicate.wanted.get? field with
  | none => rfl
  | some value =>
      simp only [Option.any_some]
      cases value.isConcrete <;> rfl

variable (options) in
theorem plan_of_sortFault? {predicate : Predicate} {fault : CompileError}
    (hfault : entity.sortFault? predicate options.sort = some fault) :
    entity.plan predicate options = .error fault := by
  obtain ⟨sort, hsort, hfault⟩ := Option.bind_eq_some_iff.mp hfault
  cases hindex : entity.layout.index? sort.index with
  | none =>
      simp only [hindex, Option.some.injEq] at hfault
      simp only [plan, hsort, sortIndex, hindex, hfault]
      rfl
  | some index =>
      cases index with
      | onField field => simp [hindex] at hfault
      | global index =>
          simp only [hindex, Option.ite_none_left_eq_some, Option.some.injEq] at hfault
          obtain ⟨hvalue, rfl⟩ := hfault
          have hunbound : entity.hashBinding? predicate index.hashKey = none := by
            rw [← Option.isNone_iff_eq_none, ← Option.not_isSome, hashBinding?_isSome]
            simpa using hvalue
          simp only [plan, hsort, sortIndex, hindex]
          simp only [bind, Except.bind, Layout.hashField, Option.bind_some, hunbound, checkBinding]

theorem sortIndex_of_sortFault?_eq_none {predicate : Predicate} {sort : Option SortOrder}
    (hfault : entity.sortFault? predicate sort = none) :
    entity.sortIndex sort = .ok (entity.indexOf sort) := by
  cases sort with
  | none => rfl
  | some sort =>
      rw [sortFault?, Option.bind_some] at hfault
      rw [sortIndex, indexOf, Option.bind_some]
      cases hindex : entity.layout.index? sort.index with
      | none => simp [hindex] at hfault
      | some index => rfl

theorem isSome_binding_of_sortFault?_eq_none {predicate : Predicate} {sort : Option SortOrder}
    {index : GlobalIndex} (hfault : entity.sortFault? predicate sort = none)
    (hindex : entity.indexOf sort = some (.global index)) :
    (entity.hashBinding? predicate index.hashKey).isSome = true := by
  obtain ⟨order, rfl, hfound⟩ := Option.bind_eq_some_iff.mp hindex
  rw [sortFault?, Option.bind_some, hfound] at hfault
  rw [hashBinding?_isSome]
  simpa using hfault

variable (options) in
theorem plan_of_sortFault?_eq_none {predicate : Predicate}
    (hfault : entity.sortFault? predicate options.sort = none) :
    entity.plan predicate options =
      match if options.strict then
        (entity.unsuited (entity.indexOf options.sort) options.lookup options.textMatch
          predicate.wanted).head?
        else none with
      | some member => .error (entity.refusal member)
      | none => .ok (entity.laidOut predicate options) := by
  have hcheck : checkBinding (entity.indexOf options.sort)
      ((entity.layout.hashField (entity.indexOf options.sort)).bind
        (entity.hashBinding? predicate)) = .ok () := by
    cases hindex : entity.indexOf options.sort with
    | none => rfl
    | some index =>
        cases index with
        | onField field => rfl
        | global index =>
            obtain ⟨binding, hbinding⟩ := Option.isSome_iff_exists.mp
              (isSome_binding_of_sortFault?_eq_none hfault hindex)
            simp only [Layout.hashField, Option.bind_some, hbinding]
            rfl
  simp only [plan, sortIndex_of_sortFault?_eq_none hfault, bind, Except.bind, hcheck,
    conditionsOf_eq, lowered, laidOut]
  generalize (if options.strict = true then List.head? _ else none) = first
  cases first <;> rfl

theorem eq_laidOut_of_plan {predicate : Predicate} {plan : Plan}
    (hplan : entity.plan predicate options = .ok plan) :
    plan = entity.laidOut predicate options := by
  cases hfault : entity.sortFault? predicate options.sort with
  | some fault =>
      rw [plan_of_sortFault? options hfault] at hplan
      cases hplan
  | none =>
      rw [plan_of_sortFault?_eq_none options hfault] at hplan
      split at hplan
      next => cases hplan
      next => exact (Except.ok.inj hplan).symm

/-! ### Accounts -/

/-- What becomes of each field of a predicate in a plan. -/
structure Accounts (entity : Entity) (index : Option Index) (options : Options) (wanted : Record)
    (plan : Plan) : Prop where
  /-- The hash field is bound if and only if there is a concrete value for it. -/
  bound : ∀ field, (∃ value, plan.hashKey = some ⟨field, value⟩) ↔
    entity.layout.hashField index = some field ∧
      ∃ value, wanted.get? field = some value ∧ value ≠ .null ∧ value ≠ .string ""
  /-- No condition is on the hash field. -/
  free : ∀ field, entity.layout.hashField index = some field → plan.conditionsOn field = []
  /-- A field is passed over, once and with no condition, or has all that it asks for. -/
  each : ∀ field value, (field, value) ∈ wanted →
    IsAsking (entity.layout.hashField index) (field, value) →
    let asked := conditions? field value (Kind.ofField entity.schema field)
      (entity.standing index options.lookup field) options.textMatch
    asked = none ∧ plan.skipped.count field = 1 ∧ plan.conditionsOn field = [] ∨
      asked = some (plan.conditionsOn field) ∧ field ∉ plan.skipped
  /-- No other field is concerned. -/
  others : ∀ field, field ∈ plan.skipped ∨ plan.conditionsOn field ≠ [] →
    ∃ value, (field, value) ∈ wanted ∧ IsAsking (entity.layout.hashField index) (field, value)
  /-- The conditions are those on the fields, in the order of the fields. -/
  conditions_ordered : plan.conditions = (wanted.map Prod.fst).flatMap plan.conditionsOn
  /-- The fields passed over stand in their order. -/
  skipped_ordered : plan.skipped.Sublist (wanted.map Prod.fst)

section Fields

variable {lookup : Lookup} {mode : TextMatch} {predicate : Predicate}

theorem head?_path_of_mem_asked? {member : String × Json} {condition : Condition}
    (hmem : condition ∈ (entity.asked? index lookup mode member).getD []) :
    condition.path.head? = some member.1 := by
  cases hown : entity.asked? index lookup mode member with
  | none => exact absurd (hown ▸ hmem) List.not_mem_nil
  | some own => exact head?_path_of_asked? hown condition (by rwa [hown] at hmem)

theorem filter_asked?_of_notMem {members : Record} {field : String}
    (hfield : field ∉ members.map Prod.fst) :
    (members.flatMap fun member => (entity.asked? index lookup mode member).getD []).filter
      (fun condition => condition.path.head? == some field) = [] := by
  rw [List.filter_eq_nil_iff]
  intro condition hcondition hhead
  obtain ⟨member, hmem, hasked⟩ := List.mem_flatMap.mp hcondition
  rw [beq_iff_eq, head?_path_of_mem_asked? hasked] at hhead
  exact hfield (List.mem_map.mpr ⟨member, hmem, Option.some.inj hhead⟩)

theorem conditionsOn_laidOut_of_notMem {field : String}
    (hfield : field ∉ predicate.wanted.map Prod.fst) :
    (entity.laidOut predicate options).conditionsOn field = [] := filter_asked?_of_notMem hfield

variable (entity options) in
/-- The conditions on a field are those that its value asks for. -/
theorem conditionsOn_laidOut (hnodup : (predicate.wanted.map Prod.fst).Nodup)
    {member : String × Json} (hmem : member ∈ predicate.wanted) :
    (entity.laidOut predicate options).conditionsOn member.1 =
      (entity.asked? (entity.indexOf options.sort) options.lookup options.textMatch member).getD
        [] := by
  obtain ⟨before, after, hwanted⟩ := List.append_of_mem hmem
  simp only [hwanted, List.map_append, List.map_cons, List.nodup_append, List.nodup_cons,
    List.mem_cons] at hnodup
  obtain ⟨-, ⟨hafter, -⟩, hapart⟩ := hnodup
  have hbefore : member.1 ∉ before.map Prod.fst := fun hmem =>
    hapart member.1 hmem member.1 (.inl rfl) rfl
  have hself : ((entity.asked? (entity.indexOf options.sort) options.lookup options.textMatch
      member).getD []).filter (fun condition => condition.path.head? == some member.1) =
      (entity.asked? (entity.indexOf options.sort) options.lookup options.textMatch
        member).getD [] :=
    List.filter_eq_self.mpr fun condition hcondition =>
      beq_iff_eq.mpr (head?_path_of_mem_asked? hcondition)
  rw [Plan.conditionsOn, laidOut, hwanted, List.flatMap_append, List.flatMap_cons,
    List.filter_append, List.filter_append, filter_asked?_of_notMem hbefore,
    filter_asked?_of_notMem hafter, hself, List.nil_append, List.append_nil]

variable (entity options) in
theorem mem_skipped_laidOut (hnodup : (predicate.wanted.map Prod.fst).Nodup)
    {member : String × Json} (hmem : member ∈ predicate.wanted) :
    member.1 ∈ (entity.laidOut predicate options).skipped ↔
      entity.asked? (entity.indexOf options.sort) options.lookup options.textMatch member =
        none := by
  rw [← Option.isNone_iff_eq_none]
  constructor
  · intro hskipped
    obtain ⟨other, hother, hname⟩ := List.mem_map.mp hskipped
    obtain ⟨hother, hnone⟩ := List.mem_filter.mp hother
    obtain rfl := List.inj_on_of_nodup_map hnodup hother hmem hname
    exact hnone
  · intro hnone
    exact List.mem_map.mpr ⟨member, List.mem_filter.mpr ⟨hmem, hnone⟩, rfl⟩

theorem skipped_laidOut_sublist :
    (entity.laidOut predicate options).skipped.Sublist (predicate.wanted.map Prod.fst) :=
  List.filter_sublist.map Prod.fst

theorem exists_hashKey_laidOut_iff {field : String} :
    (∃ value, (entity.laidOut predicate options).hashKey = some ⟨field, value⟩) ↔
      entity.layout.hashField (entity.indexOf options.sort) = some field ∧
        ∃ value, predicate.wanted.get? field = some value ∧ value ≠ .null ∧
          value ≠ .string "" := by
  simp only [laidOut, Option.bind_eq_some_iff, hashBinding?_eq_some_iff, Json.isConcrete_iff]
  constructor
  · rintro ⟨bound, hashField, hfield, value, hvalue, hconcrete, heq⟩
    obtain ⟨rfl, -⟩ := HashBinding.mk.inj heq
    exact ⟨hfield, value, hvalue, hconcrete⟩
  · rintro ⟨hfield, value, hvalue, hconcrete⟩
    exact ⟨_, field, hfield, value, hvalue, hconcrete, rfl⟩

theorem accounts_laidOut (hnodup : (predicate.wanted.map Prod.fst).Nodup) :
    entity.Accounts (entity.indexOf options.sort) options predicate.wanted
      (entity.laidOut predicate options) where
  bound field := exists_hashKey_laidOut_iff
  free field hfield := by
    by_cases hmem : field ∈ predicate.wanted.map Prod.fst
    · obtain ⟨member, hmember, rfl⟩ := List.mem_map.mp hmem
      rw [conditionsOn_laidOut entity options hnodup hmember, asked?,
        if_pos (by simp [isPassive, hfield])]
      rfl
    · exact conditionsOn_laidOut_of_notMem hmem
  each field value hmem hasking := by
    have hasked : entity.asked? (entity.indexOf options.sort) options.lookup options.textMatch
        (field, value) = conditions? field value (Kind.ofField entity.schema field)
          (entity.standing (entity.indexOf options.sort) options.lookup field)
          options.textMatch := by
      rw [asked?, isPassive_eq_false_iff.mpr hasking]
      rfl
    have hskipped := mem_skipped_laidOut entity options hnodup hmem
    have hown := conditionsOn_laidOut entity options hnodup hmem
    rw [hasked] at hskipped hown
    cases hconditions : conditions? field value (Kind.ofField entity.schema field)
        (entity.standing (entity.indexOf options.sort) options.lookup field) options.textMatch with
    | none =>
        have hcount := List.count_eq_one_of_mem (skipped_laidOut_sublist.nodup hnodup)
          (hskipped.mpr hconditions)
        exact .inl ⟨rfl, hcount, by rw [hown, hconditions]; rfl⟩
    | some own =>
        refine .inr ⟨by rw [hown, hconditions]; rfl, fun hmem => ?_⟩
        exact Option.some_ne_none own (hconditions ▸ hskipped.mp hmem)
  others field hconcerned := by
    have hfield : field ∈ predicate.wanted.map Prod.fst := by
      rcases hconcerned with hskipped | hconditions
      · exact skipped_laidOut_sublist.mem hskipped
      · by_contra habsent
        exact hconditions (conditionsOn_laidOut_of_notMem habsent)
    obtain ⟨member, hmem, rfl⟩ := List.mem_map.mp hfield
    refine ⟨member.2, hmem,
      @isAsking_of_asked?_ne entity _ options.lookup options.textMatch member fun hpassive => ?_⟩
    rw [mem_skipped_laidOut entity options hnodup hmem,
      conditionsOn_laidOut entity options hnodup hmem, hpassive] at hconcerned
    simp at hconcerned
  conditions_ordered := by
    rw [List.flatMap_map]
    exact List.flatMap_congr fun member hmem =>
      (conditionsOn_laidOut entity options hnodup hmem).symm
  skipped_ordered := skipped_laidOut_sublist

/-- What strictness makes of a plan: the first field passed over is refused. -/
def strictly (entity : Entity) (predicate : Predicate) (plan : Plan) : Except CompileError Plan :=
  match plan.skipped with
  | [] => .ok plan
  | field :: _ => .error (.unsupportedField field (Kind.ofField entity.schema field)
      (Kind.ofValue ((predicate.wanted.get? field).getD .null)))

theorem plan_strict (hnodup : (predicate.wanted.map Prod.fst).Nodup)
    (hfault : entity.sortFault? predicate options.sort = none) :
    entity.plan predicate { options with strict := true } =
      entity.strictly predicate (entity.laidOut predicate options) := by
  have hskipped : (entity.laidOut predicate options).skipped =
      (entity.unsuited (entity.indexOf options.sort) options.lookup options.textMatch
        predicate.wanted).map Prod.fst := rfl
  rw [plan_of_sortFault?_eq_none { options with strict := true } hfault, if_pos rfl,
    strictly, hskipped]
  dsimp only
  cases hunsuited : entity.unsuited (entity.indexOf options.sort) options.lookup
    options.textMatch predicate.wanted with
  | nil => rfl
  | cons member rest =>
      have hmem : member ∈ predicate.wanted :=
        List.mem_of_mem_filter (hunsuited ▸ List.mem_cons_self)
      simp only [List.head?_cons, List.map_cons, Members.get?_eq_some_of_mem hnodup hmem]
      rfl

/-- **Accounting.** Whatever is wrong with the sort order is found in either mode. Otherwise the
lenient mode gives a plan that accounts for every field and binds the hash key of a global index
read by, and the strict mode gives the same plan, or refuses the first field passed over. -/
theorem plan_accounting (entity : Entity) (predicate : Predicate) (options : Options)
    (hnodup : (predicate.wanted.map Prod.fst).Nodup) :
    match entity.sortFault? predicate options.sort with
    | some fault => ∀ strict, entity.plan predicate { options with strict } = .error fault
    | none => ∃ plan,
        entity.plan predicate { options with strict := false } = .ok plan ∧
        entity.Accounts (entity.indexOf options.sort) options predicate.wanted plan ∧
        (∀ index, entity.indexOf options.sort = some (.global index) →
          ∃ value, plan.hashKey = some ⟨index.hashKey, value⟩) ∧
        entity.plan predicate { options with strict := true } =
          entity.strictly predicate plan := by
  cases hfault : entity.sortFault? predicate options.sort with
  | some fault =>
      exact fun strict => plan_of_sortFault? { options with strict } hfault
  | none =>
      refine ⟨entity.laidOut predicate options,
        plan_of_sortFault?_eq_none { options with strict := false } hfault,
        accounts_laidOut hnodup, fun index hindex => ?_, plan_strict hnodup hfault⟩
      obtain ⟨binding, hbinding⟩ := Option.isSome_iff_exists.mp
        (isSome_binding_of_sortFault?_eq_none hfault hindex)
      obtain ⟨value, hvalue, hconcrete, -⟩ := hashBinding?_eq_some_iff.mp hbinding
      exact exists_hashKey_laidOut_iff.mpr
        ⟨by rw [hindex, Layout.hashField], value, hvalue, Json.isConcrete_iff.mp hconcrete⟩

end Fields

/-- Orders by number, which can also be read by city and state. -/
def orders : Entity where
  schema := ⟨"orders", [("number", { type := .number, isHashKey := true }),
    ("city", { type := .string }), ("state", { type := .string, globalIndex := some "city" }),
    ("price", { type := .number })], by decide⟩
  valid := by decide

/-- Orders of a city by state; what is wanted of the price does not suit a number. -/
def cityOrders : Predicate where
  wanted := [("city", .string "rome"), ("number", .nat 7), ("price", .array []),
    ("state", .string "open")]

theorem plan_accounting_cityOrders :
    ∃ plan, orders.plan cityOrders { sort := some ⟨"state_global", false⟩ } = .ok plan ∧
      orders.Accounts (orders.indexOf (some ⟨"state_global", false⟩))
        { sort := some ⟨"state_global", false⟩ } cityOrders.wanted plan ∧
      (∃ value, plan.hashKey = some ⟨"city", value⟩) ∧
      orders.plan cityOrders { sort := some ⟨"state_global", false⟩, strict := true } =
        .error (.unsupportedField "price" .number .list) := by
  obtain ⟨plan, hplan, haccounts, hbound, hstrict⟩ :=
    plan_accounting orders cityOrders { sort := some ⟨"state_global", false⟩ } (by decide)
  obtain rfl := Except.ok.inj hplan
  exact ⟨_, hplan, haccounts, hbound _ rfl, hstrict.trans rfl⟩

end Entity

end SchemaQuery
