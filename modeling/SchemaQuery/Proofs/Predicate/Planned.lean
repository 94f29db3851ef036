import SchemaQuery.Predicate.Planning
import SchemaQuery.Proofs.Json.Objects

/-!
# What planning makes of a predicate

Each condition of a plan is on a path that begins with a field of the predicate other than the hash
field, and goes on along the names of an object in its value. If no object has a name twice, no two
conditions are on the same path. What a condition asks for is never `null`, nor an object with
members.
-/

namespace SchemaQuery

namespace Json

/-- No object has a name twice. -/
def IsDistinct (value : Json) : Prop := value.AllObjects fun members => (members.map (·.1)).Nodup

instance (value : Json) : Decidable value.IsDistinct :=
  inferInstanceAs (Decidable (value.AllObjects fun members => (members.map (·.1)).Nodup))

/-- Every name in a value has a property. -/
def NamesAll (p : String → Prop) (value : Json) : Prop :=
  value.AllObjects fun members => ∀ member ∈ members, p member.1

instance (p : String → Prop) [DecidablePred p] (value : Json) : Decidable (value.NamesAll p) :=
  inferInstanceAs (Decidable (value.AllObjects fun members => ∀ member ∈ members, p member.1))

/-- Neither `null` nor an object with members. -/
def IsLeaf : Json → Prop
  | null => False
  | object (_ :: _) => False
  | _ => True

end Json

/-! ### Paths -/

/-- Distinct paths that go on from a path. -/
structure PathsBehind (p : String → Prop) (path : List String) (paths : List (List String)) :
    Prop where
  behind : ∀ one ∈ paths, ∃ more, one = path ++ more ∧ ∀ name ∈ more, p name
  nodup : paths.Nodup

/-- Distinct paths that go on from a path with one of some names. -/
structure PathsAmong (p : String → Prop) (path names : List String) (paths : List (List String)) :
    Prop where
  among : ∀ one ∈ paths, ∃ name ∈ names, ∃ more, one = path ++ name :: more ∧
    ∀ other ∈ name :: more, p other
  nodup : paths.Nodup

variable {p : String → Prop} {path names : List String}

theorem PathsBehind.singleton (p : String → Prop) (path : List String) :
    PathsBehind p path [path] where
  behind one hmem := ⟨[], by rw [List.mem_singleton.mp hmem, List.append_nil],
    fun _ hname => absurd hname List.not_mem_nil⟩
  nodup := List.pairwise_singleton _ _

theorem PathsAmong.nil (p : String → Prop) (path names : List String) :
    PathsAmong p path names [] :=
  ⟨fun _ hmem => absurd hmem List.not_mem_nil, List.nodup_nil⟩

theorem PathsAmong.behind {paths : List (List String)} (hpaths : PathsAmong p path names paths) :
    PathsBehind p path paths where
  behind one hmem := by
    obtain ⟨name, -, more, hone, hmore⟩ := hpaths.among one hmem
    exact ⟨name :: more, hone, hmore⟩
  nodup := hpaths.nodup

/-- Another name keeps what is behind it apart from the rest. -/
theorem PathsAmong.cons {name : String} {first rest : List (List String)} (hname : p name)
    (hnew : name ∉ names) (hfirst : PathsBehind p (path ++ [name]) first)
    (hrest : PathsAmong p path names rest) : PathsAmong p path (name :: names) (first ++ rest) where
  among one hmem := by
    rcases List.mem_append.mp hmem with hmem | hmem
    · obtain ⟨more, hone, hmore⟩ := hfirst.behind one hmem
      exact ⟨name, List.mem_cons_self, more, by rw [hone, List.append_assoc]; rfl,
        List.forall_mem_cons.mpr ⟨hname, hmore⟩⟩
    · obtain ⟨other, hother, hmore⟩ := hrest.among one hmem
      exact ⟨other, List.mem_cons_of_mem _ hother, hmore⟩
  nodup := by
    rw [List.nodup_append]
    refine ⟨hfirst.nodup, hrest.nodup, fun one hone other hother heq => ?_⟩
    obtain ⟨more, hpath, -⟩ := hfirst.behind one hone
    obtain ⟨name', hname', more', hpath', -⟩ := hrest.among other hother
    rw [hpath, hpath', List.append_assoc] at heq
    obtain rfl := (List.cons.inj (List.append_cancel_left heq)).1
    exact hnew hname'

/-! ### Leaves -/

namespace Json

theorem leaf_spec (path : List String) {value : Json} (hleaf : value.IsLeaf) :
    PathsBehind p path ([(path, value)].map (·.1)) ∧ ∀ leaf ∈ [(path, value)], leaf.2.IsLeaf :=
  ⟨.singleton p path, fun _ hmem => (List.mem_singleton.mp hmem) ▸ hleaf⟩

mutual

theorem leaves_spec : ∀ (value : Json) (path : List String),
    value.IsDistinct → value.NamesAll p →
    PathsBehind p path ((value.leaves path).map (·.1)) ∧
      ∀ leaf ∈ value.leaves path, leaf.2.IsLeaf
  | null, path, _, _ =>
      ⟨(PathsAmong.nil p path []).behind, fun _ hmem => absurd hmem List.not_mem_nil⟩
  | bool _, path, _, _ => leaf_spec path trivial
  | number _, path, _, _ => leaf_spec path trivial
  | string _, path, _, _ => leaf_spec path trivial
  | array _, path, _, _ => leaf_spec path trivial
  | object members, path, hdistinct, hnames => by
      have hmembers :=
        memberLeaves_spec members path hdistinct.1 hdistinct.2 hnames.1 hnames.2
      cases members with
      | nil => exact leaf_spec path trivial
      | cons member members => exact ⟨hmembers.1.behind, hmembers.2⟩

theorem memberLeaves_spec : ∀ (members : List (String × Json)) (path : List String),
    (members.map (·.1)).Nodup → AllMembers (fun members => (members.map (·.1)).Nodup) members →
    (∀ member ∈ members, p member.1) →
    AllMembers (fun members => ∀ member ∈ members, p member.1) members →
    PathsAmong p path (members.map (·.1)) ((memberLeaves path members).map (·.1)) ∧
      ∀ leaf ∈ memberLeaves path members, leaf.2.IsLeaf
  | [], path, _, _, _, _ => ⟨.nil p path [], fun _ hmem => absurd hmem List.not_mem_nil⟩
  | (name, value) :: rest, path, hnodup, hdistinct, hnames, hall => by
      obtain ⟨hname, hnames⟩ := List.forall_mem_cons.mp hnames
      obtain ⟨hnew, hnodup⟩ := List.nodup_cons.mp hnodup
      obtain ⟨hfirst, hleaf⟩ := leaves_spec value (path ++ [name]) hdistinct.1 hall.1
      obtain ⟨hrest, hleaves⟩ := memberLeaves_spec rest path hnodup hdistinct.2 hnames hall.2
      refine ⟨?_, fun leaf hmem => (List.mem_append.mp hmem).elim (hleaf leaf) (hleaves leaf)⟩
      rw [memberLeaves, List.map_append]
      exact .cons hname hnew hfirst hrest

end

end Json

/-! ### Conditions -/

/-- A test as planning makes it. -/
def Test.IsPlanned : Test → Prop
  | equal value | hasItem value | lacksItem value => value.IsLeaf
  | contains text => ∃ part, text = .string part
  | oneOf values => ∀ value ∈ values, value.IsLeaf
  | range first last => first ≠ none ∨ last ≠ none

theorem Condition.isPlanned_ofLeaf (mode : TextMatch) {leaf : List String × Json}
    (hleaf : leaf.2.IsLeaf) : (Condition.ofLeaf mode leaf).test.IsPlanned := by
  simp only [Condition.ofLeaf]
  split
  next text _ => exact ⟨_, rfl⟩
  next => exact hleaf

theorem Json.isLeaf_of_isScalar {value : Json} (hscalar : (Kind.ofValue value).isScalar = true) :
    value.IsLeaf := by
  cases value with
  | null => cases hscalar
  | object members =>
      rw [Kind.ofValue] at hscalar
      split at hscalar
      next => cases hscalar
      next => cases hscalar
  | _ => trivial

theorem Json.exists_eq_string_of_asText? {value text : Json} (htext : value.asText? = some text) :
    ∃ part, text = .string part := by
  cases value with
  | string part => exact ⟨part, (Option.some.inj htext).symm⟩
  | number n => exact ⟨_, (Option.some.inj htext).symm⟩
  | bool b =>
      cases b with
      | true => exact ⟨_, (Option.some.inj htext).symm⟩
      | false => exact ⟨_, (Option.some.inj htext).symm⟩
  | _ => cases htext

theorem Json.exists_asText?_of_mapM {items texts : List Json}
    (htexts : items.mapM asText? = some texts) {text : Json} (hmem : text ∈ texts) :
    ∃ item ∈ items, item.asText? = some text := by
  induction items generalizing texts with
  | nil =>
      obtain rfl := Option.some.inj htexts
      exact absurd hmem List.not_mem_nil
  | cons item items ih =>
      simp only [List.mapM_cons, Option.bind_eq_bind, Option.bind_eq_some_iff, Option.pure_def,
        Option.some.injEq] at htexts
      obtain ⟨first, hfirst, rest, hrest, rfl⟩ := htexts
      rcases List.mem_cons.mp hmem with rfl | hmem
      · exact ⟨item, List.mem_cons_self, hfirst⟩
      · obtain ⟨other, hother, htext⟩ := ih hrest hmem
        exact ⟨other, List.mem_cons_of_mem _ hother, htext⟩

theorem isPlanned_of_textTest? {value : Json} {standing : Standing} {mode : TextMatch}
    {test : Test} (htest : textTest? value standing mode = some test) : test.IsPlanned := by
  unfold textTest? at htest
  split at htest
  next => cases htest
  next items _ =>
    obtain ⟨texts, htexts, rfl⟩ := Option.map_eq_some_iff.mp htest
    intro text hmem
    obtain ⟨item, -, htext⟩ := Json.exists_asText?_of_mapM htexts hmem
    obtain ⟨part, rfl⟩ := Json.exists_eq_string_of_asText? htext
    trivial
  next =>
    obtain ⟨text, htext, rfl⟩ := Option.map_eq_some_iff.mp htest
    obtain ⟨part, rfl⟩ := Json.exists_eq_string_of_asText? htext
    split
    next => exact ⟨part, rfl⟩
    next => trivial

theorem isPlanned_of_itemTest? {value : Json} {test : Test} (htest : itemTest? value = some test) :
    test.IsPlanned := by
  unfold itemTest? at htest
  split at htest
  next =>
    split at htest
    next =>
      split at htest
      next =>
        obtain rfl := Option.some.inj htest
        trivial
      next =>
        obtain rfl := Option.some.inj htest
        trivial
    next =>
      obtain rfl := Option.some.inj htest
      trivial
  next =>
    obtain rfl := Option.some.inj htest
    trivial
  next => cases htest

/-- A test that a value makes of the field itself. -/
inductive FieldTest (value : Json) (standing : Standing) (mode : TextMatch) : Test → Prop where
  | text {test : Test} :
      textTest? value standing mode = some test → FieldTest value standing mode test
  | item {test : Test} : itemTest? value = some test → FieldTest value standing mode test
  | scalar : (Kind.ofValue value).isScalar = true → FieldTest value standing mode (.equal value)
  | range {first last : Option Json} :
      first ≠ none ∨ last ≠ none → FieldTest value standing mode (.range first last)

theorem FieldTest.isPlanned {value : Json} {standing : Standing} {mode : TextMatch} {test : Test}
    (htest : FieldTest value standing mode test) : test.IsPlanned := by
  cases htest with
  | text htest => exact isPlanned_of_textTest? htest
  | item htest => exact isPlanned_of_itemTest? htest
  | scalar hscalar =>
      show value.IsLeaf
      exact Json.isLeaf_of_isScalar hscalar
  | range hgiven => exact hgiven

/-- A value asks one thing of the field itself, or one of each of its leaves. -/
theorem conditions?_cases {field : String} {value : Json} {declared : Kind}
    {standing : Standing} {mode : TextMatch} {conditions : List Condition}
    (hconditions : conditions? field value declared standing mode = some conditions) :
    (∃ test side, FieldTest value standing mode test ∧ conditions = [⟨[field], test, side⟩]) ∨
    conditions = (value.leaves [field]).map (Condition.ofLeaf mode) := by
  cases declared with
  | string =>
      obtain ⟨test, htest, rfl⟩ := Option.map_eq_some_iff.mp hconditions
      exact .inl ⟨test, _, .text htest, rfl⟩
  | list =>
      obtain ⟨test, htest, rfl⟩ := Option.map_eq_some_iff.mp hconditions
      exact .inl ⟨test, _, .item htest, rfl⟩
  | number | boolean =>
      simp only [conditions?, Option.ite_none_right_eq_some, Option.some.injEq] at hconditions
      obtain ⟨hscalar, rfl⟩ := hconditions
      exact .inl ⟨_, _, .scalar hscalar, rfl⟩
  | dateRange =>
      simp only [conditions?, Option.ite_none_right_eq_some] at hconditions
      obtain ⟨-, hbounds⟩ := hconditions
      split at hbounds
      next => cases hbounds
      next first last hgiven =>
        obtain rfl := Option.some.inj hbounds
        refine .inl ⟨_, _, .range ?_, rfl⟩
        by_cases hfirst : rangeBound value "begin" = none
        · exact Or.inr fun hlast => hgiven hfirst hlast
        · exact Or.inl hfirst
  | map =>
      simp only [conditions?, Option.ite_none_right_eq_some, Option.some.injEq] at hconditions
      exact .inr hconditions.2.symm
  | unknown => cases hconditions

/-- Conditions on distinct paths behind a path, as planning makes them. -/
structure ConditionsBehind (p : String → Prop) (path : List String)
    (conditions : List Condition) : Prop where
  paths : PathsBehind p path (conditions.map Condition.path)
  planned : ∀ condition ∈ conditions, condition.test.IsPlanned

theorem ConditionsBehind.singleton (p : String → Prop) (path : List String) {test : Test}
    (htest : test.IsPlanned) (side : Side) : ConditionsBehind p path [⟨path, test, side⟩] :=
  ⟨.singleton p path, fun _ hmem => (List.mem_singleton.mp hmem) ▸ htest⟩

/-- The conditions on one field. -/
theorem conditionsBehind_of_conditions? {field : String} {value : Json} {declared : Kind}
    {standing : Standing} {mode : TextMatch} {conditions : List Condition}
    (hdistinct : value.IsDistinct) (hnames : value.NamesAll p)
    (hconditions : conditions? field value declared standing mode = some conditions) :
    ConditionsBehind p [field] conditions := by
  rcases conditions?_cases hconditions with ⟨test, side, htest, rfl⟩ | rfl
  · exact .singleton p [field] htest.isPlanned side
  · obtain ⟨hpaths, hleaves⟩ := Json.leaves_spec value [field] hdistinct hnames
    refine ⟨?_, fun condition hmem => ?_⟩
    · rw [List.map_map]
      exact hpaths
    · obtain ⟨leaf, hleaf, rfl⟩ := List.mem_map.mp hmem
      exact Condition.isPlanned_ofLeaf mode (hleaves leaf hleaf)

/-! ### Plans -/

namespace Entity

/-- The names of the fields that may ask for conditions. -/
def activeFields (hashField : Option String) (record : Record) : List String :=
  (record.filter fun member => !isPassive hashField member.1 member.2).map (·.1)

theorem activeFields_cons (hashField : Option String) (name : String) (value : Json)
    (rest : Record) : activeFields hashField ((name, value) :: rest) =
      if isPassive hashField name value then activeFields hashField rest
      else name :: activeFields hashField rest := by
  rw [activeFields, List.filter_cons]
  cases isPassive hashField name value with
  | true => rfl
  | false => rfl

/-- Conditions on distinct paths that begin with one of some names, as planning makes them. -/
structure ConditionsAmong (p : String → Prop) (names : List String)
    (conditions : List Condition) : Prop where
  paths : PathsAmong p [] names (conditions.map Condition.path)
  planned : ∀ condition ∈ conditions, condition.test.IsPlanned

theorem conditionsAmong_of_conditionsOf {entity : Entity} {index : Option Index}
    {options : Options} {record : Record} {conditions : List Condition} {skipped : List String}
    (hnodup : (record.map (·.1)).Nodup) (hnames : ∀ member ∈ record, p member.1)
    (hdistinct : ∀ member ∈ record, member.2.IsDistinct)
    (hall : ∀ member ∈ record, member.2.NamesAll p)
    (hconditions : entity.conditionsOf index options record = .ok (conditions, skipped)) :
    ConditionsAmong p (activeFields (entity.layout.hashField index) record) conditions := by
  induction record generalizing conditions skipped with
  | nil =>
      obtain ⟨rfl, -⟩ := Prod.mk.inj (Except.ok.inj hconditions)
      exact ⟨.nil p [] [], fun _ hmem => absurd hmem List.not_mem_nil⟩
  | cons member rest ih =>
      obtain ⟨name, value⟩ := member
      obtain ⟨hnew, hnodup⟩ := List.nodup_cons.mp hnodup
      obtain ⟨hname, hnames⟩ := List.forall_mem_cons.mp hnames
      obtain ⟨hfirst, hdistinct⟩ := List.forall_mem_cons.mp hdistinct
      obtain ⟨hvalue, hall⟩ := List.forall_mem_cons.mp hall
      have hrest := fun {more : List Condition} {skipped : List String} =>
        @ih more skipped hnodup hnames hdistinct hall
      have hactive : name ∉ activeFields (entity.layout.hashField index) rest := fun hmem =>
        hnew (List.mem_map.mpr ((List.mem_map.mp hmem).imp fun member hmember =>
          ⟨(List.mem_filter.mp hmember.1).1, hmember.2⟩))
      rw [conditionsOf] at hconditions
      rw [activeFields_cons]
      split at hconditions
      next hpassive =>
        rw [if_pos hpassive]
        exact hrest hconditions
      next hactive' =>
        rw [if_neg hactive']
        simp only at hconditions
        split at hconditions
        next own hown =>
          have hbehind := conditionsBehind_of_conditions? hfirst hvalue hown
          split at hconditions
          next more skipped' hmore =>
            obtain ⟨rfl, -⟩ := Prod.mk.inj (Except.ok.inj hconditions)
            have hamong := hrest hmore
            refine ⟨?_, fun condition hmem => (List.mem_append.mp hmem).elim
              (hbehind.planned condition) (hamong.planned condition)⟩
            rw [List.map_append]
            exact .cons hname hactive hbehind.paths hamong.paths
          next => cases hconditions
        next =>
          split at hconditions
          next => cases hconditions
          next =>
            split at hconditions
            next more skipped' hmore =>
              obtain ⟨rfl, -⟩ := Prod.mk.inj (Except.ok.inj hconditions)
              have hamong := hrest hmore
              refine ⟨⟨fun one hmem => ?_, hamong.paths.nodup⟩, hamong.planned⟩
              obtain ⟨other, hother, hone⟩ := hamong.paths.among one hmem
              exact ⟨other, List.mem_cons_of_mem _ hother, hone⟩
            next => cases hconditions

theorem notMem_activeFields (field : String) (record : Record) :
    field ∉ activeFields (some field) record := by
  intro hmem
  obtain ⟨member, hmember, rfl⟩ := List.mem_map.mp hmem
  have hpassive := (List.mem_filter.mp hmember).2
  simp [isPassive] at hpassive

/-- **Planned conditions.** Their paths are distinct, begin with fields of the predicate and go on
along names in its values; none is on the hash field, which is bound on its own. -/
theorem plan_spec {entity : Entity} {predicate : Predicate} {options : Options} {plan : Plan}
    (hdistinct : (Json.object predicate.wanted).IsDistinct)
    (hnames : (Json.object predicate.wanted).NamesAll p)
    (hplan : entity.plan predicate options = .ok plan) :
    ∃ names, ConditionsAmong p names plan.conditions ∧
      ∀ binding, plan.hashKey = some binding → p binding.field ∧ binding.field ∉ names := by
  simp only [Entity.plan, bind, Except.bind] at hplan
  split at hplan
  next => cases hplan
  next index _ =>
    split at hplan
    next => cases hplan
    next =>
      split at hplan
      next => cases hplan
      next found hfound =>
        obtain rfl := Except.ok.inj hplan
        obtain ⟨conditions, skipped⟩ := found
        refine ⟨_, conditionsAmong_of_conditionsOf hdistinct.1 hnames.1
          (Json.allMembers_iff.mp hdistinct.2) (Json.allMembers_iff.mp hnames.2) hfound,
          fun binding hbinding => ?_⟩
        obtain ⟨field, hfield, hbound⟩ := Option.bind_eq_some_iff.mp hbinding
        rw [hashBinding?] at hbound
        split at hbound
        next => cases hbound
        next value hvalue =>
          split at hbound
          next =>
            obtain rfl := Option.some.inj hbound
            rw [hfield]
            exact ⟨hnames.1 _ (Members.mem_of_get?_eq_some hvalue), notMem_activeFields field _⟩
          next => cases hbound

end Entity

end SchemaQuery
