import SchemaQuery.Proofs.Document.Selecting
import SchemaQuery.Proofs.Predicate.Accounting
import SchemaQuery.Proofs.Schema.Indexes

/-!
# Queries and partitions

A query with a value for the hash field reads one partition: every document selected has that value
there. The value is written into the condition document as it is, though, beside conditions whose
objects are operators. So this is true of every value but an object of operators, which is obeyed
where it should be compared with.
-/

namespace SchemaQuery

/-! ### Declared hash fields -/

namespace Entity

variable {entity : Entity} {field : String}

theorem mem_names_of_hashKey (hfield : entity.layout.hashKey = some field) :
    field ∈ entity.schema.fields.map Prod.fst := by
  obtain ⟨entry, hentry, rfl⟩ := List.mem_map.mp (List.mem_of_mem_head? hfield)
  exact List.mem_map_of_mem (List.mem_of_mem_filter hentry)

/-- Whatever a query is ordered by, the hash field is declared. -/
theorem mem_names_of_hashField {sort : Option SortOrder}
    (hfield : entity.layout.hashField (entity.indexOf sort) = some field) :
    field ∈ entity.schema.fields.map Prod.fst := by
  cases hindex : entity.indexOf sort with
  | none =>
      rw [hindex] at hfield
      exact mem_names_of_hashKey hfield
  | some index =>
      rw [hindex] at hfield
      cases index with
      | onField _ => exact mem_names_of_hashKey hfield
      | global index =>
          rw [Layout.hashField, Option.some.injEq] at hfield
          obtain ⟨order, -, hfound⟩ := Option.bind_eq_some_iff.mp hindex
          subst hfield
          obtain ⟨hmem, -⟩ := entity.wellFormed.globalIndex?_eq_some_iff.mp
            (Layout.index?_eq_global_iff.mp hfound)
          obtain ⟨entry, hentry, hdeclares⟩ := entity.wellFormed.mem_globalIndexes_iff.mp hmem
          exact (entity.wellFormed.admits entry hentry).indexed _ hdeclares.hashKey

end Entity

/-! ### The hash equality -/

namespace Document

variable {document : Record}

theorem matchesMember_of_matchesAll {members : Record}
    (hmatches : matchesAll document members = .ok true) {member : String × Json}
    (hmem : member ∈ members) : matchesMember document member.1 member.2 = .ok true := by
  induction members with
  | nil => exact absurd hmem List.not_mem_nil
  | cons first rest ih =>
      rw [matchesAll] at hmatches
      split at hmatches
      next hfirst =>
        rcases List.mem_cons.mp hmem with rfl | hmem
        · exact hfirst
        · exact ih hmatches hmem
      next hfirst => exact absurd hmatches hfirst

/-- A value that is no object of operators is compared with. -/
theorem isOrHas_of_matchesMember {field : String} {value : Json} (hplain : IsPlainName field)
    (hoperator : isOperatorDocument value = false) (hne : value ≠ .null)
    (hmatches : matchesMember document field value = .ok true) :
    Json.IsOrHas (document.get? field) value := by
  have hpath : pathOf field = [field] := pathOf_of_notMem hplain.1
  rw [matchesMember_of_not_operator hplain.2, hpath, valueMatches, hoperator] at hmatches
  exact (equals_eq_true_iff_of_ne_null hne).mp (Except.ok.inj hmatches)

theorem mem_conditions_of_render {plan : Plan} {query : Query} {binding : HashBinding}
    (hquery : Query.render plan none = .ok query) (hbound : plan.hashKey = some binding) :
    (binding.field, binding.value) ∈ query.conditions := by
  simp only [Query.render, bind, Except.bind] at hquery
  split at hquery
  next => cases hquery
  next members _ =>
    obtain rfl := Except.ok.inj hquery
    rw [hbound]
    exact Members.mem_of_get?_eq_some (Members.get?_set_self _ _ _)

/-- What a value is bound as is an object of operators only if the value is one. -/
theorem bound_spec {value : Json} (isText : Prop) [Decidable isText]
    (hconcrete : value.isConcrete = true) (hoperator : isOperatorDocument value = false) :
    (if isText then value.asText?.getD value else value) ≠ .null ∧
      isOperatorDocument (if isText then value.asText?.getD value else value) = false := by
  have hvalue : value ≠ .null := (Json.isConcrete_iff.mp hconcrete).1
  split
  next =>
    cases htext : value.asText? with
    | none => exact ⟨hvalue, hoperator⟩
    | some text =>
        obtain ⟨part, rfl⟩ := Json.exists_eq_string_of_asText? htext
        exact ⟨nofun, rfl⟩
  next => exact ⟨hvalue, hoperator⟩

/-- **One partition.** If the fields of a schema have plain names and the value for the hash field
is not an object of operators, then a query selects only documents with the bound value there. -/
theorem compile_within_partition {entity : Entity} {predicate : Predicate} {options : Options}
    {query : Query} {field : String} {value : Json}
    (hnames : ∀ name ∈ entity.schema.fields.map Prod.fst, IsPlainName name)
    (hfield : entity.layout.hashField (entity.indexOf options.sort) = some field)
    (hvalue : predicate.wanted.get? field = some value) (hconcrete : value.isConcrete = true)
    (hoperator : isOperatorDocument value = false)
    (hquery : Query.compile entity predicate options none = .ok query) :
    ∃ plan bound, entity.plan predicate { options with lookup := .scan } = .ok plan ∧
      plan.hashKey = some ⟨field, bound⟩ ∧
      ∀ document, matchesAll document query.conditions = .ok true →
        Json.IsOrHas (document.get? field) bound := by
  simp only [Query.compile, bind, Except.bind] at hquery
  split at hquery
  next => cases hquery
  next plan hplan =>
    obtain ⟨hne, hbound⟩ := bound_spec (Kind.ofField entity.schema field = .string) hconcrete
      hoperator
    have hhash := entity.hashBinding?_of_isConcrete hvalue hconcrete
    have hkey : plan.hashKey = (entity.layout.hashField (entity.indexOf options.sort)).bind
        (entity.hashBinding? predicate) := by
      rw [Entity.eq_laidOut_of_plan hplan]
      rfl
    rw [hfield, Option.bind_some, hhash] at hkey
    refine ⟨plan, _, hplan, hkey, fun document hmatches => ?_⟩
    exact isOrHas_of_matchesMember (hnames field (Entity.mem_names_of_hashField hfield)) hbound hne
      (matchesMember_of_matchesAll hmatches (mem_conditions_of_render hquery hkey))

/-- Parts of one identifier, or what else is said of it. -/
def identified (id : Json) : Predicate := ⟨[("id", id)]⟩

theorem compile_within_partition_identified : ∃ plan bound,
    catalog.plan (identified (.string "a")) { lookup := .scan } = .ok plan ∧
      plan.hashKey = some ⟨"id", bound⟩ ∧
      ∀ document, matchesAll document [("id", .string "a")] = .ok true →
        Json.IsOrHas (document.get? "id") bound :=
  @compile_within_partition catalog (identified (.string "a")) {} { conditions := _ } "id" _
    (by decide) rfl rfl rfl rfl rfl

/-- An operator for a value is bound, and obeyed: it selects parts of every other identifier. -/
theorem catalog_leaves_partition :
    ∃ plan query, catalog.plan (identified (.object [("$ne", .string "a")])) { lookup := .scan } =
        .ok plan ∧
      plan.hashKey = some ⟨"id", .object [("$ne", .string "a")]⟩ ∧
      Query.compile catalog (identified (.object [("$ne", .string "a")])) {} none = .ok query ∧
      ∀ id, id ≠ "a" →
        matchesAll [("id", .string id)] query.conditions = .ok true ∧
        ¬Json.IsOrHas (some (.string id)) (.object [("$ne", .string "a")]) := by
  refine ⟨_, { conditions := [("id", .object [("$ne", .string "a")])] }, rfl, rfl, rfl, ?_⟩
  intro id hid
  constructor
  · have hdiffers : (id == "a") = false := beq_eq_false_iff_ne.mpr hid
    have hvalue : Record.getPath? [("id", .string id)] (pathOf "id") = some (.string id) := rfl
    rw [matchesAll_singleton, matchesMember_of_not_operator (by decide), hvalue]
    refine valueMatches_singleton _ _ (by decide) (by decide) ?_
    show Except.ok (!(id == "a")) = .ok true
    rw [hdiffers]
    rfl
  · rintro ⟨found, hfound, hsame | ⟨-, items, rfl, -⟩⟩
    · obtain rfl := Option.some.inj hfound
      cases hsame
    · cases hfound

end Document

end SchemaQuery
