import SchemaQuery.Proofs.Predicate.Accounting

/-!
# Plans for either lookup

Whether a lookup narrows or scans decides where a condition is evaluated, and of a text that is
looked for in parts also whether it is looked for at all. It does not decide which values suit, so
both lookups fail alike; and where texts are matched as a whole, they ask the same in the same
order.
-/

namespace SchemaQuery

/-- What a condition asks, wherever it is evaluated. -/
def Condition.demand (condition : Condition) : List String × Test :=
  (condition.path, condition.test)

/-- Plans of a query and of a scan that differ only in this, and in the sides of their conditions. -/
structure Plan.SameDemands (narrowing whole : Plan) : Prop where
  query : narrowing.lookup = .query
  scan : whole.lookup = .scan
  hashKey : narrowing.hashKey = whole.hashKey
  conditions : narrowing.conditions.map Condition.demand = whole.conditions.map Condition.demand
  junction : narrowing.junction = whole.junction
  index : narrowing.index = whole.index
  descending : narrowing.descending = whole.descending
  skipped : narrowing.skipped = whole.skipped

theorem textTest?_equal (value : Json) (first second : Standing) :
    textTest? value first .equal = textTest? value second .equal := by
  unfold textTest?
  split
  next => rfl
  next => rfl
  next =>
    have hequal : (TextMatch.equal == .substring) = false := rfl
    simp only [hequal, Bool.and_false, Bool.false_eq_true, if_false]

/-- Where a field stands in the lookup does not change what its value asks for. -/
theorem map_demand_conditions? (field : String) (value : Json) (declared : Kind)
    (first second : Standing) :
    (conditions? field value declared first .equal).map (List.map Condition.demand) =
      (conditions? field value declared second .equal).map (List.map Condition.demand) := by
  cases declared with
  | string =>
      simp only [conditions?, textTest?_equal value first second, Option.map_map]
      rfl
  | number =>
      simp only [conditions?]
      split <;> rfl
  | dateRange =>
      simp only [conditions?]
      split
      next =>
        cases rangeBound value "begin" with
        | none => cases rangeBound value "end" <;> rfl
        | some low => rfl
      next => rfl
  | boolean | map | list | unknown => rfl

/-- Whether a value suits its field does not depend on where the field stands. -/
theorem isNone_conditions? (field : String) (value : Json) (declared : Kind)
    (first second : Standing) (mode : TextMatch) :
    (conditions? field value declared first mode).isNone =
      (conditions? field value declared second mode).isNone := by
  cases declared with
  | string =>
      simp only [conditions?, Option.isNone_map]
      unfold textTest?
      split <;> simp only [Option.isNone_map]
  | number =>
      simp only [conditions?]
      split <;> rfl
  | dateRange =>
      simp only [conditions?]
      split
      next =>
        cases rangeBound value "begin" with
        | none => cases rangeBound value "end" <;> rfl
        | some low => rfl
      next => rfl
  | boolean | map | list | unknown => rfl

namespace Entity

variable (entity : Entity) (index : Option Index)

theorem map_demand_asked? (member : String × Json) :
    (entity.asked? index .query .equal member).map (List.map Condition.demand) =
      (entity.asked? index .scan .equal member).map (List.map Condition.demand) := by
  unfold asked?
  split
  next => rfl
  next => exact map_demand_conditions? ..

theorem isNone_asked? (mode : TextMatch) (member : String × Json) :
    (entity.asked? index .query mode member).isNone =
      (entity.asked? index .scan mode member).isNone := by
  unfold asked?
  split
  next => rfl
  next => exact isNone_conditions? ..

theorem unsuited_query_eq_scan (mode : TextMatch) (record : Record) :
    entity.unsuited index .query mode record = entity.unsuited index .scan mode record :=
  List.filter_congr fun member _ => entity.isNone_asked? index mode member

theorem map_demand_flatMap (record : Record) :
    (record.flatMap fun member => (entity.asked? index .query .equal member).getD []).map
        Condition.demand =
      (record.flatMap fun member => (entity.asked? index .scan .equal member).getD []).map
        Condition.demand := by
  rw [List.map_flatMap, List.map_flatMap]
  refine List.flatMap_congr fun member _ => ?_
  have hgetD (own : Option (List Condition)) : (own.getD []).map Condition.demand =
      (own.map (List.map Condition.demand)).getD [] := by
    cases own <;> rfl
  rw [hgetD, hgetD, map_demand_asked?]

variable {entity} {predicate : Predicate} {options : Options}

theorem sameDemands_laidOut (hmode : options.textMatch = .equal) :
    Plan.SameDemands (entity.laidOut predicate { options with lookup := .query })
      (entity.laidOut predicate { options with lookup := .scan }) where
  query := rfl
  scan := rfl
  hashKey := rfl
  conditions := by
    simp only [laidOut, hmode]
    exact entity.map_demand_flatMap _ _
  junction := rfl
  index := rfl
  descending := rfl
  skipped := by
    simp only [laidOut, hmode]
    rw [unsuited_query_eq_scan]

/-- Either both lookups are refused for the same reason, or both are planned. -/
theorem plan_either (entity : Entity) (predicate : Predicate) (options : Options) :
    (∃ fault, entity.plan predicate { options with lookup := .query } = .error fault ∧
      entity.plan predicate { options with lookup := .scan } = .error fault) ∨
    ∃ narrowing whole, entity.plan predicate { options with lookup := .query } = .ok narrowing ∧
      entity.plan predicate { options with lookup := .scan } = .ok whole := by
  obtain ⟨junction, textMatch, sort, lookup, strict, pageSize⟩ := options
  cases hfault : entity.sortFault? predicate sort with
  | some fault =>
      exact .inl ⟨fault,
        plan_of_sortFault? { junction, textMatch, sort, lookup := .query, strict, pageSize } hfault,
        plan_of_sortFault? { junction, textMatch, sort, lookup := .scan, strict, pageSize } hfault⟩
  | none =>
      have hquery := plan_of_sortFault?_eq_none
        { junction, textMatch, sort, lookup := .query, strict, pageSize } hfault
      have hscan := plan_of_sortFault?_eq_none
        { junction, textMatch, sort, lookup := .scan, strict, pageSize } hfault
      simp only [unsuited_query_eq_scan] at hquery
      split at hscan
      next member hfirst =>
        rw [hfirst] at hquery
        exact .inl ⟨_, hquery, hscan⟩
      next hfirst =>
        rw [hfirst] at hquery
        exact .inr ⟨_, _, hquery, hscan⟩

/-- Plans of both lookups ask the same, if texts are matched as a whole. -/
theorem plan_query_scan (hmode : options.textMatch = .equal) :
    (∃ fault, entity.plan predicate { options with lookup := .query } = .error fault ∧
      entity.plan predicate { options with lookup := .scan } = .error fault) ∨
    ∃ narrowing whole, entity.plan predicate { options with lookup := .query } = .ok narrowing ∧
      entity.plan predicate { options with lookup := .scan } = .ok whole ∧
      narrowing.SameDemands whole := by
  refine (entity.plan_either predicate options).imp_right ?_
  rintro ⟨narrowing, whole, hquery, hscan⟩
  refine ⟨narrowing, whole, hquery, hscan, ?_⟩
  rw [eq_laidOut_of_plan hquery, eq_laidOut_of_plan hscan]
  exact sameDemands_laidOut hmode

end Entity

end SchemaQuery
