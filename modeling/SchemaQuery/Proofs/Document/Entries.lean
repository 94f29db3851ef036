import SchemaQuery.Proofs.Document.Selecting
import SchemaQuery.Proofs.Json.Objects

/-!
# The entries of a condition document

A condition document is to have one entry for each condition of a plan, or one for all of them if
they are alternatives, and one for the hash key. It is put together by name, and conditions are
named by their paths with points. So it has all of the entries unless two of them have one name:
then only the last of these is left. Names of fields that have no points in them never come to that.
-/

namespace SchemaQuery

open Document

/-! ### Entries -/

namespace Document

/-- Alternatives are one entry with a clause for each; without any there is no entry. -/
def alternatives : Record → Record
  | [] => []
  | members => [("$or", .array (members.map fun member => .object [member]))]

end Document

namespace Plan

/-- The entries that a plan asks for, given what its conditions are written as. -/
def entries (plan : Plan) (members : Record) : List (String × Json) :=
  (match plan.junction with
    | .and => members
    | .or => alternatives members) ++
  plan.hashKey.toList.map fun binding => (binding.field, binding.value)

/-- The names under which a plan asks for entries. -/
def entryNames (plan : Plan) : List String :=
  (match plan.junction with
    | .and => plan.conditions.map Condition.dotted
    | .or => if plan.conditions.isEmpty then [] else ["$or"]) ++
  plan.hashKey.toList.map HashBinding.field

theorem names_entries {plan : Plan} {members : Record}
    (hwrites : List.Forall₂ Writes plan.conditions members) :
    (plan.entries members).map Prod.fst = plan.entryNames := by
  rw [entries, entryNames, List.map_append, List.map_map]
  refine congrArg₂ List.append ?_ rfl
  generalize plan.conditions = conditions at hwrites ⊢
  cases plan.junction with
  | and => exact names_of_forall₂ hwrites
  | or =>
      cases hwrites with
      | nil => rfl
      | cons _ _ => rfl

/-- A condition document is put together of the entries by their names. -/
theorem withHash_joinMembers (plan : Plan) (members : Record) :
    Query.withHash (Query.joinMembers plan.junction members) plan.hashKey =
      Members.ofList (plan.entries members) := by
  have hjoined : Query.joinMembers plan.junction members =
      Members.ofList (match plan.junction with
        | .and => members
        | .or => alternatives members) := by
    cases plan.junction with
    | and => rfl
    | or =>
        cases members with
        | nil => rfl
        | cons _ _ => rfl
  rw [entries, Members.ofList, Members.merge, List.foldl_append, hjoined]
  cases plan.hashKey with
  | none => rfl
  | some _ => rfl

end Plan

/-! ### Names without points -/

namespace Document

/-- A name that is no path and not that of alternatives. -/
def IsEntryName (name : String) : Prop := '.' ∉ name.toList ∧ name ≠ "$or"

instance (name : String) : Decidable (IsEntryName name) :=
  inferInstanceAs (Decidable ('.' ∉ name.toList ∧ name ≠ "$or"))

end Document

theorem Plan.nodup_entryNames {entity : Entity} {predicate : Predicate} {options : Options}
    {plan : Plan} (hdistinct : (Json.object predicate.wanted).IsDistinct)
    (hnames : (Json.object predicate.wanted).NamesAll IsEntryName)
    (hplan : entity.plan predicate options = .ok plan) : plan.entryNames.Nodup := by
  obtain ⟨names, hamong, hbinding⟩ := Entity.plan_spec hdistinct hnames hplan
  have hpoints (name : String) (hname : IsEntryName name) : '.' ∉ name.toList := hname.1
  rw [entryNames, List.nodup_append]
  refine ⟨?_, ?_, ?_⟩
  · cases plan.junction with
    | and => exact nodup_dotted hpoints hamong.paths
    | or =>
        cases plan.conditions.isEmpty with
        | true => exact List.nodup_nil
        | false => exact List.nodup_singleton _
  · cases plan.hashKey with
    | none => exact List.nodup_nil
    | some _ => exact List.nodup_singleton _
  · rintro name hname field hfield rfl
    obtain ⟨binding, hbound, rfl⟩ := List.mem_map.mp hfield
    obtain ⟨hentry, hnew⟩ := hbinding binding (Option.mem_toList.mp hbound)
    cases hjunction : plan.junction with
    | and =>
        rw [hjunction] at hname
        exact notMem_dotted hpoints hamong.paths hentry hnew hname
    | or =>
        simp only [hjunction] at hname
        split at hname
        next => exact absurd hname List.not_mem_nil
        next => exact hentry.2 (List.mem_singleton.mp hname)

namespace Document

/-- **Entries of a condition document.** A compiled document has just the entries that its plan asks
for if no two of these have one name, and only then; where no name in the predicate has points or is
that of alternatives, no two have. -/
theorem compile_keeps_entries {entity : Entity} {predicate : Predicate} {options : Options}
    {query : Query} (hquery : Query.compile entity predicate options none = .ok query) :
    ∃ plan members, entity.plan predicate { options with lookup := .scan } = .ok plan ∧
      List.Forall₂ Writes plan.conditions members ∧
      (query.conditions.Perm (plan.entries members) ↔ plan.entryNames.Nodup) ∧
      ((Json.object predicate.wanted).IsDistinct →
        (Json.object predicate.wanted).NamesAll IsEntryName → plan.entryNames.Nodup) := by
  simp only [Query.compile, bind, Except.bind] at hquery
  split at hquery
  next => cases hquery
  next plan hplan =>
    simp only [Query.render, bind, Except.bind] at hquery
    split at hquery
    next => cases hquery
    next members hmembers =>
      obtain rfl := Except.ok.inj hquery
      have hwrites := forall₂_writes hmembers
      refine ⟨plan, members, hplan, hwrites, ?_, fun hdistinct hnames =>
        Plan.nodup_entryNames hdistinct hnames hplan⟩
      rw [← plan.names_entries hwrites, ← Members.ofList_perm_iff, ← plan.withHash_joinMembers]
      rfl

/-- Shops by their names, with a field named like a path into another one. -/
def shops : Entity where
  schema := ⟨"shops", [("id", { type := .string, isHashKey := true }), ("place", { type := .map }),
    ("place.floor", { type := .number })], by decide⟩
  valid := by decide

/-- A shop in a part of a house. -/
def inPlace : Predicate where
  wanted := [("id", .string "x"), ("place", .object [("floor", .nat 1), ("hall", .string "east")])]

theorem shops_inPlace_keeps : ∃ plan members query,
    shops.plan inPlace { lookup := .scan } = .ok plan ∧
    List.Forall₂ Writes plan.conditions members ∧
    Query.compile shops inPlace {} none = .ok query ∧
    query.conditions.Perm (plan.entries members) := by
  obtain ⟨query, hquery⟩ : ∃ query, Query.compile shops inPlace {} none = .ok query := ⟨_, rfl⟩
  obtain ⟨plan, members, hplan, hwrites, hiff, hnodup⟩ := compile_keeps_entries hquery
  exact ⟨plan, members, query, hplan, hwrites, hquery,
    hiff.mpr (hnodup (by decide) (by decide))⟩

/-- The floor of the place, and the field that is named like the path to it. -/
def onFloors : Predicate where
  wanted := [("place", .object [("floor", .nat 1)]), ("place.floor", .nat 2)]

/-- Bills by a field that is named like alternatives. -/
def bills : Entity where
  schema := ⟨"bills", [("$or", { type := .string, isHashKey := true }),
    ("sum", { type := .number })], by decide⟩
  valid := by decide

def ofSum : Predicate where
  wanted := [("$or", .string "x"), ("sum", .nat 1)]

/-- Of two conditions that are written alike one is left, so that a document is selected for which
the other does not hold; and the hash key takes the place of alternatives. -/
theorem shops_lose_condition :
    (∃ plan query, shops.plan onFloors { lookup := .scan } = .ok plan ∧
      plan.conditions = [⟨["place", "floor"], .equal (.nat 1), .filter⟩,
        ⟨["place.floor"], .equal (.nat 2), .filter⟩] ∧ plan.hashKey = none ∧
      Query.compile shops onFloors {} none = .ok query ∧
      query.conditions = [("place.floor", .nat 2)] ∧
      matchesAll [("place", .object [("floor", .nat 2)])] query.conditions = .ok true) ∧
    ∃ plan query, bills.plan ofSum { junction := .or, lookup := .scan } = .ok plan ∧
      plan.conditions = [⟨["sum"], .equal (.nat 1), .filter⟩] ∧
      plan.hashKey = some ⟨"$or", .string "x"⟩ ∧
      Query.compile bills ofSum { junction := .or } none = .ok query ∧
      query.conditions = [("$or", .string "x")] :=
  ⟨⟨_, _, rfl, rfl, rfl, rfl, rfl, rfl⟩, _, _, rfl, rfl, rfl, rfl, rfl⟩

end Document

end SchemaQuery
