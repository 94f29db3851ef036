import Mathlib.Data.List.Forall2
import Mathlib.Data.List.Nodup
import SchemaQuery.Proofs.Document.Paths
import SchemaQuery.Proofs.Document.Tests

/-!
# What a query selects

A plan describes documents: those with the bound value in the hash field, for which its conditions
hold, joined as it says. The query that it is written as selects just these, and evaluating it never
fails, whatever the documents hold.
-/

namespace SchemaQuery

open Document

/-- What a condition asks of a document. -/
def Condition.Holds (document : Record) (condition : Condition) : Prop :=
  condition.test.Holds (document.getPath? condition.path)

/-- What a plan says of a document. Without conditions, only the hash field counts. -/
structure Plan.Describes (plan : Plan) (document : Record) : Prop where
  hashKey : ∀ binding, plan.hashKey = some binding →
    Json.IsOrHas (document.get? binding.field) binding.value
  conditions : match plan.junction with
    | .and => ∀ condition ∈ plan.conditions, condition.Holds document
    | .or => plan.conditions = [] ∨ ∃ condition ∈ plan.conditions, condition.Holds document

namespace Document

/-! ### Condition documents -/

/-- A member can be evaluated. -/
def IsDecided (document : Record) (member : String × Json) : Prop :=
  ∃ holds, matchesMember document member.1 member.2 = .ok holds

variable {document : Record}

theorem matchesAll_of_decided {members : Record}
    (hdecided : ∀ member ∈ members, IsDecided document member) :
    ∃ holds, matchesAll document members = .ok holds ∧
      (holds = true ↔ ∀ member ∈ members, matchesMember document member.1 member.2 = .ok true) := by
  induction members with
  | nil => exact ⟨true, rfl, fun _ _ hmem => absurd hmem List.not_mem_nil, fun _ => rfl⟩
  | cons member rest ih =>
      obtain ⟨⟨first, hfirst⟩, hrest⟩ := List.forall_mem_cons.mp hdecided
      obtain ⟨holds, hholds, hiff⟩ := ih hrest
      rw [matchesAll, hfirst]
      cases first with
      | false =>
          refine ⟨false, rfl, fun hfalse => absurd hfalse Bool.false_ne_true, fun hall => ?_⟩
          have htrue := hall member List.mem_cons_self
          rw [hfirst] at htrue
          exact Except.ok.inj htrue
      | true =>
          refine ⟨holds, hholds, hiff.trans ?_⟩
          rw [List.forall_mem_cons]
          exact ⟨fun hall => ⟨hfirst, hall⟩, fun hall => hall.2⟩

theorem matchesAll_singleton (document : Record) (member : String × Json) :
    matchesAll document [member] = matchesMember document member.1 member.2 := by
  rw [matchesAll]
  split
  next heq => exact heq.symm
  next => rfl

/-- Clauses of one member each, one of which must hold. -/
theorem matchesMember_or {members : Record}
    (hdecided : ∀ member ∈ members, IsDecided document member) :
    ∃ holds, matchesMember document (operatorOf .or)
        (.array (members.map fun member => .object [member])) = .ok holds ∧
      (holds = true ↔ ∃ member ∈ members, matchesMember document member.1 member.2 = .ok true) := by
  obtain ⟨results, hresults, hany⟩ : ∃ results, clauseResults document (operatorOf .or)
      (members.map fun member => .object [member]) = .ok results ∧
      (results.any id = true ↔
        ∃ member ∈ members, matchesMember document member.1 member.2 = .ok true) := by
    induction members with
    | nil => exact ⟨[], rfl, by simp⟩
    | cons member rest ih =>
        obtain ⟨⟨first, hfirst⟩, hrest⟩ := List.forall_mem_cons.mp hdecided
        obtain ⟨results, hresults, hany⟩ := ih hrest
        refine ⟨first :: results, ?_, ?_⟩
        · rw [List.map_cons, clauseResults, matchesAll_singleton, hfirst, hresults]
        · simp only [List.any_cons, Bool.or_eq_true, hany, List.mem_cons, exists_eq_or_imp, hfirst,
            Except.ok.injEq, id]
  refine ⟨results.any id, ?_, hany⟩
  rw [matchesMember, if_neg (by decide), if_pos rfl, hresults]
  rfl

/-- A member that is no operator asks something of the value at its path. -/
theorem matchesMember_of_not_operator {name : String} (hname : startsWithDollar name = false)
    (condition : Json) : matchesMember document name condition =
      valueMatches (document.getPath? (pathOf name)) condition := by
  have hor : name ≠ operatorOf .or := ne_operatorOf hname .or
  have hand : name ≠ operatorOf .and := ne_operatorOf hname .and
  cases condition with
  | array clauses => rw [matchesMember, if_neg hand, if_neg hor]
  | _ =>
      rw [matchesMember]
      · rw [if_neg (not_or.mpr ⟨hand, hor⟩)]
      · simp

/-! ### Queries -/

/-- A condition with its path and what its test is written as. -/
def Writes (condition : Condition) (member : String × Json) : Prop :=
  member.1 = condition.dotted ∧
    Query.testValue condition.dotted condition.test = .ok member.2

theorem forall₂_writes {conditions : List Condition} {members : Record}
    (hmembers : Query.conditionMembers conditions = .ok members) :
    List.Forall₂ Writes conditions members := by
  induction conditions generalizing members with
  | nil =>
      obtain rfl := Except.ok.inj hmembers
      exact .nil
  | cons condition rest ih =>
      simp only [Query.conditionMembers, bind, Except.bind] at hmembers
      split at hmembers
      next => cases hmembers
      next value hvalue =>
        split at hmembers
        next => cases hmembers
        next more hmore =>
          obtain rfl := Except.ok.inj hmembers
          exact .cons ⟨rfl, hvalue⟩ (ih hmore)

/-- The years of all dates in the conditions have four digits. -/
def FourDigitYears (conditions : List Condition) : Prop :=
  ∀ condition ∈ conditions, ∀ bound ∈ condition.test.bounds, ∀ instant : Instant,
    Instant.ofJson? bound = some instant → 0 ≤ instant.date.year ∧ instant.date.year ≤ 9999

/-- A member is evaluated, and comes to what a condition asks. -/
def Evaluates (document : Record) (condition : Condition) (member : String × Json) : Prop :=
  ∃ holds, matchesMember document member.1 member.2 = .ok holds ∧
    (holds = true ↔ condition.Holds document)

theorem pathOf_dotted {p : String → Prop} (hpoints : ∀ name, p name → '.' ∉ name.toList)
    {condition : Condition} {names : List String}
    (hpath : ∃ name ∈ names, ∃ more, condition.path = [] ++ name :: more ∧
      ∀ other ∈ name :: more, p other) :
    pathOf condition.dotted = condition.path := by
  obtain ⟨name, -, more, hpath, hall⟩ := hpath
  rw [Condition.dotted, hpath]
  exact pathOf_intercalate (List.cons_ne_nil _ _) fun other hmem => hpoints other (hall other hmem)

theorem Writes.evaluates {condition : Condition} {member : String × Json} {names : List String}
    (hwrites : Writes condition member) (hplanned : condition.test.IsPlanned)
    (hpath : ∃ name ∈ names, ∃ more, condition.path = [] ++ name :: more ∧
      ∀ other ∈ name :: more, IsPlainName other)
    (hyears : ∀ bound ∈ condition.test.bounds, ∀ instant : Instant,
      Instant.ofJson? bound = some instant → 0 ≤ instant.date.year ∧ instant.date.year ≤ 9999) :
    Evaluates document condition member := by
  obtain ⟨hname, hvalue⟩ := hwrites
  have hfound : pathOf condition.dotted = condition.path := pathOf_dotted (fun _ h => h.1) hpath
  obtain ⟨name, -, more, hpath, hplain⟩ := hpath
  rw [List.nil_append] at hpath
  have hoperator : startsWithDollar condition.dotted = false := by
    rw [Condition.dotted, hpath]
    exact startsWithDollar_intercalate (hplain name List.mem_cons_self).2
  rw [Evaluates, hname, matchesMember_of_not_operator hoperator, hfound]
  exact valueMatches_testValue _ hplanned hvalue hyears

theorem forall₂_evaluates {conditions : List Condition} {members : Record} {names : List String}
    (hplanned : ∀ condition ∈ conditions, condition.test.IsPlanned)
    (hpaths : ∀ condition ∈ conditions, ∃ name ∈ names, ∃ more,
      condition.path = [] ++ name :: more ∧ ∀ other ∈ name :: more, IsPlainName other)
    (hyears : FourDigitYears conditions) (hwrites : List.Forall₂ Writes conditions members) :
    List.Forall₂ (Evaluates document) conditions members := by
  induction hwrites with
  | nil => exact .nil
  | cons hfirst _ ih =>
      obtain ⟨hplan, hplanned⟩ := List.forall_mem_cons.mp hplanned
      obtain ⟨hpath, hpaths⟩ := List.forall_mem_cons.mp hpaths
      obtain ⟨hyear, hyears⟩ := List.forall_mem_cons.mp hyears
      exact .cons (hfirst.evaluates hplan hpath hyear) (ih hplanned hpaths hyears)

theorem Evaluates.holds_iff {condition : Condition} {member : String × Json}
    (hevaluates : Evaluates document condition member) :
    matchesMember document member.1 member.2 = .ok true ↔ condition.Holds document := by
  obtain ⟨holds, hholds, hiff⟩ := hevaluates
  rw [hholds, Except.ok.injEq, hiff]

theorem evaluates_all {conditions : List Condition} {members : Record}
    (hall : List.Forall₂ (Evaluates document) conditions members) :
    (∀ member ∈ members, IsDecided document member) ∧
    ((∀ member ∈ members, matchesMember document member.1 member.2 = .ok true) ↔
      ∀ condition ∈ conditions, condition.Holds document) ∧
    ((∃ member ∈ members, matchesMember document member.1 member.2 = .ok true) ↔
      ∃ condition ∈ conditions, condition.Holds document) := by
  induction hall with
  | nil => simp
  | cons hfirst _ ih =>
      obtain ⟨hdecided, hforall, hexists⟩ := ih
      obtain ⟨holds, hholds, -⟩ := id hfirst
      refine ⟨List.forall_mem_cons.mpr ⟨⟨holds, hholds⟩, hdecided⟩, ?_, ?_⟩
      · rw [List.forall_mem_cons, List.forall_mem_cons, hforall, hfirst.holds_iff]
      · simp only [List.mem_cons, exists_eq_or_imp, hexists, hfirst.holds_iff]

/-- The hash equality beside other members. -/
theorem matchesAll_withHash {members : Record} {hashKey : Option HashBinding}
    (hdecided : ∀ member ∈ members, IsDecided document member)
    (hhash : ∀ binding, hashKey = some binding → IsPlainName binding.field ∧
      binding.field ∉ members.map Prod.fst ∧ binding.value.IsLeaf) :
    ∃ holds, matchesAll document (Query.withHash members hashKey) = .ok holds ∧
      (holds = true ↔ (∀ binding, hashKey = some binding →
          Json.IsOrHas (document.get? binding.field) binding.value) ∧
        ∀ member ∈ members, matchesMember document member.1 member.2 = .ok true) := by
  cases hashKey with
  | none =>
      obtain ⟨holds, hholds, hiff⟩ := matchesAll_of_decided hdecided
      exact ⟨holds, hholds, hiff.trans (by simp)⟩
  | some binding =>
      obtain ⟨⟨hpoints, hdollar⟩, hnew, hleaf⟩ := hhash binding rfl
      have hpath : pathOf binding.field = [binding.field] := pathOf_of_notMem hpoints
      have hmember : matchesMember document binding.field binding.value =
          .ok (equals (document.get? binding.field) binding.value) := by
        rw [matchesMember_of_not_operator hdollar, hpath]
        exact valueMatches_of_isLeaf _ hleaf
      have hperm := Members.set_perm hnew binding.value
      obtain ⟨holds, hholds, hiff⟩ := @matchesAll_of_decided document
        (Query.withHash members (some binding)) fun member hmem => by
          rcases List.mem_cons.mp (hperm.mem_iff.mp hmem) with rfl | hrest
          · exact ⟨_, hmember⟩
          · exact hdecided member hrest
      refine ⟨holds, hholds, hiff.trans ?_⟩
      have hset : (∀ member ∈ Query.withHash members (some binding),
            matchesMember document member.1 member.2 = .ok true) ↔
          ∀ member ∈ (binding.field, binding.value) :: members,
            matchesMember document member.1 member.2 = .ok true :=
        forall_congr' fun member => imp_congr_left hperm.mem_iff
      rw [hset, List.forall_mem_cons, hmember, Except.ok.injEq, equals_eq_true_iff hleaf]
      simp only [Option.some.injEq, forall_eq']

theorem names_of_forall₂ {conditions : List Condition} {members : Record}
    (hwrites : List.Forall₂ Writes conditions members) :
    members.map Prod.fst = conditions.map Condition.dotted := by
  induction hwrites with
  | nil => rfl
  | cons hfirst _ ih => rw [List.map_cons, List.map_cons, ih, hfirst.1]

section

variable {p : String → Prop} (hpoints : ∀ name, p name → '.' ∉ name.toList) {names : List String}
  {conditions : List Condition} (hpaths : PathsAmong p [] names (conditions.map Condition.path))

include hpoints hpaths

theorem nodup_dotted : (conditions.map Condition.dotted).Nodup := by
  have hmap : (conditions.map Condition.dotted).map pathOf = conditions.map Condition.path := by
    rw [List.map_map]
    exact List.map_congr_left fun condition hmem =>
      pathOf_dotted hpoints (hpaths.among _ (List.mem_map_of_mem hmem))
  refine List.Nodup.of_map pathOf ?_
  rw [hmap]
  exact hpaths.nodup

/-- A field without points that no path begins with is not the dotted path of a condition. -/
theorem notMem_dotted {field : String} (hname : p field) (hfield : field ∉ names) :
    field ∉ conditions.map Condition.dotted := by
  intro hmem
  obtain ⟨condition, hcondition, rfl⟩ := List.mem_map.mp hmem
  have hamong := hpaths.among _ (List.mem_map_of_mem hcondition)
  have hsingle : pathOf condition.dotted = [condition.dotted] :=
    pathOf_of_notMem (hpoints _ hname)
  obtain ⟨name, hname, more, hpath, -⟩ := id hamong
  rw [pathOf_dotted hpoints hamong, hpath] at hsingle
  exact hfield ((List.cons.inj hsingle).1 ▸ hname)

end

end Document

/-- The members of a query are evaluated as its plan says, whatever joins them. -/
theorem Plan.joinMembers_spec {plan : Plan} {names : List String} {members : Record}
    {document : Record} (hpaths : PathsAmong IsPlainName [] names (plan.conditions.map (·.path)))
    (hwrites : List.Forall₂ Writes plan.conditions members)
    (hall : List.Forall₂ (Evaluates document) plan.conditions members) :
    (∀ member ∈ Query.joinMembers plan.junction members, IsDecided document member) ∧
    (∀ field, IsPlainName field → field ∉ names →
      field ∉ (Query.joinMembers plan.junction members).map Prod.fst) ∧
    ((∀ member ∈ Query.joinMembers plan.junction members,
        matchesMember document member.1 member.2 = .ok true) ↔
      match plan.junction with
      | .and => ∀ condition ∈ plan.conditions, condition.Holds document
      | .or => plan.conditions = [] ∨ ∃ condition ∈ plan.conditions, condition.Holds document) := by
  obtain ⟨hdecided, hforall, hexists⟩ := evaluates_all hall
  have hnames := names_of_forall₂ hwrites
  cases plan.junction with
  | and =>
      have hperm : (Members.ofList members).Perm members :=
        Members.ofList_perm (hnames ▸ nodup_dotted (fun _ h => h.1) hpaths)
      refine ⟨fun member hmem => hdecided member (hperm.mem_iff.mp hmem),
        fun field hplain hfield => ?_, ?_⟩
      · rw [Query.joinMembers, (hperm.map Prod.fst).mem_iff, hnames]
        exact notMem_dotted (fun _ h => h.1) hpaths hplain hfield
      · rw [← hforall]
        exact forall_congr' fun member => imp_congr_left hperm.mem_iff
  | or =>
      cases members with
      | nil =>
          obtain hnone := List.forall₂_nil_right_iff.mp hwrites
          rw [hnone]
          simp [Query.joinMembers]
      | cons member rest =>
          obtain ⟨holds, hholds, hiff⟩ := matchesMember_or hdecided
          have hsome : plan.conditions ≠ [] := by
            intro hnone
            rw [hnone] at hwrites
            cases hwrites
          rw [Query.joinMembers, if_neg (by simp)]
          refine ⟨fun one hone => ?_, fun field hplain _ hmem => ?_, ?_⟩
          · rw [List.mem_singleton.mp hone]
            exact ⟨holds, hholds⟩
          · exact ne_operatorOf hplain.2 .or (List.mem_singleton.mp hmem)
          · rw [List.forall_mem_singleton, hholds, Except.ok.injEq, hiff, hexists]
            exact (or_iff_right hsome).symm

namespace Document

/-- **Selecting documents.** If the names in a predicate are plain, a bound hash value is a scalar
and the years of the dates have four digits, then the compiled query can be evaluated on every
document, and holds of just those that the plan describes. -/
theorem compile_selects {entity : Entity} {predicate : Predicate} {options : Options} {plan : Plan}
    {query : Query}
    (hdistinct : (Json.object predicate.wanted).IsDistinct)
    (hnames : (Json.object predicate.wanted).NamesAll IsPlainName)
    (hplan : entity.plan predicate { options with lookup := .scan } = .ok plan)
    (hquery : Query.compile entity predicate options none = .ok query)
    (hhash : ∀ binding, plan.hashKey = some binding →
      (Kind.ofValue binding.value).isScalar = true)
    (hyears : FourDigitYears plan.conditions) (document : Record) :
    ∃ holds, matchesAll document query.conditions = .ok holds ∧
      (holds = true ↔ plan.Describes document) := by
  obtain ⟨names, hamong, hbinding⟩ := Entity.plan_spec hdistinct hnames hplan
  simp only [Query.compile, hplan, Query.render, bind, Except.bind] at hquery
  split at hquery
  next => cases hquery
  next members hmembers =>
    obtain rfl := Except.ok.inj hquery
    have hwrites := forall₂_writes hmembers
    have hall : List.Forall₂ (Evaluates document) plan.conditions members :=
      forall₂_evaluates hamong.planned
        (fun condition hmem => hamong.paths.among _ (List.mem_map_of_mem hmem)) hyears hwrites
    obtain ⟨hdecided, hnew, hjoined⟩ := plan.joinMembers_spec hamong.paths hwrites hall
    obtain ⟨holds, hholds, hiff⟩ := matchesAll_withHash hdecided fun binding hbound =>
      ⟨(hbinding binding hbound).1, hnew _ (hbinding binding hbound).1 (hbinding binding hbound).2,
        Json.isLeaf_of_isScalar (hhash binding hbound)⟩
    refine ⟨holds, hholds, hiff.trans ?_⟩
    rw [hjoined]
    exact ⟨fun h => ⟨h.1, h.2⟩, fun h => ⟨h.hashKey, h.conditions⟩⟩

/-- Parts with a name, marks, a date and a description. -/
def catalog : Entity where
  schema := ⟨"catalog", [("id", { type := .string, isHashKey := true }),
    ("name", { type := .string }), ("tags", { type := .list }), ("at", { type := .date }),
    ("part", { type := .map })], by decide⟩
  valid := by decide

/-- A part that is not sold, of a code and a name, from a date on. -/
def unsold : Predicate where
  wanted := [("at", .object [("begin", .string "2024-03-01")]), ("id", .string "a"),
    ("name", .string "bolt"), ("part", .object [("code", .array [.nat 1])]),
    ("tags", .string "!sold")]

def unsoldPlan : Plan where
  hashKey := some ⟨"id", .string "a"⟩
  conditions := [⟨["at"], .range (some (.string "2024-03-01")) none, .filter⟩,
    ⟨["name"], .equal (.string "bolt"), .filter⟩,
    ⟨["part", "code"], .equal (.array [.nat 1]), .filter⟩,
    ⟨["tags"], .lacksItem (.string "sold"), .filter⟩]
  junction := .and
  lookup := .scan
  index := none
  descending := false
  skipped := []

def unsoldQuery : Query where
  conditions := [("at", .object [("$gte", .object [("$date",
      .string "2024-03-01T00:00:00.000Z")])]), ("id", .string "a"), ("name", .string "bolt"),
    ("part.code", .array [.nat 1]), ("tags", .object [("$ne", .string "sold")])]

def boltRow : Record :=
  [("at", .string "2024-03-01T00:00:00Z"), ("id", .string "a"),
    ("name", .array [.string "nut", .string "bolt"]), ("part", .object [("code", .array [.nat 1])])]

theorem compile_selects_boltRow : unsoldPlan.Describes boltRow := by
  have hhash (binding : HashBinding) (hbinding : unsoldPlan.hashKey = some binding) :
      (Kind.ofValue binding.value).isScalar = true := by
    obtain rfl := Option.some.inj hbinding
    rfl
  have hyears : FourDigitYears unsoldPlan.conditions := by
    intro condition hmem bound hbound instant hinstant
    simp only [unsoldPlan, List.mem_cons, List.not_mem_nil, or_false] at hmem
    rcases hmem with rfl | rfl | rfl | rfl
    · obtain rfl := List.mem_singleton.mp hbound
      obtain rfl : ⟨1709251200, 0⟩ = instant := Option.some.inj hinstant
      decide
    all_goals cases hbound
  obtain ⟨holds, hholds, hiff⟩ := @compile_selects catalog unsold {} unsoldPlan unsoldQuery
    (by decide) (by decide) (by rfl) (by rfl) hhash hyears boltRow
  have hmatches : matchesAll boltRow unsoldQuery.conditions = .ok true := by rfl
  rw [hmatches] at hholds
  exact hiff.mp (Except.ok.inj hholds).symm

/-- Parts whose code is an array, and one that has the array among its codes. -/
def coded : Predicate where
  wanted := [("part", .object [("code", .array [.nat 1])])]

def codesRow : Record := [("part", .object [("code", .array [.array [.nat 1]])])]

/-- Parts up to a date, and one of a date before it, in the same millisecond. -/
def upTo : Predicate where
  wanted := [("at", .object [("end", .string "2024-03-01T00:00:00.0005Z")])]

def earlierRow : Record := [("at", .string "2024-03-01T00:00:00.0003Z")]

/-- An array that is an item is not found by it, nor is a date that is behind the last one only
when that is cut to milliseconds. -/
theorem catalog_not_selected :
    (∃ plan query items, catalog.plan coded { lookup := .scan } = .ok plan ∧
      plan.hashKey = none ∧
      plan.conditions = [⟨["part", "code"], .equal (.array [.nat 1]), .filter⟩] ∧
      codesRow.getPath? ["part", "code"] = some (.array items) ∧ .array [.nat 1] ∈ items ∧
      Query.compile catalog coded {} none = .ok query ∧
      matchesAll codesRow query.conditions = .ok false) ∧
    ∃ plan query found last, catalog.plan upTo { lookup := .scan } = .ok plan ∧
      plan.hashKey = none ∧
      plan.conditions =
        [⟨["at"], .range none (some (.string "2024-03-01T00:00:00.0005Z")), .filter⟩] ∧
      Instant.ofText? "2024-03-01T00:00:00.0003Z" = some found ∧
      Instant.ofText? "2024-03-01T00:00:00.0005Z" = some last ∧ found.cut = last.cut ∧
      Query.compile catalog upTo {} none = .ok query ∧
      matchesAll earlierRow query.conditions = .ok false := by
  refine ⟨⟨_, { conditions := [("part.code", .array [.nat 1])] }, [.array [.nat 1]], rfl, rfl, rfl,
    rfl, List.mem_singleton_self _, by rfl, by rfl⟩, ?_⟩
  exact ⟨_, { conditions := [("at", .object [("$lte", .object [("$date",
      .string "2024-03-01T00:00:00.000Z")])])] }, ⟨1709251200, 300000⟩, ⟨1709251200, 500000⟩,
    rfl, rfl, rfl, by decide, by decide, by decide, by rfl, by rfl⟩

end Document

end SchemaQuery
