import SchemaQuery.Document.Matching
import SchemaQuery.Proofs.Predicate.Planned
import SchemaQuery.Proofs.Text.Literals
import SchemaQuery.Proofs.Time.Texts

/-!
# Tests of documents

What a test asks of a value is said here without the operators that it is written with. Evaluating
what is written never fails, and comes to the same.
-/

namespace SchemaQuery

open Document

/-- The value is the wanted one, or an array with it among its items. An array is wanted only as a
whole. -/
def Json.IsOrHas (value : Option Json) (wanted : Json) : Prop :=
  ∃ found, value = some found ∧ ((found == wanted) = true ∨
    wanted.array? = none ∧ ∃ items, found = .array items ∧ ∃ item ∈ items, (item == wanted) = true)

/-- The date is not before the bound, which counts to the millisecond. -/
def Instant.IsFrom (bound : Json) (instant : Instant) : Prop :=
  ∃ first, Instant.ofJson? bound = some first ∧ (instant.compare first.cut).isGE = true

/-- The date is not behind the bound, which counts to the millisecond. -/
def Instant.IsUntil (bound : Json) (instant : Instant) : Prop :=
  ∃ last, Instant.ofJson? bound = some last ∧ (instant.compare last.cut).isLE = true

namespace Test

/-- What a test asks of the value at a path. -/
def Holds (value : Option Json) : Test → Prop
  | equal wanted | hasItem wanted => Json.IsOrHas value wanted
  | lacksItem item => ¬Json.IsOrHas value item
  | oneOf wanted => ∃ item ∈ wanted, Json.IsOrHas value item
  | contains text =>
      ∃ found part, value = some (.string found) ∧ text = .string part ∧ CaseFold.Within part found
  | range first last =>
      ∃ found instant, value = some found ∧ Instant.ofJson? found = some instant ∧
        (∀ bound, first = some bound → instant.IsFrom bound) ∧
        ∀ bound, last = some bound → instant.IsUntil bound

/-- The dates that bound a range. -/
def bounds : Test → List Json
  | range first last => first.toList ++ last.toList
  | _ => []

end Test

namespace Document

theorem exists_eq_array {items : List Json} {value : Json}
    (heq : (Json.array items == value) = true) : ∃ others, value = .array others := by
  cases value with
  | array others => exact ⟨others, rfl⟩
  | _ => cases heq

theorem equals_eq_true_iff_of_ne_null {value : Option Json} {wanted : Json}
    (hne : wanted ≠ .null) : equals value wanted = true ↔ Json.IsOrHas value wanted := by
  unfold equals
  split
  next items others =>
    constructor
    · exact fun heq => ⟨_, rfl, Or.inl heq⟩
    · rintro ⟨found, hfound, hsame | ⟨hnone, -⟩⟩
      · obtain rfl := Option.some.inj hfound
        exact hsame
      · cases hnone
  next _ _ items hother =>
    constructor
    · intro hany
      refine ⟨_, rfl, Or.inr ⟨?_, items, rfl, List.any_eq_true.mp hany⟩⟩
      cases wanted with
      | array others => exact absurd rfl (hother others)
      | _ => rfl
    · rintro ⟨found, hfound, hsame | ⟨-, others, rfl, hitem⟩⟩
      · obtain rfl := Option.some.inj hfound
        obtain ⟨others, rfl⟩ := exists_eq_array hsame
        exact absurd rfl (hother others)
      · obtain rfl := Json.array.inj (Option.some.inj hfound)
        exact List.any_eq_true.mpr hitem
  next _ _ found hother _ =>
    constructor
    · exact fun heq => ⟨_, rfl, Or.inl heq⟩
    · rintro ⟨_, hfound, hsame | ⟨-, items, rfl, -⟩⟩
      · obtain rfl := Option.some.inj hfound
        exact hsame
      · exact absurd (Option.some.inj hfound) (hother items)
  next =>
    constructor
    · intro hnull
      cases wanted with
      | null => exact absurd rfl hne
      | _ => cases hnull
    · rintro ⟨_, hfound, -⟩
      cases hfound

theorem equals_eq_true_iff {value : Option Json} {wanted : Json} (hleaf : wanted.IsLeaf) :
    equals value wanted = true ↔ Json.IsOrHas value wanted :=
  equals_eq_true_iff_of_ne_null (by rintro rfl; cases hleaf)

theorem isOperatorDocument_of_isLeaf {value : Json} (hleaf : value.IsLeaf) :
    isOperatorDocument value = false := by
  cases value with
  | object members =>
      cases members with
      | nil => rfl
      | cons member members => cases hleaf
  | _ => rfl

/-- A value that is written as it is. -/
theorem valueMatches_of_isLeaf (value : Option Json) {wanted : Json} (hleaf : wanted.IsLeaf) :
    valueMatches value wanted = .ok (equals value wanted) := by
  rw [valueMatches, isOperatorDocument_of_isLeaf hleaf]
  rfl

theorem operatorsHold_cons {operators : Record} {value : Option Json} {operator : String}
    {operand : Json} {holds : Bool} (rest : Record)
    (hholds : operatorHolds operators value operator operand = .ok holds) :
    operatorsHold operators value ((operator, operand) :: rest) =
      if holds then operatorsHold operators value rest else .ok false := by
  rw [operatorsHold, hholds]
  cases holds with
  | true => rfl
  | false => rfl

theorem operatorsHold_singleton (operators : Record) (value : Option Json) (operator : String)
    (operand : Json) : operatorsHold operators value [(operator, operand)] =
      operatorHolds operators value operator operand := by
  rw [operatorsHold]
  split
  next heq => exact heq.symm
  next => rfl

/-- One operator alone. -/
theorem valueMatches_singleton (value : Option Json) {operator : String} (operand : Json)
    (hoperator : startsWithDollar operator = true) (hdate : operator ≠ "$date") {holds : Bool}
    (hholds : operatorHolds [(operator, operand)] value operator operand = .ok holds) :
    valueMatches value (.object [(operator, operand)]) = .ok holds := by
  have hoperators : isOperatorDocument (.object [(operator, operand)]) = true := by
    simp [isOperatorDocument, Members.contains, Members.get?, hoperator, hdate]
  simp only [valueMatches, hoperators, if_true, Json.object?, Option.getD_some,
    operatorsHold_singleton, hholds]

/-- A pattern, whatever the case. -/
theorem valueMatches_pattern (value : Option Json) (part : String) :
    ∃ holds, valueMatches value (.object [("$options", .string "i"),
        ("$regex", .string (Pattern.escape part))]) = .ok holds ∧
      (holds = true ↔ ∃ found, value = some (.string found) ∧ CaseFold.Within part found) := by
  have hoperators : isOperatorDocument (.object [("$options", .string "i"),
      ("$regex", .string (Pattern.escape part))]) = true := by
    simp [isOperatorDocument, Members.contains, Members.get?, startsWithDollar]
  have hcase : ignoresCase [("$options", .string "i"), ("$regex", .string (Pattern.escape part))] =
      true := rfl
  have hparse : Pattern.ofText? (Pattern.escape part) = some (Pattern.literal part.toList) :=
    Pattern.ofText?_escape part
  have hoptions : operatorHolds [("$options", .string "i"),
      ("$regex", .string (Pattern.escape part))] value "$options" (.string "i") = .ok true := rfl
  rw [valueMatches, if_pos hoperators]
  simp only [Json.object?, Option.getD_some]
  rw [operatorsHold_cons _ hoptions, if_pos rfl, operatorsHold_singleton]
  simp only [operatorHolds, Json.string?, Option.getD_some, hparse, hcase]
  split
  next found =>
    refine ⟨_, rfl, (Pattern.isFoundIn_literal part found).trans ?_⟩
    constructor
    · exact fun hwithin => ⟨found, rfl, hwithin⟩
    · rintro ⟨_, hfound, hwithin⟩
      obtain rfl := Json.string.inj (Option.some.inj hfound)
      exact hwithin
  next hother =>
    refine ⟨false, rfl, ?_⟩
    constructor
    · exact fun hfalse => by cases hfalse
    · rintro ⟨found, rfl, -⟩
      exact absurd rfl (hother found)

/-! ### Dates -/

/-- The value as a date. -/
def dateOf (value : Option Json) : Option Instant := value.bind Instant.ofJson?

theorem compareBound_toJson {bound : Instant} (hproper : bound.IsProper)
    (hyear : 0 ≤ bound.date.year ∧ bound.date.year ≤ 9999) (value : Option Json) :
    compareBound value bound.toJson = (dateOf value).map (·.compare bound.cut) := by
  have hdate : (bound.toJson.get? "$date").isSome = true := rfl
  have hread : Instant.ofJson? bound.toJson = some bound.cut := by
    rw [Instant.toJson, Instant.ofJson?, Instant.ofMembers?, if_pos rfl, Instant.ofJson?]
    exact Instant.ofText?_text hproper hyear
  cases value with
  | none => rfl
  | some found =>
      simp only [compareBound, hdate, if_true, hread, dateOf, Option.bind_some]
      cases Instant.ofJson? found with
      | none => rfl
      | some instant => rfl

/-- A bound of a range as it is written: not at all, or as one operator with a date. -/
theorem boundMember_cases {operator path : String} {bound : Option Json} {members : Record}
    (hmembers : Query.boundMember operator path bound = .ok members) :
    (bound = none ∧ members = []) ∨ ∃ value instant, bound = some value ∧
      Instant.ofJson? value = some instant ∧ members = [(operator, instant.toJson)] := by
  cases bound with
  | none => exact Or.inl ⟨rfl, (Except.ok.inj hmembers).symm⟩
  | some value =>
      rw [Query.boundMember, Json.dateBound] at hmembers
      cases hinstant : Instant.ofJson? value with
      | none =>
          rw [hinstant] at hmembers
          cases hmembers
      | some instant =>
          rw [hinstant] at hmembers
          exact Or.inr ⟨value, instant, rfl, hinstant, (Except.ok.inj hmembers).symm⟩

section

variable {bound : Instant} (hproper : bound.IsProper)
  (hyear : 0 ≤ bound.date.year ∧ bound.date.year ≤ 9999) (operators : Record)
  (value : Option Json)

include hproper hyear

theorem operatorHolds_from : operatorHolds operators value "$gte" bound.toJson =
    .ok ((dateOf value).any fun instant => (instant.compare bound.cut).isGE) := by
  simp only [operatorHolds, compareBound_toJson hproper hyear]
  cases dateOf value with
  | none => rfl
  | some instant =>
      simp only [Option.map_some, Option.any_some]
      cases instant.compare bound.cut <;> rfl

theorem operatorHolds_until : operatorHolds operators value "$lte" bound.toJson =
    .ok ((dateOf value).any fun instant => (instant.compare bound.cut).isLE) := by
  simp only [operatorHolds, compareBound_toJson hproper hyear]
  cases dateOf value with
  | none => rfl
  | some instant =>
      simp only [Option.map_some, Option.any_some]
      cases instant.compare bound.cut <;> rfl

end

theorem valueMatches_between {early late : Instant} (value : Option Json)
    (hearly : early.IsProper) (hfirst : 0 ≤ early.date.year ∧ early.date.year ≤ 9999)
    (hlate : late.IsProper) (hlast : 0 ≤ late.date.year ∧ late.date.year ≤ 9999) :
    valueMatches value (.object [("$gte", early.toJson), ("$lte", late.toJson)]) =
      .ok ((dateOf value).any fun instant =>
        (instant.compare early.cut).isGE && (instant.compare late.cut).isLE) := by
  have hoperators : isOperatorDocument (.object [("$gte", early.toJson),
      ("$lte", late.toJson)]) = true := by
    simp [isOperatorDocument, Members.contains, Members.get?, startsWithDollar]
  have hboth := operatorsHold_cons [("$lte", late.toJson)] (operatorHolds_from hearly hfirst
    [("$gte", early.toJson), ("$lte", late.toJson)] value)
  rw [operatorsHold_singleton, operatorHolds_until hlate hlast] at hboth
  rw [valueMatches, if_pos hoperators]
  refine hboth.trans ?_
  cases dateOf value with
  | none => rfl
  | some instant =>
      simp only [Option.any_some]
      cases (instant.compare early.cut).isGE with
      | true => rfl
      | false => rfl

theorem holds_range_iff {value : Option Json} {first last : Option Json} :
    Test.Holds value (.range first last) ↔ ∃ instant, dateOf value = some instant ∧
      (∀ bound, first = some bound → instant.IsFrom bound) ∧
      ∀ bound, last = some bound → instant.IsUntil bound := by
  simp only [Test.Holds, dateOf, Option.bind_eq_some_iff]
  constructor
  · rintro ⟨found, instant, hfound, hinstant, hbounds⟩
    exact ⟨instant, ⟨found, hfound, hinstant⟩, hbounds⟩
  · rintro ⟨instant, ⟨found, hfound, hinstant⟩, hbounds⟩
    exact ⟨found, instant, hfound, hinstant, hbounds⟩

theorem forall_isFrom_iff {value : Json} {bound : Instant}
    (hbound : Instant.ofJson? value = some bound) (instant : Instant) :
    (∀ given, some value = some given → instant.IsFrom given) ↔
      (instant.compare bound.cut).isGE = true := by
  simp only [Option.some.injEq, forall_eq', Instant.IsFrom, hbound, exists_eq_left']

theorem forall_isUntil_iff {value : Json} {bound : Instant}
    (hbound : Instant.ofJson? value = some bound) (instant : Instant) :
    (∀ given, some value = some given → instant.IsUntil given) ↔
      (instant.compare bound.cut).isLE = true := by
  simp only [Option.some.injEq, forall_eq', Instant.IsUntil, hbound, exists_eq_left']

/-- A range, however many of its bounds are given. -/
theorem valueMatches_range (value : Option Json) {path : String} {first last : Option Json}
    {written : Json} (hbounded : first ≠ none ∨ last ≠ none)
    (hwritten : Query.testValue path (.range first last) = .ok written)
    (hyears : ∀ bound ∈ Test.bounds (.range first last), ∀ instant : Instant,
      Instant.ofJson? bound = some instant → 0 ≤ instant.date.year ∧ instant.date.year ≤ 9999) :
    ∃ holds, valueMatches value written = .ok holds ∧
      (holds = true ↔ Test.Holds value (.range first last)) := by
  rw [Query.testValue] at hwritten
  cases hfirsts : Query.boundMember "$gte" path first with
  | error error =>
      rw [hfirsts] at hwritten
      cases hwritten
  | ok firsts =>
      cases hlasts : Query.boundMember "$lte" path last with
      | error error =>
          rw [hfirsts, hlasts] at hwritten
          cases hwritten
      | ok lasts =>
          rw [hfirsts, hlasts] at hwritten
          have hobject : written = .object
              (if (firsts ++ lasts).isEmpty then [("$exists", .bool true)] else firsts ++ lasts) :=
            (Except.ok.inj hwritten).symm
          rw [hobject, holds_range_iff]
          have hinstant {bound : Json} {instant : Instant}
              (hbound : bound ∈ Test.bounds (.range first last))
              (hread : Instant.ofJson? bound = some instant) :
              instant.IsProper ∧ 0 ≤ instant.date.year ∧ instant.date.year ≤ 9999 :=
            ⟨Instant.isProper_of_ofJson? bound instant hread, hyears bound hbound instant hread⟩
          rcases boundMember_cases hfirsts with ⟨rfl, rfl⟩ | ⟨start, early, rfl, hearly, rfl⟩
          · rcases boundMember_cases hlasts with ⟨rfl, rfl⟩ | ⟨stop, late, rfl, hlate, rfl⟩
            · exact absurd hbounded (by simp)
            · obtain ⟨hproper, hyear⟩ := hinstant (by simp [Test.bounds]) hlate
              refine ⟨_, valueMatches_singleton value _ (by decide) (by decide)
                (operatorHolds_until hproper hyear _ value), ?_⟩
              simp only [Option.any_eq_true, forall_isUntil_iff hlate, reduceCtorEq, false_implies,
                implies_true, true_and]
          · obtain ⟨hproper, hyear⟩ := hinstant (by simp [Test.bounds]) hearly
            rcases boundMember_cases hlasts with ⟨rfl, rfl⟩ | ⟨stop, late, rfl, hlate, rfl⟩
            · refine ⟨_, valueMatches_singleton value _ (by decide) (by decide)
                (operatorHolds_from hproper hyear _ value), ?_⟩
              simp only [Option.any_eq_true, forall_isFrom_iff hearly, reduceCtorEq, false_implies,
                implies_true, and_true]
            · obtain ⟨hproper', hyear'⟩ := hinstant (by simp [Test.bounds]) hlate
              refine ⟨_, valueMatches_between value hproper hyear hproper' hyear', ?_⟩
              simp only [Option.any_eq_true, forall_isFrom_iff hearly, forall_isUntil_iff hlate,
                Bool.and_eq_true]

/-- **One test.** Evaluating what a planned test is written as never fails, and comes to what the
test asks. -/
theorem valueMatches_testValue (value : Option Json) {path : String} {test : Test} {written : Json}
    (hplanned : test.IsPlanned) (hwritten : Query.testValue path test = .ok written)
    (hyears : ∀ bound ∈ test.bounds, ∀ instant : Instant,
      Instant.ofJson? bound = some instant → 0 ≤ instant.date.year ∧ instant.date.year ≤ 9999) :
    ∃ holds, valueMatches value written = .ok holds ∧ (holds = true ↔ test.Holds value) := by
  cases test with
  | equal wanted =>
      obtain rfl := Except.ok.inj hwritten
      exact ⟨_, valueMatches_of_isLeaf value hplanned, equals_eq_true_iff hplanned⟩
  | hasItem wanted =>
      obtain rfl := Except.ok.inj hwritten
      exact ⟨_, valueMatches_of_isLeaf value hplanned, equals_eq_true_iff hplanned⟩
  | lacksItem item =>
      obtain rfl := Except.ok.inj hwritten
      refine ⟨!equals value item, valueMatches_singleton value _ (by decide) (by decide) rfl, ?_⟩
      rw [Bool.not_eq_true', ← Bool.not_eq_true, equals_eq_true_iff hplanned]
      rfl
  | oneOf wanted =>
      obtain rfl := Except.ok.inj hwritten
      refine ⟨wanted.any fun item => equals value item,
        valueMatches_singleton value _ (by decide) (by decide) rfl, ?_⟩
      rw [List.any_eq_true]
      exact exists_congr fun item => and_congr_right fun hitem =>
        equals_eq_true_iff (hplanned item hitem)
  | contains text =>
      obtain ⟨part, rfl⟩ := hplanned
      obtain rfl := Except.ok.inj hwritten
      obtain ⟨holds, hholds, hiff⟩ := valueMatches_pattern value part
      refine ⟨holds, hholds, hiff.trans ?_⟩
      constructor
      · rintro ⟨found, hfound, hwithin⟩
        exact ⟨found, part, hfound, rfl, hwithin⟩
      · rintro ⟨found, other, hfound, hother, hwithin⟩
        obtain rfl := Json.string.inj hother
        exact ⟨found, hfound, hwithin⟩
  | range first last => exact valueMatches_range value hplanned hwritten hyears

end Document

end SchemaQuery
