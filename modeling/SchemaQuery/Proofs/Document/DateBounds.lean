import SchemaQuery.Document.Matching
import SchemaQuery.Proofs.Time.Texts

/-!
# Bounds of dates

A bound is written as text in a condition document and read again when documents are compared with
it. Of four-digit years it is then the same to the millisecond. The text of any other year has a
sign, with which no instant can be read, so such a bound compares with nothing.
-/

namespace SchemaQuery

namespace Instant

/-! ### Letters in dates -/

section

variable {c : Char} {cs rest : List Char}

theorem mem_digits (hmem : c ∈ cs) (hc : digit? c = none) (limit n : Nat) :
    c ∈ (digits limit n cs).2.2 := by
  induction limit generalizing n cs with
  | zero => exact hmem
  | succ limit ih =>
      cases cs with
      | nil => exact absurd hmem List.not_mem_nil
      | cons first cs =>
          rw [digits]
          cases hfirst : digit? first with
          | none => exact hmem
          | some d =>
              have hne : c ≠ first := by
                rintro rfl
                rw [hc] at hfirst
                cases hfirst
              exact ih ((List.mem_cons.mp hmem).resolve_left hne) (n * 10 + d)

theorem mem_of_number? {least most n : Nat} (hmem : c ∈ cs) (hc : digit? c = none)
    (hnumber : number? least most cs = some (n, rest)) : c ∈ rest := by
  have hkept := mem_digits hmem hc most 0
  simp only [number?] at hnumber
  split at hnumber
  next => rwa [(Prod.mk.inj (Option.some.inj hnumber)).2] at hkept
  next => cases hnumber

theorem mem_of_mark? {mark : Char} (hmem : c ∈ cs) (hc : c ≠ mark)
    (hmark : mark? mark cs = some rest) : c ∈ rest := by
  cases cs with
  | nil => cases hmark
  | cons first cs =>
      rw [mark?] at hmark
      split at hmark
      next hfirst =>
        obtain rfl := Option.some.inj hmark
        exact (List.mem_cons.mp hmem).resolve_left (hfirst ▸ hc)
      next => cases hmark

theorem mem_of_year? {year : Int} (hmem : c ∈ cs) (hc : digit? c = none) (hminus : c ≠ '-')
    (hplus : c ≠ '+') (hyear : year? cs = some (year, rest)) : c ∈ rest := by
  have hbehind {least most : Nat} {cs : List Char} {signed : Nat × List Char → Int × List Char}
      (hsigned : ∀ found, (signed found).2 = found.2) (hmem : c ∈ cs)
      (hread : (number? least most cs).map signed = some (year, rest)) : c ∈ rest := by
    obtain ⟨found, hnumber, hfound⟩ := Option.map_eq_some_iff.mp hread
    obtain rfl : found.2 = rest := (hsigned found).symm.trans (congrArg Prod.snd hfound)
    exact mem_of_number? hmem hc hnumber
  unfold year? at hyear
  split at hyear
  next => exact hbehind (fun _ => rfl) ((List.mem_cons.mp hmem).resolve_left hminus) hyear
  next => exact hbehind (fun _ => rfl) ((List.mem_cons.mp hmem).resolve_left hplus) hyear
  next => exact hbehind (fun _ => rfl) hmem hyear

theorem mem_trimStart (hmem : c ∈ cs) (hc : isBlank c = false) : c ∈ trimStart cs := by
  rw [← List.takeWhile_append_dropWhile (p := isBlank) (l := cs)] at hmem
  refine (List.mem_append.mp hmem).resolve_left fun hblank => ?_
  exact Bool.false_ne_true (hc.symm.trans (List.all_eq_true.mp List.all_takeWhile c hblank))

end

/-- Nothing that holds the mark between date and time is a date alone. -/
theorem ofDateText?_eq_none {cs : List Char} (hmem : 'T' ∈ cs) : ofDateText? cs = none := by
  refine Option.eq_none_iff_forall_ne_some.mpr fun instant hread => ?_
  simp only [ofDateText?, Option.bind_eq_bind, Option.bind_eq_some_iff] at hread
  obtain ⟨⟨year, behindYear⟩, hyear, marked, hmarked, ⟨month, behindMonth⟩, hmonth, again, hagain,
    ⟨day, behindDay⟩, hday, hread⟩ := hread
  have hmem : 'T' ∈ behindYear :=
    mem_of_year? (mem_trimStart hmem rfl) rfl (by decide) (by decide) hyear
  have hmem : 'T' ∈ behindMonth :=
    mem_of_number? (mem_trimStart (mem_of_mark? hmem (by decide) hmarked) rfl) rfl hmonth
  have hmem : 'T' ∈ behindDay :=
    mem_of_number? (mem_trimStart (mem_of_mark? hmem (by decide) hagain) rfl) rfl hday
  cases behindDay with
  | nil => exact absurd hmem List.not_mem_nil
  | cons c rest => cases hread

/-! ### Bounds -/

/-- What is written with a sign before the year is not read again. -/
theorem ofText?_text_eq_none {instant : Instant}
    (hyear : ¬(0 ≤ instant.date.year ∧ instant.date.year ≤ 9999)) :
    ofText? instant.text = none := by
  have hsign : ∃ sign rest, (sign = '-' ∨ sign = '+') ∧
      yearChars instant.date.year = sign :: rest := by
    rw [yearChars]
    by_cases hneg : instant.date.year < 0
    · exact ⟨_, _, Or.inl rfl, if_pos hneg⟩
    · refine ⟨_, _, Or.inr rfl, (if_neg hneg).trans (if_pos ?_)⟩
      omega
  have htime : 'T' ∈ instant.chars := by simp [chars]
  obtain ⟨sign, rest, hsign, hchars⟩ := hsign
  rw [ofText?, text, String.toList_ofList, ofDateText?_eq_none htime, Option.or_none]
  rw [chars, hchars]
  rcases hsign with rfl | rfl
  · rfl
  · rfl

theorem ofJson?_toJson (instant : Instant) : ofJson? instant.toJson = ofText? instant.text := by
  rw [toJson, ofJson?, ofMembers?, if_pos rfl, ofJson?]

end Instant

/-- **Bounds of dates.** The instant of a bound is found again in its written form, cut to
milliseconds, if its year has four digits; if not, no instant is found there. -/
theorem Json.dateBound_reads {field : String} {value bound : Json}
    (hbound : value.dateBound field = .ok bound) :
    ∃ instant, Instant.ofJson? value = some instant ∧ Instant.ofJson? bound =
      if 0 ≤ instant.date.year ∧ instant.date.year ≤ 9999 then some instant.cut else none := by
  rw [dateBound] at hbound
  split at hbound
  next instant hread =>
    obtain rfl := Except.ok.inj hbound
    refine ⟨instant, hread, ?_⟩
    rw [Instant.ofJson?_toJson]
    split
    next hyear => exact Instant.ofText?_text (Instant.isProper_of_ofJson? value instant hread) hyear
    next hyear => exact Instant.ofText?_text_eq_none hyear
  next => cases hbound

/-- A leap second, at a place an hour east, to a part of a millisecond. -/
theorem dateBound_reads_leapSecond : ∃ instant,
    Instant.ofText? "2017-01-01T00:59:60.0009+01:00" = some instant ∧
      Instant.ofText? "2016-12-31T23:59:60.000Z" = some instant.cut := by
  have hbound : (Json.string "2017-01-01T00:59:60.0009+01:00").dateBound "at" =
      .ok (.object [("$date", .string "2016-12-31T23:59:60.000Z")]) := by rfl
  obtain ⟨instant, hread, hagain⟩ := Json.dateBound_reads hbound
  obtain rfl : ⟨1483228799, 1000900000⟩ = instant := Option.some.inj hread
  exact ⟨_, hread, hagain⟩

/-- The first second of the year 10000 is not read again, so that no document is found from it on,
not even one of that second; nor is a second of the year before 0 read again. -/
theorem dateBound_not_read :
    ((Json.int 253402300800000).dateBound "at" =
        .ok (.object [("$date", .string "+10000-01-01T00:00:00.000Z")]) ∧
      Instant.ofJson? (.int 253402300800000) = some ⟨253402300800, 0⟩ ∧
      Instant.ofJson? (.object [("$date", .string "+10000-01-01T00:00:00.000Z")]) = none ∧
      Document.matchesAll [("at", .int 253402300800000)] [("at", .object
        [("$gte", .object [("$date", .string "+10000-01-01T00:00:00.000Z")])])] = .ok false) ∧
    (Json.string "0000-01-01T00:30:00+01:00").dateBound "at" =
        .ok (.object [("$date", .string "-0001-12-31T23:30:00.000Z")]) ∧
      Instant.ofJson? (.string "0000-01-01T00:30:00+01:00") = some ⟨-62167221000, 0⟩ ∧
      Instant.ofJson? (.object [("$date", .string "-0001-12-31T23:30:00.000Z")]) = none :=
  ⟨⟨by rfl, by rfl, by rfl, by rfl⟩, by rfl, by rfl, by rfl⟩

end SchemaQuery
