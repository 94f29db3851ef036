import SchemaQuery.Time.Calendar

/-!
# Days and dates

The date of a day is one of the calendar, and it is the date of that day only: counted in days again
it gives the day back.
-/

namespace SchemaQuery.Date

/-- A year has 365 days, and one more if it is a leap year. -/
theorem daysBeforeYear_succ (year : Int) :
    daysBeforeYear (year + 1) = daysBeforeYear year + (if isLeap year then 366 else 365) := by
  simp only [daysBeforeYear, isLeap, Bool.and_eq_true, Bool.or_eq_true, decide_eq_true_eq]
  split <;> omega

/-- A day lies in the year that is found for it. -/
theorem yearAt_spec (days : Int) :
    daysBeforeYear (yearAt days) ≤ days ∧ days < daysBeforeYear (yearAt days + 1) := by
  have hlow : daysBeforeYear (days * 400 / 146097 + 1 - 1) ≤ days := by
    simp only [daysBeforeYear]
    omega
  have hhigh : days < daysBeforeYear (days * 400 / 146097 + 1 + 1 + 1) := by
    simp only [daysBeforeYear]
    omega
  simp only [yearAt]
  split
  next hlt => exact ⟨hlow, by rwa [Int.sub_add_cancel]⟩
  next hle =>
    split
    next hnext => exact ⟨hnext, hhigh⟩
    next hnext => exact ⟨Int.not_lt.mp hle, Int.not_le.mp hnext⟩

theorem sum_cons (length : Nat) (rest : List Nat) :
    (length :: rest).foldl Nat.add 0 = length + rest.foldl Nat.add 0 := by
  have hassoc : Std.Associative Nat.add := ⟨Nat.add_assoc⟩
  calc (length :: rest).foldl Nat.add 0
    _ = rest.foldl Nat.add (Nat.add length 0) :=
        congrArg (rest.foldl Nat.add) (Nat.add_comm 0 length)
    _ = length + rest.foldl Nat.add 0 := List.foldl_assoc

/-- The month of a day, which is within it, and behind the months before it. -/
theorem monthAt_spec {lengths : List Nat} {day : Nat} (hday : day < lengths.foldl Nat.add 0) :
    ∃ length, lengths[(monthAt lengths day).1]? = some length ∧ (monthAt lengths day).2 < length ∧
      (lengths.take (monthAt lengths day).1).foldl Nat.add 0 + (monthAt lengths day).2 = day := by
  induction lengths generalizing day with
  | nil => cases hday
  | cons length rest ih =>
      rw [monthAt]
      split
      next hlt => exact ⟨length, rfl, hlt, Nat.zero_add _⟩
      next hge =>
        rw [sum_cons] at hday
        obtain ⟨found, hfound, hwithin, hsum⟩ :=
          ih (show day - length < rest.foldl Nat.add 0 by omega)
        refine ⟨found, hfound, hwithin, ?_⟩
        simp only
        rw [List.take_succ_cons, sum_cons, Nat.add_assoc, hsum]
        omega

theorem sum_monthLengths (year : Int) :
    ((monthLengths year).foldl Nat.add 0 : Nat) = if isLeap year then 366 else 365 := by
  rw [monthLengths]
  cases isLeap year with
  | true => rfl
  | false => rfl

/-- What makes a date one of the calendar, but for the range of years. -/
structure IsProper (date : Date) : Prop where
  month_pos : 1 ≤ date.month
  month_le : date.month ≤ 12
  day_pos : 1 ≤ date.day
  day_le : date.day ≤ ((monthLengths date.year)[date.month - 1]?).getD 0

theorem IsProper.day_le_31 {date : Date} (hproper : date.IsProper) : date.day ≤ 31 := by
  have hleap : (if isLeap date.year then 29 else 28) ≤ 31 := by
    split <;> decide
  refine Nat.le_trans hproper.day_le ?_
  cases hlength : (monthLengths date.year)[date.month - 1]? with
  | none => exact Nat.zero_le _
  | some length =>
      have hmem := List.mem_of_getElem? hlength
      simp only [monthLengths, List.mem_cons, List.not_mem_nil, or_false] at hmem
      simp only [Option.getD_some]
      omega

theorem ofDays_spec (days : Int) : (ofDays days).IsProper ∧ (ofDays days).toDays = days := by
  obtain ⟨hfirst, hlast⟩ := yearAt_spec (days + epoch)
  have hday : (days + epoch - daysBeforeYear (yearAt (days + epoch))).toNat <
      (monthLengths (yearAt (days + epoch))).foldl Nat.add 0 := by
    rw [sum_monthLengths]
    rw [daysBeforeYear_succ] at hlast
    split at hlast <;> split <;> omega
  obtain ⟨length, hlength, hwithin, hsum⟩ := monthAt_spec hday
  simp only [ofDays]
  generalize monthAt (monthLengths (yearAt (days + epoch)))
    (days + epoch - daysBeforeYear (yearAt (days + epoch))).toNat = place at hlength hwithin hsum ⊢
  have hmonth := (List.getElem?_eq_some_iff.mp hlength).1
  refine ⟨⟨Nat.le_add_left _ _, hmonth, Nat.le_add_left _ _, ?_⟩, ?_⟩
  · simp only [Nat.add_sub_cancel, hlength, Option.getD_some]
    exact hwithin
  · simp only [toDays, daysBeforeMonth, Nat.add_sub_cancel]
    omega

end SchemaQuery.Date
