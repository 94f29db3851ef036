import SchemaQuery.Document.DateBound
import SchemaQuery.Proofs.Time.Calendar

/-!
# Instants and their texts

Every instant that is read has its nanoseconds within the second, or within a leap second at the end
of a minute. Written and read again such an instant is the same but for the part of it below the
millisecond, if its year has four digits.
-/

namespace SchemaQuery.Instant

/-! ### Numbers -/

theorem digit?_of_isDigit {c : Char} (hdigit : c.isDigit = true) :
    digit? c = some (c.toNat - '0'.toNat) := by
  simp only [Char.isDigit, ge_iff_le, Bool.and_eq_true, decide_eq_true_eq] at hdigit
  rw [digit?, if_pos (show '0' ≤ c ∧ c ≤ '9' from hdigit)]

/-- Digits are read to the last, if they are as many as may be read or something else follows. -/
theorem digits_append {cs : List Char} (hcs : ∀ c ∈ cs, c.isDigit = true) {more : Nat}
    {rest : List Char} (hrest : more = 0 ∨ ∃ c tail, rest = c :: tail ∧ digit? c = none) (n : Nat) :
    digits (cs.length + more) n (cs ++ rest) = (Nat.ofDigitChars 10 cs n, cs.length, rest) := by
  induction cs generalizing n with
  | nil =>
      rw [List.length_nil, Nat.zero_add, List.nil_append, Nat.ofDigitChars_nil]
      rcases hrest with rfl | ⟨c, tail, rfl, hc⟩
      · rfl
      · cases more with
        | zero => rfl
        | succ more =>
            rw [digits, hc]
  | cons c cs ih =>
      obtain ⟨hc, hcs⟩ := List.forall_mem_cons.mp hcs
      rw [List.length_cons, Nat.add_right_comm, List.cons_append, digits, digit?_of_isDigit hc,
        Nat.ofDigitChars_cons, Nat.mul_comm 10 n]
      simp only [ih hcs]

theorem isDigit_of_mem_padded {width n : Nat} {c : Char} (hmem : c ∈ padded width n) :
    c.isDigit = true := by
  rcases List.mem_append.mp hmem with h | h
  · rw [List.eq_of_mem_replicate h]
    rfl
  · exact Nat.isDigit_of_mem_toDigits (by decide) (by decide) h

theorem ofDigitChars_padded (width n : Nat) : Nat.ofDigitChars 10 (padded width n) 0 = n := by
  have hzeros (count : Nat) : Nat.ofDigitChars 10 (List.replicate count '0') 0 = 0 := by
    induction count with
    | zero => rfl
    | succ count ih => rw [List.replicate_succ, Nat.ofDigitChars_cons]; exact ih
  rw [padded, Nat.ofDigitChars_append, hzeros, Nat.ofDigitChars_ten_toDigits]

theorem length_padded {width n : Nat} (hwidth : 0 < width) (hn : n < Nat.pow 10 width) :
    (padded width n).length = width := by
  have hle : (Nat.toDigits 10 n).length ≤ width :=
    (Nat.length_toDigits_le_iff (by decide) hwidth).mpr hn
  rw [padded, List.length_append, List.length_replicate]
  omega

/-- A number that was written with some width. -/
theorem number?_padded {width n : Nat} (hwidth : 0 < width) (hn : n < Nat.pow 10 width)
    (rest : List Char) : number? width width (padded width n ++ rest) = some (n, rest) := by
  have hdigits := @digits_append (padded width n) (fun _ => isDigit_of_mem_padded) 0 rest
    (Or.inl rfl) 0
  rw [length_padded hwidth hn, Nat.add_zero, ofDigitChars_padded] at hdigits
  rw [number?, hdigits]
  exact if_pos (Nat.le_refl width)

theorem fraction?_padded {millis : Nat} (hmillis : millis < 1000) :
    fraction? ('.' :: (padded 3 millis ++ ['Z'])) = some (millis * 1000000, ['Z']) := by
  have hdigits := @digits_append (padded 3 millis) (fun _ => isDigit_of_mem_padded) 6 ['Z']
    (Or.inr ⟨'Z', [], rfl, rfl⟩) 0
  rw [length_padded (by decide) hmillis, ofDigitChars_padded] at hdigits
  rw [fraction?, hdigits]
  rfl

theorem digit?_le {c : Char} {d : Nat} (hdigit : digit? c = some d) : d ≤ 9 := by
  rw [digit?] at hdigit
  split at hdigit
  next hrange =>
    obtain rfl := Option.some.inj hdigit
    have hmost : c.toNat ≤ '9'.toNat := hrange.2
    have hnine : '9'.toNat - '0'.toNat = 9 := rfl
    omega
  next => cases hdigit

theorem digits_lt {limit n : Nat} {cs : List Char} :
    (digits limit n cs).2.1 ≤ limit ∧
      (digits limit n cs).1 < (n + 1) * Nat.pow 10 (digits limit n cs).2.1 := by
  have hnone (n : Nat) : n < (n + 1) * Nat.pow 10 0 :=
    Nat.lt_of_lt_of_eq (Nat.lt_succ_self n) (Nat.mul_one (n + 1)).symm
  induction limit generalizing n cs with
  | zero => exact ⟨Nat.le_refl 0, hnone n⟩
  | succ limit ih =>
      cases cs with
      | nil => exact ⟨Nat.zero_le _, hnone n⟩
      | cons c rest =>
          rw [digits]
          cases hdigit : digit? c with
          | none => exact ⟨Nat.zero_le _, hnone n⟩
          | some d =>
              have hd := digit?_le hdigit
              obtain ⟨hcount, hlt⟩ := @ih (n * 10 + d) rest
              refine ⟨Nat.succ_le_succ hcount, Nat.lt_of_lt_of_le hlt ?_⟩
              simp only
              generalize (digits limit (n * 10 + d) rest).2.1 = count
              calc (n * 10 + d + 1) * Nat.pow 10 count
                _ ≤ ((n + 1) * 10) * Nat.pow 10 count := Nat.mul_le_mul_right _ (by omega)
                _ = (n + 1) * Nat.pow 10 (count + 1) := by
                    rw [Nat.mul_assoc, Nat.mul_comm 10]
                    rfl

theorem fraction?_lt {cs : List Char} {nanos : Nat} {rest : List Char}
    (hfraction : fraction? cs = some (nanos, rest)) : nanos < 1000000000 := by
  unfold fraction? at hfraction
  split at hfraction
  next tail =>
    obtain ⟨hcount, hlt⟩ := @digits_lt 9 0 tail
    simp only at hfraction
    split at hfraction
    next => cases hfraction
    next =>
      obtain rfl := (Prod.mk.inj (Option.some.inj hfraction)).1
      generalize (digits 9 0 tail).2.1 = count at hcount hlt ⊢
      rw [Nat.zero_add, Nat.one_mul] at hlt
      have hpos : 0 < Nat.pow 10 (9 - count) := Nat.pow_pos (by decide)
      have hall : Nat.pow 10 count * Nat.pow 10 (9 - count) = 1000000000 := by
        have hsum : count + (9 - count) = 9 := by omega
        exact (Nat.pow_add 10 count (9 - count)).symm.trans (congrArg (Nat.pow 10) hsum)
      exact Nat.lt_of_lt_of_eq (Nat.mul_lt_mul_of_pos_right hlt hpos) hall
  next =>
    obtain rfl := (Prod.mk.inj (Option.some.inj hfraction)).1
    decide

/-! ### Instants that are read -/

/-- The nanoseconds are within the second, or within a leap second at the end of a minute. -/
structure IsProper (instant : Instant) : Prop where
  nanos_lt : instant.nanos < 2000000000
  at_leap : 1000000000 ≤ instant.nanos → instant.seconds % 60 = 59

theorem isProper_ofDate (date : Date) : (ofDate date).IsProper :=
  ⟨Nat.zero_lt_succ _, fun hleap => absurd hleap (Nat.not_succ_le_zero _)⟩

theorem isProper_of_ofMillis? {millis : Int} {instant : Instant}
    (hmillis : ofMillis? millis = some instant) : instant.IsProper := by
  simp only [ofMillis?] at hmillis
  split at hmillis
  next =>
    obtain rfl := Option.some.inj hmillis
    have hlt : (millis % 1000).toNat < 1000 := by omega
    refine ⟨?_, fun hleap => ?_⟩
    · simp only
      omega
    · simp only at hleap
      omega
  next => cases hmillis

theorem offset?_emod {cs : List Char} {offset : Int} (hoffset : offset? cs = some offset) :
    offset % 60 = 0 := by
  unfold offset? at hoffset
  split at hoffset
  next => cases hoffset
  next c rest =>
    split at hoffset
    next =>
      split at hoffset
      next =>
        obtain rfl := Option.some.inj hoffset
        rfl
      next => cases hoffset
    next =>
      simp only [Option.bind_eq_bind, Option.bind_eq_some_iff] at hoffset
      obtain ⟨hours, -, marked, -, minutes, -, hoffset⟩ := hoffset
      split at hoffset
      next => cases hoffset
      next =>
        split at hoffset
        next =>
          obtain rfl := Option.some.inj hoffset
          omega
        next =>
          split at hoffset
          next =>
            obtain rfl := Option.some.inj hoffset
            omega
          next => cases hoffset

theorem isProper_of_ofRfc3339? {cs : List Char} {instant : Instant}
    (hread : ofRfc3339? cs = some instant) : instant.IsProper := by
  unfold ofRfc3339? at hread
  obtain ⟨⟨year, rest⟩, -, hread⟩ := Option.bind_eq_some_iff.mp hread
  obtain ⟨rest, -, hread⟩ := Option.bind_eq_some_iff.mp hread
  obtain ⟨⟨month, rest⟩, -, hread⟩ := Option.bind_eq_some_iff.mp hread
  obtain ⟨rest, -, hread⟩ := Option.bind_eq_some_iff.mp hread
  obtain ⟨⟨day, rest⟩, -, hread⟩ := Option.bind_eq_some_iff.mp hread
  obtain ⟨date, -, hread⟩ := Option.bind_eq_some_iff.mp hread
  dsimp only at hread
  split at hread
  next c rest =>
    split at hread
    next =>
      obtain ⟨rest, -, hread⟩ := Option.bind_eq_some_iff.mp hread
      obtain ⟨⟨hour, rest⟩, -, hread⟩ := Option.bind_eq_some_iff.mp hread
      obtain ⟨rest, -, hread⟩ := Option.bind_eq_some_iff.mp hread
      obtain ⟨⟨minute, rest⟩, -, hread⟩ := Option.bind_eq_some_iff.mp hread
      obtain ⟨rest, -, hread⟩ := Option.bind_eq_some_iff.mp hread
      obtain ⟨⟨second, rest⟩, -, hread⟩ := Option.bind_eq_some_iff.mp hread
      obtain ⟨⟨nanos, rest⟩, hnanos, hread⟩ := Option.bind_eq_some_iff.mp hread
      obtain ⟨offset, hoffset, hread⟩ := Option.bind_eq_some_iff.mp hread
      have hlt := fraction?_lt hnanos
      have hwhole := offset?_emod hoffset
      dsimp only [secondsPerDay] at hread
      split at hread
      next => cases hread
      next =>
        split at hread
        next =>
          obtain rfl := Option.some.inj hread
          exact ⟨by simp only; omega, fun _ => by simp only; omega⟩
        next =>
          obtain rfl := Option.some.inj hread
          exact ⟨by simp only; omega, fun hleap => by simp only at hleap; omega⟩
    next => cases hread
  next => cases hread

theorem isProper_of_ofText? {text : String} {instant : Instant}
    (hread : ofText? text = some instant) : instant.IsProper := by
  rcases Option.or_eq_some_iff.mp hread with h | ⟨-, h⟩
  · exact isProper_of_ofRfc3339? h
  · simp only [ofDateText?, Option.bind_eq_bind, Option.bind_eq_some_iff] at h
    obtain ⟨year, -, -, -, month, -, -, -, day, -, h⟩ := h
    split at h
    next => cases h
    next =>
      obtain ⟨date, -, rfl⟩ := Option.map_eq_some_iff.mp h
      exact isProper_ofDate date

mutual

theorem isProper_of_ofJson? : ∀ (value : Json) (instant : Instant),
    ofJson? value = some instant → instant.IsProper
  | .null, _, hread => by cases hread
  | .bool _, _, hread => by cases hread
  | .array _, _, hread => by cases hread
  | .number (.float _), _, hread => by cases hread
  | .number (.int n), instant, hread => by
      rw [ofJson?] at hread
      split at hread
      next => exact isProper_of_ofMillis? hread
      next => cases hread
  | .string text, instant, hread => isProper_of_ofText? hread
  | .object members, instant, hread => isProper_of_ofMembers? members instant hread

theorem isProper_of_ofMembers? : ∀ (members : List (String × Json)) (instant : Instant),
    ofMembers? members = some instant → instant.IsProper
  | [], _, hread => by cases hread
  | (name, value) :: rest, instant, hread => by
      rw [ofMembers?] at hread
      split at hread
      next => exact isProper_of_ofJson? value instant hread
      next => exact isProper_of_ofMembers? rest instant hread

end

/-! ### Writing and reading again -/

theorem ext {a b : Instant} (hseconds : a.seconds = b.seconds) (hnanos : a.nanos = b.nanos) :
    a = b := by
  cases a
  cases b
  exact congr (congrArg Instant.mk hseconds) hnanos

/-- The instant without what is below the millisecond. -/
def cut (instant : Instant) : Instant := ⟨instant.seconds, instant.nanos / 1000000 * 1000000⟩

/-- **Texts of instants.** An instant that was read is written, and read again, to the millisecond,
a leap second included, if its year has four digits. -/
theorem ofText?_text {instant : Instant} (hproper : instant.IsProper)
    (hyear : 0 ≤ instant.date.year ∧ instant.date.year ≤ 9999) :
    ofText? instant.text = some instant.cut := by
  obtain ⟨hdate, hdays⟩ : instant.date.IsProper ∧
      instant.date.toDays = instant.seconds / secondsPerDay :=
    Date.ofDays_spec (instant.seconds / secondsPerDay)
  have hnanos := hproper.nanos_lt
  have hleap := hproper.at_leap
  have hfour : instant.date.year.natAbs < 10000 := by omega
  have hmonth : instant.date.month < 100 := Nat.lt_of_le_of_lt hdate.month_le (by decide)
  have hday : instant.date.day < 100 := Nat.lt_of_le_of_lt hdate.day_le_31 (by decide)
  have hparts : Date.ofParts? instant.date.year.natAbs instant.date.month instant.date.day =
      some instant.date := by
    have hyears : (instant.date.year.natAbs : Int) = instant.date.year := by omega
    rw [Date.ofParts?, hyears, if_pos]
    exact ⟨by omega, by omega, hdate.month_pos, hdate.day_pos, hdate.day_le⟩
  have hread : ofRfc3339? instant.chars = some instant.cut := by
    simp only [chars, yearChars, if_neg (Int.not_lt.mpr hyear.1), if_neg (Int.not_lt.mpr hyear.2)]
    generalize hsecond : (instant.seconds % secondsPerDay).toNat = second
    generalize hextra : instant.nanos / 1000000000 = extra
    have hsecond' : (second : Int) = instant.seconds % 86400 := by
      simp only [secondsPerDay] at hsecond
      omega
    have hhour : second / 3600 < 100 := by omega
    have hminute : second / 60 % 60 < 100 := by omega
    have hlast : second % 60 + extra < 100 := by omega
    have hmillis : instant.nanos % 1000000000 / 1000000 < 1000 := by omega
    have hoffset : offset? ['Z'] = some 0 := rfl
    have hinside : ¬(decide (23 < second / 3600) || decide (59 < second / 60 % 60) ||
        decide (60 < second % 60 + extra)) = true := by
      simp only [Bool.or_eq_true, decide_eq_true_eq]
      omega
    refine Option.bind_eq_some_iff.mpr ⟨_, number?_padded (by decide) hfour _, ?_⟩
    refine Option.bind_eq_some_iff.mpr ⟨_, rfl, ?_⟩
    refine Option.bind_eq_some_iff.mpr ⟨_, number?_padded (by decide) hmonth _, ?_⟩
    refine Option.bind_eq_some_iff.mpr ⟨_, rfl, ?_⟩
    refine Option.bind_eq_some_iff.mpr ⟨_, number?_padded (by decide) hday _, ?_⟩
    refine Option.bind_eq_some_iff.mpr ⟨_, hparts, ?_⟩
    refine Option.bind_eq_some_iff.mpr ⟨_, number?_padded (by decide) hhour _, ?_⟩
    refine Option.bind_eq_some_iff.mpr ⟨_, rfl, ?_⟩
    refine Option.bind_eq_some_iff.mpr ⟨_, number?_padded (by decide) hminute _, ?_⟩
    refine Option.bind_eq_some_iff.mpr ⟨_, rfl, ?_⟩
    refine Option.bind_eq_some_iff.mpr ⟨_, number?_padded (by decide) hlast _, ?_⟩
    refine Option.bind_eq_some_iff.mpr ⟨_, fraction?_padded hmillis, ?_⟩
    refine Option.bind_eq_some_iff.mpr ⟨_, hoffset, ?_⟩
    dsimp only
    rw [if_neg hinside, hdays, cut]
    simp only [secondsPerDay]
    split
    next hsixty =>
      have hlong : 1000000000 ≤ instant.nanos := by omega
      have hend := hleap hlong
      exact congrArg some (Instant.ext (by simp only; omega) (by simp only; omega))
    next hshort => exact congrArg some (Instant.ext (by simp only; omega) (by simp only; omega))
  rw [ofText?, text, String.toList_ofList, hread]
  rfl

end SchemaQuery.Instant
