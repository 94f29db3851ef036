import Mathlib.Data.Int.Order.Basic
import Mathlib.Tactic.SplitIfs
import SchemaQuery.Json.Basic

/-!
# Rounding keeps order

A larger magnitude is never rounded to a smaller rank, and the magnitude of a rank is rounded to
that rank. So ranks stand in the order of their magnitudes, and numbers are compared as what they
denote: two doubles exactly, and any two numbers never the wrong way round, though a conversion may
bring different numbers to one place.
-/

namespace SchemaQuery

/-! ### Quotients -/

theorem le_roundDiv (num den : Nat) : num / den ≤ roundDiv num den := by
  simp only [roundDiv]
  split_ifs <;> omega

theorem roundDiv_le (num den : Nat) : roundDiv num den ≤ num / den + 1 := by
  simp only [roundDiv]
  split_ifs <;> omega

theorem roundDiv_mono {num more : Nat} (hle : num ≤ more) (den : Nat) :
    roundDiv num den ≤ roundDiv more den := by
  rcases Nat.lt_or_eq_of_le (Nat.div_le_div_right (c := den) hle) with hlt | heq
  · exact Nat.le_trans (roundDiv_le num den) (Nat.le_trans hlt (le_roundDiv more den))
  · -- With one quotient, the remainders decide.
    have hnum := Nat.div_add_mod num den
    have hmore := Nat.div_add_mod more den
    rw [heq] at hnum
    simp only [roundDiv, heq]
    split_ifs <;> omega

theorem roundDiv_mul_self (n : Nat) {den : Nat} (hden : 0 < den) : roundDiv (n * den) den = n := by
  have hrest : 2 * (n * den % den) < den := by rwa [Nat.mul_mod_left]
  rw [roundDiv, if_pos hrest, Nat.mul_div_cancel n hden]

namespace Binary64

/-! ### Ranks and magnitudes -/

/-- The binary digits past the precision of a double. -/
def dropped (units : Nat) : Nat := units.log2 - 52

theorem rankNear_eq (units : Nat) : rankNear units 1 =
    dropped units * binade + roundDiv units (Nat.pow 2 (dropped units)) := by
  rw [rankNear, Nat.div_one, Nat.one_mul, dropped]

theorem div_pow_dropped_lt (units : Nat) :
    units / Nat.pow 2 (dropped units) < 2 * binade := by
  refine Nat.div_lt_of_lt_mul ?_
  calc units < 2 ^ (units.log2 + 1) := Nat.lt_log2_self
    _ ≤ 2 ^ (dropped units + 53) := Nat.pow_le_pow_right (by decide) (by rw [dropped]; omega)
    _ = Nat.pow 2 (dropped units) * (2 * binade) := Nat.pow_add 2 _ 53

theorem le_div_pow_dropped {units : Nat} (hdropped : 0 < dropped units) :
    binade ≤ units / Nat.pow 2 (dropped units) := by
  have hlog : 52 + dropped units = units.log2 := by
    rw [dropped] at hdropped ⊢
    omega
  have hunits : units ≠ 0 := by
    rintro rfl
    exact absurd hdropped (by decide)
  refine (Nat.le_div_iff_mul_le (Nat.two_pow_pos _)).mpr ?_
  calc binade * Nat.pow 2 (dropped units) = 2 ^ (52 + dropped units) := (Nat.pow_add 2 52 _).symm
    _ = 2 ^ units.log2 := by rw [hlog]
    _ ≤ units := Nat.log2_self_le hunits

theorem dropped_mono {units more : Nat} (hle : units ≤ more) : dropped units ≤ dropped more := by
  rcases Nat.eq_zero_or_pos units with rfl | hpos
  · exact Nat.zero_le _
  · have hne : units ≠ 0 := Nat.ne_of_gt hpos
    have hmore : more ≠ 0 := Nat.ne_of_gt (Nat.lt_of_lt_of_le hpos hle)
    have hlog := (Nat.le_log2 hmore).mpr (Nat.le_trans (Nat.log2_self_le hne) hle)
    exact Nat.sub_le_sub_right hlog 52

/-- Across binades the bounds of a binade decide, within one the rounding of quotients does. -/
theorem rankNear_mono {units more : Nat} (hle : units ≤ more) :
    rankNear units 1 ≤ rankNear more 1 := by
  rw [rankNear_eq, rankNear_eq]
  rcases Nat.lt_or_eq_of_le (dropped_mono hle) with hlt | heq
  · have hbelow := div_pow_dropped_lt units
    have habove := le_div_pow_dropped (Nat.zero_lt_of_lt hlt)
    have hround := roundDiv_le units (Nat.pow 2 (dropped units))
    have hround' := le_roundDiv more (Nat.pow 2 (dropped more))
    have hstep : (dropped units + 1) * binade ≤ dropped more * binade :=
      Nat.mul_le_mul_right _ hlt
    rw [Nat.add_mul, Nat.one_mul] at hstep
    omega
  · rw [heq]
    exact Nat.add_le_add_left (roundDiv_mono hle _) _

/-- A rank as the significand of its magnitude and the power of two that scales it. -/
theorem exists_significand (rank : Nat) : ∃ significand scale,
    rank = scale * binade + significand ∧
    unitsOfRank rank = significand * Nat.pow 2 scale ∧
    significand < 2 * binade ∧ (0 < scale → binade ≤ significand) := by
  have hmod : rank % binade < binade := Nat.mod_lt _ (by decide)
  have hrank := Nat.div_add_mod' rank binade
  rw [unitsOfRank]
  cases hscale : rank / binade with
  | zero =>
      rw [hscale, Nat.zero_mul, Nat.zero_add] at hrank
      refine ⟨rank, 0, by omega, ?_, by omega, fun hpos => absurd hpos (Nat.lt_irrefl 0)⟩
      exact (Nat.mul_one rank).symm
  | succ scale =>
      rw [hscale, Nat.add_mul, Nat.one_mul] at hrank
      exact ⟨binade + rank % binade, scale, by omega, rfl, by omega, fun _ => by omega⟩

theorem dropped_mul_pow {significand scale : Nat} (hhigh : significand < 2 * binade)
    (hlow : 0 < scale → binade ≤ significand) :
    dropped (significand * Nat.pow 2 scale) = scale := by
  have hlt : significand * Nat.pow 2 scale < 2 ^ (53 + scale) :=
    Nat.lt_of_lt_of_eq (Nat.mul_lt_mul_of_pos_right hhigh (Nat.two_pow_pos scale))
      (Nat.pow_add 2 53 scale).symm
  have hlog : (significand * Nat.pow 2 scale).log2 ≤ 52 + scale := by
    rcases Nat.eq_zero_or_pos (significand * Nat.pow 2 scale) with hzero | hpos
    · rw [hzero]
      exact Nat.zero_le _
    · have := (Nat.log2_lt (Nat.ne_of_gt hpos)).mpr hlt
      omega
  rcases Nat.eq_zero_or_pos scale with hscale | hscale
  · rw [dropped]
    omega
  · have hle : 2 ^ (52 + scale) ≤ significand * Nat.pow 2 scale :=
      Nat.le_trans (Nat.le_of_eq (Nat.pow_add 2 52 scale)) (Nat.mul_le_mul_right _ (hlow hscale))
    have hne := Nat.ne_of_gt (Nat.lt_of_lt_of_le (Nat.two_pow_pos _) hle)
    have hlog' := (Nat.le_log2 hne).mpr hle
    rw [dropped]
    omega

theorem rankNear_unitsOfRank (rank : Nat) : rankNear (unitsOfRank rank) 1 = rank := by
  obtain ⟨significand, scale, hrank, hunits, hhigh, hlow⟩ := exists_significand rank
  have hround := roundDiv_mul_self significand (Nat.two_pow_pos scale)
  rw [hunits, rankNear_eq, dropped_mul_pow hhigh hlow, hrank]
  exact congrArg _ hround

theorem unitsOfRank_le_iff {a b : Nat} : unitsOfRank a ≤ unitsOfRank b ↔ a ≤ b := by
  have himp {a b : Nat} (hle : unitsOfRank a ≤ unitsOfRank b) : a ≤ b := by
    have hnear := rankNear_mono hle
    rwa [rankNear_unitsOfRank, rankNear_unitsOfRank] at hnear
  refine ⟨himp, fun hle => ?_⟩
  rcases Nat.le_total (unitsOfRank a) (unitsOfRank b) with hunits | hunits
  · exact hunits
  · exact Nat.le_of_eq (congrArg unitsOfRank (Nat.le_antisymm hle (himp hunits)))

/-! ### Places -/

/-- The rank nearest to a magnitude, or the last rank if that is past it. -/
def nearest (units : Nat) : Nat := min (rankNear units 1) (rankLimit - 1)

/-- The place of the double nearest to a signed magnitude. -/
def place (units : Int) : Int :=
  if units < 0 then -(nearest units.natAbs : Int) else nearest units.natAbs

theorem nearest_mono {units more : Nat} (hle : units ≤ more) : nearest units ≤ nearest more := by
  have hnear := rankNear_mono hle
  rw [nearest, nearest]
  omega

theorem place_mono {units more : Int} (hle : units ≤ more) : place units ≤ place more := by
  rw [place, place]
  split_ifs with hunits hmore hmore
  · have := nearest_mono (show more.natAbs ≤ units.natAbs by omega)
    omega
  · omega
  · omega
  · have := nearest_mono (show units.natAbs ≤ more.natAbs by omega)
    omega

theorem nearest_units (x : Binary64) : nearest x.units = x.rank := by
  have hrank := x.rank_lt
  rw [nearest, units, rankNear_unitsOfRank]
  omega

theorem position_eq_place (x : Binary64) : x.position = place x.signedUnits := by
  have hnearest := nearest_units x
  rw [position, signedUnits, place]
  cases x.negative with
  | false =>
      simp only [Bool.false_eq_true, if_false, Int.natAbs_natCast, hnearest]
      rw [if_neg (Int.not_lt.mpr (Int.natCast_nonneg _))]
  | true =>
      simp only [if_true, Int.natAbs_neg, Int.natAbs_natCast, hnearest]
      split_ifs with hneg
      · rfl
      · -- Without a magnitude the sign is lost, and so is the rank.
        have hunits : x.units = 0 := by omega
        have hrank : x.rank = 0 := by rw [← hnearest, hunits]; rfl
        rw [hrank]
        rfl

/-- A magnitude past the range is rounded to the largest double. -/
theorem getD_round? (negative : Bool) (units : Nat) :
    ∃ hrank, (round? negative units 1).getD (largest negative) =
      ⟨negative, nearest units, hrank⟩ := by
  have hlimit : 0 < rankLimit := by decide
  have hrank : nearest units < rankLimit := by
    rw [nearest]
    omega
  refine ⟨hrank, ?_⟩
  by_cases hnear : rankNear units 1 < rankLimit
  · have hnearest : nearest units = rankNear units 1 := by
      rw [nearest]
      omega
    simp only [round?, dif_pos hnear, Option.getD_some, hnearest]
  · have hnearest : nearest units = rankLimit - 1 := by
      rw [nearest]
      omega
    simp only [round?, dif_neg hnear, Option.getD_none, largest, hnearest]

theorem one_pos : 0 < one := by decide +kernel

theorem position_ofInt (n : Int) : (ofInt n).position = place (n * one) := by
  have hone : 0 < (one : Int) := Int.natCast_pos.mpr one_pos
  have hsign : n * one < 0 ↔ n < 0 := by
    refine ⟨fun hmul => ?_, fun hneg => Int.mul_neg_of_neg_of_pos hneg hone⟩
    by_contra hnot
    exact absurd (Int.mul_nonneg (Int.not_lt.mp hnot) (Int.le_of_lt hone)) (Int.not_le.mpr hmul)
  obtain ⟨hrank, hofInt⟩ := getD_round? (decide (n < 0)) (n.natAbs * one)
  rw [ofInt, hofInt, position, place, Int.natAbs_mul, Int.natAbs_natCast]
  simp only [hsign, decide_eq_true_eq]

theorem units_eq_zero_iff (x : Binary64) : x.units = 0 ↔ x.rank = 0 := by
  have hle := unitsOfRank_le_iff (a := x.rank) (b := 0)
  rwa [Nat.le_zero, show unitsOfRank 0 = 0 from rfl, Nat.le_zero] at hle

theorem signedUnits_le_iff (x y : Binary64) :
    x.signedUnits ≤ y.signedUnits ↔ x.position ≤ y.position := by
  have hxy : x.units ≤ y.units ↔ x.rank ≤ y.rank := unitsOfRank_le_iff
  have hyx : y.units ≤ x.units ↔ y.rank ≤ x.rank := unitsOfRank_le_iff
  have hx := x.units_eq_zero_iff
  have hy := y.units_eq_zero_iff
  rw [signedUnits, signedUnits, position, position]
  split_ifs <;> omega

/-- Doubles are compared as what they denote. -/
theorem compare_eq (x y : Binary64) : x.compare y = Ord.compare x.signedUnits y.signedUnits := by
  have hxy := signedUnits_le_iff x y
  have hyx := signedUnits_le_iff y x
  rw [compare]
  rcases lt_trichotomy x.signedUnits y.signedUnits with hlt | heq | hgt
  · rw [compare_lt_iff_lt.mpr hlt]
    exact compare_lt_iff_lt.mpr (by omega)
  · rw [compare_eq_iff_eq.mpr heq]
    exact compare_eq_iff_eq.mpr (by omega)
  · rw [compare_gt_iff_gt.mpr hgt]
    exact compare_gt_iff_gt.mpr (by omega)

end Binary64

namespace Number

/-- What a number denotes, in the units of doubles. -/
def exactUnits : Number → Int
  | int n => n * Binary64.one
  | float x => x.signedUnits

/-- A number is converted to the double nearest to what it denotes. -/
theorem position_toBinary64 (n : Number) :
    n.toBinary64.position = Binary64.place n.exactUnits := by
  cases n with
  | int n => exact Binary64.position_ofInt n
  | float x => exact x.position_eq_place

/-- Whether they are integers or doubles, no number stands before one that is smaller. -/
theorem compare_isLE {a b : Number} (hle : a.exactUnits ≤ b.exactUnits) :
    (a.compare b).isLE = true := by
  have hposition : a.toBinary64.position ≤ b.toBinary64.position := by
    rw [position_toBinary64, position_toBinary64]
    exact Binary64.place_mono hle
  exact Ordering.isLE_iff_ne_gt.mpr fun hgt =>
    absurd (compare_gt_iff_gt.mp hgt) (Int.not_lt.mpr hposition)

end Number

end SchemaQuery
