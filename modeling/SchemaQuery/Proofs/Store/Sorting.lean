import Mathlib.Order.Compare
import SchemaQuery.Store.Values

/-!
# Rows in order

Values are compared by their rank first, and then, within a rank, by what stands for them there: a
truth value, a place among the doubles, or a text. So they stand in one order, in which different
values may share a place, and sorting brings rows into it.
-/

namespace SchemaQuery

namespace Json

/-- The truth value that a boolean is compared by. -/
def flag : Option Json → Bool
  | some (bool b) => b
  | _ => false

/-- The place that a number is compared by. -/
def position : Option Json → Int
  | some (number n) => n.toBinary64.position
  | _ => 0

/-- The text that a text, an array or an object is compared by. -/
def sortText : Option Json → String
  | some (string s) => s
  | some (array items) => (array items).text
  | some (object members) => (object members).text
  | _ => ""

theorem compareValues_of_rank_ne {a b : Option Json} (hrank : rank a ≠ rank b) :
    compareValues a b = compare (rank a) (rank b) := by
  have hboth : ¬ (rank a = 4 ∧ rank b = 4) := fun ⟨ha, hb⟩ => hrank (ha.trans hb.symm)
  unfold compareValues
  split
  next => exact absurd rfl hrank
  next => exact absurd rfl hrank
  next => exact absurd rfl hrank
  next => rw [if_neg hboth]

theorem compareValues_of_rank_eq {a b : Option Json} (hrank : rank a = rank b) :
    compareValues a b = (compare (flag a) (flag b)).then
      ((compare (position a) (position b)).then (compare (sortText a) (sortText b))) := by
  unfold compareValues
  split
  next => simp [flag, position, sortText]
  next => simp [flag, position, sortText, Number.compare, Binary64.compare]
  next => simp [flag, position, sortText]
  next hbool hnumber hstring =>
    cases a with
    | none =>
        cases b with
        | none => simp [rank, flag, position, sortText]
        | some b => cases b <;> simp_all [rank, flag, position, sortText]
    | some a =>
        cases b with
        | none => cases a <;> simp_all [rank, flag, position, sortText]
        | some b => cases a <;> cases b <;> simp_all [rank, flag, position, sortText]

theorem compareValues_eq :
    compareValues = compareLex (compareOn rank)
      (compareLex (compareOn flag) (compareLex (compareOn position) (compareOn sortText))) := by
  funext a b
  simp only [compareLex, compareOn]
  by_cases hrank : rank a = rank b
  · rw [compareValues_of_rank_eq hrank, hrank]
    simp
  · rw [compareValues_of_rank_ne hrank]
    cases hcompare : compare (rank a) (rank b) with
    | eq => exact absurd (Nat.compare_eq_eq.mp hcompare) hrank
    | lt | gt => rfl

instance : Std.TransCmp compareValues := by
  rw [compareValues_eq]
  infer_instance

theorem compareValues_swap (a b : Option Json) : compareValues a b = (compareValues b a).swap :=
  Std.OrientedCmp.eq_swap

end Json

/-- No row stands before one that it must stand behind. -/
def InOrder (value : Record → Option Json) (descending : Bool) (rows : List Record) : Prop :=
  rows.Pairwise fun a b =>
    Json.compareValues (value a) (value b) ≠ if descending then .lt else .gt

instance (value : Record → Option Json) (descending : Bool) (rows : List Record) :
    Decidable (InOrder value descending rows) :=
  inferInstanceAs (Decidable (rows.Pairwise fun a b =>
    Json.compareValues (value a) (value b) ≠ if descending then .lt else .gt))

theorem sortRows_perm (value : Record → Option Json) (descending : Bool) (rows : List Record) :
    (sortRows value descending rows).Perm rows := by
  unfold sortRows
  cases descending with
  | true => exact (List.reverse_perm _).trans (List.mergeSort_perm _ _)
  | false => exact List.mergeSort_perm _ _

/-- Whether a row may stand before another one. -/
def mayPrecede (value : Record → Option Json) (a b : Record) : Bool :=
  Json.compareValues (value a) (value b) != .gt

theorem mayPrecede_trans (value : Record → Option Json) (a b c : Record)
    (hab : mayPrecede value a b = true) (hbc : mayPrecede value b c = true) :
    mayPrecede value a c = true := by
  have hab' := Ordering.isLE_iff_ne_gt.mpr (bne_iff_ne.mp hab)
  have hbc' := Ordering.isLE_iff_ne_gt.mpr (bne_iff_ne.mp hbc)
  exact bne_iff_ne.mpr (Ordering.isLE_iff_ne_gt.mp (Std.TransCmp.isLE_trans hab' hbc'))

theorem mayPrecede_total (value : Record → Option Json) (a b : Record) :
    (mayPrecede value a b || mayPrecede value b a) = true := by
  rw [mayPrecede, mayPrecede, Json.compareValues_swap (value b)]
  cases Json.compareValues (value a) (value b) <;> rfl

/-- Sorted rows are in order; read from the end they are in the reverse of it. -/
theorem sortRows_inOrder (value : Record → Option Json) (descending : Bool) (rows : List Record) :
    InOrder value descending (sortRows value descending rows) := by
  have hsorted : (rows.mergeSort (mayPrecede value)).Pairwise fun a b =>
      mayPrecede value a b = true :=
    List.pairwise_mergeSort (mayPrecede_trans value) (mayPrecede_total value) rows
  cases descending with
  | true =>
      refine List.pairwise_reverse.mpr (hsorted.imp fun {a b} hab => ?_)
      rw [mayPrecede, bne_iff_ne] at hab
      rw [if_pos rfl, Json.compareValues_swap]
      exact fun hlt => hab (Ordering.swap_eq_lt.mp hlt)
  | false => exact hsorted.imp fun {a b} hab => bne_iff_ne.mp hab

end SchemaQuery
