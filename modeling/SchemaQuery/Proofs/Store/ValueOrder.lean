import SchemaQuery.Proofs.Json.Rounding
import SchemaQuery.Proofs.Store.Sorting

/-!
# One order of all values

Any two values can be compared, missing ones included, and the comparisons fit together. So rows
that are in order, and among which those of one place stand as they did, are the only such rows:
sorting has one result.
-/

namespace SchemaQuery

open Json

/-- Whether the value of a row shares the place of a value. -/
def standsAt (value : Record → Option Json) (place : Option Json) (row : Record) : Bool :=
  compareValues (value row) place == .eq

variable {value : Record → Option Json} {descending : Bool}

theorem standsAt_self (row : Record) : standsAt value (value row) row = true :=
  beq_iff_eq.mpr Std.ReflCmp.compare_self

/-! ### Rows of one place -/

/-- Rows of one place may stand in any order, so they stay sorted as they are. -/
theorem pairwise_filter_standsAt (place : Option Json) (rows : List Record) :
    (rows.filter (standsAt value place)).Pairwise fun a b => mayPrecede value a b = true := by
  refine List.pairwise_of_forall_mem_list fun a ha b hb => ?_
  have ha' : compareValues (value a) place = .eq := beq_iff_eq.mp (List.mem_filter.mp ha).2
  have hb' : compareValues (value b) place = .eq := beq_iff_eq.mp (List.mem_filter.mp hb).2
  have hab : compareValues (value a) (value b) = .eq :=
    Std.TransCmp.eq_trans ha' (Std.OrientedCmp.eq_symm hb')
  rw [mayPrecede, hab]
  rfl

/-- The rows of a place, sorted as they are, come out of sorting in the order they went in. -/
theorem filter_mergeSort (value : Record → Option Json) (place : Option Json)
    (rows : List Record) : (rows.mergeSort (mayPrecede value)).filter (standsAt value place) =
      rows.filter (standsAt value place) := by
  have hsublist : (rows.filter (standsAt value place)).Sublist
      (rows.mergeSort (mayPrecede value)) :=
    List.sublist_mergeSort (mayPrecede_trans value) (mayPrecede_total value)
      (pairwise_filter_standsAt place rows) List.filter_sublist
  have hfilter := hsublist.filter (standsAt value place)
  rw [List.filter_filter] at hfilter
  simp only [Bool.and_self] at hfilter
  have hperm := (List.mergeSort_perm rows (mayPrecede value)).filter (standsAt value place)
  exact (hfilter.eq_of_length hperm.length_eq.symm).symm

theorem filter_sortRows (value : Record → Option Json) (descending : Bool) (place : Option Json)
    (rows : List Record) :
    (sortRows value descending rows).filter (standsAt value place) =
      if descending then (rows.filter (standsAt value place)).reverse
      else rows.filter (standsAt value place) := by
  have hstable := filter_mergeSort value place rows
  cases descending with
  | true => exact List.filter_reverse.trans (congrArg List.reverse hstable)
  | false => exact hstable

/-! ### One result -/

/-- Whichever of two rows stands first, they share a place if either may stand before the other. -/
theorem standsAt_of_inOrder {row other : Record} {rest more : List Record}
    (hrow : InOrder value descending (row :: rest))
    (hother : InOrder value descending (other :: more))
    (hmem : other ∈ row :: rest) (hmem' : row ∈ other :: more) :
    standsAt value (value row) other = true := by
  rcases List.mem_cons.mp hmem with rfl | hmem
  · exact standsAt_self _
  rcases List.mem_cons.mp hmem' with rfl | hmem'
  · exact standsAt_self _
  have hforth := List.rel_of_pairwise_cons hrow hmem
  have hback := List.rel_of_pairwise_cons hother hmem'
  rw [Json.compareValues_swap] at hforth
  rw [standsAt, beq_iff_eq]
  -- Neither before nor behind, in whichever direction.
  cases hcompare : compareValues (value other) (value row) <;> cases descending <;> simp_all

theorem mem_of_filter_eq {left right : List Record}
    (hsame : ∀ place, left.filter (standsAt value place) = right.filter (standsAt value place))
    {row : Record} (hmem : row ∈ left) : row ∈ right := by
  have hfilter : row ∈ left.filter (standsAt value (value row)) :=
    List.mem_filter.mpr ⟨hmem, standsAt_self row⟩
  rw [hsame] at hfilter
  exact (List.mem_filter.mp hfilter).1

/-- Rows in order are known by the rows of each place. -/
theorem eq_of_inOrder {left right : List Record} (hleft : InOrder value descending left)
    (hright : InOrder value descending right)
    (hsame : ∀ place, left.filter (standsAt value place) = right.filter (standsAt value place)) :
    left = right := by
  induction left generalizing right with
  | nil =>
      cases right with
      | nil => rfl
      | cons other more =>
          have hmem := mem_of_filter_eq (fun place => (hsame place).symm) List.mem_cons_self
          exact absurd hmem List.not_mem_nil
  | cons row rest ih =>
      cases right with
      | nil => exact absurd (mem_of_filter_eq hsame List.mem_cons_self) List.not_mem_nil
      | cons other more =>
          have hother := standsAt_of_inOrder hleft hright
            (mem_of_filter_eq (fun place => (hsame place).symm) List.mem_cons_self)
            (mem_of_filter_eq hsame List.mem_cons_self)
          -- The first rows share a place, so each is the first of the rows there.
          have hfirst := hsame (value row)
          rw [List.filter_cons_of_pos (standsAt_self row), List.filter_cons_of_pos hother] at hfirst
          obtain ⟨rfl, -⟩ := List.cons.inj hfirst
          refine congrArg _ (ih hleft.of_cons hright.of_cons fun place => ?_)
          have hplace := hsame place
          rw [List.filter_cons, List.filter_cons] at hplace
          split at hplace
          · exact List.cons.inj hplace |>.2
          · exact hplace

/-- **One result.** No other rows are in order and have the rows of each place as they were, or, in
the descending order, turned round. -/
theorem eq_sortRows_iff {rows sorted : List Record} :
    sorted = sortRows value descending rows ↔
      InOrder value descending sorted ∧ ∀ place, sorted.filter (standsAt value place) =
        if descending then (rows.filter (standsAt value place)).reverse
        else rows.filter (standsAt value place) := by
  constructor
  · rintro rfl
    exact ⟨sortRows_inOrder value descending rows,
      fun place => filter_sortRows value descending place rows⟩
  · rintro ⟨hsorted, hsame⟩
    refine eq_of_inOrder hsorted (sortRows_inOrder value descending rows) fun place => ?_
    rw [hsame, filter_sortRows]

/-! ### The order -/

/-- No value and `null` share the first place, and nothing else stands there. -/
theorem compareValues_of_isNull {a : Option Json} (hnull : a.all isNull = true) (b : Option Json) :
    compareValues a b = if b.all isNull then .eq else .lt := by
  have ha : a = none ∨ a = some .null := by
    rcases a with _ | _ | _ | _ | _ | _ | _ <;> simp_all [isNull]
  rcases ha with rfl | rfl <;> rcases b with _ | _ | _ | _ | _ | _ | _ <;> rfl

/-- **One order.** Values of all kinds, missing ones among them, stand in one order, in which
different values may share a place. Missing values and `null` come first. Numbers stand as the
doubles that they are converted to, and so never before smaller ones. Sorting by a value loses no
rows, and it is the one way to bring them in order that leaves the rows of each place as they were;
in the descending order those are turned round. -/
theorem values_stand_in_one_order :
    (∀ a, compareValues a a = .eq) ∧
    (∀ a b, compareValues b a = (compareValues a b).swap) ∧
    (∀ a b c, (compareValues a b).isLE = true → (compareValues b c).isLE = true →
      (compareValues a c).isLE = true) ∧
    (∀ a b, a.all isNull = true → compareValues a b = if b.all isNull then .eq else .lt) ∧
    (∀ m n : Number,
      compareValues (some (number m)) (some (number n)) =
        compare m.toBinary64.signedUnits n.toBinary64.signedUnits ∧
      (m.exactUnits ≤ n.exactUnits →
        (compareValues (some (number m)) (some (number n))).isLE = true)) ∧
    ∀ value descending rows, (sortRows value descending rows).Perm rows ∧
      ∀ sorted, sorted = sortRows value descending rows ↔
        InOrder value descending sorted ∧ ∀ place, sorted.filter (standsAt value place) =
          if descending then (rows.filter (standsAt value place)).reverse
          else rows.filter (standsAt value place) := by
  refine ⟨fun a => Std.ReflCmp.compare_self, fun a b => compareValues_swap b a,
    fun a b c => Std.TransCmp.isLE_trans, fun a b hnull => compareValues_of_isNull hnull b,
    fun m n => ⟨?_, Number.compare_isLE⟩, fun value descending rows =>
      ⟨sortRows_perm value descending rows, fun sorted => eq_sortRows_iff⟩⟩
  exact m.toBinary64.compare_eq n.toBinary64

/-- Two integers that no double tells apart, behind `null`. -/
theorem values_stand_in_one_order_past_precision :
    let less := some (Json.int 9007199254740992)
    let more := some (Json.int 9007199254740993)
    compareValues (some .null) less = .lt ∧ (compareValues less more).isLE = true ∧
      (compareValues (some .null) more).isLE = true := by
  intro less more
  obtain ⟨-, -, htrans, hnull, hnumbers, -⟩ := values_stand_in_one_order
  have hfirst : compareValues (some .null) less = .lt := hnull (some .null) less rfl
  have hnext : (compareValues less more).isLE = true :=
    (hnumbers (.int 9007199254740992) (.int 9007199254740993)).2 (by decide +kernel)
  exact ⟨hfirst, hnext, htrans _ _ _ (by rw [hfirst]; rfl) hnext⟩

end SchemaQuery
