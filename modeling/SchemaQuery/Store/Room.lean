import SchemaQuery.Store.Error

/-!
# Room for lists

A list that is to hold many entries is given room for them before the first is put in. More bytes
than the largest allocation has are never given: the call that asks for them is aborted. That memory
may run out before is left out.
-/

namespace SchemaQuery

/-- The bytes of the largest allocation. -/
def largestAllocation : Nat := 0x7FFFFFFFFFFFFFFF

/-- The bytes of a record in a list; its members have their own place. -/
def Record.bytes : Nat := 24

/-- The bytes of a record, with a word for the kind of request. -/
def WriteRequest.bytes : Nat := 32

/-- Whether there can be room for a number of entries of one size. -/
def Reservable (bytes count : Nat) : Prop := bytes * count ≤ largestAllocation

instance (bytes count : Nat) : Decidable (Reservable bytes count) :=
  inferInstanceAs (Decidable (_ ≤ _))

/-- A value put together in a list that is first given room for a number of entries. -/
def reserving (bytes count : Nat) (value : α) : Except StoreError α :=
  if Reservable bytes count then .ok value else .error .aborted

section

variable {bytes count : Nat}

theorem Reservable.mono {fewer : Nat} (hcount : Reservable bytes count) (hle : fewer ≤ count) :
    Reservable bytes fewer :=
  Nat.le_trans (Nat.mul_le_mul_left bytes hle) hcount

theorem Reservable.max {other : Nat} (hcount : Reservable bytes count)
    (hother : Reservable bytes other) : Reservable bytes (max count other) := by
  rcases Nat.le_total count other with hle | hle
  · rwa [Nat.max_eq_right hle]
  · rwa [Nat.max_eq_left hle]

theorem reserving_of_reservable (hcount : Reservable bytes count) (value : α) :
    reserving bytes count value = .ok value := if_pos hcount

theorem reserving_of_not_reservable (hcount : ¬Reservable bytes count) (value : α) :
    reserving bytes count value = .error .aborted := if_neg hcount

end

end SchemaQuery
