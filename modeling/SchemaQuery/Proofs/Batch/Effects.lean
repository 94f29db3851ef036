import SchemaQuery.Proofs.Batch.Rounds

/-!
# What a batch does to the store

A run submits only requests that it was given, be it again and again. So whatever a submission of
such requests does to the store, and doing it over and over does as well, the run does; one that is
aborted for want of room does nothing.
-/

namespace SchemaQuery.Batch

variable {S : Type} {submit : Submit S} {allowed : WriteRequest → Prop} {r : S → S → Prop}

/-- A submission of allowed requests moves the store as the relation says and leaves allowed ones
open. -/
def Moves (submit : Submit S) (allowed : WriteRequest → Prop) (r : S → S → Prop) : Prop :=
  ∀ requests, (∀ request ∈ requests, allowed request) → ∀ state,
    r state (submit requests state).2 ∧
      ∀ left, (submit requests state).1 = .ok left → ∀ request ∈ left, allowed request

theorem drain_moves (htrans : ∀ ⦃a b c⦄, r a b → r b c → r a c)
    (hmoves : Moves submit allowed r) (policy : RetryPolicy) (retries retry : Nat)
    {pending : List WriteRequest} (hpending : ∀ request ∈ pending, allowed request) (state : S) :
    r state (drain submit policy retries retry pending state).2.2 := by
  induction retries generalizing retry pending state with
  | zero =>
      obtain ⟨hmove, -⟩ := hmoves pending hpending state
      rw [drain]
      split
      next hsubmit => rwa [hsubmit] at hmove
      next hsubmit => rwa [hsubmit] at hmove
      next hsubmit => rwa [hsubmit] at hmove
  | succ retries ih =>
      obtain ⟨hmove, hleft⟩ := hmoves pending hpending state
      rw [drain]
      split
      next hsubmit => rwa [hsubmit] at hmove
      next hsubmit => rwa [hsubmit] at hmove
      next hsubmit =>
        rw [hsubmit] at hmove hleft
        exact htrans hmove (ih _ (hleft _ rfl) _)

theorem driveChunks_moves (hrefl : ∀ state, r state state)
    (htrans : ∀ ⦃a b c⦄, r a b → r b c → r a c) (hmoves : Moves submit allowed r)
    (policy : RetryPolicy) {batches : List (List WriteRequest)}
    (hbatches : ∀ chunk ∈ batches, ∀ request ∈ chunk, allowed request) (state : S) :
    r state (driveChunks submit policy batches state).2.2 := by
  induction batches generalizing state with
  | nil => exact hrefl state
  | cons chunk rest ih =>
      obtain ⟨hchunk, hrest⟩ := List.forall_mem_cons.mp hbatches
      have hdrain := drain_moves htrans hmoves policy (policy.attempts - 1) 0 hchunk state
      rw [driveChunks]
      split
      next hresult =>
        rw [hresult] at hdrain
        exact htrans hdrain (ih hrest _)
      next hresult => rwa [hresult] at hdrain
      next hresult => rwa [hresult] at hdrain

/-- A run moves the store as its submissions do. -/
theorem write_moves (hrefl : ∀ state, r state state)
    (htrans : ∀ ⦃a b c⦄, r a b → r b c → r a c) (hmoves : Moves submit allowed r) (size : Nat)
    (policy : RetryPolicy) {requests : List WriteRequest}
    (hrequests : ∀ request ∈ requests, allowed request) (state : S) :
    r state (write submit size policy requests state).2 := by
  rw [write]
  by_cases hroom : Reservable WriteRequest.bytes (max size 1)
  case neg =>
    rw [drive_of_not_reservable submit policy hroom]
    exact hrefl state
  rw [drive_of_reservable submit policy hroom]
  refine driveChunks_moves hrefl htrans hmoves policy
    (fun chunk hchunk request hrequest => hrequests request ?_) state
  rw [← flatten_chunks size requests]
  exact List.mem_flatten.mpr ⟨chunk, hchunk, hrequest⟩

end SchemaQuery.Batch
