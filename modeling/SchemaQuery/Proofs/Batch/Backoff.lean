import SchemaQuery.Proofs.Batch.Conservation

/-!
# Waiting between attempts

The words that a delay is computed in do not show: it is the initial delay doubled with each retry,
or the bound if that is less. A chunk waits these delays in their order, one before each submission
but the first, so the attempts bound the time it waits.
-/

namespace SchemaQuery

/-! ### Delays -/

theorem toNat_saturatingMul (a b : UInt64) :
    (saturatingMul a b).toNat = min (a.toNat * b.toNat) largestWord.toNat := by
  have hlargest : largestWord.toNat + 1 = UInt64.size := rfl
  rw [saturatingMul]
  split
  next hfits =>
    rw [UInt64.toNat_mul, Nat.mod_eq_of_lt hfits]
    omega
  next hpast => omega

namespace RetryPolicy

/-- Thirty-two doublings fit a word. -/
theorem toNat_doublings (retry : Nat) :
    ((1 : UInt64) <<< (min retry 32).toUInt64).toNat = Nat.pow 2 (min retry 32) := by
  have hshift : (min retry 32).toUInt64.toNat % 64 = min retry 32 := by
    rw [Nat.toUInt64, UInt64.toNat_ofNat']
    omega
  have hword : Nat.pow 2 (min retry 32) < 2 ^ 64 :=
    Nat.pow_lt_pow_right Nat.one_lt_two (by omega)
  rw [UInt64.toNat_shiftLeft, hshift, UInt64.toNat_one, Nat.one_shiftLeft]
  exact Nat.mod_eq_of_lt hword

theorem toNat_delay (policy : RetryPolicy) (retry : Nat) :
    (policy.delay retry).toNat =
      min policy.maxBackoffMs.toNat
        (policy.initialBackoffMs.toNat * Nat.pow 2 (min retry 32)) := by
  have hbound : policy.maxBackoffMs.toNat ≤ largestWord.toNat :=
    Nat.le_of_lt_succ policy.maxBackoffMs.toNat_lt
  -- A product that is past the words is past the bound as well.
  rw [delay, UInt64.toNat_min, toNat_saturatingMul, toNat_doublings]
  omega

theorem delay_le (policy : RetryPolicy) (retry : Nat) :
    (policy.delay retry).toNat ≤ policy.maxBackoffMs.toNat := by
  rw [toNat_delay]
  exact Nat.min_le_left _ _

theorem delay_mono (policy : RetryPolicy) {retry later : Nat} (hle : retry ≤ later) :
    (policy.delay retry).toNat ≤ (policy.delay later).toNat := by
  have hfactor : Nat.pow 2 (min retry 32) ≤ Nat.pow 2 (min later 32) :=
    Nat.pow_le_pow_right Nat.two_pos (by omega)
  have hproduct := Nat.mul_le_mul_left policy.initialBackoffMs.toNat hfactor
  rw [toNat_delay, toNat_delay]
  omega

theorem attempts_lt (policy : RetryPolicy) : policy.attempts < UInt32.size :=
  Nat.max_lt.mpr ⟨policy.maxAttempts.toNat_lt, by decide⟩

end RetryPolicy

namespace Batch

variable {S : Type}

/-! ### Waits -/

/-- The waits among events, in milliseconds. -/
def waits (events : List BatchEvent) : List Nat :=
  events.filterMap fun
    | .submitted _ => none
    | .waited ms => some ms

/-- The milliseconds waited in all. -/
def totalWait (events : List BatchEvent) : Nat := (waits events).foldr (· + ·) 0

theorem waits_resubmissions (policy : RetryPolicy) (retry : Nat) (calls : List Call) :
    waits (resubmissions policy retry calls) =
      (List.range' retry calls.length).map fun retry => (policy.delay retry).toNat := by
  induction calls generalizing retry with
  | nil => rfl
  | cons call calls ih =>
      have hcons : waits (resubmissions policy retry (call :: calls)) =
        (policy.delay retry).toNat :: waits (resubmissions policy (retry + 1) calls) := rfl
      rw [hcons, ih]
      rfl

theorem waits_roundEvents (policy : RetryPolicy) (calls : List Call) :
    waits (roundEvents policy calls) =
      (List.range (calls.length - 1)).map fun retry => (policy.delay retry).toNat := by
  cases calls with
  | nil => rfl
  | cons first again =>
      rw [List.range_eq_range']
      exact waits_resubmissions policy 0 again

theorem totalWait_le {events : List BatchEvent} {bound : Nat}
    (hbound : ∀ ms ∈ waits events, ms ≤ bound) :
    totalWait events ≤ (waits events).length * bound := by
  rw [totalWait]
  generalize waits events = times at hbound
  induction times with
  | nil => exact Nat.zero_le _
  | cons ms rest ih =>
      obtain ⟨hms, hrest⟩ := List.forall_mem_cons.mp hbound
      rw [List.foldr_cons, List.length_cons, Nat.succ_mul, Nat.add_comm]
      exact Nat.add_le_add (ih hrest) hms

theorem totalWait_roundEvents_le (policy : RetryPolicy) (calls : List Call) :
    totalWait (roundEvents policy calls) ≤ (calls.length - 1) * policy.maxBackoffMs.toNat := by
  have hwaits := waits_roundEvents policy calls
  have hbound : ∀ ms ∈ waits (roundEvents policy calls), ms ≤ policy.maxBackoffMs.toNat := by
    intro ms hms
    rw [hwaits] at hms
    obtain ⟨retry, -, rfl⟩ := List.mem_map.mp hms
    exact policy.delay_le retry
  have htotal := totalWait_le hbound
  rwa [hwaits, List.length_map, List.length_range] at htotal

/-- **Backing off.** A delay is the initial one, doubled with each of the first thirty-two retries
and cut down to the bound; so it never decreases from a retry to a later one. In any run the calls
fall into rounds, one for each chunk that was begun, in the order of the chunks. A round submits its
chunk and then each time what the call before has left. It waits the delays in their order, from
that of the first retry on, one before each call but the first, so in all no longer than the bound
times the attempts but one. -/
theorem drive_backs_off (submit : Submit S) (size : Nat) (policy : RetryPolicy)
    (requests : List WriteRequest) (state : S) :
    (∀ retry,
      (policy.delay retry).toNat = min policy.maxBackoffMs.toNat
        (policy.initialBackoffMs.toNat * Nat.pow 2 (min retry 32)) ∧
      policy.delay retry ≤ policy.maxBackoffMs ∧
      ∀ later, retry ≤ later → policy.delay retry ≤ policy.delay later) ∧
    max policy.maxAttempts.toNat 1 < UInt32.size ∧
    let run := drive (recorded submit) size policy requests (state, [])
    drive submit size policy requests state = ⟨run.outcome, run.events, run.state.1⟩ ∧
    ∃ rounds : List (List Call),
      run.state.2 = rounds.flatten ∧ run.events = rounds.flatMap (roundEvents policy) ∧
      rounds.map (fun round => round.head?.map Call.submitted) <+:
        (chunks size requests).map some ∧
      ∀ round ∈ rounds,
        round.IsChain Call.Resubmits ∧
        round.length ≤ max policy.maxAttempts.toNat 1 ∧
        waits (roundEvents policy round) =
          (List.range (round.length - 1)).map (fun retry => (policy.delay retry).toNat) ∧
        totalWait (roundEvents policy round) ≤
          (max policy.maxAttempts.toNat 1 - 1) * policy.maxBackoffMs.toNat := by
  have hle (retry : Nat) : policy.delay retry ≤ policy.maxBackoffMs :=
    UInt64.le_iff_toNat_le.mpr (policy.delay_le retry)
  have hmono {retry later : Nat} (hlater : retry ≤ later) :
      policy.delay retry ≤ policy.delay later :=
    UInt64.le_iff_toNat_le.mpr (policy.delay_mono hlater)
  refine ⟨fun retry => ⟨policy.toNat_delay retry, hle retry, fun later => hmono⟩,
    policy.attempts_lt, ?_⟩
  by_cases hroom : Reservable WriteRequest.bytes (max size 1)
  case neg =>
    dsimp only
    rw [drive_of_not_reservable _ policy hroom, drive_of_not_reservable _ policy hroom]
    exact ⟨rfl, [], rfl, rfl, List.nil_prefix, fun _ hmem => absurd hmem List.not_mem_nil⟩
  obtain ⟨result, after, rounds, hdrive, hrecorded, hruns, -⟩ :=
    drive_runs submit policy hroom requests state
  simp only [hdrive, hrecorded]
  refine ⟨trivial, rounds, rfl, rfl, hruns.heads_prefix, fun round hmem => ?_⟩
  obtain ⟨k, hk⟩ := List.getElem?_of_mem hmem
  obtain ⟨chunk, ending, -, hdrains, -⟩ := hruns.round hk
  have hlength : round.length ≤ max policy.maxAttempts.toNat 1 :=
    hdrains.length_le.trans_eq policy.retries_add_one
  refine ⟨hdrains.isChain, hlength, waits_roundEvents policy round, ?_⟩
  exact (totalWait_roundEvents_le policy round).trans
    (Nat.mul_le_mul_right _ (Nat.sub_le_sub_right hlength 1))

/-- A first delay of half the words doubles to the largest word, and all of it is waited. -/
theorem drive_backs_off_saturated :
    let policy : RetryPolicy := ⟨3, 0x8000000000000000, largestWord⟩
    let run := drive (recorded leavesFirst) 2 policy ((List.range 2).map numberedPut) ((), [])
    policy.delay 0 ≤ policy.delay 1 ∧
      waits run.events = [9223372036854775808, 18446744073709551615] ∧
      totalWait run.events ≤ 2 * 18446744073709551615 := by
  intro policy run
  obtain ⟨hdelays, -, -, rounds, hcalls, hevents, hheads, hrounds⟩ :=
    drive_backs_off leavesFirst 2 policy ((List.range 2).map numberedPut) ()
  obtain ⟨-, -, hmono⟩ := hdelays 0
  refine ⟨hmono 1 (Nat.zero_le 1), by decide +kernel, ?_⟩
  have hlength : rounds.length ≤ 1 := by
    have := hheads.length_le
    rwa [List.length_map] at this
  match rounds, hlength with
  | [], _ => cases hcalls
  | [round], _ =>
      obtain ⟨-, -, -, htotal⟩ := hrounds round List.mem_cons_self
      rwa [← List.flatMap_singleton (roundEvents policy), ← hevents] at htotal

end Batch

end SchemaQuery
