import Mathlib.Data.List.Chain
import SchemaQuery.Batch.Drive

/-!
# Rounds of a batch

A run is told by the calls it makes: what each one submitted and what the store answered. The calls
fall into rounds, one for each chunk that was begun. A round submits its chunk, and then each time
what the call before has left, until nothing is left, the store fails, or the attempts are used up.
Whatever the store is, the rounds determine the events of the run, and how many calls it counts.
-/

namespace SchemaQuery

/-! ### Chunks -/

section Chunks

variable {α : Type}

theorem flatten_chunksFrom (size : Nat) (items filled : List α) (room : Nat) :
    (chunksFrom size items filled room).flatten = filled.reverse ++ items := by
  fun_induction chunksFrom size items filled room with
  | case1 => rfl
  | case2 filled _ _ => rw [List.flatten_singleton, List.append_nil]
  | case3 item rest filled ih => rw [List.flatten_cons, ih, List.reverse_singleton]; rfl
  | case4 item rest filled room ih =>
      rw [ih, List.reverse_cons, List.append_assoc]
      rfl

theorem mem_chunksFrom {size : Nat} (hsize : 0 < size) {items filled : List α} {room : Nat}
    (hroom : filled.length + room = size) :
    ∀ chunk ∈ chunksFrom size items filled room, chunk ≠ [] ∧ chunk.length ≤ size := by
  fun_induction chunksFrom size items filled room with
  | case1 => exact fun _ hmem => absurd hmem List.not_mem_nil
  | case2 filled room hfilled =>
      intro chunk hmem
      obtain rfl := List.mem_singleton.mp hmem
      refine ⟨fun hnil => hfilled (List.reverse_eq_nil_iff.mp hnil), ?_⟩
      rw [List.length_reverse]
      omega
  | case3 item rest filled ih =>
      intro chunk hmem
      rcases List.mem_cons.mp hmem with rfl | hmem
      · have hlength : filled.reverse.length = size := by rw [List.length_reverse, ← hroom]; rfl
        exact ⟨List.ne_nil_of_length_pos (hlength ▸ hsize), Nat.le_of_eq hlength⟩
      · exact ih (by rw [List.length_singleton]; omega) chunk hmem
  | case4 item rest filled room ih =>
      exact ih (by rw [List.length_cons]; omega)

theorem flatten_chunks (size : Nat) (items : List α) : (chunks size items).flatten = items :=
  flatten_chunksFrom _ items [] _

theorem mem_chunks (size : Nat) (items : List α) :
    ∀ chunk ∈ chunks size items, chunk ≠ [] ∧ chunk.length ≤ max size 1 :=
  mem_chunksFrom (Nat.le_max_right size 1) (Nat.zero_add _)

theorem chunksFrom_map {β : Type} (f : α → β) (size : Nat) (items filled : List α) (room : Nat) :
    chunksFrom size (items.map f) (filled.map f) room =
      (chunksFrom size items filled room).map (List.map f) := by
  fun_induction chunksFrom size items filled room with
  | case1 => rfl
  | case2 filled room hfilled =>
      rw [List.map_nil, chunksFrom, List.map_singleton, List.map_reverse]
      simpa using hfilled
  | case3 item rest filled ih =>
      rw [List.map_cons, chunksFrom, List.map_cons, ← ih, List.map_reverse, List.map_singleton]
  | case4 item rest filled room ih => rw [List.map_cons, chunksFrom, ← ih, List.map_cons]

theorem chunks_map {β : Type} (f : α → β) (size : Nat) (items : List α) :
    chunks size (items.map f) = (chunks size items).map (List.map f) :=
  chunksFrom_map f _ items [] _

end Chunks

/-- The first attempt and the retries behind it. -/
theorem RetryPolicy.retries_add_one (policy : RetryPolicy) :
    policy.attempts - 1 + 1 = max policy.maxAttempts.toNat 1 :=
  Nat.sub_add_cancel (Nat.le_max_right _ 1)

namespace Batch

variable {S : Type}

/-! ### Calls -/

/-- A submission and the store's answer to it. -/
structure Call where
  submitted : List WriteRequest
  answer : Except StoreError (List WriteRequest)

/-- The same store, which also keeps the calls made of it. -/
def recorded (submit : Submit S) : Submit (S × List Call) := fun requests store =>
  let (answer, after) := submit requests store.1
  (answer, after, store.2 ++ [⟨requests, answer⟩])

/-- What was submitted was answered so by the store, as it was then. -/
def Call.AnsweredBy (submit : Submit S) (call : Call) : Prop :=
  ∃ state, (submit call.submitted state).1 = call.answer

/-- The second call submits what the first one has left. -/
def Call.Resubmits (earlier later : Call) : Prop :=
  earlier.answer = .ok later.submitted ∧ later.submitted ≠ []

/-- The last answer for a chunk, by how it ended. -/
def answerOf : Drained → Except StoreError (List WriteRequest)
  | .done => .ok []
  | .failed error => .error error
  | .unprocessed left => .ok left

/-- The calls made for what is pending of a chunk, given the number of retries. -/
inductive Drains : Nat → List WriteRequest → List Call → Drained → Prop where
  | done {retries : Nat} {pending : List WriteRequest} :
      Drains retries pending [⟨pending, .ok []⟩] .done
  | failed {retries : Nat} {pending : List WriteRequest} {error : StoreError} :
      Drains retries pending [⟨pending, .error error⟩] (.failed error)
  | unprocessed {pending left : List WriteRequest} : left ≠ [] →
      Drains 0 pending [⟨pending, .ok left⟩] (.unprocessed left)
  | again {retries : Nat} {pending left : List WriteRequest} {calls : List Call}
      {result : Drained} : left ≠ [] → Drains retries left calls result →
      Drains (retries + 1) pending (⟨pending, .ok left⟩ :: calls) result

/-- The calls made for each chunk that was begun, and the result of the run. -/
inductive Runs (attempts : Nat) :
    List (List WriteRequest) → List (List Call) → Except StoreError Unit → Prop where
  | nil : Runs attempts [] [] (.ok ())
  | next {chunk : List WriteRequest} {chunks : List (List WriteRequest)} {calls : List Call}
      {rounds : List (List Call)} {result : Except StoreError Unit} :
      Drains (attempts - 1) chunk calls .done → Runs attempts chunks rounds result →
      Runs attempts (chunk :: chunks) (calls :: rounds) result
  | failed {chunk : List WriteRequest} {chunks : List (List WriteRequest)} {calls : List Call}
      {error : StoreError} : Drains (attempts - 1) chunk calls (.failed error) →
      Runs attempts (chunk :: chunks) [calls] (.error error)
  | unprocessed {chunk : List WriteRequest} {chunks : List (List WriteRequest)}
      {calls : List Call} {left : List WriteRequest} :
      Drains (attempts - 1) chunk calls (.unprocessed left) →
      Runs attempts (chunk :: chunks) [calls]
        (.error (.unprocessedItems attempts (left ++ chunks.flatten)))

/-! ### Events -/

/-- The events of the calls that submit a chunk again, each after its wait. -/
def resubmissions (policy : RetryPolicy) (retry : Nat) (calls : List Call) : List BatchEvent :=
  (calls.zipIdx retry).flatMap fun call =>
    [.waited (policy.delay call.2).toNat, .submitted call.1.submitted]

/-- The events of all calls made for a chunk. -/
def roundEvents (policy : RetryPolicy) : List Call → List BatchEvent
  | [] => []
  | first :: again => .submitted first.submitted :: resubmissions policy 0 again

def countSubmissions (events : List BatchEvent) : Nat :=
  events.countP fun
    | .submitted _ => true
    | .waited _ => false

theorem countSubmissions_append (events more : List BatchEvent) :
    countSubmissions (events ++ more) = countSubmissions events + countSubmissions more :=
  List.countP_append

theorem countSubmissions_submitted (pending : List WriteRequest) (events : List BatchEvent) :
    countSubmissions (.submitted pending :: events) = countSubmissions events + 1 :=
  List.countP_cons_of_pos rfl

theorem countSubmissions_waited (ms : Nat) (events : List BatchEvent) :
    countSubmissions (.waited ms :: events) = countSubmissions events :=
  List.countP_cons_of_neg Bool.false_ne_true

theorem countSubmissions_resubmissions (policy : RetryPolicy) (retry : Nat) (calls : List Call) :
    countSubmissions (resubmissions policy retry calls) = calls.length := by
  induction calls generalizing retry with
  | nil => rfl
  | cons call calls ih =>
      have hcons : resubmissions policy retry (call :: calls) =
        .waited (policy.delay retry).toNat :: .submitted call.submitted ::
          resubmissions policy (retry + 1) calls := rfl
      rw [hcons, countSubmissions_waited, countSubmissions_submitted, ih, List.length_cons]

theorem countSubmissions_rounds (policy : RetryPolicy) (rounds : List (List Call)) :
    countSubmissions (rounds.flatMap (roundEvents policy)) = rounds.flatten.length := by
  induction rounds with
  | nil => rfl
  | cons calls rounds ih =>
      rw [List.flatMap_cons, List.flatten_cons, countSubmissions_append, List.length_append, ih]
      congr 1
      cases calls with
      | nil => rfl
      | cons first again =>
          rw [roundEvents, countSubmissions_submitted, countSubmissions_resubmissions,
            List.length_cons]

/-! ### The count of the submissions -/

section Counted

variable (submit : Submit S) (policy : RetryPolicy)

theorem drain_counted (left retry : Nat) (pending : List WriteRequest) (state : S)
    (count : UInt32) :
    let run := drain submit policy left retry pending state
    drain (counted submit) policy left retry pending (state, count) =
      (run.1, run.2.1, run.2.2, count + .ofNat (countSubmissions run.2.1)) := by
  fun_induction drain submit policy left retry pending state generalizing count with
  | case1 left retry pending state error after hsubmit => rw [drain, counted, hsubmit]; rfl
  | case2 left retry pending state after hsubmit => rw [drain, counted, hsubmit]; rfl
  | case3 retry pending state request requests after hsubmit => rw [drain, counted, hsubmit]; rfl
  | case4 retry pending state request requests after hsubmit left result events final hdrain ih =>
      rw [drain, counted, hsubmit]
      simp only [ih, hdrain]
      rw [countSubmissions_submitted, countSubmissions_waited, UInt32.ofNat_add, UInt32.add_assoc,
        UInt32.add_comm 1]
      rfl

theorem driveChunks_counted (chunks : List (List WriteRequest)) (state : S) (count : UInt32) :
    let run := driveChunks submit policy chunks state
    driveChunks (counted submit) policy chunks (state, count) =
      (run.1, run.2.1, run.2.2, count + .ofNat (countSubmissions run.2.1)) := by
  induction chunks generalizing state count with
  | nil => rw [driveChunks, driveChunks]; simp [countSubmissions]
  | cons chunk chunks ih =>
      rw [driveChunks, driveChunks, drain_counted]
      rcases drain submit policy (policy.attempts - 1) 0 chunk state with ⟨result, events, after⟩
      cases result with
      | failed error => rfl
      | unprocessed left => rfl
      | done =>
          simp only [ih, countSubmissions_append, UInt32.ofNat_add, UInt32.add_assoc]

/-- Where there is room for its chunks a run is that of the chunks, and counts the submissions. -/
theorem drive_of_reservable {size : Nat} (hroom : Reservable WriteRequest.bytes (max size 1))
    (requests : List WriteRequest) (state : S) :
    let run := driveChunks submit policy (chunks size requests) state
    drive submit size policy requests state =
      ⟨run.1.map fun _ => ⟨requests.length, .ofNat (countSubmissions run.2.1)⟩, run.2.1,
        run.2.2⟩ := by
  simp only [drive, split, reserving_of_reservable hroom, driveChunks_counted, UInt32.zero_add]

/-- A run without room for its chunks is aborted before it submits anything. -/
theorem drive_of_not_reservable {size : Nat}
    (hroom : ¬Reservable WriteRequest.bytes (max size 1)) (requests : List WriteRequest)
    (state : S) :
    drive submit size policy requests state = ⟨.error .aborted, [], state⟩ := by
  simp only [drive, split, reserving_of_not_reservable hroom]

end Counted

/-! ### The calls of a run -/

section Calls

variable (submit : Submit S) (policy : RetryPolicy)

/-- What is pending is submitted at once, and what is left of it after the wait of the retry. -/
theorem drain_drains (left retry : Nat) (pending : List WriteRequest) (state : S)
    (before : List Call) :
    ∃ result after answer again,
      let events := .submitted pending :: resubmissions policy retry again
      let calls := ⟨pending, answer⟩ :: again
      drain submit policy left retry pending state = (result, events, after) ∧
      drain (recorded submit) policy left retry pending (state, before) =
        (result, events, after, before ++ calls) ∧
      Drains left pending calls result ∧ ∀ call ∈ calls, call.AnsweredBy submit := by
  fun_induction drain submit policy left retry pending state generalizing before with
  | case1 left retry pending state error after hsubmit =>
      refine ⟨_, _, .error error, [], rfl, ?_, .failed,
        List.forall_mem_singleton.mpr ⟨state, by rw [hsubmit]⟩⟩
      rw [drain, recorded, hsubmit]
      rfl
  | case2 left retry pending state after hsubmit =>
      refine ⟨_, _, .ok [], [], rfl, ?_, .done,
        List.forall_mem_singleton.mpr ⟨state, by rw [hsubmit]⟩⟩
      rw [drain, recorded, hsubmit]
      rfl
  | case3 retry pending state request requests after hsubmit =>
      refine ⟨_, _, .ok (request :: requests), [], rfl, ?_, .unprocessed (List.cons_ne_nil _ _),
        List.forall_mem_singleton.mpr ⟨state, by rw [hsubmit]⟩⟩
      rw [drain, recorded, hsubmit]
      rfl
  | case4 retry pending state request requests after hsubmit left result events final hdrain ih =>
      obtain ⟨_, _, answer, again, hinner, hrecorded, hdrains, hanswered⟩ :=
        ih (before ++ [⟨pending, .ok (request :: requests)⟩])
      cases hdrain.symm.trans hinner
      refine ⟨_, _, .ok (request :: requests), ⟨request :: requests, answer⟩ :: again, rfl, ?_,
        .again (List.cons_ne_nil _ _) hdrains,
        List.forall_mem_cons.mpr ⟨⟨state, by rw [hsubmit]⟩, hanswered⟩⟩
      rw [drain, recorded, hsubmit]
      simp only [hrecorded, List.append_assoc]
      rfl

/-- Chunk by chunk, with all retries that the policy allows. -/
theorem driveChunks_runs (chunks : List (List WriteRequest)) (state : S) (before : List Call) :
    ∃ result after, ∃ rounds : List (List Call),
      let events := rounds.flatMap (roundEvents policy)
      driveChunks submit policy chunks state = (result, events, after) ∧
      driveChunks (recorded submit) policy chunks (state, before) =
        (result, events, after, before ++ rounds.flatten) ∧
      Runs policy.attempts chunks rounds result ∧
      ∀ call ∈ rounds.flatten, call.AnsweredBy submit := by
  induction chunks generalizing state before with
  | nil =>
      exact ⟨_, _, [], rfl, by rw [List.flatten_nil, List.append_nil]; rfl, .nil,
        fun _ hmem => absurd hmem List.not_mem_nil⟩
  | cons chunk chunks ih =>
      obtain ⟨result, after, answer, again, hdrain, hrecorded, hdrains, hanswered⟩ :=
        drain_drains submit policy (policy.attempts - 1) 0 chunk state before
      have hround : roundEvents policy (⟨chunk, answer⟩ :: again) =
          .submitted chunk :: resubmissions policy 0 again := rfl
      rw [driveChunks, driveChunks, hdrain, hrecorded, ← hround]
      cases result with
      | done =>
          obtain ⟨result, final, rounds, hdrive, hrecorded', hruns, hanswered'⟩ :=
            ih after (before ++ ⟨chunk, answer⟩ :: again)
          refine ⟨result, final, (⟨chunk, answer⟩ :: again) :: rounds, ?_, ?_,
            .next hdrains hruns, ?_⟩
          · simp only [hdrive, List.flatMap_cons]
          · simp only [hrecorded', List.flatMap_cons, List.flatten_cons, List.append_assoc]
          · rw [List.flatten_cons]
            exact List.forall_mem_append.mpr ⟨hanswered, hanswered'⟩
      | failed error =>
          rw [← List.flatMap_singleton (roundEvents policy)]
          exact ⟨_, after, [⟨chunk, answer⟩ :: again], rfl, by rw [List.flatten_singleton],
            .failed hdrains, by rwa [List.flatten_singleton]⟩
      | unprocessed left =>
          rw [← List.flatMap_singleton (roundEvents policy)]
          exact ⟨_, after, [⟨chunk, answer⟩ :: again], rfl, by rw [List.flatten_singleton],
            .unprocessed hdrains, by rwa [List.flatten_singleton]⟩

/-- A run with room for its chunks, whether its calls are kept or not. -/
theorem drive_runs {size : Nat} (hroom : Reservable WriteRequest.bytes (max size 1))
    (requests : List WriteRequest) (state : S) :
    ∃ result after, ∃ rounds : List (List Call),
      let outcome := result.map fun _ =>
        BatchSummary.mk requests.length (.ofNat rounds.flatten.length)
      let events := rounds.flatMap (roundEvents policy)
      drive submit size policy requests state = ⟨outcome, events, after⟩ ∧
      drive (recorded submit) size policy requests (state, []) =
        ⟨outcome, events, after, rounds.flatten⟩ ∧
      Runs policy.attempts (chunks size requests) rounds result ∧
      ∀ call ∈ rounds.flatten, call.AnsweredBy submit := by
  obtain ⟨result, after, rounds, hdrive, hrecorded, hruns, hanswered⟩ :=
    driveChunks_runs submit policy (chunks size requests) state []
  refine ⟨result, after, rounds, ?_, ?_, hruns, hanswered⟩
  · simp only [drive_of_reservable submit policy hroom, hdrive, countSubmissions_rounds]
  · simp only [drive_of_reservable (recorded submit) policy hroom, hrecorded,
      countSubmissions_rounds, List.nil_append]

end Calls

/-! ### The calls of one chunk -/

section Drains

variable {retries : Nat} {pending : List WriteRequest} {calls : List Call} {result : Drained}

theorem Drains.head (hdrains : Drains retries pending calls result) :
    calls.head?.map Call.submitted = some pending := by
  cases hdrains <;> rfl

theorem Drains.isChain (hdrains : Drains retries pending calls result) :
    calls.IsChain Call.Resubmits := by
  induction hdrains with
  | done | failed | unprocessed => exact List.isChain_singleton _
  | @again _ _ left calls _ hne hdrains ih =>
      have hhead := hdrains.head
      cases calls with
      | nil => exact List.isChain_singleton _
      | cons next calls =>
          obtain rfl : next.submitted = left := Option.some.inj hhead
          exact List.isChain_cons_cons.mpr ⟨⟨rfl, hne⟩, ih⟩

theorem Drains.length_le (hdrains : Drains retries pending calls result) :
    calls.length ≤ retries + 1 := by
  induction hdrains with
  | done | failed | unprocessed => exact Nat.le_add_left 1 _
  | again _ _ ih => exact Nat.succ_le_succ ih

/-- All calls but the last are answered, and the last one as the end of the chunk says. -/
theorem Drains.answers (hdrains : Drains retries pending calls result) :
    ∃ before last, calls = before ++ [last] ∧ last.answer = answerOf result ∧
      ∀ call ∈ before, ∃ left, call.answer = .ok left := by
  induction hdrains with
  | done | failed | unprocessed =>
      exact ⟨[], _, rfl, rfl, fun _ hmem => absurd hmem List.not_mem_nil⟩
  | again _ _ ih =>
      obtain ⟨before, last, rfl, hlast, hbefore⟩ := ih
      exact ⟨_ :: before, last, rfl, hlast, List.forall_mem_cons.mpr ⟨⟨_, rfl⟩, hbefore⟩⟩

/-- A chunk that is drained had an answer to each of its calls. -/
theorem Drains.answered (hdrains : Drains retries pending calls .done) :
    ∀ call ∈ calls, ∃ left, call.answer = .ok left := by
  obtain ⟨before, last, rfl, hlast, hbefore⟩ := hdrains.answers
  intro call hmem
  rcases List.mem_append.mp hmem with hmem | hmem
  · exact hbefore call hmem
  · exact ⟨[], by rw [List.mem_singleton.mp hmem]; exact hlast⟩

/-- What is left at the end was left by the last attempt. -/
theorem Drains.left_ne_nil {left : List WriteRequest}
    (hdrains : Drains retries pending calls (.unprocessed left)) :
    left ≠ [] ∧ calls.length = retries + 1 := by
  generalize hresult : Drained.unprocessed left = result at hdrains
  induction hdrains with
  | done | failed => cases hresult
  | unprocessed hne =>
      obtain rfl := Drained.unprocessed.inj hresult
      exact ⟨hne, rfl⟩
  | again _ _ ih =>
      obtain ⟨hne, hlength⟩ := ih hresult
      exact ⟨hne, congrArg Nat.succ hlength⟩

end Drains

/-! ### Chunk by chunk -/

section Runs

variable {attempts : Nat} {chunks : List (List WriteRequest)} {rounds : List (List Call)}
  {result : Except StoreError Unit}

/-- The calls of a chunk that was begun. Before a later chunk is begun nothing is left of it. -/
theorem Runs.round (hruns : Runs attempts chunks rounds result) {k : Nat} {calls : List Call}
    (hcalls : rounds[k]? = some calls) :
    ∃ chunk ending, chunks[k]? = some chunk ∧ Drains (attempts - 1) chunk calls ending ∧
      (k + 1 < rounds.length → ending = .done) := by
  induction hruns generalizing k with
  | nil => simp at hcalls
  | @next chunk chunks _ rounds _ hdrains _ ih =>
      cases k with
      | zero =>
          obtain rfl := Option.some.inj hcalls
          exact ⟨chunk, .done, rfl, hdrains, fun _ => rfl⟩
      | succ k =>
          obtain ⟨chunk, ending, hchunk, hdrains, hending⟩ := ih hcalls
          exact ⟨chunk, ending, hchunk, hdrains, fun hlt => hending (Nat.lt_of_succ_lt_succ hlt)⟩
  | failed hdrains | unprocessed hdrains =>
      cases k with
      | zero =>
          obtain rfl := Option.some.inj hcalls
          exact ⟨_, _, rfl, hdrains, fun hlt => absurd hlt (Nat.lt_irrefl 1)⟩
      | succ k => simp at hcalls

/-- The rounds submit the chunks that were begun, in their order. -/
theorem Runs.heads_prefix (hruns : Runs attempts chunks rounds result) :
    rounds.map (fun round => round.head?.map Call.submitted) <+: chunks.map some := by
  induction hruns with
  | nil => exact List.nil_prefix
  | next hdrains _ ih => exact List.cons_prefix_cons.mpr ⟨hdrains.head, ih⟩
  | failed hdrains | unprocessed hdrains =>
      exact List.cons_prefix_cons.mpr ⟨hdrains.head, List.nil_prefix⟩

theorem Runs.length_le (hruns : Runs attempts chunks rounds result) :
    rounds.length ≤ chunks.length := by
  have hle := hruns.heads_prefix.length_le
  rwa [List.length_map, List.length_map] at hle

end Runs

end Batch

end SchemaQuery
