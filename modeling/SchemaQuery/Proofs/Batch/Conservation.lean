import Mathlib.Data.List.Perm.Subperm
import SchemaQuery.Proofs.Batch.Rounds

/-!
# Batches lose and double nothing

A store that leaves only what it was given splits every submission into what it has accepted and
what is still to be done. A chunk that drains is thus accepted as a whole, and a run that gives up
reports exactly what was not.
-/

namespace SchemaQuery.Batch

variable {S : Type} {submit : Submit S}

/-! ### What is accepted -/

open Classical in
/-- The requests of a call that were not left; of a call that failed nothing is known. -/
noncomputable def Call.accepted (call : Call) : List WriteRequest :=
  match call.answer with
  | .ok left => call.submitted.diff left
  | .error _ => []

theorem accepted_append_perm {pending left : List WriteRequest} (hleft : left.Subperm pending) :
    ((Call.mk pending (.ok left)).accepted ++ left).Perm pending := by
  classical
  have hcount := List.subperm_ext_iff.mp hleft
  exact List.perm_append_comm.trans (List.subperm_append_diff_self_of_count_le hcount)

/-- A store leaves only requests that it was given, each as often at most. -/
def LeavesPart (submit : Submit S) : Prop :=
  ∀ requests state left after, submit requests state = (.ok left, after) → left.Subperm requests

/-- What a call has left is part of what it submitted. -/
def Call.LeavesPart (call : Call) : Prop :=
  ∀ left, call.answer = .ok left → left.Subperm call.submitted

theorem Call.AnsweredBy.leavesPart {call : Call} (hanswered : call.AnsweredBy submit)
    (hleaves : Batch.LeavesPart submit) : call.LeavesPart := by
  obtain ⟨state, hanswer⟩ := hanswered
  exact fun left hleft => hleaves _ state left _ (Prod.ext (hanswer.trans hleft) rfl)

section Drains

variable {retries : Nat} {pending : List WriteRequest} {calls : List Call} {result : Drained}

theorem Drains.length_submitted_le (hdrains : Drains retries pending calls result)
    (hparts : ∀ call ∈ calls, call.LeavesPart) :
    ∀ call ∈ calls, call.submitted.length ≤ pending.length := by
  induction hdrains with
  | done | failed | unprocessed => exact List.forall_mem_singleton.mpr (Nat.le_refl _)
  | again _ _ ih =>
      obtain ⟨hpart, hparts⟩ := List.forall_mem_cons.mp hparts
      refine List.forall_mem_cons.mpr ⟨Nat.le_refl _, fun call hmem => ?_⟩
      exact (ih hparts call hmem).trans (hpart _ rfl).length_le

/-- What the calls got done, with what the last one left, is what was pending. -/
theorem Drains.accepted_perm {left : List WriteRequest}
    (hdrains : Drains retries pending calls result) (hparts : ∀ call ∈ calls, call.LeavesPart)
    (hanswer : answerOf result = .ok left) :
    (calls.flatMap Call.accepted ++ left).Perm pending := by
  induction hdrains with
  | done =>
      obtain rfl := Except.ok.inj hanswer
      rw [List.flatMap_singleton]
      exact accepted_append_perm List.nil_subperm
  | failed => cases hanswer
  | unprocessed =>
      obtain rfl := Except.ok.inj hanswer
      rw [List.flatMap_singleton]
      exact accepted_append_perm (hparts _ List.mem_cons_self _ rfl)
  | again _ _ ih =>
      obtain ⟨hpart, hparts⟩ := List.forall_mem_cons.mp hparts
      rw [List.flatMap_cons, List.append_assoc]
      exact ((ih hparts hanswer).append_left _).trans (accepted_append_perm (hpart _ rfl))

end Drains

section Runs

variable {attempts : Nat} {chunks : List (List WriteRequest)} {rounds : List (List Call)}
  {result : Except StoreError Unit}

/-- A run that goes well gets every chunk done, with an answer to every call. -/
theorem Runs.of_ok (hruns : Runs attempts chunks rounds (.ok ()))
    (hparts : ∀ call ∈ rounds.flatten, call.LeavesPart) :
    (rounds.flatten.flatMap Call.accepted).Perm chunks.flatten ∧
      ∀ call ∈ rounds.flatten, ∃ left, call.answer = .ok left := by
  generalize hresult : Except.ok () = result at hruns
  induction hruns with
  | nil => exact ⟨.refl _, fun _ hmem => absurd hmem List.not_mem_nil⟩
  | failed | unprocessed => cases hresult
  | next hdrains _ ih =>
      rw [List.flatten_cons] at hparts
      obtain ⟨hround, hrest⟩ := List.forall_mem_append.mp hparts
      obtain ⟨hperm, hanswered⟩ := ih hrest hresult
      have hchunk := hdrains.accepted_perm hround rfl
      rw [List.append_nil] at hchunk
      rw [List.flatten_cons, List.flatMap_append, List.flatten_cons]
      exact ⟨hchunk.append hperm, List.forall_mem_append.mpr ⟨hdrains.answered, hanswered⟩⟩

/-- The last call of a run that gave up, the requests that it left, and those reported: what was
left of a chunk at its last attempt, and all chunks behind it. -/
structure GaveUp (attempts : Nat) (chunks : List (List WriteRequest)) (rounds : List (List Call))
    (last : Call) (left items : List WriteRequest) : Prop where
  answer : last.answer = .ok left
  left_ne_nil : left ≠ []
  items_eq : items = left ++ (chunks.drop rounds.length).flatten
  perm : (rounds.flatten.flatMap Call.accepted ++ items).Perm chunks.flatten
  round_length : rounds.getLast?.map List.length = some (attempts - 1 + 1)

/-- A chunk that was drained before the run gave up changes nothing of what is reported. -/
theorem GaveUp.cons {last : Call} {left items chunk : List WriteRequest} {calls : List Call}
    (hgave : GaveUp attempts chunks rounds last left items)
    (hchunk : (calls.flatMap Call.accepted).Perm chunk) :
    GaveUp attempts (chunk :: chunks) (calls :: rounds) last left items where
  answer := hgave.answer
  left_ne_nil := hgave.left_ne_nil
  items_eq := hgave.items_eq
  perm := by
    rw [List.flatten_cons, List.flatMap_append, List.append_assoc, List.flatten_cons]
    exact hchunk.append hgave.perm
  round_length := by
    have hlength := hgave.round_length
    cases rounds with
    | nil => cases hlength
    | cons => exact hlength

/-- A run that does not go well ends with a call that failed, or gives up. -/
theorem Runs.of_error {error : StoreError} (hruns : Runs attempts chunks rounds (.error error))
    (hparts : ∀ call ∈ rounds.flatten, call.LeavesPart) :
    ∃ before last, rounds.flatten = before ++ [last] ∧
      (∀ call ∈ before, ∃ left, call.answer = .ok left) ∧
      (last.answer = .error error ∨ ∃ left items, error = .unprocessedItems attempts items ∧
        GaveUp attempts chunks rounds last left items) := by
  generalize hresult : Except.error error = result at hruns
  induction hruns with
  | nil => cases hresult
  | failed hdrains =>
      obtain rfl := Except.error.inj hresult
      obtain ⟨before, last, rfl, hlast, hbefore⟩ := hdrains.answers
      exact ⟨before, last, List.flatten_singleton, hbefore, Or.inl hlast⟩
  | @unprocessed chunk chunks calls left hdrains =>
      obtain rfl := Except.error.inj hresult
      rw [List.flatten_singleton] at hparts
      have hperm := hdrains.accepted_perm hparts rfl
      obtain ⟨hne, hlength⟩ := hdrains.left_ne_nil
      obtain ⟨before, last, rfl, hlast, hbefore⟩ := hdrains.answers
      refine ⟨before, last, List.flatten_singleton, hbefore,
        Or.inr ⟨left, _, rfl, hlast, hne, rfl, ?_, congrArg some hlength⟩⟩
      rw [List.flatten_singleton, List.flatten_cons, ← List.append_assoc]
      exact hperm.append_right _
  | @next chunk chunks calls rounds _ hdrains hruns ih =>
      rw [List.flatten_cons] at hparts
      obtain ⟨hround, hrest⟩ := List.forall_mem_append.mp hparts
      obtain ⟨before, last, hflatten, hbefore, hend⟩ := ih hrest hresult
      have hchunk := hdrains.accepted_perm hround rfl
      rw [List.append_nil] at hchunk
      refine ⟨calls ++ before, last, ?_,
        List.forall_mem_append.mpr ⟨hdrains.answered, hbefore⟩, ?_⟩
      · rw [List.flatten_cons, hflatten, List.append_assoc]
      · exact hend.imp_right fun ⟨left, items, herror, hgave⟩ =>
          ⟨left, items, herror, hgave.cons hchunk⟩

/-- A call that fails is the last one, and the run fails as it does. -/
theorem Runs.of_failed_call (hruns : Runs attempts chunks rounds result)
    (hparts : ∀ call ∈ rounds.flatten, call.LeavesPart) {before rest : List Call} {call : Call}
    {error : StoreError} (hcalls : rounds.flatten = before ++ call :: rest)
    (herror : call.answer = .error error) : result = .error error ∧ rest = [] := by
  have hnever : ∀ left, call.answer ≠ .ok left := by
    rw [herror]
    exact fun _ heq => by cases heq
  cases result with
  | ok =>
      have hmem : call ∈ rounds.flatten := by
        rw [hcalls]
        exact List.mem_append_right _ List.mem_cons_self
      obtain ⟨left, hleft⟩ := (hruns.of_ok hparts).2 call hmem
      exact absurd hleft (hnever left)
  | error found =>
      obtain ⟨earlier, last, hflatten, hearlier, hend⟩ := hruns.of_error hparts
      have hlasts := hflatten.symm.trans hcalls
      rcases List.eq_nil_or_concat rest with rfl | ⟨init, other, rfl⟩
      · obtain rfl := List.singleton_inj.mp (List.append_inj' hlasts rfl).2
        rcases hend with hfail | ⟨left, items, -, hgave⟩
        · obtain rfl := Except.error.inj (hfail.symm.trans herror)
          exact ⟨rfl, rfl⟩
        · exact absurd hgave.answer (hnever left)
      · -- A call before the last one has an answer.
        rw [List.concat_eq_append, ← List.cons_append, ← List.append_assoc] at hlasts
        obtain rfl := (List.append_inj' hlasts rfl).1
        obtain ⟨left, hleft⟩ := hearlier call (List.mem_append_right _ List.mem_cons_self)
        exact absurd hleft (hnever left)

end Runs

/-! ### Conservation -/

/-- **What becomes of a batch.** Of any store that leaves only what it was given, and of any run:
without room for the chunks it is aborted, and nothing is submitted. Else the calls fall into
rounds, one for each chunk that was begun, in the order of the chunks. A round submits its chunk and
then each time what the call before has left, until the attempts are used up; the next one begins
only when nothing is left. A run that goes well has got every request done and counts the requests,
and the calls in 32 bits. A call that fails is the last one, and its error is the run's. Any other
error reports what the last call has left, with all chunks behind it, and these are the requests
that were not done; by then all attempts have been made for the chunk begun last. -/
theorem drive_conserves (hleaves : LeavesPart submit) (size : Nat) (policy : RetryPolicy)
    (requests : List WriteRequest) (state : S) :
    let run := drive (recorded submit) size policy requests (state, [])
    let calls := run.state.2
    drive submit size policy requests state = ⟨run.outcome, run.events, run.state.1⟩ ∧
    (chunks size requests).flatten = requests ∧
    (¬Reservable WriteRequest.bytes (max size 1) → run.outcome = .error .aborted ∧ calls = []) ∧
    (∀ call ∈ calls, call.submitted.length ≤ max size 1) ∧
    (∀ summary, run.outcome = .ok summary →
      (calls.flatMap Call.accepted).Perm requests ∧ summary.items = requests.length ∧
        summary.submissions = .ofNat calls.length ∧
        (calls.length < UInt32.size → summary.submissions.toNat = calls.length)) ∧
    (∀ before call after error, calls = before ++ call :: after → call.answer = .error error →
      run.outcome = .error error ∧ after = []) ∧
    ∃ rounds : List (List Call), calls = rounds.flatten ∧
      rounds.length ≤ (chunks size requests).length ∧
      (∀ k round, rounds[k]? = some round →
        round.head?.map Call.submitted = (chunks size requests)[k]? ∧
        round.IsChain (fun earlier later =>
          earlier.answer = .ok later.submitted ∧ later.submitted ≠ []) ∧
        round.length ≤ max policy.maxAttempts.toNat 1 ∧
        (k + 1 < rounds.length → round.getLast?.map Call.answer = some (.ok []))) ∧
      ∀ error, run.outcome = .error error → Reservable WriteRequest.bytes (max size 1) →
        (∀ call ∈ calls, ∃ left, call.answer = .ok left) →
        ∃ last left items, error = .unprocessedItems (max policy.maxAttempts.toNat 1) items ∧
          (calls.flatMap Call.accepted ++ items).Perm requests ∧
          calls.getLast? = some last ∧ last.answer = .ok left ∧ left ≠ [] ∧
          items = left ++ ((chunks size requests).drop rounds.length).flatten ∧
          rounds.getLast?.map List.length = some (max policy.maxAttempts.toNat 1) := by
  by_cases hroom : Reservable WriteRequest.bytes (max size 1)
  case neg =>
    dsimp only
    rw [drive_of_not_reservable _ policy hroom, drive_of_not_reservable _ policy hroom]
    refine ⟨rfl, flatten_chunks size requests, fun _ => ⟨rfl, rfl⟩, fun _ hmem => ?_,
      fun _ hok => ?_, fun before _ _ _ hcalls => ?_, [], rfl, Nat.zero_le _, fun k round hk => ?_,
      fun _ _ hreserved => absurd hreserved hroom⟩
    · exact absurd hmem List.not_mem_nil
    · cases hok
    · exact absurd hcalls.symm (List.append_ne_nil_of_right_ne_nil _ (List.cons_ne_nil _ _))
    · cases hk
  obtain ⟨result, after, rounds, hdrive, hrecorded, hruns, hanswered⟩ :=
    drive_runs submit policy hroom requests state
  have hparts : ∀ call ∈ rounds.flatten, call.LeavesPart :=
    fun call hmem => (hanswered call hmem).leavesPart hleaves
  simp only [hdrive, hrecorded]
  refine ⟨trivial, flatten_chunks size requests, fun hnot => absurd hroom hnot,
    fun call hmem => ?_, fun summary houtcome => ?_, fun before call rest error hcalls herror => ?_,
    rounds, rfl, hruns.length_le, fun k round hk => ?_, fun error houtcome _ hall => ?_⟩
  · obtain ⟨round, hmem', hcall⟩ := List.mem_flatten.mp hmem
    obtain ⟨k, hk⟩ := List.getElem?_of_mem hmem'
    obtain ⟨chunk, ending, hchunk, hdrains, -⟩ := hruns.round hk
    have hsize := (mem_chunks size requests chunk (List.mem_of_getElem? hchunk)).2
    exact (hdrains.length_submitted_le (fun call hcall =>
      hparts call (List.mem_flatten_of_mem hmem' hcall)) call hcall).trans hsize
  · cases result with
    | error error => cases houtcome
    | ok =>
        obtain rfl := Except.ok.inj houtcome
        have hperm := (hruns.of_ok hparts).1
        rw [flatten_chunks] at hperm
        exact ⟨hperm, rfl, rfl, fun hlt => UInt32.toNat_ofNat_of_lt' hlt⟩
  · obtain ⟨rfl, hlast⟩ := hruns.of_failed_call hparts hcalls herror
    exact ⟨rfl, hlast⟩
  · obtain ⟨chunk, ending, hchunk, hdrains, hending⟩ := hruns.round hk
    refine ⟨hdrains.head.trans hchunk.symm, hdrains.isChain,
      hdrains.length_le.trans_eq policy.retries_add_one, fun hlt => ?_⟩
    obtain rfl := hending hlt
    obtain ⟨before, last, rfl, hlast, -⟩ := hdrains.answers
    rw [List.getLast?_concat]
    exact congrArg some hlast
  · cases result with
    | ok => cases houtcome
    | error found =>
        obtain rfl := Except.error.inj houtcome
        obtain ⟨earlier, last, hflatten, hearlier, hend⟩ := hruns.of_error hparts
        have hlast : rounds.flatten.getLast? = some last := by
          rw [hflatten, List.getLast?_concat]
        rcases hend with hfail | ⟨left, items, herror, hgave⟩
        · obtain ⟨left, hleft⟩ := hall last (List.mem_of_getLast? hlast)
          rw [hfail] at hleft
          cases hleft
        · have hperm := hgave.perm
          rw [flatten_chunks] at hperm
          exact ⟨last, left, items, herror, hperm, hlast, hgave.answer, hgave.left_ne_nil,
            hgave.items_eq, hgave.round_length.trans (congrArg some policy.retries_add_one)⟩

/-- A store that leaves the first request of every submission. -/
def leavesFirst : Submit Unit := fun requests state => (.ok (requests.take 1), state)

def numberedPut (n : Nat) : WriteRequest := .put [("id", .nat n)]

/-- Three requests in chunks of two, and two attempts: the first one is never done, the third one
never submitted. -/
theorem drive_conserves_leavesFirst :
    let run :=
      drive (recorded leavesFirst) 2 (.immediate 2) ((List.range 3).map numberedPut) ((), [])
    LeavesPart leavesFirst ∧
      run.state.2.map Call.submitted =
        [[numberedPut 0, numberedPut 1], [numberedPut 0]] ∧
      run.outcome = .error (.unprocessedItems 2 [numberedPut 0, numberedPut 2]) ∧
      (run.state.2.flatMap Call.accepted ++ [numberedPut 0, numberedPut 2]).Perm
        ((List.range 3).map numberedPut) := by
  intro run
  have hleaves : LeavesPart leavesFirst := by
    intro requests state left after hanswer
    obtain rfl := Except.ok.inj (Prod.mk.inj hanswer).1
    exact (List.take_sublist 1 requests).subperm
  obtain ⟨-, -, -, -, -, -, rounds, -, -, -, hgave⟩ := drive_conserves hleaves 2 (.immediate 2)
    ((List.range 3).map numberedPut) ()
  have houtcome : run.outcome = .error (.unprocessedItems 2 [numberedPut 0, numberedPut 2]) := rfl
  have hcalls : run.state.2 = [⟨[numberedPut 0, numberedPut 1], .ok [numberedPut 0]⟩,
      ⟨[numberedPut 0], .ok [numberedPut 0]⟩] := rfl
  obtain ⟨last, left, items, herror, hperm, -⟩ :=
    hgave _ houtcome (by decide) (by rw [hcalls]; simp)
  obtain ⟨-, rfl⟩ := StoreError.unprocessedItems.inj herror
  exact ⟨hleaves, by rw [hcalls]; rfl, houtcome, hperm⟩

end SchemaQuery.Batch
