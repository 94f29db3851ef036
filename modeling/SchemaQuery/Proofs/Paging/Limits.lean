import SchemaQuery.Proofs.Paging.QueryWalk
import SchemaQuery.Proofs.Paging.Search

/-!
# The limit as a bound on fetches

Every page but the last holds a row. So a query needs no more fetches than its limit has rows, and
no segment of a scan makes more than that before the budget is spent: what is counted for one
segment leaves less for all. Without a limit a scan reads every row of every segment.
-/

namespace SchemaQuery

variable {S : Type} {fetch : Fetch S}

/-! ### Scans under a limit -/

namespace Scan

variable {limit : Option Nat} {source : Nat → Source} {first : Nat → Nat}
  {starts : List SegmentCursor} {scan : Scan}

/-- The steps that are left for a segment, given the rows that may still be counted. A fetch that
has been sent is answered even if no room is left. -/
def roomSteps (room : Nat) (run : SegmentRun) : Nat :=
  match run.phase with
  | .ready _ => Paging.stepsFor room
  | .fetching _ => 3 * max room 1
  | .received _ _ => 3 * max room 1 - 1
  | .stopped _ => 0

theorem roomSteps_mono {room more : Nat} (hroom : room ≤ more) (run : SegmentRun) :
    roomSteps room run ≤ roomSteps more run := by
  unfold roomSteps
  cases run.phase with
  | ready _ => simp only [Paging.stepsFor]; omega
  | fetching _ => simp only; omega
  | received _ _ => simp only; omega
  | stopped _ => exact Nat.le_refl _

theorem roomSteps_eq_zero_iff {room : Nat} {run : SegmentRun} :
    roomSteps room run = 0 ↔ run.isStopped = true := by
  cases hphase : run.phase with
  | ready cursor => simp [roomSteps, SegmentRun.isStopped, hphase, Paging.stepsFor]
  | fetching cursor =>
      simp only [roomSteps, SegmentRun.isStopped, hphase, Bool.false_eq_true, iff_false]
      omega
  | received cursor page =>
      simp only [roomSteps, SegmentRun.isStopped, hphase, Bool.false_eq_true, iff_false]
      omega
  | stopped next => simp [roomSteps, SegmentRun.isStopped, hphase]

def stepsUnder (limit : Nat) (scan : Scan) (index : Nat) : Nat :=
  ((scan.runs[index]?).map (roomSteps (limit - scan.counted))).getD 0

theorem stepsUnder_of_getElem? {run : SegmentRun} {index : Nat} (limit : Nat)
    (hrun : scan.runs[index]? = some run) :
    scan.stepsUnder limit index = roomSteps (limit - scan.counted) run := by
  rw [stepsUnder, hrun]
  rfl

theorem stepsUnder_of_set {later : Scan} {run new : SegmentRun} {index : Nat} (limit : Nat)
    (hrun : scan.runs[index]? = some run) (hlater : later.runs = scan.runs.set index new) :
    later.stepsUnder limit index = roomSteps (limit - later.counted) new := by
  refine stepsUnder_of_getElem? limit ?_
  rw [hlater, List.getElem?_set_self (List.getElem?_eq_some_iff.mp hrun).1]

theorem counted_le_step (index : Nat) (scan : Scan) (state : S) :
    scan.counted ≤ (step fetch limit index scan state).1.counted := by
  have hmove := step_move fetch limit index scan state
  revert hmove
  generalize (step fetch limit index scan state).1 = later
  generalize (step fetch limit index scan state).2 = after
  intro hmove
  cases hmove with
  | rest | stop | send | receive | fail => exact Nat.le_refl _
  | count => exact Nat.le_add_right _ _

theorem bounds_stepsUnder (hserved : Source.SegmentsServed source fetch starts.length)
    (limit : Nat) :
    Bounds fetch (some limit) (·.Sound source first (some limit) starts)
      (stepsUnder limit) where
  kept index scan state hsound := hsound.step hserved index state
  rest index scan hsound hrest := by
    simp only [isAtRest, hsound.failure, Option.isSome_none, Bool.false_or] at hrest
    cases hrun : scan.runs[index]? with
    | none =>
        rw [stepsUnder, hrun]
        rfl
    | some run =>
        rw [hrun] at hrest
        rw [stepsUnder_of_getElem? limit hrun]
        exact roomSteps_eq_zero_iff.mpr hrest
  own index scan state hsound hrest := by
    have hmove := step_move fetch (some limit) index scan state
    revert hmove
    generalize (step fetch (some limit) index scan state).1 = later
    generalize (step fetch (some limit) index scan state).2 = after
    intro hmove
    cases hmove with
    | rest h => simp [h] at hrest
    | stop hrun hphase hspent =>
        rw [stepsUnder_of_getElem? limit hrun, stepsUnder_of_set limit hrun rfl]
        simp only [roomSteps, hphase, Paging.stepsFor]
        omega
    | send hrun hphase hspent =>
        simp only [isSpent, decide_eq_false_iff_not, Nat.not_le] at hspent
        rw [stepsUnder_of_getElem? limit hrun, stepsUnder_of_set limit hrun rfl]
        simp only [roomSteps, hphase, Paging.stepsFor, setRun]
        omega
    | receive hrun hphase hpage =>
        rw [stepsUnder_of_getElem? limit hrun, stepsUnder_of_set limit hrun rfl]
        simp only [roomSteps, hphase, setRun]
        omega
    | fail hrun hphase herror =>
        obtain ⟨page, after', hpage, -⟩ := hsound.answers hserved hrun hphase state
        rw [herror] at hpage
        cases (Prod.mk.inj hpage).1
    | @count run cursor page hrun hphase =>
        have hanswers : (source index).Answers (first index + run.items.length) page :=
          (hsound.tracks index run hrun).stage_of hphase
        rw [stepsUnder_of_getElem? limit hrun, stepsUnder_of_set limit hrun rfl]
        simp only [roomSteps, hphase]
        cases hnext : page.next with
        | none =>
            simp only
            omega
        | some cursor =>
            -- The page holds a row, which takes room from the segment's next fetch.
            have hrow := hanswers.length_pos (hnext ▸ Option.some_ne_none cursor)
            simp only [Paging.stepsFor]
            omega
  others index scan state other hsound hne := by
    have hcounted := @counted_le_step _ fetch (some limit) index scan state
    rw [stepsUnder, stepsUnder, step_getElem?_of_ne hne]
    cases scan.runs[other]? with
    | none => exact Nat.le_refl _
    | some run => exact roomSteps_mono (by omega) run

theorem begin_stepsUnder_le (limit : Nat) (starts : List SegmentCursor) (index : Nat) :
    (Scan.begin starts).stepsUnder limit index ≤ Paging.stepsFor limit := by
  rw [stepsUnder, Scan.begin, List.getElem?_map]
  cases starts[index]? with
  | none => exact Nat.zero_le _
  | some position =>
      simp only [Option.map_some, Option.getD_some, roomSteps, SegmentRun.begin, Nat.sub_zero]
      cases position.isExhausted with
      | true => exact Nat.zero_le _
      | false => exact Nat.le_refl _

/-- A schedule ends the scan if it gives each segment the steps for as many fetches as the limit has
rows. -/
theorem run_isFinished_of_limit (hserved : Source.SegmentsServed source fetch starts.length)
    (hplaced : Source.SegmentsPlaced source starts first) {limit : Nat} {turns : List Turn}
    (hturns : ∀ index < starts.length, Paging.stepsFor limit ≤ Turn.stepsOf index turns)
    (state : S) :
    (Scan.run fetch (some limit) turns (Scan.begin starts) state).1.isFinished = true := by
  refine (bounds_stepsUnder hserved limit).run_isFinished hserved hplaced
    (fun scan index run hrun hzero => ?_)
    (fun index hindex => Nat.le_trans (begin_stepsUnder_le limit starts index)
      (hturns index hindex)) state
  rw [stepsUnder_of_getElem? limit hrun] at hzero
  exact roomSteps_eq_zero_iff.mp hzero

end Scan

theorem Turn.stepsOf_append (index : Nat) (turns more : List Turn) :
    Turn.stepsOf index (turns ++ more) = Turn.stepsOf index turns + Turn.stepsOf index more := by
  induction turns with
  | nil => exact (Nat.zero_add _).symm
  | cons turn turns ih => rw [List.cons_append, stepsOf, stepsOf, ih, Nat.add_assoc]

theorem Turn.stepsOf_inTurn {index total : Nat} (steps : Nat) (hindex : index < total) :
    Turn.stepsOf index (Paging.inTurn steps total) = steps := by
  have hall : Turn.stepsOf index (Paging.inTurn steps total) =
      if index < total then steps else 0 := by
    clear hindex
    induction total with
    | zero => rfl
    | succ total ih =>
        rw [Paging.inTurn] at ih ⊢
        rw [List.range_succ, List.map_append, stepsOf_append, ih]
        simp only [List.map_cons, List.map_nil, stepsOf, Nat.add_zero]
        split <;> split <;> split <;> omega
  rw [hall, if_pos hindex]

/-! ### Scans without a limit -/

/-- Without a limit a segment stops only at the end of its rows. -/
theorem Scan.Sound.items_eq {source : Nat → Source} {first : Nat → Nat}
    {starts : List SegmentCursor} {scan : Scan} (hsound : scan.Sound source first none starts)
    (hfinished : scan.isFinished = true) {index : Nat} {run : SegmentRun}
    (hrun : scan.runs[index]? = some run) :
    run.items = (source index).rows.drop (first index) := by
  have hall : ∀ run ∈ scan.runs, run.isStopped = true := by
    simpa [isFinished, hsound.failure] using hfinished
  have hstopped := hall run (List.mem_of_getElem? hrun)
  have htracks := hsound.tracks index run hrun
  cases hphase : run.phase with
  | stopped next =>
      rcases hsound.stopped index run hrun next hphase with rfl | hspent
      · have hend : first index + run.items.length = (source index).rows.length :=
          htracks.stage_of hphase
        refine htracks.isPrefix_items.eq_of_length ?_
        rw [List.length_drop]
        omega
      · cases hspent
  | _ => simp [SegmentRun.isStopped, hphase] at hstopped

namespace Paging

variable {source : Nat → Source} {total : Nat}

/-- All rows of every segment. -/
theorem searchAll_eq (hserved : Source.SegmentsServed source fetch total) (htotal : 0 < total)
    {schedule : Schedule}
    (hschedule : ∀ index < total,
      stepsFor ((source index).rows.length + 1) ≤ Turn.stepsOf index (schedule total))
    (state : S) :
    (searchAll fetch schedule total state).outcome =
      .ok ((List.range total).flatMap fun index => (source index).rows) := by
  have hstarts : starts none total = .ok (List.replicate total .start) := by
    simp [starts, Nat.ne_of_gt htotal]
  have hlength : (List.replicate total SegmentCursor.start).length = total := starts_length hstarts
  have hplaced : Source.SegmentsPlaced source (List.replicate total .start) fun _ => 0 := by
    intro index position hposition
    obtain rfl := List.eq_of_mem_replicate (List.mem_of_getElem? hposition)
    rfl
  have hserved' : Source.SegmentsServed source fetch
      (List.replicate total SegmentCursor.start).length := by
    rwa [hlength]
  have hsound : (Scan.run fetch none (schedule total)
      (Scan.begin (List.replicate total .start)) state).1.Sound source (fun _ => 0) none
        (List.replicate total .start) := Scan.run_sound hserved' hplaced _ state
  have hfinished : (Scan.run fetch none (schedule total)
      (Scan.begin (List.replicate total .start)) state).1.isFinished = true :=
    Scan.run_isFinished hserved' hplaced
      (fun index hindex => hschedule index (hlength ▸ hindex)) state
  simp only [searchAll, hstarts, hsound.failure]
  rw [Scan.flatMap_items_eq, hsound.length_runs, hlength, List.flatMap_def, List.flatMap_def]
  refine congrArg (fun parts => Except.ok (List.flatten parts))
    (List.map_congr_left fun index hindex => ?_)
  have hindex : index < (Scan.run fetch none (schedule total)
      (Scan.begin (List.replicate total .start)) state).1.runs.length := by
    rw [hsound.length_runs, hlength]
    exact List.mem_range.mp hindex
  rw [List.getElem?_eq_getElem hindex]
  exact hsound.items_eq hfinished (List.getElem?_eq_getElem hindex)

end Paging

end SchemaQuery
