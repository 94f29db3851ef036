import SchemaQuery.Proofs.Paging.Interleaving

/-!
# Scans come to an end

A segment with so many rows left makes at most one fetch more than that, since every page but the
last holds a row. Each fetch takes three steps, and one more step sees a spent budget.
-/

namespace SchemaQuery

variable {S : Type} {fetch : Fetch S} {limit : Option Nat}

/-- The steps that some turns give to a segment. -/
def Turn.stepsOf (segment : Nat) : List Turn → Nat
  | [] => 0
  | next :: turns => (if next.segment = segment then next.steps else 0) + stepsOf segment turns

namespace Source

/-- No segment takes more steps than this before it stops. -/
def stepsLeft (source : Source) (first : Nat) (run : SegmentRun) : Nat :=
  let fetches := source.rows.length - (first + run.items.length) + 1
  match run.phase with
  | .ready _ => Paging.stepsFor fetches
  | .fetching _ => 3 * fetches
  | .received _ _ => 3 * fetches - 1
  | .stopped _ => 0

variable {source : Source} {first : Nat} {run : SegmentRun}

theorem stepsLeft_eq_zero_iff : source.stepsLeft first run = 0 ↔ run.isStopped = true := by
  cases hphase : run.phase with
  | ready cursor => simp [stepsLeft, SegmentRun.isStopped, hphase, Paging.stepsFor]
  | fetching cursor => simp [stepsLeft, SegmentRun.isStopped, hphase]
  | received cursor page =>
      simp only [stepsLeft, SegmentRun.isStopped, hphase, Bool.false_eq_true, iff_false]
      omega
  | stopped next => simp [stepsLeft, SegmentRun.isStopped, hphase]

end Source

namespace Scan

variable {source : Nat → Source} {first : Nat → Nat} {starts : List SegmentCursor} {scan : Scan}

/-- A number of steps that is left for each segment: none once it is at rest, fewer after each of
its own steps, and no more after those of others. -/
structure Bounds (fetch : Fetch S) (limit : Option Nat) (sound : Scan → Prop)
    (left : Scan → Nat → Nat) : Prop where
  kept : ∀ index scan state, sound scan → sound (step fetch limit index scan state).1
  rest : ∀ index scan, sound scan → scan.isAtRest index = true → left scan index = 0
  own : ∀ index scan state, sound scan → scan.isAtRest index = false →
    left (step fetch limit index scan state).1 index < left scan index
  others : ∀ index scan state other, sound scan → index ≠ other →
    left (step fetch limit index scan state).1 other ≤ left scan other

section

variable {sound : Scan → Prop} {left : Scan → Nat → Nat}

theorem Bounds.turn_le (hbounds : Bounds fetch limit sound left) (index steps : Nat)
    (hscan : sound scan) (state : S) :
    left (turn fetch limit index steps scan state).1 index ≤ left scan index - steps := by
  induction steps generalizing scan state with
  | zero => exact Nat.le_refl _
  | succ steps ih =>
      rw [turn_succ]
      cases hrest : scan.isAtRest index with
      | true =>
          rw [if_pos rfl, hbounds.rest index scan hscan hrest]
          exact Nat.zero_le _
      | false =>
          rw [if_neg Bool.false_ne_true]
          have hstep := hbounds.own index scan state hscan hrest
          have hturn := ih (hbounds.kept index scan state hscan)
            (step fetch limit index scan state).2
          omega

theorem Bounds.turn_le_of_ne (hbounds : Bounds fetch limit sound left) {index other : Nat}
    (hne : index ≠ other) (steps : Nat) (hscan : sound scan) (state : S) :
    left (turn fetch limit index steps scan state).1 other ≤ left scan other :=
  (turn_induction (P := fun later _ => sound later ∧ left later other ≤ left scan other)
    (fun later state hlater => ⟨hbounds.kept index later state hlater.1,
      Nat.le_trans (hbounds.others index later state other hlater.1 hne) hlater.2⟩)
    steps ⟨hscan, Nat.le_refl _⟩).2

theorem Bounds.run_le (hbounds : Bounds fetch limit sound left) (index : Nat) (turns : List Turn)
    (hscan : sound scan) (state : S) :
    left (run fetch limit turns scan state).1 index ≤
      left scan index - Turn.stepsOf index turns := by
  induction turns generalizing scan state with
  | nil => exact Nat.le_refl _
  | cons next turns ih =>
      rw [run_cons, Turn.stepsOf]
      have hturn : sound (turn fetch limit next.segment next.steps scan state).1 :=
        turn_induction (P := fun later _ => sound later)
          (fun later state hlater => hbounds.kept next.segment later state hlater) next.steps hscan
      have hrest := ih hturn (turn fetch limit next.segment next.steps scan state).2
      by_cases hsegment : next.segment = index
      · have hgiven := hbounds.turn_le next.segment next.steps hscan state
        rw [if_pos hsegment]
        rw [hsegment] at hgiven hrest ⊢
        omega
      · have hgiven := hbounds.turn_le_of_ne hsegment next.steps hscan state
        rw [if_neg hsegment, Nat.zero_add]
        omega

end

/-- Turns that give each segment the steps that are left for it end the scan. -/
theorem Bounds.run_isFinished {left : Scan → Nat → Nat}
    (hbounds : Bounds fetch limit (·.Sound source first limit starts) left)
    (hserved : Source.SegmentsServed source fetch starts.length)
    (hplaced : Source.SegmentsPlaced source starts first)
    (hstopped : ∀ scan index run, scan.runs[index]? = some run → left scan index = 0 →
      run.isStopped = true) {turns : List Turn}
    (hturns : ∀ index < starts.length, left (Scan.begin starts) index ≤ Turn.stepsOf index turns)
    (state : S) : (Scan.run fetch limit turns (Scan.begin starts) state).1.isFinished = true := by
  have hend : (Scan.run fetch limit turns (Scan.begin starts) state).1.Sound source first limit
      starts := run_sound hserved hplaced turns state
  simp only [isFinished, Bool.or_eq_true, List.all_eq_true]
  refine Or.inr fun run hmem => ?_
  obtain ⟨index, hrun⟩ := List.getElem?_of_mem hmem
  have hindex : index < starts.length := by
    rw [← hend.length_runs]
    exact (List.getElem?_eq_some_iff.mp hrun).1
  have hleft := hbounds.run_le index turns (begin_sound hplaced) state
  have hgiven := hturns index hindex
  refine hstopped _ index run hrun ?_
  omega

def stepsLeft (source : Nat → Source) (first : Nat → Nat) (scan : Scan) (index : Nat) : Nat :=
  match scan.runs[index]? with
  | some run => (source index).stepsLeft (first index) run
  | none => 0

theorem stepsLeft_of_runs_eq_set {later : Scan} {index : Nat} {run new : SegmentRun}
    (hrun : scan.runs[index]? = some run) (hlater : later.runs = scan.runs.set index new) :
    later.stepsLeft source first index = (source index).stepsLeft (first index) new := by
  have hindex := (List.getElem?_eq_some_iff.mp hrun).1
  simp [stepsLeft, hlater, List.getElem?_set_self hindex]

theorem Sound.stepsLeft_eq_zero (hsound : scan.Sound source first limit starts) {index : Nat}
    (hrest : scan.isAtRest index = true) : scan.stepsLeft source first index = 0 := by
  simp only [isAtRest, hsound.failure, Option.isSome_none, Bool.false_or] at hrest
  simp only [stepsLeft]
  cases hrun : scan.runs[index]? with
  | none => rfl
  | some run =>
      rw [hrun] at hrest
      exact Source.stepsLeft_eq_zero_iff.mpr hrest

/-- A step brings its segment nearer to its end. -/
theorem Sound.step_stepsLeft_lt (hserved : Source.SegmentsServed source fetch starts.length)
    (hsound : scan.Sound source first limit starts) {index : Nat}
    (hrest : scan.isAtRest index = false) (state : S) :
    (Scan.step fetch limit index scan state).1.stepsLeft source first index <
      scan.stepsLeft source first index := by
  have hmove := step_move fetch limit index scan state
  revert hmove
  generalize (Scan.step fetch limit index scan state).1 = later
  generalize (Scan.step fetch limit index scan state).2 = after
  intro hmove
  have hleft {run : SegmentRun} (hrun : scan.runs[index]? = some run) :
      scan.stepsLeft source first index = (source index).stepsLeft (first index) run := by
    simp [stepsLeft, hrun]
  cases hmove with
  | rest h => simp [h] at hrest
  | stop hrun hphase hspent =>
      rw [hleft hrun, stepsLeft_of_runs_eq_set hrun rfl]
      simp only [Source.stepsLeft, hphase, Paging.stepsFor]
      omega
  | send hrun hphase hspent =>
      rw [hleft hrun, stepsLeft_of_runs_eq_set hrun rfl]
      simp only [Source.stepsLeft, hphase, Paging.stepsFor]
      omega
  | receive hrun hphase hpage =>
      rw [hleft hrun, stepsLeft_of_runs_eq_set hrun rfl]
      simp only [Source.stepsLeft, hphase]
      omega
  | fail hrun hphase herror =>
      obtain ⟨page, after', hpage, -⟩ := hsound.answers hserved hrun hphase state
      rw [herror] at hpage
      cases (Prod.mk.inj hpage).1
  | @count run cursor page hrun hphase =>
      rw [hleft hrun, stepsLeft_of_runs_eq_set hrun rfl]
      have hanswers : (source index).Answers (first index + run.items.length) page :=
        (hsound.tracks index run hrun).stage_of hphase
      simp only [Source.stepsLeft, hphase, List.length_append]
      cases hnext : page.next with
      | none =>
          simp only
          omega
      | some cursor =>
          -- A page that is not the last holds a row, so fewer fetches are left.
          have hmore : first index + run.items.length + page.items.length <
              (source index).rows.length := by
            rw [← Nat.not_le, ← hanswers.next_eq_none, hnext]
            simp
          have hrow := List.length_pos_iff.mpr (hanswers.items_ne_nil (by omega))
          simp only [Paging.stepsFor]
          omega

theorem step_getElem?_of_ne {index other : Nat} (hne : index ≠ other) (state : S) :
    (Scan.step fetch limit index scan state).1.runs[other]? = scan.runs[other]? := by
  have hmove := step_move fetch limit index scan state
  revert hmove
  generalize (Scan.step fetch limit index scan state).1 = later
  generalize (Scan.step fetch limit index scan state).2 = after
  intro hmove
  cases hmove with
  | rest | fail => rfl
  | stop | send | receive | count => exact List.getElem?_set_ne hne

theorem bounds_stepsLeft (hserved : Source.SegmentsServed source fetch starts.length) :
    Bounds fetch limit (·.Sound source first limit starts) (stepsLeft source first) where
  kept index scan state hsound := hsound.step hserved index state
  rest index scan hsound hrest := hsound.stepsLeft_eq_zero hrest
  own index scan state hsound hrest := hsound.step_stepsLeft_lt hserved hrest state
  others index scan state other _ hne := by
    simp only [stepsLeft, step_getElem?_of_ne hne]
    exact Nat.le_refl _

theorem begin_stepsLeft_le (source : Nat → Source) (first : Nat → Nat)
    (starts : List SegmentCursor) (index : Nat) :
    (Scan.begin starts).stepsLeft source first index ≤
      Paging.stepsFor ((source index).rows.length + 1) := by
  simp only [stepsLeft, Scan.begin, List.getElem?_map]
  cases starts[index]? with
  | none => exact Nat.zero_le _
  | some position =>
      simp only [Option.map_some, Source.stepsLeft, SegmentRun.begin, List.length_nil, Nat.add_zero]
      cases position.isExhausted with
      | true => exact Nat.zero_le _
      | false =>
          simp only [Bool.false_eq_true, if_false, Paging.stepsFor]
          omega

/-- A schedule ends the scan if it gives each segment the steps for one fetch more than it has
rows. -/
theorem run_isFinished (hserved : Source.SegmentsServed source fetch starts.length)
    (hplaced : Source.SegmentsPlaced source starts first) {turns : List Turn}
    (hturns : ∀ index < starts.length,
      Paging.stepsFor ((source index).rows.length + 1) ≤ Turn.stepsOf index turns) (state : S) :
    (Scan.run fetch limit turns (Scan.begin starts) state).1.isFinished = true := by
  refine (bounds_stepsLeft hserved).run_isFinished hserved hplaced
    (fun scan index run hrun hzero => ?_)
    (fun index hindex => Nat.le_trans (begin_stepsLeft_le source first starts index)
      (hturns index hindex)) state
  simp only [stepsLeft, hrun] at hzero
  exact Source.stepsLeft_eq_zero_iff.mp hzero

end Scan

end SchemaQuery
