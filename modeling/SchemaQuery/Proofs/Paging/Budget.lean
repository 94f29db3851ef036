import SchemaQuery.Proofs.Paging.Merging
import SchemaQuery.Proofs.Paging.Progress

/-!
# The budget of a scan

All segments look at one count of rows before they send a fetch, so several fetches may be under way
when the count reaches the limit. The rows that are counted and those still to come from the fetches
under way stay within one page for each segment past the limit.
-/

namespace SchemaQuery

variable {S : Type} {fetch : Fetch S}

/-- The rows of a fetch that is sent and not counted; one not yet answered is taken for `most`. -/
def SegmentRun.pending (most : Nat) (run : SegmentRun) : Nat :=
  match run.phase with
  | .fetching _ => most
  | .received _ page => page.items.length
  | .ready _ | .stopped _ => 0

theorem SegmentRun.pending_zero_le (most : Nat) (run : SegmentRun) :
    run.pending 0 ≤ run.pending most := by
  unfold pending
  cases run.phase with
  | fetching cursor => exact Nat.zero_le _
  | ready cursor | received cursor page | stopped next => exact Nat.le_refl _

namespace Scan

def pending (most : Nat) : List SegmentRun → Nat
  | [] => 0
  | run :: rest => run.pending most + pending most rest

/-- All rows that have come, counted or not. -/
def fetched (scan : Scan) : Nat :=
  (scan.runs.flatMap SegmentRun.items).length + pending 0 scan.runs

/-- The segments that are not past their end. -/
def going (starts : List SegmentCursor) : Nat :=
  starts.countP fun position => !position.isExhausted

theorem pending_zero_le (most : Nat) (runs : List SegmentRun) :
    pending 0 runs ≤ pending most runs := by
  induction runs with
  | nil => exact Nat.le_refl _
  | cons run rest ih => exact Nat.add_le_add (run.pending_zero_le most) ih

theorem pending_set (most : Nat) {runs : List SegmentRun} {index : Nat} {old : SegmentRun}
    (hold : runs[index]? = some old) (new : SegmentRun) :
    pending most (runs.set index new) + old.pending most =
      pending most runs + new.pending most := by
  induction runs generalizing index with
  | nil => simp at hold
  | cons head rest ih =>
      cases index with
      | zero =>
          obtain rfl : head = old := by simpa using hold
          simp only [List.set_cons_zero, pending]
          omega
      | succ index =>
          have := ih (by simpa using hold)
          simp only [List.set_cons_succ, pending]
          omega

theorem going_cons (position : SegmentCursor) (rest : List SegmentCursor) :
    going (position :: rest) = going rest + if position.isExhausted then 0 else 1 := by
  rw [going, List.countP_cons]
  cases position <;> rfl

/-- A segment past its end has nothing to come, and every other at most one page. -/
theorem pending_le {most : Nat} {runs : List SegmentRun}
    (hmost : ∀ run ∈ runs, run.pending most ≤ most)
    (hrests : ∀ run ∈ runs, run.start = .exhausted → run.pending most = 0) :
    pending most runs ≤ going (runs.map SegmentRun.start) * most := by
  induction runs with
  | nil => exact Nat.zero_le _
  | cons run rest ih =>
      have hrest := ih (fun run hmem => hmost run (List.mem_cons_of_mem _ hmem))
        (fun run hmem => hrests run (List.mem_cons_of_mem _ hmem))
      have hhead := hmost run List.mem_cons_self
      rw [pending, List.map_cons, going_cons]
      cases hstart : run.start with
      | exhausted =>
          have hnone := hrests run List.mem_cons_self hstart
          rw [hnone, Nat.zero_add]
          exact hrest
      | start | resume cursor =>
          rw [Nat.add_mul]
          simp only [SegmentCursor.isExhausted, Bool.false_eq_true, if_false]
          omega

/-- What is counted and what is to come stay within a page for each segment past the limit. -/
structure Within (most limit : Nat) (starts : List SegmentCursor) (scan : Scan) : Prop where
  pending_le : ∀ run ∈ scan.runs, run.pending most ≤ most
  total_le : scan.counted + pending most scan.runs ≤ limit - 1 + going starts * most

variable {source : Nat → Source} {first : Nat → Nat} {starts : List SegmentCursor} {scan : Scan}
  {limit most : Nat}

theorem Sound.pending_eq_zero (hsound : scan.Sound source first (some limit) starts)
    {run : SegmentRun} (hmem : run ∈ scan.runs) (hstart : run.start = .exhausted) :
    run.pending most = 0 := by
  obtain ⟨index, hrun⟩ := List.getElem?_of_mem hmem
  have := ((hsound.tracks index run hrun).exhausted_rests hstart).2
  simp [SegmentRun.pending, this]

theorem begin_within (most limit : Nat) (starts : List SegmentCursor) :
    (Scan.begin starts).Within most limit starts := by
  have hnone (run : SegmentRun) (hmem : run ∈ (Scan.begin starts).runs) : run.pending most = 0 := by
    obtain ⟨position, -, rfl⟩ := List.mem_map.mp hmem
    cases position <;> rfl
  have hle (run : SegmentRun) (hmem : run ∈ (Scan.begin starts).runs) : run.pending most ≤ most :=
    hnone run hmem ▸ Nat.zero_le most
  refine ⟨hle, ?_⟩
  have hpending := pending_le hle fun run hmem _ => hnone run hmem
  have hstarts : (Scan.begin starts).runs.map SegmentRun.start = starts := by
    rw [Scan.begin, List.map_map]
    exact List.map_id starts
  rw [hstarts] at hpending
  simp only [Scan.begin] at hpending ⊢
  omega

/-- A segment is replaced by one with fewer rows to come, and as many more rows are counted. -/
theorem Within.setRun (hwithin : scan.Within most limit starts) (more : Nat) {index : Nat}
    {run new : SegmentRun} (hrun : scan.runs[index]? = some run)
    (hnew : new.pending most + more ≤ run.pending most) :
    { scan.setRun index new with counted := scan.counted + more }.Within most limit starts where
  pending_le other hother := by
    have hold := hwithin.pending_le run (List.mem_of_getElem? hrun)
    rcases List.mem_or_eq_of_mem_set hother with hmem | rfl
    · exact hwithin.pending_le other hmem
    · omega
  total_le := by
    have htotal := hwithin.total_le
    have hset := pending_set most hrun new
    simp only [Scan.setRun]
    omega

theorem Within.step (hserved : Source.SegmentsServed source fetch starts.length)
    (hmost : ∀ request state page after,
      fetch request state = (.ok page, after) → page.items.length ≤ most)
    (hsound : scan.Sound source first (some limit) starts)
    (hwithin : scan.Within most limit starts) (index : Nat) (state : S) :
    (Scan.step fetch (some limit) index scan state).1.Within most limit starts := by
  have hnext : (Scan.step fetch (some limit) index scan state).1.Sound source first (some limit)
      starts := hsound.step hserved index state
  have hmove := step_move fetch (some limit) index scan state
  revert hmove hnext
  generalize (Scan.step fetch (some limit) index scan state).1 = later
  generalize (Scan.step fetch (some limit) index scan state).2 = after
  intro hnext hmove
  cases hmove with
  | rest | fail => exact ⟨hwithin.pending_le, hwithin.total_le⟩
  | @stop run cursor hrun hphase hspent =>
      exact hwithin.setRun 0 hrun (by simp [SegmentRun.pending])
  | @send run cursor hrun hphase hspent =>
      -- The rows to come grow here, but the budget is not spent yet.
      have hle (other : SegmentRun) (hother : other ∈ scan.runs.set index
          { run with phase := .fetching cursor }) : other.pending most ≤ most := by
        rcases List.mem_or_eq_of_mem_set hother with hmem | rfl
        · exact hwithin.pending_le other hmem
        · exact Nat.le_refl _
      have hpending := Scan.pending_le hle fun other hother hstart =>
        hnext.pending_eq_zero hother hstart
      have hstarts := hnext.starts_eq
      simp only [Scan.setRun] at hstarts
      rw [hstarts] at hpending
      simp only [Scan.isSpent, decide_eq_false_iff_not] at hspent
      refine ⟨hle, ?_⟩
      simp only [Scan.setRun]
      omega
  | @receive run cursor page after hrun hphase hpage =>
      have hpage' := hmost _ _ _ _ hpage
      exact hwithin.setRun 0 hrun (by simpa [SegmentRun.pending, hphase] using hpage')
  | @count run cursor page hrun hphase =>
      refine hwithin.setRun page.items.length hrun ?_
      cases hnext : page.next <;> simp [SegmentRun.pending, hphase]

theorem run_within (hserved : Source.SegmentsServed source fetch starts.length)
    (hmost : ∀ request state page after,
      fetch request state = (.ok page, after) → page.items.length ≤ most)
    (hplaced : Source.SegmentsPlaced source starts first) (limit : Nat) (turns : List Turn)
    (state : S) :
    (Scan.run fetch (some limit) turns (Scan.begin starts) state).1.Within most limit starts := by
  suffices hboth : let last := Scan.run fetch (some limit) turns (Scan.begin starts) state
      last.1.Sound source first (some limit) starts ∧ last.1.Within most limit starts from hboth.2
  exact run_induction (P := fun scan _ => scan.Sound source first (some limit) starts ∧
      scan.Within most limit starts)
    (fun index _ state h => ⟨h.1.step hserved index state, h.2.step hserved hmost h.1 index state⟩)
    turns ⟨begin_sound hplaced, begin_within most limit starts⟩

theorem Within.fetched_le (hsound : scan.Sound source first (some limit) starts)
    (hwithin : scan.Within most limit starts) :
    scan.fetched ≤ limit - 1 + going starts * most := by
  have htotal := hwithin.total_le
  have hpending := pending_zero_le most scan.runs
  rw [hsound.counted_eq] at htotal
  rw [fetched]
  omega

/-- A fetch is sent only while the count is below the limit. -/
theorem counted_lt_of_issued_ne {index : Nat} {state : S}
    (hissued : (Scan.step fetch (some limit) index scan state).1.issued ≠ scan.issued) :
    scan.counted < limit := by
  have hmove := step_move fetch (some limit) index scan state
  revert hmove hissued
  generalize (Scan.step fetch (some limit) index scan state).1 = later
  generalize (Scan.step fetch (some limit) index scan state).2 = after
  intro hissued hmove
  cases hmove with
  | rest | stop | receive | fail | count => exact absurd rfl hissued
  | send hrun hphase hspent => simpa [Scan.isSpent] using hspent

end Scan

end SchemaQuery
