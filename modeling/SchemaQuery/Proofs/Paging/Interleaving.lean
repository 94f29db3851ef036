import SchemaQuery.Proofs.Paging.Source

/-!
# Segments under any schedule

What one step can do to a scan is said once, by `Scan.Move`. From it follows what every schedule
preserves: each segment has read a run of its rows from its start on and stands behind them, the
count is the number of rows read, and a segment has stopped only at the end of its rows or on a
spent budget. Every step of a segment that has not stopped brings it nearer to its end, so a
schedule with enough turns for each segment ends the scan.
-/

namespace SchemaQuery

variable {S : Type} {fetch : Fetch S} {limit : Option Nat}

namespace Source

variable {source : Source}

/-- How a segment that has read up to a place may stand. -/
def Stage (source : Source) (now : Nat) : Phase → Prop
  | .ready cursor | .fetching cursor => source.At cursor now
  | .received _ page => source.Answers now page
  | .stopped next => source.Placed next now

/-- A segment that began at a place has read the rows from there on, up to where it stands. -/
structure Tracks (source : Source) (first : Nat) (run : SegmentRun) : Prop where
  start_placed : source.Placed run.start first
  isPrefix_items : run.items <+: source.rows.drop first
  stage : source.Stage (first + run.items.length) run.phase
  exhausted_rests : run.start = .exhausted → run.items = [] ∧ run.phase = .stopped .exhausted

variable {first : Nat} {run : SegmentRun}

theorem Tracks.le (htracks : source.Tracks first run) :
    first + run.items.length ≤ source.rows.length := by
  have hstart := htracks.start_placed.le
  have hlength := htracks.isPrefix_items.length_le
  rw [List.length_drop] at hlength
  omega

theorem Tracks.stage_of (htracks : source.Tracks first run) {phase : Phase}
    (hphase : run.phase = phase) : source.Stage (first + run.items.length) phase :=
  hphase ▸ htracks.stage

theorem Tracks.start_ne_exhausted (htracks : source.Tracks first run)
    (hphase : run.isStopped = false) : run.start ≠ .exhausted := by
  intro hstart
  simp [SegmentRun.isStopped, (htracks.exhausted_rests hstart).2] at hphase

/-- A run that has not stopped keeps its rows when its phase changes. -/
theorem Tracks.setPhase (htracks : source.Tracks first run) (hphase : run.isStopped = false)
    (phase : Phase) (hstage : source.Stage (first + run.items.length) phase) :
    source.Tracks first { run with phase } where
  start_placed := htracks.start_placed
  isPrefix_items := htracks.isPrefix_items
  stage := hstage
  exhausted_rests hstart := absurd hstart (htracks.start_ne_exhausted hphase)

/-- Where a segment stands when it stops before a fetch: behind its cursor, or at its start if it
has none yet. -/
theorem Tracks.standing_placed (htracks : source.Tracks first run) {cursor : Option Cursor}
    (hat : source.At cursor (first + run.items.length)) :
    source.Placed (run.standing cursor) (first + run.items.length) := by
  cases cursor with
  | none =>
      have hzero : first + run.items.length = 0 := hat
      have hfirst : first = first + run.items.length := by omega
      exact hfirst ▸ htracks.start_placed
  | some cursor => exact ⟨hat, htracks.le⟩

theorem Tracks.count (htracks : source.Tracks first run) {cursor : Option Cursor} {page : Page}
    (hphase : run.phase = .received cursor page) :
    source.Tracks first { run with
      items := run.items ++ page.items
      phase := match page.next with
        | none => .stopped .exhausted
        | some next => .ready (some next) } := by
  have hanswers : source.Answers (first + run.items.length) page := htracks.stage_of hphase
  have hle := hanswers.le htracks.le
  refine ⟨htracks.start_placed, hanswers.isPrefix_append htracks.isPrefix_items, ?_, ?_⟩
  · simp only [List.length_append, ← Nat.add_assoc]
    cases hnext : page.next with
    | none =>
        have := hanswers.next_eq_none.mp hnext
        exact Nat.le_antisymm hle this
    | some next => exact hanswers.next_stands next hnext
  · intro hstart
    exact absurd hstart (htracks.start_ne_exhausted (by simp [SegmentRun.isStopped, hphase]))

end Source

theorem SegmentRun.begin_tracks {source : Source} {first : Nat} {position : SegmentCursor}
    (hplaced : source.Placed position first) : source.Tracks first (SegmentRun.begin position) where
  start_placed := hplaced
  isPrefix_items := List.nil_prefix
  stage := by
    cases position with
    | start => exact hplaced
    | resume cursor => exact hplaced.1
    | exhausted => exact hplaced
  exhausted_rests := by
    intro hstart
    have : position = .exhausted := hstart
    subst this
    exact ⟨rfl, rfl⟩

namespace Scan

/-- What one step of a segment may do. -/
inductive Move (fetch : Fetch S) (limit : Option Nat) (index : Nat) (scan : Scan) (state : S) :
    Scan → S → Prop
  | rest (hrest : scan.isAtRest index = true) : Move fetch limit index scan state scan state
  | stop {run : SegmentRun} {cursor : Option Cursor} (hrun : scan.runs[index]? = some run)
      (hphase : run.phase = .ready cursor) (hspent : scan.isSpent limit = true) :
      Move fetch limit index scan state
        (scan.setRun index { run with phase := .stopped (run.standing cursor) }) state
  | send {run : SegmentRun} {cursor : Option Cursor} (hrun : scan.runs[index]? = some run)
      (hphase : run.phase = .ready cursor) (hspent : scan.isSpent limit = false) :
      Move fetch limit index scan state
        { scan.setRun index { run with phase := .fetching cursor } with
          issued := scan.issued ++ [scan.request index cursor] } state
  | receive {run : SegmentRun} {cursor : Option Cursor} {page : Page} {after : S}
      (hrun : scan.runs[index]? = some run) (hphase : run.phase = .fetching cursor)
      (hpage : fetch (scan.request index cursor) state = (.ok page, after)) :
      Move fetch limit index scan state
        (scan.setRun index { run with phase := .received cursor page }) after
  | fail {run : SegmentRun} {cursor : Option Cursor} {error : StoreError} {after : S}
      (hrun : scan.runs[index]? = some run) (hphase : run.phase = .fetching cursor)
      (herror : fetch (scan.request index cursor) state = (.error error, after)) :
      Move fetch limit index scan state { scan with failure := some error } after
  | count {run : SegmentRun} {cursor : Option Cursor} {page : Page}
      (hrun : scan.runs[index]? = some run) (hphase : run.phase = .received cursor page) :
      Move fetch limit index scan state
        { scan.setRun index { run with
            items := run.items ++ page.items
            phase := match page.next with
              | none => .stopped .exhausted
              | some next => .ready (some next) } with
          counted := scan.counted + page.items.length } state

theorem step_move (fetch : Fetch S) (limit : Option Nat) (index : Nat) (scan : Scan) (state : S) :
    Move fetch limit index scan state (step fetch limit index scan state).1
      (step fetch limit index scan state).2 := by
  cases hfailure : scan.failure with
  | some error =>
      simp only [step, hfailure]
      exact .rest (by simp [isAtRest, hfailure])
  | none =>
      cases hrun : scan.runs[index]? with
      | none =>
          simp only [step, hfailure, hrun]
          exact .rest (by simp [isAtRest, hrun])
      | some run =>
          cases hphase : run.phase with
          | ready cursor =>
              cases hspent : scan.isSpent limit with
              | true =>
                  simp only [step, hfailure, hrun, hphase, hspent, if_true]
                  exact .stop hrun hphase hspent
              | false =>
                  simp only [step, hfailure, hrun, hphase, hspent, Bool.false_eq_true, if_false]
                  exact .send hrun hphase hspent
          | fetching cursor =>
              rcases hfetch : fetch (scan.request index cursor) state with ⟨result, after⟩
              cases result with
              | ok page =>
                  simp only [step, hfailure, hrun, hphase, hfetch]
                  exact .receive hrun hphase hfetch
              | error error =>
                  simp only [step, hfailure, hrun, hphase, hfetch]
                  exact .fail hrun hphase hfetch
          | received cursor page =>
              simp only [step, hfailure, hrun, hphase]
              exact .count hrun hphase
          | stopped next =>
              simp only [step, hfailure, hrun, hphase]
              exact .rest (by simp [isAtRest, hrun, SegmentRun.isStopped, hphase])

theorem turn_succ (index steps : Nat) (scan : Scan) (state : S) :
    turn fetch limit index (steps + 1) scan state =
      if scan.isAtRest index then (scan, state)
      else turn fetch limit index steps (step fetch limit index scan state).1
        (step fetch limit index scan state).2 := rfl

theorem run_cons (next : Turn) (turns : List Turn) (scan : Scan) (state : S) :
    run fetch limit (next :: turns) scan state =
      run fetch limit turns (turn fetch limit next.segment next.steps scan state).1
        (turn fetch limit next.segment next.steps scan state).2 := rfl

theorem turn_induction {P : Scan → S → Prop} {index : Nat}
    (hstep : ∀ scan state, P scan state →
      P (step fetch limit index scan state).1 (step fetch limit index scan state).2)
    (steps : Nat) {scan : Scan} {state : S} (hscan : P scan state) :
    P (turn fetch limit index steps scan state).1 (turn fetch limit index steps scan state).2 := by
  induction steps generalizing scan state with
  | zero => exact hscan
  | succ steps ih =>
      rw [turn_succ]
      split
      · exact hscan
      · exact ih (hstep scan state hscan)

/-- What every step preserves holds at the end of any turns. -/
theorem run_induction {P : Scan → S → Prop}
    (hstep : ∀ index scan state, P scan state →
      P (step fetch limit index scan state).1 (step fetch limit index scan state).2)
    (turns : List Turn) {scan : Scan} {state : S} (hscan : P scan state) :
    P (run fetch limit turns scan state).1 (run fetch limit turns scan state).2 := by
  induction turns generalizing scan state with
  | nil => exact hscan
  | cons next turns ih => exact ih (turn_induction (hstep next.segment) next.steps hscan)

/-! ### What every schedule preserves -/

theorem getElem?_set_forall {α : Type} {P : Nat → α → Prop} {entries : List α} {place : Nat}
    {new : α} (hentries : ∀ index entry, entries[index]? = some entry → P index entry)
    (hnew : P place new) : ∀ index entry, (entries.set place new)[index]? = some entry →
      P index entry := by
  intro index entry hentry
  rw [List.getElem?_set] at hentry
  split at hentry
  next heq =>
    split at hentry
    · exact heq ▸ Option.some.inj hentry ▸ hnew
    · cases hentry
  next => exact hentries index entry hentry

theorem length_flatMap_set {α β : Type} (f : α → List β) {entries : List α} {place : Nat}
    {old : α} (hold : entries[place]? = some old) (new : α) :
    ((entries.set place new).flatMap f).length + (f old).length =
      (entries.flatMap f).length + (f new).length := by
  induction entries generalizing place with
  | nil => simp at hold
  | cons head rest ih =>
      cases place with
      | zero =>
          obtain rfl : head = old := by simpa using hold
          simp only [List.set_cons_zero, List.flatMap_cons, List.length_append]
          omega
      | succ place =>
          have := ih (by simpa using hold)
          simp only [List.set_cons_succ, List.flatMap_cons, List.length_append]
          omega

theorem isSpent_mono {scan later : Scan} (hcounted : scan.counted ≤ later.counted)
    (hspent : scan.isSpent limit = true) : later.isSpent limit = true := by
  cases limit with
  | none => simp [isSpent] at hspent
  | some limit =>
      simp only [isSpent, decide_eq_true_eq] at hspent ⊢
      omega

/-- A scan of segments that began at given places, at any moment of any schedule. -/
structure Sound (source : Nat → Source) (first : Nat → Nat) (limit : Option Nat)
    (starts : List SegmentCursor) (scan : Scan) : Prop where
  failure : scan.failure = none
  starts_eq : scan.runs.map SegmentRun.start = starts
  tracks : ∀ (index : Nat) (run : SegmentRun), scan.runs[index]? = some run →
    (source index).Tracks (first index) run
  counted_eq : scan.counted = (scan.runs.flatMap SegmentRun.items).length
  /-- A segment stops at the end of its rows or on a spent budget. -/
  stopped : ∀ (index : Nat) (run : SegmentRun), scan.runs[index]? = some run →
    ∀ next, run.phase = .stopped next → next = .exhausted ∨ scan.isSpent limit = true
  /-- No fetch is sent for a segment that began past its end. -/
  issued : ∀ request ∈ scan.issued, ∃ (index : Nat) (position : SegmentCursor),
    starts[index]? = some position ∧ position ≠ .exhausted ∧
      request.segment = some ⟨index, starts.length⟩

variable {source : Nat → Source} {first : Nat → Nat} {starts : List SegmentCursor} {scan : Scan}
  {index : Nat} {run new : SegmentRun}

theorem Sound.length_runs (hsound : scan.Sound source first limit starts) :
    scan.runs.length = starts.length := by
  rw [← hsound.starts_eq, List.length_map]

theorem Sound.start_getElem? (hsound : scan.Sound source first limit starts)
    (hrun : scan.runs[index]? = some run) : starts[index]? = some run.start := by
  rw [← hsound.starts_eq, List.getElem?_map, hrun]
  rfl

theorem begin_sound (hplaced : Source.SegmentsPlaced source starts first) :
    (Scan.begin starts).Sound source first limit starts where
  failure := rfl
  starts_eq := by
    rw [Scan.begin, List.map_map]
    exact List.map_id starts
  tracks index run hrun := by
    rw [Scan.begin, List.getElem?_map] at hrun
    obtain ⟨position, hposition, rfl⟩ := Option.map_eq_some_iff.mp hrun
    exact SegmentRun.begin_tracks (hplaced index position hposition)
  counted_eq := by
    have hempty : (starts.map SegmentRun.begin).flatMap SegmentRun.items = [] := by
      simp [List.flatMap_map, SegmentRun.begin]
    exact (congrArg List.length hempty).symm
  stopped index run hrun next hphase := by
    rw [Scan.begin, List.getElem?_map] at hrun
    obtain ⟨position, -, rfl⟩ := Option.map_eq_some_iff.mp hrun
    simp only [SegmentRun.begin] at hphase
    split at hphase
    · exact Or.inl (Phase.stopped.inj hphase).symm
    · cases hphase
  issued request hrequest := by cases hrequest

/-- A segment is replaced by one that has read `more` rows and counts them. -/
theorem Sound.setRun (hsound : scan.Sound source first limit starts) (more : Nat)
    (hrun : scan.runs[index]? = some run) (htracks : (source index).Tracks (first index) new)
    (hstart : new.start = run.start)
    (hmore : new.items.length = run.items.length + more)
    (hstopped : ∀ next, new.phase = .stopped next →
      next = .exhausted ∨ scan.isSpent limit = true) :
    { scan.setRun index new with counted := scan.counted + more }.Sound source first limit
      starts where
  failure := hsound.failure
  starts_eq := by
    have hsame : (scan.runs.map SegmentRun.start)[index]? = some new.start := by
      rw [List.getElem?_map, hrun, hstart]
      rfl
    rw [← hsound.starts_eq]
    simp only [Scan.setRun, List.map_set]
    obtain ⟨hindex, hsame⟩ := List.getElem?_eq_some_iff.mp hsame
    rw [← hsame, List.set_getElem_self]
  tracks := getElem?_set_forall hsound.tracks htracks
  counted_eq := by
    have hlength := length_flatMap_set SegmentRun.items hrun new
    have hcounted := hsound.counted_eq
    simp only [Scan.setRun]
    omega
  stopped := by
    have hmono (hspent : scan.isSpent limit = true) :
        { scan.setRun index new with counted := scan.counted + more }.isSpent limit = true :=
      isSpent_mono (Nat.le_add_right _ _) hspent
    refine getElem?_set_forall (fun index run hrun next hphase => ?_) fun next hphase => ?_
    · exact (hsound.stopped index run hrun next hphase).imp_right hmono
    · exact (hstopped next hphase).imp_right hmono
  issued := hsound.issued

theorem Sound.issue (hsound : scan.Sound source first limit starts) {request : PageRequest}
    {position : SegmentCursor} (hposition : starts[index]? = some position)
    (hne : position ≠ .exhausted)
    (hsegment : request.segment = some ⟨index, starts.length⟩) :
    { scan with issued := scan.issued ++ [request] }.Sound source first limit starts where
  failure := hsound.failure
  starts_eq := hsound.starts_eq
  tracks := hsound.tracks
  counted_eq := hsound.counted_eq
  stopped := hsound.stopped
  issued other hother := by
    rcases List.mem_append.mp hother with hother | hother
    · exact hsound.issued other hother
    · rw [List.mem_singleton] at hother
      exact ⟨index, position, hposition, hne, hother ▸ hsegment⟩

/-- The answer that a served segment receives. -/
theorem Sound.answers (hsound : scan.Sound source first limit starts)
    (hserved : Source.SegmentsServed source fetch starts.length)
    (hrun : scan.runs[index]? = some run) {cursor : Option Cursor}
    (hphase : run.phase = .fetching cursor) (state : S) :
    ∃ page after, fetch (scan.request index cursor) state = (.ok page, after) ∧
      (source index).Answers (first index + run.items.length) page := by
  have htracks := hsound.tracks index run hrun
  have hat : (source index).At cursor (first index + run.items.length) := htracks.stage_of hphase
  have hindex : index < starts.length := by
    rw [← hsound.length_runs]
    exact (List.getElem?_eq_some_iff.mp hrun).1
  have hanswer := hserved index hindex cursor _ state hat htracks.le
  rwa [← hsound.length_runs] at hanswer

theorem Sound.step (hserved : Source.SegmentsServed source fetch starts.length)
    (hsound : scan.Sound source first limit starts) (index : Nat) (state : S) :
    (Scan.step fetch limit index scan state).1.Sound source first limit starts := by
  have hmove := step_move fetch limit index scan state
  revert hmove
  generalize (Scan.step fetch limit index scan state).1 = later
  generalize (Scan.step fetch limit index scan state).2 = after
  intro hmove
  cases hmove with
  | rest => exact hsound
  | @stop run cursor hrun hphase hspent =>
      have htracks := hsound.tracks index run hrun
      have hat : (source index).At cursor (first index + run.items.length) :=
        htracks.stage_of hphase
      have hgoing : run.isStopped = false := by simp [SegmentRun.isStopped, hphase]
      exact hsound.setRun 0 hrun
        (htracks.setPhase hgoing (.stopped (run.standing cursor)) (htracks.standing_placed hat))
        rfl rfl fun _ _ => Or.inr hspent
  | @send run cursor hrun hphase hspent =>
      have htracks := hsound.tracks index run hrun
      have hat : (source index).At cursor (first index + run.items.length) :=
        htracks.stage_of hphase
      have hgoing : run.isStopped = false := by simp [SegmentRun.isStopped, hphase]
      have hset := hsound.setRun 0 hrun (htracks.setPhase hgoing (.fetching cursor) hat) rfl rfl
        fun _ hstopped => by cases hstopped
      exact hset.issue (hsound.start_getElem? hrun) (htracks.start_ne_exhausted hgoing)
        (by rw [Scan.request, hsound.length_runs])
  | @receive run cursor page after hrun hphase hpage =>
      obtain ⟨page', after', hpage', hanswers⟩ := hsound.answers hserved hrun hphase state
      obtain rfl : page = page' := by
        rw [hpage] at hpage'
        exact Except.ok.inj (Prod.mk.inj hpage').1
      have hgoing : run.isStopped = false := by simp [SegmentRun.isStopped, hphase]
      exact hsound.setRun 0 hrun ((hsound.tracks index run hrun).setPhase hgoing
        (.received cursor page) hanswers) rfl rfl fun _ hstopped => by cases hstopped
  | @fail run cursor error after hrun hphase herror =>
      obtain ⟨page, after', hpage, -⟩ := hsound.answers hserved hrun hphase state
      rw [herror] at hpage
      cases (Prod.mk.inj hpage).1
  | @count run cursor page hrun hphase =>
      refine hsound.setRun page.items.length hrun ((hsound.tracks index run hrun).count hphase) rfl
        List.length_append fun next hstopped => Or.inl ?_
      cases hnext : page.next with
      | none =>
          simp only [hnext] at hstopped
          exact (Phase.stopped.inj hstopped).symm
      | some cursor => simp [hnext] at hstopped

theorem run_sound (hserved : Source.SegmentsServed source fetch starts.length)
    (hplaced : Source.SegmentsPlaced source starts first) (turns : List Turn) (state : S) :
    (Scan.run fetch limit turns (Scan.begin starts) state).1.Sound source first limit starts :=
  run_induction (P := fun scan _ => scan.Sound source first limit starts)
    (fun index _ state hsound => hsound.step hserved index state) turns (begin_sound hplaced)

end Scan

end SchemaQuery
