import SchemaQuery.Proofs.Paging.Search

/-!
# Resuming a segmented search

A walk calls a search again and again, each time from the positions that the call before has given
back, with any positive limits and under any schedules that end the calls. Between two calls every
segment has contributed a first part of its rows and its position stands behind that part. No row is
lost or repeated, whichever segments are cut, left unread or finished on the way.
-/

namespace SchemaQuery

structure ScanWalk (S : Type) where
  fetch : Fetch S
  total : Nat
  keys : List String
  /-- The limit of each call. -/
  limits : Nat → Nat
  /-- The order of the steps within each call. -/
  schedules : Nat → Schedule
  /-- The store at the first call. -/
  state : S

namespace ScanWalk

variable {S : Type}

/-- The positions and the store that a call finds. -/
def given (walk : ScanWalk S) : Nat → Option (List SegmentCursor) × S
  | 0 => (none, walk.state)
  | n + 1 =>
      let (given, state) := walk.given n
      let run := Paging.search walk.fetch (walk.schedules n) given walk.total (walk.limits n)
        walk.keys state
      match run.outcome with
      | .ok page => (some page.cursors, run.state)
      | .error _ => (given, run.state)

def call (walk : ScanWalk S) (n : Nat) : Paging.ScanRun S ScanPage :=
  Paging.search walk.fetch (walk.schedules n) (walk.given n).1 walk.total (walk.limits n) walk.keys
    (walk.given n).2

/-- The positions at which the segments of a call begin. -/
def positions (walk : ScanWalk S) (n : Nat) : List SegmentCursor :=
  match Paging.starts (walk.given n).1 walk.total with
  | .ok positions => positions
  | .error _ => []

/-- The scan of a call after the turns of some schedule. -/
def scanUnder (walk : ScanWalk S) (n : Nat) (schedule : Schedule) : Scan :=
  (Scan.run walk.fetch (some (walk.limits n)) (schedule walk.total) (Scan.begin (walk.positions n))
    (walk.given n).2).1

def scan (walk : ScanWalk S) (n : Nat) : Scan := walk.scanUnder n (walk.schedules n)

/-- What a segment contributes to the page of a call. -/
def share (walk : ScanWalk S) (n index : Nat) : List Record :=
  Paging.share (walk.limits n) (walk.scan n).runs index

/-- What a segment has contributed before a call. -/
def read (walk : ScanWalk S) (n index : Nat) : List Record :=
  (List.range n).flatMap fun call => walk.share call index

theorem read_succ (walk : ScanWalk S) (n index : Nat) :
    walk.read (n + 1) index = walk.read n index ++ walk.share n index := by
  simp [read, List.range_succ]

/-- Before a call each segment has contributed a first part of its rows and stands behind it. -/
structure Consistent (walk : ScanWalk S) (source : Nat → Source) (n : Nat) : Prop where
  starts_eq : Paging.starts (walk.given n).1 walk.total = .ok (walk.positions n)
  placed : Source.SegmentsPlaced source (walk.positions n) fun index =>
    (walk.read n index).length
  isPrefix_read : ∀ index < walk.total, walk.read n index <+: (source index).rows

variable {walk : ScanWalk S} {source : Nat → Source} {n : Nat}

theorem Consistent.length_positions (hn : walk.Consistent source n) :
    (walk.positions n).length = walk.total := Paging.starts_length hn.starts_eq

theorem consistent_zero (htotal : 0 < walk.total) : walk.Consistent source 0 := by
  have hstarts : Paging.starts (walk.given 0).1 walk.total =
      .ok (List.replicate walk.total .start) := by
    simp [given, Paging.starts, Nat.ne_of_gt htotal]
  have hpositions : walk.positions 0 = List.replicate walk.total .start := by
    simp only [positions, hstarts]
  refine ⟨by rw [hstarts, hpositions], fun index position hposition => ?_, fun _ _ => ?_⟩
  · rw [hpositions] at hposition
    obtain rfl := List.eq_of_mem_replicate (List.mem_of_getElem? hposition)
    rfl
  · exact List.nil_prefix

theorem Consistent.sound (hserved : Source.SegmentsServed source walk.fetch walk.total)
    (hn : walk.Consistent source n) (schedule : Schedule) :
    (walk.scanUnder n schedule).Sound source (fun index => (walk.read n index).length)
      (some (walk.limits n)) (walk.positions n) := by
  rw [← hn.length_positions] at hserved
  exact Scan.run_sound hserved hn.placed (schedule walk.total) (walk.given n).2

theorem Consistent.scan_sound (hserved : Source.SegmentsServed source walk.fetch walk.total)
    (hn : walk.Consistent source n) :
    (walk.scan n).Sound source (fun index => (walk.read n index).length) (some (walk.limits n))
      (walk.positions n) := hn.sound hserved (walk.schedules n)

/-- The page of a call whose segments have all stopped. -/
def page (walk : ScanWalk S) (n : Nat) : ScanPage :=
  Paging.mergedPage (walk.limits n) walk.keys (walk.scan n).runs

theorem Consistent.call_eq (hserved : Source.SegmentsServed source walk.fetch walk.total)
    (hlimit : Paging.IsLimit (walk.limits n)) (hn : walk.Consistent source n) :
    (walk.call n).outcome = .ok (walk.page n) ∧ (walk.call n).issued = (walk.scan n).issued := by
  have hfailure := (hn.scan_sound hserved).failure
  have hsearch := Paging.search_eq_of_failure_eq_none walk.keys hlimit.1 hn.starts_eq hfailure
  have houtcome := congrArg Paging.ScanRun.outcome hsearch
  exact ⟨houtcome.trans (reserving_of_reservable hlimit.2 _),
    congrArg Paging.ScanRun.issued hsearch⟩

theorem Consistent.length_runs (hserved : Source.SegmentsServed source walk.fetch walk.total)
    (hn : walk.Consistent source n) : (walk.scan n).runs.length = walk.total := by
  have hsound := hn.scan_sound hserved
  exact hsound.length_runs.trans hn.length_positions

/-- The next call begins where this one ends. -/
theorem Consistent.starts_succ (hserved : Source.SegmentsServed source walk.fetch walk.total)
    (hlimit : Paging.IsLimit (walk.limits n)) (hn : walk.Consistent source n) :
    Paging.starts (walk.given (n + 1)).1 walk.total = .ok (walk.page n).cursors ∧
      walk.positions (n + 1) = (walk.page n).cursors := by
  have houtcome := (hn.call_eq hserved hlimit).1
  have hgiven : (walk.given (n + 1)).1 = some (walk.page n).cursors := by
    simp only [call] at houtcome
    simp only [given, houtcome]
  have hlength : (walk.page n).cursors.length = walk.total :=
    (Paging.length_mergedPage_cursors ..).trans (hn.length_runs hserved)
  have htotal : walk.total ≠ 0 := by
    intro hzero
    have := hn.starts_eq
    simp [Paging.starts, hzero] at this
  have hstarts : Paging.starts (walk.given (n + 1)).1 walk.total =
      .ok (walk.page n).cursors := by
    simp [hgiven, Paging.starts, htotal, hlength]
  exact ⟨hstarts, by simp only [positions, hstarts]⟩

/-- Where a call leaves a segment: behind its share, and past its end if it was there before. -/
theorem Consistent.cursor_placed (hserved : Source.SegmentsServed source walk.fetch walk.total)
    (hkeyed : ∀ index < walk.total, (source index).Keyed walk.keys)
    (hfinished : (walk.scan n).isFinished = true) (hn : walk.Consistent source n)
    {index : Nat} {cursor : SegmentCursor} (hcursor : (walk.page n).cursors[index]? = some cursor) :
    (source index).Placed cursor (walk.read (n + 1) index).length ∧
      ((walk.positions n)[index]? = some .exhausted → cursor = .exhausted) := by
  have hsound := hn.scan_sound hserved
  have hlength := hn.length_runs hserved
  have hindex : index < (walk.scan n).runs.length := by
    rw [← Paging.length_mergedPage_cursors (walk.limits n) walk.keys]
    exact (List.getElem?_eq_some_iff.mp hcursor).1
  have hrun := List.getElem?_eq_getElem hindex
  obtain ⟨other, hother, hplaced, hstays⟩ := Paging.mergeRuns_placed (walk.limits n)
    (fun index hindex => hkeyed index (hlength ▸ hindex)) hsound.tracks
    (hsound.isStopped hfinished) index _ hrun
  obtain rfl : cursor = other := Option.some.inj (hcursor.symm.trans hother)
  refine ⟨?_, fun hposition => hstays ?_⟩
  · rwa [read_succ, List.length_append]
  · have := hsound.start_getElem? hrun
    rw [hposition] at this
    exact (Option.some.inj this).symm

theorem Consistent.succ (hserved : Source.SegmentsServed source walk.fetch walk.total)
    (hkeyed : ∀ index < walk.total, (source index).Keyed walk.keys)
    (hlimit : Paging.IsLimit (walk.limits n)) (hfinished : (walk.scan n).isFinished = true)
    (hn : walk.Consistent source n) : walk.Consistent source (n + 1) := by
  obtain ⟨hstarts, hpositions⟩ := hn.starts_succ hserved hlimit
  refine ⟨hpositions ▸ hstarts, fun index position hposition => ?_, fun index hindex => ?_⟩
  · rw [hpositions] at hposition
    exact (hn.cursor_placed hserved hkeyed hfinished hposition).1
  · obtain ⟨rest, hrest⟩ := hn.isPrefix_read index hindex
    have hsound := hn.scan_sound hserved
    obtain ⟨tail, htail⟩ := Paging.isPrefix_share (walk.limits n) hsound.tracks index
    have hdrop : (source index).rows.drop (walk.read n index).length = rest := by
      rw [← hrest, List.drop_left]
    rw [hdrop] at htail
    exact ⟨tail, by rw [read_succ, List.append_assoc, share, htail, hrest]⟩

/-- The invariant of a walk: it holds before every call. -/
theorem consistent (htotal : 0 < walk.total)
    (hserved : Source.SegmentsServed source walk.fetch walk.total)
    (hkeyed : ∀ index < walk.total, (source index).Keyed walk.keys)
    (hlimits : ∀ n, Paging.IsLimit (walk.limits n))
    (hends : ∀ n, (walk.scan n).isFinished = true) (n : Nat) :
    walk.Consistent source n := by
  induction n with
  | zero => exact consistent_zero htotal
  | succ n ih => exact ih.succ hserved hkeyed (hlimits n) (hends n)

/-- A schedule with enough turns ends a call. -/
theorem Consistent.isFinished (hserved : Source.SegmentsServed source walk.fetch walk.total)
    (hn : walk.Consistent source n) {schedule : Schedule}
    (hschedule : ∀ index < walk.total, Paging.stepsFor ((source index).rows.length + 1) ≤
      Turn.stepsOf index (schedule walk.total)) :
    (walk.scanUnder n schedule).isFinished = true := by
  rw [← hn.length_positions] at hserved
  refine Scan.run_isFinished hserved hn.placed (fun index hindex => hschedule index ?_) _
  rwa [← hn.length_positions]

theorem scan_isFinished (htotal : 0 < walk.total)
    (hserved : Source.SegmentsServed source walk.fetch walk.total)
    (hkeyed : ∀ index < walk.total, (source index).Keyed walk.keys)
    (hlimits : ∀ n, Paging.IsLimit (walk.limits n))
    (hschedules : ∀ n, ∀ index < walk.total, Paging.stepsFor ((source index).rows.length + 1) ≤
      Turn.stepsOf index (walk.schedules n walk.total)) (n : Nat) :
    (walk.scan n).isFinished = true := by
  have hn : walk.Consistent source n := by
    induction n with
    | zero => exact consistent_zero htotal
    | succ n ih => exact ih.succ hserved hkeyed (hlimits n) (ih.isFinished hserved (hschedules n))
  exact hn.isFinished hserved (hschedules n)

/-! ### Segments past their end -/

/-- A segment that began past its end is left there, and nothing is fetched for it. -/
theorem Consistent.exhausted_succ (hserved : Source.SegmentsServed source walk.fetch walk.total)
    (hkeyed : ∀ index < walk.total, (source index).Keyed walk.keys)
    (hlimit : Paging.IsLimit (walk.limits n)) (hfinished : (walk.scan n).isFinished = true)
    (hn : walk.Consistent source n) {index : Nat}
    (hexhausted : (walk.positions n)[index]? = some .exhausted) :
    (walk.page n).cursors[index]? = some .exhausted ∧
      ∀ request ∈ (walk.call n).issued, request.segment ≠ some ⟨index, walk.total⟩ := by
  have hlength : (walk.page n).cursors.length = (walk.positions n).length := by
    rw [hn.length_positions, page, Paging.length_mergedPage_cursors, hn.length_runs hserved]
  have hindex : index < (walk.page n).cursors.length := by
    rw [hlength]
    exact (List.getElem?_eq_some_iff.mp hexhausted).1
  have hcursor := List.getElem?_eq_getElem hindex
  refine ⟨?_, fun request hrequest hsegment => ?_⟩
  · rw [hcursor, (hn.cursor_placed hserved hkeyed hfinished hcursor).2 hexhausted]
  · rw [(hn.call_eq hserved hlimit).2] at hrequest
    obtain ⟨other, position, hposition, hne, hother⟩ :=
      (hn.scan_sound hserved).issued request hrequest
    obtain rfl : other = index := by
      rw [hsegment] at hother
      exact (Segment.mk.inj (Option.some.inj hother)).1.symm
    rw [hexhausted] at hposition
    exact hne (Option.some.inj hposition).symm

/-- Once a segment stands past its end, it does so before every later call. -/
theorem exhausted_of_le (hserved : Source.SegmentsServed source walk.fetch walk.total)
    (hkeyed : ∀ index < walk.total, (source index).Keyed walk.keys)
    (hlimits : ∀ n, Paging.IsLimit (walk.limits n)) (hends : ∀ n, (walk.scan n).isFinished = true)
    (hall : ∀ n, walk.Consistent source n) {index : Nat}
    (hexhausted : (walk.positions n)[index]? = some .exhausted) {later : Nat} (hlater : n ≤ later) :
    (walk.positions later)[index]? = some .exhausted := by
  induction hlater with
  | refl => exact hexhausted
  | @step later _ ih =>
      have hcursor :=
        ((hall later).exhausted_succ hserved hkeyed (hlimits later) (hends later) ih).1
      rwa [((hall later).starts_succ hserved (hlimits later)).2]

/-! ### The end of a walk -/

/-- How many rows are left before a call. -/
def left (walk : ScanWalk S) (source : Nat → Source) (n : Nat) : Nat :=
  (Source.remaining source (fun index => (walk.read n index).length) walk.total).length

theorem length_flatMap_eq_add {α β : Type} {f g h : α → List β} {entries : List α}
    (heq : ∀ entry ∈ entries, (f entry).length = (g entry).length + (h entry).length) :
    (entries.flatMap f).length = (entries.flatMap g).length + (entries.flatMap h).length := by
  induction entries with
  | nil => rfl
  | cons entry rest ih =>
      have hhead := heq entry List.mem_cons_self
      have hrest := ih fun entry hmem => heq entry (List.mem_cons_of_mem _ hmem)
      simp only [List.flatMap_cons, List.length_append]
      omega

theorem Consistent.page_items (hserved : Source.SegmentsServed source walk.fetch walk.total)
    (hn : walk.Consistent source n) :
    (walk.page n).items = (List.range walk.total).flatMap (walk.share n) := by
  rw [page, Paging.mergedPage_items, hn.length_runs hserved]
  rfl

/-- The rows of a page are those that are no longer left. -/
theorem Consistent.left_eq (hserved : Source.SegmentsServed source walk.fetch walk.total)
    (hn : walk.Consistent source n) :
    walk.left source n = walk.left source (n + 1) + (walk.page n).items.length := by
  rw [hn.page_items hserved]
  refine length_flatMap_eq_add fun index _ => ?_
  have hprefix := Paging.isPrefix_share (walk.limits n) (hn.scan_sound hserved).tracks index
  have hle := hprefix.length_le
  rw [List.length_drop] at hle
  simp only [read_succ, List.length_append, List.length_drop, share]
  omega

/-- A call that is not the last one returns a row. -/
theorem Consistent.left_succ_lt (hserved : Source.SegmentsServed source walk.fetch walk.total)
    (hlimit : 0 < walk.limits n) (hfinished : (walk.scan n).isFinished = true)
    (hn : walk.Consistent source n) (hgoing : (walk.page n).ending ≠ .done) :
    walk.left source (n + 1) < walk.left source n := by
  have hsound := hn.scan_sound hserved
  have hcounted : walk.limits n ≤ (walk.scan n).counted := by
    rw [← Nat.not_lt]
    exact fun hlt => hgoing (hsound.ending_of_lt hfinished hlt walk.keys)
  have hitems : (walk.page n).items.length = walk.limits n := by
    rw [page, Paging.length_mergedPage_items, ← hsound.counted_eq]
    omega
  have hleft := hn.left_eq hserved
  omega

/-- As long as no call is the last one, each call takes a row from those that are left. -/
theorem left_add_le (hserved : Source.SegmentsServed source walk.fetch walk.total)
    (hlimits : ∀ n, 0 < walk.limits n) (hends : ∀ n, (walk.scan n).isFinished = true)
    (hall : ∀ n, walk.Consistent source n) {calls : Nat}
    (hgoing : ∀ n < calls, (walk.page n).ending ≠ .done) :
    walk.left source calls + calls ≤ walk.left source 0 := by
  induction calls with
  | zero => exact Nat.le_refl _
  | succ n ih =>
      have hbefore := ih fun call hcall => hgoing call (Nat.lt_succ_of_lt hcall)
      have hlt :=
        (hall n).left_succ_lt hserved (hlimits n) (hends n) (hgoing n (Nat.lt_succ_self n))
      omega

/-- Some call, not later than there are rows, is the last one. -/
theorem exists_done (hserved : Source.SegmentsServed source walk.fetch walk.total)
    (hlimits : ∀ n, 0 < walk.limits n) (hends : ∀ n, (walk.scan n).isFinished = true)
    (hall : ∀ n, walk.Consistent source n) :
    ∃ n ≤ walk.left source 0, (walk.page n).ending = .done := by
  refine Classical.byContradiction fun hnever => ?_
  have hgoing (n : Nat) (hn : n < walk.left source 0 + 1) : (walk.page n).ending ≠ .done :=
    fun hdone => hnever ⟨n, Nat.le_of_lt_succ hn, hdone⟩
  have hle := left_add_le hserved hlimits hends hall hgoing
  omega

/-- The last call leaves no row. -/
theorem Consistent.read_of_done (hserved : Source.SegmentsServed source walk.fetch walk.total)
    (hfinished : (walk.scan n).isFinished = true) (hn : walk.Consistent source n)
    (hdone : (walk.page n).ending = .done) {index : Nat} (hindex : index < walk.total) :
    walk.read (n + 1) index = (source index).rows := by
  have hshare := (hn.scan_sound hserved).share_of_done hfinished hdone
    (hn.length_positions.symm ▸ hindex)
  obtain ⟨rest, hrest⟩ := hn.isPrefix_read index hindex
  rw [read_succ, share, hshare, ← hrest, List.drop_left]

/-- **Segmented resume.** A walk from the start, with any positive limits for which there can be
room and under any schedules that end the calls (which every schedule with enough turns does): each
call goes well, and its page is made of the shares of the segments in their order. The shares of a
segment, put together, are always a first part of its rows. A segment that is given back as past its
end stays so and is never fetched again. Some call, not later than there are rows, is the last one,
and after it every segment has contributed all its rows. -/
theorem reads_every_row_once (rows : Nat → List Record) (htotal : 0 < walk.total)
    (hserved : Source.SegmentsServed (fun index => .ofRows (rows index)) walk.fetch walk.total)
    (hunique : ∀ index < walk.total, ∀ row ∈ rows index,
      (rows index).countP (Cursor.ofRow row walk.keys).pointsAt = 1)
    (hpos : ∀ n, 0 < walk.limits n) (hroom : ∀ n, Reservable Record.bytes (walk.limits n))
    (hends : ∀ n, (walk.scan n).isFinished = true) :
    (∀ n, ∃ page, (walk.call n).outcome = .ok page ∧ page.cursors.length = walk.total ∧
      page.items = (List.range walk.total).flatMap (walk.share n)) ∧
    (∀ n, ∀ index < walk.total, walk.read n index <+: rows index) ∧
    (∀ n page index, (walk.call n).outcome = .ok page →
      page.cursors[index]? = some .exhausted → ∀ later > n,
        (∃ page, (walk.call later).outcome = .ok page ∧
          page.cursors[index]? = some .exhausted) ∧
        ∀ request ∈ (walk.call later).issued, request.segment ≠ some ⟨index, walk.total⟩) ∧
    (∃ n ≤ ((List.range walk.total).flatMap rows).length, ∃ page,
      (walk.call n).outcome = .ok page ∧ page.ending = .done) ∧
    (∀ n page, (walk.call n).outcome = .ok page → page.ending = .done →
      ∀ index < walk.total, walk.read (n + 1) index = rows index) ∧
    (∀ n (schedule : Schedule), (∀ index < walk.total,
        Paging.stepsFor ((rows index).length + 1) ≤ Turn.stepsOf index (schedule walk.total)) →
      (walk.scanUnder n schedule).isFinished = true) := by
  have hkeyed (index : Nat) (hindex : index < walk.total) :
      (Source.ofRows (rows index)).Keyed walk.keys := Source.keyed_ofRows (hunique index hindex)
  have hlimits (n : Nat) : Paging.IsLimit (walk.limits n) := ⟨hpos n, hroom n⟩
  have hall (n : Nat) : walk.Consistent (fun index => .ofRows (rows index)) n :=
    consistent htotal hserved hkeyed hlimits hends n
  have hcall (n : Nat) : (walk.call n).outcome = .ok (walk.page n) :=
    ((hall n).call_eq hserved (hlimits n)).1
  have hpage {n : Nat} {page : ScanPage} (houtcome : (walk.call n).outcome = .ok page) :
      page = walk.page n := Except.ok.inj (houtcome.symm.trans (hcall n))
  refine ⟨fun n => ⟨walk.page n, hcall n, ?_, (hall n).page_items hserved⟩,
    fun n => (hall n).isPrefix_read, ?_, ?_, ?_, ?_⟩
  · exact (Paging.length_mergedPage_cursors ..).trans ((hall n).length_runs hserved)
  · intro n page index houtcome hexhausted later hlater
    obtain rfl := hpage houtcome
    rw [← ((hall n).starts_succ hserved (hlimits n)).2] at hexhausted
    have hposition := exhausted_of_le hserved hkeyed hlimits hends hall hexhausted hlater
    obtain ⟨hcursor, hissued⟩ :=
      (hall later).exhausted_succ hserved hkeyed (hlimits later) (hends later) hposition
    exact ⟨⟨walk.page later, hcall later, hcursor⟩, hissued⟩
  · obtain ⟨n, hn, hdone⟩ := exists_done hserved hpos hends hall
    exact ⟨n, hn, walk.page n, hcall n, hdone⟩
  · intro n page houtcome hdone index hindex
    obtain rfl := hpage houtcome
    exact (hall n).read_of_done hserved (hends n) hdone hindex
  · exact fun n _ hschedule => (hall n).isFinished hserved hschedule

/-- Two segments read by turns, with limits from one to three. -/
def numbered : ScanWalk Unit where
  fetch := Paging.fixedPages 2 ["id"] Paging.numberedRows
  total := 2
  keys := ["id"]
  limits n := n % 3 + 1
  schedules _ := Paging.roundRobin 4
  state := ()

theorem numbered_reads_every_row_once :
    (∃ n ≤ 5, ∃ page, (numbered.call n).outcome = .ok page ∧ page.ending = .done) ∧
    ∀ n index, index < 2 →
      numbered.read n index <+: Paging.numberedRows (some ⟨index, 2⟩) := by
  have hserved : Source.SegmentsServed
      (fun index => .ofRows (Paging.numberedRows (some ⟨index, 2⟩))) numbered.fetch 2 :=
    fun index hindex => Paging.fixedPages_numberedRows_servedBy (by decide) hindex
  have hunique : ∀ index < 2, ∀ row ∈ Paging.numberedRows (some ⟨index, 2⟩),
      (Paging.numberedRows (some ⟨index, 2⟩)).countP (Cursor.ofRow row ["id"]).pointsAt = 1 := by
    decide
  have hpos (n : Nat) : 0 < numbered.limits n := Nat.succ_pos _
  have hroom (n : Nat) : Reservable Record.bytes (numbered.limits n) :=
    (show Reservable Record.bytes 3 by decide).mono (Nat.mod_lt n (by decide))
  have hends (n : Nat) : (numbered.scan n).isFinished = true :=
    scan_isFinished (by decide) hserved
      (fun index hindex => Source.keyed_ofRows (hunique index hindex))
      (fun n => ⟨hpos n, hroom n⟩)
      (fun _ => show ∀ index < 2, Paging.stepsFor
        ((Paging.numberedRows (some ⟨index, 2⟩)).length + 1) ≤
          Turn.stepsOf index (Paging.roundRobin 4 2) by decide) n
  have hwalk := reads_every_row_once (fun index => Paging.numberedRows (some ⟨index, 2⟩))
    (show 0 < numbered.total by decide) hserved hunique hpos hroom hends
  exact ⟨hwalk.2.2.2.1, hwalk.2.1⟩

end ScanWalk

end SchemaQuery
