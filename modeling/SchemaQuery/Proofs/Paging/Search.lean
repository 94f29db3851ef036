import SchemaQuery.Proofs.Paging.Budget

/-!
# One call of a segmented search

A call ends when every segment has stopped. It then never fails, its page holds as many rows as the
limit and the rows left allow, and it is the last one only if every segment is past its end.
-/

namespace SchemaQuery

variable {S : Type} {fetch : Fetch S}

/-- The rows behind the first ones of each segment, in the order of the segments. -/
def Source.remaining (source : Nat → Source) (first : Nat → Nat) (total : Nat) : List Record :=
  (List.range total).flatMap fun index => (source index).rows.drop (first index)

namespace Paging

/-- A limit that a search can go by: not zero, and with room for as many rows. -/
def IsLimit (limit : Nat) : Prop := 0 < limit ∧ Reservable Record.bytes limit

theorem starts_length {given : Option (List SegmentCursor)} {total : Nat}
    {positions : List SegmentCursor} (hstarts : starts given total = .ok positions) :
    positions.length = total := by
  simp only [starts] at hstarts
  split at hstarts
  · cases hstarts
  · cases given with
    | none =>
        obtain rfl := Except.ok.inj hstarts
        exact List.length_replicate
    | some cursors =>
        simp only at hstarts
        split at hstarts
        next hlength =>
          obtain rfl := Except.ok.inj hstarts
          exact hlength
        next => cases hstarts

theorem search_eq_of_failure_eq_none {schedule : Schedule} {given : Option (List SegmentCursor)}
    {total limit : Nat} (keys : List String) {state : S} {positions : List SegmentCursor}
    (hlimit : 0 < limit) (hstarts : starts given total = .ok positions)
    (hfailure : (Scan.run fetch (some limit) (schedule total) (Scan.begin positions) state).1.failure
      = none) :
    let last := Scan.run fetch (some limit) (schedule total) (Scan.begin positions) state
    search fetch schedule given total limit keys state =
      ⟨merge limit keys last.1.runs, last.1.issued, last.2⟩ := by
  simp only [search, if_neg (Nat.ne_of_gt hlimit), hstarts, hfailure]

end Paging

namespace Scan

variable {source : Nat → Source} {first : Nat → Nat} {starts : List SegmentCursor} {scan : Scan}
  {limit : Nat}

theorem length_flatMap_le {α β : Type} {f g : α → List β} {entries : List α}
    (hle : ∀ entry ∈ entries, (f entry).length ≤ (g entry).length) :
    (entries.flatMap f).length ≤ (entries.flatMap g).length := by
  induction entries with
  | nil => exact Nat.le_refl _
  | cons entry rest ih =>
      simp only [List.flatMap_cons, List.length_append]
      exact Nat.add_le_add (hle entry List.mem_cons_self)
        (ih fun entry hmem => hle entry (List.mem_cons_of_mem _ hmem))

theorem flatMap_items_eq (runs : List SegmentRun) :
    runs.flatMap SegmentRun.items = (List.range runs.length).flatMap fun index =>
      (runs[index]?.map SegmentRun.items).getD [] := by
  rw [List.flatMap_def, Paging.flatten_eq_flatMap_range, List.length_map]
  simp only [List.getElem?_map]

theorem Sound.isStopped (hsound : scan.Sound source first (some limit) starts)
    (hfinished : scan.isFinished = true) : ∀ run ∈ scan.runs, run.isStopped = true := by
  simpa [isFinished, hsound.failure] using hfinished

/-- Without a spent budget every segment has come to its end. -/
theorem Sound.phase_of_lt (hsound : scan.Sound source first (some limit) starts)
    (hfinished : scan.isFinished = true) (hcounted : scan.counted < limit) :
    ∀ run ∈ scan.runs, run.phase = .stopped .exhausted := by
  intro run hmem
  obtain ⟨index, hrun⟩ := List.getElem?_of_mem hmem
  have hstopped := hsound.isStopped hfinished run hmem
  cases hphase : run.phase with
  | stopped next =>
      rcases hsound.stopped index run hrun next hphase with rfl | hspent
      · rfl
      · simp only [isSpent, decide_eq_true_eq] at hspent
        omega
  | _ => simp [SegmentRun.isStopped, hphase] at hstopped

theorem Sound.counted_le (hsound : scan.Sound source first (some limit) starts) :
    scan.counted ≤ (Source.remaining source first starts.length).length := by
  rw [hsound.counted_eq, flatMap_items_eq, hsound.length_runs]
  apply length_flatMap_le
  intro index _
  cases hrun : scan.runs[index]? with
  | none => exact Nat.zero_le _
  | some run => exact (hsound.tracks index run hrun).isPrefix_items.length_le

theorem Sound.counted_eq_of_lt (hsound : scan.Sound source first (some limit) starts)
    (hfinished : scan.isFinished = true) (hcounted : scan.counted < limit) :
    scan.counted = (Source.remaining source first starts.length).length := by
  refine Nat.le_antisymm hsound.counted_le ?_
  rw [hsound.counted_eq, flatMap_items_eq, hsound.length_runs]
  apply length_flatMap_le
  intro index hindex
  have hindex : index < scan.runs.length := by
    rw [hsound.length_runs]
    exact List.mem_range.mp hindex
  have hrun : scan.runs[index]? = some scan.runs[index] := List.getElem?_eq_getElem hindex
  have hphase := hsound.phase_of_lt hfinished hcounted _ (List.getElem_mem hindex)
  have hend : first index + scan.runs[index].items.length = (source index).rows.length :=
    (hsound.tracks index _ hrun).stage_of hphase
  simp only [hrun, Option.map_some, Option.getD_some, List.length_drop]
  omega

/-- A page holds as many rows as the limit and the rows left allow. -/
theorem Sound.length_page (hsound : scan.Sound source first (some limit) starts)
    (hfinished : scan.isFinished = true) (keys : List String) :
    (Paging.mergedPage limit keys scan.runs).items.length =
      min limit (Source.remaining source first starts.length).length := by
  rw [Paging.length_mergedPage_items, ← hsound.counted_eq]
  have hle := hsound.counted_le
  by_cases hcounted : scan.counted < limit
  · rw [hsound.counted_eq_of_lt hfinished hcounted]
  · omega

/-- If all rows left fit, the call is the last one. -/
theorem Sound.ending_of_lt (hsound : scan.Sound source first (some limit) starts)
    (hfinished : scan.isFinished = true) (hcounted : scan.counted < limit) (keys : List String) :
    (Paging.mergedPage limit keys scan.runs).ending = .done := by
  have hfits : (scan.runs.flatMap SegmentRun.items).length ≤ limit := by
    rw [← hsound.counted_eq]
    exact Nat.le_of_lt hcounted
  rw [Paging.mergedPage_ending_eq_done_iff, Paging.mergedPage, Paging.mergeRuns_of_fits keys hfits]
  intro cursor hcursor
  obtain ⟨run, hmem, rfl⟩ := List.mem_map.mp hcursor
  simp [SegmentRun.next, hsound.phase_of_lt hfinished hcounted run hmem]

/-- On the last page every share is all that was left. -/
theorem Sound.share_of_done (hsound : scan.Sound source first (some limit) starts)
    (hfinished : scan.isFinished = true) {keys : List String}
    (hdone : (Paging.mergedPage limit keys scan.runs).ending = .done) {index : Nat}
    (hindex : index < starts.length) :
    Paging.share limit scan.runs index = (source index).rows.drop (first index) := by
  rw [← hsound.length_runs] at hindex
  have hrun : scan.runs[index]? = some scan.runs[index] := List.getElem?_eq_getElem hindex
  have htracks (index : Nat) (run : SegmentRun) (hrun : scan.runs[index]? = some run) :
      (source index).loosened.Tracks (first index) run := (hsound.tracks index run hrun).loosened
  obtain ⟨cursor, hcursor, hplaced, -⟩ := Paging.mergeRuns_placed limit
    (fun index _ => (source index).keyed_loosened keys) htracks (hsound.isStopped hfinished)
    index _ hrun
  obtain rfl :=
    Paging.mergedPage_ending_eq_done_iff .. |>.mp hdone cursor (List.mem_of_getElem? hcursor)
  have hend : first index + (Paging.share limit scan.runs index).length =
      (source index).rows.length := hplaced
  have hprefix := Paging.isPrefix_share limit hsound.tracks index
  exact hprefix.eq_of_length (by rw [List.length_drop]; omega)

end Scan

namespace Paging

/-- **The budget of a search.** At every moment of every schedule a fetch is sent only while the
count is below the limit, and the rows that have come exceed the limit by less than a page for each
segment that was not past its end. Once all segments have stopped, which they do after some turns,
the page holds as many rows as the limit and the rows left allow, in the order of the segments and
within each in its own order; it is the last one just if all positions are past their ends, and then
no row is left. Only if there cannot be room for as many rows as the limit, the search is aborted
instead. -/
theorem search_within_budget (source : Nat → Source) (first : Nat → Nat)
    {most total limit : Nat} {given : Option (List SegmentCursor)}
    {positions : List SegmentCursor} (keys : List String) (state : S)
    (hserved : Source.SegmentsServed source fetch total)
    (hmost : ∀ request state page after,
      fetch request state = (.ok page, after) → page.items.length ≤ most)
    (hlimit : 0 < limit) (hstarts : starts given total = .ok positions)
    (hplaced : Source.SegmentsPlaced source positions first) :
    (∀ turns : List Turn,
      let now := Scan.run fetch (some limit) turns (Scan.begin positions) state
      (∀ index, (Scan.step fetch (some limit) index now.1 now.2).1.issued ≠ now.1.issued →
        now.1.counted < limit) ∧
      now.1.fetched ≤ (limit - 1) + Scan.going positions * most ∧
      ((∀ index < total, stepsFor ((source index).rows.length + 1) ≤ Turn.stepsOf index turns) →
        now.1.isFinished = true)) ∧
    ∀ schedule : Schedule,
      (Scan.run fetch (some limit) (schedule total) (Scan.begin positions) state).1.isFinished =
        true →
      (¬Reservable Record.bytes limit →
        (search fetch schedule given total limit keys state).outcome = .error .aborted) ∧
      (Reservable Record.bytes limit →
        ∃ page, (search fetch schedule given total limit keys state).outcome = .ok page ∧
          page.items.length = min limit (Source.remaining source first total).length ∧
          (∃ kept : Nat → Nat, page.items = (List.range total).flatMap fun index =>
            ((source index).rows.drop (first index)).take (kept index)) ∧
          page.cursors.length = total ∧
          (page.ending = .done ↔ ∀ cursor ∈ page.cursors, cursor = .exhausted) ∧
          (page.ending = .done → page.items = Source.remaining source first total)) := by
  obtain rfl := starts_length hstarts
  refine ⟨fun turns => ⟨fun index hissued => ?_, ?_, fun hturns => ?_⟩,
    fun schedule hfinished => ?_⟩
  · exact Scan.counted_lt_of_issued_ne hissued
  · exact (Scan.run_within hserved hmost hplaced limit turns state).fetched_le
      (Scan.run_sound hserved hplaced turns state)
  · exact Scan.run_isFinished hserved hplaced hturns state
  · have hsound : (Scan.run fetch (some limit) (schedule positions.length)
        (Scan.begin positions) state).1.Sound source first (some limit) positions :=
      Scan.run_sound hserved hplaced _ state
    rw [search_eq_of_failure_eq_none keys hlimit hstarts hsound.failure]
    generalize (Scan.run fetch (some limit) (schedule positions.length) (Scan.begin positions)
      state).1 = scan at hsound hfinished ⊢
    refine ⟨fun hroom => reserving_of_not_reservable hroom _, fun hroom => ⟨_,
      reserving_of_reservable hroom _, hsound.length_page hfinished keys, ?_, ?_,
      mergedPage_ending_eq_done_iff .., ?_⟩⟩
    · refine ⟨fun index => (share limit scan.runs index).length, ?_⟩
      rw [mergedPage_items, hsound.length_runs]
      congr 1
      funext index
      exact List.prefix_iff_eq_take.mp (isPrefix_share limit hsound.tracks index)
    · rw [length_mergedPage_cursors, hsound.length_runs]
    · intro hdone
      rw [mergedPage_items, hsound.length_runs, Source.remaining, List.flatMap_def,
        List.flatMap_def]
      exact congrArg List.flatten (List.map_congr_left fun index hindex =>
        hsound.share_of_done hfinished hdone (List.mem_range.mp hindex))

/-- Two segments with pages of two rows and a limit of three, read by turns from the start. -/
theorem search_within_budget_numbered :
    (∀ turns, (Scan.run (fixedPages 2 ["id"] numberedRows) (some 3) turns
      (Scan.begin [.start, .start]) ()).1.fetched ≤ 2 + 2 * 2) ∧
    ∃ page, (search (fixedPages 2 ["id"] numberedRows) (roundRobin 3) none 2 3 ["id"] ()).outcome =
      .ok page ∧ page.items.length = 3 := by
  have hstarts : starts none 2 = .ok [.start, .start] := rfl
  have hplaced (index : Nat) (position : SegmentCursor)
      (hposition : [SegmentCursor.start, .start][index]? = some position) :
      (Source.ofRows (numberedRows (some ⟨index, 2⟩))).Placed position 0 := by
    obtain rfl : position = .start := by
      simpa using List.mem_of_getElem? hposition
    rfl
  have hserved (index : Nat) (hindex : index < 2) :
      (Source.ofRows (numberedRows (some ⟨index, 2⟩))).ServedBy
        (fixedPages 2 ["id"] numberedRows) (some ⟨index, 2⟩) :=
    fixedPages_numberedRows_servedBy (by decide) hindex
  have hbudget := search_within_budget (fun index => Source.ofRows (numberedRows (some ⟨index, 2⟩)))
    (fun _ => 0) ["id"] () hserved length_fixedPages_le (show 0 < 3 by decide) hstarts hplaced
  refine ⟨fun turns => (hbudget.1 turns).2.1, ?_⟩
  obtain ⟨page, hpage, hlength, -⟩ := (hbudget.2 (roundRobin 3) (by decide)).2 (by decide)
  exact ⟨page, hpage, hlength⟩

end Paging

end SchemaQuery
