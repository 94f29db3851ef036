import SchemaQuery.Proofs.Paging.Interleaving

/-!
# Putting segments together

Of the rows that the segments hold, the first ones in their order are kept, up to the limit. The
share of a segment is what is kept of its rows. The position that is given back for a segment stands
behind its share, whichever of the four ways it comes about: the segment went on and none of its
rows is cut, it is cut behind a row, it is cut as a whole, or it is past its end.
-/

namespace SchemaQuery

/-- A source whose cursors may stand anywhere. -/
def Source.loosened (source : Source) : Source := ⟨source.rows, fun _ _ => True⟩

theorem Source.Tracks.loosened {source : Source} {first : Nat} {run : SegmentRun}
    (htracks : source.Tracks first run) : source.loosened.Tracks first run where
  start_placed := by
    have hstart := htracks.start_placed
    cases hposition : run.start with
    | start => rwa [hposition] at hstart
    | resume cursor =>
        rw [hposition] at hstart
        exact ⟨trivial, hstart.2⟩
    | exhausted => rwa [hposition] at hstart
  isPrefix_items := htracks.isPrefix_items
  stage := by
    cases hphase : run.phase with
    | ready cursor | fetching cursor =>
        cases cursor with
        | none => exact htracks.stage_of hphase
        | some cursor => trivial
    | received cursor page =>
        have hanswers : source.Answers _ page := htracks.stage_of hphase
        exact ⟨hanswers.isPrefix_items, hanswers.items_ne_nil, hanswers.next_eq_none,
          fun _ _ => trivial⟩
    | stopped next =>
        have hplaced : source.Placed next _ := htracks.stage_of hphase
        cases next with
        | start => exact hplaced
        | resume cursor => exact ⟨trivial, hplaced.2⟩
        | exhausted => exact hplaced
  exhausted_rests := htracks.exhausted_rests

theorem Source.keyed_loosened (source : Source) (keys : List String) :
    source.loosened.Keyed keys := fun _ _ _ => trivial

namespace Paging

/-- What is kept of the rows of each segment. -/
def shares : Nat → List SegmentRun → List (List Record)
  | _, [] => []
  | room, run :: rest => run.items.take room :: shares (room - run.items.length) rest

/-- What is kept of the rows of one segment. -/
def share (room : Nat) (runs : List SegmentRun) (index : Nat) : List Record :=
  (shares room runs)[index]?.getD []

theorem length_shares (room : Nat) (runs : List SegmentRun) :
    (shares room runs).length = runs.length := by
  induction runs generalizing room with
  | nil => rfl
  | cons run rest ih => simp only [shares, List.length_cons, ih]

theorem flatten_shares (room : Nat) (runs : List SegmentRun) :
    (shares room runs).flatten = (runs.flatMap SegmentRun.items).take room := by
  induction runs generalizing room with
  | nil => simp [shares]
  | cons run rest ih =>
      simp only [shares, List.flatten_cons, ih, List.flatMap_cons, List.take_append]

theorem flatten_eq_flatMap_range {α : Type} (parts : List (List α)) :
    parts.flatten = (List.range parts.length).flatMap fun index => parts[index]?.getD [] := by
  induction parts with
  | nil => rfl
  | cons part rest ih =>
      rw [List.flatten_cons, ih, List.length_cons, List.range_succ_eq_map, List.flatMap_cons,
        List.flatMap_map]
      rfl

theorem mergeRuns_items (keys : List String) (room : Nat) (runs : List SegmentRun) :
    (mergeRuns keys room runs).1 = (shares room runs).flatten := by
  induction runs generalizing room with
  | nil => rfl
  | cons run rest ih =>
      simp only [mergeRuns]
      split
      next hcut =>
        rw [flatten_shares, List.flatMap_cons, List.take_append_of_le_length (Nat.le_of_lt hcut)]
      next hfits =>
        rw [shares, List.flatten_cons, ← ih, List.take_of_length_le (by omega)]

theorem length_mergeRuns_cursors (keys : List String) (room : Nat) (runs : List SegmentRun) :
    (mergeRuns keys room runs).2.length = runs.length := by
  induction runs generalizing room with
  | nil => rfl
  | cons run rest ih =>
      simp only [mergeRuns]
      split
      · simp
      · simp [ih]

theorem share_zero (runs : List SegmentRun) (index : Nat) : share 0 runs index = [] := by
  induction runs generalizing index with
  | nil => rfl
  | cons run rest ih =>
      cases index with
      | zero => rfl
      | succ index =>
          simp only [share, shares, List.getElem?_cons_succ, Nat.zero_sub]
          exact ih index

theorem isPrefix_share {source : Nat → Source} {first : Nat → Nat} (room : Nat)
    {runs : List SegmentRun} (htracks : ∀ (index : Nat) (run : SegmentRun),
      runs[index]? = some run → (source index).Tracks (first index) run) (index : Nat) :
    share room runs index <+: (source index).rows.drop (first index) := by
  induction runs generalizing room source first index with
  | nil => exact List.nil_prefix
  | cons run rest ih =>
      cases index with
      | zero =>
          exact (List.take_prefix _ _).trans (htracks 0 run rfl).isPrefix_items
      | succ index =>
          have hrest (index : Nat) (later : SegmentRun) (hlater : rest[index]? = some later) :
              (source (index + 1)).Tracks (first (index + 1)) later :=
            htracks (index + 1) later hlater
          exact ih (room - run.items.length) hrest index

/-- The position given back for a segment that is cut behind some of its rows, or as a whole. -/
theorem cut_placed {source : Source} {first room : Nat} {keys : List String} {run : SegmentRun}
    (hkeyed : source.Keyed keys) (htracks : source.Tracks first run)
    (hcut : room < run.items.length) :
    source.Placed
      (match (run.items.take room).getLast? with
        | some row => .resume (Cursor.ofRow row keys)
        | none => run.start)
      (first + (run.items.take room).length) := by
  have hlength : (run.items.take room).length = room := by
    rw [List.length_take]
    omega
  cases room with
  | zero => simpa using htracks.start_placed
  | succ room =>
      have hlast : (run.items.take (room + 1)).getLast? = run.items[room]? := by
        rw [List.getLast?_eq_getElem?, hlength, Nat.add_sub_cancel, List.getElem?_take_of_lt]
        omega
      have hrow : run.items[room]? = some run.items[room] := List.getElem?_eq_getElem _
      have hsource : source.rows[first + room]? = some run.items[room] := by
        rw [← List.getElem?_drop, ← hrow]
        obtain ⟨tail, htail⟩ := htracks.isPrefix_items
        rw [← htail, List.getElem?_append_left]
        omega
      have hle := htracks.le
      simp only [hlast, hrow, hlength]
      exact ⟨hkeyed _ _ hsource, by omega⟩

/-- The position given back for a segment stands behind its share, and a segment that was past its
end stays there. -/
theorem mergeRuns_placed {source : Nat → Source} {first : Nat → Nat} {keys : List String}
    (room : Nat) {runs : List SegmentRun}
    (hkeyed : ∀ index < runs.length, (source index).Keyed keys)
    (htracks : ∀ (index : Nat) (run : SegmentRun), runs[index]? = some run →
      (source index).Tracks (first index) run)
    (hstopped : ∀ run ∈ runs, run.isStopped = true) :
    ∀ (index : Nat) (run : SegmentRun), runs[index]? = some run →
      ∃ cursor, (mergeRuns keys room runs).2[index]? = some cursor ∧
        (source index).Placed cursor (first index + (share room runs index).length) ∧
        (run.start = .exhausted → cursor = .exhausted) := by
  induction runs generalizing room source first with
  | nil =>
      intro index run hrun
      simp at hrun
  | cons head rest ih =>
      intro index run hrun
      have hhead := htracks 0 head rfl
      have hrest (index : Nat) (later : SegmentRun) (hlater : rest[index]? = some later) :
          (source (index + 1)).Tracks (first (index + 1)) later := htracks (index + 1) later hlater
      simp only [mergeRuns]
      split
      next hcut =>
        cases index with
        | zero =>
            obtain rfl : head = run := by simpa using hrun
            refine ⟨_, rfl, cut_placed (hkeyed 0 (by simp)) hhead hcut, fun hstart => ?_⟩
            have := (hhead.exhausted_rests hstart).1
            simp [this] at hcut
        | succ index =>
            have hlater : rest[index]? = some run := by simpa using hrun
            have hnone : share room (head :: rest) (index + 1) = [] := by
              have := share_zero rest index
              rwa [← Nat.sub_eq_zero_of_le (Nat.le_of_lt hcut)] at this
            refine ⟨run.start, by simp [hlater], ?_, id⟩
            rw [hnone]
            exact (hrest index run hlater).start_placed
      next hfits =>
        cases index with
        | zero =>
            obtain rfl : head = run := by simpa using hrun
            have hall : share room (head :: rest) 0 = head.items :=
              List.take_of_length_le (by omega)
            obtain ⟨next, hnext⟩ : ∃ next, head.phase = .stopped next := by
              have := hstopped head List.mem_cons_self
              cases hphase : head.phase with
              | stopped next => exact ⟨next, rfl⟩
              | _ => simp [SegmentRun.isStopped, hphase] at this
            refine ⟨next, by simp [SegmentRun.next, hnext], ?_, fun hstart => ?_⟩
            · rw [hall]
              exact hhead.stage_of hnext
            · have := (hhead.exhausted_rests hstart).2
              rw [hnext] at this
              exact Phase.stopped.inj this
        | succ index =>
            exact ih (room - head.items.length) (fun index hindex => hkeyed (index + 1) (by simpa))
              hrest (fun run hmem => hstopped run (List.mem_cons_of_mem _ hmem)) index run
              (by simpa using hrun)

/-- Nothing is cut if all rows fit. -/
theorem mergeRuns_of_fits (keys : List String) {room : Nat} {runs : List SegmentRun}
    (hfits : (runs.flatMap SegmentRun.items).length ≤ room) :
    mergeRuns keys room runs = (runs.flatMap SegmentRun.items, runs.map SegmentRun.next) := by
  induction runs generalizing room with
  | nil => rfl
  | cons run rest ih =>
      simp only [List.flatMap_cons, List.length_append] at hfits
      have hrest := @ih (room - run.items.length) (by omega)
      rw [mergeRuns, if_neg (by omega), hrest]
      rfl

/-! ### The page of a scan -/

theorem mergedPage_items (limit : Nat) (keys : List String) (runs : List SegmentRun) :
    (mergedPage limit keys runs).items = (List.range runs.length).flatMap (share limit runs) := by
  have hitems : (mergedPage limit keys runs).items = (shares limit runs).flatten :=
    mergeRuns_items keys limit runs
  rw [hitems, flatten_eq_flatMap_range, length_shares]
  rfl

theorem length_mergedPage_items (limit : Nat) (keys : List String) (runs : List SegmentRun) :
    (mergedPage limit keys runs).items.length =
      min limit (runs.flatMap SegmentRun.items).length := by
  have hitems : (mergedPage limit keys runs).items = (shares limit runs).flatten :=
    mergeRuns_items keys limit runs
  rw [hitems, flatten_shares, List.length_take]

theorem length_mergedPage_cursors (limit : Nat) (keys : List String) (runs : List SegmentRun) :
    (mergedPage limit keys runs).cursors.length = runs.length :=
  length_mergeRuns_cursors keys limit runs

theorem mergedPage_ending_eq_done_iff (limit : Nat) (keys : List String) (runs : List SegmentRun) :
    (mergedPage limit keys runs).ending = .done ↔
      ∀ cursor ∈ (mergedPage limit keys runs).cursors, cursor = .exhausted := by
  have hexhausted (cursor : SegmentCursor) : cursor.isExhausted = true ↔ cursor = .exhausted := by
    cases cursor <;> simp [SegmentCursor.isExhausted]
  simp only [mergedPage, ← hexhausted, ← List.all_eq_true]
  split
  next hall => simp [hall]
  next hsome => simp [hsome]

end Paging

end SchemaQuery
