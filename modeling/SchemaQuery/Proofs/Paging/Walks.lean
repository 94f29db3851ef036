import Mathlib.Data.List.Perm.Subperm
import SchemaQuery.Proofs.Paging.Agreement
import SchemaQuery.Proofs.Paging.Limits
import SchemaQuery.Proofs.Paging.ScanWalk

/-!
# Walks of searches

A walk calls a search with one limit after the other, from the positions that the call before has
given back, until a call is the last one. Its pages are those of a segmented walk. Put together they
hold no more than the rows, and all of them once there was a last call, in another order: page by
page instead of segment by segment.
-/

namespace SchemaQuery

variable {S : Type} {fetch : Fetch S} {source : Nat → Source} {total : Nat} {keys : List String}

namespace Paging

theorem walk_agree {kept : S → Prop} {query other : Option Cursor → Nat → Action S QueryPage}
    (hagree : ∀ cursor limit, Action.AgreeOn kept (query cursor limit) (other cursor limit))
    (limits : List Nat) (cursor : Option Cursor) :
    Action.AgreeOn kept (walk query limits cursor) (walk other limits cursor) := by
  induction limits generalizing cursor with
  | nil => exact .pure []
  | cons limit limits ih =>
      rw [walk, walk]
      refine (hagree cursor limit).bind fun page => ?_
      cases page.next with
      | none => exact .pure [page]
      | some next => exact (ih (some next)).bind fun pages => .pure (page :: pages)

/-- One page after the other, each with its limit and from the positions of the one before, until
one is the last. -/
def searchWalk (search : Option (List SegmentCursor) → Nat → Action S ScanPage) :
    List Nat → Option (List SegmentCursor) → Action S (List ScanPage)
  | [], _ => pure []
  | limit :: limits, given => do
      let page ← search given limit
      match page.ending with
      | .done => pure [page]
      | .limitReached => do
          let pages ← searchWalk search limits (some page.cursors)
          pure (page :: pages)

theorem searchWalk_agree {kept : S → Prop}
    {search other : Option (List SegmentCursor) → Nat → Action S ScanPage}
    (hagree : ∀ given limit, Action.AgreeOn kept (search given limit) (other given limit))
    (limits : List Nat) (given : Option (List SegmentCursor)) :
    Action.AgreeOn kept (searchWalk search limits given) (searchWalk other limits given) := by
  induction limits generalizing given with
  | nil => exact .pure []
  | cons limit limits ih =>
      rw [searchWalk, searchWalk]
      refine (hagree given limit).bind fun page => ?_
      cases page.ending with
      | done => exact .pure [page]
      | limitReached => exact (ih (some page.cursors)).bind fun pages => .pure (page :: pages)

/-- Each segment in turn, with steps for one fetch more than the limit has rows. -/
def searchInTurn (fetch : Fetch S) (total : Nat) (keys : List String)
    (given : Option (List SegmentCursor)) (limit : Nat) : Action S ScanPage :=
  ScanRun.toAction (search fetch (inTurn (stepsFor (limit + 1))) given total limit keys)

end Paging

namespace ScanWalk

/-- The walk with some limits, each segment in turn. -/
def inTurn (fetch : Fetch S) (total : Nat) (keys : List String) (limits : List Nat) (state : S) :
    ScanWalk S where
  fetch
  total
  keys
  limits n := limits.getD n 1
  schedules n := Paging.inTurn (Paging.stepsFor (limits.getD n 1 + 1))
  state

variable {limits : List Nat} {state : S}

theorem inTurn_isLimit (hlimits : ∀ limit ∈ limits, Paging.IsLimit limit) (n : Nat) :
    Paging.IsLimit ((inTurn fetch total keys limits state).limits n) := by
  change Paging.IsLimit (limits.getD n 1)
  rw [List.getD_eq_getElem?_getD]
  cases hlimit : limits[n]? with
  | none => exact ⟨Nat.one_pos, by decide⟩
  | some limit => exact hlimits limit (List.mem_of_getElem? hlimit)

theorem inTurn_isFinished (hserved : Source.SegmentsServed source fetch total) {n : Nat}
    (hn : (inTurn fetch total keys limits state).Consistent source n) :
    ((inTurn fetch total keys limits state).scan n).isFinished = true := by
  have hlength := hn.length_positions
  refine Scan.run_isFinished_of_limit (hlength.symm ▸ hserved) hn.placed (fun index hindex => ?_) _
  rw [hlength] at hindex
  refine Nat.le_trans ?_ (Nat.le_of_eq (Turn.stepsOf_inTurn _ hindex).symm)
  simp only [Paging.stepsFor, inTurn]
  omega

theorem inTurn_consistent (htotal : 0 < total)
    (hserved : Source.SegmentsServed source fetch total)
    (hkeyed : ∀ index < total, (source index).Keyed keys)
    (hlimits : ∀ limit ∈ limits, Paging.IsLimit limit) (n : Nat) :
    (inTurn fetch total keys limits state).Consistent source n := by
  induction n with
  | zero => exact consistent_zero htotal
  | succ n ih =>
      exact ih.succ hserved hkeyed (inTurn_isLimit hlimits n) (inTurn_isFinished hserved ih)

/-- A call of the walk, and where the next one begins. -/
theorem Consistent.searchInTurn_eq (hserved : Source.SegmentsServed source fetch total)
    (hlimits : ∀ limit ∈ limits, Paging.IsLimit limit) {n limit : Nat}
    (hlimit : limits[n]? = some limit)
    (hn : (inTurn fetch total keys limits state).Consistent source n) :
    let walk := inTurn fetch total keys limits state
    Paging.searchInTurn fetch total keys (walk.given n).1 limit (walk.given n).2 =
      (.ok (walk.page n), (walk.given (n + 1)).2) ∧
    (walk.given (n + 1)).1 = some (walk.page n).cursors := by
  intro walk
  have hgiven : walk.limits n = limit := by
    change limits.getD n 1 = limit
    rw [List.getD_eq_getElem?_getD, hlimit]
    rfl
  have hcall : (walk.call n).outcome = .ok (walk.page n) :=
    (hn.call_eq hserved (inTurn_isLimit hlimits n)).1
  have hrun : Paging.searchInTurn fetch total keys (walk.given n).1 limit (walk.given n).2 =
      ((walk.call n).outcome, (walk.call n).state) := by
    rw [← hgiven]
    rfl
  have hnext : walk.given (n + 1) = (some (walk.page n).cursors, (walk.call n).state) := by
    rw [call] at hcall
    simp only [given, hcall]
    rfl
  rw [hrun, hcall, hnext]
  exact ⟨rfl, rfl⟩

/-- The pages of a walk, from one of its calls on. All but the last are not the last one, and if
there are fewer than limits, the last is. -/
theorem searchWalk_eq (htotal : 0 < total) (hserved : Source.SegmentsServed source fetch total)
    (hkeyed : ∀ index < total, (source index).Keyed keys)
    (hlimits : ∀ limit ∈ limits, Paging.IsLimit limit) {rest : List Nat} {n : Nat}
    (hrest : limits.drop n = rest) :
    let walk := inTurn fetch total keys limits state
    ∃ m after, Paging.searchWalk (Paging.searchInTurn fetch total keys) rest (walk.given n).1
        (walk.given n).2 = (.ok ((List.range m).map fun k => walk.page (n + k)), after) ∧
      (∀ k, k + 1 < m → (walk.page (n + k)).ending ≠ .done) ∧
      (m = rest.length ∨ ∃ k, m = k + 1 ∧ (walk.page (n + k)).ending = .done) := by
  intro walk
  induction rest generalizing n with
  | nil => exact ⟨0, (walk.given n).2, rfl, fun k hk => absurd hk (Nat.not_lt_zero _), Or.inl rfl⟩
  | cons limit rest ih =>
      have hlimit : limits[n]? = some limit := by
        rw [← List.head?_drop, hrest]
        rfl
      have hdrop : limits.drop (n + 1) = rest := by
        rw [← List.drop_drop, hrest]
        rfl
      have hn : walk.Consistent source n := inTurn_consistent htotal hserved hkeyed hlimits n
      have hcall : Paging.searchInTurn fetch total keys (walk.given n).1 limit (walk.given n).2 =
          (.ok (walk.page n), (walk.given (n + 1)).2) :=
        (hn.searchInTurn_eq hserved hlimits hlimit).1
      have hgiven : (walk.given (n + 1)).1 = some (walk.page n).cursors :=
        (hn.searchInTurn_eq hserved hlimits hlimit).2
      rw [Paging.searchWalk, Action.bind_apply, hcall]
      cases hending : (walk.page n).ending with
      | done =>
          refine ⟨1, (walk.given (n + 1)).2, ?_, fun k hk => by omega, Or.inr ⟨0, rfl, hending⟩⟩
          simp only [hending]
          rfl
      | limitReached =>
          obtain ⟨m, after, hwalk, hgoing, hend⟩ := ih hdrop
          rw [hgiven] at hwalk
          have hshift (k : Nat) : n + 1 + k = n + (k + 1) := by omega
          simp only [hshift] at hwalk hgoing hend
          refine ⟨m + 1, after, ?_, fun k hk => ?_, ?_⟩
          · simp only [hending, Action.bind_apply, hwalk, Action.pure_apply]
            rw [List.range_succ_eq_map, List.map_cons, List.map_map]
            rfl
          · cases k with
            | zero =>
                rw [Nat.add_zero, hending]
                exact fun heq => by cases heq
            | succ k => exact hgoing k (Nat.lt_of_succ_lt_succ hk)
          · rcases hend with rfl | ⟨k, rfl, hdone⟩
            · exact Or.inl rfl
            · exact Or.inr ⟨k + 1, rfl, hdone⟩

theorem flatMap_sublist {α β : Type} {f g : α → List β} {entries : List α}
    (hall : ∀ entry ∈ entries, (f entry).Sublist (g entry)) :
    (entries.flatMap f).Sublist (entries.flatMap g) := by
  induction entries with
  | nil => exact .slnil
  | cons entry rest ih =>
      obtain ⟨hentry, hrest⟩ := List.forall_mem_cons.mp hall
      rw [List.flatMap_cons, List.flatMap_cons]
      exact hentry.append (ih hrest)

/-- The pages of some calls hold what the segments have contributed to them. -/
theorem pages_perm_read (hserved : Source.SegmentsServed source fetch total)
    (hall : ∀ n, (inTurn fetch total keys limits state).Consistent source n) (m : Nat) :
    let walk := inTurn fetch total keys limits state
    (((List.range m).map walk.page).flatMap ScanPage.items).Perm
      ((List.range total).flatMap (walk.read m)) := by
  intro walk
  induction m with
  | zero =>
      have hnil : (List.range total).flatMap (walk.read 0) = [] :=
        List.flatMap_eq_nil_iff.mpr fun _ _ => rfl
      rw [hnil]
      exact .refl _
  | succ m ih =>
      have hread : walk.read (m + 1) = fun index => walk.read m index ++ walk.share m index := by
        funext index
        exact walk.read_succ m index
      have hitems : (walk.page m).items = (List.range total).flatMap (walk.share m) :=
        (hall m).page_items hserved
      rw [List.range_succ, List.map_append, List.flatMap_append, hread, List.map_singleton,
        List.flatMap_singleton, hitems]
      exact (ih.append_right _).trans (List.flatMap_append_perm ..)

end ScanWalk

namespace Paging

/-- A walk of searches never fails. Its pages hold each row at most once, and every row once one of
them is the last; that is so after as many limits as there are rows and one more. -/
theorem searchWalk_perm (htotal : 0 < total)
    (hserved : Source.SegmentsServed source fetch total)
    (hkeyed : ∀ index < total, (source index).Keyed keys) {limits : List Nat}
    (hlimits : ∀ limit ∈ limits, IsLimit limit) (state : S) :
    let rows := (List.range total).flatMap fun index => (source index).rows
    ∃ pages after, searchWalk (searchInTurn fetch total keys) limits none state =
        (.ok pages, after) ∧
      (pages.flatMap ScanPage.items).Subperm rows ∧
      ((∃ page ∈ pages, page.ending = .done) → (pages.flatMap ScanPage.items).Perm rows) ∧
      (rows.length < limits.length → ∃ page ∈ pages, page.ending = .done) := by
  intro rows
  let walk := ScanWalk.inTurn fetch total keys limits state
  have hall (n : Nat) : walk.Consistent source n :=
    ScanWalk.inTurn_consistent htotal hserved hkeyed hlimits n
  have hends (n : Nat) : (walk.scan n).isFinished = true :=
    ScanWalk.inTurn_isFinished hserved (hall n)
  have hpos (n : Nat) : 0 < walk.limits n := (ScanWalk.inTurn_isLimit hlimits n).1
  obtain ⟨m, after, hwalk, hgoing, hend⟩ : ∃ m after,
      searchWalk (searchInTurn fetch total keys) limits none state =
        (.ok ((List.range m).map fun k => walk.page (0 + k)), after) ∧
      (∀ k, k + 1 < m → (walk.page (0 + k)).ending ≠ .done) ∧
      (m = limits.length ∨ ∃ k, m = k + 1 ∧ (walk.page (0 + k)).ending = .done) :=
    ScanWalk.searchWalk_eq htotal hserved hkeyed hlimits List.drop_zero
  simp only [Nat.zero_add] at hwalk hgoing hend
  have hperm : (((List.range m).map walk.page).flatMap ScanPage.items).Perm
      ((List.range total).flatMap (walk.read m)) := ScanWalk.pages_perm_read hserved hall m
  refine ⟨_, after, hwalk, ?_, ?_, fun hlength => ?_⟩
  · refine hperm.subperm.trans (List.Sublist.subperm (ScanWalk.flatMap_sublist ?_))
    intro index hindex
    exact ((hall m).isPrefix_read index (List.mem_range.mp hindex)).sublist
  · rintro ⟨page, hmem, hdone⟩
    obtain ⟨k, hk, rfl⟩ := List.mem_map.mp hmem
    obtain rfl : m = k + 1 := by
      have hlast : ¬ k + 1 < m := fun hlt => hgoing k hlt hdone
      have := List.mem_range.mp hk
      omega
    refine hperm.trans (List.Perm.of_eq ?_)
    change _ = (List.range total).flatMap fun index => (source index).rows
    rw [List.flatMap_def, List.flatMap_def]
    exact congrArg List.flatten (List.map_congr_left fun index hindex =>
      (hall k).read_of_done hserved (hends k) hdone (List.mem_range.mp hindex))
  · rcases hend with rfl | ⟨k, rfl, hdone⟩
    · obtain ⟨n, hn, hdone⟩ := ScanWalk.exists_done hserved hpos hends hall
      have hleft : walk.left source 0 = rows.length := rfl
      exact ⟨walk.page n, List.mem_map.mpr ⟨n, List.mem_range.mpr (by omega), rfl⟩, hdone⟩
    · exact ⟨walk.page k, List.mem_map.mpr ⟨k, List.mem_range.mpr (Nat.lt_succ_self k), rfl⟩, hdone⟩

end Paging

end SchemaQuery
