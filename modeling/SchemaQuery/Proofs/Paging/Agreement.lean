import SchemaQuery.Proofs.Paging.Interleaving
import SchemaQuery.Paging.Sequential

/-!
# Actions that agree

Two actions may differ, but not on the states that a walk comes through. If the fetches of two walks
agree so, then the walks do: pages that are gathered one after the other, and the steps of a scan
under any turns.
-/

namespace SchemaQuery

variable {S α β : Type} {kept : S → Prop}

/-- Two actions do the same on the states that are kept, and lead to such states. -/
def Action.AgreeOn (kept : S → Prop) (action other : Action S α) : Prop :=
  ∀ state, kept state → action state = other state ∧ kept (other state).2

namespace Action.AgreeOn

theorem pure (value : α) : Action.AgreeOn kept (Pure.pure value) (Pure.pure value) :=
  fun _ hstate => ⟨rfl, hstate⟩

theorem fail (error : StoreError) :
    Action.AgreeOn kept (Action.fail error : Action S α) (Action.fail error) :=
  fun _ hstate => ⟨rfl, hstate⟩

theorem bind {action other : Action S α} {next behind : α → Action S β}
    (hfirst : Action.AgreeOn kept action other)
    (hnext : ∀ value, Action.AgreeOn kept (next value) (behind value)) :
    Action.AgreeOn kept (action >>= next) (other >>= behind) := by
  intro state hstate
  obtain ⟨hsame, hkept⟩ := hfirst state hstate
  rw [Action.bind_apply, Action.bind_apply, hsame]
  rcases hother : other state with ⟨outcome, after⟩
  rw [hother] at hkept
  cases outcome with
  | ok value => exact hnext value after hkept
  | error error => exact ⟨rfl, hkept⟩

end Action.AgreeOn

/-- The fetches of two walks. -/
def Fetch.AgreeOn (kept : S → Prop) (fetch other : Fetch S) : Prop :=
  ∀ request, Action.AgreeOn kept (fetch request) (other request)

variable {fetch other : Fetch S}

namespace Paging

theorem gather_agree (hagree : Fetch.AgreeOn kept fetch other) (limit more : Nat)
    (cursor : Option Cursor) (items : List Record) :
    Action.AgreeOn kept (gather fetch limit more cursor items)
      (gather other limit more cursor items) := by
  induction more generalizing cursor items with
  | zero =>
      rw [gather, gather]
      refine (hagree ⟨none, cursor⟩).bind fun page => ?_
      cases page.next with
      | none => exact .pure _
      | some next =>
          simp only
          split
          next => exact .pure _
          next => exact .pure _
  | succ more ih =>
      rw [gather, gather]
      refine (hagree ⟨none, cursor⟩).bind fun page => ?_
      cases page.next with
      | none => exact .pure _
      | some next =>
          simp only
          split
          next => exact .pure _
          next => exact ih (some next) _

theorem query_agree (hagree : Fetch.AgreeOn kept fetch other) (more : Nat) (start : Option Cursor)
    (limit : Nat) (keys : List String) :
    Action.AgreeOn kept (query fetch more start limit keys)
      (query other more start limit keys) := by
  rw [query, query]
  split
  next => exact .fail _
  next => exact (gather_agree hagree limit more start []).bind fun _ => .pure _

theorem drain_agree (hagree : Fetch.AgreeOn kept fetch other) (segment : Option Segment)
    (more : Nat) (cursor : Option Cursor) (items : List Record) :
    Action.AgreeOn kept (drain fetch segment more cursor items)
      (drain other segment more cursor items) := by
  induction more generalizing cursor items with
  | zero =>
      rw [drain, drain]
      refine (hagree ⟨segment, cursor⟩).bind fun page => ?_
      cases page.next with
      | none => exact .pure _
      | some next => exact .pure _
  | succ more ih =>
      rw [drain, drain]
      refine (hagree ⟨segment, cursor⟩).bind fun page => ?_
      cases page.next with
      | none => exact .pure _
      | some next => exact ih (some next) _

theorem countFrom_agree (hagree : Fetch.AgreeOn kept fetch other) (more : Nat)
    (cursor : Option Cursor) (total : Nat) :
    Action.AgreeOn kept (countFrom fetch more cursor total)
      (countFrom other more cursor total) := by
  induction more generalizing cursor total with
  | zero =>
      rw [countFrom, countFrom]
      refine (hagree ⟨none, cursor⟩).bind fun page => ?_
      cases page.next with
      | none => exact .pure _
      | some next => exact .pure _
  | succ more ih =>
      rw [countFrom, countFrom]
      refine (hagree ⟨none, cursor⟩).bind fun page => ?_
      cases page.next with
      | none => exact .pure _
      | some next => exact ih (some next) _

end Paging

namespace Scan

variable (limit : Option Nat)

theorem step_agree (hagree : Fetch.AgreeOn kept fetch other) (index : Nat) (scan : Scan) {state : S}
    (hstate : kept state) :
    step fetch limit index scan state = step other limit index scan state ∧
      kept (step other limit index scan state).2 := by
  unfold step
  split
  next => exact ⟨rfl, hstate⟩
  next => exact ⟨rfl, hstate⟩
  next run _ _ =>
    split
    next =>
      split
      next => exact ⟨rfl, hstate⟩
      next => exact ⟨rfl, hstate⟩
    next cursor _ =>
      obtain ⟨hsame, hkept⟩ := hagree (scan.request index cursor) state hstate
      rw [hsame]
      rcases hother : other (scan.request index cursor) state with ⟨outcome, after⟩
      rw [hother] at hkept
      cases outcome with
      | ok page => exact ⟨rfl, hkept⟩
      | error error => exact ⟨rfl, hkept⟩
    next => exact ⟨rfl, hstate⟩
    next => exact ⟨rfl, hstate⟩

theorem turn_agree (hagree : Fetch.AgreeOn kept fetch other) (index steps : Nat) (scan : Scan)
    {state : S} (hstate : kept state) :
    turn fetch limit index steps scan state = turn other limit index steps scan state ∧
      kept (turn other limit index steps scan state).2 := by
  induction steps generalizing scan state with
  | zero => exact ⟨rfl, hstate⟩
  | succ steps ih =>
      obtain ⟨hsame, hkept⟩ := step_agree limit hagree index scan hstate
      rw [turn_succ, turn_succ, hsame]
      split
      next => exact ⟨rfl, hstate⟩
      next => exact ih _ hkept

theorem run_agree (hagree : Fetch.AgreeOn kept fetch other) (turns : List Turn) (scan : Scan)
    {state : S} (hstate : kept state) :
    run fetch limit turns scan state = run other limit turns scan state ∧
      kept (run other limit turns scan state).2 := by
  induction turns generalizing scan state with
  | nil => exact ⟨rfl, hstate⟩
  | cons next turns ih =>
      obtain ⟨hsame, hkept⟩ := turn_agree limit hagree next.segment next.steps scan hstate
      rw [run_cons, run_cons, hsame]
      exact ih _ hkept

end Scan

namespace Paging

theorem search_agree (hagree : Fetch.AgreeOn kept fetch other) (schedule : Schedule)
    (given : Option (List SegmentCursor)) (total limit : Nat) (keys : List String) :
    Action.AgreeOn kept (ScanRun.toAction (search fetch schedule given total limit keys))
      (ScanRun.toAction (search other schedule given total limit keys)) := by
  intro state hstate
  simp only [ScanRun.toAction, search]
  split
  next => exact ⟨rfl, hstate⟩
  next =>
    cases starts given total with
    | error error => exact ⟨rfl, hstate⟩
    | ok positions =>
        obtain ⟨hsame, hkept⟩ :=
          Scan.run_agree (some limit) hagree (schedule total) (Scan.begin positions) hstate
        simp only [hsame, true_and]
        split
        next => exact hkept
        next => exact hkept

theorem searchAll_agree (hagree : Fetch.AgreeOn kept fetch other) (schedule : Schedule)
    (total : Nat) :
    Action.AgreeOn kept (ScanRun.toAction (searchAll fetch schedule total))
      (ScanRun.toAction (searchAll other schedule total)) := by
  intro state hstate
  simp only [ScanRun.toAction, searchAll]
  cases starts none total with
  | error error => exact ⟨rfl, hstate⟩
  | ok positions =>
      obtain ⟨hsame, hkept⟩ :=
        Scan.run_agree none hagree (schedule total) (Scan.begin positions) hstate
      simp only [hsame, true_and]
      split
      next => exact hkept
      next => exact hkept

end Paging

end SchemaQuery
