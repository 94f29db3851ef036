import SchemaQuery.Paging.Page
import SchemaQuery.Store.Room

/-!
# Scanning in segments

The segments of a scan are read at the same time, each in the order of its own pages, under one
budget of rows. What one segment does falls into steps: it looks at the shared count and either
stops or sends a fetch; the page comes; the page is counted. A schedule gives turns, each for a
number of steps of one segment, and any schedule is possible. When all have stopped, the rows are
put together in the order of the segments and cut at the limit; a segment whose rows are cut resumes
after the last row kept. Without room for as many rows as the limit the scan is aborted there.
-/

namespace SchemaQuery

/-- Where a segment stands between two of its steps. -/
inductive Phase where
  | ready (cursor : Option Cursor)
  /-- A fetch has been sent and not answered. -/
  | fetching (cursor : Option Cursor)
  /-- A page has come and is not counted. -/
  | received (cursor : Option Cursor) (page : Page)
  | stopped (next : SegmentCursor)

structure SegmentRun where
  start : SegmentCursor
  items : List Record
  phase : Phase

namespace SegmentRun

def begin (position : SegmentCursor) : SegmentRun where
  start := position
  items := []
  phase := if position.isExhausted then .stopped .exhausted else .ready position.cursor?

/-- The position after a cursor; without one, the position at the start. -/
def standing (run : SegmentRun) : Option Cursor → SegmentCursor
  | some cursor => .resume cursor
  | none => run.start

/-- Where the segment would go on. -/
def next (run : SegmentRun) : SegmentCursor :=
  match run.phase with
  | .ready cursor | .fetching cursor | .received cursor _ => run.standing cursor
  | .stopped next => next

def isStopped (run : SegmentRun) : Bool :=
  match run.phase with
  | .stopped _ => true
  | _ => false

end SegmentRun

/-- Up to `steps` steps of one segment. -/
structure Turn where
  segment : Nat
  steps : Nat

/-- The turns of a scan with a number of segments. -/
abbrev Schedule := Nat → List Turn

structure Scan where
  /-- The rows counted so far over all segments. -/
  counted : Nat
  runs : List SegmentRun
  /-- The fetches sent, in order. -/
  issued : List PageRequest
  /-- The first failure; nothing happens after it. -/
  failure : Option StoreError

namespace Scan

variable {S : Type}

def begin (starts : List SegmentCursor) : Scan := ⟨0, starts.map SegmentRun.begin, [], none⟩

def request (scan : Scan) (index : Nat) (cursor : Option Cursor) : PageRequest :=
  ⟨some ⟨index, scan.runs.length⟩, cursor⟩

/-- Without a limit the budget is never spent. -/
def isSpent (scan : Scan) : Option Nat → Bool
  | some limit => decide (limit ≤ scan.counted)
  | none => false

def setRun (scan : Scan) (index : Nat) (run : SegmentRun) : Scan :=
  { scan with runs := scan.runs.set index run }

/-- One step of one segment. -/
def step (fetch : Fetch S) (limit : Option Nat) (index : Nat) (scan : Scan) (state : S) :
    Scan × S :=
  match scan.failure, scan.runs[index]? with
  | some _, _ => (scan, state)
  | none, none => (scan, state)
  | none, some run =>
      match run.phase with
      | .ready cursor =>
          if scan.isSpent limit then
            (scan.setRun index { run with phase := .stopped (run.standing cursor) }, state)
          else
            ({ scan.setRun index { run with phase := .fetching cursor } with
                issued := scan.issued ++ [scan.request index cursor] }, state)
      | .fetching cursor =>
          match fetch (scan.request index cursor) state with
          | (.ok page, state) =>
              (scan.setRun index { run with phase := .received cursor page }, state)
          | (.error error, state) => ({ scan with failure := some error }, state)
      | .received _ page =>
          let phase :=
            match page.next with
            | none => .stopped .exhausted
            | some cursor => .ready (some cursor)
          ({ scan.setRun index { run with items := run.items ++ page.items, phase } with
              counted := scan.counted + page.items.length }, state)
      | .stopped _ => (scan, state)

/-- A segment that has stopped, or is not there, has no step left; after a failure none has. -/
def isAtRest (scan : Scan) (index : Nat) : Bool :=
  scan.failure.isSome || (scan.runs[index]?.map SegmentRun.isStopped).getD true

/-- The steps of one turn. It is over as soon as its segment is at rest. -/
def turn (fetch : Fetch S) (limit : Option Nat) (index : Nat) : Nat → Scan → S → Scan × S
  | 0, scan, state => (scan, state)
  | steps + 1, scan, state =>
      if scan.isAtRest index then (scan, state)
      else
        let (scan, state) := step fetch limit index scan state
        turn fetch limit index steps scan state

/-- The turns of a schedule. -/
def run (fetch : Fetch S) (limit : Option Nat) : List Turn → Scan → S → Scan × S
  | [], scan, state => (scan, state)
  | next :: schedule, scan, state =>
      let (scan, state) := turn fetch limit next.segment next.steps scan state
      run fetch limit schedule scan state

def isFinished (scan : Scan) : Bool :=
  scan.failure.isSome || scan.runs.all SegmentRun.isStopped

end Scan

/-- The rows of a scan, and one position for each segment. -/
structure ScanPage where
  items : List Record
  cursors : List SegmentCursor
  ending : Ending

namespace Paging

variable {S : Type}

/-- Puts runs together while there is room; past the cut every segment is where it started. -/
def mergeRuns (keys : List String) : Nat → List SegmentRun → List Record × List SegmentCursor
  | _, [] => ([], [])
  | room, run :: rest =>
      if room < run.items.length then
        let kept := run.items.take room
        let cursor :=
          match kept.getLast? with
          | some row => .resume (Cursor.ofRow row keys)
          | none => run.start
        (kept, cursor :: rest.map SegmentRun.start)
      else
        let (items, cursors) := mergeRuns keys (room - run.items.length) rest
        (run.items ++ items, run.next :: cursors)

/-- The page of runs put together, where there is room for it. -/
def mergedPage (limit : Nat) (keys : List String) (runs : List SegmentRun) : ScanPage :=
  let (items, cursors) := mergeRuns keys limit runs
  ⟨items, cursors, if cursors.all SegmentCursor.isExhausted then .done else .limitReached⟩

/-- Puts runs together in a list with room for as many rows as the limit, however few there are. -/
def merge (limit : Nat) (keys : List String) (runs : List SegmentRun) :
    Except StoreError ScanPage :=
  reserving Record.bytes limit (mergedPage limit keys runs)

/-- The positions to start from: those given, one for each segment, or the start of all. -/
def starts (given : Option (List SegmentCursor)) (total : Nat) :
    Except StoreError (List SegmentCursor) :=
  if total = 0 then .error (.invalidConfig .zeroSegments)
  else
    match given with
    | none => .ok (List.replicate total .start)
    | some cursors =>
        if cursors.length = total then .ok cursors
        else .error (.invalidCursor (.segmentCount total cursors.length))

/-- One turn of the same length for each segment. -/
def inTurn (steps : Nat) : Schedule := fun total => (List.range total).map (⟨·, steps⟩)

/-- Each segment sends its first fetch; then in each round every segment takes its page, counts it
and looks at the budget again. -/
def roundRobin (rounds : Nat) : Schedule := fun total =>
  inTurn 1 total ++ (List.replicate rounds (inTurn 3 total)).flatten

/-- The steps in which a segment makes a number of fetches and stops. -/
def stepsFor (fetches : Nat) : Nat := 3 * fetches + 1

/-- What a scan came to, and the fetches it sent. -/
structure ScanRun (S α : Type) where
  outcome : Except StoreError α
  issued : List PageRequest
  state : S

/-- At most `limit` rows from the given positions on. -/
def search (fetch : Fetch S) (schedule : Schedule) (given : Option (List SegmentCursor))
    (total limit : Nat) (keys : List String) (state : S) : ScanRun S ScanPage :=
  if limit = 0 then ⟨.error (.invalidLimit limit), [], state⟩
  else
    match starts given total with
    | .error error => ⟨.error error, [], state⟩
    | .ok starts =>
        let (scan, state) := (Scan.begin starts).run fetch (some limit) (schedule total) state
        match scan.failure with
        | some error => ⟨.error error, scan.issued, state⟩
        | none => ⟨merge limit keys scan.runs, scan.issued, state⟩

/-- All rows of all segments. -/
def searchAll (fetch : Fetch S) (schedule : Schedule) (total : Nat) (state : S) :
    ScanRun S (List Record) :=
  match starts none total with
  | .error error => ⟨.error error, [], state⟩
  | .ok starts =>
      let (scan, state) := (Scan.begin starts).run fetch none (schedule total) state
      match scan.failure with
      | some error => ⟨.error error, scan.issued, state⟩
      | none => ⟨.ok (scan.runs.flatMap SegmentRun.items), scan.issued, state⟩

/-- A scan as an action; its fetches are not told. -/
def ScanRun.toAction (scan : S → ScanRun S α) : Action S α := fun state =>
  ((scan state).outcome, (scan state).state)

end Paging

end SchemaQuery
