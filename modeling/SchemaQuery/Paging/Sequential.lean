import SchemaQuery.Paging.Page

/-!
# Walking pages one after the other

Each fetch goes on from the cursor of the page before. A walk is given the number of fetches it may
make after its first, so that it ends whatever the store answers; it stops where it is if they are
used up.
-/

namespace SchemaQuery

/-- The rows of one walk, and the cursor to go on from. -/
structure QueryPage where
  items : List Record
  next : Option Cursor
  ending : Ending

namespace Paging

variable {S : Type}

/-- Fetches until the last page or until `limit` rows are held. -/
def gather (fetch : Fetch S) (limit : Nat) :
    Nat → Option Cursor → List Record → Action S (List Record × Option Cursor)
  | more, cursor, items => do
      let page ← fetch ⟨none, cursor⟩
      let items := items ++ page.items
      match page.next with
      | none => pure (items, none)
      | some next =>
          if limit ≤ items.length then pure (items, some next)
          else
            match more with
            | 0 => pure (items, some next)
            | more + 1 => gather fetch limit more (some next) items

/-- Rows past the limit are dropped; the cursor is then that of the last row kept. -/
def cut (limit : Nat) (keys : List String) (items : List Record) (next : Option Cursor) :
    QueryPage :=
  if limit < items.length then
    let kept := items.take limit
    ⟨kept, kept.getLast?.map fun row => Cursor.ofRow row keys, .limitReached⟩
  else ⟨items, next, if next.isSome then .limitReached else .done⟩

/-- At most `limit` rows after a cursor. -/
def query (fetch : Fetch S) (more : Nat) (start : Option Cursor) (limit : Nat)
    (keys : List String) : Action S QueryPage :=
  if limit = 0 then .fail (.invalidLimit limit)
  else do
    let (items, next) ← gather fetch limit more start []
    pure (cut limit keys items next)

/-- All rows, of the whole or of one segment. -/
def drain (fetch : Fetch S) (segment : Option Segment) :
    Nat → Option Cursor → List Record → Action S (List Record)
  | more, cursor, items => do
      let page ← fetch ⟨segment, cursor⟩
      let items := items ++ page.items
      match page.next with
      | none => pure items
      | some next =>
          match more with
          | 0 => pure items
          | more + 1 => drain fetch segment more (some next) items

def queryAll (fetch : Fetch S) (more : Nat) : Action S (List Record) :=
  drain fetch none more none []

/-- Counts the rows without keeping them. -/
def countFrom (fetch : Fetch S) : Nat → Option Cursor → Nat → Action S Nat
  | more, cursor, total => do
      let page ← fetch ⟨none, cursor⟩
      let total := total + page.items.length
      match page.next with
      | none => pure total
      | some next =>
          match more with
          | 0 => pure total
          | more + 1 => countFrom fetch more (some next) total

def totalCount (fetch : Fetch S) (more : Nat) : Action S Nat := countFrom fetch more none 0

end Paging

end SchemaQuery
