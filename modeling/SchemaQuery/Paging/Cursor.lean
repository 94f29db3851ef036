import SchemaQuery.Json.Fields
import SchemaQuery.Json.Record

/-!
# Cursors

A cursor holds key values of the row after which reading goes on. A scan in segments has one
position for each segment: at its start, after a row, or past its end.
-/

namespace SchemaQuery

structure Cursor where
  key : Record

namespace Cursor

/-- The key fields that the row has. -/
def ofRow (row : Record) (fields : List String) : Cursor := ⟨row.pick fields⟩

def set (cursor : Cursor) (field : String) (value : Json) : Cursor := ⟨cursor.key.set field value⟩

/-- Whether a row has every key value; a cursor without any matches nothing. -/
def pointsAt (cursor : Cursor) (row : Record) : Bool := row.hasKey cursor.key

def toJson (cursor : Cursor) : Json := .object cursor.key

def ofJson? (value : Json) : Option Cursor := value.object?.map Cursor.mk

end Cursor

inductive SegmentCursor where
  | start
  | resume (cursor : Cursor)
  | exhausted

namespace SegmentCursor

def isExhausted : SegmentCursor → Bool
  | exhausted => true
  | _ => false

/-- The cursor to read on from. -/
def cursor? : SegmentCursor → Option Cursor
  | resume cursor => some cursor
  | _ => none

/-- After a page: where it says to go on, or past the end. -/
def ofNext : Option Cursor → SegmentCursor
  | some cursor => resume cursor
  | none => exhausted

def toJson : SegmentCursor → Json
  | start => .object [("state", .string "start")]
  | resume cursor => .object [("key", cursor.toJson), ("state", .string "resume")]
  | exhausted => .object [("state", .string "exhausted")]

/-- State and key. In an array both must be there, and the state is written as a text. -/
def parts? : Json → Option (String × Json)
  | .object members => do
      let state ← Members.get? members "state"
      let name ← state.variant?
      some (name, (Members.get? members "key").getD .null)
  | .array [.string name, key] => some (name, key)
  | _ => none

/-- A segment that does not resume has no key, or the key `null`. -/
def ofJson? (value : Json) : Option SegmentCursor := do
  let (state, key) ← parts? value
  match state with
  | "start" => if key.isNull then some start else none
  | "resume" => (Cursor.ofJson? key).map resume
  | "exhausted" => if key.isNull then some exhausted else none
  | _ => none

end SegmentCursor

end SchemaQuery
