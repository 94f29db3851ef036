import SchemaQuery.Paging.Cursor
import SchemaQuery.Store.Action

/-!
# Pages and fetches

A store serves rows in pages; each page but the last says where the next one starts. A fetch asks
for one page, of the whole or of one segment, after a cursor.
-/

namespace SchemaQuery

structure Page where
  items : List Record
  /-- Nothing once the last row has been served. -/
  next : Option Cursor

structure Segment where
  index : Nat
  total : Nat
  deriving DecidableEq

structure PageRequest where
  segment : Option Segment
  cursor : Option Cursor

abbrev Fetch (S : Type) := PageRequest → Action S Page

/-- How a walk over pages ended. -/
inductive Ending where
  | done
  | limitReached
  deriving DecidableEq

def Ending.name : Ending → String
  | done => "done"
  | limitReached => "limit_reached"

end SchemaQuery
