import SchemaQuery.Document.Query
import SchemaQuery.Store.ChangeSet

/-!
# Updates of a document

A change-set replaces the fields that are no keys in the document that its keys address; an
increment adds to the value at a path.
-/

namespace SchemaQuery

/-- The key values that address a document; `null` is none. -/
def Entity.uniqueKey (entity : Entity) (row : Record) : Except CompileError Record := do
  let fields ← entity.keyFields
  Record.keyOf (row.filter fun (_, value) => !value.isNull) fields

namespace Document

structure Update where
  filter : Record
  set : Record := []
  inc : Record := []
  /-- Create the document if there is none. -/
  upsert : Bool := false

namespace Update

/-- Replaces the fields that do not address the document, `null` and `{}` and what would make a
locally indexed field empty left out. -/
def build (entity : Entity) (changes : Record) : Except CompileError Update := do
  let filter ← entity.uniqueKey changes
  let set := changes.filter fun (field, value) =>
    !Members.contains filter field && !value.isBlank && !entity.layout.blanksIndex field value
  .ok { filter, set }

def increment (filter : Record) (path : List String) (delta : Json) : Update :=
  { filter, inc := [(String.intercalate "." path, delta)] }

def upserting (update : Update) : Update := { update with upsert := true }

def toJson (update : Update) : Json :=
  .object (
    (if update.inc.isEmpty then [] else [("$inc", .object update.inc)]) ++
    (if update.set.isEmpty then [] else [("$set", .object update.set)]))

end Update

end Document

end SchemaQuery
