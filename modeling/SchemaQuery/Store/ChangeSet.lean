import SchemaQuery.Predicate.Error
import SchemaQuery.Schema.Layout

/-!
# Change-sets

A write is given as a row of fields to change. Its key fields address the row to be changed; of the
others, `null` and `{}` are dropped, and a locally indexed field is not made empty.
-/

namespace SchemaQuery

/-- A text that would make a locally indexed field empty. -/
def Layout.blanksIndex (layout : Layout) (field : String) : Json → Bool
  | .string s => s == "" && layout.isLocallyIndexed field
  | _ => false

/-- A change-set without what is blank. -/
def Record.withoutBlanks (changes : Record) : Record :=
  changes.filter fun (_, value) => !value.isBlank

/-- The key of a row, by the fields that make it up. -/
def Record.keyOf (row : Record) : List String → Except CompileError Record
  | [] => .ok []
  | field :: rest =>
      match row.get? field with
      | none => .error (.missingKeyValue field)
      | some value =>
          match row.keyOf rest with
          | .ok key => .ok (key.set field value)
          | .error error => .error error

/-- The primary key fields, if there is a hash key. -/
def Entity.keyFields (entity : Entity) : Except CompileError (List String) :=
  match entity.layout.hashKey with
  | none => .error (.missingPrimaryKey entity.name)
  | some _ => .ok entity.layout.primaryKeys

/-- The fields of a change-set that an update assigns, among those that are not blank. -/
def Layout.assigned (layout : Layout) (changes : Record) : Record :=
  changes.filter fun (field, value) =>
    !layout.primaryKeys.contains field && !layout.blanksIndex field value

end SchemaQuery
