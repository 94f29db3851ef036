import SchemaQuery.Json.Basic

/-!
# Rows

A row is a record. It is addressed by the values of some of its fields, its key, and can be cut down
to some of its fields.
-/

namespace SchemaQuery.Record

/-- Those of the fields that the row has. -/
def pick (row : Record) (fields : List String) : Record :=
  Members.ofList (fields.filterMap fun field => (row.get? field).map fun value => (field, value))

/-- The row, or only some of its fields. -/
def project (row : Record) : Option (List String) → Record
  | some fields => row.pick fields
  | none => row

/-- Whether a row has every value of a key; the empty key is no row's. -/
def hasKey (row key : Record) : Bool :=
  !key.isEmpty && key.all fun (field, value) => row.get? field == some value

/-- Puts a row in the place of the first that has the key, or at the end. -/
def put (key row : Record) : List Record → List Record
  | [] => [row]
  | old :: rest => if hasKey old key then row :: rest else old :: put key row rest

/-- Equality of lists of rows, by the equality of their values. -/
def eqvAll (a b : List Record) : Bool :=
  Json.eqvItems (a.map Json.object) (b.map Json.object)

end SchemaQuery.Record
