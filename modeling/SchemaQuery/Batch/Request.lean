import SchemaQuery.Json.Fields

/-! # Write requests: the items of a batch -/

namespace SchemaQuery

inductive WriteRequest where
  | put (item : Record)
  | delete (key : Record)

namespace WriteRequest

/-- The item, or the key to delete. -/
def attributes : WriteRequest → Record
  | put item => item
  | delete key => key

def toJson : WriteRequest → Json
  | put item => .object [("PutRequest", .object [("Item", .object item)])]
  | delete key => .object [("DeleteRequest", .object [("Key", .object key)])]

def ofJson? : Json → Option WriteRequest
  | .object [(name, .object members)] =>
      if name = "PutRequest" then
        (Fields.required (Members.get? members) "Item" Json.object?).map put
      else if name = "DeleteRequest" then
        (Fields.required (Members.get? members) "Key" Json.object?).map delete
      else none
  | _ => none

end WriteRequest

end SchemaQuery
