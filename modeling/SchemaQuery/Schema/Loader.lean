import SchemaQuery.Json.Reader
import SchemaQuery.Schema.Entity

/-!
# Schemas in JSON

A schema is written as an object of descriptors, whose fields come in the order of their names, or
as a list of descriptors with names, whose order is kept. A list must not name a field twice.
-/

namespace SchemaQuery

/-- In a list entry the type may also be given with an empty object for content. -/
def FieldType.ofEntry? : Json → Option FieldType
  | .object [(name, .object [])] => FieldType.ofName? name
  | value => FieldType.ofJson? value

namespace Schema

def ofMembers (schema : Schema) : Record → Except SchemaError Schema
  | [] => .ok schema
  | (field, value) :: rest =>
      match FieldDescriptor.ofJson? value with
      | some descriptor => (schema.withField field descriptor).ofMembers rest
      | none => .error (.malformed schema.name (.field field))

def entry? : Json → Option (String × FieldDescriptor)
  | .object members => do
      let name ← Fields.required (Members.get? members) "name" Json.string?
      let descriptor ← FieldDescriptor.ofFields? FieldType.ofEntry? (Members.get? members)
      some (name, descriptor)
  | _ => none

def ofEntries (schema : Schema) : List Json → Except SchemaError Schema
  | [] => .ok schema
  | value :: rest =>
      match entry? value with
      | none => .error (.malformed schema.name .unreadable)
      | some (field, descriptor) =>
          if (schema.field? field).isSome then .error (.duplicateField field)
          else (schema.withField field descriptor).ofEntries rest

/-- The schema as written, checked like a registered one. -/
def ofJson (name : String) (value : Json) : Except SchemaError Schema := do
  let schema ←
    match value with
    | .object members => (empty name).ofMembers members
    | .array items => (empty name).ofEntries items
    | other => .error (.malformed name (.shape other.kindName))
  match schema.firstFault? with
  | some error => .error error
  | none => .ok schema

def ofText (name text : String) : Except SchemaError Schema :=
  match Json.ofText? text with
  | some value => ofJson name value
  | none => .error (.malformed name .unreadable)

end Schema

end SchemaQuery
