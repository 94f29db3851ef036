import SchemaQuery.Schema.Basic
import SchemaQuery.Schema.Error

/-!
# Registered schemas

A schema may be registered if no field name is empty, no field is hash and range key at once, there
is at most one of each, and the hash key of every global index is a declared field. The check goes
through the fields in their order and reports the first fault it meets; an entity carries the fact
that there was none.
-/

namespace SchemaQuery

namespace Schema

/-- The first fault among the fields, given the hash and range key met so far. -/
def fault? (schema : Schema) :
    Option String → Option String → List (String × FieldDescriptor) → Option SchemaError
  | _, _, [] => none
  | hashKey, rangeKey, (name, descriptor) :: rest =>
      if name = "" then some (.emptyFieldName schema.name)
      else if descriptor.isHashKey ∧ descriptor.isRangeKey then some (.hashAndRangeKey name)
      else
        match (if descriptor.isHashKey then hashKey else none),
          (if descriptor.isRangeKey then rangeKey else none) with
        | some first, _ => some (.duplicateHashKey schema.name first name)
        | none, some first => some (.duplicateRangeKey schema.name first name)
        | none, none =>
            match descriptor.globalIndex with
            | some indexKey =>
                if (schema.field? indexKey).isSome then
                  schema.fault? (if descriptor.isHashKey then some name else hashKey)
                    (if descriptor.isRangeKey then some name else rangeKey) rest
                else some (.unknownIndexHashKey name indexKey)
            | none =>
                schema.fault? (if descriptor.isHashKey then some name else hashKey)
                  (if descriptor.isRangeKey then some name else rangeKey) rest

def firstFault? (schema : Schema) : Option SchemaError := schema.fault? none none schema.fields

end Schema

structure Entity where
  schema : Schema
  valid : schema.firstFault? = none

namespace Entity

def register (schema : Schema) : Except SchemaError Entity :=
  match h : schema.firstFault? with
  | some error => .error error
  | none => .ok ⟨schema, h⟩

def name (entity : Entity) : String := entity.schema.name

end Entity

end SchemaQuery
