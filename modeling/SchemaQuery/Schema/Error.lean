import SchemaQuery.Json.Basic

/-!
# What is wrong with a schema

Every such error is a mistake in the configuration of the program and is found when the schema is
read or registered.
-/

namespace SchemaQuery

/-- The kind of a JSON value, as error messages name it. -/
def Json.kindName : Json → String
  | null => "null"
  | bool _ => "boolean"
  | number _ => "number"
  | string _ => "string"
  | array _ => "array"
  | object _ => "object"

inductive SchemaFault where
  /-- Text that is no JSON, or a list entry that is no named field. -/
  | unreadable
  | field (name : String)
  | shape (kind : String)
  deriving DecidableEq

/-- Reasons of a reader are not told apart: a star stands for each of them. -/
def SchemaFault.message : SchemaFault → String
  | unreadable => "*"
  | field name => "field '" ++ name ++ "': *"
  | shape kind => "expected object or array, got " ++ kind

inductive SchemaError where
  | duplicateHashKey (schema first second : String)
  | duplicateRangeKey (schema first second : String)
  | hashAndRangeKey (field : String)
  | unknownIndexHashKey (field hashKey : String)
  | emptyFieldName (schema : String)
  | duplicateField (field : String)
  | malformed (schema : String) (fault : SchemaFault)
  deriving DecidableEq

namespace SchemaError

def code : SchemaError → String
  | duplicateHashKey .. => "SCHEMA_DUPLICATE_HASH_KEY"
  | duplicateRangeKey .. => "SCHEMA_DUPLICATE_RANGE_KEY"
  | hashAndRangeKey .. => "SCHEMA_HASH_AND_RANGE_KEY"
  | unknownIndexHashKey .. => "SCHEMA_UNKNOWN_INDEX_HASH_KEY"
  | emptyFieldName .. => "SCHEMA_EMPTY_FIELD_NAME"
  | duplicateField .. => "SCHEMA_DUPLICATE_FIELD"
  | malformed .. => "SCHEMA_MALFORMED"

def message : SchemaError → String
  | duplicateHashKey schema first second =>
      "Schema '" ++ schema ++ "' declares more than one hash key: '" ++ first ++ "' and '" ++
        second ++ "'"
  | duplicateRangeKey schema first second =>
      "Schema '" ++ schema ++ "' declares more than one range key: '" ++ first ++ "' and '" ++
        second ++ "'"
  | hashAndRangeKey field => "Field '" ++ field ++ "' cannot be both hash key and range key"
  | unknownIndexHashKey field hashKey =>
      "Global index on '" ++ field ++ "' references undeclared hash key '" ++ hashKey ++ "'"
  | emptyFieldName schema => "Schema '" ++ schema ++ "' contains an empty field name"
  | duplicateField field => "Field '" ++ field ++ "' is declared more than once"
  | malformed schema fault => "Malformed schema '" ++ schema ++ "': " ++ fault.message

end SchemaError

end SchemaQuery
