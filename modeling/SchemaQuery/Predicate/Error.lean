import SchemaQuery.Json.Printer
import SchemaQuery.Schema.Kind

/-!
# What can stop a predicate or a change from being compiled

Those that lie in schema and sort order are mistakes of configuration, the others come with the
data of one call.
-/

namespace SchemaQuery

inductive CompileError where
  | missingIndexHashKey (index hashKey : String)
  | unknownIndex (name : String)
  | unsupportedField (field : String) (declared actual : Kind)
  | invalidDate (field : String) (value : Json)
  | missingPrimaryKey (entity : String)
  | missingKeyValue (field : String)

namespace CompileError

def code : CompileError → String
  | missingIndexHashKey .. => "COMPILE_MISSING_INDEX_HASH_KEY"
  | unknownIndex .. => "COMPILE_UNKNOWN_INDEX"
  | unsupportedField .. => "COMPILE_UNSUPPORTED_FIELD"
  | invalidDate .. => "COMPILE_INVALID_DATE"
  | missingPrimaryKey .. => "COMPILE_MISSING_PRIMARY_KEY"
  | missingKeyValue .. => "COMPILE_MISSING_KEY_VALUE"

def message : CompileError → String
  | missingIndexHashKey index hashKey =>
      "No hash key value for global index '" ++ index ++ "' (hash key: '" ++ hashKey ++ "')"
  | unknownIndex name => "Unknown sort index '" ++ name ++ "'"
  | unsupportedField field declared actual =>
      "Unsupported predicate field '" ++ field ++ "': declared " ++ declared.name ++ ", got " ++
        actual.name
  | invalidDate field value => "Invalid date bound for '" ++ field ++ "': " ++ value.text
  | missingPrimaryKey entity => "Entity '" ++ entity ++ "' declares no hash key"
  | missingKeyValue field => "Missing value for key field '" ++ field ++ "'"

def isConfiguration : CompileError → Bool
  | missingIndexHashKey .. | unknownIndex .. | missingPrimaryKey .. => true
  | _ => false

end CompileError

end SchemaQuery
