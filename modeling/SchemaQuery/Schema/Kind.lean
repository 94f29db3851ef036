import SchemaQuery.Schema.Basic

/-!
# Kinds of values

Declared types and values given at run time are brought to one scale of kinds, by which a predicate
decides what condition a value asks for.
-/

namespace SchemaQuery

inductive Kind where
  | string
  | number
  | boolean
  /-- An object with one or both of `begin` and `end`, and nothing else. -/
  | dateRange
  | map
  | list
  | unknown
  deriving DecidableEq

namespace Kind

def name : Kind → String
  | string => "String"
  | number => "Number"
  | boolean => "Boolean"
  | dateRange => "DateRange"
  | map => "Map"
  | list => "List"
  | unknown => "Unknown"

def isScalar : Kind → Bool
  | string | number | boolean => true
  | _ => false

def ofType : FieldType → Kind
  | .string => string
  | .number => number
  | .boolean => boolean
  | .date => dateRange
  | .map => map
  | .list => list

def ofValue : Json → Kind
  | .string _ => string
  | .number _ => number
  | .bool _ => boolean
  | .array _ => list
  | .null => unknown
  | .object members =>
      if !members.isEmpty && members.all (fun member => member.1 == "begin" || member.1 == "end")
      then dateRange else map

/-- A field that is not declared has no kind. -/
def ofField (schema : Schema) (field : String) : Kind :=
  match schema.field? field with
  | some descriptor => ofType descriptor.type
  | none => unknown

end Kind

end SchemaQuery
