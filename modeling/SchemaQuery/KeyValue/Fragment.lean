import SchemaQuery.KeyValue.Placeholders
import SchemaQuery.Predicate.Basic

/-!
# Fragments of key-value expressions

A caller may add conditions of its own, written as expressions, with the placeholders they use.
-/

namespace SchemaQuery.KeyValue

structure Fragment where
  tableName : Option String := none
  keyConditions : List String := []
  filters : List String := []
  /-- How the filters are joined with each other and with the compiled filter. -/
  junction : Junction := .and
  /-- The attributes to return; all if there is none. -/
  projection : List String := []
  names : Members String := []
  values : Members Json := []

/-- Expressions with a keyword between. -/
def joinWith (keyword : String) (parts : List String) : String :=
  String.intercalate (" " ++ keyword ++ " ") parts

def parenthesized (text : String) : String := "(" ++ text ++ ")"

namespace Fragment

def placeholders (fragment : Fragment) : Placeholders := ⟨fragment.names, fragment.values⟩

/-- Own expressions before a compiled one. -/
def prepend (own : List String) (keyword : String) (compiled : Option String) : Option String :=
  if own.isEmpty then compiled
  else
    match compiled with
    | some compiled =>
        some (joinWith keyword own ++ " " ++ keyword ++ " " ++ parenthesized compiled)
    | none => some (joinWith keyword own)

def mergeKeyCondition (fragment : Fragment) (compiled : Option String) : Option String :=
  prepend fragment.keyConditions "and" compiled

def mergeFilter (fragment : Fragment) (compiled : Option String) : Option String :=
  prepend fragment.filters fragment.junction.keyword compiled

def textsToJson (texts : Members String) : Json :=
  .object (texts.map fun (name, text) => (name, .string text))

def toJson (fragment : Fragment) : Json :=
  .object [
    ("comparison", fragment.junction.toJson),
    ("filter_expressions", .strings fragment.filters),
    ("key_conditions", .strings fragment.keyConditions),
    ("names", textsToJson fragment.names),
    ("projection", .strings fragment.projection),
    ("table_name", .ofOption .string fragment.tableName),
    ("values", .object fragment.values)]

def fieldNames : List String :=
  ["table_name", "key_conditions", "filter_expressions", "comparison", "projection", "names",
    "values"]

def ofJson? (value : Json) : Option Fragment := do
  let fields ← value.fields? fieldNames
  let tableName ← fields.optional "table_name" Json.string?
  let keyConditions ← fields.withDefault "key_conditions" Json.strings? []
  let filters ← fields.withDefault "filter_expressions" Json.strings? []
  let junction ← fields.withDefault "comparison" Junction.ofJson? .and
  let projection ← fields.withDefault "projection" Json.strings? []
  let names ← fields.withDefault "names" Json.texts? []
  let values ← fields.withDefault "values" Json.object? []
  some ⟨tableName, keyConditions, filters, junction, projection, names, values⟩

end Fragment

end SchemaQuery.KeyValue
