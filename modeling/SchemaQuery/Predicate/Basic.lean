import SchemaQuery.Json.Fields

/-!
# Predicates and how they are read

A predicate gives wanted values by field name. What a value asks for depends on the declared type of
its field: a scalar asks for equality, a list for one of its items, an object with `begin` and `end`
for a range of dates, any other object for each of its leaves, and on a list field a text asks for
an item, or with the negation mark in front for its absence.
-/

namespace SchemaQuery

structure Predicate where
  wanted : Record

namespace Predicate

/-- A text behind this mark asks a list field not to contain it. -/
def negationMark : Char := '!'

/-- A field of this name is ignored; it also names the attribute that no row has. -/
def reservedField : String := "dummy"

def empty : Predicate := ⟨[]⟩

def equal (predicate : Predicate) (field : String) (value : Json) : Predicate :=
  ⟨predicate.wanted.set field value⟩

def oneOf (predicate : Predicate) (field : String) (values : List Json) : Predicate :=
  predicate.equal field (.array values)

def between (predicate : Predicate) (field : String) (first last : Json) : Predicate :=
  predicate.equal field (.object [("begin", first), ("end", last)])

def lacks (predicate : Predicate) (field text : String) : Predicate :=
  predicate.equal field (.string (String.ofList (negationMark :: text.toList)))

def toJson (predicate : Predicate) : Json := .object predicate.wanted

def ofJson? (value : Json) : Option Predicate := value.object?.map Predicate.mk

end Predicate

/-- How the conditions of one side are joined. -/
inductive Junction where
  | and
  | or
  deriving DecidableEq

namespace Junction

def keyword : Junction → String
  | and => "and"
  | or => "or"

def toJson (junction : Junction) : Json := .string junction.keyword

def ofJson? (value : Json) : Option Junction :=
  value.variant?.bind fun name => [and, or].find? fun junction => junction.keyword == name

end Junction

/-- Whether a text field must equal the wanted text or contain it. -/
inductive TextMatch where
  | equal
  | substring
  deriving DecidableEq

namespace TextMatch

def name : TextMatch → String
  | equal => "eq"
  | substring => "contains"

def toJson (mode : TextMatch) : Json := .string mode.name

def ofJson? (value : Json) : Option TextMatch :=
  value.variant?.bind fun name => [equal, substring].find? fun mode => mode.name == name

end TextMatch

/-- A query narrows the rows read by their keys; a scan reads all and filters. -/
inductive Lookup where
  | query
  | scan
  deriving DecidableEq

namespace Lookup

def name : Lookup → String
  | query => "query"
  | scan => "scan"

def toJson (lookup : Lookup) : Json := .string lookup.name

def ofJson? (value : Json) : Option Lookup :=
  value.variant?.bind fun name => [query, scan].find? fun lookup => lookup.name == name

end Lookup

/-- An index to read by, and the direction. -/
structure SortOrder where
  index : String
  descending : Bool := false
  deriving DecidableEq

namespace SortOrder

def toJson (sort : SortOrder) : Json :=
  .object [("descending", .bool sort.descending), ("index", .string sort.index)]

def ofJson? (value : Json) : Option SortOrder := do
  let fields ← value.fields? ["index", "descending"]
  let index ← fields.required "index" Json.string?
  let descending ← fields.withDefault "descending" Json.bool? false
  some { index, descending }

end SortOrder

structure Options where
  junction : Junction := .and
  textMatch : TextMatch := .equal
  sort : Option SortOrder := none
  lookup : Lookup := .query
  /-- Refuse a field whose value does not suit its type, where otherwise it is passed over. -/
  strict : Bool := false
  pageSize : Option UInt32 := none

end SchemaQuery
