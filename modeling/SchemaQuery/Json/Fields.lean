import SchemaQuery.Json.Basic

/-!
# Reading structures and variants

A structure is an object whose members are its fields, or an array of its fields in order. Members
of other names are ignored; an array may end early but not hold more than there are fields. A
variant without content is its name, or an object with that one name and `null`.
-/

namespace SchemaQuery

/-- The fields of a structure, as far as they are given. -/
abbrev Fields := String → Option Json

namespace Fields

/-- A field that must be there. -/
def required (fields : Fields) (name : String) (read : Json → Option α) : Option α :=
  (fields name).bind read

/-- A field with a value of its own when absent; `null` is not absence. -/
def withDefault (fields : Fields) (name : String) (read : Json → Option α) (absent : α) :
    Option α :=
  match fields name with
  | none => some absent
  | some value => read value

/-- A field for which `null` is absence. -/
def optional (fields : Fields) (name : String) (read : Json → Option α) : Option (Option α) :=
  match fields name with
  | none => some none
  | some .null => some none
  | some value => (read value).map some

end Fields

namespace Json

def fields? (names : List String) : Json → Option Fields
  | object members => some (Members.get? members)
  | array items =>
      if items.length ≤ names.length then some fun name => (names.zip items).lookup name else none
  | _ => none

/-- The name of a variant without content. -/
def variant? : Json → Option String
  | string name => some name
  | object [(name, null)] => some name
  | _ => none

def bounded? (limit : Nat) : Json → Option Nat
  | number (.int (.ofNat n)) => if n < limit then some n else none
  | _ => none

def uint32? (value : Json) : Option UInt32 := (value.bounded? UInt32.size).map .ofNat

def uint64? (value : Json) : Option UInt64 := (value.bounded? UInt64.size).map .ofNat

def optional? (read : Json → Option α) : Json → Option (Option α)
  | null => some none
  | value => (read value).map some

def listOf? (read : Json → Option α) : Json → Option (List α)
  | array items => items.mapM read
  | _ => none

def strings? : Json → Option (List String) := listOf? string?

/-- An object whose members are all texts. -/
def texts? : Json → Option (List (String × String))
  | object members => members.mapM fun (name, value) => (string? value).map fun text => (name, text)
  | _ => none

end Json

end SchemaQuery
