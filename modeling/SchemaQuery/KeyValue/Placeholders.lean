import SchemaQuery.Json.Basic

/-!
# Placeholders

An expression names attributes and values by placeholders, `#` before a name and `:` before a value,
followed by letters, digits and underscores of ASCII. Two attributes never share a placeholder: a
name that is taken gets a number behind it. What is bound once stays bound.
-/

namespace SchemaQuery

namespace Placeholder

def isPlain (c : Char) : Bool :=
  ('a' ≤ c && c ≤ 'z') || ('A' ≤ c && c ≤ 'Z') || ('0' ≤ c && c ≤ '9') || c == '_'

/-- Other characters become underscores, and nothing becomes one. -/
def plain (text : String) : String :=
  if text.isEmpty then "_"
  else String.ofList (text.toList.map fun c => if isPlain c then c else '_')

/-- The placeholders tried in turn. Their numbers have 32 bits with a sign; that all of these are
taken is left out. -/
def candidate (base : String) : Nat → String
  | 0 => base
  | n + 1 => base ++ "_" ++ String.ofList (Nat.toDigits 10 (n + 1))

/-- The first candidate from number `n` on that is free or bound to the same; one of the first
`fuel` is, if `fuel` exceeds the number of bindings. -/
def bindFrom (same : α → Bool) (value : α) (base : String) (bound : Members α) :
    Nat → Nat → String × Members α
  | 0, n => (candidate base n, bound)
  | fuel + 1, n =>
      match bound.get? (candidate base n) with
      | none => (candidate base n, bound.set (candidate base n) value)
      | some old =>
          if same old then (candidate base n, bound)
          else bindFrom same value base bound fuel (n + 1)

def bind (same : α → Bool) (value : α) (base : String) (bound : Members α) :
    String × Members α :=
  bindFrom same value base bound (bound.length + 1) 0

end Placeholder

structure Placeholders where
  names : Members String
  values : Members Json

namespace Placeholders

def empty : Placeholders := ⟨[], []⟩

/-- The placeholder of an attribute. -/
def name (bound : Placeholders) (field : String) : String × Placeholders :=
  let (placeholder, names) :=
    Placeholder.bind (· == field) field ("#" ++ Placeholder.plain field) bound.names
  (placeholder, { bound with names })

def nameAll (bound : Placeholders) : List String → List String × Placeholders
  | [] => ([], bound)
  | field :: rest =>
      let (placeholder, bound) := bound.name field
      let (placeholders, bound) := bound.nameAll rest
      (placeholder :: placeholders, bound)

/-- The placeholders along a path, with points between. -/
def path (bound : Placeholders) (segments : List String) : String × Placeholders :=
  let (placeholders, bound) := bound.nameAll segments
  (String.intercalate "." placeholders, bound)

/-- The placeholder of a value, called after a hint. -/
def value (bound : Placeholders) (hint : String) (json : Json) : String × Placeholders :=
  let (placeholder, values) :=
    Placeholder.bind (· == json) json (":" ++ Placeholder.plain hint) bound.values
  (placeholder, { bound with values })

end Placeholders

end SchemaQuery
