import SchemaQuery.Json.Record
import SchemaQuery.Store.Error

/-!
# Values at paths

A path leads through objects to a value. Setting it makes the objects that are missing on the way
and fails if something else stands there. Numbers are added as integers while the result is one of
64 bits, and as doubles otherwise. All values stand in one order, by which rows are sorted.
-/

namespace SchemaQuery

namespace Record

def getPath? (row : Record) : List String → Option Json
  | [] => none
  | field :: path => path.foldl (fun value name => value.bind (Json.get? · name)) (row.get? field)

/-- Sets a value in place: whether the walk along the path comes to its end, and the row as it
leaves it. A field that is missing on the way becomes an empty object first. -/
def assign (row : Record) (path : List String) (value : Json) :
    Except BackendFault Unit × Record :=
  match path with
  | [] => (.error .emptyPath, row)
  | [field] => (.ok (), row.set field value)
  | field :: next :: path =>
      let row := if Members.contains row field then row else Members.set row field (.object [])
      match Members.get? row field with
      | some (.object members) =>
          let (result, inner) := assign members (next :: path) value
          (result, Members.set row field (.object inner))
      | _ => (.error (.notAMap field), row)

/-- The row after a value has been set. -/
def setPath (row : Record) (path : List String) (value : Json) : Except BackendFault Record :=
  match row.assign path value with
  | (.ok (), after) => .ok after
  | (.error fault, _) => .error fault

end Record

namespace Number

/-- The sum as an integer, if both are integers of 64 bits and it is one. -/
def addInt? : Number → Number → Bool → Option Int
  | int a, int b, subtract =>
      let sum := if subtract then a - b else a + b
      if fitsInt64 a && fitsInt64 b && fitsInt64 sum then some sum else none
  | _, _, _ => none

/-- The sum or difference; nothing past the range of doubles. -/
def add? (a b : Number) (subtract : Bool) : Option Number :=
  match addInt? a b subtract with
  | some sum => some (int sum)
  | none =>
      (if subtract then a.toBinary64.sub? b.toBinary64
        else a.toBinary64.add? b.toBinary64).map float

end Number

namespace Json

/-- Adds a number to a value; no value and `null` count as zero. -/
def adjust (current : Option Json) (delta : Json) (subtract : Bool) : Except BackendFault Json :=
  let number? : Option Number :=
    match current with
    | none | some null => some (.int 0)
    | some (number n) => some n
    | some _ => none
  match number?, delta with
  | some a, number b =>
      match a.add? b subtract with
      | some sum => .ok (number sum)
      | none => .error .notNumeric
  | _, _ => .error .notNumeric

/-- No value and `null` come first, then booleans, numbers, texts, and last arrays and objects. -/
def rank : Option Json → Nat
  | none | some null => 0
  | some (bool _) => 1
  | some (number _) => 2
  | some (string _) => 3
  | some (array _) | some (object _) => 4

/-- The order of values: by rank, then in each rank by value; arrays and objects by their text. -/
def compareValues (a b : Option Json) : Ordering :=
  match a, b with
  | some (bool x), some (bool y) => compare x y
  | some (number x), some (number y) => x.compare y
  | some (string x), some (string y) => compare x y
  | a, b =>
      if rank a = 4 ∧ rank b = 4 then
        compare ((a.getD null).text) ((b.getD null).text)
      else compare (rank a) (rank b)

end Json

/-- Rows in the order of a value of theirs, equal ones as they were; or in the reverse of it. -/
def sortRows (value : Record → Option Json) (descending : Bool) (rows : List Record) :
    List Record :=
  let sorted := rows.mergeSort fun a b => Json.compareValues (value a) (value b) != .gt
  if descending then sorted.reverse else sorted

end SchemaQuery
