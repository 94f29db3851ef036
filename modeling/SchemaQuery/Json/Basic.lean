import SchemaQuery.Json.Binary64

/-!
# JSON values

An object is a list of members in ascending order of name, each name once; `Record.set` keeps it
so. Integers and doubles are different values even where they denote the same number, and
`==` is the equality the stores use: it tells them apart, and identifies the two zeros.
-/

namespace SchemaQuery

/-- Integers are those of 64 bits, from `-2 ^ 63` to `2 ^ 64 - 1`; the reader makes no others. -/
inductive Number where
  | int (value : Int)
  | float (value : Binary64)
  deriving DecidableEq

namespace Number

def toBinary64 : Number → Binary64
  | int n => Binary64.ofInt n
  | float x => x

/-- Comparison as doubles. -/
def compare (a b : Number) : Ordering := a.toBinary64.compare b.toBinary64

instance : BEq Number where
  beq
    | int a, int b => a == b
    | float x, float y => x == y
    | _, _ => false

end Number

/-- Whether an integer is one of 64 bits with a sign. -/
def fitsInt64 (n : Int) : Bool := 
  decide (-9223372036854775808 ≤ n ∧ n ≤ 9223372036854775807)

inductive Json where
  | null
  | bool (value : Bool)
  | number (value : Number)
  | string (value : String)
  | array (items : List Json)
  | object (members : List (String × Json))
  deriving Inhabited

/-- Values by name, in ascending order of name. -/
abbrev Members (α : Type) := List (String × α)

/-- The members of an object. -/
abbrev Record := Members Json

namespace Json

mutual

def eqv : Json → Json → Bool
  | null, null => true
  | bool a, bool b => a == b
  | number a, number b => a == b
  | string a, string b => a == b
  | array a, array b => eqvItems a b
  | object a, object b => eqvMembers a b
  | _, _ => false

def eqvItems : List Json → List Json → Bool
  | [], [] => true
  | a :: as, b :: bs => eqv a b && eqvItems as bs
  | _, _ => false

def eqvMembers : List (String × Json) → List (String × Json) → Bool
  | [], [] => true
  | (k, a) :: as, (l, b) :: bs => k == l && eqv a b && eqvMembers as bs
  | _, _ => false

end

instance : BEq Json := ⟨eqv⟩

def int (n : Int) : Json := number (.int n)

def nat (n : Nat) : Json := int n

def strings (items : List String) : Json := array (items.map string)

def records (items : List Record) : Json := array (items.map object)

/-- A missing value is written `null`. -/
def ofOption (f : α → Json) : Option α → Json
  | some a => f a
  | none => null

def isNull : Json → Bool
  | null => true
  | _ => false

def string? : Json → Option String
  | string s => some s
  | _ => none

def bool? : Json → Option Bool
  | bool b => some b
  | _ => none

def array? : Json → Option (List Json)
  | array items => some items
  | _ => none

def object? : Json → Option Record
  | object members => some members
  | _ => none

/-- An integer, whatever its size; a double is none. -/
def int? : Json → Option Int
  | number (.int n) => some n
  | _ => none

/-- `null` and `{}`, which a write drops. -/
def isBlank : Json → Bool
  | null => true
  | object [] => true
  | _ => false

end Json

namespace Members

variable {α : Type}

def get? : Members α → String → Option α
  | [], _ => none
  | (k, v) :: rest, name => if k = name then some v else get? rest name

def contains (members : Members α) (name : String) : Bool := (members.get? name).isSome

/-- Replaces the member of that name, or puts it in its place in the order. -/
def set : Members α → String → α → Members α
  | [], name, value => [(name, value)]
  | (k, v) :: rest, name, value =>
      if k = name then (name, value) :: rest
      else if name < k then (name, value) :: (k, v) :: rest
      else (k, v) :: set rest name value

def erase : Members α → String → Members α
  | [], _ => []
  | (k, v) :: rest, name => if k = name then rest else (k, v) :: erase rest name

/-- The members of the second laid on those of the first. -/
def merge (base more : Members α) : Members α :=
  more.foldl (fun members member => members.set member.1 member.2) base

/-- Of members with one name the last counts. -/
def ofList (members : List (String × α)) : Members α := merge [] members

def names (members : Members α) : List String := members.map (·.1)

end Members

/-- Equality of records, by the equality of their values. -/
def Record.eqv (a b : Record) : Bool := Json.eqvMembers a b

namespace Json

/-- The member of that name; only objects have members. -/
def get? (value : Json) (name : String) : Option Json :=
  match value with
  | object members => Members.get? members name
  | _ => none

end Json

end SchemaQuery
