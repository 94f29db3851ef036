import SchemaQuery.Json.Basic

/-!
# Reading JSON text

Reading goes through the text as written: members in their order and with repetitions, numbers as
digits. `Written.toJson?` then gives the value, where the last member of a name counts. The two
steps are apart because a reader of a fixed form looks at the members it knows and asks no more of
the others than that they are JSON.

The text is strict: no blanks but space, tab and line ends, no leading zeros, no raw control
characters, and nothing after the value.
-/

namespace SchemaQuery

/-- A number in digits, each below ten. -/
structure Numeral where
  negative : Bool
  whole : List Nat
  fraction : List Nat
  /-- Nothing when the numeral has neither point nor exponent. -/
  exponent : Option Int

namespace Numeral

/-- The digits that keep the number below `2 ^ 64`, and those left over. -/
def take : Nat → List Nat → Nat × List Nat
  | n, [] => (n, [])
  | n, d :: rest => if n * 10 + d < UInt64.size then take (n * 10 + d) rest else (n, d :: rest)

/-- The digits that fit 64 bits carry the value; whole digits past them scale it and further
digits of the fraction are dropped. -/
def float? (numeral : Numeral) (exponent : Int) : Option Binary64 :=
  let (whole, restWhole) := take 0 numeral.whole
  let (significand, restFraction) := take whole numeral.fraction
  let scale := exponent + restWhole.length - (numeral.fraction.length - restFraction.length : Nat)
  (Binary64.ofDecimal? significand scale).map fun x => if numeral.negative then x.neg else x

/-- A numeral without point or exponent is an integer if it is one of 64 bits and not `-0`.
Nothing for a number past the range of doubles. -/
def value? (numeral : Numeral) : Option Number :=
  match numeral.exponent with
  | some exponent => (numeral.float? exponent).map .float
  | none =>
      let (n, rest) := take 0 numeral.whole
      if rest.isEmpty ∧ ¬numeral.negative then some (.int n)
      else if rest.isEmpty ∧ n ≠ 0 ∧ fitsInt64 (-n) then some (.int (-n))
      else (numeral.float? 0).map .float

end Numeral

inductive Written where
  | null
  | bool (value : Bool)
  | number (numeral : Numeral)
  /-- Nothing for a text with half a surrogate pair. -/
  | string (value : Option String)
  | array (items : List Written)
  | object (members : List (Option String × Written))

namespace Written

def isBlank (c : Char) : Bool := c == ' ' || c == '\n' || c == '\t' || c == '\r'

def skip (cs : List Char) : List Char := cs.dropWhile isBlank

def digit? (c : Char) : Option Nat :=
  if '0' ≤ c ∧ c ≤ '9' then some (c.toNat - '0'.toNat) else none

def digits : List Char → List Nat × List Char
  | [] => ([], [])
  | c :: rest =>
      match digit? c with
      | some d => let (ds, rest) := digits rest; (d :: ds, rest)
      | none => ([], c :: rest)

def hex? (c : Char) : Option Nat :=
  if '0' ≤ c ∧ c ≤ '9' then some (c.toNat - '0'.toNat)
  else if 'a' ≤ c ∧ c ≤ 'f' then some (c.toNat - 'a'.toNat + 10)
  else if 'A' ≤ c ∧ c ≤ 'F' then some (c.toNat - 'A'.toNat + 10)
  else none

/-- A part of a quoted text: a character, or half a surrogate pair. -/
inductive Unit where
  | char (c : Char)
  | high (code : Nat)
  | low (code : Nat)

def Unit.ofCode (code : Nat) : Unit :=
  if 0xD800 ≤ code ∧ code < 0xDC00 then high code
  else if 0xDC00 ≤ code ∧ code < 0xE000 then low code
  else char (Char.ofNat code)

def escaped? (c : Char) : Option Char :=
  if c = '"' then some '"'
  else if c = '\\' then some '\\'
  else if c = '/' then some '/'
  else if c = 'b' then some '\x08'
  else if c = 'f' then some '\x0c'
  else if c = 'n' then some '\n'
  else if c = 'r' then some '\r'
  else if c = 't' then some '\t'
  else none

/-- The units up to the closing quote, and the text after it. -/
def units : List Char → Option (List Unit × List Char)
  | [] => none
  | '"' :: rest => some ([], rest)
  | '\\' :: 'u' :: a :: b :: c :: d :: rest => do
      let code := (((← hex? a) * 16 + (← hex? b)) * 16 + (← hex? c)) * 16 + (← hex? d)
      let (us, rest) ← units rest
      some (.ofCode code :: us, rest)
  | '\\' :: c :: rest => do
      let c ← escaped? c
      let (us, rest) ← units rest
      some (.char c :: us, rest)
  | c :: rest => do
      if c.toNat < 32 then none
      let (us, rest) ← units rest
      some (.char c :: us, rest)

/-- Halves of a surrogate pair join; a half alone has no character. -/
def join? : List Unit → Option (List Char)
  | [] => some []
  | .char c :: rest => (join? rest).map (c :: ·)
  | .high a :: .low b :: rest =>
      (join? rest).map (Char.ofNat (0x10000 + (a - 0xD800) * 0x400 + (b - 0xDC00)) :: ·)
  | _ :: _ => none

def quoted (cs : List Char) : Option (Option String × List Char) :=
  (units cs).map fun (us, rest) => ((join? us).map String.ofList, rest)

def ofDigits (ds : List Nat) : Nat := ds.foldl (fun n d => n * 10 + d) 0

/-- The part of a numeral after its digits: an exponent, or nothing. -/
def exponent (cs : List Char) : Option (Option Int × List Char) :=
  match cs with
  | [] => some (none, [])
  | c :: rest =>
      if c = 'e' ∨ c = 'E' then
        let (negative, rest) :=
          match rest with
          | '-' :: rest => (true, rest)
          | '+' :: rest => (false, rest)
          | rest => (false, rest)
        match digits rest with
        | ([], _) => none
        | (ds, rest) => some (some (if negative then -(ofDigits ds : Int) else ofDigits ds), rest)
      else some (none, cs)

/-- The part of a numeral after its whole digits: a fraction, or nothing. -/
def fraction (cs : List Char) : Option (List Nat × List Char) :=
  match cs with
  | '.' :: rest =>
      match digits rest with
      | ([], _) => none
      | (ds, rest) => some (ds, rest)
  | cs => some ([], cs)

def unsigned (negative : Bool) (cs : List Char) : Option (Numeral × List Char) :=
  match digits cs with
  | ([], _) => none
  | (0 :: _ :: _, _) => none
  | (whole, rest) => do
      let (fraction, rest) ← fraction rest
      let (exponent, rest) ← exponent rest
      let exponent := if fraction.isEmpty then exponent else some (exponent.getD 0)
      some (⟨negative, whole, fraction, exponent⟩, rest)

def numeral (cs : List Char) : Option (Numeral × List Char) :=
  match cs with
  | '-' :: rest => unsigned true rest
  | cs => unsigned false cs

mutual

/-- A value at the front of the text, and the text after it. -/
def value : Nat → List Char → Option (Written × List Char)
  | 0, _ => none
  | fuel + 1, cs =>
      match skip cs with
      | 'n' :: 'u' :: 'l' :: 'l' :: rest => some (.null, rest)
      | 't' :: 'r' :: 'u' :: 'e' :: rest => some (.bool true, rest)
      | 'f' :: 'a' :: 'l' :: 's' :: 'e' :: rest => some (.bool false, rest)
      | '"' :: rest => (quoted rest).map fun (s, rest) => (.string s, rest)
      | '[' :: rest =>
          match skip rest with
          | ']' :: rest => some (.array [], rest)
          | rest => (items fuel rest).map fun (vs, rest) => (.array vs, rest)
      | '{' :: rest =>
          match skip rest with
          | '}' :: rest => some (.object [], rest)
          | rest => (members fuel rest).map fun (ms, rest) => (.object ms, rest)
      | cs => (numeral cs).map fun (n, rest) => (.number n, rest)

def items : Nat → List Char → Option (List Written × List Char)
  | 0, _ => none
  | fuel + 1, cs =>
      match value fuel cs with
      | none => none
      | some (v, rest) =>
          match skip rest with
          | ']' :: rest => some ([v], rest)
          | ',' :: rest => (items fuel rest).map fun (vs, rest) => (v :: vs, rest)
          | _ => none

def members : Nat → List Char → Option (List (Option String × Written) × List Char)
  | 0, _ => none
  | fuel + 1, cs =>
      match skip cs with
      | '"' :: rest =>
          match quoted rest with
          | some (k, rest) =>
              match skip rest with
              | ':' :: rest =>
                  match value fuel rest with
                  | none => none
                  | some (v, rest) =>
                      match skip rest with
                      | '}' :: rest => some ([(k, v)], rest)
                      | ',' :: rest =>
                          (members fuel rest).map fun (ms, rest) => ((k, v) :: ms, rest)
                      | _ => none
              | _ => none
          | none => none
      | _ => none

end

/-- Every second call takes a character, so twice the length is fuel enough. -/
def ofChars? (cs : List Char) : Option Written :=
  match value (2 * cs.length + 2) cs with
  | some (v, rest) => if (skip rest).isEmpty then some v else none
  | none => none

def ofText? (text : String) : Option Written := ofChars? text.toList

mutual

/-- The value, for a text nested at most `depth` deep whose numbers and texts have values. -/
def toJson? : Nat → Written → Option Json
  | _, null => some .null
  | _, bool b => some (.bool b)
  | _, number n => n.value?.map .number
  | _, string s => s.map .string
  | 0, _ => none
  | depth + 1, array items => (toItems? depth items).map .array
  | depth + 1, object members =>
      (toMembers? depth members).map fun ms => .object (Members.ofList ms)

def toItems? : Nat → List Written → Option (List Json)
  | _, [] => some []
  | depth, w :: rest => do
      let v ← toJson? depth w
      let vs ← toItems? depth rest
      some (v :: vs)

def toMembers? : Nat → List (Option String × Written) → Option (List (String × Json))
  | _, [] => some []
  | _, (none, _) :: _ => none
  | depth, (some k, w) :: rest => do
      let v ← toJson? depth w
      let vs ← toMembers? depth rest
      some ((k, v) :: vs)

end

/-- Arrays and objects nest at most this deep. -/
def maxDepth : Nat := 127

end Written

/-- The value of a JSON text. -/
def Json.ofText? (text : String) : Option Json :=
  (Written.ofText? text).bind (Written.toJson? Written.maxDepth)

end SchemaQuery
