import SchemaQuery.Text.CaseFold

/-!
# Patterns

A small language of regular expressions: characters, classes, any character but a line end, the two
ends of the text, sequences, alternatives and repetition. A pattern is found in a text if it matches
some part of it. `escape` writes a text as the pattern that is found where the text is.
-/

namespace SchemaQuery

inductive Pattern where
  | empty
  | char (c : Char)
  | oneOf (negated : Bool) (ranges : List (Char × Char))
  | any
  | textStart
  | textEnd
  | seq (first rest : Pattern)
  | either (left right : Pattern)
  | many (item : Pattern)

namespace Pattern

/-- The characters that stand for themselves only behind a backslash. -/
def isSpecial (c : Char) : Bool :=
  ['\\', '.', '+', '*', '?', '(', ')', '|', '[', ']', '{', '}', '^', '$', '#', '&', '-',
    '~'].contains c

def escapeChars (cs : List Char) : List Char :=
  cs.flatMap fun c => if isSpecial c then ['\\', c] else [c]

def escape (text : String) : String := String.ofList (escapeChars text.toList)

/-! ## Reading -/

/-- Punctuation of ASCII, which a backslash may stand before. -/
def isPunctuation (c : Char) : Bool :=
  let n := c.toNat
  (33 ≤ n && n ≤ 47) || (58 ≤ n && n ≤ 64) || (91 ≤ n && n ≤ 96) || (123 ≤ n && n ≤ 126)

def escaped? : List Char → Option (Char × List Char)
  | c :: rest => if isPunctuation c then some (c, rest) else none
  | [] => none

/-- One end of a range in a class. -/
def classChar? : List Char → Option (Char × List Char)
  | '\\' :: rest => escaped? rest
  | c :: rest => some (c, rest)
  | [] => none

/-- The ranges up to the closing bracket. -/
def ranges : Nat → List Char → Option (List (Char × Char) × List Char)
  | 0, _ => none
  | _ + 1, ']' :: rest => some ([], rest)
  | fuel + 1, cs => do
      let (low, rest) ← classChar? cs
      match rest with
      | '-' :: ']' :: rest => some ([(low, low), ('-', '-')], rest)
      | '-' :: rest => do
          let (high, rest) ← classChar? rest
          if high < low then none
          let (more, rest) ← ranges fuel rest
          some ((low, high) :: more, rest)
      | rest => do
          let (more, rest) ← ranges fuel rest
          some ((low, low) :: more, rest)

/-- What the marks behind an item allow: to leave it out, and to have it again. -/
structure Repetition where
  optional : Bool
  again : Bool

def Repetition.of (item : Pattern) : Repetition → Pattern
  | ⟨false, false⟩ => item
  | ⟨true, false⟩ => either item empty
  | ⟨false, true⟩ => seq item (many item)
  | ⟨true, true⟩ => many item

/-- Reads repetition marks, of which any number may follow each other; a question mark behind
another mark changes no match found. -/
def repetition (seen : Repetition) : List Char → Repetition × List Char
  | '*' :: '?' :: rest | '*' :: rest => repetition ⟨true, true⟩ rest
  | '+' :: '?' :: rest | '+' :: rest => repetition { seen with again := true } rest
  | '?' :: '?' :: rest | '?' :: rest => repetition { seen with optional := true } rest
  | rest => (seen, rest)

mutual

/-- Alternatives up to the end or a closing parenthesis. -/
def alternatives : Nat → List Char → Option (Pattern × List Char)
  | 0, _ => none
  | fuel + 1, cs => do
      let (left, rest) ← sequence fuel cs
      match rest with
      | '|' :: rest => do
          let (right, rest) ← alternatives fuel rest
          some (either left right, rest)
      | rest => some (left, rest)

def sequence : Nat → List Char → Option (Pattern × List Char)
  | 0, _ => none
  | fuel + 1, cs =>
      match cs with
      | [] => some (empty, [])
      | '|' :: _ => some (empty, cs)
      | ')' :: _ => some (empty, cs)
      | cs => do
          let (item, rest) ← item fuel cs
          let (repetition, rest) := repetition ⟨false, false⟩ rest
          let (more, rest) ← sequence fuel rest
          some (seq (repetition.of item) more, rest)

def item : Nat → List Char → Option (Pattern × List Char)
  | 0, _ => none
  | _ + 1, [] => none
  | fuel + 1, c :: rest =>
      if c = '(' then
        match alternatives fuel rest with
        | some (inner, ')' :: rest) => some (inner, rest)
        | _ => none
      else if c = '[' then
        match rest with
        | '^' :: rest => (ranges fuel rest).map fun (ranges, rest) => (oneOf true ranges, rest)
        | rest => (ranges fuel rest).map fun (ranges, rest) => (oneOf false ranges, rest)
      else if c = '.' then some (any, rest)
      else if c = '^' then some (textStart, rest)
      else if c = '$' then some (textEnd, rest)
      else if c = '\\' then (escaped? rest).map fun (c, rest) => (char c, rest)
      else if c = '*' ∨ c = '+' ∨ c = '?' ∨ c = '{' then none
      else some (char c, rest)

end

def ofChars? (cs : List Char) : Option Pattern :=
  match alternatives (3 * cs.length + 3) cs with
  | some (pattern, []) => some pattern
  | _ => none

def ofText? (text : String) : Option Pattern := ofChars? text.toList

/-! ## Matching

The places of a text are before its characters and behind the last one. A set of places is a list of
marks, one for each place in order.
-/

def sameChar (ignoreCase : Bool) (a b : Char) : Bool :=
  a == b || (ignoreCase && CaseFold.fold a == CaseFold.fold b)

def inRanges (ignoreCase : Bool) (ranges : List (Char × Char)) (c : Char) : Bool :=
  let within (n : Nat) := ranges.any fun (low, high) => low.toNat ≤ n && n ≤ high.toNat
  if ignoreCase then (CaseFold.variants c).any within else within c.toNat

/-- The places behind the marked ones whose character passes a test. -/
def step (test : Char → Bool) (text : List Char) (marks : List Bool) : List Bool :=
  false :: List.zipWith (fun c marked => marked && test c) text marks

def onlyFirst : List Bool → List Bool
  | [] => []
  | marked :: rest => marked :: rest.map fun _ => false

def onlyLast : List Bool → List Bool
  | [] => []
  | [marked] => [marked]
  | _ :: rest => false :: onlyLast rest

def union (left right : List Bool) : List Bool := List.zipWith (· || ·) left right

/-- The places of `left` that are not in `right`. -/
def difference (left right : List Bool) : List Bool :=
  List.zipWith (fun l r => l && !r) left right

/-- The places seen, and all those that any number of rounds reaches from the newest of them. Each
round goes on from the places that the one before has added. -/
def closure (round : List Bool → List Bool) : Nat → List Bool → List Bool → List Bool
  | 0, _, seen => seen
  | fuel + 1, newest, seen =>
      let added := difference (round newest) seen
      if added.any id then closure round fuel added (union seen added) else seen

/-- The places where matches that begin at marked places end. -/
def reach (ignoreCase : Bool) (text : List Char) : Pattern → List Bool → List Bool
  | empty, marks => marks
  | char c, marks => step (sameChar ignoreCase c) text marks
  | oneOf negated ranges, marks =>
      step (fun c => inRanges ignoreCase ranges c != negated) text marks
  | any, marks => step (· != '\n') text marks
  | textStart, marks => onlyFirst marks
  | textEnd, marks => onlyLast marks
  | seq first rest, marks => reach ignoreCase text rest (reach ignoreCase text first marks)
  | either left right, marks =>
      union (reach ignoreCase text left marks) (reach ignoreCase text right marks)
  | many item, marks => closure (reach ignoreCase text item) (text.length + 1) marks marks

/-- Whether the pattern matches a part of the text: from some place a match reaches a place. -/
def isFoundIn (pattern : Pattern) (ignoreCase : Bool) (text : String) : Bool :=
  let chars := text.toList
  (reach ignoreCase chars pattern (List.replicate (chars.length + 1) true)).any id

end Pattern

end SchemaQuery
