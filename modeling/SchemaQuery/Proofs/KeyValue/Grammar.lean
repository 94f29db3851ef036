import SchemaQuery.KeyValue.Placeholders

/-!
# The grammar of condition expressions

How a key-value store reads a condition. A text falls into words, placeholders, comparators and
marks; words and placeholders are as long as they can be. `not` binds tighter than `and`, and `and`
tighter than `or`; a `between` takes the next `and` with it; parentheses group. Keywords may be
written in either case, functions may not. A chain of one keyword is read to the right, which is a
choice of this reader: the grammar leaves it open, and the meaning does not depend on it.
-/

namespace SchemaQuery.KeyValue

inductive Comparator where
  | equal
  | notEqual
  | less
  | atMost
  | greater
  | atLeast
  deriving DecidableEq

/-- A step of a document path. -/
inductive PathStep where
  /-- An attribute behind a placeholder. -/
  | named (placeholder : String)
  | field (name : String)
  | item (index : String)
  deriving DecidableEq

inductive Operand (V : Type) where
  | path (path : List PathStep)
  | value (value : V)
  | size (path : List PathStep)
  deriving BEq

/-- The functions of a path and an operand. -/
inductive Relation where
  | hasType
  | beginsWith
  | contains
  deriving DecidableEq

inductive Clause (V : Type) where
  | compare (left : Operand V) (comparator : Comparator) (right : Operand V)
  | between (operand first last : Operand V)
  | oneOf (operand : Operand V) (items : List (Operand V))
  | present (path : List PathStep)
  | absent (path : List PathStep)
  | related (relation : Relation) (path : List PathStep) (operand : Operand V)
  deriving BEq

inductive Formula (V : Type) where
  | clause (clause : Clause V)
  | not (formula : Formula V)
  | and (left right : Formula V)
  | or (left right : Formula V)
  deriving BEq

/-! ### Tokens -/

inductive Token where
  | word (text : String)
  | name (placeholder : String)
  | value (placeholder : String)
  | comparator (comparator : Comparator)
  | not
  | and
  | or
  | between
  | isIn
  | point
  | comma
  | opening
  | closing
  | itemOpening
  | itemClosing
  deriving DecidableEq

namespace Token

/-- A keyword in either case, or a word. -/
def ofWord (chars : List Char) : Token :=
  match chars.map Char.toLower with
  | ['n', 'o', 't'] => .not
  | ['a', 'n', 'd'] => .and
  | ['o', 'r'] => .or
  | ['b', 'e', 't', 'w', 'e', 'e', 'n'] => .between
  | ['i', 'n'] => .isIn
  | _ => .word (String.ofList chars)

def ofMark? : Char → Option Token
  | '.' => some .point
  | ',' => some .comma
  | '(' => some .opening
  | ')' => some .closing
  | '[' => some .itemOpening
  | ']' => some .itemClosing
  | _ => none

def isComparing (c : Char) : Bool := c == '=' || c == '<' || c == '>'

def ofComparison? : List Char → Option Token
  | ['='] => some (.comparator .equal)
  | ['<', '>'] => some (.comparator .notEqual)
  | ['<'] => some (.comparator .less)
  | ['<', '='] => some (.comparator .atMost)
  | ['>'] => some (.comparator .greater)
  | ['>', '='] => some (.comparator .atLeast)
  | _ => none

def isBlank (c : Char) : Bool := c == ' ' || c == '\t' || c == '\n' || c == '\r'

/-- Whether a character may begin a token of several characters. -/
def opens (c : Char) : Bool := Placeholder.isPlain c || c == '#' || c == ':' || isComparing c

/-- Whether a token that has begun goes on. -/
def continues : List Char → Char → Bool
  | [], _ => false
  | first :: _, c => if isComparing first then isComparing c else Placeholder.isPlain c

/-- The token of several characters; a placeholder needs a name behind its mark. -/
def ofChars? : List Char → Option (List Token)
  | [] => some []
  | '#' :: plain => if plain.isEmpty then none else some [.name (String.ofList ('#' :: plain))]
  | ':' :: plain => if plain.isEmpty then none else some [.value (String.ofList (':' :: plain))]
  | first :: rest =>
      if isComparing first then (ofComparison? (first :: rest)).map fun token => [token]
      else some [ofWord (first :: rest)]

/-- The tokens of a text, of which some characters are read and belong to one token. -/
def lex : List Char → List Char → Option (List Token)
  | read, [] => ofChars? read
  | read, c :: rest =>
      if continues read c then lex (read ++ [c]) rest
      else
        (ofChars? read).bind fun before =>
          Option.map (before ++ ·) <|
            if opens c then lex [c] rest
            else if isBlank c then lex [] rest
            else (ofMark? c).bind fun mark => (lex [] rest).map (mark :: ·)

end Token

/-! ### The reader -/

/-! Each reader gives what it has read and the tokens behind it. -/

namespace Reader

/-- Further steps of a path. -/
def steps : List Token → Option (List PathStep × List Token)
  | .point :: .name placeholder :: rest => do
      let (path, rest) ← steps rest
      some (.named placeholder :: path, rest)
  | .point :: .word name :: rest => do
      let (path, rest) ← steps rest
      some (.field name :: path, rest)
  | .point :: _ => none
  | .itemOpening :: .word index :: .itemClosing :: rest => do
      let (path, rest) ← steps rest
      some (.item index :: path, rest)
  | .itemOpening :: _ => none
  | rest => some ([], rest)

def path : List Token → Option (List PathStep × List Token)
  | .name placeholder :: rest => do
      let (path, rest) ← steps rest
      some (.named placeholder :: path, rest)
  | .word name :: rest => do
      let (path, rest) ← steps rest
      some (.field name :: path, rest)
  | _ => none

def expect (token : Token) : List Token → Option (Unit × List Token)
  | [] => none
  | head :: rest => if head = token then some ((), rest) else none

def operand : List Token → Option (Operand String × List Token)
  | .value placeholder :: rest => some (.value placeholder, rest)
  | .word "size" :: .opening :: rest => do
      let (path, rest) ← path rest
      let ((), rest) ← expect .closing rest
      some (.size path, rest)
  | tokens => do
      let (path, rest) ← path tokens
      some (.path path, rest)

/-- Operands with commas between, up to the end of the parentheses. -/
def operands : Nat → List Token → Option (List (Operand String) × List Token)
  | 0, _ => none
  | fuel + 1, tokens => do
      let (first, rest) ← operand tokens
      match rest with
      | .comma :: rest => do
          let (others, rest) ← operands fuel rest
          some (first :: others, rest)
      | .closing :: rest => some ([first], rest)
      | _ => none

def relation? : String → Option Relation
  | "attribute_type" => some .hasType
  | "begins_with" => some .beginsWith
  | "contains" => some .contains
  | _ => none

/-- The arguments of a function. -/
def arguments (function : String) (tokens : List Token) : Option (Clause String × List Token) := do
  let (path, rest) ← path tokens
  if function = "attribute_exists" then
    let ((), rest) ← expect .closing rest
    some (.present path, rest)
  else if function = "attribute_not_exists" then
    let ((), rest) ← expect .closing rest
    some (.absent path, rest)
  else
    let relation ← relation? function
    let ((), rest) ← expect .comma rest
    let (operand, rest) ← operand rest
    let ((), rest) ← expect .closing rest
    some (.related relation path operand, rest)

/-- What is asked of an operand. -/
def demand (left : Operand String) : List Token → Option (Clause String × List Token)
  | .comparator comparator :: rest => do
      let (right, rest) ← operand rest
      some (.compare left comparator right, rest)
  | .between :: rest => do
      let (first, rest) ← operand rest
      let ((), rest) ← expect .and rest
      let (last, rest) ← operand rest
      some (.between left first last, rest)
  | .isIn :: .opening :: rest => do
      let (items, rest) ← operands rest.length rest
      some (.oneOf left items, rest)
  | _ => none

def comparison (tokens : List Token) : Option (Clause String × List Token) := do
  let (left, rest) ← operand tokens
  demand left rest

def clause : List Token → Option (Clause String × List Token)
  | .word "size" :: rest => comparison (.word "size" :: rest)
  | .word function :: .opening :: rest => arguments function rest
  | tokens => comparison tokens

mutual

def disjunction : Nat → List Token → Option (Formula String × List Token)
  | 0, _ => none
  | fuel + 1, tokens => do
      let (left, rest) ← conjunction fuel tokens
      match rest with
      | .or :: rest => do
          let (right, rest) ← disjunction fuel rest
          some (.or left right, rest)
      | rest => some (left, rest)

def conjunction : Nat → List Token → Option (Formula String × List Token)
  | 0, _ => none
  | fuel + 1, tokens => do
      let (left, rest) ← negation fuel tokens
      match rest with
      | .and :: rest => do
          let (right, rest) ← conjunction fuel rest
          some (.and left right, rest)
      | rest => some (left, rest)

def negation : Nat → List Token → Option (Formula String × List Token)
  | 0, _ => none
  | fuel + 1, .not :: rest => do
      let (formula, rest) ← negation fuel rest
      some (.not formula, rest)
  | fuel + 1, .opening :: rest => do
      let (formula, rest) ← disjunction fuel rest
      let ((), rest) ← expect .closing rest
      some (formula, rest)
  | _ + 1, tokens => do
      let (clause, rest) ← clause tokens
      some (.clause clause, rest)

end

end Reader

/-- Reads a whole text. Each nesting takes three levels of the grammar and at least one token. -/
def Formula.parse (text : String) : Option (Formula String) := do
  let tokens ← Token.lex [] text.toList
  let (formula, rest) ← Reader.disjunction (3 * tokens.length + 3) tokens
  if rest.isEmpty then some formula else none

example : Formula.parse "#a = :a or not #b < :b and #c between :d and :e" =
    some (.or (.clause (.compare (.path [.named "#a"]) .equal (.value ":a")))
      (.and (.not (.clause (.compare (.path [.named "#b"]) .less (.value ":b"))))
        (.clause (.between (.path [.named "#c"]) (.value ":d") (.value ":e"))))) := by
  rfl

/-! ### Placeholders replaced -/

def PathStep.resolve (bound : Placeholders) : PathStep → Option PathStep
  | named placeholder => (bound.names.get? placeholder).map field
  | field name => some (field name)
  | item index => some (item index)

def Operand.resolve (bound : Placeholders) : Operand String → Option (Operand Json)
  | path steps => (steps.mapM (PathStep.resolve bound)).map path
  | value placeholder => (bound.values.get? placeholder).map value
  | size steps => (steps.mapM (PathStep.resolve bound)).map size

def Clause.resolve (bound : Placeholders) : Clause String → Option (Clause Json)
  | compare left comparator right => do
      some (compare (← left.resolve bound) comparator (← right.resolve bound))
  | between operand first last => do
      some (between (← operand.resolve bound) (← first.resolve bound) (← last.resolve bound))
  | oneOf operand items => do
      some (oneOf (← operand.resolve bound) (← items.mapM (Operand.resolve bound)))
  | present steps => (steps.mapM (PathStep.resolve bound)).map present
  | absent steps => (steps.mapM (PathStep.resolve bound)).map absent
  | related relation steps operand => do
      some (related relation (← steps.mapM (PathStep.resolve bound)) (← operand.resolve bound))

/-- The formula over attributes and values; nothing if a placeholder is not bound. -/
def Formula.resolve (bound : Placeholders) : Formula String → Option (Formula Json)
  | clause atom => (atom.resolve bound).map clause
  | not formula => (formula.resolve bound).map not
  | and left right => do some (and (← left.resolve bound) (← right.resolve bound))
  | or left right => do some (or (← left.resolve bound) (← right.resolve bound))

end SchemaQuery.KeyValue
