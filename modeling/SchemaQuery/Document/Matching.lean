import SchemaQuery.Document.Update
import SchemaQuery.Store.Values

/-!
# Matching documents

A condition document holds of a document if all its members do. A member joins clauses, or asks
something of the value at a path: to equal a value, or to be an array that has it, or what the
operators of an operator document ask.
-/

namespace SchemaQuery.Document

/-- The names between points. -/
def splitPoints : List Char → List (List Char)
  | [] => [[]]
  | c :: rest =>
      if c = '.' then [] :: splitPoints rest
      else
        match splitPoints rest with
        | [] => [[c]]
        | part :: parts => (c :: part) :: parts

def pathOf (dotted : String) : List String := (splitPoints dotted.toList).map String.ofList

/-- Equality, or membership in an array; a missing value equals `null`. -/
def equals (value : Option Json) (expected : Json) : Bool :=
  match value, expected with
  | some (.array items), .array wanted => Json.array items == Json.array wanted
  | some (.array items), expected => items.any fun item => item == expected
  | some value, expected => value == expected
  | none, expected => expected.isNull

/-- Dates are compared as instants, other values in their order; a missing value with nothing. -/
def compareBound (value : Option Json) (bound : Json) : Option Ordering :=
  match value with
  | none => none
  | some value =>
      if (bound.get? "$date").isSome then
        match Instant.ofJson? value, Instant.ofJson? bound with
        | some a, some b => some (a.compare b)
        | _, _ => none
      else some (Json.compareValues (some value) (some bound))

def startsWithDollar (name : String) : Bool := name.toList.head? == some '$'

/-- An object of operators alone; a date is none. -/
def isOperatorDocument : Json → Bool
  | .object members =>
      !members.isEmpty && !Members.contains members "$date" &&
        members.all fun member => startsWithDollar member.1
  | _ => false

/-- Whether the options of an operator document ask to ignore case. -/
def ignoresCase (operators : Record) : Bool :=
  match operators.get? "$options" with
  | some (.string options) => options.toList.contains 'i'
  | _ => false

/-- What one operator says of a value. -/
def operatorHolds (operators : Record) (value : Option Json) (operator : String)
    (operand : Json) : Except BackendFault Bool :=
  match operator with
  | "$regex" =>
      match Pattern.ofText? (operand.string?.getD "") with
      | none => .error .malformedPattern
      | some pattern =>
          match value with
          | some (.string s) => .ok (pattern.isFoundIn (ignoresCase operators) s)
          | _ => .ok false
  | "$options" => .ok true
  | "$in" =>
      match operand with
      | .array wanted => .ok (wanted.any fun item => equals value item)
      | _ => .ok false
  | "$ne" => .ok (!equals value operand)
  | "$gte" =>
      .ok (match compareBound value operand with
        | some order => order != .lt
        | none => false)
  | "$lte" =>
      .ok (match compareBound value operand with
        | some order => order != .gt
        | none => false)
  | "$exists" => .ok (value.isSome == operand.bool?.getD true)
  | other => .error (.unsupportedOperator other)

/-- Operators are asked in their order until one does not hold. -/
def operatorsHold (operators : Record) (value : Option Json) :
    Record → Except BackendFault Bool
  | [] => .ok true
  | (operator, operand) :: rest =>
      match operatorHolds operators value operator operand with
      | .ok true => operatorsHold operators value rest
      | result => result

def valueMatches (value : Option Json) (condition : Json) : Except BackendFault Bool :=
  if isOperatorDocument condition then
    let operators := condition.object?.getD []
    operatorsHold operators value operators
  else .ok (equals value condition)

mutual

/-- Whether a condition document holds; its members are asked in order until one does not. -/
def matchesAll (document : Record) : List (String × Json) → Except BackendFault Bool
  | [] => .ok true
  | (name, condition) :: rest =>
      match matchesMember document name condition with
      | .ok true => matchesAll document rest
      | result => result

def matchesMember (document : Record) (name : String) : Json → Except BackendFault Bool
  | .array clauses =>
      if name = operatorOf .and then
        (clauseResults document name clauses).map fun results => results.all id
      else if name = operatorOf .or then
        (clauseResults document name clauses).map fun results => results.any id
      else valueMatches (document.getPath? (pathOf name)) (.array clauses)
  | condition =>
      if name = operatorOf .and ∨ name = operatorOf .or then .error (.clausesNotArray name)
      else valueMatches (document.getPath? (pathOf name)) condition

/-- What each clause says; all are asked. -/
def clauseResults (document : Record) (name : String) : List Json → Except BackendFault (List Bool)
  | [] => .ok []
  | .object members :: rest =>
      match matchesAll document members with
      | .error fault => .error fault
      | .ok result =>
          match clauseResults document name rest with
          | .ok results => .ok (result :: results)
          | .error fault => .error fault
  | _ :: _ => .error (.clauseNotDocument name)

end

/-- The documents for which the conditions hold. -/
def selectAll (conditions : Record) : List Record → Except BackendFault (List Record)
  | [] => .ok []
  | document :: rest =>
      match matchesAll document conditions with
      | .error fault => .error fault
      | .ok holds =>
          match selectAll conditions rest with
          | .ok found => .ok (if holds then document :: found else found)
          | .error fault => .error fault

/-- The first document for which the conditions hold. -/
def selectFirst (conditions : Record) : List Record → Except BackendFault (Option Record)
  | [] => .ok none
  | document :: rest =>
      match matchesAll document conditions with
      | .error fault => .error fault
      | .ok true => .ok (some document)
      | .ok false => selectFirst conditions rest

end SchemaQuery.Document
