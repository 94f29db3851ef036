import SchemaQuery.KeyValue.Expression
import SchemaQuery.Text.Blank

/-!
# Reads by key

Rows are read by their keys, one or several at a time, whole or only in some attributes.
-/

namespace SchemaQuery.KeyValue

/-- Attributes to return: their placeholders, and what these stand for. -/
structure Projection where
  expression : Option String := none
  names : Members String := []

namespace Projection

def ofFields (fields : List String) : Projection :=
  let (expression, bound) := projectionOf .empty fields
  ⟨expression, bound.names⟩

/-- The parts between commas. -/
def splitCommas : List Char → List (List Char)
  | [] => [[]]
  | c :: rest =>
      if c = ',' then [] :: splitCommas rest
      else
        match splitCommas rest with
        | [] => [[c]]
        | part :: parts => (c :: part) :: parts

/-- The attributes that an expression names; a part that is no placeholder names itself. -/
def resolve (expression : String) (names : Members String) : List String :=
  (splitCommas expression.toList).map fun part =>
    let placeholder := String.ofList (trim part)
    (names.get? placeholder).getD placeholder

/-- The attributes to return; all if there is no expression. -/
def fields? (projection : Projection) : Option (List String) :=
  projection.expression.map fun expression => resolve expression projection.names

end Projection

structure GetRequest where
  tableName : String
  key : Record
  projection : Projection := {}

structure BatchGetRequest where
  tableName : String
  keys : List Record
  projection : Projection := {}

namespace GetRequest

def project (request : GetRequest) (fields : List String) : GetRequest :=
  { request with projection := .ofFields fields }

def toJson (request : GetRequest) : Json :=
  .object (
    TableRead.nonempty "ExpressionAttributeNames"
      (TableRead.textMembers request.projection.names) ++
    [("Key", .object request.key)] ++
    TableRead.member "ProjectionExpression" .string request.projection.expression ++
    [("TableName", .string request.tableName)])

end GetRequest

namespace BatchGetRequest

def project (request : BatchGetRequest) (fields : List String) : BatchGetRequest :=
  { request with projection := .ofFields fields }

def toJson (request : BatchGetRequest) : Json :=
  .object (
    TableRead.nonempty "ExpressionAttributeNames"
      (TableRead.textMembers request.projection.names) ++
    [("Keys", .records request.keys)] ++
    TableRead.member "ProjectionExpression" .string request.projection.expression ++
    [("TableName", .string request.tableName)])

end BatchGetRequest

end SchemaQuery.KeyValue
