import SchemaQuery.KeyValue.Fragment
import SchemaQuery.Paging.Cursor

/-!
# Reads of a table

A read as the key-value store takes it: a query, if it has a key condition, or a scan, with the
placeholders of its expressions, an index to read by, and the part of the rows to read.
-/

namespace SchemaQuery.KeyValue

structure TableRead where
  tableName : String
  keyCondition : Option String := none
  filter : Option String := none
  projection : Option String := none
  names : Members String := []
  values : Members Json := []
  indexName : Option String := none
  /-- The direction along the index. -/
  forward : Option Bool := none
  startKey : Option Cursor := none
  limit : Option UInt32 := none
  segment : Option UInt32 := none
  totalSegments : Option UInt32 := none

namespace TableRead

def startingAfter (read : TableRead) (cursor : Option Cursor) : TableRead :=
  { read with startKey := cursor }

def inSegment (read : TableRead) (segment total : UInt32) : TableRead :=
  { read with segment := some segment, totalSegments := some total }

/-- A member only if there is a value. -/
def member (name : String) (write : α → Json) : Option α → Record
  | some value => [(name, write value)]
  | none => []

/-- A member only if it is not empty. -/
def nonempty (name : String) (members : Record) : Record :=
  if members.isEmpty then [] else [(name, .object members)]

def textMembers (texts : Members String) : Record :=
  texts.map fun (name, text) => (name, .string text)

def word (n : UInt32) : Json := .nat n.toNat

def toJson (read : TableRead) : Json :=
  .object (
    member "ExclusiveStartKey" Cursor.toJson read.startKey ++
    nonempty "ExpressionAttributeNames" (textMembers read.names) ++
    nonempty "ExpressionAttributeValues" read.values ++
    member "FilterExpression" .string read.filter ++
    member "IndexName" .string read.indexName ++
    member "KeyConditionExpression" .string read.keyCondition ++
    member "Limit" word read.limit ++
    member "ProjectionExpression" .string read.projection ++
    member "ScanIndexForward" .bool read.forward ++
    member "Segment" word read.segment ++
    [("TableName", .string read.tableName)] ++
    member "TotalSegments" word read.totalSegments)

def fieldNames : List String :=
  ["TableName", "KeyConditionExpression", "FilterExpression", "ProjectionExpression",
    "ExpressionAttributeNames", "ExpressionAttributeValues", "IndexName", "ScanIndexForward",
    "ExclusiveStartKey", "Limit", "Segment", "TotalSegments"]

def ofJson? (value : Json) : Option TableRead := do
  let fields ← value.fields? fieldNames
  let tableName ← fields.required "TableName" Json.string?
  let keyCondition ← fields.optional "KeyConditionExpression" Json.string?
  let filter ← fields.optional "FilterExpression" Json.string?
  let projection ← fields.optional "ProjectionExpression" Json.string?
  let names ← fields.withDefault "ExpressionAttributeNames" Json.texts? []
  let values ← fields.withDefault "ExpressionAttributeValues" Json.object? []
  let indexName ← fields.optional "IndexName" Json.string?
  let forward ← fields.optional "ScanIndexForward" Json.bool?
  let startKey ← fields.optional "ExclusiveStartKey" Cursor.ofJson?
  let limit ← fields.optional "Limit" Json.uint32?
  let segment ← fields.optional "Segment" Json.uint32?
  let totalSegments ← fields.optional "TotalSegments" Json.uint32?
  some ⟨tableName, keyCondition, filter, projection, names, values, indexName, forward, startKey,
    limit, segment, totalSegments⟩

end TableRead

end SchemaQuery.KeyValue
