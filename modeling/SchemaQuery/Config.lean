import SchemaQuery.Batch.Retry
import SchemaQuery.Json.Reader
import SchemaQuery.Store.Error

/-!
# Configuration

Every field has a default. A configuration is accepted if its sizes are positive. In a text the
names that are known must not be repeated; other members only have to be JSON.
-/

namespace SchemaQuery

structure Config where
  tablePrefix : String := ""
  pageSize : UInt32 := 100
  totalSegments : UInt32 := 1
  batchWriteChunk : UInt64 := 25
  batchGetChunk : UInt64 := 100
  strictPredicates : Bool := false
  retry : RetryPolicy := {}
  deriving DecidableEq

namespace Config

/-- The name under which an entity is stored. -/
def tableName (config : Config) (entity : String) : String := config.tablePrefix ++ entity

def fault? (config : Config) : Option ConfigFault :=
  if config.pageSize = 0 then some .zeroPageSize
  else if config.totalSegments = 0 then some .zeroSegments
  else if config.batchWriteChunk = 0 then some .zeroBatchWriteChunk
  else if config.batchGetChunk = 0 then some .zeroBatchGetChunk
  else if config.retry.maxAttempts = 0 then some .zeroAttempts
  else none

/-- Every default passes its own check. -/
theorem fault?_default : fault? {} = none := rfl

def validate (config : Config) : Except StoreError Unit :=
  match config.fault? with
  | some fault => .error (.invalidConfig fault)
  | none => .ok ()

def toJson (config : Config) : Json :=
  .object [
    ("batch_get_chunk", .nat config.batchGetChunk.toNat),
    ("batch_write_chunk", .nat config.batchWriteChunk.toNat),
    ("page_size", .nat config.pageSize.toNat),
    ("retry", config.retry.toJson),
    ("strict_predicates", .bool config.strictPredicates),
    ("table_prefix", .string config.tablePrefix),
    ("total_segments", .nat config.totalSegments.toNat)]

def fieldNames : List String :=
  ["table_prefix", "page_size", "total_segments", "batch_write_chunk", "batch_get_chunk",
    "strict_predicates", "retry"]

def ofJson? (value : Json) : Option Config := do
  let fields ← value.fields? fieldNames
  let tablePrefix ← fields.withDefault "table_prefix" Json.string? ""
  let pageSize ← fields.withDefault "page_size" Json.uint32? 100
  let totalSegments ← fields.withDefault "total_segments" Json.uint32? 1
  let batchWriteChunk ← fields.withDefault "batch_write_chunk" Json.uint64? 25
  let batchGetChunk ← fields.withDefault "batch_get_chunk" Json.uint64? 100
  let strictPredicates ← fields.withDefault "strict_predicates" Json.bool? false
  let retry ← fields.withDefault "retry" RetryPolicy.ofJson? {}
  some ⟨tablePrefix, pageSize, totalSegments, batchWriteChunk, batchGetChunk, strictPredicates,
    retry⟩

end Config

namespace Written

/-- Of a structure as written, the members whose names are known; nothing if one is repeated, or if
a name cannot be read. -/
def known? (names : List String) : Written → Option Written
  | object members =>
      let known := members.filter fun member => member.1.any names.contains
      if members.all (fun member => member.1.isSome) ∧ (known.map (·.1)).Nodup then
        some (object known)
      else none
  | value => some value

/-- Restricts the members of some name. -/
def atMember (name : String) (f : Written → Option Written) : Written → Option Written
  | object members =>
      (members.mapM fun (member : Option String × Written) =>
        if member.1 = some name then (f member.2).map fun value => (member.1, value)
        else some member).map object
  | value => some value

/-- Restricts the item at some place. -/
def atItem (place : Nat) (f : Written → Option Written) : Written → Option Written
  | array items =>
      match items[place]? with
      | some item => (f item).map fun value => array (items.set place value)
      | none => some (array items)
  | value => some value

end Written

namespace Config

/-- The members of a configuration as written that count. -/
def prune? (written : Written) : Option Written := do
  let written ← written.known? fieldNames
  let written ← written.atMember "retry" (Written.known? RetryPolicy.fieldNames)
  written.atItem 6 (Written.known? RetryPolicy.fieldNames)

def ofText (text : String) : Except StoreError Config :=
  match ((Written.ofText? text).bind prune?).bind
      (fun written => (written.toJson? Written.maxDepth).bind ofJson?) with
  | none => .error (.invalidConfig .malformed)
  | some config =>
      match config.fault? with
      | some fault => .error (.invalidConfig fault)
      | none => .ok config

/-- A configuration from a file, given its text if it could be read. -/
def ofFileText : Option String → Except StoreError Config
  | some text => ofText text
  | none => .error (.invalidConfig .unreadableFile)

end Config

end SchemaQuery
