import SchemaQuery.Batch.Request
import SchemaQuery.Predicate.Error
import SchemaQuery.Schema.Error

/-!
# What can go wrong with a store

Errors are causes; their texts are given here and nowhere else.
-/

namespace SchemaQuery

inductive BackendFault where
  | emptyPath
  | notAMap (segment : String)
  | notNumeric
  | decrementNotNumeric
  | unknownTable (name : String)
  | unknownCollection (name : String)
  | duplicateKey (key : Record) (collection : String)
  | clausesNotArray (operator : String)
  | clauseNotDocument (operator : String)
  | unsupportedOperator (operator : String)
  /-- Why a pattern cannot be read is not told: a star stands for it. -/
  | malformedPattern
  /-- A failure that a backend reports in words of its own. -/
  | reported (text : String)

def BackendFault.message : BackendFault → String
  | emptyPath => "empty attribute path"
  | notAMap segment => "attribute '" ++ segment ++ "' is not a map"
  | notNumeric => "arithmetic on a non-numeric attribute"
  | decrementNotNumeric => "decrement by a non-numeric value"
  | unknownTable name => "table '" ++ name ++ "' not found"
  | unknownCollection name => "collection '" ++ name ++ "' not found"
  | duplicateKey key collection =>
      "duplicate key " ++ (Json.object key).text ++ " in '" ++ collection ++ "'"
  | clausesNotArray operator => operator ++ " expects an array"
  | clauseNotDocument operator => operator ++ " clause must be a document"
  | unsupportedOperator operator => "unsupported operator '" ++ operator ++ "'"
  | malformedPattern => "regex parse error*"
  | reported text => text

inductive CursorFault where
  | startKeyNotFound
  | segmentCount (expected given : Nat)
  | pagesStartAtOne
  | reported (text : String)

def CursorFault.message : CursorFault → String
  | startKeyNotFound => "start key not found"
  | segmentCount expected given =>
      "expected " ++ toString expected ++ " segment cursors, got " ++ toString given
  | pagesStartAtOne => "pages start at 1"
  | reported text => text

inductive ConfigFault where
  | zeroPageSize
  | zeroSegments
  | zeroBatchWriteChunk
  | zeroBatchGetChunk
  | zeroAttempts
  | malformed
  | unreadableFile
  deriving DecidableEq

def ConfigFault.message : ConfigFault → String
  | zeroPageSize => "page_size must be positive"
  | zeroSegments => "total_segments must be positive"
  | zeroBatchWriteChunk => "batch_write_chunk must be positive"
  | zeroBatchGetChunk => "batch_get_chunk must be positive"
  | zeroAttempts => "retry.max_attempts must be positive"
  | malformed => "malformed config: *"
  | unreadableFile => "cannot read the file"

inductive StoreError where
  | compile (error : CompileError)
  | schema (error : SchemaError)
  | backend (fault : BackendFault)
  | unprocessedItems (attempts : Nat) (items : List WriteRequest)
  | invalidLimit (limit : Nat)
  | invalidCursor (fault : CursorFault)
  | invalidConfig (fault : ConfigFault)
  | hook (text : String)
  /-- No failure that a caller is handed: a list was to have more room than there can be, and the
  call ends where it stands. -/
  | aborted

namespace StoreError

def code : StoreError → String
  | compile error => error.code
  | schema error => error.code
  | backend _ => "STORE_BACKEND"
  | unprocessedItems .. => "STORE_UNPROCESSED_ITEMS"
  | invalidLimit _ => "STORE_INVALID_LIMIT"
  | invalidCursor _ => "STORE_INVALID_CURSOR"
  | invalidConfig _ => "STORE_INVALID_CONFIG"
  | hook _ => "STORE_HOOK"
  | aborted => "ABORTED"

def message : StoreError → String
  | compile error => error.message
  | schema error => error.message
  | backend fault => "Backend error: " ++ fault.message
  | unprocessedItems attempts items =>
      toString items.length ++ " batch items still unprocessed after " ++ toString attempts ++
        " attempts"
  | invalidLimit limit => "Invalid pagination limit: " ++ toString limit
  | invalidCursor fault => "Invalid cursor: " ++ fault.message
  | invalidConfig fault => "Invalid configuration: " ++ fault.message
  | hook text => "Hook failed: " ++ text
  | aborted => "capacity overflow"

/-- Whether the error is a mistake in the configuration and not in the data of a call. -/
def isConfiguration : StoreError → Bool
  | compile error => error.isConfiguration
  | schema _ => true
  | invalidConfig _ => true
  | _ => false

end StoreError

end SchemaQuery
