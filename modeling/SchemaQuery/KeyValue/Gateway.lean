import SchemaQuery.Batch.Drive
import SchemaQuery.Config
import SchemaQuery.Hooks
import SchemaQuery.KeyValue.Store
import SchemaQuery.Paging.Segmented
import SchemaQuery.Paging.Sequential

/-!
# Entities in a key-value store

A gateway reads and writes the rows of one entity, with the configuration's sizes and the caller's
hooks. Writes work on the store and on the state of the hooks; what fails before the store is
reached is reported as it is, what fails in the store goes to the hooks first, and what is aborted
there ends the call.
-/

namespace SchemaQuery

/-- A value that cannot be part of a key read: `null` or the empty text. -/
def Record.hasBlank (key : Record) : Bool := key.any fun (_, value) => !value.isConcrete

namespace KeyValue

structure Gateway where
  entity : Entity
  config : Config
  accepted : config.fault? = none

namespace Gateway

def create (entity : Entity) (config : Config) : Except StoreError Gateway :=
  match h : config.fault? with
  | some fault => .error (.invalidConfig fault)
  | none => .ok ⟨entity, config, h⟩

/-- Registers a schema. -/
def ofSchema (schema : Schema) (config : Config) : Except StoreError Gateway :=
  match Entity.register schema with
  | .ok entity => create entity config
  | .error error => .error (.schema error)

variable {σ : Type}

def name (gateway : Gateway) : String := gateway.entity.name

def tableName (gateway : Gateway) : String := gateway.config.tableName gateway.name

def rangeKey (gateway : Gateway) : Option String := gateway.entity.layout.rangeKey

def keyOf (gateway : Gateway) (row : Record) : Except StoreError Record :=
  match gateway.entity.keyFields with
  | .ok fields => (row.keyOf fields).mapError .compile
  | .error error => .error (.compile error)

def keysOf (gateway : Gateway) : List Record → Except StoreError (List Record)
  | [] => .ok []
  | row :: rest =>
      match gateway.keyOf row with
      | .error error => .error error
      | .ok key =>
          match gateway.keysOf rest with
          | .ok keys => .ok (key :: keys)
          | .error error => .error error

/-! ## Point reads -/

/-- One row; nothing for a key with a blank value. -/
def get (gateway : Gateway) (key : Record) (fields : Option (List String)) :
    Action Store (Option Record) :=
  if key.hasBlank then pure none
  else do
    let key ← .ofExcept (gateway.keyOf key)
    let request : GetRequest := { tableName := gateway.tableName, key }
    Store.get (match fields with
      | some fields => request.project fields
      | none => request)

def batchGetChunks (gateway : Gateway) (fields : Option (List String)) :
    List (List Record) → Action Store (List Record)
  | [] => pure []
  | keys :: rest => do
      let request : BatchGetRequest := { tableName := gateway.tableName, keys }
      let rows ← Store.batchGet (match fields with
        | some fields => request.project fields
        | none => request)
      let more ← gateway.batchGetChunks fields rest
      pure (rows ++ more)

/-- The rows of many keys, in chunks; keys with a blank value are left out. -/
def batchGet (gateway : Gateway) (keys : List Record) (fields : Option (List String)) :
    Action Store (List Record) := do
  let keys ← .ofExcept (gateway.keysOf (keys.filter fun key => !Record.hasBlank key))
  let chunks ← .ofExcept (split Record.bytes gateway.config.batchGetChunk.toNat keys)
  gateway.batchGetChunks fields chunks

/-! ## Writes -/

def write (gateway : Gateway) (hooks : Hooks σ) (kind : WriteKind) (args : Record) :
    Action (Store × σ) (Option Record) := do
  let args ← .second (hooks.beforeWrite args (kind == .update))
  let update ← .ofExcept ((Update.build gateway.entity args gateway.tableName).mapError .compile)
  match ← .attempt (.first (Store.update update)) with
  | .error error => .second (hooks.recover error)
  | .ok stored => do
      .second (hooks.afterWrite gateway.name kind args gateway.rangeKey (some stored))
      pure (some stored)

def insert (gateway : Gateway) (hooks : Hooks σ) (args : Record) :
    Action (Store × σ) (Option Record) :=
  gateway.write hooks .create args

def update (gateway : Gateway) (hooks : Hooks σ) (args : Record) :
    Action (Store × σ) (Option Record) :=
  gateway.write hooks .update args

/-- Removes a row and returns it, if there was one. -/
def remove (gateway : Gateway) (hooks : Hooks σ) (args : Record) :
    Action (Store × σ) (Option Record) := do
  let key ← .ofExcept (gateway.keyOf args)
  match ← .attempt (.first (Store.delete gateway.tableName key)) with
  | .error error => .second (hooks.recover error)
  | .ok old => do
      .second (hooks.afterWrite gateway.name .delete args gateway.rangeKey old)
      pure old

/-- Submits requests without hooks. -/
def batchWrite (gateway : Gateway) (requests : List WriteRequest) : Action Store BatchSummary :=
  Batch.write (Store.batchWrite gateway.tableName) gateway.config.batchWriteChunk.toNat
    gateway.config.retry requests

/-- Each item as the hook leaves it; it must have a key. -/
def prepare (gateway : Gateway) (hooks : Hooks σ) : List Record → Action (Store × σ) (List Record)
  | [] => pure []
  | item :: rest => do
      let item ← .second (hooks.beforeWrite item false)
      let _ ← .ofExcept (gateway.keyOf item)
      let items ← gateway.prepare hooks rest
      pure (item :: items)

/-- Tells the hooks of each item, with what was stored for it. -/
def report (gateway : Gateway) (hooks : Hooks σ) (kind : WriteKind)
    (stored : Record → Option Record) : List Record → Action (Store × σ) Unit
  | [] => pure ()
  | item :: rest => do
      .second (hooks.afterWrite gateway.name kind item gateway.rangeKey (stored item))
      gateway.report hooks kind stored rest

def batchPut (gateway : Gateway) (hooks : Hooks σ) (items : List Record) :
    Action (Store × σ) (Option BatchSummary) := do
  let items ← gateway.prepare hooks items
  match ← .attempt (.first (gateway.batchWrite (items.map .put))) with
  | .error error => .second (hooks.recover error)
  | .ok summary => do
      gateway.report hooks .batchPut some items
      pure (some summary)

def batchRemove (gateway : Gateway) (hooks : Hooks σ) (keys : List Record) :
    Action (Store × σ) (Option BatchSummary) := do
  let keys ← .ofExcept (gateway.keysOf keys)
  match ← .attempt (.first (gateway.batchWrite (keys.map .delete))) with
  | .error error => .second (hooks.recover error)
  | .ok summary => do
      gateway.report hooks .delete (fun _ => none) keys
      pure (some summary)

/-! ## Counters -/

/-- Adds to the value at a path, or takes away from it, and returns the new value. -/
def adjust (gateway : Gateway) (key : Record) (path : List String) (subtract : Bool)
    (delta : Json) : Action Store (Option Json) := do
  let key ← .ofExcept (gateway.keyOf key)
  let updated ← Store.update (Update.adjust gateway.tableName key path subtract delta)
  pure (updated.getPath? path)

def increment (gateway : Gateway) (key : Record) (field : String) (delta : Json) :
    Action Store (Option Json) :=
  gateway.adjust key [field] false delta

def decrement (gateway : Gateway) (key : Record) (field : String) (delta : Json) :
    Action Store (Option Json) :=
  gateway.adjust key [field] true delta

def incrementMap (gateway : Gateway) (key : Record) (map field : String) (delta : Json) :
    Action Store (Option Json) :=
  gateway.adjust key [map, field] false delta

/-! ## Retrieval -/

/-- The caller's options, completed by the kind of lookup and the configuration. -/
def complete (gateway : Gateway) (options : Options) (lookup : Lookup) : Options :=
  { options with
    lookup
    strict := options.strict || gateway.config.strictPredicates
    pageSize := some (options.pageSize.getD gateway.config.pageSize) }

def compile (gateway : Gateway) (predicate : Predicate) (options : Options)
    (extra : Option Fragment) : Except StoreError TableRead :=
  (KeyValue.compile gateway.entity predicate options gateway.tableName extra).mapError .compile

/-- The pages of a read. -/
def fetcher (read : TableRead) : Fetch Store := fun request =>
  let read := read.startingAfter request.cursor
  Store.fetch (match request.segment with
    | some segment => read.inSegment (.ofNat segment.index) (.ofNat segment.total)
    | none => read)

/-- A walk to the end of the pages. Unless it goes in a circle, each fetch starts at another place
among the rows, so that one fetch more than there are rows is enough. -/
def toEnd (read : TableRead) (steps : Nat → Action Store α) : Action Store α := fun store =>
  steps ((store.rows read.tableName).length + 1) store

def cursorKeys (gateway : Gateway) (options : Options) : List String :=
  gateway.entity.layout.cursorKeys (options.sort.map SortOrder.index)

def queryAll (gateway : Gateway) (predicate : Predicate) (options : Options)
    (extra : Option Fragment) : Action Store (List Record) := do
  let read ← .ofExcept (gateway.compile predicate (gateway.complete options .query) extra)
  toEnd read fun more => Paging.queryAll (fetcher read) more

def totalCount (gateway : Gateway) (predicate : Predicate) (options : Options)
    (extra : Option Fragment) : Action Store Nat := do
  let read ← .ofExcept (gateway.compile predicate (gateway.complete options .query) extra)
  toEnd read fun more => Paging.totalCount (fetcher read) more

/-- Where rows share a cursor the walk may go in a circle, and ends at the limit. Each page but the
last holds a row, so as many fetches as the limit has rows are enough. -/
def queryPage (gateway : Gateway) (predicate : Predicate) (options : Options)
    (extra : Option Fragment) (start : Option Cursor) (limit : Nat) : Action Store QueryPage := do
  let read ← .ofExcept (gateway.compile predicate (gateway.complete options .query) extra)
  Paging.query (fetcher read) limit start limit (gateway.cursorKeys options)

def segments (gateway : Gateway) : Nat := gateway.config.totalSegments.toNat

def searchAll (gateway : Gateway) (predicate : Predicate) (options : Options)
    (extra : Option Fragment) : Action Store (List Record) := do
  let read ← .ofExcept (gateway.compile predicate (gateway.complete options .scan) extra)
  toEnd read fun more => Paging.ScanRun.toAction
    (Paging.searchAll (fetcher read) (Paging.inTurn (Paging.stepsFor more)) gateway.segments)

/-- No segment makes more fetches than the limit has rows, and one for its last page. -/
def searchPage (gateway : Gateway) (predicate : Predicate) (options : Options)
    (extra : Option Fragment) (start : Option (List SegmentCursor)) (limit : Nat) :
    Action Store ScanPage := do
  let read ← .ofExcept (gateway.compile predicate (gateway.complete options .scan) extra)
  Paging.ScanRun.toAction
    (Paging.search (fetcher read) (Paging.inTurn (Paging.stepsFor (limit + 1))) start
      gateway.segments limit (gateway.cursorKeys options))

end Gateway

end KeyValue

end SchemaQuery
