import SchemaQuery.Config
import SchemaQuery.Document.Store
import SchemaQuery.Hooks
import SchemaQuery.Paging.Page

/-!
# Entities in a document store

A gateway reads and writes the documents of one entity. Pages are numbered; a page is followed by
another as long as documents are left behind it.
-/

namespace SchemaQuery.Document

structure Gateway where
  entity : Entity
  config : Config
  accepted : config.fault? = none

/-- The documents of one page, and the number of the next. -/
structure NumberedPage where
  items : List Record
  nextPage : Option Nat
  ending : Ending

/-- The number that adds what another takes away. The least integer of 64 bits is left out: its
negative is none of 64 bits. -/
def negated? : Json → Option Json
  | .number (.int n) =>
      if fitsInt64 n then some (.number (.int (-n)))
      else some (.number (.float (Binary64.ofInt n).neg))
  | .number (.float x) => some (.number (.float x.neg))
  | _ => none

namespace Gateway

def create (entity : Entity) (config : Config) : Except StoreError Gateway :=
  match h : config.fault? with
  | some fault => .error (.invalidConfig fault)
  | none => .ok ⟨entity, config, h⟩

/-- Registers a schema. -/
def ofSchema (schema : Schema) (config : Config) : Except StoreError Gateway :=
  match Entity.register schema with
  | .ok entity => create entity config
  | .error error => .error (.schema error)

variable {σ : Type}

def name (gateway : Gateway) : String := gateway.entity.name

def collection (gateway : Gateway) : String := gateway.config.tableName gateway.name

def rangeKey (gateway : Gateway) : Option String := gateway.entity.layout.rangeKey

def keyOf (gateway : Gateway) (row : Record) : Except StoreError Record :=
  (gateway.entity.uniqueKey row).mapError .compile

def keysOf (gateway : Gateway) : List Record → Except StoreError (List Record)
  | [] => .ok []
  | row :: rest =>
      match gateway.keyOf row with
      | .error error => .error error
      | .ok key =>
          match gateway.keysOf rest with
          | .ok keys => .ok (key :: keys)
          | .error error => .error error

/-! ## Point reads -/

/-- The first document that a filter selects; nothing for a filter with a blank value. -/
def get (gateway : Gateway) (filter : Record) (fields : Option (List String)) :
    Action Store (Option Record) :=
  if filter.any fun (_, value) => !value.isConcrete then pure none
  else do
    let found ← Store.findOne gateway.collection filter
    pure (found.map fun document => document.project fields)

/-- What each filter selects; those that select nothing are left out. -/
def batchGet (gateway : Gateway) (fields : Option (List String)) :
    List Record → Action Store (List Record)
  | [] => pure []
  | filter :: rest => do
      let found ← gateway.get filter fields
      let more ← gateway.batchGet fields rest
      pure (found.toList ++ more)

/-! ## Writes -/

def insert (gateway : Gateway) (hooks : Hooks σ) (args : Record) :
    Action (Store × σ) (Option Record) := do
  let args ← .second (hooks.beforeWrite args false)
  match ← .attempt (.first (Store.insert gateway.collection args)) with
  | .error error => .second (hooks.recover error)
  | .ok stored => do
      .second (hooks.afterWrite gateway.name .create args gateway.rangeKey (some stored))
      pure (some stored)

/-- Changes the document with the same unique key, if there is one. -/
def update (gateway : Gateway) (hooks : Hooks σ) (args : Record) :
    Action (Store × σ) (Option Record) := do
  let args ← .second (hooks.beforeWrite args true)
  let update ← .ofExcept ((Update.build gateway.entity args).mapError .compile)
  match ← .attempt (.first (Store.update gateway.collection update)) with
  | .error error => .second (hooks.recover error)
  | .ok stored => do
      .second (hooks.afterWrite gateway.name .update args gateway.rangeKey stored)
      pure stored

/-- Removes a document and returns it; the hooks see no input if there was none. -/
def remove (gateway : Gateway) (hooks : Hooks σ) (args : Record) :
    Action (Store × σ) (Option Record) := do
  let key ← .ofExcept (gateway.keyOf args)
  match ← .attempt (.first (Store.delete gateway.collection key)) with
  | .error error => .second (hooks.recover error)
  | .ok old => do
      let input := if old.isSome then args else []
      .second (hooks.afterWrite gateway.name .delete input gateway.rangeKey old)
      pure old

/-- Each item as the hook leaves it, with the upsert it makes. -/
def prepare (gateway : Gateway) (hooks : Hooks σ) :
    List Record → Action (Store × σ) (List (Record × Update))
  | [] => pure []
  | item :: rest => do
      let item ← .second (hooks.beforeWrite item false)
      let update ← .ofExcept ((Update.build gateway.entity item).mapError .compile)
      let prepared ← gateway.prepare hooks rest
      pure ((item, update.upserting) :: prepared)

/-- Tells the hooks of each item. -/
def report (gateway : Gateway) (hooks : Hooks σ) (kind : WriteKind) :
    List Record → Action (Store × σ) Unit
  | [] => pure ()
  | item :: rest => do
      .second (hooks.afterWrite gateway.name kind item gateway.rangeKey (some item))
      gateway.report hooks kind rest

/-- Changes or makes the document of every item, in one bulk write. -/
def batchPut (gateway : Gateway) (hooks : Hooks σ) (items : List Record) :
    Action (Store × σ) (Option Nat) := do
  let prepared ← gateway.prepare hooks items
  let writes := prepared.map fun item => BulkWrite.update item.2
  match ← .attempt (.first (Store.bulk gateway.collection writes)) with
  | .error error => .second (hooks.recover error)
  | .ok touched => do
      gateway.report hooks .batchPut (prepared.map (·.1))
      pure (some touched)

def batchRemove (gateway : Gateway) (hooks : Hooks σ) (keys : List Record) :
    Action (Store × σ) (Option Nat) := do
  let filters ← .ofExcept (gateway.keysOf keys)
  match ← .attempt (.first (Store.bulk gateway.collection (filters.map .delete))) with
  | .error error => .second (hooks.recover error)
  | .ok touched => do
      gateway.report hooks .delete keys
      pure (some touched)

/-! ## Counters -/

/-- Adds to the value at a path and returns the new value, if there is such a document. -/
def adjust (gateway : Gateway) (key : Record) (path : List String) (delta : Json) :
    Action Store (Option Json) := do
  let filter ← .ofExcept (gateway.keyOf key)
  let updated ← Store.update gateway.collection (Update.increment filter path delta)
  pure (updated.bind fun document => document.getPath? path)

def increment (gateway : Gateway) (key : Record) (field : String) (delta : Json) :
    Action Store (Option Json) :=
  gateway.adjust key [field] delta

def decrement (gateway : Gateway) (key : Record) (field : String) (delta : Json) :
    Action Store (Option Json) :=
  match negated? delta with
  | some delta => gateway.adjust key [field] delta
  | none => .fail (.backend .decrementNotNumeric)

def incrementMap (gateway : Gateway) (key : Record) (map field : String) (delta : Json) :
    Action Store (Option Json) :=
  gateway.adjust key [map, field] delta

/-! ## Retrieval -/

def compile (gateway : Gateway) (predicate : Predicate) (options : Options)
    (extra : Option Fragment) : Except StoreError Query :=
  let strict := options.strict || gateway.config.strictPredicates
  (Query.compile gateway.entity predicate { options with strict } extra).mapError .compile

def queryAll (gateway : Gateway) (predicate : Predicate) (options : Options)
    (extra : Option Fragment) : Action Store (List Record) := do
  let query ← .ofExcept (gateway.compile predicate options extra)
  Store.find gateway.collection query none

def totalCount (gateway : Gateway) (predicate : Predicate) (options : Options)
    (extra : Option Fragment) : Action Store Nat := do
  let query ← .ofExcept (gateway.compile predicate options extra)
  Store.count gateway.collection query

/-- The page of a number; the first if there is none. -/
def queryPage (gateway : Gateway) (predicate : Predicate) (options : Options)
    (extra : Option Fragment) (page : Option Nat) (limit : Nat) : Action Store NumberedPage :=
  if limit = 0 then .fail (.invalidLimit limit)
  else
    let page := page.getD 1
    if page = 0 then .fail (.invalidCursor .pagesStartAtOne)
    else do
      let query ← .ofExcept (gateway.compile predicate options extra)
      let window := Window.ofPage page limit
      let items ← Store.find gateway.collection query (some window)
      let total ← Store.count gateway.collection query
      let more := decide (window.skip + items.length < total)
      pure {
        items
        nextPage := if more then some (page + 1) else none
        ending := if more then .limitReached else .done }

end Gateway

end SchemaQuery.Document
