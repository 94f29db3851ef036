import SchemaQuery.Document.Matching
import SchemaQuery.Paging.Window
import SchemaQuery.Store.Action

/-!
# A document store in memory

Collections of documents with unique fields. Queries evaluate their conditions and order what they
find; updates set values and add to them at paths with points.
-/

namespace SchemaQuery.Document

structure Collection where
  unique : List String
  documents : List Record

/-- One operation of a bulk write. -/
inductive BulkWrite where
  | update (update : Update)
  | delete (filter : Record)

namespace Update

def setAll (document : Record) : Record → Except BackendFault Record
  | [] => .ok document
  | (path, value) :: rest =>
      match document.setPath (pathOf path) value with
      | .ok document => setAll document rest
      | .error fault => .error fault

def addAll (document : Record) : Record → Except BackendFault Record
  | [] => .ok document
  | (path, delta) :: rest =>
      match Json.adjust (document.getPath? (pathOf path)) delta false with
      | .error fault => .error fault
      | .ok value =>
          match document.setPath (pathOf path) value with
          | .ok document => addAll document rest
          | .error fault => .error fault

/-- The document after the update. -/
def change (update : Update) (document : Record) : Except BackendFault Record :=
  match setAll document update.set with
  | .ok document => addAll document update.inc
  | .error fault => .error fault

end Update

namespace Collection

def find? (collection : Collection) (key : Record) : Option Record :=
  collection.documents.find? fun document => document.hasKey key

def remove (collection : Collection) (key : Record) : Collection :=
  { collection with documents := collection.documents.eraseP fun document => document.hasKey key }

/-- Updates the first document that has the values of the filter. If there is none, an upsert makes
one of the filter alone first; it stays even if the update fails. -/
def apply (collection : Collection) (update : Update) :
    Except StoreError (Option Record) × Collection :=
  let found := collection.find? update.filter
  if found.isNone && !update.upsert then (.ok none, collection)
  else
    match update.change (found.getD update.filter) with
    | .ok document =>
        (.ok (some document),
          { collection with documents := Record.put update.filter document collection.documents })
    | .error fault =>
        (.error (.backend fault),
          if found.isSome then collection
          else { collection with documents := collection.documents ++ [update.filter] })

/-- Adds a document whose unique fields no other one has. -/
def insert (collection : Collection) (name : String) (document : Record) :
    Except StoreError Record × Collection :=
  let key := document.pick collection.unique
  if (collection.find? key).isSome then (.error (.backend (.duplicateKey key name)), collection)
  else (.ok document, { collection with documents := collection.documents ++ [document] })

/-- Runs operations in order up to the first that fails, and counts those that met a document. -/
def bulk : List BulkWrite → Collection → Except StoreError Nat × Collection
  | [], collection => (.ok 0, collection)
  | .update update :: rest, collection =>
      match collection.apply update with
      | (.error error, collection) => (.error error, collection)
      | (.ok document, collection) =>
          let (result, collection) := bulk rest collection
          (result.map fun touched => if document.isSome then touched + 1 else touched, collection)
  | .delete filter :: rest, collection =>
      let met := (collection.find? filter).isSome
      let (result, collection) := bulk rest (collection.remove filter)
      (result.map fun touched => if met then touched + 1 else touched, collection)

/-- The documents of a query in its order. -/
def select (collection : Collection) (query : Query) : Except StoreError (List Record) :=
  match selectAll query.conditions collection.documents with
  | .error fault => .error (.backend fault)
  | .ok found =>
      .ok (match query.order with
        | some order =>
            sortRows (fun document => document.getPath? (pathOf order.field)) order.descending found
        | none => found)

def find (collection : Collection) (query : Query) (window : Option Window) :
    Except StoreError (List Record) :=
  (collection.select query).map fun found =>
    let inWindow :=
      match window with
      | some window => (found.drop window.skip).take window.limit
      | none => found
    let fields := if query.projection.isEmpty then none else some query.projection
    inWindow.map fun document => document.project fields

end Collection

structure Store where
  collections : Members Collection := []

namespace Store

def declare (store : Store) (name : String) (unique : List String) : Store :=
  { store with collections := store.collections.set name ⟨unique, []⟩ }

def documents (store : Store) (name : String) : List Record :=
  ((store.collections.get? name).map Collection.documents).getD []

def collection (store : Store) (name : String) : Except StoreError Collection :=
  match store.collections.get? name with
  | some collection => .ok collection
  | none => .error (.backend (.unknownCollection name))

def onCollection (name : String) (work : Collection → Except StoreError α × Collection) :
    Action Store α := fun store =>
  match store.collection name with
  | .error error => (.error error, store)
  | .ok collection =>
      let (result, collection) := work collection
      (result, { store with collections := store.collections.set name collection })

def readCollection (name : String) (read : Collection → Except StoreError α) : Action Store α :=
  fun store => ((store.collection name).bind read, store)

/-- Adds documents without looking at their keys. -/
def seed (name : String) (documents : List Record) : Action Store Unit :=
  onCollection name fun collection =>
    (.ok (), { collection with documents := collection.documents ++ documents })

def find (name : String) (query : Query) (window : Option Window) : Action Store (List Record) :=
  readCollection name fun collection => collection.find query window

def count (name : String) (query : Query) : Action Store Nat :=
  readCollection name fun collection => (collection.select query).map List.length

def findOne (name : String) (filter : Record) : Action Store (Option Record) :=
  readCollection name fun collection =>
    (selectFirst filter collection.documents).mapError .backend

def insert (name : String) (document : Record) : Action Store Record :=
  onCollection name fun collection => collection.insert name document

def update (name : String) (update : Update) : Action Store (Option Record) :=
  onCollection name fun collection => collection.apply update

def delete (name : String) (filter : Record) : Action Store (Option Record) :=
  onCollection name fun collection => (.ok (collection.find? filter), collection.remove filter)

def bulk (name : String) (writes : List BulkWrite) : Action Store Nat :=
  onCollection name fun collection => collection.bulk writes

end Store

end SchemaQuery.Document
