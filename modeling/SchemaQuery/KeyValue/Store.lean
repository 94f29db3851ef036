import SchemaQuery.KeyValue.Update
import SchemaQuery.Paging.Page
import SchemaQuery.Store.Values

/-!
# A key-value store in memory

Tables of rows with key fields. Reads are paged, in the order of an index, along one segment or the
whole; conditions are not evaluated, so every row is a candidate. Writes of a batch can be told to
come back unprocessed a number of times.
-/

namespace SchemaQuery.KeyValue

structure Table where
  keyFields : List String
  rows : List Record

namespace Table

/-- The row in the place of the one with the same key, or at the end. -/
def upsert (table : Table) (row : Record) : Table :=
  { table with rows := Record.put (row.pick table.keyFields) row table.rows }

def find? (table : Table) (key : Record) : Option Record :=
  table.rows.find? fun row => row.hasKey key

def remove (table : Table) (key : Record) : Table :=
  { table with rows := table.rows.eraseP fun row => row.hasKey key }

/-- The rows of one segment: every `total`-th, beginning with number `segment`. Places are counted
in words of 32 bits. -/
def segmentRows (segment total : Nat) (rows : List Record) : List Record :=
  (rows.zipIdx.filter fun (_, place) => place % UInt32.size % total == segment).map (·.1)

def candidates (table : Table) (read : TableRead) : List Record :=
  match read.segment, read.totalSegments with
  | some segment, some total =>
      if total = 0 then table.rows else segmentRows segment.toNat total.toNat table.rows
  | _, _ => table.rows

/-- The field that an index sorts by: its name without the mark of a global index. -/
def indexField (name : String) : String :=
  let suffix := (GlobalIndex.nameFor "").toList
  if suffix.isSuffixOf name.toList then
    String.ofList (name.toList.take (name.toList.length - suffix.length))
  else name

/-- The candidates in the order of the index. -/
def ordered (table : Table) (read : TableRead) : List Record :=
  let rows := table.candidates read
  match read.indexName with
  | some name => sortRows (fun row => row.get? (indexField name)) (read.forward == some false) rows
  | none => rows

/-- The rows behind the one that a cursor points at. -/
def after (rows : List Record) : Option Cursor → Except StoreError (List Record)
  | none => .ok rows
  | some cursor =>
      match rows.findIdx? cursor.pointsAt with
      | some place => .ok (rows.drop (place + 1))
      | none => .error (.invalidCursor .startKeyNotFound)

/-- The fields of a cursor: the keys and the field sorted by. -/
def cursorFields (table : Table) (read : TableRead) : List String :=
  table.keyFields ++ (read.indexName.map indexField).toList

def page (table : Table) (read : TableRead) : Except StoreError Page :=
  (after (table.ordered read) read.startKey).map fun rows =>
    let items :=
      match read.limit with
      | some limit => rows.take limit.toNat
      | none => rows
    let next :=
      if items.length < rows.length then
        items.getLast?.map fun row => Cursor.ofRow row (table.cursorFields read)
      else none
    let fields := Projection.fields? ⟨read.projection, read.names⟩
    ⟨items.map fun row => row.project fields, next⟩

end Table

namespace Assignment

def apply (row : Record) : Assignment → Except BackendFault Record
  | set path value => row.setPath path value
  | adjust path subtract delta =>
      match Json.adjust (row.getPath? path) delta subtract with
      | .ok value => row.setPath path value
      | .error fault => .error fault

def applyAll (row : Record) : List Assignment → Except BackendFault Record
  | [] => .ok row
  | assignment :: rest =>
      match assignment.apply row with
      | .ok row => applyAll row rest
      | .error fault => .error fault

end Assignment

namespace Update

/-- What the store returns of the row updated. -/
def returned (update : Update) (row : Record) : Record :=
  match update.returns with
  | .allNew => row
  | .updatedNew => row.pick (update.assignments.filterMap fun assignment => assignment.path.head?)

/-- Updates the row with the key. If there is none, a row of the key alone is made first; it stays
even if the assignments fail. -/
def applyTo (update : Update) (table : Table) : Except StoreError Record × Table :=
  let found := table.find? update.key
  match Assignment.applyAll (found.getD update.key) update.assignments with
  | .ok row =>
      (.ok (update.returned row), { table with rows := Record.put update.key row table.rows })
  | .error fault =>
      (.error (.backend fault),
        if found.isSome then table else { table with rows := table.rows ++ [update.key] })

end Update

/-- Writes of a key to be left unprocessed some times more. -/
structure Deferral where
  key : Record
  times : Nat

structure Store where
  tables : Members Table := []
  deferrals : List Deferral := []
  /-- The sizes of the batches submitted. -/
  submissions : List Nat := []
  /-- The number of pages served. -/
  fetches : Nat := 0

namespace Store

def declare (store : Store) (name : String) (keyFields : List String) : Store :=
  { store with tables := store.tables.set name ⟨keyFields, []⟩ }

def rows (store : Store) (name : String) : List Record :=
  ((store.tables.get? name).map Table.rows).getD []

def defer (store : Store) (key : Record) (times : Nat) : Store :=
  { store with deferrals := store.deferrals ++ [⟨key, times⟩] }

/-- A table of the store, or the failure that there is none. -/
def table (store : Store) (name : String) : Except StoreError Table :=
  match store.tables.get? name with
  | some table => .ok table
  | none => .error (.backend (.unknownTable name))

/-- Works on one table. -/
def onTable (name : String) (work : Table → Except StoreError α × Table) : Action Store α :=
  fun store =>
    match store.table name with
    | .error error => (.error error, store)
    | .ok table =>
        let (result, table) := work table
        (result, { store with tables := store.tables.set name table })

/-- Reads one table. -/
def readTable (name : String) (read : Table → Except StoreError α) : Action Store α := fun store =>
  ((store.table name).bind read, store)

def seed (name : String) (rows : List Record) : Action Store Unit :=
  onTable name fun table => (.ok (), rows.foldl Table.upsert table)

def fetch (read : TableRead) : Action Store Page := fun store =>
  let store := { store with fetches := store.fetches + 1 }
  readTable read.tableName (fun table => table.page read) store

def get (request : GetRequest) : Action Store (Option Record) :=
  readTable request.tableName fun table =>
    .ok ((table.find? request.key).map fun row => row.project request.projection.fields?)

def batchGet (request : BatchGetRequest) : Action Store (List Record) :=
  readTable request.tableName fun table =>
    .ok ((request.keys.filterMap table.find?).map fun row => row.project request.projection.fields?)

def update (update : Update) : Action Store Record := onTable update.tableName update.applyTo

def delete (name : String) (key : Record) : Action Store (Option Record) :=
  onTable name fun table => (.ok (table.find? key), table.remove key)

/-- Uses up one deferral of a write, if there is one left. -/
def takeDeferral (attributes : Record) : List Deferral → Option (List Deferral)
  | [] => none
  | deferral :: rest =>
      if 0 < deferral.times ∧ attributes.hasKey deferral.key then
        some ({ deferral with times := deferral.times - 1 } :: rest)
      else (takeDeferral attributes rest).map (deferral :: ·)

def applyRequest (table : Table) : WriteRequest → Table
  | .put item => table.upsert item
  | .delete key => table.remove key

/-- Processes the requests in order; those deferred are left. -/
def process : List WriteRequest → Table → List Deferral →
    List WriteRequest × Table × List Deferral
  | [], table, deferrals => ([], table, deferrals)
  | request :: rest, table, deferrals =>
      match takeDeferral request.attributes deferrals with
      | some deferrals =>
          let (left, result) := process rest table deferrals
          (request :: left, result)
      | none => process rest (applyRequest table request) deferrals

def batchWrite (name : String) (requests : List WriteRequest) : Action Store (List WriteRequest) :=
  fun store =>
    let store := { store with submissions := store.submissions ++ [requests.length] }
    match store.table name with
    | .error error => (.error error, store)
    | .ok table =>
        let (left, table, deferrals) := process requests table store.deferrals
        (.ok left, { store with tables := store.tables.set name table, deferrals })

end Store

end SchemaQuery.KeyValue
