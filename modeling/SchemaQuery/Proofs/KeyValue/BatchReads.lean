import Mathlib.Data.List.Forall2
import Mathlib.Data.List.ReduceOption
import SchemaQuery.Proofs.Batch.Conservation
import SchemaQuery.Proofs.KeyValue.Writes

/-!
# Reads of many keys

A read of many keys leaves out those with a blank value, takes the keys of all others before it
reads any, and reads them in chunks. None of this can be told from its answer: it is what reads of
one key after the other return, up to the first that fails, whatever the size of the chunks.
-/

namespace SchemaQuery.KeyValue

theorem Store.readTable_eq {α : Type} {store : Store} {name : String} {table : Table}
    (htable : store.tables.get? name = some table) (read : Table → Except StoreError α) :
    readTable name read store = (read table, store) := by
  rw [readTable, Store.table, htable]
  rfl

namespace Gateway

variable {gateway : Gateway} {store : Store} {table : Table}

/-- The attributes that a read returns, as its request names them; all if none are asked for. -/
def attributes (fields : Option (List String)) : Option (List String) :=
  fields.bind fun fields => (Projection.ofFields fields).fields?

theorem get_eq (htable : store.tables.get? gateway.tableName = some table) (key : Record)
    (fields : Option (List String)) :
    gateway.get key fields store =
      (if key.hasBlank then .ok none
        else (gateway.keyOf key).map fun key =>
          (table.find? key).map (·.project (attributes fields)), store) := by
  unfold get
  split
  next => rfl
  next =>
    cases gateway.keyOf key with
    | error error => rfl
    | ok key =>
        cases fields with
        | none => exact Store.readTable_eq htable _
        | some fields => exact Store.readTable_eq htable _

theorem batchGetChunks_eq (htable : store.tables.get? gateway.tableName = some table)
    (fields : Option (List String)) (batches : List (List Record)) :
    gateway.batchGetChunks fields batches store =
      (.ok ((batches.flatten.filterMap table.find?).map (·.project (attributes fields))),
        store) := by
  have hread (read : Table → Except StoreError (List Record)) :
      Store.readTable gateway.tableName read store = (read table, store) :=
    Store.readTable_eq htable read
  induction batches with
  | nil => rfl
  | cons keys rest ih =>
      rw [List.flatten_cons, List.filterMap_append, List.map_append]
      cases fields with
      | none =>
          rw [batchGetChunks, Action.bind_apply]
          simp only [Store.batchGet, hread, Action.bind_apply, ih]
          rfl
      | some fields =>
          rw [batchGetChunks, Action.bind_apply]
          simp only [Store.batchGet, BatchGetRequest.project, hread, Action.bind_apply, ih]
          rfl

/-- A read of many keys takes them all before it reads; with room for the chunks, they do not
show. -/
theorem batchGet_eq (hroom : Reservable Record.bytes gateway.config.batchGetChunk.toNat)
    (htable : store.tables.get? gateway.tableName = some table) (keys : List Record)
    (fields : Option (List String)) :
    gateway.batchGet keys fields store =
      ((gateway.keysOf (keys.filter fun key => !key.hasBlank)).map fun keys =>
        (keys.filterMap table.find?).map (·.project (attributes fields)), store) := by
  rw [batchGet, Action.bind_apply]
  cases gateway.keysOf (keys.filter fun key => !key.hasBlank) with
  | error error => rfl
  | ok keys =>
      have hsplit : split Record.bytes gateway.config.batchGetChunk.toNat keys =
          .ok (chunks gateway.config.batchGetChunk.toNat keys) :=
        reserving_of_reservable (hroom.max (by decide)) _
      dsimp only [Action.ofExcept_apply]
      rw [hsplit, Action.ofExcept_ok_bind, batchGetChunks_eq htable, flatten_chunks]
      rfl

/-- What one key adds to a read of many. -/
theorem batchGet_cons (hroom : Reservable Record.bytes gateway.config.batchGetChunk.toNat)
    (htable : store.tables.get? gateway.tableName = some table) (key : Record)
    (rest : List Record) (fields : Option (List String)) :
    gateway.batchGet (key :: rest) fields store =
      ((gateway.get key fields store).1.bind fun found =>
        (gateway.batchGet rest fields store).1.map (found.toList ++ ·), store) := by
  simp only [batchGet_eq hroom htable, get_eq htable, List.filter_cons]
  refine congrArg (·, store) ?_
  cases key.hasBlank with
  | true =>
      simp only [Bool.not_true, Bool.false_eq_true, if_false, if_true]
      cases gateway.keysOf (rest.filter fun key => !key.hasBlank) <;> rfl
  | false =>
      simp only [Bool.not_false, if_true, Bool.false_eq_true, if_false, keysOf_cons]
      cases gateway.keyOf key with
      | error error => rfl
      | ok key =>
          cases gateway.keysOf (rest.filter fun key => !key.hasBlank) with
          | error error => rfl
          | ok keys =>
              refine congrArg Except.ok ?_
              simp only [List.filterMap_cons]
              cases table.find? key <;> rfl

theorem get_cases (htable : store.tables.get? gateway.tableName = some table) (key : Record)
    (fields : Option (List String)) :
    (∃ error, gateway.get key fields store = (.error error, store)) ∨
      ∃ found, gateway.get key fields store = (.ok found, store) := by
  rw [get_eq htable]
  cases (if key.hasBlank then .ok none else (gateway.keyOf key).map fun key =>
    (table.find? key).map (·.project (attributes fields))) with
  | error error => exact Or.inl ⟨error, rfl⟩
  | ok found => exact Or.inr ⟨found, rfl⟩

/-- **Reads of many keys.** In a table that exists, a read of many keys, in chunks for which there
can be room, fails as the first read of one of them does that fails; if none fails, it returns what
these reads find, in the order of the keys. The size of the chunks makes no difference. -/
theorem batchGet_reads_each (gateway : Gateway) {store : Store} {table : Table}
    (hroom : Reservable Record.bytes gateway.config.batchGetChunk.toNat)
    (htable : store.tables.get? gateway.tableName = some table) (keys : List Record)
    (fields : Option (List String)) :
    ((∃ before key after error, keys = before ++ key :: after ∧
        (∀ earlier ∈ before, ∃ found, gateway.get earlier fields store = (.ok found, store)) ∧
        gateway.get key fields store = (.error error, store) ∧
        gateway.batchGet keys fields store = (.error error, store)) ∨
      ∃ found : List (Option Record),
        List.Forall₂ (fun key found => gateway.get key fields store = (.ok found, store))
          keys found ∧
        gateway.batchGet keys fields store = (.ok found.reduceOption, store)) ∧
    ∀ other : Gateway, other.entity = gateway.entity →
      other.config = { gateway.config with batchGetChunk := other.config.batchGetChunk } →
      Reservable Record.bytes other.config.batchGetChunk.toNat →
      other.batchGet keys fields store = gateway.batchGet keys fields store := by
  refine ⟨?_, fun other hentity hconfig hother => ?_⟩
  · induction keys with
    | nil => exact Or.inr ⟨[], .nil, batchGet_eq hroom htable [] fields⟩
    | cons key rest ih =>
        have hcons := batchGet_cons hroom htable key rest fields
        rcases get_cases htable key fields with ⟨error, hget⟩ | ⟨first, hget⟩
        · rw [hget] at hcons
          exact Or.inl ⟨[], key, rest, error, rfl, fun _ hmem => absurd hmem List.not_mem_nil, hget,
            hcons⟩
        rcases ih with ⟨before, failing, after, error, rfl, hbefore, herror, hrest⟩ |
          ⟨found, hfound, hrest⟩
        · rw [hget, hrest] at hcons
          exact Or.inl ⟨key :: before, failing, after, error, rfl,
            List.forall_mem_cons.mpr ⟨⟨first, hget⟩, hbefore⟩, herror, hcons⟩
        · rw [hget, hrest] at hcons
          refine Or.inr ⟨first :: found, .cons hget hfound, hcons.trans ?_⟩
          cases first <;> rfl
  · have hname : other.tableName = gateway.tableName := by
      rw [tableName, name, hentity, hconfig]
      rfl
    rw [batchGet_eq hroom htable, batchGet_eq hother (hname ▸ htable), keysOf_eq, keysOf_eq,
      hentity]

/-- Berths of a harbour by quay and number, read two at a time. -/
def berths : Gateway where
  entity := ⟨⟨"berths", [("quay", { type := .string, isHashKey := true }),
    ("number", { type := .number, isRangeKey := true }), ("ship", { type := .string })],
    by decide⟩, by decide⟩
  config := { batchGetChunk := 2 }
  accepted := by decide

/-- The same, read in one go. -/
def berthsAtOnce : Gateway := { berths with config := {}, accepted := Config.fault?_default }

def berth (number : Nat) (quay : String) : Record :=
  [("number", .nat number), ("quay", .string quay)]

def berthStore : Store where
  tables := [("berths", ⟨["number", "quay"],
    [[("number", .nat 1), ("quay", .string "east"), ("ship", .string "Ida")],
      [("number", .nat 2), ("quay", .string "east"), ("ship", .string "Ole")]]⟩)]

/-- One berth is asked for twice, one has no quay, and one is not there. -/
def berthKeys : List Record :=
  [berth 2 "east", berth 1 "", berth 3 "east", berth 2 "east", berth 1 "east"]

/-- Of two more keys the blank one reads nothing, and the other one is not complete. -/
def incompleteKeys : List Record := berthKeys ++ [[("quay", .null)], [("number", .nat 4)]]

theorem berths_read_each :
    (∃ found : List (Option Record),
      List.Forall₂ (fun key found => berths.get key (some ["ship"]) berthStore =
        (.ok found, berthStore)) berthKeys found ∧
      berths.batchGet berthKeys (some ["ship"]) berthStore =
        (.ok found.reduceOption, berthStore)) ∧
    (∃ before key after error, incompleteKeys = before ++ key :: after ∧
      berths.get key none berthStore = (.error error, berthStore) ∧
      berths.batchGet incompleteKeys none berthStore = (.error error, berthStore)) ∧
    berthsAtOnce.batchGet berthKeys none berthStore = berths.batchGet berthKeys none berthStore := by
  have htable : berthStore.tables.get? berths.tableName = some _ := rfl
  have hroom : Reservable Record.bytes berths.config.batchGetChunk.toNat := by decide
  refine ⟨?_, ?_,
    (batchGet_reads_each berths hroom htable berthKeys none).2 berthsAtOnce rfl rfl (by decide)⟩
  · rcases (batchGet_reads_each berths hroom htable berthKeys (some ["ship"])).1 with
      ⟨_, _, _, error, _, _, _, hfails⟩ | hfound
    · have hreads : (berths.batchGet berthKeys (some ["ship"]) berthStore).1.toBool = true := rfl
      rw [hfails] at hreads
      cases hreads
    · exact hfound
  · rcases (batchGet_reads_each berths hroom htable incompleteKeys none).1 with
      ⟨before, key, after, error, hkeys, -, hget, hfails⟩ | ⟨found, -, hfound⟩
    · exact ⟨before, key, after, error, hkeys, hget, hfails⟩
    · have hfails : (berths.batchGet incompleteKeys none berthStore).1.toBool = false := rfl
      rw [hfound] at hfails
      cases hfails

end Gateway

end SchemaQuery.KeyValue
