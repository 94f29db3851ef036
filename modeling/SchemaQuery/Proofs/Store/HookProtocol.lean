import SchemaQuery.Proofs.Store.Aborting
import SchemaQuery.Proofs.Store.Courses

/-!
# Hooks of the calls that write

Five calls of either kind of entity write rows with hooks. Each has its items, its check and its
write, and follows the one course there is; on a table, insertion and update are the same but for
the kind of write. Only a batch on a table can be without room.
-/

namespace SchemaQuery

namespace KeyValue.Gateway

variable (gateway : Gateway) {σ : Type}

def writing (kind : WriteKind) (args : Record) : Course Store Update Update Record Record where
  entity := gateway.name
  rangeKey := gateway.rangeKey
  kind
  items := [args]
  asks := some (kind == .update)
  check := fun row => (Update.build gateway.entity row gateway.tableName).mapError .compile
  parts := fun update => [update]
  room := True
  write := Store.update
  write_goes := fun _ => Store.update_neverAborts
  write_aborts := fun hno => absurd trivial hno
  told := fun stored item => (item.1, some stored)
  told_payload := fun _ _ _ => rfl
  result := some

theorem writing_isFollowedBy (kind : WriteKind) (args : Record) :
    (gateway.writing kind args).IsFollowedBy fun _ hooks => gateway.write hooks kind args := by
  refine Course.isFollowedBy_single rfl (fun _ => rfl) fun _ hooks => ?_
  apply bind_congr
  intro given
  apply bind_congr
  intro update
  exact (gateway.writing kind args).eq_finish_single (fun _ => rfl) fun _ => rfl

def removal (args : Record) : Course Store Record Record (Option Record) Record where
  entity := gateway.name
  rangeKey := gateway.rangeKey
  kind := .delete
  items := [args]
  asks := none
  check := gateway.keyOf
  parts := fun key => [key]
  room := True
  write := Store.delete gateway.tableName
  write_goes := fun _ => Store.delete_neverAborts gateway.tableName
  write_aborts := fun hno => absurd trivial hno
  told := fun old item => (item.1, old)
  told_payload := fun _ _ _ => rfl
  result := id

theorem removal_isFollowedBy (args : Record) :
    (gateway.removal args).IsFollowedBy fun _ hooks => gateway.remove hooks args := by
  refine Course.isFollowedBy_single rfl (fun _ => rfl) fun _ hooks => ?_
  show _ = (Action.ofExcept (gateway.keyOf args) >>= fun key =>
    (gateway.removal args).finish hooks key [(args, key)])
  apply bind_congr
  intro key
  exact (gateway.removal args).eq_finish_single (fun _ => rfl) fun _ => rfl

theorem report_eq_tellAll (hooks : Hooks σ) (kind : WriteKind) (stored : Record → Option Record)
    (rows : List Record) :
    gateway.report hooks kind stored rows = hooks.tellAll (rows.map fun row =>
      ⟨gateway.name, kind, row, gateway.rangeKey, stored row, hooks.attributes⟩) := by
  induction rows with
  | nil => rfl
  | cons row rest ih =>
      rw [report, ih]
      rfl

def batchPutting (items : List Record) :
    Course Store Record (List Record) BatchSummary BatchSummary where
  entity := gateway.name
  rangeKey := gateway.rangeKey
  kind := .batchPut
  items
  asks := some false
  check := fun row => (gateway.keyOf row).map fun _ => row
  parts := id
  room := Reservable WriteRequest.bytes gateway.config.batchWriteChunk.toNat
  write := fun rows => gateway.batchWrite (rows.map .put)
  write_goes := fun hroom rows => gateway.batchWrite_neverAborts hroom (rows.map .put)
  write_aborts := fun hno rows => gateway.batchWrite_of_not_reservable hno (rows.map .put)
  told := fun _ item => (item.1, some item.1)
  told_payload := fun _ _ _ => rfl
  result := some

theorem gathers_prepare (hooks : Hooks σ) (items : List Record) :
    (gateway.batchPutting items).Gathers hooks (gateway.prepare hooks items)
      (List.map Prod.fst) := by
  refine (gateway.batchPutting items).gathers_of_cons (gateway.prepare hooks) rfl (fun _ _ => rfl)
    fun item rest => ?_
  rw [prepare]
  apply bind_congr
  intro given
  show _ = (Action.ofExcept ((gateway.keyOf given).map fun _ => given) >>= _)
  cases gateway.keyOf given <;> rfl

theorem batchPutting_isFollowedBy (items : List Record) :
    (gateway.batchPutting items).IsFollowedBy fun _ hooks => gateway.batchPut hooks items := by
  refine Course.isFollowedBy_of_proceeds fun _ hooks start => ?_
  refine Course.proceeds_batch (gateway.gathers_prepare hooks items) ?_ start
  intro prepared hchecked _
  refine ⟨prepared.map Prod.fst, ?_, ?_⟩
  · refine List.map_congr_left fun item hitem => ?_
    have hrow : (gateway.keyOf item.1).map (fun _ => item.1) = .ok item.2 := hchecked item hitem
    cases hkey : gateway.keyOf item.1 with
    | error error =>
        rw [hkey] at hrow
        cases hrow
    | ok key =>
        rw [hkey] at hrow
        exact Except.ok.inj hrow
  · refine (gateway.batchPutting items).eq_finish (fun _ => rfl) fun summary => ?_
    rw [report_eq_tellAll, List.map_map]
    rfl

def batchRemoval (rows : List Record) :
    Course Store Record (List Record) BatchSummary BatchSummary where
  entity := gateway.name
  rangeKey := gateway.rangeKey
  kind := .delete
  items := rows
  asks := none
  check := gateway.keyOf
  parts := id
  room := Reservable WriteRequest.bytes gateway.config.batchWriteChunk.toNat
  write := fun keys => gateway.batchWrite (keys.map .delete)
  write_goes := fun hroom keys => gateway.batchWrite_neverAborts hroom (keys.map .delete)
  write_aborts := fun hno keys => gateway.batchWrite_of_not_reservable hno (keys.map .delete)
  told := fun _ item => (item.2, none)
  told_payload := fun hasks => absurd rfl hasks
  result := some

theorem batchRemoval_isFollowedBy (rows : List Record) :
    (gateway.batchRemoval rows).IsFollowedBy fun _ hooks => gateway.batchRemove hooks rows := by
  refine Course.isFollowedBy_of_proceeds fun _ hooks start => ?_
  have hkeys : (gateway.batchRemoval rows).Gathers hooks (.ofExcept (gateway.keysOf rows))
      (List.map Prod.snd) :=
    (gateway.batchRemoval rows).gathers_of_checks rfl gateway.keysOf rfl gateway.keysOf_cons
  refine Course.proceeds_batch hkeys ?_ start
  intro prepared _ _
  refine ⟨prepared.map Prod.snd, rfl, ?_⟩
  refine (gateway.batchRemoval rows).eq_finish (fun _ => rfl) fun summary => ?_
  rw [report_eq_tellAll, List.map_map]
  rfl

end KeyValue.Gateway

namespace Document.Gateway

variable (gateway : Gateway) {σ : Type}

def insertion (args : Record) : Course Store Record Record Record Record where
  entity := gateway.name
  rangeKey := gateway.rangeKey
  kind := .create
  items := [args]
  asks := some false
  check := .ok
  parts := fun row => [row]
  room := True
  write := Store.insert gateway.collection
  write_goes := fun _ => Store.insert_neverAborts gateway.collection
  write_aborts := fun hno => absurd trivial hno
  told := fun stored item => (item.1, some stored)
  told_payload := fun _ _ _ => rfl
  result := some

theorem insertion_isFollowedBy (args : Record) :
    (gateway.insertion args).IsFollowedBy fun _ hooks => gateway.insert hooks args := by
  refine Course.isFollowedBy_single rfl (fun _ => rfl) fun _ hooks => ?_
  apply bind_congr
  intro given
  exact (gateway.insertion args).eq_finish_single (fun _ => rfl) fun _ => rfl

def updating (args : Record) : Course Store Update Update (Option Record) Record where
  entity := gateway.name
  rangeKey := gateway.rangeKey
  kind := .update
  items := [args]
  asks := some true
  check := fun row => (Update.build gateway.entity row).mapError .compile
  parts := fun update => [update]
  room := True
  write := Store.update gateway.collection
  write_goes := fun _ => Store.update_neverAborts gateway.collection
  write_aborts := fun hno => absurd trivial hno
  told := fun stored item => (item.1, stored)
  told_payload := fun _ _ _ => rfl
  result := id

theorem updating_isFollowedBy (args : Record) :
    (gateway.updating args).IsFollowedBy fun _ hooks => gateway.update hooks args := by
  refine Course.isFollowedBy_single rfl (fun _ => rfl) fun _ hooks => ?_
  apply bind_congr
  intro given
  apply bind_congr
  intro update
  exact (gateway.updating args).eq_finish_single (fun _ => rfl) fun _ => rfl

/-- The hook after it is told of no input if there was no document. -/
def removal (args : Record) : Course Store Record Record (Option Record) Record where
  entity := gateway.name
  rangeKey := gateway.rangeKey
  kind := .delete
  items := [args]
  asks := none
  check := gateway.keyOf
  parts := fun key => [key]
  room := True
  write := Store.delete gateway.collection
  write_goes := fun _ => Store.delete_neverAborts gateway.collection
  write_aborts := fun hno => absurd trivial hno
  told := fun old item => (if old.isSome then item.1 else [], old)
  told_payload := fun hasks => absurd rfl hasks
  result := id

theorem removal_isFollowedBy (args : Record) :
    (gateway.removal args).IsFollowedBy fun _ hooks => gateway.remove hooks args := by
  refine Course.isFollowedBy_single rfl (fun _ => rfl) fun _ hooks => ?_
  show _ = (Action.ofExcept (gateway.keyOf args) >>= fun key =>
    (gateway.removal args).finish hooks key [(args, key)])
  apply bind_congr
  intro key
  exact (gateway.removal args).eq_finish_single (fun _ => rfl) fun _ => rfl

theorem report_eq_tellAll (hooks : Hooks σ) (kind : WriteKind) (rows : List Record) :
    gateway.report hooks kind rows = hooks.tellAll (rows.map fun row =>
      ⟨gateway.name, kind, row, gateway.rangeKey, some row, hooks.attributes⟩) := by
  induction rows with
  | nil => rfl
  | cons row rest ih =>
      rw [report, ih]
      rfl

def batchPutting (items : List Record) : Course Store Update (List Update) Nat Nat where
  entity := gateway.name
  rangeKey := gateway.rangeKey
  kind := .batchPut
  items
  asks := some false
  check := fun row =>
    ((Update.build gateway.entity row).mapError StoreError.compile).map Update.upserting
  parts := id
  room := True
  write := fun updates => Store.bulk gateway.collection (updates.map .update)
  write_goes := fun _ updates => Store.bulk_neverAborts gateway.collection (updates.map .update)
  write_aborts := fun hno => absurd trivial hno
  told := fun _ item => (item.1, some item.1)
  told_payload := fun _ _ _ => rfl
  result := some

theorem gathers_prepare (hooks : Hooks σ) (items : List Record) :
    (gateway.batchPutting items).Gathers hooks (gateway.prepare hooks items) id := by
  refine (gateway.batchPutting items).gathers_of_cons (gateway.prepare hooks) rfl (fun _ _ => rfl)
    fun item rest => ?_
  rw [prepare]
  apply bind_congr
  intro given
  show _ = (Action.ofExcept
    (((Update.build gateway.entity given).mapError StoreError.compile).map Update.upserting) >>= _)
  cases Update.build gateway.entity given <;> rfl

theorem batchPutting_isFollowedBy (items : List Record) :
    (gateway.batchPutting items).IsFollowedBy fun _ hooks => gateway.batchPut hooks items := by
  refine Course.isFollowedBy_of_proceeds fun _ hooks start => ?_
  refine Course.proceeds_batch (gateway.gathers_prepare hooks items) ?_ start
  intro prepared _ _
  refine ⟨prepared.map Prod.snd, rfl, ?_⟩
  have hwrites : prepared.map (fun item => BulkWrite.update item.2) =
      (prepared.map Prod.snd).map .update := (List.map_map ..).symm
  dsimp only [id_eq]
  rw [hwrites]
  refine (gateway.batchPutting items).eq_finish (fun _ => rfl) fun touched => ?_
  rw [report_eq_tellAll, List.map_map]
  rfl

/-- The hook after it is told of the rows as they were given, as input and as result. -/
def batchRemoval (rows : List Record) : Course Store Record (List Record) Nat Nat where
  entity := gateway.name
  rangeKey := gateway.rangeKey
  kind := .delete
  items := rows
  asks := none
  check := gateway.keyOf
  parts := id
  room := True
  write := fun keys => Store.bulk gateway.collection (keys.map .delete)
  write_goes := fun _ keys => Store.bulk_neverAborts gateway.collection (keys.map .delete)
  write_aborts := fun hno => absurd trivial hno
  told := fun _ item => (item.1, some item.1)
  told_payload := fun _ _ _ => rfl
  result := some

theorem batchRemoval_isFollowedBy (rows : List Record) :
    (gateway.batchRemoval rows).IsFollowedBy fun _ hooks => gateway.batchRemove hooks rows := by
  refine Course.isFollowedBy_of_proceeds fun _ hooks start => ?_
  have hkeys : (gateway.batchRemoval rows).Gathers hooks (.ofExcept (gateway.keysOf rows))
      (List.map Prod.snd) :=
    (gateway.batchRemoval rows).gathers_of_checks rfl gateway.keysOf rfl gateway.keysOf_cons
  refine Course.proceeds_batch hkeys ?_ start
  intro prepared _ hsame
  refine ⟨prepared.map Prod.snd, rfl, ?_⟩
  refine (gateway.batchRemoval rows).eq_finish (fun _ => rfl) fun touched => ?_
  rw [report_eq_tellAll]
  have hrows : rows = prepared.map Prod.fst := (hsame rfl).symm
  rw [hrows, List.map_map]
  rfl

end Document.Gateway

/-- Every call that writes rows with hooks follows its course, on a table and in a collection,
whatever the hooks and the store are. -/
theorem hook_protocol (table : KeyValue.Gateway) (collection : Document.Gateway) (row : Record)
    (rows : List Record) :
    ((table.writing .create row).IsFollowedBy (fun _ hooks => table.insert hooks row) ∧
      (table.writing .update row).IsFollowedBy (fun _ hooks => table.update hooks row) ∧
      (table.removal row).IsFollowedBy (fun _ hooks => table.remove hooks row) ∧
      (table.batchPutting rows).IsFollowedBy (fun _ hooks => table.batchPut hooks rows) ∧
      (table.batchRemoval rows).IsFollowedBy (fun _ hooks => table.batchRemove hooks rows)) ∧
    (collection.insertion row).IsFollowedBy (fun _ hooks => collection.insert hooks row) ∧
      (collection.updating row).IsFollowedBy (fun _ hooks => collection.update hooks row) ∧
      (collection.removal row).IsFollowedBy (fun _ hooks => collection.remove hooks row) ∧
      (collection.batchPutting rows).IsFollowedBy (fun _ hooks => collection.batchPut hooks rows) ∧
      (collection.batchRemoval rows).IsFollowedBy
        (fun _ hooks => collection.batchRemove hooks rows) :=
  ⟨⟨table.writing_isFollowedBy .create row, table.writing_isFollowedBy .update row,
      table.removal_isFollowedBy row, table.batchPutting_isFollowedBy rows,
      table.batchRemoval_isFollowedBy rows⟩,
    collection.insertion_isFollowedBy row, collection.updating_isFollowedBy row,
    collection.removal_isFollowedBy row, collection.batchPutting_isFollowedBy rows,
    collection.batchRemoval_isFollowedBy rows⟩

end SchemaQuery
