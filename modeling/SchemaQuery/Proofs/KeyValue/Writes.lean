import SchemaQuery.KeyValue.Gateway
import SchemaQuery.Proofs.KeyValue.Tables
import SchemaQuery.Proofs.Store.Writes

/-!
# Writes of an entity in a key-value store

Each call takes the keys of its arguments first and then makes one change of the store, whatever the
hooks do about the outcome. An insertion and an update leave out what is blank before they take the
key; the other calls take any value for one of a key.
-/

namespace SchemaQuery.KeyValue

open Record (KeyedBy KeepsKeyed SameKeys IsKeyOf)

/-- The values that a call takes for values of a key. -/
def counts : Write → Json → Bool
  | .insert _ => fun value => !value.isBlank
  | .update _ => fun value => !value.isBlank
  | _ => fun _ => true

theorem Update.build_eq (entity : Entity) (changes : Record) (table : String) :
    Update.build entity changes table =
      (entity.keyBy (fun value => !value.isBlank) changes).map fun key =>
        ⟨table, key, (entity.layout.assigned changes.withoutBlanks).map fun (field, value) =>
          .set [field] value, .allNew⟩ := by
  rw [Update.build, Entity.keyBy]
  cases entity.keyFields with
  | error error => rfl
  | ok fields =>
      simp only [bind, Except.bind, Record.withoutBlanks]
      cases Record.keyOf (changes.filter fun (_, value) => !value.isBlank) fields <;> rfl

/-- An update is made of a row that has a key, and spares the keys. -/
theorem Update.build_cases (entity : Entity) (changes : Record) (table : String) :
    (∃ key assignments, entity.keyBy (fun value => !value.isBlank) changes = .ok key ∧
      Update.build entity changes table = .ok ⟨table, key, assignments, .allNew⟩ ∧
      Update.Spares entity.layout.primaryKeys ⟨table, key, assignments, .allNew⟩) ∨
    ∃ error, entity.keyBy (fun value => !value.isBlank) changes = .error error ∧
      Update.build entity changes table = .error error := by
  rw [build_eq]
  cases entity.keyBy (fun value => !value.isBlank) changes with
  | error error => exact Or.inr ⟨error, rfl, rfl⟩
  | ok key =>
      refine Or.inl ⟨key, _, rfl, rfl, ?_⟩
      intro assignment hassignment field hfield
      obtain ⟨member, hmember, rfl⟩ := List.mem_map.mp hassignment
      obtain ⟨-, hassigned⟩ := List.mem_filter.mp hmember
      simp only [Bool.and_eq_true, Bool.not_eq_true', List.contains_eq_mem] at hassigned
      rintro hsame
      obtain rfl := Option.some.inj hsame
      exact absurd hfield (of_decide_eq_false hassigned.1)

namespace Gateway

variable {σ : Type}

theorem keyOf_eq (gateway : Gateway) (row : Record) :
    gateway.keyOf row = (gateway.entity.keyBy (fun _ => true) row).mapError .compile := by
  rw [keyOf, Entity.keyBy, List.filter_eq_self.mpr fun _ _ => rfl]
  cases gateway.entity.keyFields <;> rfl

/-- A call that writes; what it returns is not told. -/
def perform (gateway : Gateway) (hooks : Hooks σ) : Write → Action (Store × σ) PUnit
  | .insert args => Functor.discard (gateway.insert hooks args)
  | .update args => Functor.discard (gateway.update hooks args)
  | .remove args => Functor.discard (gateway.remove hooks args)
  | .batchPut items => Functor.discard (gateway.batchPut hooks items)
  | .batchRemove keys => Functor.discard (gateway.batchRemove hooks keys)
  | .increment key field delta => Functor.discard (.first (gateway.increment key field delta))
  | .decrement key field delta => Functor.discard (.first (gateway.decrement key field delta))
  | .incrementMap key map field delta =>
      Functor.discard (.first (gateway.incrementMap key map field delta))

/-! ### What is asked of the store -/

/-- The changes of the store that a call makes of the rows of its arguments. -/
inductive Changes (gateway : Gateway) (call : Write) (rows : List Record) (store : Store) :
    Store → Prop
  | update {row : Record} {update : Update} (hrow : row ∈ rows)
      (hkey : gateway.entity.keyBy (counts call) row = .ok update.key)
      (htable : update.tableName = gateway.tableName)
      (hspares : call.Spares gateway.entity.layout.primaryKeys →
        update.Spares gateway.entity.layout.primaryKeys)
      (hadds : call.isRemoval = false) :
      Changes gateway call rows store (Store.update update store).2
  | delete {row key : Record} (hrow : row ∈ rows)
      (hkey : gateway.entity.keyBy (counts call) row = .ok key) (hremoves : call.isRemoval = true)
      (hcounter : call.isCounter = false) :
      Changes gateway call rows store (Store.delete gateway.tableName key store).2
  | batchPut (hkeys : ∀ row ∈ rows, ∃ key, gateway.entity.keyBy (fun _ => true) row = .ok key)
      (hcounts : counts call = fun _ => true) (hadds : call.isRemoval = false)
      (hcounter : call.isCounter = false) :
      Changes gateway call rows store (gateway.batchWrite (rows.map .put) store).2
  | batchRemove (hremoves : call.isRemoval = true) (hcounter : call.isCounter = false) :
      Changes gateway call rows store
        (gateway.batchWrite ((gateway.entity.keysBy (counts call) rows).map .delete) store).2

section Calls

variable (gateway : Gateway) (hooks : Hooks σ) (state : Store × σ)

theorem write_settles (kind : WriteKind) (args : Record) :
    (gateway.write hooks kind args).Settles state
      ((hooks.leaves (kind == .update) [args] state.2).findSome?
        (gateway.entity.keyError? fun value => !value.isBlank))
      fun after => ∃ row update, row ∈ hooks.leaves (kind == .update) [args] state.2 ∧
        gateway.entity.keyBy (fun value => !value.isBlank) row = .ok update.key ∧
        update.tableName = gateway.tableName ∧
        update.Spares gateway.entity.layout.primaryKeys ∧
        after = (Store.update update state.1).2 := by
  rw [Hooks.leaves, Action.Settles, write, Action.bind_apply, Action.second_apply]
  cases hooks.beforeWrite args (kind == .update) state.2 with
  | mk result after =>
      cases result with
      | error error => exact Or.inl ⟨error, rfl, rfl, fun _ h => by cases h⟩
      | ok row =>
          simp only [Hooks.leaves, List.findSome?_singleton, List.mem_singleton]
          rcases Update.build_cases gateway.entity row gateway.tableName with
            ⟨key, assignments, hkey, hbuild, hspares⟩ | ⟨error, hkey, hbuild⟩
          · refine Or.inr ⟨Entity.keyError?_eq_none.mpr ⟨key, hkey⟩, row, _, rfl, hkey, rfl,
              hspares, ?_⟩
            rw [hbuild, Action.ofExcept_mapError_bind]
            exact Action.store_attempt (fun _ => .second _)
              (fun _ => .bind (.second _) fun _ => .pure _) (state.1, after)
          · rw [hbuild, Entity.keyError?_eq_some.mpr hkey]
            exact Or.inl ⟨_, rfl, rfl, fun fault h => congrArg _ (Option.some.inj h)⟩

theorem remove_settles (args : Record) :
    (gateway.remove hooks args).Settles state (gateway.entity.keyError? (fun _ => true) args)
      fun after => ∃ key, gateway.entity.keyBy (fun _ => true) args = .ok key ∧
        after = (Store.delete gateway.tableName key state.1).2 := by
  rw [remove, keyOf_eq]
  refine Entity.settles_of_key fun key hkey => ⟨key, hkey, ?_⟩
  exact Action.store_attempt (fun _ => .second _)
    (fun _ => .bind (.second _) fun _ => .pure _) state

theorem adjust_settles (key : Record) (path : List String) (subtract : Bool) (delta : Json) :
    Action.Settles (.first (gateway.adjust key path subtract delta)) state
      (gateway.entity.keyError? (fun _ => true) key)
      fun after => ∃ found, gateway.entity.keyBy (fun _ => true) key = .ok found ∧
        after = (Store.update (Update.adjust gateway.tableName found path subtract delta)
          state.1).2 := by
  rw [adjust, keyOf_eq, Action.first_ofExcept_bind]
  refine Entity.settles_of_key fun key hkey => ⟨key, hkey, ?_⟩
  rw [Action.first_apply, Action.bind_apply]
  split <;> simp_all

theorem keysOf_cons (row : Record) (rest : List Record) :
    gateway.keysOf (row :: rest) =
      (gateway.keyOf row).bind fun key => (gateway.keysOf rest).map (key :: ·) := by
  rw [keysOf]
  cases gateway.keyOf row with
  | error error => rfl
  | ok key => cases gateway.keysOf rest <;> rfl

theorem keysOf_eq (rows : List Record) :
    gateway.keysOf rows =
      match rows.findSome? (gateway.entity.keyError? fun _ => true) with
      | some error => .error (.compile error)
      | none => .ok (gateway.entity.keysBy (fun _ => true) rows) :=
  Entity.keysOf_eq gateway.keysOf rfl (fun row rest => by rw [keysOf_cons, keyOf_eq]) rows

theorem report_keepsFirst (kind : WriteKind) (stored : Record → Option Record)
    (items : List Record) : (gateway.report hooks kind stored items).KeepsFirst := by
  induction items with
  | nil => exact .pure ()
  | cons item rest ih => exact .bind (.second _) fun _ => ih

/-- The items are those that the hook leaves, all with a key. -/
theorem prepare_settles (items : List Record) :
    (gateway.prepare hooks items state).2.1 = state.1 ∧
      ((∃ error, (gateway.prepare hooks items state).1 = .error error ∧
          ∀ fault, (hooks.leaves false items state.2).findSome?
            (gateway.entity.keyError? fun _ => true) = some fault → error = .compile fault) ∨
        (hooks.leaves false items state.2).findSome?
            (gateway.entity.keyError? fun _ => true) = none ∧
          (gateway.prepare hooks items state).1 = .ok (hooks.leaves false items state.2)) := by
  induction items generalizing state with
  | nil => exact ⟨rfl, Or.inr ⟨rfl, rfl⟩⟩
  | cons item rest ih =>
      rw [prepare, Hooks.leaves, Action.bind_apply, Action.second_apply]
      cases hooks.beforeWrite item false state.2 with
      | mk result after =>
          cases result with
          | error error => exact ⟨rfl, Or.inl ⟨error, rfl, fun _ h => by cases h⟩⟩
          | ok row =>
              simp only [List.findSome?_cons, keyOf_eq]
              cases hkey : gateway.entity.keyBy (fun _ => true) row with
              | error error =>
                  rw [Entity.keyError?_eq_some.mpr hkey]
                  exact ⟨rfl, Or.inl ⟨_, rfl, fun fault h => congrArg _ (Option.some.inj h)⟩⟩
              | ok key =>
                  obtain ⟨hstore, hrest⟩ := ih (state.1, after)
                  rw [Entity.keyError?_eq_none.mpr ⟨key, hkey⟩, Action.ofExcept_mapError_bind,
                    Action.bind_apply]
                  cases hprepare : gateway.prepare hooks rest (state.1, after) with
                  | mk result final =>
                      rw [hprepare] at hstore hrest
                      rcases hrest with ⟨error, hresult, hfault⟩ | ⟨hnone, hresult⟩
                      · subst hresult
                        exact ⟨hstore, Or.inl ⟨error, rfl, hfault⟩⟩
                      · subst hresult
                        exact ⟨hstore, Or.inr ⟨hnone, rfl⟩⟩

theorem batchPut_settles (items : List Record) :
    (gateway.batchPut hooks items).Settles state
      ((hooks.leaves false items state.2).findSome? (gateway.entity.keyError? fun _ => true))
      fun after => after =
        (gateway.batchWrite ((hooks.leaves false items state.2).map .put) state.1).2 := by
  obtain ⟨hstore, hprepare⟩ := gateway.prepare_settles hooks state items
  rw [Action.Settles, batchPut, Action.bind_apply]
  cases hresult : gateway.prepare hooks items state with
  | mk result after =>
      rw [hresult] at hstore hprepare
      rcases hprepare with ⟨error, rfl, hfault⟩ | ⟨hnone, rfl⟩
      · exact Or.inl ⟨error, rfl, hstore, hfault⟩
      · refine Or.inr ⟨hnone, ?_⟩
        rw [← hstore]
        exact Action.store_attempt (fun _ => .second _)
          (fun _ => .bind (gateway.report_keepsFirst hooks _ _ _) fun _ => .pure _) after

theorem batchRemove_settles (keys : List Record) :
    (gateway.batchRemove hooks keys).Settles state
      (keys.findSome? (gateway.entity.keyError? fun _ => true))
      fun after => after = (gateway.batchWrite
        ((gateway.entity.keysBy (fun _ => true) keys).map .delete) state.1).2 := by
  rw [Action.Settles, batchRemove, keysOf_eq]
  cases keys.findSome? (gateway.entity.keyError? fun _ => true) with
  | some error => exact Or.inl ⟨_, rfl, rfl, fun fault h => congrArg _ (Option.some.inj h)⟩
  | none =>
      refine Or.inr ⟨rfl, ?_⟩
      rw [Action.ofExcept_ok_bind]
      exact Action.store_attempt (fun _ => .second _)
        (fun _ => .bind (gateway.report_keepsFirst hooks _ _ _) fun _ => .pure _) state

/-- A counter that an update makes begins where the call says. -/
theorem counter_settles {call : Write} (key : Record) (path : List String) (subtract : Bool)
    (delta : Json) (hpath : call.path = path) (hcounts : counts call = fun _ => true)
    (hadds : call.isRemoval = false) :
    Action.Settles (Functor.discard (.first (gateway.adjust key path subtract delta))) state
      ([key].findSome? (gateway.entity.keyError? fun _ => true))
      (gateway.Changes call [key] state.1) := by
  rw [List.findSome?_singleton]
  refine (gateway.adjust_settles state key path subtract delta).discard.mono fun after _ => ?_
  rintro ⟨found, hkey, rfl⟩
  refine .update List.mem_cons_self (by rwa [hcounts]) rfl (fun hspares => ?_) hadds
  rintro assignment hassignment
  obtain rfl := List.mem_singleton.mp hassignment
  exact hpath ▸ hspares

/-- A call fails with the error of the first row that has no key, or makes its change. -/
theorem perform_settles (call : Write) :
    (gateway.perform hooks call).Settles state
      ((call.rows hooks state.2).findSome? (gateway.entity.keyError? (counts call)))
      (gateway.Changes call (call.rows hooks state.2) state.1) := by
  cases call with
  | insert args =>
      refine (gateway.write_settles hooks state .create args).discard.mono fun after _ => ?_
      rintro ⟨row, update, hrow, hkey, htable, hspares, rfl⟩
      exact .update hrow hkey htable (fun _ => hspares) rfl
  | update args =>
      refine (gateway.write_settles hooks state .update args).discard.mono fun after _ => ?_
      rintro ⟨row, update, hrow, hkey, htable, hspares, rfl⟩
      exact .update hrow hkey htable (fun _ => hspares) rfl
  | remove args =>
      rw [Write.rows, List.findSome?_singleton]
      refine (gateway.remove_settles hooks state args).discard.mono fun after _ => ?_
      rintro ⟨key, hkey, rfl⟩
      exact .delete List.mem_cons_self hkey rfl rfl
  | batchPut items =>
      refine (gateway.batchPut_settles hooks state items).discard.mono fun after hnone => ?_
      rintro rfl
      refine .batchPut (fun row hrow => ?_) rfl rfl rfl
      exact Entity.keyError?_eq_none.mp (List.findSome?_eq_none_iff.mp hnone row hrow)
  | batchRemove keys =>
      refine (gateway.batchRemove_settles hooks state keys).discard.mono fun after _ => ?_
      rintro rfl
      exact .batchRemove rfl rfl
  | increment key field delta =>
      exact gateway.counter_settles state key [field] false delta rfl rfl rfl
  | decrement key field delta =>
      exact gateway.counter_settles state key [field] true delta rfl rfl rfl
  | incrementMap key map field delta =>
      exact gateway.counter_settles state key [map, field] false delta rfl rfl rfl

end Calls

/-! ### Batches -/

/-- With room for its chunks a batch is a run of them. -/
theorem batchWrite_of_reservable (gateway : Gateway)
    (hroom : Reservable WriteRequest.bytes gateway.config.batchWriteChunk.toNat)
    (requests : List WriteRequest) (store : Store) :
    let run := Batch.driveChunks (Store.batchWrite gateway.tableName) gateway.config.retry
      (chunks gateway.config.batchWriteChunk.toNat requests) store
    gateway.batchWrite requests store =
      (run.1.map fun _ => ⟨requests.length, .ofNat (Batch.countSubmissions run.2.1)⟩, run.2.2) := by
  dsimp only
  rw [batchWrite, Batch.write, Batch.drive_of_reservable _ _ (hroom.max (by decide))]

theorem batchWrite_of_not_reservable (gateway : Gateway)
    (hroom : ¬Reservable WriteRequest.bytes gateway.config.batchWriteChunk.toNat)
    (requests : List WriteRequest) (store : Store) :
    gateway.batchWrite requests store = (.error .aborted, store) := by
  rw [batchWrite, Batch.write,
    Batch.drive_of_not_reservable _ _ fun hmax => hroom (hmax.mono (Nat.le_max_left _ 1))]

/-! ### What becomes of the rows -/

section Rows

variable {gateway : Gateway} {call : Write} {rows : List Record} {store after : Store}

theorem batchWrite_carries {fields : List String} {q : List Record → List Record → Prop}
    (hrefl : ∀ rows, q rows rows) (htrans : ∀ ⦃a b c⦄, q a b → q b c → q a c)
    {requests : List WriteRequest}
    (hrequests : ∀ request ∈ requests, Store.Fits fields q request) (store : Store) :
    Carries (Store.held? gateway.tableName) fields q store
      (gateway.batchWrite requests store).2 :=
  Batch.write_moves (fun _ => .refl hrefl _) (fun _ _ _ hab hbc => hab.trans htrans hbc)
    (Store.batchWrite_moves hrefl htrans) _ _ hrequests store

theorem Changes.keepsKeyed (hchanges : gateway.Changes call rows store after)
    (hspares : call.Spares gateway.entity.layout.primaryKeys) :
    Carries (Store.held? gateway.tableName) gateway.entity.layout.primaryKeys
      (KeepsKeyed gateway.entity.layout.primaryKeys
        (call.added (gateway.entity.keysBy (counts call) rows))
        (call.removed (gateway.entity.keysBy (counts call) rows))) store after := by
  cases hchanges with
  | update hrow hkey htable hupdate hadds =>
      obtain ⟨hkeyOf, hall⟩ := Entity.isKeyOf_keyBy hkey
      rw [← htable]
      refine Store.carries_update (fun _ => .refl) (hupdate hspares) fun rows new hnew => ?_
      refine Record.keepsKeyed_put hkeyOf hall ?_ hnew
      rw [Write.added, hadds]
      exact Entity.mem_keysBy.mpr ⟨_, hrow, hkey⟩
  | delete hrow hkey hremoves _ =>
      refine Store.carries_delete fun rows => .eraseP (Entity.isKeyOf_keyBy hkey).1 ?_
      rw [Write.removed, hremoves]
      exact Entity.mem_keysBy.mpr ⟨_, hrow, hkey⟩
  | batchPut hkeys hcounts hadds _ =>
      refine batchWrite_carries (fun _ => .refl) (fun _ _ _ => .trans) (fun request hmem => ?_) _
      obtain ⟨item, hitem, rfl⟩ := List.mem_map.mp hmem
      obtain ⟨key, hkey⟩ := hkeys item hitem
      obtain ⟨hall, hagree⟩ := Entity.hasAll_of_keyBy hkey
      refine fun given hgiven rows => .put (Record.isKeyOf_pick hall hgiven) hall ⟨key, ?_, hagree⟩
      rw [Write.added, hadds, hcounts]
      exact Entity.mem_keysBy.mpr ⟨item, hitem, hkey⟩
  | batchRemove hremoves _ =>
      refine batchWrite_carries (fun _ => .refl) (fun _ _ _ => .trans) (fun request hmem => ?_) _
      obtain ⟨key, hkey, rfl⟩ := List.mem_map.mp hmem
      obtain ⟨row, -, hkeyBy⟩ := Entity.mem_keysBy.mp hkey
      refine fun rows => .eraseP (Entity.isKeyOf_keyBy hkeyBy).1 ?_
      rwa [Write.removed, hremoves]

theorem Changes.sameKeys (hchanges : gateway.Changes call rows store after)
    (hspares : call.Spares gateway.entity.layout.primaryKeys) (hcounter : call.isCounter = true) :
    Carries (Store.held? gateway.tableName) gateway.entity.layout.primaryKeys
      (fun old new => ∃ key ∈ gateway.entity.keysBy (counts call) rows,
        SameKeys gateway.entity.layout.primaryKeys key old new) store after := by
  cases hchanges with
  | update hrow hkey htable hupdate _ =>
      have hmem := Entity.mem_keysBy.mpr ⟨_, hrow, hkey⟩
      rw [← htable]
      refine Store.carries_update (fun rows => ⟨_, hmem, .refl⟩) (hupdate hspares) ?_
      exact fun rows new hnew => ⟨_, hmem, Record.sameKeys_put hnew⟩
  | delete _ _ _ hnone => cases hcounter.symm.trans hnone
  | batchPut _ _ _ hnone => cases hcounter.symm.trans hnone
  | batchRemove _ hnone => cases hcounter.symm.trans hnone

end Rows

end Gateway

end SchemaQuery.KeyValue
