import SchemaQuery.Document.Gateway
import SchemaQuery.Proofs.Document.Collections
import SchemaQuery.Proofs.Document.Paths
import SchemaQuery.Proofs.Store.Writes

/-!
# Writes of an entity in a document store

Each call but an insertion takes the keys of its arguments first, and then makes one change of the
store, whatever the hooks do about the outcome. `null` is never taken for a value of a key. An
insertion leaves it to the store to look at keys, and a decrement looks at its amount before it
looks at the key.
-/

namespace SchemaQuery

namespace Document

open Record (KeepsKeyed KeepsApart SameKeys)

/-- The values that the calls take for values of a key. -/
def counts (value : Json) : Bool := !value.isNull

/-- Whether a call takes the keys of its arguments before it does anything else. -/
def takesKeys : Write → Bool
  | .insert _ => false
  | .decrement _ _ delta => (negated? delta).isSome
  | _ => true

theorem uniqueKey_eq (entity : Entity) (row : Record) :
    entity.uniqueKey row = entity.keyBy counts row := by
  rw [Entity.uniqueKey, Entity.keyBy]
  cases entity.keyFields <;> rfl

/-- No name in the arguments of a call has a point. -/
def Undotted (call : Write) (rows : List Record) : Prop :=
  (∀ name ∈ call.path, '.' ∉ name.toList) ∧
    ∀ row ∈ rows, ∀ member ∈ row, '.' ∉ member.1.toList

instance (call : Write) (rows : List Record) : Decidable (Undotted call rows) :=
  inferInstanceAs (Decidable ((∀ name ∈ call.path, '.' ∉ name.toList) ∧
    ∀ row ∈ rows, ∀ member ∈ row, '.' ∉ member.1.toList))

namespace Update

/-- An update is addressed by the key of a row, and spares the keys if no name has a point. -/
def IsOf (entity : Entity) (row : Record) (update : Update) : Prop :=
  entity.keyBy counts row = .ok update.filter ∧
    ((∀ member ∈ row, '.' ∉ member.1.toList) → update.Spares entity.layout.primaryKeys)

/-- What is left out for its place in the key is left out for its name. -/
theorem build_eq (entity : Entity) (changes : Record) :
    Update.build entity changes = (entity.keyBy counts changes).map fun key =>
      { filter := key, set := entity.layout.assigned changes.withoutBlanks } := by
  rw [Update.build, uniqueKey_eq]
  cases hkey : entity.keyBy counts changes with
  | error error => rfl
  | ok key =>
      have hset : (changes.filter fun member => !Members.contains key member.1 &&
          !member.2.isBlank && !entity.layout.blanksIndex member.1 member.2) =
            entity.layout.assigned changes.withoutBlanks := by
        rw [Layout.assigned, Record.withoutBlanks, List.filter_filter]
        refine List.filter_congr fun member _ => ?_
        rw [Entity.contains_keyBy hkey, Bool.and_right_comm]
      change Except.ok _ = Except.ok _
      rw [hset]

theorem build_cases (entity : Entity) (changes : Record) :
    (∃ update, update.IsOf entity changes ∧ Update.build entity changes = .ok update) ∨
    ∃ error, entity.keyBy counts changes = .error error ∧
      Update.build entity changes = .error error := by
  rw [build_eq]
  cases hkey : entity.keyBy counts changes with
  | error error => exact Or.inr ⟨error, rfl, rfl⟩
  | ok key =>
      refine Or.inl ⟨_, ⟨hkey, fun hundotted member hmember field hfield => ?_⟩, rfl⟩
      rw [List.append_nil] at hmember
      obtain ⟨hkept, hassigned⟩ := List.mem_filter.mp hmember
      rw [pathOf_of_notMem (hundotted member (List.mem_filter.mp hkept).1)]
      simp only [Bool.and_eq_true, Bool.not_eq_true', List.contains_eq_mem] at hassigned
      rintro hsame
      obtain rfl := Option.some.inj hsame
      exact absurd hfield (of_decide_eq_false hassigned.1)

theorem increment_spares {fields path : List String} (hne : path ≠ [])
    (hpath : ∀ name ∈ path, '.' ∉ name.toList) (hspares : ∀ field ∈ fields, path.head? ≠ some field)
    (filter : Record) (delta : Json) : (Update.increment filter path delta).Spares fields := by
  rintro member hmember
  obtain rfl := List.mem_singleton.mp hmember
  rwa [pathOf_intercalate hne hpath]

end Update

namespace Gateway

variable {σ : Type}

theorem keyOf_eq (gateway : Gateway) (row : Record) :
    gateway.keyOf row = (gateway.entity.keyBy counts row).mapError .compile := by
  rw [keyOf, uniqueKey_eq]

/-- A call that writes; what it returns is not told. -/
def perform (gateway : Gateway) (hooks : Hooks σ) : Write → Action (Store × σ) PUnit
  | .insert args => Functor.discard (gateway.insert hooks args)
  | .update args => Functor.discard (gateway.update hooks args)
  | .remove args => Functor.discard (gateway.remove hooks args)
  | .batchPut items => Functor.discard (gateway.batchPut hooks items)
  | .batchRemove keys => Functor.discard (gateway.batchRemove hooks keys)
  | .increment key field delta => Functor.discard (.first (gateway.increment key field delta))
  | .decrement key field delta => Functor.discard (.first (gateway.decrement key field delta))
  | .incrementMap key map field delta =>
      Functor.discard (.first (gateway.incrementMap key map field delta))

/-! ### What is asked of the store -/

/-- An update that a call makes of one of the rows of its arguments. -/
def MakesUpdate (gateway : Gateway) (call : Write) (rows : List Record) (update : Update) : Prop :=
  (∃ row ∈ rows, gateway.entity.keyBy counts row = .ok update.filter) ∧
    (call.Spares gateway.entity.layout.primaryKeys → Undotted call rows →
      update.Spares gateway.entity.layout.primaryKeys)

theorem MakesUpdate.of_isOf {gateway : Gateway} {call : Write} {rows : List Record} {row : Record}
    {update : Update} (hrow : row ∈ rows) (hupdate : update.IsOf gateway.entity row) :
    gateway.MakesUpdate call rows update :=
  ⟨⟨row, hrow, hupdate.1⟩, fun _ hundotted => hupdate.2 (hundotted.2 row hrow)⟩

/-- The changes of the store that a call makes of the rows of its arguments. -/
inductive Changes (gateway : Gateway) (call : Write) (rows : List Record) (store : Store) :
    Store → Prop
  | insert {row : Record} (hrow : row ∈ rows) (hadds : call.isRemoval = false)
      (hcounter : call.isCounter = false) :
      Changes gateway call rows store (Store.insert gateway.collection row store).2
  | update {update : Update} (hupdate : gateway.MakesUpdate call rows update)
      (hadds : call.isRemoval = false) :
      Changes gateway call rows store (Store.update gateway.collection update store).2
  | delete {row key : Record} (hrow : row ∈ rows)
      (hkey : gateway.entity.keyBy counts row = .ok key) (hremoves : call.isRemoval = true)
      (hcounter : call.isCounter = false) :
      Changes gateway call rows store (Store.delete gateway.collection key store).2
  | batchPut {updates : List Update}
      (hupdates : ∀ update ∈ updates, gateway.MakesUpdate call rows update)
      (hadds : call.isRemoval = false) (hcounter : call.isCounter = false) :
      Changes gateway call rows store
        (Store.bulk gateway.collection (updates.map .update) store).2
  | batchRemove (hremoves : call.isRemoval = true) (hcounter : call.isCounter = false) :
      Changes gateway call rows store
        (Store.bulk gateway.collection ((gateway.entity.keysBy counts rows).map .delete) store).2

section Calls

variable (gateway : Gateway) (hooks : Hooks σ) (state : Store × σ)

theorem insert_settles (args : Record) :
    (gateway.insert hooks args).Settles state none
      fun after => ∃ row ∈ hooks.leaves false [args] state.2,
        after = (Store.insert gateway.collection row state.1).2 := by
  rw [Hooks.leaves, Action.Settles, insert, Action.bind_apply, Action.second_apply]
  cases hooks.beforeWrite args false state.2 with
  | mk result after =>
      cases result with
      | error error => exact Or.inl ⟨error, rfl, rfl, fun _ h => by cases h⟩
      | ok row =>
          refine Or.inr ⟨rfl, row, List.mem_cons_self, ?_⟩
          exact Action.store_attempt (fun _ => .second _)
            (fun _ => .bind (.second _) fun _ => .pure _) (state.1, after)

theorem update_settles (args : Record) :
    (gateway.update hooks args).Settles state
      ((hooks.leaves true [args] state.2).findSome? (gateway.entity.keyError? counts))
      fun after => ∃ row ∈ hooks.leaves true [args] state.2, ∃ update : Update,
        update.IsOf gateway.entity row ∧
          after = (Store.update gateway.collection update state.1).2 := by
  rw [Hooks.leaves, Action.Settles, Gateway.update, Action.bind_apply, Action.second_apply]
  cases hooks.beforeWrite args true state.2 with
  | mk result after =>
      cases result with
      | error error => exact Or.inl ⟨error, rfl, rfl, fun _ h => by cases h⟩
      | ok row =>
          simp only [Hooks.leaves, List.findSome?_singleton, List.mem_singleton]
          rcases Update.build_cases gateway.entity row with
            ⟨update, hupdate, hbuild⟩ | ⟨error, hkey, hbuild⟩
          · refine Or.inr ⟨Entity.keyError?_eq_none.mpr ⟨_, hupdate.1⟩, row, rfl, update,
              hupdate, ?_⟩
            rw [hbuild, Action.ofExcept_mapError_bind]
            exact Action.store_attempt (fun _ => .second _)
              (fun _ => .bind (.second _) fun _ => .pure _) (state.1, after)
          · rw [hbuild, Entity.keyError?_eq_some.mpr hkey]
            exact Or.inl ⟨_, rfl, rfl, fun fault h => congrArg _ (Option.some.inj h)⟩

theorem remove_settles (args : Record) :
    (gateway.remove hooks args).Settles state (gateway.entity.keyError? counts args)
      fun after => ∃ key, gateway.entity.keyBy counts args = .ok key ∧
        after = (Store.delete gateway.collection key state.1).2 := by
  rw [remove, keyOf_eq]
  refine Entity.settles_of_key fun key hkey => ⟨key, hkey, ?_⟩
  exact Action.store_attempt (fun _ => .second _)
    (fun _ => .bind (.second _) fun _ => .pure _) state

theorem adjust_settles (key : Record) (path : List String) (delta : Json) :
    Action.Settles (.first (gateway.adjust key path delta)) state
      (gateway.entity.keyError? counts key)
      fun after => ∃ filter, gateway.entity.keyBy counts key = .ok filter ∧
        after =
          (Store.update gateway.collection (Update.increment filter path delta) state.1).2 := by
  rw [adjust, keyOf_eq, Action.first_ofExcept_bind]
  refine Entity.settles_of_key fun key hkey => ⟨key, hkey, ?_⟩
  rw [Action.first_apply, Action.bind_apply]
  split <;> simp_all

theorem keysOf_cons (row : Record) (rest : List Record) :
    gateway.keysOf (row :: rest) =
      (gateway.keyOf row).bind fun key => (gateway.keysOf rest).map (key :: ·) := by
  rw [keysOf]
  cases gateway.keyOf row with
  | error error => rfl
  | ok key => cases gateway.keysOf rest <;> rfl

theorem keysOf_eq (rows : List Record) :
    gateway.keysOf rows =
      match rows.findSome? (gateway.entity.keyError? counts) with
      | some error => .error (.compile error)
      | none => .ok (gateway.entity.keysBy counts rows) :=
  Entity.keysOf_eq gateway.keysOf rfl (fun row rest => by rw [keysOf_cons, keyOf_eq]) rows

theorem report_keepsFirst (kind : WriteKind) (items : List Record) :
    (gateway.report hooks kind items).KeepsFirst := by
  induction items with
  | nil => exact .pure ()
  | cons item rest ih => exact .bind (.second _) fun _ => ih

/-- The items are those that the hook leaves, each with an upsert of its own. -/
theorem prepare_settles (items : List Record) :
    (gateway.prepare hooks items state).2.1 = state.1 ∧
      ((∃ error, (gateway.prepare hooks items state).1 = .error error ∧
          ∀ fault, (hooks.leaves false items state.2).findSome?
            (gateway.entity.keyError? counts) = some fault → error = .compile fault) ∨
        (hooks.leaves false items state.2).findSome? (gateway.entity.keyError? counts) = none ∧
          ∃ prepared, (gateway.prepare hooks items state).1 = .ok prepared ∧
            ∀ item ∈ prepared, item.1 ∈ hooks.leaves false items state.2 ∧
              item.2.IsOf gateway.entity item.1) := by
  induction items generalizing state with
  | nil => exact ⟨rfl, Or.inr ⟨rfl, [], rfl, fun _ h => absurd h List.not_mem_nil⟩⟩
  | cons item rest ih =>
      rw [prepare, Hooks.leaves, Action.bind_apply, Action.second_apply]
      cases hooks.beforeWrite item false state.2 with
      | mk result after =>
          cases result with
          | error error => exact ⟨rfl, Or.inl ⟨error, rfl, fun _ h => by cases h⟩⟩
          | ok row =>
              simp only [List.findSome?_cons]
              rcases Update.build_cases gateway.entity row with
                ⟨update, hupdate, hbuild⟩ | ⟨error, hkey, hbuild⟩
              · obtain ⟨hstore, hrest⟩ := ih (state.1, after)
                rw [Entity.keyError?_eq_none.mpr ⟨_, hupdate.1⟩, hbuild,
                  Action.ofExcept_mapError_bind, Action.bind_apply]
                cases hprepare : gateway.prepare hooks rest (state.1, after) with
                | mk result final =>
                    rw [hprepare] at hstore hrest
                    rcases hrest with ⟨error, hresult, hfault⟩ | ⟨hnone, prepared, hresult, hall⟩
                    · subst hresult
                      exact ⟨hstore, Or.inl ⟨error, rfl, hfault⟩⟩
                    · subst hresult
                      refine ⟨hstore, Or.inr ⟨hnone, _, rfl, ?_⟩⟩
                      refine List.forall_mem_cons.mpr ⟨⟨List.mem_cons_self, hupdate⟩, ?_⟩
                      exact fun item hitem => (hall item hitem).imp_left (List.mem_cons_of_mem row)
              · rw [Entity.keyError?_eq_some.mpr hkey, hbuild]
                exact ⟨rfl, Or.inl ⟨_, rfl, fun fault h => congrArg _ (Option.some.inj h)⟩⟩

theorem batchPut_settles (items : List Record) :
    (gateway.batchPut hooks items).Settles state
      ((hooks.leaves false items state.2).findSome? (gateway.entity.keyError? counts))
      fun after => ∃ prepared : List (Record × Update),
        (∀ item ∈ prepared, item.1 ∈ hooks.leaves false items state.2 ∧
          item.2.IsOf gateway.entity item.1) ∧
        after = (Store.bulk gateway.collection (prepared.map fun item => .update item.2)
          state.1).2 := by
  obtain ⟨hstore, hprepare⟩ := gateway.prepare_settles hooks state items
  rw [Action.Settles, batchPut, Action.bind_apply]
  cases hresult : gateway.prepare hooks items state with
  | mk result after =>
      rw [hresult] at hstore hprepare
      rcases hprepare with ⟨error, rfl, hfault⟩ | ⟨hnone, prepared, rfl, hall⟩
      · exact Or.inl ⟨error, rfl, hstore, hfault⟩
      · refine Or.inr ⟨hnone, prepared, hall, ?_⟩
        rw [← hstore]
        exact Action.store_attempt (fun _ => .second _)
          (fun _ => .bind (gateway.report_keepsFirst hooks _ _) fun _ => .pure _) after

theorem batchRemove_settles (keys : List Record) :
    (gateway.batchRemove hooks keys).Settles state
      (keys.findSome? (gateway.entity.keyError? counts))
      fun after => after = (Store.bulk gateway.collection
        ((gateway.entity.keysBy counts keys).map .delete) state.1).2 := by
  rw [Action.Settles, batchRemove, keysOf_eq]
  cases keys.findSome? (gateway.entity.keyError? counts) with
  | some error => exact Or.inl ⟨_, rfl, rfl, fun fault h => congrArg _ (Option.some.inj h)⟩
  | none =>
      refine Or.inr ⟨rfl, ?_⟩
      rw [Action.ofExcept_ok_bind]
      exact Action.store_attempt (fun _ => .second _)
        (fun _ => .bind (gateway.report_keepsFirst hooks _ _) fun _ => .pure _) state

/-- A counter that an update makes begins where the call says. -/
theorem counter_settles {call : Write} (key : Record) (path : List String) (delta : Json)
    (hpath : call.path = path) (hne : path ≠ []) (hadds : call.isRemoval = false) :
    Action.Settles (Functor.discard (.first (gateway.adjust key path delta))) state
      ([key].findSome? (gateway.entity.keyError? counts))
      (gateway.Changes call [key] state.1) := by
  rw [List.findSome?_singleton]
  refine (gateway.adjust_settles state key path delta).discard.mono fun after _ => ?_
  rintro ⟨filter, hkey, rfl⟩
  refine .update ⟨⟨key, List.mem_cons_self, hkey⟩, fun hspares hundotted => ?_⟩ hadds
  subst hpath
  exact Update.increment_spares hne hundotted.1 hspares filter delta

/-- A call fails with the error of the first row that has no key, if it takes keys, or makes its
change. -/
theorem perform_settles (call : Write) :
    (gateway.perform hooks call).Settles state
      (if takesKeys call then
        (call.rows hooks state.2).findSome? (gateway.entity.keyError? counts) else none)
      (gateway.Changes call (call.rows hooks state.2) state.1) := by
  cases call with
  | insert args =>
      refine (gateway.insert_settles hooks state args).discard.mono fun after _ => ?_
      rintro ⟨row, hrow, rfl⟩
      exact .insert hrow rfl rfl
  | update args =>
      refine (gateway.update_settles hooks state args).discard.mono fun after _ => ?_
      rintro ⟨row, hrow, update, hupdate, rfl⟩
      exact .update (.of_isOf hrow hupdate) rfl
  | remove args =>
      change Action.Settles _ state ([args].findSome? (gateway.entity.keyError? counts)) _
      rw [List.findSome?_singleton]
      refine (gateway.remove_settles hooks state args).discard.mono fun after _ => ?_
      rintro ⟨key, hkey, rfl⟩
      exact .delete List.mem_cons_self hkey rfl rfl
  | batchPut items =>
      refine (gateway.batchPut_settles hooks state items).discard.mono fun after _ => ?_
      rintro ⟨prepared, hall, rfl⟩
      have hwrites : (prepared.map fun item => BulkWrite.update item.2) =
          (prepared.map Prod.snd).map .update := List.map_map.symm
      rw [hwrites]
      refine .batchPut (fun update hmem => ?_) rfl rfl
      obtain ⟨item, hitem, rfl⟩ := List.mem_map.mp hmem
      exact .of_isOf (hall item hitem).1 (hall item hitem).2
  | batchRemove keys =>
      refine (gateway.batchRemove_settles hooks state keys).discard.mono fun after _ => ?_
      rintro rfl
      exact .batchRemove rfl rfl
  | increment key field delta =>
      exact gateway.counter_settles state key [field] delta rfl (List.cons_ne_nil _ _) rfl
  | decrement key field delta =>
      rw [perform, decrement, takesKeys]
      cases negated? delta with
      | none => exact Or.inl ⟨_, rfl, rfl, fun _ h => by cases h⟩
      | some negated =>
          exact gateway.counter_settles state key [field] negated rfl (List.cons_ne_nil _ _) rfl
  | incrementMap key map field delta =>
      exact gateway.counter_settles state key [map, field] delta rfl (List.cons_ne_nil _ _) rfl

end Calls

/-! ### What becomes of the documents -/

section Rows

variable {gateway : Gateway} {call : Write} {rows : List Record} {store after : Store}

theorem fits_of_makesUpdate {added removed : List Record} {update : Update}
    (hupdate : gateway.MakesUpdate call rows update)
    (hspares : call.Spares gateway.entity.layout.primaryKeys) (hundotted : Undotted call rows)
    (hadded : ∀ key ∈ gateway.entity.keysBy counts rows, key ∈ added) :
    (BulkWrite.update update).Fits gateway.entity.layout.primaryKeys
      (KeepsKeyed gateway.entity.layout.primaryKeys added removed) := by
  obtain ⟨⟨row, hrow, hkey⟩, hupdate⟩ := hupdate
  obtain ⟨hkeyOf, hall⟩ := Entity.isKeyOf_keyBy hkey
  refine ⟨hupdate hspares hundotted, fun rows new hnew => ?_⟩
  exact Record.keepsKeyed_put hkeyOf hall (hadded _ (Entity.mem_keysBy.mpr ⟨row, hrow, hkey⟩)) hnew

/-- All changes but an insertion keep keyed documents keyed; an inserted document may lack keys. -/
theorem Changes.keepsApart (hchanges : gateway.Changes call rows store after)
    (hspares : call.Spares gateway.entity.layout.primaryKeys) (hundotted : Undotted call rows) :
    Carries (Store.held? gateway.collection) gateway.entity.layout.primaryKeys
      (KeepsApart gateway.entity.layout.primaryKeys
        (call.added (rows ++ gateway.entity.keysBy counts rows))
        (call.removed (gateway.entity.keysBy counts rows))) store after := by
  cases hchanges with
  | insert hrow hadds _ =>
      refine Store.carries_insert (fun _ => KeepsKeyed.refl.keepsApart)
        fun given hgiven old hnone => ?_
      refine .append hgiven hnone ?_
      rw [Write.added, hadds]
      exact List.mem_append_left _ hrow
  | update hupdate hadds =>
      refine (Store.carries_update (fun _ => .refl) ?_).mono fun _ _ => KeepsKeyed.keepsApart
      refine fits_of_makesUpdate hupdate hspares hundotted fun key hkey => ?_
      rw [Write.added, hadds]
      exact List.mem_append_right _ hkey
  | delete hrow hkey hremoves _ =>
      refine Store.carries_delete fun rows => KeepsKeyed.keepsApart ?_
      refine .eraseP (Entity.isKeyOf_keyBy hkey).1 ?_
      rw [Write.removed, hremoves]
      exact Entity.mem_keysBy.mpr ⟨_, hrow, hkey⟩
  | batchPut hupdates hadds _ =>
      refine (Store.carries_bulk (fun _ => .refl) (fun _ _ _ => .trans) fun write hmem => ?_).mono
        fun _ _ => KeepsKeyed.keepsApart
      obtain ⟨update, hupdate, rfl⟩ := List.mem_map.mp hmem
      refine fits_of_makesUpdate (hupdates update hupdate) hspares hundotted fun key hkey => ?_
      rw [Write.added, hadds]
      exact List.mem_append_right _ hkey
  | batchRemove hremoves _ =>
      refine (Store.carries_bulk (fun _ => .refl) (fun _ _ _ => .trans) fun write hmem => ?_).mono
        fun _ _ => KeepsKeyed.keepsApart
      obtain ⟨key, hkey, rfl⟩ := List.mem_map.mp hmem
      obtain ⟨row, -, hkeyBy⟩ := Entity.mem_keysBy.mp hkey
      refine fun rows => .eraseP (Entity.isKeyOf_keyBy hkeyBy).1 ?_
      rwa [Write.removed, hremoves]

theorem Changes.sameKeys (hchanges : gateway.Changes call rows store after)
    (hspares : call.Spares gateway.entity.layout.primaryKeys) (hundotted : Undotted call rows)
    (hcounter : call.isCounter = true) :
    Carries (Store.held? gateway.collection) gateway.entity.layout.primaryKeys
      (fun old new => ∃ key ∈ gateway.entity.keysBy counts rows,
        SameKeys gateway.entity.layout.primaryKeys key old new) store after := by
  cases hchanges with
  | insert _ _ hnone => cases hcounter.symm.trans hnone
  | update hupdate _ =>
      obtain ⟨⟨row, hrow, hkey⟩, hupdate⟩ := hupdate
      have hmem := Entity.mem_keysBy.mpr ⟨row, hrow, hkey⟩
      refine Store.carries_update (fun rows => ⟨_, hmem, .refl⟩) ⟨hupdate hspares hundotted, ?_⟩
      exact fun rows new hnew => ⟨_, hmem, Record.sameKeys_put hnew⟩
  | delete _ _ _ hnone => cases hcounter.symm.trans hnone
  | batchPut _ _ hnone => cases hcounter.symm.trans hnone
  | batchRemove _ hnone => cases hcounter.symm.trans hnone

end Rows

end Gateway

end Document

end SchemaQuery
