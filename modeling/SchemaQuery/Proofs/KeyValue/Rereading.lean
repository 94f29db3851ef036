import SchemaQuery.Proofs.KeyValue.Deferring
import SchemaQuery.Proofs.KeyValue.Writes
import SchemaQuery.Proofs.Predicate.Accounting

/-!
# Reading what was written

Where rows are told apart by their keys, a read by a key finds the one row that has it. So what an
insertion, an update or a batch has put is read back, and what was removed is not. An insertion and
an update lay their arguments on the row there was, a batch puts its items in the place of the rows
with their keys; the rows with other keys stay, in their order.
-/

namespace SchemaQuery

/-! ### Finding a row by its key -/

theorem Json.eq_of_beq_of_not_isConcrete {a b : Json} (hsame : (a == b) = true)
    (hblank : a.isConcrete = false) : b = a := by
  cases a <;> cases b <;> simp_all [Json.isConcrete, BEq.beq, Json.eqv]

namespace Record

variable {fields : List String} {rows : List Record} {key row other : Record}

/-- No value of the fields is `null` or the empty text. -/
def ConcreteOn (fields : List String) (row : Record) : Prop :=
  ∀ field ∈ fields, row.get? field ≠ some .null ∧ row.get? field ≠ some (.string "")

theorem concreteOn_iff :
    row.ConcreteOn fields ↔
      ∀ field ∈ fields, ∀ value, row.get? field = some value → value.isConcrete = true := by
  refine forall₂_congr fun field _ => ?_
  cases row.get? field <;> simp [Json.isConcrete_iff]

theorem ConcreteOn.of_agreesOn (hconcrete : row.ConcreteOn fields)
    (hagree : other.AgreesOn fields row) : other.ConcreteOn fields := by
  rw [concreteOn_iff] at hconcrete ⊢
  intro field hfield value hvalue
  have hsame := hagree field hfield
  rw [hvalue] at hsame
  cases hown : row.get? field with
  | none =>
      rw [hown] at hsame
      cases hsame
  | some given =>
      rw [hown] at hsame
      by_contra hblank
      have heq := Json.eq_of_beq_of_not_isConcrete hsame (Bool.eq_false_iff.mpr hblank)
      exact hblank (heq ▸ hconcrete field hfield given hown)

/-- The key taken of a row has the row's values, so it is not blank if they are not. -/
theorem ConcreteOn.hasBlank_keyOf (hconcrete : row.ConcreteOn fields)
    (hkey : row.keyOf fields = .ok key) : key.hasBlank = false := by
  rw [hasBlank, List.any_eq_false]
  intro member hmember
  obtain ⟨hfield, hvalue⟩ := mem_keyOf hkey hmember
  simp [concreteOn_iff.mp hconcrete _ hfield _ hvalue]

theorem KeyedBy.find?_eq_some (hrows : KeyedBy fields rows) (hne : fields ≠ [])
    (hkey : IsKeyOf fields row key) (hrow : row ∈ rows) :
    rows.find? (·.hasKey key) = some row := by
  have hhas : row.hasKey key = true := (hkey row).mpr ⟨hne, .refl row⟩
  cases hfind : rows.find? (·.hasKey key) with
  | none => exact absurd hhas (List.find?_eq_none.mp hfind row hrow)
  | some other =>
      have hother := List.find?_some (p := fun row => hasKey row key) hfind
      obtain ⟨-, hagree⟩ := (hkey other).mp hother
      rw [eq_of_agreesOn (hrows.distinct hne) (List.mem_of_find?_eq_some hfind) hrow hagree]

/-- The rows with other keys than a row. -/
def others (fields : List String) (row : Record) (rows : List Record) : List Record :=
  rows.filter fun other => ¬ other.AgreesOn fields row

/-- A row that is put leaves the rows with other keys as they are. -/
theorem others_put (hkey : IsKeyOf fields row key) (hagree : row.AgreesOn fields other) :
    others fields other (put key row rows) = others fields other rows := by
  unfold others
  induction rows with
  | nil => rw [put, List.filter_cons_of_neg (by simpa using hagree)]
  | cons old rest ih =>
      rw [put]
      split
      next hgives =>
        obtain ⟨-, hold⟩ := (hkey old).mp hgives
        rw [List.filter_cons_of_neg (by simpa using hagree),
          List.filter_cons_of_neg (by simpa using hold.trans hagree)]
      next => rw [List.filter_cons, List.filter_cons, ih]

/-- Of rows that are told apart by their keys, taking away the first with a key leaves the rows with
other keys. -/
theorem eraseP_eq_others (hrows : KeyedBy fields rows) (hne : fields ≠ [])
    (hkey : IsKeyOf fields row key) :
    rows.eraseP (·.hasKey key) = others fields row rows := by
  unfold others
  induction rows with
  | nil => rfl
  | cons first rest ih =>
      have hrest := hrows.sublist (List.sublist_cons_self first rest)
      obtain ⟨hapart, -⟩ := List.pairwise_cons.mp (hrows.distinct hne)
      by_cases hgoes : first.hasKey key = true
      · obtain ⟨-, hagree⟩ := (hkey first).mp hgoes
        have hstays : ∀ other ∈ rest, ¬ other.AgreesOn fields row := fun other hother hsame =>
          hapart other hother (hagree.trans hsame.symm)
        rw [List.eraseP_cons_of_pos (p := fun row => hasKey row key) hgoes,
          List.filter_cons_of_neg (by simpa using hagree),
          List.filter_eq_self.mpr (by simpa using hstays)]
      · have hdiffer : ¬ first.AgreesOn fields row := fun hagree =>
          hgoes ((hkey first).mpr ⟨hne, hagree⟩)
        rw [List.eraseP_cons_of_neg (p := fun row => hasKey row key) hgoes,
          List.filter_cons_of_pos (by simpa using hdiffer), ih hrest]

theorem find?_others (hkey : IsKeyOf fields row key) :
    (others fields row rows).find? (·.hasKey key) = none := by
  refine List.find?_eq_none.mpr fun other hother hhas => ?_
  obtain ⟨-, hdiffer⟩ := List.mem_filter.mp hother
  exact of_decide_eq_true hdiffer ((hkey other).mp hhas).2

/-- Every item stored is among the rows. -/
theorem StoredIn.mem {items old new : List Record} {item : Record}
    (hstored : StoredIn fields items old new)
    (hitems : items.Pairwise fun a b => ¬ a.AgreesOn fields b) (hitem : item ∈ items) :
    item ∈ new := by
  obtain ⟨added, hadded, rfl⟩ := hstored
  by_cases hamong : item.HasKeyAmong fields old
  · obtain ⟨row, hrow, hagree⟩ := hamong
    refine List.mem_append_left _ (List.mem_map.mpr ⟨row, hrow, ?_⟩)
    exact standIn_of_agreesOn hitems hitem hagree
  · refine List.mem_append_right _ (hadded.mem_iff.mpr (List.mem_filter.mpr ⟨hitem, ?_⟩))
    exact decide_eq_true hamong

end Record

namespace KeyValue

open Record (AgreesOn KeyedBy IsKeyOf StoredIn ConcreteOn)

/-! ### What an update makes of a row -/

/-- Assignments to fields lay these on a row, and do not fail. -/
theorem Assignment.applyAll_set (row changes : Record) :
    applyAll row (changes.map fun (field, value) => .set [field] value) =
      .ok (row.merge changes) := by
  induction changes generalizing row with
  | nil => rfl
  | cons change rest ih => exact ih (row.set change.1 change.2)

/-- A store with other rows in one of its tables. -/
def Store.withRows (store : Store) (name : String) (keyFields : List String)
    (rows : List Record) : Store :=
  { store with tables := store.tables.set name ⟨keyFields, rows⟩ }

@[simp] theorem Store.get?_withRows (store : Store) (name : String) (keyFields : List String)
    (rows : List Record) :
    (store.withRows name keyFields rows).tables.get? name = some ⟨keyFields, rows⟩ :=
  Members.get?_set_self ..

theorem Store.withRows_withRows (store : Store) (name : String) (keyFields : List String)
    (rows more : List Record) :
    (store.withRows name keyFields rows).withRows name keyFields more =
      store.withRows name keyFields more := by
  simp only [Store.withRows, Members.set_set]

/-- An update by a change-set lays what it assigns on the row with the key, or on the key. -/
theorem update_build {entity : Entity} {args key : Record} {name : String}
    {keyFields : List String} {rows : List Record} {store : Store}
    (htable : store.tables.get? name = some ⟨keyFields, rows⟩)
    (hkey : entity.keyBy (fun value => !value.isBlank) args = .ok key) :
    ∃ update, Update.build entity args name = .ok update ∧
      ∃ row : Record, row = Members.merge ((rows.find? (·.hasKey key)).getD key)
          (entity.layout.assigned args.withoutBlanks) ∧
        Store.update update store =
          (.ok row, store.withRows name keyFields (Record.put key row rows)) := by
  have hbuild : Update.build entity args name = .ok ⟨name, key,
      (entity.layout.assigned args.withoutBlanks).map fun (field, value) => .set [field] value,
      .allNew⟩ := by
    rw [Update.build_eq, hkey]
    rfl
  refine ⟨_, hbuild, _, rfl, ?_⟩
  simp only [Store.update, Store.onTable, Store.table, htable, Update.applyTo,
    Assignment.applyAll_set, Update.returned]
  rfl

/-! ### Puts of a batch -/

/-- What a store is after puts of items: the table has them, put in some order, and no other table
has changed. -/
structure HasPut (name : String) (table : Table) (items : List Record) (store after : Store) :
    Prop where
  table : ∃ stored : List Record, stored.Perm items ∧
    after.tables.get? name = some (stored.foldl Table.upsert table)
  others : ∀ other, other ≠ name → after.tables.get? other = store.tables.get? other

section Puts

variable {name : String} {table : Table} {items more : List Record} {store mid after : Store}

theorem HasPut.perm (hput : HasPut name table items store after) (hperm : items.Perm more) :
    HasPut name table more store after where
  table :=
    have ⟨stored, hstored, htable⟩ := hput.table
    ⟨stored, hstored.trans hperm, htable⟩
  others := hput.others

theorem HasPut.trans (hfirst : HasPut name table items store mid)
    (hsecond : ∀ between, mid.tables.get? name = some between →
      HasPut name between more mid after) : HasPut name table (items ++ more) store after := by
  obtain ⟨stored, hstored, hmid⟩ := hfirst.table
  have hrest := hsecond _ hmid
  obtain ⟨further, hfurther, hafter⟩ := hrest.table
  refine ⟨⟨stored ++ further, hstored.append hfurther, ?_⟩, fun other hother => ?_⟩
  · rw [List.foldl_append]
    exact hafter
  · exact (hrest.others other hother).trans (hfirst.others other hother)

/-- Whatever the deferrals, the items that are not left are stored, one after the other. -/
theorem process_splits (items : List Record) (table : Table) (deferrals : List Deferral) :
    ∃ (left stored : List Record) (after : List Deferral),
      Store.process (items.map .put) table deferrals =
        (left.map .put, stored.foldl Table.upsert table, after) ∧ (stored ++ left).Perm items := by
  induction items generalizing table deferrals with
  | nil => exact ⟨[], [], deferrals, rfl, .refl _⟩
  | cons item rest ih =>
      rw [List.map_cons, Store.process]
      cases Store.takeDeferral (WriteRequest.put item).attributes deferrals with
      | some fewer =>
          obtain ⟨left, stored, after, hprocess, hperm⟩ := ih table fewer
          exact ⟨item :: left, stored, after, by simp only [hprocess, List.map_cons],
            List.perm_middle.trans (hperm.cons item)⟩
      | none =>
          obtain ⟨left, stored, after, hprocess, hperm⟩ := ih (table.upsert item) deferrals
          exact ⟨left, item :: stored, after, hprocess, hperm.cons item⟩

theorem batchWrite_splits (items : List Record) (htable : store.tables.get? name = some table) :
    ∃ (left stored : List Record) (mid : Store),
      Store.batchWrite name (items.map .put) store = (.ok (left.map .put), mid) ∧
      HasPut name table stored store mid ∧ (stored ++ left).Perm items := by
  obtain ⟨left, stored, deferrals, hprocess, hperm⟩ := process_splits items table store.deferrals
  rw [Store.batchWrite]
  simp only [Store.table, htable, hprocess]
  refine ⟨left, stored, _, rfl, ⟨⟨stored, .refl _, ?_⟩, fun other hother => ?_⟩, hperm⟩
  · exact Members.get?_set_self ..
  · exact Members.get?_set_of_ne _ _ hother.symm

/-- A chunk that drains is stored: what one round leaves, a later one stores. -/
theorem hasPut_of_drain {policy : RetryPolicy} {retries retry : Nat} {events : List BatchEvent}
    (htable : store.tables.get? name = some table)
    (hdrain : Batch.drain (Store.batchWrite name) policy retries retry (items.map .put) store =
      (.done, events, after)) : HasPut name table items store after := by
  induction retries generalizing retry items store table events with
  | zero =>
      obtain ⟨left, stored, mid, hsubmit, hput, hperm⟩ := batchWrite_splits items htable
      rw [Batch.drain, hsubmit] at hdrain
      cases left with
      | nil =>
          obtain ⟨-, -, rfl⟩ := hdrain
          exact hput.perm (List.append_nil stored ▸ hperm)
      | cons first rest => cases hdrain
  | succ retries ih =>
      obtain ⟨left, stored, mid, hsubmit, hput, hperm⟩ := batchWrite_splits items htable
      rw [Batch.drain, hsubmit] at hdrain
      cases left with
      | nil =>
          obtain ⟨-, -, rfl⟩ := hdrain
          exact hput.perm (List.append_nil stored ▸ hperm)
      | cons first rest =>
          rw [List.map_cons] at hdrain
          simp only [Prod.mk.injEq] at hdrain
          obtain ⟨hdone, -, rfl⟩ := hdrain
          refine (hput.trans fun between hbetween => ?_).perm hperm
          exact ih hbetween (Prod.ext hdone rfl)

theorem hasPut_of_driveChunks {policy : RetryPolicy} {batches : List (List Record)}
    {events : List BatchEvent} (htable : store.tables.get? name = some table)
    (hdrive : Batch.driveChunks (Store.batchWrite name) policy (batches.map (List.map .put)) store =
      (.ok (), events, after)) : HasPut name table batches.flatten store after := by
  induction batches generalizing store table events with
  | nil =>
      obtain ⟨-, -, rfl⟩ := hdrive
      exact ⟨⟨[], .refl _, htable⟩, fun _ _ => rfl⟩
  | cons chunk rest ih =>
      rw [List.map_cons, Batch.driveChunks] at hdrive
      cases hdrain : Batch.drain (Store.batchWrite name) policy (policy.attempts - 1) 0
          (chunk.map .put) store with
      | mk result more =>
          obtain ⟨more, mid⟩ := more
          rw [hdrain] at hdrive
          cases result with
          | done =>
              simp only [Prod.mk.injEq] at hdrive
              obtain ⟨hok, -, rfl⟩ := hdrive
              refine (hasPut_of_drain htable hdrain).trans fun between hbetween => ?_
              exact ih hbetween (Prod.ext hok rfl)
          | failed error => cases hdrive
          | unprocessed requests => cases hdrive

end Puts

/-! ### Reads after writes -/

namespace Gateway

variable {σ : Type} {gateway : Gateway} {keyFields : List String} {rows : List Record}
  {store : Store} {row key : Record}

/-- A read by the key of a row returns what was found and changes nothing. -/
def Reads (gateway : Gateway) (store : Store) (row : Record) (found : Option Record) : Prop :=
  ∃ key, gateway.keyOf row = .ok key ∧ gateway.get key none store = (.ok found, store)

theorem keyOf_congr {other : Record}
    (hsame : ∀ field ∈ gateway.entity.layout.primaryKeys, row.get? field = other.get? field) :
    gateway.keyOf row = gateway.keyOf other := by
  rw [keyOf, keyOf, Entity.keyFields]
  cases gateway.entity.layout.hashKey with
  | none => rfl
  | some hashKey => exact congrArg (Except.mapError StoreError.compile) (Record.keyOf_congr hsame)

theorem keyOf_layout (hkey : gateway.keyOf row = .ok key) :
    row.keyOf gateway.entity.layout.primaryKeys = .ok key ∧
      gateway.entity.layout.primaryKeys ≠ [] := by
  rw [keyOf_eq] at hkey
  have hown := Action.mapError_eq_ok hkey
  exact ⟨Entity.keyOf_of_keyBy_true hown, Entity.primaryKeys_ne_nil hown⟩

/-- A read by the key of a row finds the first row that has it. -/
theorem reads_find? (htable : store.tables.get? gateway.tableName = some ⟨keyFields, rows⟩)
    (hconcrete : row.ConcreteOn gateway.entity.layout.primaryKeys)
    (hkey : gateway.keyOf row = .ok key) :
    gateway.Reads store row (rows.find? (·.hasKey key)) := by
  obtain ⟨hown, -⟩ := keyOf_layout hkey
  obtain ⟨-, hsame⟩ := Record.get?_keyOf hown
  have hagain : gateway.keyOf key = .ok key := (keyOf_congr hsame).trans hkey
  refine ⟨key, hkey, ?_⟩
  unfold get
  rw [if_neg (Bool.eq_false_iff.mp (hconcrete.hasBlank_keyOf hown)), hagain,
    Action.ofExcept_ok_bind]
  simp only [Store.get, Store.readTable, Store.table, htable]
  exact congrArg (fun found => (Except.ok found, store)) (congrFun Option.map_id _)

/-- A row that is told apart from the others is read by its key. -/
theorem reads_of_mem (htable : store.tables.get? gateway.tableName = some ⟨keyFields, rows⟩)
    (hrows : KeyedBy gateway.entity.layout.primaryKeys rows)
    (hconcrete : row.ConcreteOn gateway.entity.layout.primaryKeys)
    (hkey : gateway.keyOf row = .ok key) {found : Record} (hfound : found ∈ rows)
    (hagree : row.AgreesOn gateway.entity.layout.primaryKeys found) :
    gateway.Reads store row (some found) := by
  obtain ⟨hown, hne⟩ := keyOf_layout hkey
  have haddress := (Record.isKeyOf_keyOf hown).of_agreesOn hagree
  have hreads := reads_find? htable hconcrete hkey
  rwa [hrows.find?_eq_some hne haddress hfound] at hreads

theorem isSome_hashKey (hkey : gateway.keyOf row = .ok key) :
    gateway.entity.layout.hashKey.isSome = true := by
  rw [keyOf, Entity.keyFields] at hkey
  cases hhash : gateway.entity.layout.hashKey with
  | none =>
      rw [hhash] at hkey
      cases hkey
  | some hashKey => rfl

/-- If each name comes once, the key is that of the row with what does not count. -/
theorem keyOf_of_keyBy {counts : Json → Bool} (hnodup : (row.map Prod.fst).Nodup)
    (hkey : gateway.entity.keyBy counts row = .ok key) : gateway.keyOf row = .ok key := by
  rw [keyOf_eq, Entity.keyBy_true hkey hnodup]
  rfl

/-- Without hooks a change-set is laid on the row with its key, or on the key. -/
theorem write_none (kind : WriteKind) {args : Record} (state : σ)
    (htable : store.tables.get? gateway.tableName = some ⟨keyFields, rows⟩)
    (hkey : gateway.entity.keyBy (fun value => !value.isBlank) args = .ok key) :
    ∃ row : Record, row = Members.merge ((rows.find? (·.hasKey key)).getD key)
        (gateway.entity.layout.assigned args.withoutBlanks) ∧
      gateway.write .none kind args (store, state) =
        (.ok (some row), store.withRows gateway.tableName keyFields (Record.put key row rows),
          state) := by
  obtain ⟨update, hbuild, row, hrow, hupdate⟩ := update_build htable hkey
  refine ⟨row, hrow, ?_⟩
  simp only [write, Hooks.beforeWrite, Hooks.none, Hooks.afterWrite, Action.bind_apply,
    Action.second_apply, Action.pure_apply, hbuild, Except.mapError, Action.ofExcept_apply,
    Action.attempt_first_of_ok hupdate]

theorem write_refused (kind : WriteKind) {args : Record} {fault : CompileError} (store : Store)
    (state : σ) (hfault : gateway.entity.keyBy (fun value => !value.isBlank) args = .error fault) :
    gateway.write .none kind args (store, state) = (.error (.compile fault), store, state) := by
  rcases Update.build_cases gateway.entity args gateway.tableName with
    ⟨key, assignments, hkey, -, -⟩ | ⟨error, herror, hbuild⟩
  · cases hfault.symm.trans hkey
  · obtain rfl := Except.error.inj (hfault.symm.trans herror)
    simp only [write, Hooks.beforeWrite, Hooks.none, Action.bind_apply, Action.second_apply,
      Action.pure_apply, hbuild, Except.mapError, Action.ofExcept_apply]

/-- What an insertion or an update without hooks has done: it has laid what the arguments assign on
the row with their key, or on the key if there was none, and reads find the row. -/
structure Written (gateway : Gateway) (store after : Store) (args row : Record) : Prop where
  laid : ∃ key previous kept, gateway.keyOf args = .ok key ∧ gateway.Reads store args previous ∧
    kept.Sublist args ∧
    (∀ member, member ∈ kept ↔ member ∈ args ∧ gateway.entity.layout.Assigns member) ∧
    row = Members.merge (previous.getD key) kept
  reads : gateway.Reads after row (some row)
  reads_args : gateway.Reads after args (some row)

theorem write_written (kind : WriteKind) {args : Record} (state : σ)
    (htable : store.tables.get? gateway.tableName = some ⟨keyFields, rows⟩)
    (hrows : KeyedBy gateway.entity.layout.primaryKeys rows)
    (hnodup : (args.map Prod.fst).Nodup)
    (hconcrete : args.ConcreteOn gateway.entity.layout.primaryKeys)
    (hkey : gateway.entity.keyBy (fun value => !value.isBlank) args = .ok key) :
    ∃ row new, gateway.write .none kind args (store, state) =
        (.ok (some row), store.withRows gateway.tableName keyFields new, state) ∧
      gateway.Written store (store.withRows gateway.tableName keyFields new) args row ∧
      Record.others gateway.entity.layout.primaryKeys args new =
        Record.others gateway.entity.layout.primaryKeys args rows := by
  obtain ⟨row, hrow, hwrite⟩ := write_none kind state htable hkey
  have hargs : gateway.keyOf args = .ok key := keyOf_of_keyBy hnodup hkey
  obtain ⟨hown, hall⟩ := Entity.isKeyOf_keyBy hkey
  obtain ⟨hstart, hcomplete⟩ := hrows.getD_find? hown hall
  have hsame : ∀ field ∈ gateway.entity.layout.primaryKeys,
      row.get? field = ((rows.find? (·.hasKey key)).getD key).get? field := by
    intro field hfield
    refine hrow ▸ Assignment.get?_applyAll (Assignment.applyAll_set _ _) fun assignment hmem => ?_
    obtain ⟨member, hmember, rfl⟩ := List.mem_map.mp hmem
    obtain ⟨-, hspared, -⟩ := (gateway.entity.layout.mem_assigned args member).mp hmember
    exact fun hname => hspared (Option.some.inj hname ▸ hfield)
  have hagree : row.AgreesOn gateway.entity.layout.primaryKeys args :=
    ((Record.AgreesOn.of_eq hsame).trans hstart).trans (Entity.agreesOn_keyBy hkey hnodup)
  have hcomplete : row.HasAll gateway.entity.layout.primaryKeys := fun field hfield =>
    (congrArg Option.isSome (hsame field hfield)).trans (hcomplete field hfield)
  have haddress := (Record.isKeyOf_keyOf (keyOf_layout hargs).1).of_agreesOn hagree.symm
  have hkeyed := hrows.put haddress hcomplete
  obtain ⟨rowKey, hrowKey⟩ := gateway.keyOf_of_hasAll (isSome_hashKey hargs) hcomplete
  have hafter := store.get?_withRows gateway.tableName keyFields (Record.put key row rows)
  refine ⟨row, _, hwrite, ⟨⟨key, _, _, hargs, reads_find? htable hconcrete hargs,
    List.filter_sublist.trans List.filter_sublist, gateway.entity.layout.mem_assigned args,
    hrow⟩, ?_, ?_⟩, Record.others_put haddress hagree⟩
  · exact reads_of_mem hafter hkeyed (hconcrete.of_agreesOn hagree) hrowKey Record.self_mem_put
      (.refl row)
  · exact reads_of_mem hafter hkeyed hconcrete hargs Record.self_mem_put hagree.symm

/-- Without hooks a row is taken away, and returned. -/
theorem remove_none {args : Record} (state : σ)
    (htable : store.tables.get? gateway.tableName = some ⟨keyFields, rows⟩)
    (hkey : gateway.keyOf args = .ok key) :
    gateway.remove .none args (store, state) =
      (.ok (rows.find? (·.hasKey key)),
        store.withRows gateway.tableName keyFields (rows.eraseP (·.hasKey key)), state) := by
  have hdelete : Store.delete gateway.tableName key store =
      (.ok (rows.find? (·.hasKey key)),
        store.withRows gateway.tableName keyFields (rows.eraseP (·.hasKey key))) := by
    simp only [Store.delete, Store.onTable, Store.table, htable]
    rfl
  simp only [remove, hkey, Action.ofExcept_apply, Action.bind_apply,
    Action.attempt_first_of_ok hdelete, Hooks.afterWrite, Hooks.none, Action.second_apply,
    Action.pure_apply]

theorem leaves_none (isUpdate : Bool) (items : List Record) (state : σ) :
    Hooks.leaves .none isUpdate items state = items := by
  induction items with
  | nil => rfl
  | cons item rest ih => exact congrArg (item :: ·) ih

/-- A batch that goes well is one of items with keys, and all its chunks drain. -/
theorem driveChunks_of_batchPut {items : List Record} {summary : BatchSummary} {after : Store}
    {state state' : σ} (hput : gateway.batchPut .none items (store, state) =
      (.ok (some summary), after, state')) :
    (∀ item ∈ items, ∃ key, gateway.keyOf item = .ok key) ∧
      ∃ events, Batch.driveChunks (Store.batchWrite gateway.tableName) gateway.config.retry
        ((chunks gateway.config.batchWriteChunk.toNat items).map (List.map .put)) store =
          (.ok (), events, after) := by
  have hkeys : ∀ item ∈ items, ∃ key, gateway.keyOf item = .ok key := by
    obtain ⟨-, ⟨error, hprepare, -⟩ | ⟨hnone, -⟩⟩ :=
      gateway.prepare_settles .none (store, state) items
    · rw [batchPut, Action.bind_apply] at hput
      cases hresult : gateway.prepare .none items (store, state) with
      | mk result mid =>
          rw [hresult] at hprepare hput
          obtain rfl : result = .error error := hprepare
          cases hput
    · rw [leaves_none, List.findSome?_eq_none_iff] at hnone
      intro item hitem
      obtain ⟨key, hkey⟩ := Entity.keyError?_eq_none.mp (hnone item hitem)
      exact ⟨key, by rw [keyOf_eq, hkey]; rfl⟩
  refine ⟨hkeys, ?_⟩
  rw [gateway.batchPut_none hkeys] at hput
  have hroom : Reservable WriteRequest.bytes gateway.config.batchWriteChunk.toNat := by
    by_contra hroom
    rw [gateway.batchWrite_of_not_reservable hroom] at hput
    cases hput
  rw [gateway.batchWrite_of_reservable hroom, chunks_map] at hput
  cases hdrive : Batch.driveChunks (Store.batchWrite gateway.tableName) gateway.config.retry
      ((chunks gateway.config.batchWriteChunk.toNat items).map (List.map .put)) store with
  | mk result more =>
      obtain ⟨events, final⟩ := more
      rw [hdrive] at hput
      cases result with
      | error error => cases hput
      | ok =>
          obtain ⟨-, rfl, -⟩ := hput
          exact ⟨events, rfl⟩

/-- A batch that goes well has stored its items, and keyed rows are keyed after it. -/
theorem stored_of_batchPut {items : List Record} {summary : BatchSummary} {after : Store}
    {state state' : σ} (htable : store.tables.get? gateway.tableName = some ⟨keyFields, rows⟩)
    (hfields : ∀ field, field ∈ keyFields ↔ field ∈ gateway.entity.layout.primaryKeys)
    (hrows : KeyedBy gateway.entity.layout.primaryKeys rows)
    (hitems : items.Pairwise fun a b => ¬ a.AgreesOn gateway.entity.layout.primaryKeys b)
    (hput : gateway.batchPut .none items (store, state) = (.ok (some summary), after, state')) :
    ∃ new, after.tables.get? gateway.tableName = some ⟨keyFields, new⟩ ∧
      StoredIn gateway.entity.layout.primaryKeys items rows new ∧
      KeyedBy gateway.entity.layout.primaryKeys new ∧
      ∀ other, other ≠ gateway.tableName → after.tables.get? other = store.tables.get? other := by
  obtain ⟨hkeys, events, hdrive⟩ := driveChunks_of_batchPut hput
  have hhas := hasPut_of_driveChunks htable hdrive
  rw [flatten_chunks] at hhas
  obtain ⟨stored, hperm, hafter⟩ := hhas.table
  rw [foldl_upsert] at hafter
  refine ⟨_, hafter, ?_⟩
  by_cases hne : gateway.entity.layout.primaryKeys = []
  · -- Without key fields no item has a key, so there was none.
    obtain rfl : items = [] := List.eq_nil_iff_forall_not_mem.mpr fun item hitem => by
      obtain ⟨key, hkey⟩ := hkeys item hitem
      exact (keyOf_layout hkey).2 hne
    obtain rfl := hperm.eq_nil
    exact ⟨Record.storedIn_nil, hrows, hhas.others⟩
  · have hkeyed : KeyedBy gateway.entity.layout.primaryKeys items := by
      refine ⟨fun item hitem => ?_, fun _ => hitems⟩
      obtain ⟨key, hkey⟩ := hkeys item hitem
      exact (Record.get?_keyOf (keyOf_layout hkey).1).1
    obtain ⟨hnew, hall⟩ :=
      Record.storedIn_foldl hne hfields hrows (hkeyed.perm hperm.symm)
    exact ⟨hnew.perm ((hkeyed.perm hperm.symm).distinct hne) hperm, hall, hhas.others⟩

/-- **What is written is read.** In a table of rows that are told apart by their keys, without
hooks: an insertion and an update of arguments whose key values are neither `null` nor empty fail
where a key field has no value that counts, and otherwise lay what the arguments assign on the row
with their key, or on the bare key, and reads by the keys of the arguments and of the row return it.
When a batch of such items with keys of their own goes well, whatever writes were left on the way,
each item is read as it is given. A removal returns what a read by the key returned before, and
after it there is nothing to read. The rows with other keys stay as they are, in their order. -/
theorem reads_own_writes (gateway : Gateway) {keyFields : List String} {rows : List Record}
    {store : Store} (state : σ)
    (htable : store.tables.get? gateway.tableName = some ⟨keyFields, rows⟩)
    (hfields : ∀ field, field ∈ keyFields ↔ field ∈ gateway.entity.layout.primaryKeys)
    (hrows : KeyedBy gateway.entity.layout.primaryKeys rows) :
    let entity := gateway.entity
    let primaryKeys := entity.layout.primaryKeys
    let others := Record.others primaryKeys
    (∀ args : Record, (args.map Prod.fst).Nodup → args.ConcreteOn primaryKeys →
      ∀ call ∈ [gateway.insert .none args, gateway.update .none args],
        (∃ fault, entity.keyFault? (fun value => !value.isBlank) args = some fault ∧
          call (store, state) = (.error (.compile fault), store, state)) ∨
        entity.keyFault? (fun value => !value.isBlank) args = none ∧
        ∃ row new,
          let after := store.withRows gateway.tableName keyFields new
          call (store, state) = (.ok (some row), after, state) ∧
          gateway.Written store after args row ∧ others args new = others args rows) ∧
    (∀ items : List Record, items.Pairwise (fun a b => ¬ a.AgreesOn primaryKeys b) →
      (∀ item ∈ items, item.ConcreteOn primaryKeys) → ∀ summary after state',
      gateway.batchPut .none items (store, state) = (.ok (some summary), after, state') →
        (∀ item ∈ items, gateway.Reads after item (some item)) ∧
        ∃ new, after.tables.get? gateway.tableName = some ⟨keyFields, new⟩ ∧
          StoredIn primaryKeys items rows new ∧
          ∀ other, other ≠ gateway.tableName →
            after.tables.get? other = store.tables.get? other) ∧
    (∀ args : Record, args.ConcreteOn primaryKeys →
      (∃ error, gateway.keyOf args = .error error ∧
        gateway.remove .none args (store, state) = (.error error, store, state)) ∨
      ∃ old,
        let after := store.withRows gateway.tableName keyFields (others args rows)
        gateway.remove .none args (store, state) = (.ok old, after, state) ∧
        gateway.Reads store args old ∧ gateway.Reads after args none) := by
  intro entity primaryKeys others
  refine ⟨fun args hnodup hconcrete call hcall => ?_, fun items hitems hconcrete summary after
    state' hput => ?_, fun args hconcrete => ?_⟩
  · obtain ⟨kind, rfl⟩ : ∃ kind, call = gateway.write .none kind args := by
      rcases List.mem_pair.mp hcall with rfl | rfl
      · exact ⟨.create, rfl⟩
      · exact ⟨.update, rfl⟩
    rw [← entity.keyError?_eq_keyFault? _ hnodup]
    cases hkey : entity.keyBy (fun value => !value.isBlank) args with
    | error fault =>
        exact Or.inl ⟨fault, Entity.keyError?_eq_some.mpr hkey, write_refused kind store state hkey⟩
    | ok key =>
        exact Or.inr ⟨Entity.keyError?_eq_none.mpr ⟨key, hkey⟩,
          write_written kind state htable hrows hnodup hconcrete hkey⟩
  · obtain ⟨new, hafter, hstored, hkeyed, hothers⟩ :=
      stored_of_batchPut htable hfields hrows hitems hput
    refine ⟨fun item hitem => ?_, new, hafter, hstored, hothers⟩
    obtain ⟨key, hkey⟩ := (driveChunks_of_batchPut hput).1 item hitem
    exact reads_of_mem hafter hkeyed (hconcrete item hitem) hkey (hstored.mem hitems hitem)
      (.refl item)
  · cases hkey : gateway.keyOf args with
    | error error =>
        refine Or.inl ⟨error, rfl, ?_⟩
        rw [remove, hkey]
        rfl
    | ok key =>
        obtain ⟨hown, hne⟩ := keyOf_layout hkey
        have haddress := Record.isKeyOf_keyOf hown
        have hremove := remove_none state htable hkey
        rw [Record.eraseP_eq_others hrows hne haddress] at hremove
        refine Or.inr ⟨_, hremove, reads_find? htable hconcrete hkey, ?_⟩
        have hreads := reads_find? (store.get?_withRows gateway.tableName keyFields
          (others args rows)) hconcrete hkey
        rwa [Record.find?_others haddress] at hreads

/-- Plots of gardens, by bed, in the order of their crops. -/
def plots : Gateway where
  entity := ⟨⟨"plots", [("garden", { type := .string, isHashKey := true }),
    ("bed", { type := .number, isRangeKey := true }),
    ("crop", { type := .string, isLocalIndex := true }), ("note", { type := .string })],
    by decide⟩, by decide⟩
  config := { batchWriteChunk := 1 }
  accepted := by decide

def plot (bed : Nat) (crop note : String) : Record :=
  [("bed", .nat bed), ("crop", .string crop), ("garden", .string "north"), ("note", .string note)]

def plotRows : List Record := [plot 1 "kale" "dug", plot 2 "leek" "weeded"]

/-- The next write of the third bed is left once. -/
def plotStore : Store where
  tables := [("plots", ⟨["bed", "garden"], plotRows⟩)]
  deferrals := [⟨[("bed", .nat 3)], 1⟩]

theorem plot_concreteOn (bed : Nat) (crop note : String) :
    (plot bed crop note).ConcreteOn plots.entity.layout.primaryKeys := by
  have hkeys : plots.entity.layout.primaryKeys = ["garden", "bed"] := rfl
  rw [hkeys]
  simp [Record.ConcreteOn, plot, Members.get?, Json.nat, Json.int]

theorem plots_read_own_writes :
    (∃ row new, plots.update .none (plot 1 "" "watered") (plotStore, ()) =
        (.ok (some row), plotStore.withRows "plots" ["bed", "garden"] new, ()) ∧
      plots.Written plotStore (plotStore.withRows "plots" ["bed", "garden"] new)
        (plot 1 "" "watered") row) ∧
    (∀ item ∈ [plot 3 "bean" "", plot 1 "rye" ""], plots.Reads
      (plots.batchPut .none [plot 3 "bean" "", plot 1 "rye" ""] (plotStore, ())).2.1 item
      (some item)) ∧
    ∃ old, (plots.remove .none (plot 2 "" "") (plotStore, ())).1 = .ok old ∧
      plots.Reads plotStore (plot 2 "" "") old := by
  have hfields : ["bed", "garden"].Perm plots.entity.layout.primaryKeys := by decide
  have htable : plotStore.tables.get? plots.tableName = some ⟨["bed", "garden"], plotRows⟩ := rfl
  obtain ⟨hwrites, hputs, hremoves⟩ :=
    reads_own_writes plots () htable (fun _ => hfields.mem_iff) (by decide)
  refine ⟨?_, ?_, ?_⟩
  · have hwrite := hwrites (plot 1 "" "watered") (by decide) (plot_concreteOn _ _ _)
      (plots.update .none _) (List.mem_pair.mpr (Or.inr rfl))
    rcases hwrite with ⟨fault, hfault, -⟩ | ⟨-, row, new, hwrite, hwritten, -⟩
    · have hnone : plots.entity.keyFault? (fun value => !value.isBlank) (plot 1 "" "watered") =
        none := rfl
      cases hnone.symm.trans hfault
    · exact ⟨row, new, hwrite, hwritten⟩
  · refine (hputs _ (by decide) ?_ ⟨2, 3⟩ _ () rfl).1
    simp only [List.forall_mem_cons]
    exact ⟨plot_concreteOn _ _ _, plot_concreteOn _ _ _, fun _ h => absurd h List.not_mem_nil⟩
  · rcases hremoves (plot 2 "" "") (plot_concreteOn _ _ _) with
      ⟨error, herror, -⟩ | ⟨old, hold, hreads, -⟩
    · cases herror
    · exact ⟨old, by rw [hold], hreads⟩

end Gateway

end KeyValue

end SchemaQuery
