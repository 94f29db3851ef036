import SchemaQuery.Proofs.KeyValue.Rereading

/-!
# Calls for different rows

A call for one row finds the first row with its key and has other rows stand in its place: the row
as it was changed, the row of the key alone if there was none, or nothing if the row was removed.
What it answers depends on that row alone. So calls for rows with different keys do not notice each
other: in either order each has the same answer, and the same rows are left, though those that were
added may stand in another order.
-/

namespace SchemaQuery

namespace Record

variable {key other row : Record} {rows before new more : List Record}

/-! ### Rows in the place of one -/

/-- Puts rows in the place of the first that has the key, or at the end. -/
def replace (key : Record) (new : List Record) : List Record → List Record
  | [] => new
  | old :: rest => if old.hasKey key then new ++ rest else old :: replace key new rest

theorem replace_singleton (key row : Record) (rows : List Record) :
    replace key [row] rows = put key row rows := by
  induction rows with
  | nil => rfl
  | cons old rest ih => rw [replace, put, ih, List.singleton_append]

theorem replace_nil (key : Record) (rows : List Record) :
    replace key [] rows = rows.eraseP (·.hasKey key) := by
  induction rows with
  | nil => rfl
  | cons old rest ih => rw [replace, List.eraseP_cons, ih, List.nil_append, cond_eq_ite]

/-- Rows are as they were if the one that gives way stands in its own place again. -/
theorem replace_find? (key : Record) (rows : List Record) :
    replace key (rows.find? (·.hasKey key)).toList rows = rows := by
  induction rows with
  | nil => rfl
  | cons old rest ih =>
      rw [replace, List.find?_cons]
      cases hold : old.hasKey key with
      | true => rfl
      | false => exact congrArg (old :: ·) ih

theorem replace_append (hbefore : ∀ row ∈ before, row.hasKey key = false) :
    replace key new (before ++ rows) = before ++ replace key new rows := by
  induction before with
  | nil => rfl
  | cons first rest ih =>
      obtain ⟨hfirst, hrest⟩ := List.forall_mem_cons.mp hbefore
      rw [List.cons_append, replace, if_neg (Bool.eq_false_iff.mp hfirst), ih hrest,
        List.cons_append]

/-- No row has both keys. -/
def Apart (key other : Record) : Prop :=
  ∀ row : Record, row.hasKey key = true → row.hasKey other = false

theorem Apart.symm (hapart : Apart key other) : Apart other key := fun row hother =>
  Bool.eq_false_iff.mpr fun hkey => Bool.false_ne_true ((hapart row hkey).symm.trans hother)

/-- What stands in the place of a row is not found by another key. -/
theorem find?_replace (hapart : Apart key other) (hnew : ∀ row ∈ new, row.hasKey other = true) :
    (replace other new rows).find? (·.hasKey key) = rows.find? (·.hasKey key) := by
  have hmiss : new.find? (·.hasKey key) = none := List.find?_eq_none.mpr fun row hrow =>
    Bool.eq_false_iff.mp (hapart.symm row (hnew row hrow))
  induction rows with
  | nil => exact hmiss
  | cons old rest ih =>
      rw [replace]
      split
      next hold =>
        have hkey : ¬ old.hasKey key = true := Bool.eq_false_iff.mp (hapart.symm old hold)
        rw [List.find?_append, hmiss, Option.none_or,
          List.find?_cons_of_neg (p := fun row => hasKey row key) hkey]
      next => rw [List.find?_cons, List.find?_cons, ih]

/-- Rows can be put in the places of two others in either order; only those that are put at the end
may then stand in another order. -/
theorem replace_comm (hapart : Apart key other) (hnew : ∀ row ∈ new, row.hasKey key = true)
    (hmore : ∀ row ∈ more, row.hasKey other = true) :
    (replace key new (replace other more rows)).Perm
      (replace other more (replace key new rows)) := by
  have hnew' : ∀ row ∈ new, row.hasKey other = false := fun row hrow => hapart row (hnew row hrow)
  have hmore' : ∀ row ∈ more, row.hasKey key = false := fun row hrow =>
    hapart.symm row (hmore row hrow)
  induction rows with
  | nil =>
      have hfirst := @replace_append key [] more new hmore'
      have hsecond := @replace_append other [] new more hnew'
      rw [List.append_nil] at hfirst hsecond
      rw [replace, replace, hfirst, hsecond]
      exact List.perm_append_comm
  | cons old rest ih =>
      rw [replace, replace]
      by_cases hkey : old.hasKey key = true
      · have hother : ¬ old.hasKey other = true := Bool.eq_false_iff.mp (hapart old hkey)
        rw [if_neg hother, replace, if_pos hkey, if_pos hkey, replace_append hnew']
      · rw [if_neg hkey]
        by_cases hother : old.hasKey other = true
        · rw [if_pos hother, replace, if_pos hother, replace_append hmore']
        · rw [if_neg hother, replace, if_neg hkey, replace, if_neg hother]
          exact ih.cons old

end Record

namespace KeyValue

open Record (IsKeyOf Apart)

/-! ### Work on the row with a key -/

/-- What is made of a row, or of none: an answer, and the rows in its place. -/
abbrev Making (α : Type) := Option Record → Except StoreError α × List Record

/-- What is made of a row with a key are rows with this key. -/
def Making.Keeps {α : Type} (key : Record) (make : Making α) : Prop :=
  ∀ found : Option Record, (∀ old ∈ found, old.hasKey key = true) →
    ∀ row ∈ (make found).2, row.hasKey key = true

/-- Making another answer of the same rows. -/
def Making.map {α β : Type} (f : α → β) (make : Making α) : Making β := fun found =>
  ((make found).1.map f, (make found).2)

/-- What an update makes of the row with its key. -/
def Update.make (update : Update) : Making Record := fun found =>
  match Assignment.applyAll (found.getD update.key) update.assignments with
  | .ok row => (.ok (update.returned row), [row])
  | .error fault => (.error (.backend fault), [found.getD update.key])

theorem Update.make_keeps {update : Update} {fields : List String} (hspares : update.Spares fields)
    (hne : fields ≠ []) (hkey : IsKeyOf fields update.key update.key) :
    update.make.Keeps update.key := by
  intro found hfound row hrow
  have hstart : (found.getD update.key).AgreesOn fields update.key := by
    cases found with
    | none => exact .refl update.key
    | some old => exact ((hkey old).mp (hfound old rfl)).2
  rw [make] at hrow
  split at hrow
  next made happly =>
    obtain rfl := List.mem_singleton.mp hrow
    have hsame : row.AgreesOn fields (found.getD update.key) := .of_eq fun field hfield =>
      Assignment.get?_applyAll happly fun assignment h => hspares assignment h field hfield
    exact (hkey row).mpr ⟨hne, hsame.trans hstart⟩
  next =>
    obtain rfl := List.mem_singleton.mp hrow
    exact (hkey _).mpr ⟨hne, hstart⟩

namespace Store

variable {α β σ : Type} {name : String} {store : Store}

/-- Work on the row with a key in a table. -/
def atKey (name : String) (key : Record) (make : Making α) : Action Store α :=
  onTable name fun table =>
    let made := make (table.find? key)
    (made.1, { table with rows := Record.replace key made.2 table.rows })

theorem update_eq_atKey (update : Update) :
    Store.update update = atKey update.tableName update.key update.make := by
  refine congrArg (onTable update.tableName) (funext fun table => ?_)
  rw [Update.applyTo, Update.make]
  cases Assignment.applyAll ((table.find? update.key).getD update.key) update.assignments with
  | ok row => simp only [Record.replace_singleton]
  | error fault =>
      cases hfound : table.find? update.key with
      | some old =>
          have hback := Record.replace_find? update.key table.rows
          rw [show table.rows.find? (·.hasKey update.key) = some old from hfound] at hback
          simp only [Option.isSome_some, if_true, Option.getD_some]
          exact congrArg (fun rows => (_, Table.mk table.keyFields rows)) hback.symm
      | none =>
          simp only [Option.isSome_none, Bool.false_eq_true, if_false, Option.getD_none,
            Record.replace_singleton, Record.put_of_find?_eq_none hfound]

theorem delete_eq_atKey (name : String) (key : Record) :
    Store.delete name key = atKey name key fun found => (.ok found, []) := by
  refine congrArg (onTable name) (funext fun table => ?_)
  simp only [Record.replace_nil]
  rfl

theorem atKey_unknown {key : Record} {make : Making α} (hnone : store.tables.get? name = none) :
    atKey name key make store = (.error (.backend (.unknownTable name)), store) := by
  simp only [atKey, onTable, table, hnone]

theorem atKey_known {keyFields : List String} {rows : List Record} {key : Record}
    {make : Making α} (htable : store.tables.get? name = some ⟨keyFields, rows⟩) :
    atKey name key make store =
      ((make (rows.find? (·.hasKey key))).1, store.withRows name keyFields
        (Record.replace key (make (rows.find? (·.hasKey key))).2 rows)) := by
  simp only [atKey, onTable, table, htable]
  rfl

theorem atKey_map (key : Record) (f : α → β) (make : Making α) :
    atKey name key (make.map f) store =
      ((atKey name key make store).1.map f, (atKey name key make store).2) := by
  cases hfound : store.tables.get? name with
  | none =>
      rw [atKey_unknown hfound, atKey_unknown hfound]
      rfl
  | some table =>
      rw [atKey_known hfound, atKey_known hfound]
      rfl

/-- Two stores are the same but for the order of the rows in one table. -/
def SameRows (name : String) (store other : Store) : Prop :=
  other = store ∨ ∃ keyFields rows more, store.tables.get? name = some ⟨keyFields, rows⟩ ∧
    rows.Perm more ∧ other = store.withRows name keyFields more

/-- Two actions can be done in either order: each answers what it answers alone, and what is left is
the same but for the order of the rows. -/
structure Commute (name : String) (first : Action (Store × σ) α) (second : Action (Store × σ) β)
    (state : Store × σ) : Prop where
  first_answers : (first (second state).2).1 = (first state).1
  second_answers : (second (first state).2).1 = (second state).1
  rows : SameRows name (second (first state).2).2.1 (first (second state).2).2.1
  rest : (second (first state).2).2.2 = (first (second state).2).2.2

/-- Work on rows with different keys. -/
theorem atKey_commute {key other : Record} {make : Making α} {more : Making β}
    (hapart : Apart key other) (hmake : make.Keeps key) (hmore : more.Keeps other)
    (state : Store × σ) :
    Commute name (.first (atKey name key make)) (.first (atKey name other more)) state := by
  obtain ⟨store, rest⟩ := state
  cases hfound : store.tables.get? name with
  | none =>
      have hunknown {γ : Type} (key : Record) (make : Making γ) :
          atKey name key make store = (.error (.backend (.unknownTable name)), store) :=
        atKey_unknown hfound
      refine ⟨?_, ?_, Or.inl ?_, ?_⟩ <;> simp only [Action.first_apply, hunknown]
  | some table =>
      obtain ⟨keyFields, rows⟩ := table
      have hown : ∀ row ∈ (make (rows.find? (·.hasKey key))).2, row.hasKey key = true :=
        hmake _ fun old hold => List.find?_some (p := fun row => Record.hasKey row key) hold
      have hown' : ∀ row ∈ (more (rows.find? (·.hasKey other))).2, row.hasKey other = true :=
        hmore _ fun old hold => List.find?_some (p := fun row => Record.hasKey row other) hold
      have hsame : (Record.replace other (more (rows.find? (·.hasKey other))).2 rows).find?
          (·.hasKey key) = rows.find? (·.hasKey key) := Record.find?_replace hapart hown'
      have hsame' : (Record.replace key (make (rows.find? (·.hasKey key))).2 rows).find?
          (·.hasKey other) = rows.find? (·.hasKey other) := Record.find?_replace hapart.symm hown
      have hperm := @Record.replace_comm key other rows _ _ hapart hown hown'
      -- Both orders leave the rows that are made of the two found at first.
      refine ⟨?_, ?_, Or.inr ⟨keyFields, _, _, ?_, hperm.symm, ?_⟩, ?_⟩ <;>
        simp only [Action.first_apply, atKey_known hfound, atKey_known (get?_withRows ..),
          get?_withRows, hsame, hsame', withRows_withRows]

end Store

/-! ### Calls for one row -/

/-- The calls that write one row, with the type of what they answer. -/
inductive RowCall : Type → Type where
  | insert (args : Record) : RowCall (Option Record)
  | update (args : Record) : RowCall (Option Record)
  | remove (args : Record) : RowCall (Option Record)
  | increment (key : Record) (field : String) (delta : Json) : RowCall (Option Json)
  | decrement (key : Record) (field : String) (delta : Json) : RowCall (Option Json)
  | incrementMap (key : Record) (map field : String) (delta : Json) : RowCall (Option Json)

namespace RowCall

variable {α : Type}

def toWrite : RowCall α → Write
  | insert args => .insert args
  | update args => .update args
  | remove args => .remove args
  | increment key field delta => .increment key field delta
  | decrement key field delta => .decrement key field delta
  | incrementMap key map field delta => .incrementMap key map field delta

/-- The row that the call is for, as far as it is given. -/
def row : RowCall α → Record
  | insert args => args
  | update args => args
  | remove args => args
  | increment key .. => key
  | decrement key .. => key
  | incrementMap key .. => key

end RowCall

namespace Gateway

variable {α β σ : Type} {gateway : Gateway}

/-- A call for one row without hooks. -/
def call (gateway : Gateway) : {α : Type} → RowCall α → Action (Store × σ) α
  | _, .insert args => gateway.insert .none args
  | _, .update args => gateway.update .none args
  | _, .remove args => gateway.remove .none args
  | _, .increment key field delta => .first (gateway.increment key field delta)
  | _, .decrement key field delta => .first (gateway.decrement key field delta)
  | _, .incrementMap key map field delta => .first (gateway.incrementMap key map field delta)

/-- An action fails whatever the store, or it works on the row with the key of another. -/
def ActsAt (gateway : Gateway) (row : Record) (action : Action (Store × σ) α) : Prop :=
  (∃ error, ∀ state, action state = (.error error, state)) ∨
  ∃ key make, IsKeyOf gateway.entity.layout.primaryKeys row key ∧ Making.Keeps key make ∧
    action = .first (Store.atKey gateway.tableName key make)

theorem isKeyOf_of_keyBy {counts : Json → Bool} {row key : Record}
    (hkey : gateway.entity.keyBy counts row = .ok key) (hnodup : (row.map Prod.fst).Nodup) :
    IsKeyOf gateway.entity.layout.primaryKeys row key :=
  (Entity.isKeyOf_keyBy hkey).1.of_agreesOn (Entity.agreesOn_keyBy hkey hnodup)

/-- An action that updates a row by the key of another, and tells something of what was stored. -/
theorem actsAt_of_update {counts : Json → Bool} {row : Record} (update : Update) (f : Record → α)
    {action : Action (Store × σ) α} (hnodup : (row.map Prod.fst).Nodup)
    (hkey : gateway.entity.keyBy counts row = .ok update.key)
    (htable : update.tableName = gateway.tableName)
    (hspares : update.Spares gateway.entity.layout.primaryKeys)
    (haction : ∀ state, action state =
      ((Store.update update state.1).1.map f, (Store.update update state.1).2, state.2)) :
    gateway.ActsAt row action := by
  refine Or.inr ⟨update.key, update.make.map f, isKeyOf_of_keyBy hkey hnodup,
    update.make_keeps hspares (Entity.primaryKeys_ne_nil hkey) (Entity.isKeyOf_keyBy hkey).1,
    funext fun state => ?_⟩
  rw [haction, Action.first_apply, ← htable, Store.atKey_map, Store.update_eq_atKey]

theorem write_actsAt (kind : WriteKind) {args : Record} (hnodup : (args.map Prod.fst).Nodup) :
    gateway.ActsAt args (gateway.write .none kind args : Action (Store × σ) _) := by
  rcases Update.build_cases gateway.entity args gateway.tableName with
    ⟨key, assignments, hkey, hbuild, hspares⟩ | ⟨error, herror, -⟩
  · refine actsAt_of_update _ some hnodup hkey rfl hspares fun state => ?_
    rw [write, Action.bind_apply]
    simp only [Hooks.beforeWrite, Hooks.none, Action.second_apply, Action.pure_apply, hbuild]
    rw [Action.ofExcept_mapError_bind, Action.attempt_bind_of_fail fun _ => rfl, Action.bind_apply,
      Action.first_apply]
    cases (Store.update _ state.1).1 with
    | error fault => rfl
    | ok row => rfl
  · exact Or.inl ⟨_, fun state => write_refused kind state.1 state.2 herror⟩

theorem remove_actsAt {args : Record} (hnodup : (args.map Prod.fst).Nodup) :
    gateway.ActsAt args (gateway.remove .none args : Action (Store × σ) _) := by
  cases hkey : gateway.entity.keyBy (fun _ => true) args with
  | error error =>
      refine Or.inl ⟨.compile error, fun state => ?_⟩
      rw [remove, keyOf_eq, hkey]
      rfl
  | ok key =>
      refine Or.inr ⟨key, fun found => (.ok found, []), isKeyOf_of_keyBy hkey hnodup,
        fun _ _ row hrow => absurd hrow List.not_mem_nil, funext fun state => ?_⟩
      rw [remove, keyOf_eq, hkey, Action.ofExcept_mapError_bind, Store.delete_eq_atKey,
        Action.attempt_bind_of_fail fun _ => rfl, Action.bind_apply, Action.first_apply]
      cases (Store.atKey gateway.tableName key (fun found => (.ok found, [])) state.1).1 with
      | error error => rfl
      | ok found => rfl

theorem adjust_actsAt {key : Record} {path : List String} {subtract : Bool} {delta : Json}
    (hnodup : (key.map Prod.fst).Nodup)
    (hspares : ∀ field ∈ gateway.entity.layout.primaryKeys, path.head? ≠ some field) :
    gateway.ActsAt key
      (.first (gateway.adjust key path subtract delta) : Action (Store × σ) _) := by
  cases hkey : gateway.entity.keyBy (fun _ => true) key with
  | error error =>
      refine Or.inl ⟨.compile error, fun state => ?_⟩
      rw [adjust, keyOf_eq, hkey]
      rfl
  | ok own =>
      refine actsAt_of_update (Update.adjust gateway.tableName own path subtract delta)
        (fun row => row.getPath? path) hnodup hkey rfl ?_ fun state => ?_
      · intro assignment hassignment
        obtain rfl := List.mem_singleton.mp hassignment
        exact hspares
      · rw [adjust, keyOf_eq, hkey, Action.ofExcept_mapError_bind, Action.first_apply,
          Action.bind_apply]
        cases Store.update (Update.adjust gateway.tableName own path subtract delta) state.1 with
        | mk result after =>
            cases result with
            | error error => rfl
            | ok row => rfl

theorem call_actsAt (call : RowCall α) (hnodup : (call.row.map Prod.fst).Nodup)
    (hspares : call.toWrite.Spares gateway.entity.layout.primaryKeys) :
    gateway.ActsAt call.row (gateway.call call : Action (Store × σ) α) := by
  cases call with
  | insert args => exact write_actsAt .create hnodup
  | update args => exact write_actsAt .update hnodup
  | remove args => exact remove_actsAt hnodup
  | increment key field delta => exact adjust_actsAt hnodup hspares
  | decrement key field delta => exact adjust_actsAt hnodup hspares
  | incrementMap key map field delta => exact adjust_actsAt hnodup hspares

theorem ActsAt.commute {row other : Record} {first : Action (Store × σ) α}
    {second : Action (Store × σ) β} (hfirst : gateway.ActsAt row first)
    (hsecond : gateway.ActsAt other second)
    (hdiffer : ¬ row.AgreesOn gateway.entity.layout.primaryKeys other) (state : Store × σ) :
    Store.Commute gateway.tableName first second state := by
  rcases hfirst with ⟨error, herror⟩ | ⟨key, make, hkey, hmake, rfl⟩
  · refine ⟨?_, ?_, Or.inl ?_, ?_⟩ <;> simp only [herror]
  · rcases hsecond with ⟨error, herror⟩ | ⟨key', more, hkey', hmore, rfl⟩
    · refine ⟨?_, ?_, Or.inl ?_, ?_⟩ <;> simp only [herror]
    · refine Store.atKey_commute (fun third hthird => ?_) hmake hmore state
      refine Bool.eq_false_iff.mpr fun hother => hdiffer ?_
      exact ((hkey third).mp hthird).2.symm.trans ((hkey' third).mp hother).2

/-- **Calls for different rows.** Two calls for rows with different keys, neither a counter that
begins at a key, can be made in either order, whatever rows there are: each answers what it answers
alone, be it an error or not, and the same rows are left. -/
theorem calls_commute (gateway : Gateway) {first : RowCall α} {second : RowCall β}
    (hfirst : (first.row.map Prod.fst).Nodup) (hsecond : (second.row.map Prod.fst).Nodup)
    (hspares : first.toWrite.Spares gateway.entity.layout.primaryKeys)
    (hspares' : second.toWrite.Spares gateway.entity.layout.primaryKeys)
    (hdiffer : ¬ first.row.AgreesOn gateway.entity.layout.primaryKeys second.row)
    (state : Store × σ) :
    Store.Commute gateway.tableName (gateway.call first) (gateway.call second) state :=
  (call_actsAt first hfirst hspares).commute (call_actsAt second hsecond hspares') hdiffer state

/-- A plot is added, and a count fails for another that there was not, of which the key is left:
which of the two stands at the end depends on the order. -/
theorem plots_calls_commute :
    Store.Commute "plots" (plots.call (.insert (plot 4 "rye" "")))
      (plots.call (.increment [("bed", .nat 3), ("garden", .string "north")] "note" (.string "x")))
      (plotStore, ()) :=
  plots.calls_commute (by decide) (by decide) (by decide) (by decide) (by decide) (plotStore, ())

end Gateway

end KeyValue

end SchemaQuery
