import SchemaQuery.KeyValue.Store
import SchemaQuery.Proofs.Batch.Effects
import SchemaQuery.Proofs.Json.Keys
import SchemaQuery.Proofs.Store.Holding
import SchemaQuery.Proofs.Store.Paths

/-!
# Writes to a table

What each write makes of the rows of a table. An update goes to the row with its key, or to a row of
the key alone, and spares the keys if no assignment begins at one; when it fails, the row that was
made for it stays. The requests of a batch are carried out one by one, except those that are left.
-/

namespace SchemaQuery.KeyValue

open Record (KeyedBy KeepsKeyed HasKeyAmong IsKeyOf)

/-! ### Assignments -/

/-- No assignment begins at one of the fields. -/
def Update.Spares (fields : List String) (update : Update) : Prop :=
  ∀ assignment ∈ update.assignments, ∀ field ∈ fields, assignment.path.head? ≠ some field

namespace Assignment

theorem get?_apply {assignment : Assignment} {row after : Record} {field : String}
    (happly : assignment.apply row = .ok after) (hne : assignment.path.head? ≠ some field) :
    after.get? field = row.get? field := by
  cases assignment with
  | set path value => exact Record.get?_setPath_of_ne happly hne
  | adjust path subtract delta =>
      rw [apply] at happly
      split at happly
      next => exact Record.get?_setPath_of_ne happly hne
      next => cases happly

theorem get?_applyAll {assignments : List Assignment} {row after : Record} {field : String}
    (happly : applyAll row assignments = .ok after)
    (hne : ∀ assignment ∈ assignments, assignment.path.head? ≠ some field) :
    after.get? field = row.get? field := by
  induction assignments generalizing row with
  | nil => rw [Except.ok.inj happly]
  | cons assignment rest ih =>
      obtain ⟨hfirst, hrest⟩ := List.forall_mem_cons.mp hne
      rw [applyAll] at happly
      split at happly
      next mid hmid => rw [ih happly hrest, get?_apply hmid hfirst]
      next => cases happly

end Assignment

/-! ### Tables -/

namespace Update

/-- An update puts the row it makes in the place of the one with its key, or fails. -/
theorem applyTo_cases (update : Update) (table : Table) :
    (∃ row, Assignment.applyAll ((table.find? update.key).getD update.key) update.assignments =
        .ok row ∧
      update.applyTo table =
        (.ok (update.returned row),
          { table with rows := Record.put update.key row table.rows })) ∨
    ∃ fault, update.applyTo table =
      (.error (.backend fault),
        if (table.find? update.key).isSome then table
        else { table with rows := table.rows ++ [update.key] }) := by
  rw [applyTo]
  cases happly : Assignment.applyAll ((table.find? update.key).getD update.key)
      update.assignments with
  | ok row => exact Or.inl ⟨row, rfl, rfl⟩
  | error fault => exact Or.inr ⟨fault, rfl⟩

/-- The rows after an update have a row that agrees with the key, or are as they were. -/
theorem rows_applyTo {update : Update} {fields : List String} (hspares : update.Spares fields)
    (table : Table) :
    (update.applyTo table).2 = table ∨
    ∃ row, (update.applyTo table).2 =
        { table with rows := Record.put update.key row table.rows } ∧
      ∀ field ∈ fields, row.get? field =
        ((table.find? update.key).getD update.key).get? field := by
  rcases update.applyTo_cases table with ⟨row, happly, hresult⟩ | ⟨fault, hresult⟩
  · refine Or.inr ⟨row, by rw [hresult], fun field hfield => ?_⟩
    exact Assignment.get?_applyAll happly fun assignment h => hspares assignment h field hfield
  · rw [hresult]
    cases hfound : table.find? update.key with
    | some old => exact Or.inl rfl
    | none =>
        refine Or.inr ⟨update.key, ?_, fun _ _ => rfl⟩
        rw [Record.put_of_find?_eq_none hfound]
        rfl

end Update

/-! ### Tables of a store -/

namespace Store

variable {name : String} {fields : List String} {q : List Record → List Record → Prop}
  {store : Store}

/-- The rows of a table and their key fields. -/
def held? (name : String) (store : Store) : Option Holding :=
  (store.tables.get? name).map fun table => ⟨table.keyFields, table.rows⟩

/-- Work on a table either finds it and changes nothing else, or fails. -/
theorem onTable_cases {α : Type} (name : String) (work : Table → Except StoreError α × Table)
    (store : Store) :
    (store.tables.get? name = none ∧
      onTable name work store = (.error (.backend (.unknownTable name)), store)) ∨
    ∃ table, store.tables.get? name = some table ∧ onTable name work store =
      ((work table).1, { store with tables := store.tables.set name (work table).2 }) := by
  rw [onTable, Store.table]
  cases store.tables.get? name with
  | none => exact Or.inl ⟨rfl, rfl⟩
  | some table => exact Or.inr ⟨table, rfl, rfl⟩

theorem held?_eq_some {held : Holding} :
    held? name store = some held ↔
      store.tables.get? name = some ⟨held.keyFields, held.rows⟩ := by
  rw [held?, Option.map_eq_some_iff]
  constructor
  · rintro ⟨table, htable, rfl⟩
    exact htable
  · exact fun htable => ⟨_, htable, rfl⟩

theorem carries_onTable {α : Type} {work : Table → Except StoreError α × Table}
    (hwork : ∀ table : Table, (∀ field, field ∈ table.keyFields ↔ field ∈ fields) →
      ∃ rows, (work table).2 = { table with rows } ∧ q table.rows rows) :
    Carries (held? name) fields q store (onTable name work store).2 := by
  intro held hheld hfields
  rw [held?_eq_some] at hheld
  rcases onTable_cases name work store with ⟨hnone, -⟩ | ⟨table, htable, hresult⟩
  · cases hnone.symm.trans hheld
  · obtain rfl := Option.some.inj (htable.symm.trans hheld)
    obtain ⟨rows, hrows, hq⟩ := hwork ⟨held.keyFields, held.rows⟩ hfields
    refine ⟨rows, ?_, hq⟩
    rw [hresult, hrows, held?_eq_some]
    exact Members.get?_set_self ..

theorem carries_update {update : Update} (hrefl : ∀ rows, q rows rows)
    (hspares : update.Spares fields)
    (hput : ∀ rows row, (∀ field ∈ fields, row.get? field =
        ((rows.find? fun other => other.hasKey update.key).getD update.key).get? field) →
      q rows (Record.put update.key row rows)) :
    Carries (held? update.tableName) fields q store (Store.update update store).2 := by
  refine carries_onTable fun table _ => ?_
  rcases update.rows_applyTo hspares table with hsame | ⟨row, hresult, hrow⟩
  · exact ⟨table.rows, hsame, hrefl _⟩
  · exact ⟨_, hresult, hput table.rows row hrow⟩

theorem carries_delete {key : Record}
    (hdelete : ∀ rows, q rows (rows.eraseP fun row => row.hasKey key)) :
    Carries (held? name) fields q store (Store.delete name key store).2 :=
  carries_onTable fun table _ => ⟨_, rfl, hdelete table.rows⟩

/-! ### Batches of requests -/

/-- A request does to rows what the relation says, in any table with these key fields. -/
def Fits (fields : List String) (q : List Record → List Record → Prop) : WriteRequest → Prop
  | .put item => ∀ given : List String, (∀ field, field ∈ given ↔ field ∈ fields) →
      ∀ rows, q rows (Record.put (item.pick given) item rows)
  | .delete key => ∀ rows, q rows (rows.eraseP fun row => row.hasKey key)

theorem applyRequest_fits {request : WriteRequest} (hfits : Fits fields q request) {table : Table}
    (hfields : ∀ field, field ∈ table.keyFields ↔ field ∈ fields) :
    ∃ rows, applyRequest table request = { table with rows } ∧ q table.rows rows := by
  cases request with
  | put item => exact ⟨_, rfl, hfits table.keyFields hfields table.rows⟩
  | delete key => exact ⟨_, rfl, hfits table.rows⟩

/-- Only requests that were given are left. -/
theorem mem_of_mem_process {requests : List WriteRequest} {table : Table}
    {deferrals : List Deferral} {request : WriteRequest}
    (hmem : request ∈ (process requests table deferrals).1) : request ∈ requests := by
  induction requests generalizing table deferrals with
  | nil => exact hmem
  | cons first rest ih =>
      rw [process] at hmem
      split at hmem
      next =>
        rcases List.mem_cons.mp hmem with rfl | hrest
        · exact List.mem_cons_self
        · exact List.mem_cons_of_mem first (ih hrest)
      next => exact List.mem_cons_of_mem first (ih hmem)

/-- The requests that are not left are carried out one after the other. -/
theorem process_fits (hrefl : ∀ rows, q rows rows) (htrans : ∀ ⦃a b c⦄, q a b → q b c → q a c)
    {requests : List WriteRequest} (hfits : ∀ request ∈ requests, Fits fields q request)
    (table : Table) (hfields : ∀ field, field ∈ table.keyFields ↔ field ∈ fields)
    (deferrals : List Deferral) :
    ∃ rows, (process requests table deferrals).2.1 = { table with rows } ∧ q table.rows rows := by
  induction requests generalizing table deferrals with
  | nil => exact ⟨table.rows, rfl, hrefl _⟩
  | cons request rest ih =>
      obtain ⟨hfirst, hrest⟩ := List.forall_mem_cons.mp hfits
      rw [process]
      split
      next deferrals _ => exact ih hrest table hfields deferrals
      next =>
        obtain ⟨rows, happly, hq⟩ := applyRequest_fits hfirst hfields
        rw [happly]
        obtain ⟨final, hfinal, hq'⟩ := ih hrest { table with rows } hfields deferrals
        exact ⟨final, hfinal, htrans hq hq'⟩

theorem batchWrite_moves (hrefl : ∀ rows, q rows rows)
    (htrans : ∀ ⦃a b c⦄, q a b → q b c → q a c) :
    Batch.Moves (batchWrite name) (Fits fields q) (Carries (held? name) fields q) := by
  intro requests hfits store
  rw [batchWrite]
  cases hfound : store.tables.get? name with
  | none =>
      simp only [Store.table, hfound]
      exact ⟨.of_eq hrefl rfl, fun left hleft => by cases hleft⟩
  | some found =>
      simp only [Store.table, hfound]
      refine ⟨fun held hheld hfields => ?_, fun left hleft request hrequest => ?_⟩
      · obtain rfl := Option.some.inj (hfound.symm.trans (held?_eq_some.mp hheld))
        obtain ⟨rows, hrows, hq⟩ := process_fits hrefl htrans hfits
          ⟨held.keyFields, held.rows⟩ hfields store.deferrals
        refine ⟨rows, ?_, hq⟩
        rw [held?_eq_some, Members.get?_set_self, hrows]
      · obtain rfl := Except.ok.inj hleft
        exact hfits request (mem_of_mem_process hrequest)

end Store

end SchemaQuery.KeyValue
