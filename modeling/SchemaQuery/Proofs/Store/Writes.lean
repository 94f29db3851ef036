import SchemaQuery.Hooks
import SchemaQuery.Proofs.Json.Keys

/-!
# The calls that write

An entity is written by eight calls, on either kind of store. What is settled before the store is
reached is told here for both: which rows the hook leaves of the arguments, which of their values
count as values of a key, what is wrong with a row that has none, and what of a row is assigned.
-/

namespace SchemaQuery

namespace Action

variable {S T α β : Type}

@[simp] theorem first_apply (action : Action S α) (state : S × T) :
    (action.first : Action (S × T) α) state =
      ((action state.1).1, (action state.1).2, state.2) := rfl

@[simp] theorem second_apply (action : Action T α) (state : S × T) :
    (action.second : Action (S × T) α) state =
      ((action state.2).1, state.1, (action state.2).2) := rfl

theorem attempt_apply {action : Action S α} {state : S}
    (hgoes : (action state).1 ≠ .error .aborted) :
    action.attempt state = (.ok (action state).1, (action state).2) := by
  unfold attempt
  split
  next habort =>
    rw [habort] at hgoes
    exact absurd rfl hgoes
  next hresult => rw [hresult]

theorem attempt_of_aborted {action : Action S α} {state : S}
    (habort : (action state).1 = .error .aborted) :
    action.attempt state = (.error .aborted, (action state).2) := by
  rcases hresult : action state with ⟨result, after⟩
  rw [hresult] at habort
  obtain rfl : result = .error .aborted := habort
  rw [attempt, hresult]

/-- Whatever comes of the action, the call goes on. -/
def NeverAborts (action : Action S α) : Prop := ∀ state, (action state).1 ≠ .error .aborted

theorem NeverAborts.first {action : Action S α} (hnever : action.NeverAborts) :
    (action.first : Action (S × T) α).NeverAborts := fun state => hnever state.1

theorem attempt_first_of_ok {action : Action S α} {state after : S} {value : α}
    (hresult : action state = (.ok value, after)) (other : T) :
    attempt (action.first : Action (S × T) α) (state, other) =
      (.ok (.ok value), after, other) := by
  rw [attempt, first_apply, hresult]

/-- Where every failure is returned, one need not attempt. -/
theorem attempt_bind_of_fail {action : Action S α} {next : Except StoreError α → Action S β}
    (hfail : ∀ error, next (.error error) = fail error) :
    (attempt action >>= next) = (action >>= fun value => next (.ok value)) := by
  funext state
  rw [bind_apply, bind_apply]
  by_cases habort : (action state).1 = .error .aborted
  · rw [attempt_of_aborted habort]
    rcases hresult : action state with ⟨result, after⟩
    rw [hresult] at habort
    obtain rfl : result = .error .aborted := habort
    rfl
  · rw [attempt_apply habort]
    rcases action state with ⟨result, after⟩
    cases result with
    | error error => exact congrFun (hfail error) after
    | ok value => rfl

theorem discard_apply (action : Action S α) (state : S) :
    Functor.discard action state =
      ((action state).1.map fun _ => PUnit.unit, (action state).2) := by
  change (action >>= fun _ => pure PUnit.unit) state = _
  rw [bind_apply]
  cases action state with
  | mk result store => cases result <;> rfl

theorem ofExcept_mapError_bind {ε : Type} (value : α) (f : ε → StoreError)
    (next : α → Action S β) : (ofExcept ((Except.ok value).mapError f) >>= next) = next value := rfl

theorem mapError_eq_ok {ε ε' : Type} {f : ε → ε'} {result : Except ε α} {value : α}
    (hresult : result.mapError f = .ok value) : result = .ok value := by
  cases result with
  | error error => cases hresult
  | ok value => exact congrArg Except.ok (Except.ok.inj hresult)

theorem first_ofExcept_bind (result : Except StoreError α) (next : α → Action S β) :
    (first (ofExcept result >>= next) : Action (S × T) β) =
      ofExcept result >>= fun value => first (next value) := by
  cases result <;> rfl

/-- An action on two stores that is none on the first. -/
def KeepsFirst (action : Action (S × T) α) : Prop := ∀ state, (action state).2.1 = state.1

theorem KeepsFirst.pure (value : α) : KeepsFirst (pure value : Action (S × T) α) := fun _ => rfl

theorem KeepsFirst.second (action : Action T α) : KeepsFirst (action.second : Action (S × T) α) :=
  fun _ => rfl

theorem KeepsFirst.bind {action : Action (S × T) α} {next : α → Action (S × T) β}
    (haction : action.KeepsFirst) (hnext : ∀ value, (next value).KeepsFirst) :
    (action >>= next).KeepsFirst := by
  intro state
  have hfirst := haction state
  rw [bind_apply]
  cases hresult : action state with
  | mk result after =>
      rw [hresult] at hfirst
      cases result with
      | error error => exact hfirst
      | ok value => exact (hnext value after).trans hfirst

/-- Whatever is done about the outcome of an action on the first store, that action is all that is
done to it. -/
theorem store_attempt {action : Action S α} {next : Except StoreError α → Action (S × T) β}
    (herror : ∀ error, (next (.error error)).KeepsFirst)
    (hok : ∀ value, (next (.ok value)).KeepsFirst) (state : S × T) :
    ((Action.attempt (.first action) >>= next) state).2.1 = (action state.1).2 := by
  rw [bind_apply]
  by_cases habort : (action.first state).1 = .error .aborted
  · rw [attempt_of_aborted habort]
    rfl
  · rw [attempt_apply habort, first_apply]
    cases (action state.1).1 with
    | error error => exact herror error _
    | ok value => exact hok value _

/-- A call fails before it comes to the first store, and if there is a fault, with that; or there is
none and it changes this store. -/
def Settles (action : Action (S × T) α) (state : S × T) (fault? : Option CompileError)
    (changes : S → Prop) : Prop :=
  (∃ error, (action state).1 = .error error ∧ (action state).2.1 = state.1 ∧
    ∀ fault, fault? = some fault → error = .compile fault) ∨
  (fault? = none ∧ changes (action state).2.1)

namespace Settles

variable {action : Action (S × T) α} {state : S × T} {fault? : Option CompileError}
  {changes : S → Prop}

theorem discard (hsettles : action.Settles state fault? changes) :
    Action.Settles (Functor.discard action) state fault? changes := by
  rw [Settles, discard_apply]
  rcases hsettles with ⟨error, herror, hstore, hfault⟩ | ⟨hnone, hchanges⟩
  · exact Or.inl ⟨error, by rw [herror, Except.map], hstore, hfault⟩
  · exact Or.inr ⟨hnone, hchanges⟩

theorem mono {changes' : S → Prop} (hsettles : action.Settles state fault? changes)
    (hchanges : ∀ after, fault? = none → changes after → changes' after) :
    action.Settles state fault? changes' :=
  hsettles.imp_right fun ⟨hnone, hafter⟩ => ⟨hnone, hchanges _ hnone hafter⟩

theorem error_of_fault (hsettles : action.Settles state fault? changes) {fault : CompileError}
    (hfault : fault? = some fault) :
    (action state).1 = .error (.compile fault) ∧ (action state).2.1 = state.1 := by
  rcases hsettles with ⟨error, herror, hstore, hsame⟩ | ⟨hnone, -⟩
  · exact ⟨herror.trans (congrArg _ (hsame fault hfault)), hstore⟩
  · cases hnone.symm.trans hfault

end Settles

end Action

/-! ### Keys of arguments -/

namespace Entity

variable {entity : Entity} {counts : Json → Bool} {row key : Record}

/-- The key of a row, of those of its values that count. -/
def keyBy (entity : Entity) (counts : Json → Bool) (row : Record) : Except CompileError Record :=
  match entity.keyFields with
  | .ok fields => Record.keyOf (row.filter fun (_, value) => counts value) fields
  | .error error => .error error

/-- What is wrong with a row as an argument: there is no hash key, or a key field, of which the hash
key is the first, has no value that counts. -/
def keyFault? (entity : Entity) (counts : Json → Bool) (row : Record) : Option CompileError :=
  match entity.layout.hashKey with
  | none => some (.missingPrimaryKey entity.name)
  | some _ =>
      (entity.layout.primaryKeys.find? fun field => !(row.get? field).any counts).map
        .missingKeyValue

/-- The error with which the key of a row is refused. -/
def keyError? (entity : Entity) (counts : Json → Bool) (row : Record) : Option CompileError :=
  match entity.keyBy counts row with
  | .ok _ => none
  | .error error => some error

/-- The keys of those rows that have one. -/
def keysBy (entity : Entity) (counts : Json → Bool) (rows : List Record) : List Record :=
  rows.filterMap fun row => (entity.keyBy counts row).toOption

theorem mem_keysBy {rows : List Record} :
    key ∈ entity.keysBy counts rows ↔ ∃ row ∈ rows, entity.keyBy counts row = .ok key := by
  rw [keysBy, List.mem_filterMap]
  refine exists_congr fun row => and_congr_right' ?_
  cases entity.keyBy counts row <;> simp [Except.toOption]

theorem keyBy_eq_ok : entity.keyBy counts row = .ok key ↔
    entity.layout.hashKey.isSome = true ∧
      Record.keyOf (row.filter fun (_, value) => counts value) entity.layout.primaryKeys =
        .ok key := by
  rw [keyBy, keyFields]
  cases entity.layout.hashKey <;> simp

theorem keyOf_of_keyBy (hkey : entity.keyBy counts row = .ok key) :
    Record.keyOf (row.filter fun (_, value) => counts value) entity.layout.primaryKeys =
      .ok key := (keyBy_eq_ok.mp hkey).2

theorem keyOf_of_keyBy_true (hkey : entity.keyBy (fun _ => true) row = .ok key) :
    row.keyOf entity.layout.primaryKeys = .ok key := by
  have hkeyOf := keyOf_of_keyBy hkey
  rwa [List.filter_eq_self.mpr fun _ _ => rfl] at hkeyOf

theorem isKeyOf_keyBy (hkey : entity.keyBy counts row = .ok key) :
    Record.IsKeyOf entity.layout.primaryKeys key key ∧
      Record.HasAll entity.layout.primaryKeys key := by
  have hkeyOf := keyOf_of_keyBy hkey
  obtain ⟨hall, hsame⟩ := Record.get?_keyOf hkeyOf
  refine ⟨(Record.isKeyOf_keyOf hkeyOf).of_agreesOn (.symm (.of_eq hsame)), fun field hfield => ?_⟩
  rw [hsame field hfield]
  exact hall field hfield

/-- If every value counts, the row has all key fields itself. -/
theorem hasAll_of_keyBy (hkey : entity.keyBy (fun _ => true) row = .ok key) :
    row.HasAll entity.layout.primaryKeys ∧ row.AgreesOn entity.layout.primaryKeys key := by
  obtain ⟨hall, hsame⟩ := Record.get?_keyOf (keyOf_of_keyBy_true hkey)
  exact ⟨hall, .symm (.of_eq hsame)⟩

/-- A row of which a key is taken has all key fields. -/
theorem hasAll_of_counted (hkey : entity.keyBy counts row = .ok key) :
    row.HasAll entity.layout.primaryKeys := by
  obtain ⟨hall, -⟩ := Record.get?_keyOf (keyOf_of_keyBy hkey)
  exact fun field hfield => Record.isSome_get?_of_filter (hall field hfield)

theorem primaryKeys_ne_nil (hkey : entity.keyBy counts row = .ok key) :
    entity.layout.primaryKeys ≠ [] := by
  obtain ⟨hashKey, hhash⟩ := Option.isSome_iff_exists.mp (keyBy_eq_ok.mp hkey).1
  simp [Layout.primaryKeys, hhash]

/-- If each name comes once, the values that do not count make no difference to a key. -/
theorem keyBy_true (hkey : entity.keyBy counts row = .ok key)
    (hnodup : (row.map Prod.fst).Nodup) : entity.keyBy (fun _ => true) row = .ok key := by
  obtain ⟨hhash, hkeyOf⟩ := keyBy_eq_ok.mp hkey
  obtain ⟨hall, -⟩ := Record.get?_keyOf hkeyOf
  refine keyBy_eq_ok.mpr ⟨hhash, hkeyOf ▸ ?_⟩
  rw [List.filter_eq_self.mpr fun _ _ => rfl]
  exact Record.keyOf_congr fun field hfield =>
    (Record.get?_filter_of_isSome hnodup (hall field hfield)).symm

/-- The key has the row's own values, if each name comes once. -/
theorem agreesOn_keyBy (hkey : entity.keyBy counts row = .ok key)
    (hnodup : (row.map Prod.fst).Nodup) : key.AgreesOn entity.layout.primaryKeys row :=
  (hasAll_of_keyBy (keyBy_true hkey hnodup)).2.symm

/-- A key names the primary key fields and no others. -/
theorem contains_keyBy (hkey : entity.keyBy counts row = .ok key) (field : String) :
    Members.contains key field = entity.layout.primaryKeys.contains field := by
  have hkeyOf := keyOf_of_keyBy hkey
  obtain ⟨hall, hsame⟩ := Record.get?_keyOf hkeyOf
  rw [Members.contains, List.contains_eq_mem]
  by_cases hfield : field ∈ entity.layout.primaryKeys
  · rw [hsame field hfield, hall field hfield, decide_eq_true hfield]
  · rw [decide_eq_false hfield]
    cases hvalue : Members.get? key field with
    | none => rfl
    | some value =>
        exact absurd (Record.mem_keyOf hkeyOf (Members.mem_of_get?_eq_some hvalue)).1 hfield

theorem keyError?_eq_keyFault? (entity : Entity) (counts : Json → Bool)
    (hnodup : (row.map Prod.fst).Nodup) :
    entity.keyError? counts row = entity.keyFault? counts row := by
  rw [keyError?, keyBy, keyFields, keyFault?]
  cases entity.layout.hashKey with
  | none => rfl
  | some hashKey =>
      have hmissing (field : String) :
          (Members.get? (row.filter fun (_, value) => counts value) field).isNone =
            !(row.get? field).any counts := by
        rw [Record.get?_filter hnodup]
        cases row.get? field with
        | none => rfl
        | some value => cases hcounts : counts value <;> simp [hcounts]
      rcases Record.keyOf_cases (row.filter fun (_, value) => counts value)
        entity.layout.primaryKeys with ⟨key, hkey, hnone⟩ | ⟨field, herror, hsome⟩
      · simp only [hmissing] at hnone
        simp only [hkey, hnone, Option.map_none]
      · simp only [hmissing] at hsome
        simp only [herror, hsome, Option.map_some]

theorem findSome?_keyError? (entity : Entity) (counts : Json → Bool) {rows : List Record}
    (hnodup : ∀ row ∈ rows, (row.map Prod.fst).Nodup) :
    rows.findSome? (entity.keyError? counts) = rows.findSome? (entity.keyFault? counts) := by
  induction rows with
  | nil => rfl
  | cons row rest ih =>
      obtain ⟨hrow, hrest⟩ := List.forall_mem_cons.mp hnodup
      rw [List.findSome?_cons, List.findSome?_cons, keyError?_eq_keyFault? entity counts hrow,
        ih hrest]

theorem keyError?_eq_none : entity.keyError? counts row = none ↔
    ∃ key, entity.keyBy counts row = .ok key := by
  rw [keyError?]
  cases entity.keyBy counts row <;> simp

theorem keyError?_eq_some {error : CompileError} : entity.keyError? counts row = some error ↔
    entity.keyBy counts row = .error error := by
  rw [keyError?]
  cases entity.keyBy counts row <;> simp

/-- A call that takes the key of a row before it goes on. -/
theorem settles_of_key {S T α : Type} {next : Record → Action (S × T) α} {state : S × T}
    {changes : S → Prop}
    (hnext : ∀ key, entity.keyBy counts row = .ok key → changes (next key state).2.1) :
    Action.Settles (.ofExcept ((entity.keyBy counts row).mapError .compile) >>= next) state
      (entity.keyError? counts row) changes := by
  rw [keyError?]
  cases hkey : entity.keyBy counts row with
  | error error => exact Or.inl ⟨_, rfl, rfl, fun fault h => congrArg _ (Option.some.inj h)⟩
  | ok key => exact Or.inr ⟨rfl, hnext key hkey⟩

/-- The keys of rows that are taken one by one, up to the first row that has none. -/
theorem keysOf_eq (keysOf : List Record → Except StoreError (List Record))
    (hnil : keysOf [] = .ok [])
    (hcons : ∀ row rest, keysOf (row :: rest) =
      ((entity.keyBy counts row).mapError StoreError.compile).bind fun key =>
        (keysOf rest).map (key :: ·)) (rows : List Record) :
    keysOf rows = match rows.findSome? (entity.keyError? counts) with
      | some error => .error (.compile error)
      | none => .ok (entity.keysBy counts rows) := by
  induction rows with
  | nil => exact hnil
  | cons row rest ih =>
      rw [hcons, ih, List.findSome?_cons, keyError?, keysBy, keysBy, List.filterMap_cons]
      cases entity.keyBy counts row with
      | error error => rfl
      | ok key => cases rest.findSome? (entity.keyError? counts) <;> rfl

end Entity

/-! ### What is assigned -/

/-- What an update assigns: a field that is no key, of a value that is neither `null` nor `{}`, nor
the empty text where the field is locally indexed. -/
def Layout.Assigns (layout : Layout) (member : String × Json) : Prop :=
  member.1 ∉ layout.primaryKeys ∧ member.2 ≠ .null ∧ member.2 ≠ .object [] ∧
    ¬ (member.2 = .string "" ∧ layout.isLocallyIndexed member.1 = true)

theorem Json.isBlank_eq_false_iff {value : Json} :
    value.isBlank = false ↔ value ≠ .null ∧ value ≠ .object [] := by
  cases value with
  | null => simp [isBlank]
  | object members => cases members <;> simp [isBlank]
  | bool | number | string | array => simp [isBlank]

theorem Layout.blanksIndex_eq_true_iff (layout : Layout) (field : String) (value : Json) :
    layout.blanksIndex field value = true ↔
      value = .string "" ∧ layout.isLocallyIndexed field = true := by
  cases value <;> simp [blanksIndex]

theorem Layout.mem_assigned (layout : Layout) (row : Record) (member : String × Json) :
    member ∈ layout.assigned row.withoutBlanks ↔ member ∈ row ∧ layout.Assigns member := by
  have hblanks := layout.blanksIndex_eq_true_iff member.1 member.2
  rw [assigned, Record.withoutBlanks, List.mem_filter, List.mem_filter, and_assoc, Assigns,
    ← hblanks]
  simp only [Bool.and_eq_true, Bool.not_eq_true', Json.isBlank_eq_false_iff, Bool.not_eq_true,
    List.contains_eq_mem, decide_eq_false_iff_not]
  apply and_congr_right'
  constructor
  · rintro ⟨⟨hnull, hempty⟩, hkey, htext⟩
    exact ⟨hkey, hnull, hempty, htext⟩
  · rintro ⟨hkey, hnull, hempty, htext⟩
    exact ⟨⟨hnull, hempty⟩, hkey, htext⟩

/-! ### The calls -/

inductive Write where
  | insert (args : Record)
  | update (args : Record)
  | remove (args : Record)
  | batchPut (items : List Record)
  | batchRemove (keys : List Record)
  | increment (key : Record) (field : String) (delta : Json)
  | decrement (key : Record) (field : String) (delta : Json)
  | incrementMap (key : Record) (map field : String) (delta : Json)

/-- The rows that the hook before a write leaves of those given, up to the first that it refuses. -/
def Hooks.leaves {σ : Type} (hooks : Hooks σ) (isUpdate : Bool) : List Record → σ → List Record
  | [], _ => []
  | row :: rest, state =>
      match hooks.beforeWrite row isUpdate state with
      | (.ok row, state) => row :: hooks.leaves isUpdate rest state
      | (.error _, _) => []

namespace Write

variable {σ : Type}

/-- The argument rows, after the hook where one runs. -/
def rows (hooks : Hooks σ) (state : σ) : Write → List Record
  | insert args => hooks.leaves false [args] state
  | update args => hooks.leaves true [args] state
  | remove args => [args]
  | batchPut items => hooks.leaves false items state
  | batchRemove keys => keys
  | increment key .. => [key]
  | decrement key .. => [key]
  | incrementMap key .. => [key]

/-- Where a counter stands; the other calls have none. -/
def path : Write → List String
  | increment _ field _ => [field]
  | decrement _ field _ => [field]
  | incrementMap _ map field _ => [map, field]
  | _ => []

def isCounter (write : Write) : Bool := !write.path.isEmpty

def isRemoval : Write → Bool
  | remove _ => true
  | batchRemove _ => true
  | _ => false

/-- A counter does not begin at one of the fields. -/
def Spares (fields : List String) (write : Write) : Prop :=
  ∀ field ∈ fields, write.path.head? ≠ some field

instance (fields : List String) (write : Write) : Decidable (write.Spares fields) :=
  inferInstanceAs (Decidable (∀ field ∈ fields, write.path.head? ≠ some field))

/-- Those of the rows whose keys the call may add. -/
def added (write : Write) (rows : List Record) : List Record :=
  if write.isRemoval then [] else rows

/-- Those of the rows whose keys the call may take away. -/
def removed (write : Write) (rows : List Record) : List Record :=
  if write.isRemoval then rows else []

end Write

end SchemaQuery
