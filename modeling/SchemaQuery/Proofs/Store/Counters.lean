import SchemaQuery.Proofs.Document.Writes
import SchemaQuery.Proofs.KeyValue.Rereading

/-!
# Counters

Whole numbers are counted up and down at a path of the row with a key. While no sum leaves the
integers of 64 bits, each call answers the sum so far, and the row holds the last of them at the
path; where there is no row a key-value store makes one of the key. So the order of the calls does
not matter in the end, and either store counts alike.
-/

namespace SchemaQuery

/-! ### Sums -/

/-- The sums of a number and the first amounts, one amount after the other. -/
def sums : Int → List Int → List Int
  | _, [] => []
  | start, amount :: rest => (start + amount) :: sums (start + amount) rest

def total (start : Int) (amounts : List Int) : Int := amounts.foldl (· + ·) start

theorem total_perm {amounts others : List Int} (hperm : others.Perm amounts) (start : Int) :
    total start others = total start amounts := by
  refine hperm.foldl_eq' (fun a _ b _ sum => ?_) start
  exact Int.add_right_comm sum a b

/-- The number that a counter stands at; nothing and `null` count as zero. -/
def Json.counter? : Option Json → Option Int
  | none | some .null => some 0
  | some (.number (.int n)) => if fitsInt64 n then some n else none
  | some _ => none

/-- Integers are added without rounding while the sum is one of 64 bits. -/
theorem Number.add?_int {a b : Int} {subtract : Bool} (ha : fitsInt64 a = true)
    (hb : fitsInt64 b = true) (hsum : fitsInt64 (if subtract then a - b else a + b) = true) :
    (int a).add? (int b) subtract = some (int (if subtract then a - b else a + b)) := by
  simp only [add?, addInt?, ha, hb, hsum, Bool.and_self, if_true]

theorem Json.adjust_int {current : Option Json} {value delta : Int} {subtract : Bool}
    (hcurrent : counter? current = some value) (hdelta : fitsInt64 delta = true)
    (hsum : fitsInt64 (if subtract then value - delta else value + delta) = true) :
    adjust current (.int delta) subtract =
      .ok (.int (if subtract then value - delta else value + delta)) := by
  have hadd (hvalue : fitsInt64 value = true) := Number.add?_int hvalue hdelta hsum
  match current with
  | none | some .null =>
      obtain rfl := Option.some.inj hcurrent
      simp only [adjust, Json.int, hadd rfl]
  | some (.number (.int n)) =>
      rw [counter?] at hcurrent
      split at hcurrent
      next hfits =>
        obtain rfl := Option.some.inj hcurrent
        simp only [adjust, Json.int, hadd hfits]
      next => cases hcurrent
  | some (.number (.float _)) | some (.bool _) | some (.string _) | some (.array _)
  | some (.object _) => cases hcurrent

/-! ### Calls that count -/

inductive Count where
  | increment (field : String) (delta : Int)
  | decrement (field : String) (delta : Int)
  | incrementMap (map field : String) (delta : Int)

namespace Count

def path : Count → List String
  | increment field _ | decrement field _ => [field]
  | incrementMap map field _ => [map, field]

def delta : Count → Int
  | increment _ delta | decrement _ delta | incrementMap _ _ delta => delta

/-- What a call adds. -/
def amount : Count → Int
  | increment _ delta | incrementMap _ _ delta => delta
  | decrement _ delta => -delta

def subtracts : Count → Bool
  | increment _ _ | incrementMap _ _ _ => false
  | decrement _ _ => true

/-- The call itself, given what there is to call. -/
def perform {α : Type} (add subtract : String → Json → α) (addIn : String → String → Json → α) :
    Count → α
  | increment field delta => add field (.int delta)
  | decrement field delta => subtract field (.int delta)
  | incrementMap map field delta => addIn map field (.int delta)

/-- A field of a row can be set, and one of a map that is there or is to be made. -/
theorem exists_setPath (call : Count) {row : Record}
    (hmap : ∀ map field value, call.path = [map, field] → row.get? map = some value →
      ∃ members, value = .object members) (value : Json) :
    ∃ after, row.setPath call.path value = .ok after := by
  cases call with
  | increment field _ => exact ⟨_, rfl⟩
  | decrement field _ => exact ⟨_, rfl⟩
  | incrementMap map field _ =>
      obtain ⟨members, hmembers⟩ : ∃ members, row.inner? map = some members := by
        rw [Record.inner?]
        cases hfound : row.get? map with
        | none => exact ⟨[], rfl⟩
        | some found =>
            obtain ⟨members, rfl⟩ := hmap map field found rfl hfound
            exact ⟨members, rfl⟩
      exact ⟨_, Record.setPath_cons_cons_eq_ok.mpr ⟨members, _, hmembers, rfl, rfl⟩⟩

end Count

/-- Calls one after the other, whatever the answers are. -/
def Action.each {S α β : Type} (perform : α → Action S β) :
    List α → S → List (Except StoreError β) × S
  | [], store => ([], store)
  | call :: rest, store =>
      let (answer, store) := perform call store
      let (answers, store) := each perform rest store
      (answer :: answers, store)

/-! ### The row that is counted in -/

namespace Record

/-- The first row with a key, or the key if there is none. -/
def rowAt (key : Record) (rows : List Record) : Record :=
  (rows.find? (·.hasKey key)).getD key

theorem rowAt_put {key row : Record} (hrow : row.hasKey key = true) (rows : List Record) :
    rowAt key (put key row rows) = row := by
  rw [rowAt, find?_put hrow, Option.getD_some]

/-- A row stands in the place of the first with a key, or at the end if there is none; then it was
made of the key. -/
def InPlace (key old row : Record) (rows after : List Record) : Prop :=
  (∃ before behind, rows = before ++ old :: behind ∧ after = before ++ row :: behind ∧
    old.hasKey key = true ∧ ∀ other ∈ before, other.hasKey key = false) ∨
  (old = key ∧ after = rows ++ [row] ∧ ∀ other ∈ rows, other.hasKey key = false)

theorem put_inPlace (key row : Record) (rows : List Record) :
    InPlace key (rowAt key rows) row rows (put key row rows) := by
  cases hfound : rows.find? (·.hasKey key) with
  | none =>
      refine Or.inr ⟨by rw [rowAt, hfound, Option.getD_none], put_of_find?_eq_none hfound, ?_⟩
      exact fun other hother => Bool.eq_false_iff.mpr (List.find?_eq_none.mp hfound other hother)
  | some old =>
      obtain ⟨hold, before, behind, rfl, hbefore⟩ := List.find?_eq_some_iff_append.mp hfound
      have hnone : ∀ other ∈ before, other.hasKey key = false := fun other hother => by
        simpa using hbefore other hother
      refine Or.inl ⟨before, behind, ?_, put_append hnone hold row, ?_, hnone⟩
      · rw [rowAt, hfound, Option.getD_some]
      · rwa [rowAt, hfound, Option.getD_some]

/-- A key that consists of the fields. -/
structure IsAddress (fields : List String) (key : Record) : Prop where
  ne_nil : fields ≠ []
  isKeyOf : IsKeyOf fields key key
  names : ∀ member ∈ key, member.1 ∈ fields

/-- A row that is counted in keeps its key. -/
theorem IsAddress.hasKey_setPath {fields path : List String} {key row : Record}
    {rows : List Record} {value : Json} (hkey : IsAddress fields key)
    (hspares : ∀ field ∈ fields, path.head? ≠ some field)
    (hset : (rowAt key rows).setPath path value = .ok row) : row.hasKey key = true := by
  have hstart : (rowAt key rows).AgreesOn fields key := by
    rw [rowAt]
    cases hfound : rows.find? (·.hasKey key) with
    | none => exact .refl key
    | some old =>
        have hhas := List.find?_some (p := fun row => hasKey row key) hfound
        exact ((hkey.isKeyOf old).mp hhas).2
  have hsame : row.AgreesOn fields (rowAt key rows) := .of_eq fun field hfield =>
    get?_setPath_of_ne hset (hspares field hfield)
  exact (hkey.isKeyOf row).mpr ⟨hkey.ne_nil, hsame.trans hstart⟩

theorem IsAddress.get?_eq_none {fields : List String} {key : Record} (hkey : IsAddress fields key)
    {field : String} (hfield : field ∉ fields) : Members.get? key field = none := by
  cases hvalue : Members.get? key field with
  | none => rfl
  | some value => exact absurd (hkey.names _ (Members.mem_of_get?_eq_some hvalue)) hfield

end Record

theorem Entity.isAddress_keyBy {entity : Entity} {counts : Json → Bool} {row key : Record}
    (hkey : entity.keyBy counts row = .ok key) : key.IsAddress entity.layout.primaryKeys :=
  ⟨primaryKeys_ne_nil hkey, (isKeyOf_keyBy hkey).1,
    fun _ hmember => (Record.mem_keyOf (keyOf_of_keyBy hkey) hmember).1⟩

/-- A counter can be counted with: it is in no key field, a map that it is in is a map or absent,
and it stands at a number. -/
structure CanCount (fields path : List String) (start : Int) (found : Option Record) : Prop where
  spares : ∀ field ∈ fields, path.head? ≠ some field
  map : ∀ row ∈ found, ∀ map field value, path = [map, field] → row.get? map = some value →
    ∃ members, value = .object members
  value : Json.counter? (found.bind fun row => row.getPath? path) = some start

namespace CanCount

variable {fields path : List String} {start : Int} {key : Record} {rows : List Record}

theorem counter?_rowAt (hcan : CanCount fields path start (rows.find? (·.hasKey key)))
    (hkey : Record.IsAddress fields key) :
    Json.counter? ((Record.rowAt key rows).getPath? path) = some start := by
  have hvalue := hcan.value
  rw [Record.rowAt]
  cases hfound : rows.find? (·.hasKey key) with
  | some old => rwa [hfound] at hvalue
  | none =>
      have hnone : key.getPath? path = none := by
        cases path with
        | nil => rfl
        | cons field rest =>
            rw [Record.getPath?, hkey.get?_eq_none fun hmem => hcan.spares field hmem rfl]
            exact Record.foldl_bind_none rest
      rw [hfound] at hvalue
      rwa [Option.getD_none, hnone]

theorem exists_setPath (hcan : CanCount fields path start (rows.find? (·.hasKey key)))
    (hkey : Record.IsAddress fields key) {call : Count} (hpath : call.path = path) (value : Json) :
    ∃ row, (Record.rowAt key rows).setPath path value = .ok row := by
  subst hpath
  refine call.exists_setPath (fun map field value hpath hget => ?_) value
  have hmap : map ∉ fields := fun hmem => hcan.spares map hmem (hpath ▸ rfl)
  rw [Record.rowAt] at hget
  cases hfound : rows.find? (·.hasKey key) with
  | some old =>
      rw [hfound] at hget
      exact hcan.map old hfound map field value hpath hget
  | none =>
      rw [hfound, Option.getD_none] at hget
      cases (hkey.get?_eq_none hmap).symm.trans hget

end CanCount

/-! ### Runs of calls -/

section Runs

variable {S : Type}

/-- Every answer is the sum so far. In the end the row with the key, which may have been made of it,
has the last sum at the path and is as it was elsewhere, and all other rows are as they were. The
same is left whatever order the calls come in. -/
structure CountsExactly (count : Count → Action S (Option Json)) (store : S)
    (withRows : List Record → S) (key : Record) (rows : List Record) (path : List String)
    (start : Int) (calls : List Count) : Prop where
  answers : (Action.each count calls store).1 =
    (sums start (calls.map Count.amount)).map fun sum => .ok (some (.int sum))
  stored : calls ≠ [] → ∃ old row after, (Action.each count calls store).2 = withRows after ∧
    Record.InPlace key old row rows after ∧
    row.getPath? path = some (.int (total start (calls.map Count.amount))) ∧
    ∀ other, Record.Diverge path other → row.getPath? other = old.getPath? other
  reordered : ∀ others : List Count, others.Perm calls →
    (∀ sum ∈ sums start (others.map Count.amount), fitsInt64 sum = true) →
    (Action.each count others store).2 = (Action.each count calls store).2

/-- What one call does, where the counter stands at a number and the sum is in range. -/
structure CountsOnce (count : Count → Action S (Option Json)) (has : S → List Record → Prop)
    (withRows : S → List Record → S) (key : Record) (suits : Count → Prop) : Prop where
  once : ∀ {call store rows row value}, suits call → has store rows →
    Json.counter? ((Record.rowAt key rows).getPath? call.path) = some value →
    fitsInt64 (value + call.amount) = true →
    (Record.rowAt key rows).setPath call.path (.int (value + call.amount)) = .ok row →
    count call store =
      (.ok (some (.int (value + call.amount))), withRows store (Record.put key row rows))
  has_put : ∀ {store rows row}, row.hasKey key = true →
    has (withRows store (Record.put key row rows)) (Record.put key row rows)
  withRows_withRows : ∀ store rows more, withRows (withRows store rows) more = withRows store more

variable {count : Count → Action S (Option Json)} {has : S → List Record → Prop}
  {withRows : S → List Record → S} {key : Record} {suits : Count → Prop} {rows : List Record}
  {path : List String} {store : S}

/-- A step of a run answers the sum, and goes on where it stands. -/
def Answers (count : Count → Action S (Option Json)) (holds : Int → S → Prop) (value : Int)
    (store : S) (call : Count) : Prop :=
  ∃ after, count call store = (.ok (some (.int (value + call.amount))), after) ∧
    holds (value + call.amount) after

theorem each_answers {holds : Int → S → Prop} {calls : List Count} {start : Int}
    (hstep : ∀ call ∈ calls, ∀ value store, holds value store →
      fitsInt64 (value + call.amount) = true → Answers count holds value store call)
    (hsums : ∀ sum ∈ sums start (calls.map Count.amount), fitsInt64 sum = true)
    (hholds : holds start store) :
    (Action.each count calls store).1 =
        (sums start (calls.map Count.amount)).map (fun sum => .ok (some (.int sum))) ∧
      holds (total start (calls.map Count.amount)) (Action.each count calls store).2 := by
  induction calls generalizing start store with
  | nil => exact ⟨rfl, hholds⟩
  | cons call rest ih =>
      obtain ⟨hfirst, hrest⟩ := List.forall_mem_cons.mp hsums
      obtain ⟨hcall, hmore⟩ := List.forall_mem_cons.mp hstep
      obtain ⟨after, hresult, hafter⟩ := hcall start store hholds hfirst
      obtain ⟨hanswers, hlast⟩ := ih hmore hrest hafter
      rw [Action.each, hresult]
      exact ⟨congrArg (_ :: ·) hanswers, hlast⟩

/-- The store in which the counter stands at a number. -/
def StandsAt (withRows : S → List Record → S) (store : S) (key : Record) (rows : List Record)
    (path : List String) (value : Int) (after : S) : Prop :=
  fitsInt64 value = true ∧ ∃ row, (Record.rowAt key rows).setPath path (.int value) = .ok row ∧
    after = withRows store (Record.put key row rows)

theorem Json.counter?_int {value : Int} (hvalue : fitsInt64 value = true) :
    counter? (some (.int value)) = some value := if_pos hvalue

namespace CountsOnce

/-- The first call makes the row of the key, if there is none. -/
theorem first (hcounts : CountsOnce count has withRows key suits) {call : Count} {start : Int}
    (hsuits : suits call) (hpath : call.path = path) (hhas : has store rows)
    (hopen : ∀ value, ∃ row, (Record.rowAt key rows).setPath path value = .ok row)
    (hcounter : Json.counter? ((Record.rowAt key rows).getPath? path) = some start)
    (hsum : fitsInt64 (start + call.amount) = true) :
    Answers count (StandsAt withRows store key rows path) start store call := by
  subst hpath
  obtain ⟨row, hrow⟩ := hopen (.int (start + call.amount))
  exact ⟨_, hcounts.once hsuits hhas hcounter hsum hrow, hsum, row, hrow, rfl⟩

/-- Each further call finds the row as the one before it left it. -/
theorem step (hcounts : CountsOnce count has withRows key suits) {call : Count} {value : Int}
    {before : S} (hsuits : suits call) (hpath : call.path = path)
    (hkeeps : ∀ {value row}, (Record.rowAt key rows).setPath path value = .ok row →
      row.hasKey key = true)
    (hopen : ∀ value, ∃ row, (Record.rowAt key rows).setPath path value = .ok row)
    (hstands : StandsAt withRows store key rows path value before)
    (hsum : fitsInt64 (value + call.amount) = true) :
    Answers count (StandsAt withRows store key rows path) value before call := by
  subst hpath
  obtain ⟨hvalue, mid, hmid, rfl⟩ := hstands
  obtain ⟨row, hrow⟩ := hopen (.int (value + call.amount))
  have hkey := hkeeps hmid
  have hat := Record.rowAt_put hkey rows
  have hcounter : Json.counter? (mid.getPath? call.path) = some value := by
    rw [Record.getPath?_setPath hmid, Json.counter?_int hvalue]
  have hset := (Record.setPath_setPath hmid (.int (value + call.amount))).trans hrow
  have hhas : has (withRows store (Record.put key mid rows)) (Record.put key mid rows) :=
    hcounts.has_put hkey
  have hresult := hcounts.once hsuits hhas (hat.symm ▸ hcounter) hsum (hat.symm ▸ hset)
  rw [hcounts.withRows_withRows, Record.put_put hkey] at hresult
  exact ⟨_, hresult, hsum, row, hrow, rfl⟩

/-- A run leaves the counter at the last sum. -/
theorem run (hcounts : CountsOnce count has withRows key suits) {fields : List String}
    {start : Int} {calls : List Count} (hkey : Record.IsAddress fields key)
    (hcalls : ∀ call ∈ calls, suits call ∧ call.path = path) (hhas : has store rows)
    (hcan : CanCount fields path start (rows.find? (·.hasKey key)))
    (hsums : ∀ sum ∈ sums start (calls.map Count.amount), fitsInt64 sum = true)
    (hne : calls ≠ []) :
    (Action.each count calls store).1 =
        (sums start (calls.map Count.amount)).map (fun sum => .ok (some (.int sum))) ∧
      StandsAt withRows store key rows path (total start (calls.map Count.amount))
        (Action.each count calls store).2 := by
  cases calls with
  | nil => exact absurd rfl hne
  | cons call rest =>
      obtain ⟨⟨hsuits, hpath⟩, hrest⟩ := List.forall_mem_cons.mp hcalls
      obtain ⟨hsum, hmore⟩ := List.forall_mem_cons.mp hsums
      have hopen := hcan.exists_setPath hkey hpath
      obtain ⟨after, hresult, hafter⟩ :=
        hcounts.first hsuits hpath hhas hopen (hcan.counter?_rowAt hkey) hsum
      have hstep : ∀ call ∈ rest, ∀ value before,
          StandsAt withRows store key rows path value before →
          fitsInt64 (value + call.amount) = true →
          Answers count (StandsAt withRows store key rows path) value before call :=
        fun other hother _ _ hstands hfits => hcounts.step (hrest other hother).1
          (hrest other hother).2 (hkey.hasKey_setPath hcan.spares) hopen hstands hfits
      obtain ⟨hanswers, hlast⟩ := each_answers hstep hmore hafter
      rw [Action.each, hresult]
      exact ⟨congrArg (_ :: ·) hanswers, hlast⟩

/-- A run of calls is exact, as each call is. -/
theorem exact (hcounts : CountsOnce count has withRows key suits) {fields : List String}
    {start : Int} {calls : List Count} (hkey : Record.IsAddress fields key)
    (hcalls : ∀ call ∈ calls, suits call ∧ call.path = path) (hhas : has store rows)
    (hcan : CanCount fields path start (rows.find? (·.hasKey key)))
    (hsums : ∀ sum ∈ sums start (calls.map Count.amount), fitsInt64 sum = true) :
    CountsExactly count store (withRows store) key rows path start calls where
  answers := by
    by_cases hne : calls = []
    · subst hne
      rfl
    · exact (hcounts.run hkey hcalls hhas hcan hsums hne).1
  stored hne := by
    obtain ⟨-, -, row, hset, hafter⟩ := hcounts.run hkey hcalls hhas hcan hsums hne
    exact ⟨Record.rowAt key rows, row, _, hafter, Record.put_inPlace key row rows,
      Record.getPath?_setPath hset, fun _ => Record.getPath?_setPath_of_diverge hset⟩
  reordered others hperm hothers := by
    by_cases hne : calls = []
    · subst hne
      rw [hperm.eq_nil]
    · have hne' : others ≠ [] := fun hnil => hne (hperm.symm.trans (hnil ▸ .refl _)).eq_nil
      have hsame := total_perm (hperm.map Count.amount) start
      obtain ⟨-, -, row, hset, hafter⟩ := hcounts.run hkey hcalls hhas hcan hsums hne
      obtain ⟨-, -, row', hset', hafter'⟩ := hcounts.run hkey
        (fun call hcall => hcalls call (hperm.mem_iff.mp hcall)) hhas hcan hothers hne'
      rw [hsame, hset] at hset'
      rw [hafter, hafter', Except.ok.inj hset']

end CountsOnce

end Runs

/-! ### Counting in a table -/

theorem Count.sum_eq (call : Count) (value : Int) :
    (if call.subtracts then value - call.delta else value + call.delta) = value + call.amount := by
  cases call <;> rfl

namespace KeyValue

/-- What an adjustment returns of a row has the value at its path. -/
theorem Update.getPath?_returned (table : String) (key : Record) (path : List String)
    (subtract : Bool) (delta : Json) (row : Record) :
    ((Update.adjust table key path subtract delta).returned row).getPath? path =
      row.getPath? path := by
  refine Record.getPath?_congr fun field hfield => Record.get?_pick row ?_
  exact List.mem_filterMap.mpr ⟨_, List.mem_singleton_self _, hfield⟩

namespace Gateway

variable {gateway : Gateway} {key addressed : Record}

def counter (gateway : Gateway) (key : Record) : Count → Action Store (Option Json) :=
  Count.perform (gateway.increment key) (gateway.decrement key) (gateway.incrementMap key)

theorem counter_eq (gateway : Gateway) (key : Record) (call : Count) :
    gateway.counter key call = gateway.adjust key call.path call.subtracts (.int call.delta) := by
  cases call <;> rfl

theorem countsOnce (hkey : gateway.keyOf key = .ok addressed) (keyFields : List String) :
    CountsOnce (gateway.counter key)
      (fun store rows => store.tables.get? gateway.tableName = some ⟨keyFields, rows⟩)
      (fun store => store.withRows gateway.tableName keyFields) addressed
      fun call => fitsInt64 call.delta = true where
  once {call store rows row value} hdelta htable hcounter hsum hset := by
    rw [← call.sum_eq] at hsum hset ⊢
    have hsum := Json.adjust_int hcounter hdelta hsum
    have happly : Assignment.applyAll ((rows.find? (·.hasKey addressed)).getD addressed)
        [.adjust call.path call.subtracts (.int call.delta)] = .ok row := by
      rw [Record.rowAt] at hset hsum
      simp only [Assignment.applyAll, Assignment.apply, hsum, hset]
    have hupdate : Store.update
        (Update.adjust gateway.tableName addressed call.path call.subtracts (.int call.delta)) store =
          (.ok ((Update.adjust gateway.tableName addressed call.path call.subtracts
            (.int call.delta)).returned row),
            store.withRows gateway.tableName keyFields (Record.put addressed row rows)) := by
      simp only [Store.update, Store.onTable, Store.table, Update.adjust, htable, Update.applyTo,
        Table.find?, happly]
      rfl
    rw [counter_eq, adjust, hkey, Action.ofExcept_ok_bind, Action.bind_apply, hupdate]
    simp only [Action.pure_apply, Update.getPath?_returned, Record.getPath?_setPath hset]
  has_put _ := Store.get?_withRows ..
  withRows_withRows store rows more := store.withRows_withRows _ _ rows more

end Gateway

end KeyValue

/-! ### Counting in a collection -/

namespace Document

/-- A store with other documents in one of its collections. -/
def Store.withDocuments (store : Store) (name : String) (unique : List String)
    (documents : List Record) : Store :=
  { store with collections := store.collections.set name ⟨unique, documents⟩ }

/-- A document that is there is changed in its place. -/
theorem Store.update_of_change {store : Store} {name : String} {unique : List String}
    {documents : List Record} {update : Update} {document : Record}
    (hcollection : store.collections.get? name = some ⟨unique, documents⟩)
    (hfound : (documents.find? (·.hasKey update.filter)).isSome = true)
    (hchange : update.change ((documents.find? (·.hasKey update.filter)).getD update.filter) =
      .ok document) :
    Store.update name update store = (.ok (some document),
      store.withDocuments name unique (Record.put update.filter document documents)) := by
  obtain ⟨old, hold⟩ := Option.isSome_iff_exists.mp hfound
  rw [hold] at hchange
  have happly : Collection.apply ⟨unique, documents⟩ update = (.ok (some document),
      ⟨unique, Record.put update.filter document documents⟩) := by
    simp only [Collection.apply, Collection.find?, hold, hchange]
    rfl
  simp only [Store.update, onCollection, collection, hcollection, happly]
  rfl

namespace Gateway

variable {gateway : Gateway} {key addressed : Record}

def counter (gateway : Gateway) (key : Record) : Count → Action Store (Option Json) :=
  Count.perform (gateway.increment key) (gateway.decrement key) (gateway.incrementMap key)

/-- Of what is taken away the negative is added, which is an integer of 64 bits but for one. -/
theorem counter_eq (gateway : Gateway) (key : Record) {call : Count}
    (hdelta : fitsInt64 call.delta = true) :
    gateway.counter key call = gateway.adjust key call.path (.int call.amount) := by
  cases call with
  | increment field delta => rfl
  | incrementMap map field delta => rfl
  | decrement field delta =>
      have hdelta : fitsInt64 delta = true := hdelta
      simp only [counter, Count.perform, decrement, Json.int, negated?, hdelta, if_true]
      rfl

/-- A call that the collection counts as a table does. -/
structure Suits (call : Count) : Prop where
  delta : fitsInt64 call.delta = true
  amount : fitsInt64 call.amount = true
  path : ∀ name ∈ call.path, '.' ∉ name.toList

theorem countsOnce (hkey : gateway.keyOf key = .ok addressed) (unique : List String) :
    CountsOnce (gateway.counter key)
      (fun store documents => store.collections.get? gateway.collection = some ⟨unique, documents⟩ ∧
        (documents.find? (·.hasKey addressed)).isSome = true)
      (fun store => store.withDocuments gateway.collection unique) addressed Suits where
  once {call store documents document value} hsuits hhas hcounter hsum hset := by
    obtain ⟨hcollection, hfound⟩ := hhas
    have hne : call.path ≠ [] := by cases call <;> exact List.cons_ne_nil _ _
    have hadd : Json.adjust ((Record.rowAt addressed documents).getPath? call.path)
        (.int call.amount) false = .ok (.int (value + call.amount)) :=
      Json.adjust_int hcounter hsuits.amount hsum
    have hchange : (Update.increment addressed call.path (.int call.amount)).change
        ((documents.find? (·.hasKey addressed)).getD addressed) = .ok document := by
      rw [Record.rowAt] at hset hadd
      simp only [Update.change, Update.setAll, Update.increment, Update.addAll,
        pathOf_intercalate hne hsuits.path, hadd, hset]
    have hupdate : Store.update gateway.collection
        (Update.increment addressed call.path (.int call.amount)) store =
          (.ok (some document), store.withDocuments gateway.collection unique
            (Record.put addressed document documents)) :=
      Store.update_of_change hcollection hfound hchange
    rw [counter_eq gateway key hsuits.delta, adjust, hkey, Action.ofExcept_ok_bind,
      Action.bind_apply, hupdate]
    simp only [Action.pure_apply, Option.bind_some, Record.getPath?_setPath hset]
  has_put {store documents document} hkey :=
    ⟨Members.get?_set_self .., by rw [Record.find?_put hkey]; rfl⟩
  withRows_withRows store documents more := by
    simp only [Store.withDocuments, Members.set_set]

end Gateway

end Document

/-! ### Exact counters -/

/-- The negative of an integer of 64 bits is one, but for the least. -/
theorem Count.fits_amount {call : Count} (hdelta : fitsInt64 call.delta = true)
    (hleast : ∀ field, call ≠ .decrement field (-9223372036854775808)) :
    fitsInt64 call.amount = true := by
  cases call with
  | increment field delta => exact hdelta
  | incrementMap map field delta => exact hdelta
  | decrement field delta =>
      have hne : delta ≠ -9223372036854775808 := fun heq => hleast field (heq ▸ rfl)
      obtain ⟨hlow, hhigh⟩ := of_decide_eq_true hdelta
      change -9223372036854775808 ≤ delta at hlow
      change delta ≤ 9223372036854775807 at hhigh
      have hfits : -9223372036854775808 ≤ -delta ∧ -delta ≤ 9223372036854775807 := by omega
      exact decide_eq_true hfits

/-- Counters are exact. In a table the row need not exist. In a collection it must, and no name may
have a point, nor may the least integer of 64 bits be taken away; then it counts as a table does. -/
theorem counters_exact {path : List String} {start : Int} {calls : List Count}
    (hcalls : ∀ call ∈ calls, call.path = path ∧ fitsInt64 call.delta = true)
    (hsums : ∀ sum ∈ sums start (calls.map Count.amount), fitsInt64 sum = true) :
    (∀ (gateway : KeyValue.Gateway) (store : KeyValue.Store) (keyFields : List String)
        (rows : List Record) (key addressed : Record),
      store.tables.get? gateway.tableName = some ⟨keyFields, rows⟩ →
      gateway.keyOf key = .ok addressed →
      CanCount gateway.entity.layout.primaryKeys path start (rows.find? (·.hasKey addressed)) →
      CountsExactly (gateway.counter key) store (store.withRows gateway.tableName keyFields)
        addressed rows path start calls) ∧
    ∀ (gateway : Document.Gateway) (store : Document.Store) (unique : List String)
        (documents : List Record) (key addressed : Record),
      (∀ name ∈ path, '.' ∉ name.toList) →
      (∀ call ∈ calls, ∀ field, call ≠ .decrement field (-9223372036854775808)) →
      store.collections.get? gateway.collection = some ⟨unique, documents⟩ →
      gateway.keyOf key = .ok addressed →
      (documents.find? (·.hasKey addressed)).isSome = true →
      CanCount gateway.entity.layout.primaryKeys path start
        (documents.find? (·.hasKey addressed)) →
      CountsExactly (gateway.counter key) store
        (store.withDocuments gateway.collection unique) addressed documents path start calls := by
  constructor
  · intro gateway store keyFields rows key addressed htable hkey hcan
    have hkeyBy := Action.mapError_eq_ok ((gateway.keyOf_eq key).symm.trans hkey)
    refine (KeyValue.Gateway.countsOnce hkey keyFields).exact (Entity.isAddress_keyBy hkeyBy)
      (fun call hcall => ?_) htable hcan hsums
    exact (hcalls call hcall).symm
  · intro gateway store unique documents key addressed hnames hleast hcollection hkey hfound hcan
    have hkeyBy := Action.mapError_eq_ok ((gateway.keyOf_eq key).symm.trans hkey)
    refine (Document.Gateway.countsOnce hkey unique).exact (Entity.isAddress_keyBy hkeyBy)
      (fun call hcall => ?_) ⟨hcollection, hfound⟩ hcan hsums
    obtain ⟨hpath, hdelta⟩ := hcalls call hcall
    exact ⟨⟨hdelta, Count.fits_amount hdelta (hleast call hcall), hpath ▸ hnames⟩, hpath⟩

/-- Meters by their number, with what they count. -/
def meters : Entity :=
  ⟨⟨"meters", [("id", { type := .string, isHashKey := true }), ("hits", { type := .number })],
    by decide⟩, by decide⟩

def meterRows : List Record :=
  [[("hits", .int 9223372036854775800), ("id", .string "a"), ("unit", .string "kWh")],
    [("id", .string "b")]]

def meterTables : KeyValue.Gateway := ⟨meters, {}, Config.fault?_default⟩

def meterStore : KeyValue.Store := { tables := [("meters", ⟨["id"], meterRows⟩)] }

def meterCollections : Document.Gateway := ⟨meters, {}, Config.fault?_default⟩

def meterDocuments : Document.Store := { collections := [("meters", ⟨["id"], meterRows⟩)] }

/-- Up to the greatest integer of 64 bits, and down below zero. -/
def meterCalls : List Count :=
  [.increment "hits" 7, .decrement "hits" 9223372036854775807, .decrement "hits" 8]

theorem meters_exact :
    sums 9223372036854775800 (meterCalls.map Count.amount) = [9223372036854775807, 0, -8] ∧
    CountsExactly (meterTables.counter [("id", .string "a")]) meterStore
      (meterStore.withRows "meters" ["id"]) [("id", .string "a")] meterRows ["hits"]
      9223372036854775800 meterCalls ∧
    CountsExactly (meterCollections.counter [("id", .string "a")]) meterDocuments
      (meterDocuments.withDocuments "meters" ["id"]) [("id", .string "a")] meterRows ["hits"]
      9223372036854775800 meterCalls ∧
    CountsExactly (meterTables.counter [("id", .string "c")]) meterStore
      (meterStore.withRows "meters" ["id"]) [("id", .string "c")] meterRows ["day", "hits"]
      0 [.incrementMap "day" "hits" 5] := by
  have hcan : CanCount ["id"] ["hits"] 9223372036854775800
      (meterRows.find? (·.hasKey [("id", .string "a")])) :=
    ⟨by decide, fun _ _ _ _ _ hpath => (by cases hpath), rfl⟩
  have hnew : CanCount ["id"] ["day", "hits"] 0
      (meterRows.find? (·.hasKey [("id", .string "c")])) :=
    ⟨by decide, fun _ hrow => (by cases hrow), rfl⟩
  have hcalls : ∀ call ∈ meterCalls, call.path = ["hits"] ∧ fitsInt64 call.delta = true := by decide
  have hsums : ∀ sum ∈ sums 9223372036854775800 (meterCalls.map Count.amount),
      fitsInt64 sum = true := by decide
  have hleast : ∀ call ∈ meterCalls, ∀ field,
      call ≠ .decrement field (-9223372036854775808) := by simp [meterCalls]
  obtain ⟨htables, hcollections⟩ := counters_exact hcalls hsums
  have hday : ∀ call ∈ [Count.incrementMap "day" "hits" 5],
      call.path = ["day", "hits"] ∧ fitsInt64 call.delta = true := by decide
  have hfive : ∀ sum ∈ sums 0 ([Count.incrementMap "day" "hits" 5].map Count.amount),
      fitsInt64 sum = true := by decide
  obtain ⟨hmade, -⟩ := counters_exact hday hfive
  exact ⟨rfl, htables meterTables meterStore ["id"] meterRows _ _ rfl rfl hcan,
    hcollections meterCollections meterDocuments ["id"] meterRows _ _ (by decide) hleast rfl rfl
      rfl hcan,
    hmade meterTables meterStore ["id"] meterRows _ _ rfl rfl hnew⟩

end SchemaQuery
