import SchemaQuery.Proofs.Document.Writes
import SchemaQuery.Proofs.KeyValue.Writes

/-!
# Which keys a call changes

A key identifies a row and is not changed in its place: after a call the keys are those there were,
with some of those that the call adds or without some of those that it removes, and a counter leaves
the keys of all rows as they are. Both stores let a counter stand in a key field, and then it does
change the key of a row, be it to the key of another.
-/

namespace SchemaQuery

open Record (AgreesOn HasKeyAmong KeyedBy KeepsApart KeepsKeyed KeysMove SameKeys)

variable {σ : Type}

/-- What a call may do to the keys of rows: rows stay apart, keys come and go with the rows of the
arguments, and a counter changes no key, though it may make the row that it counts in. -/
structure Write.MovesKeys (call : Write) (fields : List String) (rows old new : List Record) :
    Prop where
  apart : fields ≠ [] → new.Pairwise fun a b => ¬ a.AgreesOn fields b
  moved : KeysMove fields (call.added rows) (call.removed rows) old new
  counted : call.isCounter = true → ∃ key, SameKeys fields key old new

section Calls

variable {call : Write} {fields : List String} {rows old new : List Record}

theorem Write.MovesKeys.refl (hold : KeyedBy fields old) : call.MovesKeys fields rows old old :=
  ⟨hold.distinct, .refl, fun _ => ⟨[], .refl⟩⟩

theorem Entity.hasKeyAmong_keysBy (entity : Entity) (counts : Json → Bool)
    (hnodup : ∀ row ∈ rows, (row.map Prod.fst).Nodup) :
    ∀ key ∈ entity.keysBy counts rows, key.HasKeyAmong entity.layout.primaryKeys rows := by
  intro key hkey
  obtain ⟨row, hrow, hkeyBy⟩ := Entity.mem_keysBy.mp hkey
  exact ⟨row, hrow, Entity.agreesOn_keyBy hkeyBy (hnodup row hrow)⟩

theorem carries_movesKeys {S : Type} {held? : S → Option Holding} {store after : S}
    {added removed : List Record}
    (hkeeps : Carries held? fields (KeepsApart fields (call.added added) (call.removed removed))
      store after)
    (hsame : call.isCounter = true →
      Carries held? fields (fun old new => ∃ key ∈ removed, SameKeys fields key old new)
        store after)
    (hadded : ∀ row ∈ added, row.HasKeyAmong fields rows)
    (hremoved : ∀ row ∈ removed, row.HasKeyAmong fields rows) :
    Carries held? fields (fun old new => KeyedBy fields old → call.MovesKeys fields rows old new)
      store after := by
  have hcounted : Carries held? fields
      (fun old new => call.isCounter = true → ∃ key, SameKeys fields key old new) store after := by
    cases hcounter : call.isCounter with
    | false => exact hkeeps.mono fun _ _ _ h => absurd h Bool.false_ne_true
    | true => exact (hsame hcounter).mono fun _ _ ⟨key, _, hkey⟩ _ => ⟨key, hkey⟩
  refine (hkeeps.and hcounted).mono fun old new ⟨hapart, hcount⟩ hold => ?_
  obtain ⟨hdistinct, hmove⟩ := hapart hold
  refine ⟨hdistinct, hmove.mono (fun row hrow => ?_) fun row hrow => ?_, hcount⟩
  · rw [Write.added] at hrow ⊢
    split at hrow
    next => exact absurd hrow List.not_mem_nil
    next hadds => rw [if_neg hadds]; exact hadded row hrow
  · rw [Write.removed] at hrow ⊢
    split at hrow
    next hremoves => rw [if_pos hremoves]; exact hremoved row hrow
    next => exact absurd hrow List.not_mem_nil

end Calls

theorem KeyValue.Gateway.perform_movesKeys (gateway : KeyValue.Gateway) (hooks : Hooks σ)
    (state : KeyValue.Store × σ) {call : Write}
    (hspares : call.Spares gateway.entity.layout.primaryKeys)
    (hnodup : ∀ row ∈ call.rows hooks state.2, (row.map Prod.fst).Nodup) :
    Carries (KeyValue.Store.held? gateway.tableName) gateway.entity.layout.primaryKeys
      (fun old new => KeyedBy gateway.entity.layout.primaryKeys old →
        call.MovesKeys gateway.entity.layout.primaryKeys (call.rows hooks state.2) old new)
      state.1 (gateway.perform hooks call state).2.1 := by
  rcases gateway.perform_settles hooks state call with ⟨error, -, hstore, -⟩ | ⟨-, hchanges⟩
  · exact .of_eq (fun _ => .refl) (congrArg _ hstore)
  · have hkeys := gateway.entity.hasKeyAmong_keysBy (KeyValue.counts call) hnodup
    exact carries_movesKeys ((hchanges.keepsKeyed hspares).mono fun _ _ => KeepsKeyed.keepsApart)
      (hchanges.sameKeys hspares) hkeys hkeys

theorem Document.Gateway.perform_movesKeys (gateway : Document.Gateway) (hooks : Hooks σ)
    (state : Document.Store × σ) {call : Write}
    (hspares : call.Spares gateway.entity.layout.primaryKeys)
    (hnodup : ∀ row ∈ call.rows hooks state.2, (row.map Prod.fst).Nodup)
    (hundotted : Document.Undotted call (call.rows hooks state.2)) :
    Carries (Document.Store.held? gateway.collection) gateway.entity.layout.primaryKeys
      (fun old new => KeyedBy gateway.entity.layout.primaryKeys old →
        call.MovesKeys gateway.entity.layout.primaryKeys (call.rows hooks state.2) old new)
      state.1 (gateway.perform hooks call state).2.1 := by
  rcases gateway.perform_settles hooks state call with ⟨error, -, hstore, -⟩ | ⟨-, hchanges⟩
  · exact .of_eq (fun _ => .refl) (congrArg _ hstore)
  · have hkeys := gateway.entity.hasKeyAmong_keysBy Document.counts hnodup
    refine carries_movesKeys (hchanges.keepsApart hspares hundotted)
      (hchanges.sameKeys hspares hundotted) (fun row hrow => ?_) hkeys
    rcases List.mem_append.mp hrow with hmem | hkey
    · exact .of_mem hmem
    · exact hkeys row hkey

/-- In either store, a call whose arguments name each field once moves the keys of the rows of its
entity by no more than it adds or removes, and a counter moves none; unless the counter stands in a
key field. -/
theorem calls_move_keys (hooks : Hooks σ) (call : Write) (state : σ)
    (hnodup : ∀ row ∈ call.rows hooks state, (row.map Prod.fst).Nodup) :
    (∀ (gateway : KeyValue.Gateway) (store : KeyValue.Store) (keyFields : List String)
        (old : List Record),
      (∀ field, field ∈ keyFields ↔ field ∈ gateway.entity.layout.primaryKeys) →
      store.tables.get? gateway.tableName = some ⟨keyFields, old⟩ →
      KeyedBy gateway.entity.layout.primaryKeys old →
      call.Spares gateway.entity.layout.primaryKeys →
      ∃ new, (gateway.perform hooks call (store, state)).2.1.tables.get? gateway.tableName =
          some ⟨keyFields, new⟩ ∧
        call.MovesKeys gateway.entity.layout.primaryKeys (call.rows hooks state) old new) ∧
    ∀ (gateway : Document.Gateway) (store : Document.Store) (unique : List String)
        (old : List Record),
      (∀ field, field ∈ unique ↔ field ∈ gateway.entity.layout.primaryKeys) →
      store.collections.get? gateway.collection = some ⟨unique, old⟩ →
      KeyedBy gateway.entity.layout.primaryKeys old →
      Document.Undotted call (call.rows hooks state) →
      call.Spares gateway.entity.layout.primaryKeys →
      ∃ new, (gateway.perform hooks call (store, state)).2.1.collections.get? gateway.collection =
          some ⟨unique, new⟩ ∧
        call.MovesKeys gateway.entity.layout.primaryKeys (call.rows hooks state) old new := by
  constructor
  · intro gateway store keyFields old hfields htable hold hspares
    obtain ⟨new, hnew, hmoves⟩ := gateway.perform_movesKeys hooks (store, state) hspares hnodup
      ⟨keyFields, old⟩ (KeyValue.Store.held?_eq_some.mpr htable) hfields
    exact ⟨new, KeyValue.Store.held?_eq_some.mp hnew, hmoves hold⟩
  · intro gateway store unique old hfields hcollection hold hundotted hspares
    obtain ⟨new, hnew, hmoves⟩ := gateway.perform_movesKeys hooks (store, state) hspares hnodup
      hundotted ⟨unique, old⟩ (Document.Store.held?_eq_some.mpr hcollection) hfields
    exact ⟨new, Document.Store.held?_eq_some.mp hnew, hmoves hold⟩

/-- Seats by hall and number, with the times they were taken. -/
def seats : Entity :=
  ⟨⟨"seats", [("hall", { type := .string, isHashKey := true }),
    ("number", { type := .number, isRangeKey := true }), ("taken", { type := .number })],
    by decide⟩, by decide⟩

def seat (number : Nat) (rest : Record) : Record :=
  [("hall", .string "north"), ("number", .nat number)] ++ rest

def seatRows : List Record := [seat 1 [("taken", .nat 4)], seat 2 []]

def seatTables : KeyValue.Gateway := ⟨seats, {}, rfl⟩

def seatStore : KeyValue.Store := { tables := [("seats", ⟨["hall", "number"], seatRows⟩)] }

def seatCollections : Document.Gateway := ⟨seats, {}, rfl⟩

def seatDocuments : Document.Store :=
  { collections := [("seats", ⟨["hall", "number"], seatRows⟩)] }

/-- Counting in a field that is no key. -/
theorem seats_move_keys :
    (∃ new, (seatTables.perform .none (.increment (seat 1 []) "taken" (.nat 1))
        (seatStore, ())).2.1.tables.get? "seats" = some ⟨["hall", "number"], new⟩ ∧
      (Write.increment (seat 1 []) "taken" (.nat 1)).MovesKeys ["hall", "number"] [seat 1 []]
        seatRows new) ∧
    ∃ new, (seatCollections.perform .none (.increment (seat 1 []) "taken" (.nat 1))
        (seatDocuments, ())).2.1.collections.get? "seats" = some ⟨["hall", "number"], new⟩ ∧
      (Write.increment (seat 1 []) "taken" (.nat 1)).MovesKeys ["hall", "number"] [seat 1 []]
        seatRows new := by
  obtain ⟨htables, hcollections⟩ := calls_move_keys (Hooks.none : Hooks Unit)
    (.increment (seat 1 []) "taken" (.nat 1)) () (by decide)
  exact ⟨htables seatTables seatStore _ _ (fun _ => Iff.rfl) rfl (by decide) (by decide),
    hcollections seatCollections seatDocuments _ _ (fun _ => Iff.rfl) rfl (by decide) (by decide)
      (by decide)⟩

/-- Counting in the number of a seat makes it another, in either store. -/
theorem seats_change_keys :
    seats.layout.primaryKeys = ["hall", "number"] ∧ KeyedBy ["hall", "number"] seatRows ∧
    (seatTables.perform .none (.increment (seat 1 []) "number" (.nat 1))
      (seatStore, ())).2.1.rows "seats" = [seat 2 [("taken", .nat 4)], seat 2 []] ∧
    (seatCollections.perform .none (.increment (seat 1 []) "number" (.nat 1))
      (seatDocuments, ())).2.1.documents "seats" = [seat 2 [("taken", .nat 4)], seat 2 []] ∧
    ¬ KeysMove ["hall", "number"] [seat 1 []] [] seatRows
      [seat 2 [("taken", .nat 4)], seat 2 []] ∧
    ∀ key, ¬ SameKeys ["hall", "number"] key seatRows [seat 2 [("taken", .nat 4)], seat 2 []] := by
  refine ⟨rfl, by decide, rfl, rfl, by decide, ?_⟩
  rintro key ⟨more, -, hvalues⟩
  have hfirst := (List.cons.inj hvalues).1
  simp [Record.valuesOf, seat, Members.get?, Json.nat, Json.int] at hfirst

end SchemaQuery
