import SchemaQuery.Proofs.Document.Writes
import SchemaQuery.Proofs.KeyValue.Writes

/-!
# Change-sets on either store

A change-set becomes an update of a row, or of a document. The one leaves out what is blank before
it takes the key, the other takes the key first and leaves out `null` only. Where both accept a
change-set they address the same key, and assign the same values to the same fields.
-/

namespace SchemaQuery

variable {entity : Entity} {changes key : Record}

/-- A key is made up of the key fields, each with the row's own value. -/
theorem Entity.mem_keyBy {counts : Json → Bool} (hkey : entity.keyBy counts changes = .ok key)
    (hnodup : (changes.map Prod.fst).Nodup) (member : String × Json) :
    member ∈ key ↔
      member.1 ∈ entity.layout.primaryKeys ∧ changes.get? member.1 = some member.2 := by
  have hkeyOf := keyOf_of_keyBy_true (keyBy_true hkey hnodup)
  refine ⟨Record.mem_keyOf hkeyOf, fun ⟨hfield, hvalue⟩ => Members.mem_of_get?_eq_some ?_⟩
  rw [(Record.get?_keyOf hkeyOf).2 member.1 hfield, hvalue]

/-- Whichever values count, there is no other key to be taken. -/
theorem Entity.keyBy_unique {counts counts' : Json → Bool} {key' : Record}
    (hkey : entity.keyBy counts changes = .ok key)
    (hkey' : entity.keyBy counts' changes = .ok key') (hnodup : (changes.map Prod.fst).Nodup) :
    key = key' := Except.ok.inj ((keyBy_true hkey hnodup).symm.trans (keyBy_true hkey' hnodup))

/-- A change-set that both builders accept addresses the same key in either store, made up of the
key fields and their values, and assigns the same values to the same fields: those of its fields
that are no keys, but not `null`, nor `{}`, nor the empty text where a field is locally indexed. -/
theorem builders_agree {table : String} {statement : KeyValue.Update} {update : Document.Update}
    (hnodup : (changes.map Prod.fst).Nodup)
    (hstatement : KeyValue.Update.build entity changes table = .ok statement)
    (hupdate : Document.Update.build entity changes = .ok update) :
    statement.key = update.filter ∧
    update.filter.HasAll entity.layout.primaryKeys ∧
    (∀ member, member ∈ update.filter ↔
      member.1 ∈ entity.layout.primaryKeys ∧ changes.get? member.1 = some member.2) ∧
    statement.assignments = update.set.map (fun (field, value) => .set [field] value) ∧
    update.set.Sublist changes ∧
    ∀ member, member ∈ update.set ↔ member ∈ changes ∧ entity.layout.Assigns member := by
  rw [KeyValue.Update.build_eq] at hstatement
  rw [Document.Update.build_eq] at hupdate
  cases hown : entity.keyBy (fun value => !value.isBlank) changes with
  | error error =>
      rw [hown] at hstatement
      cases hstatement
  | ok own =>
      cases hkey : entity.keyBy Document.counts changes with
      | error error =>
          rw [hkey] at hupdate
          cases hupdate
      | ok key =>
          rw [hown] at hstatement
          rw [hkey] at hupdate
          obtain rfl := Except.ok.inj hstatement
          obtain rfl := Except.ok.inj hupdate
          exact ⟨Entity.keyBy_unique hown hkey hnodup, (Entity.isKeyOf_keyBy hkey).2,
            Entity.mem_keyBy hkey hnodup, rfl, List.filter_sublist.trans List.filter_sublist,
            entity.layout.mem_assigned changes⟩

/-- Lamps by room and number, which can also be read by label. -/
def lamps : Entity :=
  ⟨⟨"lamps", [("room", { type := .string, isHashKey := true }),
    ("number", { type := .number, isRangeKey := true }),
    ("label", { type := .string, isLocalIndex := true }), ("note", { type := .string })],
    by decide⟩, by decide⟩

/-- Keys among other fields, two of them blank, and empty texts with and without an index. -/
def lampChanges : Record :=
  [("label", .string ""), ("note", .string ""), ("number", .nat 0), ("on", .bool false),
    ("owner", .null), ("room", .string ""), ("shade", .object []), ("tags", .array [])]

def lampSet : Record := [("note", .string ""), ("on", .bool false), ("tags", .array [])]

theorem lamps_builders_agree :
    ∃ statement update, KeyValue.Update.build lamps lampChanges "lamps" = .ok statement ∧
      Document.Update.build lamps lampChanges = .ok update ∧ update.set = lampSet ∧
      statement.key = update.filter ∧
      statement.assignments = update.set.map (fun (field, value) => .set [field] value) ∧
      ∀ member, member ∈ lampSet ↔ member ∈ lampChanges ∧ lamps.layout.Assigns member := by
  obtain ⟨statement, hstatement⟩ : ∃ statement,
      KeyValue.Update.build lamps lampChanges "lamps" = .ok statement := ⟨_, rfl⟩
  obtain ⟨update, hupdate, hset⟩ : ∃ update,
      Document.Update.build lamps lampChanges = .ok update ∧ update.set = lampSet :=
    ⟨_, rfl, rfl⟩
  obtain ⟨hkey, -, -, hassignments, -, hmember⟩ :=
    builders_agree (by decide) hstatement hupdate
  exact ⟨statement, update, hstatement, hupdate, hset, hkey, hassignments, hset ▸ hmember⟩

end SchemaQuery
