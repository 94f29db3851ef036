import SchemaQuery.Proofs.Document.Writes
import SchemaQuery.Proofs.KeyValue.Writes

/-!
# Writes of rows without keys

A call whose argument has no value for a key field fails before it comes to the store, with the
first such field of the first such row. What is a value is not the same for all calls: an update of
a table drops `null` and `{}`, its other calls take any value, and a document store takes any but
`null`. And two calls of a document store come to something else first: an insertion never asks for
a key, and a decrement looks at its amount.
-/

namespace SchemaQuery

variable {σ : Type}

/-- A call fails with what is wrong with the first row that has no key, and leaves the store as it
was; in a document store, if it takes keys at all. -/
theorem unaddressable_writes_fail (hooks : Hooks σ) (call : Write) (state : σ)
    (hnodup : ∀ row ∈ call.rows hooks state, (row.map Prod.fst).Nodup) :
    (∀ (gateway : KeyValue.Gateway) (store : KeyValue.Store) (fault : CompileError),
      (call.rows hooks state).findSome? (gateway.entity.keyFault? (KeyValue.counts call)) =
        some fault →
      (gateway.perform hooks call (store, state)).1 = .error (.compile fault) ∧
        (gateway.perform hooks call (store, state)).2.1 = store) ∧
    ∀ (gateway : Document.Gateway) (store : Document.Store) (fault : CompileError),
      Document.takesKeys call = true →
      (call.rows hooks state).findSome? (gateway.entity.keyFault? Document.counts) = some fault →
      (gateway.perform hooks call (store, state)).1 = .error (.compile fault) ∧
        (gateway.perform hooks call (store, state)).2.1 = store := by
  constructor
  · intro gateway store fault hfault
    refine (gateway.perform_settles hooks (store, state) call).error_of_fault ?_
    rw [Entity.findSome?_keyError? gateway.entity (KeyValue.counts call) hnodup, hfault]
  · intro gateway store fault htakes hfault
    refine (gateway.perform_settles hooks (store, state) call).error_of_fault ?_
    rw [if_pos htakes, Entity.findSome?_keyError? gateway.entity Document.counts hnodup, hfault]

/-- Members of clubs, by club and number. -/
def clubs : Entity :=
  ⟨⟨"clubs", [("number", { type := .number, isRangeKey := true }),
    ("club", { type := .string, isHashKey := true }), ("points", { type := .number })],
    by decide⟩, by decide⟩

def clubTables : KeyValue.Gateway := ⟨clubs, { batchWriteChunk := 2 }, rfl⟩

def clubStore : KeyValue.Store := ({} : KeyValue.Store).declare "clubs" ["club", "number"]

def clubCollections : Document.Gateway := ⟨clubs, { batchWriteChunk := 2 }, rfl⟩

def clubDocuments : Document.Store := ({} : Document.Store).declare "clubs" ["club", "number"]

/-- Two items, of which the second has neither key: the hash key is missed first. -/
def unnumbered : Write :=
  .batchPut [[("club", .string "chess"), ("number", .nat 1)], [("points", .nat 3)]]

theorem unnumbered_fails :
    ((clubTables.perform (.none : Hooks Unit) unnumbered (clubStore, ())).1 =
        .error (.compile (.missingKeyValue "club")) ∧
      (clubTables.perform (.none : Hooks Unit) unnumbered (clubStore, ())).2.1 = clubStore) ∧
    (clubCollections.perform (.none : Hooks Unit) unnumbered (clubDocuments, ())).1 =
        .error (.compile (.missingKeyValue "club")) ∧
      (clubCollections.perform (.none : Hooks Unit) unnumbered (clubDocuments, ())).2.1 =
        clubDocuments := by
  obtain ⟨htables, hcollections⟩ :=
    unaddressable_writes_fail (.none : Hooks Unit) unnumbered () (by decide)
  exact ⟨htables clubTables clubStore _ rfl, hcollections clubCollections clubDocuments _ rfl rfl⟩

/-- An insertion into a collection without a hash key's value, a decrement by a text of no document,
and of a table three calls with `null` for the hash key: none of them misses a value. -/
theorem unaddressable_writes_pass :
    (clubCollections.perform (.none : Hooks Unit) (.insert [("points", .nat 3)])
      (clubDocuments, ())).1 = .ok () ∧
    (clubCollections.perform (.none : Hooks Unit) (.insert [("points", .nat 3)])
      (clubDocuments, ())).2.1.documents "clubs" = [[("points", .nat 3)]] ∧
    (clubCollections.perform (.none : Hooks Unit) (.decrement [] "points" (.string "x"))
      (clubDocuments, ())).1 = .error (.backend .decrementNotNumeric) ∧
    (clubTables.perform (.none : Hooks Unit)
      (.increment [("club", .null), ("number", .nat 1)] "points" (.nat 3)) (clubStore, ())).1 =
        .ok () ∧
    (clubTables.perform (.none : Hooks Unit)
      (.increment [("club", .null), ("number", .nat 1)] "points" (.nat 3))
        (clubStore, ())).2.1.rows "clubs" =
          [[("club", .null), ("number", .nat 1), ("points", .nat 3)]] ∧
    (clubTables.perform (.none : Hooks Unit) (.batchPut [[("club", .null), ("number", .nat 1)]])
      (clubStore, ())).1 = .ok () ∧
    (clubTables.perform (.none : Hooks Unit) (.remove [("club", .null), ("number", .nat 1)])
      (clubStore, ())).1 = .ok () :=
  ⟨rfl, rfl, rfl, rfl, rfl, rfl, rfl⟩

end SchemaQuery
