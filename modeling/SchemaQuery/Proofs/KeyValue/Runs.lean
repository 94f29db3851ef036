import SchemaQuery.Proofs.KeyValue.Writes

/-!
# Runs of writes

In the course of time an entity is written by its calls and by raw batches, and writes of some keys
are told to come back unprocessed. However these follow each other, and whichever of them fail, the
rows of a table that was empty at first have all their key fields, and no two of them the same key.
What makes it so is that each step keeps keyed rows keyed.
-/

namespace SchemaQuery.KeyValue

open Record (KeyedBy)

inductive Step (σ : Type) where
  | call (hooks : Hooks σ) (write : Write)
  /-- Requests without hooks. -/
  | batch (requests : List WriteRequest)
  /-- Writes of a key are left unprocessed some times more. -/
  | defer (key : Record) (times : Nat)

variable {σ : Type}

/-- Counters spare the key fields, and what is put as it is has them all. -/
def Step.Allowed (fields : List String) : Step σ → Prop
  | .call _ write => write.Spares fields
  | .batch requests => ∀ item, .put item ∈ requests → item.HasAll fields
  | .defer _ _ => True

/-- Rows that are keyed stay so. -/
def StaysKeyed (fields : List String) (old new : List Record) : Prop :=
  KeyedBy fields old → KeyedBy fields new

theorem StaysKeyed.trans {fields : List String} ⦃a b c : List Record⦄
    (hab : StaysKeyed fields a b) (hbc : StaysKeyed fields b c) : StaysKeyed fields a c :=
  fun ha => hbc (hab ha)

namespace Gateway

variable {gateway : Gateway}

/-- The state after a step, whatever its outcome. -/
def step (gateway : Gateway) (state : Store × σ) : Step σ → Store × σ
  | .call hooks write => (gateway.perform hooks write state).2
  | .batch requests => ((gateway.batchWrite requests state.1).2, state.2)
  | .defer key times => (state.1.defer key times, state.2)

def run (gateway : Gateway) (steps : List (Step σ)) (state : Store × σ) : Store × σ :=
  steps.foldl gateway.step state

theorem batchWrite_staysKeyed {fields : List String} {requests : List WriteRequest}
    (hputs : ∀ item, .put item ∈ requests → item.HasAll fields) (store : Store) :
    Carries (Store.held? gateway.tableName) fields (StaysKeyed fields) store
      (gateway.batchWrite requests store).2 := by
  refine batchWrite_carries (fun _ => id) StaysKeyed.trans (fun request hmem => ?_) store
  cases request with
  | put item =>
      have hall := hputs item hmem
      exact fun given hgiven rows hrows => hrows.put (Record.isKeyOf_pick hall hgiven) hall
  | delete key => exact fun rows hrows => hrows.sublist List.eraseP_sublist

theorem step_staysKeyed {step : Step σ} (hallowed : step.Allowed gateway.entity.layout.primaryKeys)
    (state : Store × σ) :
    Carries (Store.held? gateway.tableName) gateway.entity.layout.primaryKeys
      (StaysKeyed gateway.entity.layout.primaryKeys) state.1 (gateway.step state step).1 := by
  cases step with
  | call hooks write =>
      rcases gateway.perform_settles hooks state write with ⟨error, -, hstore, -⟩ | ⟨-, hchanges⟩
      · exact .of_eq (fun _ => id) (congrArg _ hstore)
      · exact (hchanges.keepsKeyed hallowed).mono fun old new hkeeps hold => (hkeeps hold).1
  | batch requests => exact batchWrite_staysKeyed hallowed state.1
  | defer key times => exact .of_eq (fun _ => id) rfl

theorem run_staysKeyed {steps : List (Step σ)}
    (hallowed : ∀ step ∈ steps, step.Allowed gateway.entity.layout.primaryKeys)
    (state : Store × σ) :
    Carries (Store.held? gateway.tableName) gateway.entity.layout.primaryKeys
      (StaysKeyed gateway.entity.layout.primaryKeys) state.1 (gateway.run steps state).1 := by
  induction steps generalizing state with
  | nil => exact .refl (fun _ => id) _
  | cons step rest ih =>
      obtain ⟨hstep, hrest⟩ := List.forall_mem_cons.mp hallowed
      exact (step_staysKeyed hstep state).trans StaysKeyed.trans (ih hrest _)

/-- A table that was empty, with the primary keys for its key fields, holds rows with all of these,
and none with the key of another. -/
theorem run_keeps_keys_unique (gateway : Gateway) {keyFields : List String}
    (hfields : ∀ field, field ∈ keyFields ↔ field ∈ gateway.entity.layout.primaryKeys)
    {steps : List (Step σ)}
    (hallowed : ∀ step ∈ steps, step.Allowed gateway.entity.layout.primaryKeys)
    {state : Store × σ}
    (hempty : state.1.tables.get? gateway.tableName = some ⟨keyFields, []⟩) :
    ∃ rows, (gateway.run steps state).1.tables.get? gateway.tableName = some ⟨keyFields, rows⟩ ∧
      (∀ row ∈ rows, ∀ field ∈ gateway.entity.layout.primaryKeys, (row.get? field).isSome) ∧
      rows.Pairwise fun a b => b.hasKey (a.pick gateway.entity.layout.primaryKeys) = false := by
  obtain ⟨rows, hrows, hkeyed⟩ := run_staysKeyed hallowed state ⟨keyFields, []⟩
    (Store.held?_eq_some.mpr hempty) hfields
  have hall := hkeyed (Record.keyedBy_nil _)
  exact ⟨rows, Store.held?_eq_some.mp hrows, hall.complete, hall.pairwise_hasKey⟩

/-- Visits to pages by day, two keys in a batch one by one and each submitted twice at most. -/
def visits : Gateway where
  entity := ⟨⟨"visits", [("page", { type := .string, isHashKey := true }),
    ("day", { type := .number, isRangeKey := true }), ("count", { type := .number })],
    by decide⟩, by decide⟩
  config := { batchWriteChunk := 1, retry := .immediate 2 }
  accepted := by decide

def visit (page : String) (day : Nat) (rest : Record) : Record :=
  rest ++ [("day", .nat day), ("page", .string page)]

/-- Two of the counters fail, the second after it has made its row, and so does the batch. -/
def visitSteps : List (Step Unit) :=
  [.call .none (.insert (visit "a" 1 [("count", .string "x")])),
    .call .none (.increment (visit "a" 1 []) "count" (.nat 1)),
    .call .none (.increment (visit "a" 2 []) "count" (.string "x")),
    .call .none (.batchPut [visit "b" 1 [], visit "a" 2 [("count", .nat 3)]]),
    .defer (visit "b" 2 []) 3,
    .batch [.put (visit "b" 1 [("count", .nat 5)]), .put (visit "b" 2 []), .put (visit "c" 1 [])],
    .call .none (.remove (visit "a" 1 []))]

example :
    (visits.run visitSteps (({} : Store).declare "visits" ["day", "page"], ())).1.rows "visits" =
      [visit "a" 2 [("count", .nat 3)], visit "b" 1 [("count", .nat 5)]] := by rfl

theorem visitSteps_allowed :
    ∀ step ∈ visitSteps, step.Allowed visits.entity.layout.primaryKeys := by
  have hputs : ∀ item, .put item ∈ [WriteRequest.put (visit "b" 1 [("count", .nat 5)]),
      .put (visit "b" 2 []), .put (visit "c" 1 [])] →
      item.HasAll visits.entity.layout.primaryKeys := by
    intro item hitem
    simp only [List.mem_cons, WriteRequest.put.injEq, List.not_mem_nil, or_false] at hitem
    rcases hitem with rfl | rfl | rfl <;> decide
  have hcall (write : Write) (hspares : write.Spares visits.entity.layout.primaryKeys) :
      (Step.call (.none : Hooks Unit) write).Allowed visits.entity.layout.primaryKeys := hspares
  simp only [visitSteps, List.forall_mem_cons]
  exact ⟨hcall _ (by decide), hcall _ (by decide), hcall _ (by decide), hcall _ (by decide),
    trivial, hputs, hcall _ (by decide), fun _ h => absurd h List.not_mem_nil⟩

theorem visits_keep_keys_unique :
    ∃ rows,
      (visits.run visitSteps (({} : Store).declare "visits" ["day", "page"], ())).1.tables.get?
        visits.tableName = some ⟨["day", "page"], rows⟩ ∧
      (∀ row ∈ rows, ∀ field ∈ visits.entity.layout.primaryKeys, (row.get? field).isSome) ∧
      rows.Pairwise fun a b => b.hasKey (a.pick visits.entity.layout.primaryKeys) = false := by
  have hfields : ["day", "page"].Perm visits.entity.layout.primaryKeys := by decide
  exact run_keeps_keys_unique visits (fun _ => hfields.mem_iff) visitSteps_allowed rfl

end Gateway

end SchemaQuery.KeyValue
