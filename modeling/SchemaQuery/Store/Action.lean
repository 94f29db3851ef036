import SchemaQuery.Store.Error

/-!
# Actions on a store

An action reads and changes a store and may fail. What it changed before it failed stays changed.
-/

namespace SchemaQuery

def Action (S α : Type) : Type := S → Except StoreError α × S

namespace Action

variable {S T α β : Type}

def run (action : Action S α) (store : S) : Except StoreError α × S := action store

def ofValue (value : α) : Action S α := fun store => (.ok value, store)

def andThen (action : Action S α) (next : α → Action S β) : Action S β := fun store =>
  match action store with
  | (.ok value, store) => next value store
  | (.error error, store) => (.error error, store)

instance : Monad (Action S) where
  pure := ofValue
  bind := andThen

def fail (error : StoreError) : Action S α := fun store => (.error error, store)

def ofExcept (result : Except StoreError α) : Action S α := fun store => (result, store)

/-- An action on the first of two stores. -/
def first (action : Action S α) : Action (S × T) α := fun store =>
  let (result, changed) := action store.1
  (result, changed, store.2)

/-- An action on the second of two stores. -/
def second (action : Action T α) : Action (S × T) α := fun store =>
  let (result, changed) := action store.2
  (result, store.1, changed)

/-- The outcome of an action, so that the caller can go on after a failure. After an abort nobody
goes on. -/
def attempt (action : Action S α) : Action S (Except StoreError α) := fun store =>
  match action store with
  | (.error .aborted, store) => (.error .aborted, store)
  | (result, store) => (.ok result, store)

@[simp] theorem pure_apply (value : α) (store : S) :
    (pure value : Action S α) store = (.ok value, store) := rfl

theorem bind_apply (action : Action S α) (next : α → Action S β) (store : S) :
    (action >>= next) store =
      match action store with
      | (.ok value, store) => next value store
      | (.error error, store) => (.error error, store) := rfl

@[simp] theorem fail_apply (error : StoreError) (store : S) :
    (fail error : Action S α) store = (.error error, store) := rfl

@[simp] theorem ofExcept_apply (result : Except StoreError α) (store : S) :
    ofExcept result store = (result, store) := rfl

theorem ofExcept_ok_bind (value : α) (next : α → Action S β) :
    (ofExcept (.ok value) >>= next) = next value := rfl

end Action

end SchemaQuery
