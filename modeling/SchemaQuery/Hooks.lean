import SchemaQuery.Store.Action

/-!
# Hooks around writes

A caller may look at every write: a hook before it that changes the payload or refuses it, one
after it that sees what was stored, and one for the store's failures, which thereby count as dealt
with. Hooks may keep a state of their own, of any type.
-/

namespace SchemaQuery

inductive WriteKind where
  | create
  | update
  | delete
  | batchPut
  deriving DecidableEq

namespace WriteKind

def code : WriteKind → String
  | create => "0"
  | update => "1"
  | delete => "2"
  | batchPut => "3"

def name : WriteKind → String
  | create => "create"
  | update => "update"
  | delete => "delete"
  | batchPut => "batch_put"

def isDelete (kind : WriteKind) : Bool := kind == delete

def toJson (kind : WriteKind) : Json := .string kind.code

def ofJson? (value : Json) : Option WriteKind :=
  value.variant?.bind fun name =>
    [create, update, delete, batchPut].find? fun kind => kind.code == name

end WriteKind

/-- What the hook before a write is told. -/
structure PreEvent where
  args : Record
  isUpdate : Bool
  attributes : Record

/-- What the hook after a write is told. -/
structure PostEvent where
  entity : String
  kind : WriteKind
  /-- The payload as the hook before the write left it. -/
  input : Record
  rangeKey : Option String
  result : Option Record
  attributes : Record

structure Hooks (σ : Type) where
  /-- Passed through to the hooks. -/
  attributes : Record := []
  before : Option (PreEvent → Action σ Record) := none
  after : Option (PostEvent → Action σ Unit) := none
  onError : Option (StoreError → σ → σ) := none

namespace Hooks

variable {σ : Type}

def none : Hooks σ := {}

def beforeWrite (hooks : Hooks σ) (args : Record) (isUpdate : Bool) : Action σ Record :=
  match hooks.before with
  | some hook => hook ⟨args, isUpdate, hooks.attributes⟩
  | .none => pure args

def afterWrite (hooks : Hooks σ) (entity : String) (kind : WriteKind) (input : Record)
    (rangeKey : Option String) (result : Option Record) : Action σ Unit :=
  match hooks.after with
  | some hook => hook ⟨entity, kind, input, rangeKey, result, hooks.attributes⟩
  | .none => pure ()

/-- A failure goes to the hook for errors if there is one, and is returned otherwise. -/
def recover (hooks : Hooks σ) (error : StoreError) : Action σ (Option α) :=
  match hooks.onError with
  | some hook => fun state => (.ok .none, hook error state)
  | .none => .fail error

end Hooks

end SchemaQuery
