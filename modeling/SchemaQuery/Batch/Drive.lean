import SchemaQuery.Batch.Retry
import SchemaQuery.Store.Action
import SchemaQuery.Store.Room

/-!
# Driving a batch of writes

Requests go to the store in chunks. What the store reports as unprocessed is submitted again after
a delay, until nothing is left of the chunk or the attempts are used up; then the rest, with all
chunks not yet submitted, is the error's to report. Without room for the chunks a run is aborted
before it begins. Time is not spent here: a wait is an event of the run, like a submission.
-/

namespace SchemaQuery

/-- Fills chunks of `size`; `filled` is the chunk at hand, in reverse, `room` its free places. -/
def chunksFrom (size : Nat) : List α → List α → Nat → List (List α)
  | [], [], _ => []
  | [], filled, _ => [filled.reverse]
  | item :: rest, filled, 0 => filled.reverse :: chunksFrom size rest [item] (size - 1)
  | item :: rest, filled, room + 1 => chunksFrom size rest (item :: filled) room

/-- Chunks of at most `size` items, of at least one, in order, where there is room for them. -/
def chunks (size : Nat) (items : List α) : List (List α) :=
  chunksFrom (max size 1) items [] (max size 1)

/-- Splits a list into chunks, each of them made with room for all it may hold; the first has its
room even if there are no items. -/
def split (bytes size : Nat) (items : List α) : Except StoreError (List (List α)) :=
  reserving bytes (max size 1) (chunks size items)

structure BatchSummary where
  items : Nat
  submissions : UInt32
  deriving DecidableEq

inductive BatchEvent where
  | submitted (requests : List WriteRequest)
  | waited (ms : Nat)

/-- How a chunk ended. -/
inductive Drained where
  | done
  | failed (error : StoreError)
  | unprocessed (requests : List WriteRequest)

structure BatchRun (S : Type) where
  outcome : Except StoreError BatchSummary
  events : List BatchEvent
  state : S

namespace Batch

variable {S : Type}

/-- A store's answer to a submission: the requests it left unprocessed. -/
abbrev Submit (S : Type) := List WriteRequest → Action S (List WriteRequest)

/-- Submits a chunk until it is drained or `left` retries are used up. -/
def drain (submit : Submit S) (policy : RetryPolicy) :
    Nat → Nat → List WriteRequest → S → Drained × List BatchEvent × S
  | left, retry, pending, state =>
      match submit pending state with
      | (.error error, state) => (.failed error, [.submitted pending], state)
      | (.ok [], state) => (.done, [.submitted pending], state)
      | (.ok (request :: requests), state) =>
          match left with
          | 0 => (.unprocessed (request :: requests), [.submitted pending], state)
          | left + 1 =>
              let (result, events, state) :=
                drain submit policy left (retry + 1) (request :: requests) state
              (result, .submitted pending :: .waited (policy.delay retry).toNat :: events, state)

/-- Drains the chunks in order; stops at the first that does not drain. -/
def driveChunks (submit : Submit S) (policy : RetryPolicy) :
    List (List WriteRequest) → S → Except StoreError Unit × List BatchEvent × S
  | [], state => (.ok (), [], state)
  | chunk :: rest, state =>
      match drain submit policy (policy.attempts - 1) 0 chunk state with
      | (.done, events, state) =>
          let (result, more, state) := driveChunks submit policy rest state
          (result, events ++ more, state)
      | (.failed error, events, state) => (.error error, events, state)
      | (.unprocessed requests, events, state) =>
          (.error (.unprocessedItems policy.attempts (requests ++ rest.flatten)), events, state)

/-- The same store, with a count of the submissions in a word of 32 bits. Behind the largest number
it starts again from zero. -/
def counted (submit : Submit S) : Submit (S × UInt32) := fun requests store =>
  let (answer, after) := submit requests store.1
  (answer, after, store.2 + 1)

def drive (submit : Submit S) (size : Nat) (policy : RetryPolicy) (requests : List WriteRequest)
    (state : S) : BatchRun S :=
  match split WriteRequest.bytes size requests with
  | .error error => { outcome := .error error, events := [], state }
  | .ok chunks =>
      let (result, events, state, submissions) :=
        driveChunks (counted submit) policy chunks (state, 0)
      { outcome := result.map fun _ => ⟨requests.length, submissions⟩, events, state }

/-- The run as an action; its events are not told. -/
def write (submit : Submit S) (size : Nat) (policy : RetryPolicy)
    (requests : List WriteRequest) : Action S BatchSummary := fun state =>
  let run := drive submit size policy requests state
  (run.outcome, run.state)

end Batch

end SchemaQuery
