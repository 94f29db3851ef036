import SchemaQuery.Proofs.Document.Writes
import SchemaQuery.Proofs.KeyValue.Writes

/-!
# Writes that are not aborted

A store fails with errors of its own and aborts no call. So a batch is aborted only before it is
begun, for want of room for its chunks, and no other write ever is.
-/

namespace SchemaQuery

namespace Batch

variable {S : Type} {submit : Submit S}

/-- A run fails as one of its calls did, or reports what is left. -/
theorem Runs.error_cases {attempts : Nat} {chunks : List (List WriteRequest)}
    {rounds : List (List Call)} {error : StoreError}
    (hruns : Runs attempts chunks rounds (.error error)) :
    (∃ call ∈ rounds.flatten, call.answer = .error error) ∨
      ∃ items, error = .unprocessedItems attempts items := by
  generalize hresult : Except.error error = result at hruns
  induction hruns with
  | nil => cases hresult
  | next _ _ ih =>
      refine (ih hresult).imp_left fun ⟨call, hmem, hanswer⟩ => ⟨call, ?_, hanswer⟩
      rw [List.flatten_cons]
      exact List.mem_append_right _ hmem
  | failed hdrains =>
      obtain rfl := Except.error.inj hresult
      obtain ⟨before, last, rfl, hlast, -⟩ := hdrains.answers
      rw [List.flatten_singleton]
      exact Or.inl ⟨last, List.mem_append_right _ List.mem_cons_self, hlast⟩
  | unprocessed => exact Or.inr ⟨_, Except.error.inj hresult⟩

theorem write_neverAborts (hsubmit : ∀ requests, (submit requests).NeverAborts) {size : Nat}
    (hroom : Reservable WriteRequest.bytes (max size 1)) (policy : RetryPolicy)
    (requests : List WriteRequest) : (write submit size policy requests).NeverAborts := by
  intro state habort
  obtain ⟨result, after, rounds, hdrive, -, hruns, hanswered⟩ :=
    drive_runs submit policy hroom requests state
  rw [write, hdrive] at habort
  cases result with
  | ok => cases habort
  | error error =>
      obtain rfl : error = .aborted := Except.error.inj habort
      rcases hruns.error_cases with ⟨call, hmem, hanswer⟩ | ⟨items, hitems⟩
      · obtain ⟨before, hcall⟩ := hanswered call hmem
        exact hsubmit call.submitted before (hcall.trans hanswer)
      · cases hitems

end Batch

namespace KeyValue

namespace Store

theorem onTable_neverAborts {α : Type} {work : Table → Except StoreError α × Table}
    (hwork : ∀ table, (work table).1 ≠ .error .aborted) (name : String) :
    (onTable name work).NeverAborts := by
  intro store
  rcases onTable_cases name work store with ⟨-, hresult⟩ | ⟨table, -, hresult⟩
  · rw [hresult]
    exact fun habort => by cases habort
  · rw [hresult]
    exact hwork table

theorem update_neverAborts (update : Update) : (Store.update update).NeverAborts := by
  refine onTable_neverAborts (fun table habort => ?_) update.tableName
  rcases update.applyTo_cases table with ⟨row, -, hresult⟩ | ⟨fault, hresult⟩
  all_goals
    rw [hresult] at habort
    cases habort

theorem delete_neverAborts (name : String) (key : Record) : (delete name key).NeverAborts :=
  onTable_neverAborts (fun _ habort => by cases habort) name

theorem batchWrite_neverAborts (name : String) (requests : List WriteRequest) :
    (batchWrite name requests).NeverAborts := by
  intro store habort
  rw [batchWrite, table] at habort
  cases hfound : store.tables.get? name with
  | none =>
      simp only [hfound] at habort
      cases habort
  | some table =>
      simp only [hfound] at habort
      cases habort

end Store

/-- With room for its chunks a batch is not aborted. -/
theorem Gateway.batchWrite_neverAborts (gateway : Gateway)
    (hroom : Reservable WriteRequest.bytes gateway.config.batchWriteChunk.toNat)
    (requests : List WriteRequest) : (gateway.batchWrite requests).NeverAborts :=
  Batch.write_neverAborts (Store.batchWrite_neverAborts gateway.tableName)
    (hroom.max (by decide)) gateway.config.retry requests

end KeyValue

namespace Document

theorem Collection.apply_ne_aborted (collection : Collection) (update : Update) :
    (collection.apply update).1 ≠ .error .aborted := by
  rcases collection.apply_cases update with
    ⟨-, hresult⟩ | ⟨-, ⟨document, -, hresult⟩ | ⟨fault, hresult⟩⟩
  all_goals
    rw [hresult]
    exact fun habort => by cases habort

theorem Collection.bulk_ne_aborted (writes : List BulkWrite) (collection : Collection) :
    (bulk writes collection).1 ≠ .error .aborted := by
  have hmap {result : Except StoreError Nat} (f : Nat → Nat) (hresult : result ≠ .error .aborted) :
      result.map f ≠ .error .aborted := by
    cases result with
    | error error => exact hresult
    | ok touched => exact fun habort => by cases habort
  induction writes generalizing collection with
  | nil => exact fun habort => by cases habort
  | cons write rest ih =>
      cases write with
      | update update =>
          have happly := collection.apply_ne_aborted update
          rw [bulk]
          split
          next hresult =>
            rw [hresult] at happly
            exact fun habort => happly (congrArg _ (Except.error.inj habort))
          next => exact hmap _ (ih _)
      | delete filter => exact hmap _ (ih _)

namespace Store

theorem onCollection_neverAborts {α : Type} {work : Collection → Except StoreError α × Collection}
    (hwork : ∀ collection, (work collection).1 ≠ .error .aborted) (name : String) :
    (onCollection name work).NeverAborts := by
  intro store
  rcases onCollection_cases name work store with ⟨-, hresult⟩ | ⟨collection, -, hresult⟩
  · rw [hresult]
    exact fun habort => by cases habort
  · rw [hresult]
    exact hwork collection

theorem insert_neverAborts (name : String) (document : Record) :
    (Store.insert name document).NeverAborts := by
  refine onCollection_neverAborts (fun collection habort => ?_) name
  rcases collection.insert_cases name document with ⟨fault, hresult⟩ | ⟨-, hresult⟩
  all_goals
    rw [hresult] at habort
    cases habort

theorem update_neverAborts (name : String) (update : Update) :
    (Store.update name update).NeverAborts :=
  onCollection_neverAborts (fun collection => collection.apply_ne_aborted update) name

theorem delete_neverAborts (name : String) (filter : Record) : (delete name filter).NeverAborts :=
  onCollection_neverAborts (fun _ habort => by cases habort) name

theorem bulk_neverAborts (name : String) (writes : List BulkWrite) :
    (Store.bulk name writes).NeverAborts :=
  onCollection_neverAborts (Collection.bulk_ne_aborted writes) name

end Store

end Document

end SchemaQuery
