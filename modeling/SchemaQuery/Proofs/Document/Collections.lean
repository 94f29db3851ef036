import SchemaQuery.Document.Store
import SchemaQuery.Proofs.Json.Keys
import SchemaQuery.Proofs.Store.Holding
import SchemaQuery.Proofs.Store.Paths

/-!
# Writes to a collection

What each write makes of the documents of a collection. An update goes to the document with its
values, or if it is an upsert to a document of these alone, and spares the keys if none of its paths
begins at one; when it fails, the document that was made for it stays. An insertion adds a document
as it is. The operations of a bulk write are carried out up to the first that fails.
-/

namespace SchemaQuery.Document

variable {fields : List String} {q : List Record → List Record → Prop}

/-! ### Updates -/

namespace Update

/-- No path begins at one of the fields. -/
def Spares (fields : List String) (update : Update) : Prop :=
  ∀ member ∈ update.set ++ update.inc, ∀ field ∈ fields, (pathOf member.1).head? ≠ some field

theorem get?_setAll {members document after : Record} {field : String}
    (hset : setAll document members = .ok after)
    (hne : ∀ member ∈ members, (pathOf member.1).head? ≠ some field) :
    after.get? field = document.get? field := by
  induction members generalizing document with
  | nil => rw [Except.ok.inj hset]
  | cons member rest ih =>
      obtain ⟨hfirst, hrest⟩ := List.forall_mem_cons.mp hne
      rw [setAll] at hset
      split at hset
      next mid hmid => rw [ih hset hrest, Record.get?_setPath_of_ne hmid hfirst]
      next => cases hset

theorem get?_addAll {members document after : Record} {field : String}
    (hadd : addAll document members = .ok after)
    (hne : ∀ member ∈ members, (pathOf member.1).head? ≠ some field) :
    after.get? field = document.get? field := by
  induction members generalizing document with
  | nil => rw [Except.ok.inj hadd]
  | cons member rest ih =>
      obtain ⟨hfirst, hrest⟩ := List.forall_mem_cons.mp hne
      rw [addAll] at hadd
      split at hadd
      next => cases hadd
      next =>
        split at hadd
        next mid hmid => rw [ih hadd hrest, Record.get?_setPath_of_ne hmid hfirst]
        next => cases hadd

theorem get?_change {update : Update} {document after : Record}
    (hchange : update.change document = .ok after) (hspares : update.Spares fields)
    {field : String} (hfield : field ∈ fields) : after.get? field = document.get? field := by
  obtain ⟨hset, hinc⟩ := List.forall_mem_append.mp hspares
  rw [change] at hchange
  split at hchange
  next mid hmid =>
    rw [get?_addAll hchange fun member hmember => hinc member hmember field hfield,
      get?_setAll hmid fun member hmember => hset member hmember field hfield]
  next => cases hchange

end Update

/-! ### Collections -/

namespace Collection

/-- An update finds nothing to do, puts the document it makes in the place of the one with its
values, or fails. -/
theorem apply_cases (collection : Collection) (update : Update) :
    ((collection.find? update.filter).isNone && !update.upsert) = true ∧
        collection.apply update = (.ok none, collection) ∨
    ((collection.find? update.filter).isNone && !update.upsert) = false ∧
      ((∃ document, update.change ((collection.find? update.filter).getD update.filter) =
            .ok document ∧
          collection.apply update = (.ok (some document),
            { collection with
              documents := Record.put update.filter document collection.documents })) ∨
        ∃ fault, collection.apply update = (.error (.backend fault),
          if (collection.find? update.filter).isSome then collection
          else { collection with documents := collection.documents ++ [update.filter] })) := by
  rw [apply]
  cases hidle : (collection.find? update.filter).isNone && !update.upsert with
  | true => exact Or.inl ⟨rfl, rfl⟩
  | false =>
      refine Or.inr ⟨rfl, ?_⟩
      cases hchange : update.change ((collection.find? update.filter).getD update.filter) with
      | ok document => exact Or.inl ⟨document, rfl, rfl⟩
      | error fault => exact Or.inr ⟨fault, rfl⟩

/-- The documents after an update have one that agrees with its values, or are as they were. -/
theorem documents_apply {update : Update} (hspares : update.Spares fields)
    (collection : Collection) :
    (collection.apply update).2 = collection ∨
    ∃ document, (collection.apply update).2 =
        { collection with
          documents := Record.put update.filter document collection.documents } ∧
      ∀ field ∈ fields, document.get? field =
        ((collection.find? update.filter).getD update.filter).get? field := by
  rcases collection.apply_cases update with ⟨-, hresult⟩ | ⟨-, hresult⟩
  · exact Or.inl (by rw [hresult])
  rcases hresult with ⟨document, hchange, hresult⟩ | ⟨fault, hresult⟩
  · refine Or.inr ⟨document, by rw [hresult], fun field hfield => ?_⟩
    exact Update.get?_change hchange hspares hfield
  · rw [hresult]
    cases hfound : collection.find? update.filter with
    | some old => exact Or.inl rfl
    | none =>
        refine Or.inr ⟨update.filter, ?_, fun _ _ => rfl⟩
        rw [Record.put_of_find?_eq_none hfound]
        rfl

end Collection

/-- An operation does to documents what the relation says. -/
def BulkWrite.Fits (fields : List String) (q : List Record → List Record → Prop) :
    BulkWrite → Prop
  | .update change => change.Spares fields ∧ ∀ rows row, (∀ field ∈ fields, row.get? field =
        ((rows.find? fun other => other.hasKey change.filter).getD change.filter).get? field) →
      q rows (Record.put change.filter row rows)
  | .delete filter => ∀ rows, q rows (rows.eraseP fun row => row.hasKey filter)

namespace Collection

theorem apply_fits {update : Update} (hrefl : ∀ rows, q rows rows)
    (hfits : (BulkWrite.update update).Fits fields q) (collection : Collection) :
    ∃ documents, (collection.apply update).2 = { collection with documents } ∧
      q collection.documents documents := by
  rcases collection.documents_apply hfits.1 with hsame | ⟨document, hresult, hdocument⟩
  · exact ⟨collection.documents, hsame, hrefl _⟩
  · exact ⟨_, hresult, hfits.2 collection.documents document hdocument⟩

theorem bulk_fits (hrefl : ∀ rows, q rows rows) (htrans : ∀ ⦃a b c⦄, q a b → q b c → q a c)
    {writes : List BulkWrite} (hfits : ∀ write ∈ writes, write.Fits fields q)
    (collection : Collection) :
    ∃ documents, (bulk writes collection).2 = { collection with documents } ∧
      q collection.documents documents := by
  induction writes generalizing collection with
  | nil => exact ⟨collection.documents, rfl, hrefl _⟩
  | cons write rest ih =>
      obtain ⟨hfirst, hrest⟩ := List.forall_mem_cons.mp hfits
      cases write with
      | update update =>
          obtain ⟨documents, hupdate, hq⟩ := collection.apply_fits hrefl hfirst
          rw [bulk]
          split
          next hresult =>
            rw [hresult] at hupdate
            exact ⟨documents, hupdate, hq⟩
          next hresult =>
            rw [hresult] at hupdate
            obtain rfl := hupdate
            obtain ⟨final, hfinal, hq'⟩ := ih hrest { collection with documents }
            exact ⟨final, hfinal, htrans hq hq'⟩
      | delete filter =>
          obtain ⟨final, hfinal, hq'⟩ := ih hrest (collection.remove filter)
          exact ⟨final, hfinal, htrans (hfirst collection.documents) hq'⟩

theorem insert_cases (collection : Collection) (name : String) (document : Record) :
    (∃ fault, collection.insert name document = (.error (.backend fault), collection)) ∨
    (collection.documents.find? (·.hasKey (document.pick collection.unique))) = none ∧
      collection.insert name document =
        (.ok document, { collection with documents := collection.documents ++ [document] }) := by
  rw [insert]
  cases hfound : collection.find? (document.pick collection.unique) with
  | some old => exact Or.inl ⟨_, rfl⟩
  | none => exact Or.inr ⟨hfound, rfl⟩

end Collection

/-! ### Collections of a store -/

namespace Store

variable {name : String} {store : Store}

/-- The documents of a collection and their unique fields. -/
def held? (name : String) (store : Store) : Option Holding :=
  (store.collections.get? name).map fun collection => ⟨collection.unique, collection.documents⟩

/-- Work on a collection either finds it and changes nothing else, or fails. -/
theorem onCollection_cases {α : Type} (name : String)
    (work : Collection → Except StoreError α × Collection) (store : Store) :
    (store.collections.get? name = none ∧
      onCollection name work store = (.error (.backend (.unknownCollection name)), store)) ∨
    ∃ collection, store.collections.get? name = some collection ∧ onCollection name work store =
      ((work collection).1,
        { store with collections := store.collections.set name (work collection).2 }) := by
  rw [onCollection, Store.collection]
  cases store.collections.get? name with
  | none => exact Or.inl ⟨rfl, rfl⟩
  | some collection => exact Or.inr ⟨collection, rfl, rfl⟩

theorem held?_eq_some {held : Holding} :
    held? name store = some held ↔
      store.collections.get? name = some ⟨held.keyFields, held.rows⟩ := by
  rw [held?, Option.map_eq_some_iff]
  constructor
  · rintro ⟨collection, hcollection, rfl⟩
    exact hcollection
  · exact fun hcollection => ⟨_, hcollection, rfl⟩

theorem carries_onCollection {α : Type} {work : Collection → Except StoreError α × Collection}
    (hwork : ∀ collection : Collection, (∀ field, field ∈ collection.unique ↔ field ∈ fields) →
      ∃ documents, (work collection).2 = { collection with documents } ∧
        q collection.documents documents) :
    Carries (held? name) fields q store (onCollection name work store).2 := by
  intro held hheld hfields
  rw [held?_eq_some] at hheld
  rcases onCollection_cases name work store with ⟨hnone, -⟩ | ⟨collection, hfound, hresult⟩
  · cases hnone.symm.trans hheld
  · obtain rfl := Option.some.inj (hfound.symm.trans hheld)
    obtain ⟨documents, hdocuments, hq⟩ := hwork ⟨held.keyFields, held.rows⟩ hfields
    refine ⟨documents, ?_, hq⟩
    rw [hresult, hdocuments, held?_eq_some]
    exact Members.get?_set_self ..

theorem carries_update {update : Update} (hrefl : ∀ rows, q rows rows)
    (hfits : (BulkWrite.update update).Fits fields q) :
    Carries (held? name) fields q store (Store.update name update store).2 :=
  carries_onCollection fun collection _ => collection.apply_fits hrefl hfits

theorem carries_delete {filter : Record}
    (hdelete : ∀ rows, q rows (rows.eraseP fun row => row.hasKey filter)) :
    Carries (held? name) fields q store (Store.delete name filter store).2 :=
  carries_onCollection fun collection _ => ⟨_, rfl, hdelete collection.documents⟩

theorem carries_bulk (hrefl : ∀ rows, q rows rows) (htrans : ∀ ⦃a b c⦄, q a b → q b c → q a c)
    {writes : List BulkWrite} (hfits : ∀ write ∈ writes, write.Fits fields q) :
    Carries (held? name) fields q store (Store.bulk name writes store).2 :=
  carries_onCollection fun collection _ => collection.bulk_fits hrefl htrans hfits

theorem carries_insert {document : Record} (hrefl : ∀ rows, q rows rows)
    (hinsert : ∀ given : List String, (∀ field, field ∈ given ↔ field ∈ fields) →
      ∀ rows : List Record, rows.find? (·.hasKey (document.pick given)) = none →
        q rows (rows ++ [document])) :
    Carries (held? name) fields q store (Store.insert name document store).2 := by
  refine carries_onCollection fun collection hfields => ?_
  rcases collection.insert_cases name document with ⟨fault, hresult⟩ | ⟨hnone, hresult⟩
  · exact ⟨collection.documents, by rw [hresult], hrefl _⟩
  · exact ⟨_, by rw [hresult], hinsert collection.unique hfields collection.documents hnone⟩

end Store

end SchemaQuery.Document
