import SchemaQuery.Proofs.Document.Collections
import SchemaQuery.Proofs.KeyValue.Tables

/-!
# Updates that fail

The assignments of an update are worked out on a copy of the row, so that one that fails undoes
those before it. What is not undone is the row of the key alone that either store makes where it
finds none: the update may fail, but this row stays. All else is as it was.
-/

namespace SchemaQuery

/-! ### Tables -/

namespace KeyValue

/-- Whether a table has to make the row that an update goes to. -/
def Update.makesRow (update : Update) (table : Table) : Bool := (table.find? update.key).isNone

/-- A failed update leaves the rows, and the one it had to make. -/
theorem Update.rows_of_error {update : Update} {table : Table} {error : StoreError}
    (herror : (update.applyTo table).1 = .error error) :
    (update.applyTo table).2.rows =
      if update.makesRow table then table.rows ++ [update.key] else table.rows := by
  rcases update.applyTo_cases table with ⟨row, -, hresult⟩ | ⟨fault, hresult⟩
  · rw [hresult] at herror
    cases herror
  · rw [hresult, makesRow]
    cases table.find? update.key <;> rfl

namespace Store

/-- Whether an update comes to a table that has to make its row. -/
def lacks (store : Store) (update : Update) : Bool :=
  (store.tables.get? update.tableName).any update.makesRow

theorem rows_of_failed_update {store : Store} {update : Update} {error : StoreError}
    (herror : (Store.update update store).1 = .error error) (name : String) :
    (Store.update update store).2.rows name =
      if name = update.tableName ∧ store.lacks update then store.rows name ++ [update.key]
      else store.rows name := by
  rw [lacks]
  rcases onTable_cases update.tableName update.applyTo store with
    ⟨hnone, hresult⟩ | ⟨table, htable, hresult⟩
  · rw [Store.update, hresult, hnone, if_neg (fun h => Bool.false_ne_true h.2)]
  · rw [Store.update, hresult] at herror ⊢
    by_cases hname : name = update.tableName
    · subst hname
      rw [rows, rows, Members.get?_set_self, htable]
      simpa using Update.rows_of_error herror
    · rw [rows, Members.get?_set_of_ne _ _ (Ne.symm hname), if_neg fun h => hname h.1, rows]

end Store

end KeyValue

/-! ### Collections -/

namespace Document

/-- Whether a collection has to make the document that an update goes to. -/
def Update.makesDocument (update : Update) (collection : Collection) : Bool :=
  update.upsert && (collection.find? update.filter).isNone

/-- A failed update leaves the documents, and the one it had to make. -/
theorem Update.documents_of_error {update : Update} {collection : Collection} {error : StoreError}
    (herror : (collection.apply update).1 = .error error) :
    (collection.apply update).2.documents =
      if update.makesDocument collection then collection.documents ++ [update.filter]
      else collection.documents := by
  rcases collection.apply_cases update with ⟨-, hresult⟩ | ⟨hidle, hresult⟩
  · rw [hresult] at herror
    cases herror
  rcases hresult with ⟨document, -, hresult⟩ | ⟨fault, hresult⟩
  · rw [hresult] at herror
    cases herror
  · rw [hresult, makesDocument]
    cases hfound : collection.find? update.filter with
    | some old => simp
    | none =>
        rw [hfound] at hidle
        cases hupsert : update.upsert with
        | true => rfl
        | false =>
            rw [hupsert] at hidle
            cases hidle

namespace Store

/-- Whether an update comes to a collection that has to make its document. -/
def lacks (store : Store) (name : String) (update : Update) : Bool :=
  (store.collections.get? name).any update.makesDocument

theorem documents_of_failed_update {store : Store} {target : String} {update : Update}
    {error : StoreError} (herror : (Store.update target update store).1 = .error error)
    (name : String) :
    (Store.update target update store).2.documents name =
      if name = target ∧ store.lacks target update then store.documents name ++ [update.filter]
      else store.documents name := by
  rw [lacks]
  rcases onCollection_cases target (fun collection => collection.apply update) store with
    ⟨hnone, hresult⟩ | ⟨collection, hcollection, hresult⟩
  · rw [Store.update, hresult, hnone, if_neg (fun h => Bool.false_ne_true h.2)]
  · rw [Store.update, hresult] at herror ⊢
    by_cases hname : name = target
    · subst hname
      rw [documents, documents, Members.get?_set_self, hcollection]
      simpa using Update.documents_of_error herror
    · rw [documents, Members.get?_set_of_ne _ _ (Ne.symm hname), if_neg fun h => hname h.1,
        documents]

end Store

end Document

/-! ### Both stores -/

/-- An update that fails leaves all rows of either store as they were, and of its own at most the
one that it had to make. -/
theorem failed_updates_leave_rows (tables : KeyValue.Store) (update : KeyValue.Update)
    (documents : Document.Store) (target : String) (change : Document.Update) :
    (∀ error, (KeyValue.Store.update update tables).1 = .error error →
      ∀ name, (KeyValue.Store.update update tables).2.rows name =
        if name = update.tableName ∧ tables.lacks update then tables.rows name ++ [update.key]
        else tables.rows name) ∧
    ∀ error, (Document.Store.update target change documents).1 = .error error →
      ∀ name, (Document.Store.update target change documents).2.documents name =
        if name = target ∧ documents.lacks target change then
          documents.documents name ++ [change.filter]
        else documents.documents name :=
  ⟨fun _ herror => KeyValue.Store.rows_of_failed_update herror,
    fun _ herror => Document.Store.documents_of_failed_update herror⟩

/-- What is in stock of an article. -/
def stockRows : List Record := [[("count", .nat 2), ("id", .string "a")]]

def stockTables : KeyValue.Store := { tables := [("stock", ⟨["id"], stockRows⟩)] }

def stockDocuments : Document.Store := { collections := [("stock", ⟨["id"], stockRows⟩)] }

/-- Counting by a text in the stock of an article. -/
def countInTable (id : String) : KeyValue.Update :=
  .adjust "stock" [("id", .string id)] ["count"] false (.string "x")

def countInDocument (id : String) : Document.Update :=
  (Document.Update.increment [("id", .string id)] ["count"] (.string "x")).upserting

/-- The article is in stock, and all rows are as they were. -/
theorem failed_count_leaves_stock :
    (∀ name, (KeyValue.Store.update (countInTable "a") stockTables).2.rows name =
      stockTables.rows name) ∧
    ∀ name, (Document.Store.update "stock" (countInDocument "a") stockDocuments).2.documents name =
      stockDocuments.documents name := by
  obtain ⟨htables, hdocuments⟩ := failed_updates_leave_rows stockTables (countInTable "a")
    stockDocuments "stock" (countInDocument "a")
  constructor
  · intro name
    rw [htables (.backend .notNumeric) rfl name]
    exact if_neg fun h => absurd h.2 (by decide)
  · intro name
    rw [hdocuments (.backend .notNumeric) rfl name]
    exact if_neg fun h => absurd h.2 (by decide)

/-- The article is not in stock, and there is a row of its key more after the update has failed. -/
theorem failed_count_adds_to_stock :
    (KeyValue.Store.update (countInTable "b") stockTables).1 = .error (.backend .notNumeric) ∧
    (KeyValue.Store.update (countInTable "b") stockTables).2.rows "stock" =
      stockTables.rows "stock" ++ [[("id", .string "b")]] ∧
    (Document.Store.update "stock" (countInDocument "b") stockDocuments).1 =
      .error (.backend .notNumeric) ∧
    (Document.Store.update "stock" (countInDocument "b") stockDocuments).2.documents "stock" =
      stockDocuments.documents "stock" ++ [[("id", .string "b")]] :=
  ⟨rfl, rfl, rfl, rfl⟩

end SchemaQuery
