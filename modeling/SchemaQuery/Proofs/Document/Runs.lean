import SchemaQuery.Proofs.Document.Writes

/-!
# Runs of writes to a collection

However the calls that write an entity follow each other, and whichever of them fail, the documents
of a collection that was empty at first have all key fields, and no two of them the same key. So an
update finds one document at most, and lays the fields that it assigns on this one.
-/

namespace SchemaQuery

open Record (AgreesOn KeyedBy)

namespace Document

variable {σ : Type}

/-! ### Runs -/

/-- A call in which no name has a point, which spares the key fields if it is a counter, and inserts
only what has them all. -/
structure Allowed (fields : List String) (call : Write) (rows : List Record) : Prop where
  spares : call.Spares fields
  undotted : Undotted call rows
  complete : ∀ args, call = .insert args → ∀ row ∈ rows, row.HasAll fields

namespace Gateway

variable {gateway : Gateway} {hooks : Hooks σ} {call : Write} {state : Store × σ}

/-- The state after calls, whatever their outcomes, each with hooks of its own. -/
def run (gateway : Gateway) (calls : List (Hooks σ × Write)) (state : Store × σ) : Store × σ :=
  calls.foldl (fun state call => (gateway.perform call.1 call.2 state).2) state

/-- Each call of a run is allowed, with the rows that its hooks leave when it is its turn. -/
def RunAllowed (gateway : Gateway) : List (Hooks σ × Write) → Store × σ → Prop
  | [], _ => True
  | (hooks, call) :: rest, state =>
      Allowed gateway.entity.layout.primaryKeys call (call.rows hooks state.2) ∧
        gateway.RunAllowed rest (gateway.perform hooks call state).2

/-- Where a call changes the store, its rows have all key fields. -/
theorem rows_hasAll {rows : List Record}
    (hallowed : Allowed gateway.entity.layout.primaryKeys call rows)
    (htakes : takesKeys call = true ∨ ∃ args, call = .insert args)
    (hnone : (if takesKeys call then rows.findSome? (gateway.entity.keyError? counts) else none) =
      none) : ∀ row ∈ rows, row.HasAll gateway.entity.layout.primaryKeys := by
  intro row hrow
  rcases htakes with htakes | ⟨args, hinsert⟩
  · rw [if_pos htakes, List.findSome?_eq_none_iff] at hnone
    obtain ⟨key, hkey⟩ := Entity.keyError?_eq_none.mp (hnone row hrow)
    exact Entity.hasAll_of_counted hkey
  · exact hallowed.complete args hinsert row hrow

/-- A call that neither takes keys nor inserts is a decrement that fails at once. -/
theorem perform_idle (htakes : ¬ (takesKeys call = true ∨ ∃ args, call = .insert args)) :
    (gateway.perform hooks call state).2.1 = state.1 := by
  cases call with
  | insert args => exact absurd (Or.inr ⟨args, rfl⟩) htakes
  | decrement key field delta =>
      have hnone : negated? delta = none := by
        rw [← Option.not_isSome_iff_eq_none]
        exact fun hsome => htakes (Or.inl hsome)
      rw [perform, decrement, hnone]
      rfl
  | update | remove | batchPut | batchRemove | increment | incrementMap =>
      exact absurd (Or.inl rfl) htakes

theorem perform_staysKeyed
    (hallowed : Allowed gateway.entity.layout.primaryKeys call (call.rows hooks state.2)) :
    Carries (Store.held? gateway.collection) gateway.entity.layout.primaryKeys
      (fun old new => KeyedBy gateway.entity.layout.primaryKeys old →
        KeyedBy gateway.entity.layout.primaryKeys new)
      state.1 (gateway.perform hooks call state).2.1 := by
  by_cases htakes : takesKeys call = true ∨ ∃ args, call = .insert args
  · rcases gateway.perform_settles hooks state call with ⟨error, -, hstore, -⟩ | ⟨hnone, hchanges⟩
    · exact .of_eq (fun _ => id) (congrArg _ hstore)
    · refine (hchanges.keepsApart hallowed.spares hallowed.undotted).mono
        fun old new hkeeps => hkeeps.keyedBy fun row hrow => ?_
      rw [Write.added] at hrow
      split at hrow
      next => exact absurd hrow List.not_mem_nil
      next =>
        rcases List.mem_append.mp hrow with hmem | hkey
        · exact rows_hasAll hallowed htakes hnone row hmem
        · obtain ⟨other, -, hkeyBy⟩ := Entity.mem_keysBy.mp hkey
          exact (Entity.isKeyOf_keyBy hkeyBy).2
  · exact .of_eq (fun _ => id) (congrArg _ (perform_idle htakes))

theorem run_staysKeyed {calls : List (Hooks σ × Write)}
    (hallowed : gateway.RunAllowed calls state) :
    Carries (Store.held? gateway.collection) gateway.entity.layout.primaryKeys
      (fun old new => KeyedBy gateway.entity.layout.primaryKeys old →
        KeyedBy gateway.entity.layout.primaryKeys new)
      state.1 (gateway.run calls state).1 := by
  induction calls generalizing state with
  | nil => exact .refl (fun _ => id) _
  | cons call rest ih =>
      obtain ⟨hfirst, hrest⟩ := hallowed
      exact (perform_staysKeyed hfirst).trans (fun _ _ _ hab hbc ha => hbc (hab ha)) (ih hrest)

end Gateway

/-! ### Updates -/

theorem Update.setAll_undotted {members : Record}
    (hundotted : ∀ member ∈ members, '.' ∉ member.1.toList) (document : Record) :
    setAll document members = .ok (Members.merge document members) := by
  induction members generalizing document with
  | nil => rfl
  | cons member rest ih =>
      obtain ⟨hfirst, hrest⟩ := List.forall_mem_cons.mp hundotted
      rw [setAll, pathOf_of_notMem hfirst, Record.setPath]
      exact ih hrest _

/-- What an update by a row makes of documents, and what it returns. Nothing is changed if no
document has the key; otherwise what the row assigns is laid on the only document that has it. -/
inductive Lays (layout : Layout) (row key : Record) :
    List Record → List Record → Option Record → Prop where
  | absent {documents : List Record} :
      (∀ document ∈ documents, document.hasKey key = false) →
      Lays layout row key documents documents none
  | present {before behind : List Record} {document kept : Record} :
      document.hasKey key = true → (∀ other ∈ before ++ behind, other.hasKey key = false) →
      kept.Sublist row → (∀ member, member ∈ kept ↔ member ∈ row ∧ layout.Assigns member) →
      Lays layout row key (before ++ document :: behind)
        (before ++ Members.merge document kept :: behind) (some (Members.merge document kept))

theorem Collection.apply_lays {entity : Entity} (unique : List String) {documents : List Record}
    {row key : Record}
    (hdistinct : documents.Pairwise fun a b => ¬ a.AgreesOn entity.layout.primaryKeys b)
    (hkey : entity.keyBy counts row = .ok key) (hundotted : ∀ member ∈ row, '.' ∉ member.1.toList) :
    ∃ new result,
      Collection.apply ⟨unique, documents⟩
          { filter := key, set := entity.layout.assigned row.withoutBlanks } =
        (.ok result, ⟨unique, new⟩) ∧
      Lays entity.layout row key documents new result := by
  have hassigned : ∀ member ∈ entity.layout.assigned row.withoutBlanks, '.' ∉ member.1.toList :=
    fun member hmember => hundotted member ((entity.layout.mem_assigned row member).mp hmember).1
  cases hfind : documents.find? (fun document => document.hasKey key) with
  | none =>
      refine ⟨documents, none, ?_, .absent (by simpa using hfind)⟩
      rw [apply, find?, hfind]
      rfl
  | some document =>
      obtain ⟨hhas, before, behind, rfl, hbefore⟩ := List.find?_eq_some_iff_append.mp hfind
      have hnone : ∀ other ∈ before, other.hasKey key = false := by simpa using hbefore
      have hothers : ∀ other ∈ before ++ behind, other.hasKey key = false := by
        refine List.forall_mem_append.mpr ⟨hnone, fun other hother => ?_⟩
        have hapart := (List.pairwise_cons.mp (List.pairwise_append.mp hdistinct).2.1).1
        obtain ⟨hkeyOf, -⟩ := Entity.isKeyOf_keyBy hkey
        refine Bool.eq_false_iff.mpr fun hsame => hapart other hother ?_
        exact ((hkeyOf document).mp hhas).2.trans ((hkeyOf other).mp hsame).2.symm
      refine ⟨_, _, ?_, .present hhas hothers (List.filter_sublist.trans List.filter_sublist)
        (entity.layout.mem_assigned row)⟩
      simp only [apply, find?, hfind, Update.change, Option.getD_some,
        Update.setAll_undotted hassigned, Update.addAll, Record.put_append hnone hhas]
      rfl

namespace Gateway

variable {gateway : Gateway} {hooks : Hooks σ} {args row key : Record} {store : Store}
  {state hooked : σ} {unique : List String} {documents : List Record}

theorem keyBy_of_keyOf (hkey : gateway.keyOf row = .ok key) :
    gateway.entity.keyBy counts row = .ok key := by
  rw [keyOf_eq] at hkey
  cases hkeyBy : gateway.entity.keyBy counts row with
  | error error =>
      rw [hkeyBy] at hkey
      cases hkey
  | ok other =>
      rw [hkeyBy] at hkey
      exact congrArg _ (Except.ok.inj hkey)

/-- An update of a row with a key: what the store makes of it, and what the hook after it says. -/
theorem update_lays (hbefore : hooks.beforeWrite args true state = (.ok row, hooked))
    (hkey : gateway.keyOf row = .ok key) (hundotted : ∀ member ∈ row, '.' ∉ member.1.toList)
    (hcollection : store.collections.get? gateway.collection = some ⟨unique, documents⟩)
    (hdistinct : documents.Pairwise fun a b =>
      ¬ a.AgreesOn gateway.entity.layout.primaryKeys b) :
    ∃ new result, Lays gateway.entity.layout row key documents new result ∧
      gateway.update hooks args (store, state) =
        let told := hooks.afterWrite gateway.name .update row gateway.rangeKey result hooked
        (told.1.map fun _ => result,
          { store with
            collections := store.collections.set gateway.collection ⟨unique, new⟩ }, told.2) := by
  have hkeyBy := keyBy_of_keyOf hkey
  obtain ⟨new, result, happly, hlays⟩ :=
    Collection.apply_lays unique hdistinct hkeyBy hundotted
  refine ⟨new, result, hlays, ?_⟩
  have hbuild : Update.build gateway.entity row =
      .ok { filter := key, set := gateway.entity.layout.assigned row.withoutBlanks } := by
    rw [Update.build_eq, hkeyBy]
    rfl
  have hupdate : Store.update gateway.collection
      { filter := key, set := gateway.entity.layout.assigned row.withoutBlanks } store =
        (.ok result, { store with
          collections := store.collections.set gateway.collection ⟨unique, new⟩ }) := by
    simp only [Store.update, Store.onCollection, Store.collection, hcollection, happly]
  rw [update, Action.bind_apply, Action.second_apply, hbefore]
  dsimp only
  rw [hbuild, Action.ofExcept_mapError_bind]
  simp only [Action.bind_apply, Action.attempt_first_of_ok hupdate, Action.second_apply,
    Action.pure_apply]
  cases hooks.afterWrite gateway.name .update row gateway.rangeKey result hooked with
  | mk told after => cases told <;> rfl

/-- An update that goes well is one of a row with a key. -/
theorem exists_key_of_update {result : Option Record} {after : Store × σ}
    (hupdate : gateway.update hooks args (store, state) = (.ok result, after)) :
    ∃ row hooked key, hooks.beforeWrite args true state = (.ok row, hooked) ∧
      gateway.keyOf row = .ok key := by
  rw [update, Action.bind_apply, Action.second_apply] at hupdate
  cases hbefore : hooks.beforeWrite args true state with
  | mk outcome hooked =>
      cases outcome with
      | error error =>
          rw [hbefore] at hupdate
          cases hupdate
      | ok row =>
          rcases Update.build_cases gateway.entity row with
            ⟨built, hbuilt, -⟩ | ⟨error, -, hbuild⟩
          · refine ⟨row, hooked, built.filter, rfl, ?_⟩
            rw [keyOf_eq, hbuilt.1]
            rfl
          · simp only [hbefore, hbuild] at hupdate
            cases hupdate

/-- **Keyed documents.** A collection that was empty, with the primary keys for its unique fields:
in the course of calls that name no field with a point, insert only what has all key fields and
count in none of these, whichever of them fail, all documents have all key fields and no two agree
on them (where there are no key fields, nothing tells documents apart). Whenever an update goes well
then, the hook before it has left a row with a key; and an update of such a row, whatever the hook
after it says, changes no document and returns none if none has the key, and otherwise lays what the
row assigns on the only one that has it, and returns that. -/
theorem run_keeps_documents_keyed (gateway : Gateway) {unique : List String}
    (hfields : ∀ field, field ∈ unique ↔ field ∈ gateway.entity.layout.primaryKeys)
    {calls : List (Hooks σ × Write)} {start : Store × σ}
    (hempty : start.1.collections.get? gateway.collection = some ⟨unique, []⟩)
    (hallowed : gateway.RunAllowed calls start) :
    let layout := gateway.entity.layout
    let reached := gateway.run calls start
    ∃ documents, reached.1.collections.get? gateway.collection = some ⟨unique, documents⟩ ∧
      (∀ document ∈ documents, ∀ field ∈ layout.primaryKeys, (document.get? field).isSome) ∧
      (layout.primaryKeys ≠ [] →
        documents.Pairwise fun a b => ¬ a.AgreesOn layout.primaryKeys b) ∧
      (∀ (hooks : Hooks σ) (args : Record) (result : Option Record) (after : Store × σ),
        gateway.update hooks args reached = (.ok result, after) →
        ∃ row hooked key, hooks.beforeWrite args true reached.2 = (.ok row, hooked) ∧
          gateway.keyOf row = .ok key) ∧
      ∀ (hooks : Hooks σ) (args row key : Record) (hooked : σ),
        hooks.beforeWrite args true reached.2 = (.ok row, hooked) → gateway.keyOf row = .ok key →
        (∀ member ∈ row, '.' ∉ member.1.toList) →
        ∃ new result, Lays layout row key documents new result ∧
          gateway.update hooks args reached =
            let told := hooks.afterWrite gateway.name .update row gateway.rangeKey result hooked
            (told.1.map fun _ => result,
              { reached.1 with
                collections := reached.1.collections.set gateway.collection ⟨unique, new⟩ },
              told.2) := by
  intro layout reached
  obtain ⟨documents, hheld, hkeeps⟩ := run_staysKeyed hallowed ⟨unique, []⟩
    (Store.held?_eq_some.mpr hempty) hfields
  have hkeyed := hkeeps (Record.keyedBy_nil _)
  have hcollection := Store.held?_eq_some.mp hheld
  refine ⟨documents, hcollection, hkeyed.complete, hkeyed.distinct,
    fun hooks args result after => exists_key_of_update, ?_⟩
  intro hooks args row key hooked hbefore hkey hundotted
  have hne : layout.primaryKeys ≠ [] := Entity.primaryKeys_ne_nil (keyBy_of_keyOf hkey)
  exact update_lays hbefore hkey hundotted hcollection (hkeyed.distinct hne)

/-- Copies of books, by book and number, which can be read by who has them. -/
def loans : Gateway where
  entity := ⟨⟨"loans", [("book", { type := .string, isHashKey := true }),
    ("copy", { type := .number, isRangeKey := true }),
    ("reader", { type := .string, isLocalIndex := true }), ("times", { type := .number })],
    by decide⟩, by decide⟩
  config := {}
  accepted := Config.fault?_default

def loan (book : String) (copy : Nat) (rest : Record) : Record :=
  [("book", .string book), ("copy", .nat copy)] ++ rest

/-- The second insertion fails, and so does the counter. -/
def loanCalls : List (Hooks Unit × Write) :=
  [(.none, .insert (loan "a" 1 [("reader", .string "r"), ("times", .nat 1)])),
    (.none, .insert (loan "a" 1 [])),
    (.none, .batchPut [loan "a" 2 [("times", .nat 4)], loan "b" 1 []]),
    (.none, .increment (loan "a" 1 []) "times" (.string "x")),
    (.none, .remove (loan "a" 2 []))]

def loanStore : Store := ({} : Store).declare "loans" ["book", "copy"]

/-- The reader cannot be made empty; the times are counted anew, and the rest is dropped. -/
def returnedLoan : Record :=
  loan "a" 1 [("note", .null), ("reader", .string ""), ("times", .nat 2)]

theorem loans_stay_keyed :
    ∃ documents new result, (loans.run loanCalls (loanStore, ())).1.collections.get? "loans" =
        some ⟨["book", "copy"], documents⟩ ∧
      (documents.Pairwise fun a b => ¬ a.AgreesOn ["book", "copy"] b) ∧
      Lays loans.entity.layout returnedLoan (loan "a" 1 []) documents new result ∧
      (loans.update .none returnedLoan (loans.run loanCalls (loanStore, ()))).1 = .ok result := by
  have hallowed : loans.RunAllowed loanCalls (loanStore, ()) := by
    refine ⟨⟨by decide, by decide, ?_⟩, ⟨by decide, by decide, ?_⟩, ⟨by decide, by decide, ?_⟩,
      ⟨by decide, by decide, ?_⟩, ⟨by decide, by decide, ?_⟩, trivial⟩
    · exact fun _ _ => by decide
    · exact fun _ _ => by decide
    · exact fun _ hinsert => by cases hinsert
    · exact fun _ hinsert => by cases hinsert
    · exact fun _ hinsert => by cases hinsert
  obtain ⟨documents, hcollection, -, hdistinct, -, hupdate⟩ :=
    loans.run_keeps_documents_keyed (fun _ => Iff.rfl) rfl hallowed
  obtain ⟨new, result, hlays, hresult⟩ :=
    hupdate .none returnedLoan returnedLoan (loan "a" 1 []) () rfl rfl (by decide)
  refine ⟨documents, new, result, hcollection, hdistinct (by decide), hlays, ?_⟩
  rw [hresult]
  rfl

example : (loans.run loanCalls (loanStore, ())).1.documents "loans" =
    [loan "a" 1 [("reader", .string "r"), ("times", .nat 1)], loan "b" 1 []] := by rfl

end Gateway

end Document

end SchemaQuery
