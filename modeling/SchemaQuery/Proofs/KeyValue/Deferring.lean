import SchemaQuery.Proofs.Json.Storing
import SchemaQuery.Proofs.KeyValue.Writes

/-!
# Batches against deferred writes

A store that was told to leave writes of some keys leaves each of them so many times. A round of a
batch stores the items whose count is used up and takes one from the counts of the others, so that a
chunk drains if every count is smaller than the number of attempts, and otherwise leaves the items
with larger ones. Counts belong to keys, so items with other keys never see the difference.
-/

namespace SchemaQuery

open Record (AgreesOn KeyedBy StoredIn)

variable {fields : List String}

/-- Keys that hold the fields and nothing else, and no two of which are the same. -/
structure Record.FullKeys (fields : List String) (keys : List Record) : Prop where
  full : ∀ key ∈ keys, (key.map Prod.fst).Nodup ∧
    ∀ field, field ∈ key.map Prod.fst ↔ field ∈ fields
  distinct : keys.Pairwise fun a b => ¬ a.AgreesOn fields b

theorem Record.FullKeys.isKeyOf {keys : List Record} (hkeys : FullKeys fields keys) {key : Record}
    (hkey : key ∈ keys) : IsKeyOf fields key key := by
  obtain ⟨hnodup, hnames⟩ := hkeys.full key hkey
  apply isKeyOf_of_mem_iff
  · intro field hfield
    obtain ⟨member, hmember, rfl⟩ := List.mem_map.mp ((hnames field).mpr hfield)
    rw [Members.get?_eq_some_of_mem hnodup hmember]
    rfl
  · intro member
    constructor
    · intro hmember
      exact ⟨(hnames _).mp (List.mem_map_of_mem hmember),
        Members.get?_eq_some_of_mem hnodup hmember⟩
    · rintro ⟨-, hvalue⟩
      exact Members.mem_of_get?_eq_some hvalue

namespace KeyValue

/-! ### Deferrals -/

/-- How often a write of an item is still left: what the deferral of its key says. -/
def timesDeferred (deferrals : List Deferral) (item : Record) : Nat :=
  ((deferrals.find? fun deferral => item.hasKey deferral.key).map Deferral.times).getD 0

section Deferrals

variable {deferrals : List Deferral}

theorem timesDeferred_cons (deferral : Deferral) (rest : List Deferral) (item : Record) :
    timesDeferred (deferral :: rest) item =
      if item.hasKey deferral.key then deferral.times else timesDeferred rest item := by
  unfold timesDeferred
  rw [List.find?_cons]
  cases item.hasKey deferral.key <;> rfl

/-- An item without a deferral of its own is never left. -/
theorem timesDeferred_eq_zero {item : Record}
    (hnone : ∀ deferral ∈ deferrals, item.hasKey deferral.key = false) :
    timesDeferred deferrals item = 0 := by
  have hfind : deferrals.find? (fun deferral => item.hasKey deferral.key) = none := by
    simpa using hnone
  rw [timesDeferred, hfind]
  rfl

/-- A deferral is taken exactly if there is a count for the item, which is one less then. The counts
of items with other keys stay. -/
theorem takeDeferral_spec (hkeys : Record.FullKeys fields (deferrals.map Deferral.key))
    (item : Record) :
    (Store.takeDeferral item deferrals = none ∧ timesDeferred deferrals item = 0) ∨
    ∃ after, Store.takeDeferral item deferrals = some after ∧
      after.map Deferral.key = deferrals.map Deferral.key ∧
      timesDeferred deferrals item = timesDeferred after item + 1 ∧
      ∀ other : Record, ¬ other.AgreesOn fields item →
        timesDeferred after other = timesDeferred deferrals other := by
  induction deferrals with
  | nil => exact Or.inl ⟨rfl, rfl⟩
  | cons deferral rest ih =>
      have hkey := hkeys.isKeyOf List.mem_cons_self
      obtain ⟨hapart, hdistinct⟩ := List.pairwise_cons.mp hkeys.distinct
      have hrest : Record.FullKeys fields (rest.map Deferral.key) :=
        ⟨fun key hmem => hkeys.full key (List.mem_cons_of_mem _ hmem), hdistinct⟩
      simp only [timesDeferred_cons]
      rw [Store.takeDeferral]
      by_cases hhas : item.hasKey deferral.key = true
      · obtain ⟨-, hagree⟩ := (hkey item).mp hhas
        have hothers : ∀ other : Record, ¬ other.AgreesOn fields item →
            other.hasKey deferral.key = false := by
          intro other hdiffer
          refine Bool.eq_false_iff.mpr fun hother => hdiffer ?_
          exact ((hkey other).mp hother).2.trans hagree.symm
        by_cases hleft : 0 < deferral.times
        · refine Or.inr ⟨_, if_pos ⟨hleft, hhas⟩, rfl, ?_, ?_⟩
          · simp only [timesDeferred_cons, hhas, if_true]
            omega
          · intro other hdiffer
            simp [timesDeferred_cons, hothers other hdiffer]
        · -- No other deferral has a key of the item.
          have hnone : ∀ other ∈ rest, item.hasKey other.key = false := by
            intro other hother
            have hmem := List.mem_map_of_mem (f := Deferral.key) hother
            refine Bool.eq_false_iff.mpr fun hsame => hapart _ hmem (hagree.symm.trans ?_)
            exact ((hrest.isKeyOf hmem item).mp hsame).2
          rcases ih hrest with ⟨htake, -⟩ | ⟨after, -, -, hcount, -⟩
          · refine Or.inl ⟨?_, ?_⟩
            · rw [if_neg fun hboth => hleft hboth.1, htake, Option.map_none]
            · rw [if_pos hhas]
              omega
          · rw [timesDeferred_eq_zero hnone] at hcount
            omega
      · rw [if_neg fun hboth => hhas hboth.2, if_neg hhas]
        rcases ih hrest with ⟨htake, hcount⟩ | ⟨after, htake, hsame, hcount, hothers⟩
        · exact Or.inl ⟨by rw [htake, Option.map_none], hcount⟩
        · refine Or.inr ⟨deferral :: after, by rw [htake, Option.map_some], ?_, ?_, ?_⟩
          · rw [List.map_cons, List.map_cons, hsame]
          · rw [timesDeferred_cons, if_neg hhas, hcount]
          · intro other hdiffer
            rw [timesDeferred_cons, hothers other hdiffer]

end Deferrals

/-! ### Rounds -/

/-- What puts have made of a store: the table has the items that were stored, and the deferrals are
by the same keys, with the same counts for all items with other keys than those given. -/
structure Advanced (name : String) (fields : List String) (table : Table)
    (given stored : List Record) (store after : Store) : Prop where
  table : after.tables.get? name = some (stored.foldl Table.upsert table)
  keys : after.deferrals.map Deferral.key = store.deferrals.map Deferral.key
  others : ∀ other : Record, (∀ item ∈ given, ¬ other.AgreesOn fields item) →
    timesDeferred after.deferrals other = timesDeferred store.deferrals other

section Rounds

variable {name : String} {table : Table} {given more stored further items : List Record}
  {store mid after : Store}

theorem Advanced.mono (hadvanced : Advanced name fields table given stored store after)
    (hgiven : ∀ item ∈ given, item ∈ more) :
    Advanced name fields table more stored store after where
  table := hadvanced.table
  keys := hadvanced.keys
  others other hother := hadvanced.others other fun item hitem => hother item (hgiven item hitem)

theorem Advanced.trans (hfirst : Advanced name fields table given stored store mid)
    (hsecond : Advanced name fields (stored.foldl Table.upsert table) given further mid after) :
    Advanced name fields table given (stored ++ further) store after where
  table := by
    rw [List.foldl_append]
    exact hsecond.table
  keys := hsecond.keys.trans hfirst.keys
  others other hother := (hsecond.others other hother).trans (hfirst.others other hother)

/-- Of the items put, those with a count are left, with one less, and the others are stored. -/
theorem process_puts {deferrals : List Deferral}
    (hkeys : Record.FullKeys fields (deferrals.map Deferral.key))
    (hitems : items.Pairwise fun a b => ¬ a.AgreesOn fields b) (table : Table) :
    ∃ after, Store.process (items.map .put) table deferrals =
        ((items.filter (0 < timesDeferred deferrals ·)).map .put,
          (items.filter (timesDeferred deferrals · = 0)).foldl Table.upsert table, after) ∧
      after.map Deferral.key = deferrals.map Deferral.key ∧
      (∀ item ∈ items, timesDeferred after item = timesDeferred deferrals item - 1) ∧
      ∀ other : Record, (∀ item ∈ items, ¬ other.AgreesOn fields item) →
        timesDeferred after other = timesDeferred deferrals other := by
  induction items generalizing table deferrals with
  | nil => exact ⟨deferrals, rfl, rfl, by simp, fun _ _ => rfl⟩
  | cons item rest ih =>
      obtain ⟨hapart, hrest⟩ := List.pairwise_cons.mp hitems
      rw [List.map_cons, Store.process]
      rcases takeDeferral_spec hkeys item with ⟨htake, hcount⟩ | ⟨mid, htake, hmid, hcount, hothers⟩
      · obtain ⟨after, hprocess, hsame, hless, hothers⟩ := ih hkeys hrest (table.upsert item)
        refine ⟨after, ?_, hsame, ?_, ?_⟩
        · simp only [WriteRequest.attributes, htake, Store.applyRequest, hprocess]
          rw [List.filter_cons_of_neg (by simp [hcount]),
            List.filter_cons_of_pos (by simp [hcount]), List.foldl_cons]
        · refine List.forall_mem_cons.mpr ⟨?_, hless⟩
          rw [hothers item hapart, hcount]
        · intro other hother
          exact hothers other fun item hitem => hother item (List.mem_cons_of_mem _ hitem)
      · have hkeys' : Record.FullKeys fields (mid.map Deferral.key) := hmid.symm ▸ hkeys
        obtain ⟨after, hprocess, hsame, hless, hothers'⟩ := ih hkeys' hrest table
        have hcounts : ∀ other ∈ rest, timesDeferred mid other = timesDeferred deferrals other :=
          fun other hother => hothers other fun hagree => hapart other hother hagree.symm
        have hleft : rest.filter (0 < timesDeferred mid ·) =
            rest.filter (0 < timesDeferred deferrals ·) :=
          List.filter_congr fun other hother => by rw [hcounts other hother]
        have hstored : rest.filter (timesDeferred mid · = 0) =
            rest.filter (timesDeferred deferrals · = 0) :=
          List.filter_congr fun other hother => by rw [hcounts other hother]
        refine ⟨after, ?_, hsame.trans hmid, ?_, ?_⟩
        · simp only [WriteRequest.attributes, htake, hprocess, hleft, hstored]
          rw [List.filter_cons_of_pos (by simp [hcount]),
            List.filter_cons_of_neg (by simp [hcount]), List.map_cons]
        · refine List.forall_mem_cons.mpr ⟨?_, fun other hother => ?_⟩
          · rw [hothers' item hapart, hcount, Nat.add_sub_cancel]
          · rw [hless other hother, hcounts other hother]
        · intro other hother
          obtain ⟨hfirst, hbehind⟩ := List.forall_mem_cons.mp hother
          rw [hothers' other hbehind, hothers other hfirst]

theorem batchWrite_puts (htable : store.tables.get? name = some table)
    (hkeys : Record.FullKeys fields (store.deferrals.map Deferral.key))
    (hitems : items.Pairwise fun a b => ¬ a.AgreesOn fields b) :
    ∃ after, Store.batchWrite name (items.map .put) store =
        (.ok ((items.filter (0 < timesDeferred store.deferrals ·)).map .put), after) ∧
      Advanced name fields table items (items.filter (timesDeferred store.deferrals · = 0))
        store after ∧
      ∀ item ∈ items,
        timesDeferred after.deferrals item = timesDeferred store.deferrals item - 1 := by
  obtain ⟨deferrals, hprocess, hsame, hless, hothers⟩ := process_puts hkeys hitems table
  rw [Store.batchWrite]
  simp only [Store.table, htable, hprocess]
  exact ⟨_, rfl, ⟨Members.get?_set_self .., hsame, hothers⟩, hless⟩

/-! ### Chunks -/

/-- How a chunk ends that leaves some requests at its last attempt. -/
def endingWith : List WriteRequest → Drained
  | [] => .done
  | request :: rest => .unprocessed (request :: rest)

/-- A chunk is submitted until the counts are used up or the attempts are: the items with as many
attempts as retries or fewer are stored, and the others are left. -/
theorem drain_puts (policy : RetryPolicy) (retries retry : Nat)
    (htable : store.tables.get? name = some table)
    (hkeys : Record.FullKeys fields (store.deferrals.map Deferral.key))
    (hitems : items.Pairwise fun a b => ¬ a.AgreesOn fields b) :
    ∃ events after stored,
      Batch.drain (Store.batchWrite name) policy retries retry (items.map .put) store =
        (endingWith ((items.filter (retries < timesDeferred store.deferrals ·)).map .put),
          events, after) ∧
      stored.Perm (items.filter (timesDeferred store.deferrals · ≤ retries)) ∧
      Advanced name fields table items stored store after := by
  induction retries generalizing retry items store table with
  | zero =>
      obtain ⟨after, hsubmit, hadvanced, -⟩ := batchWrite_puts htable hkeys hitems
      refine ⟨[.submitted (items.map .put)], after, _, ?_, ?_, hadvanced⟩
      · rw [Batch.drain, hsubmit]
        cases (items.filter (0 < timesDeferred store.deferrals ·)).map WriteRequest.put <;> rfl
      · simp
  | succ retries ih =>
      obtain ⟨mid, hsubmit, hfirst, hless⟩ := batchWrite_puts htable hkeys hitems
      generalize hleft : items.filter (0 < timesDeferred store.deferrals ·) = left at hsubmit
      have hmem : ∀ item ∈ left, item ∈ items ∧ 0 < timesDeferred store.deferrals item := by
        intro item hitem
        simpa [← hleft] using hitem
      -- An item that is left is counted from one less.
      have hmore : left.filter (retries < timesDeferred mid.deferrals ·) =
          items.filter (retries + 1 < timesDeferred store.deferrals ·) := by
        rw [← hleft, List.filter_filter]
        apply List.filter_congr
        intro item hitem
        rw [hless item hitem, ← Bool.decide_and, decide_eq_decide]
        omega
      have hstored : (items.filter (timesDeferred store.deferrals · = 0) ++
          left.filter (timesDeferred mid.deferrals · ≤ retries)).Perm
            (items.filter (timesDeferred store.deferrals · ≤ retries + 1)) := by
        have hall := List.filter_append_perm
          (fun item => decide (timesDeferred store.deferrals item = 0))
          (items.filter (timesDeferred store.deferrals · ≤ retries + 1))
        convert hall using 2
        · rw [List.filter_filter]
          apply List.filter_congr
          intro item _
          rw [← Bool.decide_and, decide_eq_decide]
          omega
        · rw [← hleft, List.filter_filter, List.filter_filter]
          apply List.filter_congr
          intro item hitem
          rw [hless item hitem, ← Bool.decide_and, ← decide_not, ← Bool.decide_and,
            decide_eq_decide]
          omega
      rw [Batch.drain, hsubmit, ← hmore]
      cases left with
      | nil => exact ⟨_, mid, _, rfl, by simpa using hstored, hfirst⟩
      | cons first rest =>
          obtain ⟨events, after, further, hdrain, hperm, hsecond⟩ := ih (retry + 1) hfirst.table
            (hfirst.keys ▸ hkeys) (hitems.sublist (hleft ▸ List.filter_sublist))
          have hsecond' := hsecond.mono fun item hitem => (hmem item hitem).1
          refine ⟨.submitted (items.map .put) :: .waited (policy.delay retry).toNat :: events,
            after, _, ?_, (hperm.append_left _).trans hstored, hfirst.trans hsecond'⟩
          rw [List.map_cons] at hdrain ⊢
          simp only [hdrain]

end Rounds

/-! ### Runs -/

/-- How a run of puts ends by the counts of the items, and what it has stored by then. Chunks are
stored one after the other while every count is smaller than the number of attempts. In the first
chunk with a larger one the items with smaller ones are still stored; the others are reported, and
all items of later chunks. -/
inductive PutsEnd (attempts : Nat) (times : Record → Nat) :
    List (List Record) → Except StoreError Unit → List Record → Prop where
  | done : PutsEnd attempts times [] (.ok ()) []
  | next {chunk stored : List Record} {batches : List (List Record)}
      {result : Except StoreError Unit} : (∀ item ∈ chunk, times item < attempts) →
      PutsEnd attempts times batches result stored →
      PutsEnd attempts times (chunk :: batches) result (chunk ++ stored)
  | gaveUp {chunk : List Record} {batches : List (List Record)} :
      (∃ item ∈ chunk, attempts ≤ times item) →
      PutsEnd attempts times (chunk :: batches)
        (.error (.unprocessedItems attempts
          ((chunk.filter (attempts ≤ times ·) ++ batches.flatten).map .put)))
        (chunk.filter (times · < attempts))

section Runs

variable {attempts : Nat} {times others : Record → Nat} {batches : List (List Record)}
  {result : Except StoreError Unit} {stored : List Record}

theorem PutsEnd.congr (hends : PutsEnd attempts times batches result stored)
    (hsame : ∀ item ∈ batches.flatten, others item = times item) :
    PutsEnd attempts others batches result stored := by
  induction hends with
  | done => exact .done
  | next hless _ ih =>
      obtain ⟨hchunk, hrest⟩ := List.forall_mem_append.mp hsame
      exact .next (fun item hitem => hchunk item hitem ▸ hless item hitem) (ih hrest)
  | @gaveUp chunk batches hmore =>
      obtain ⟨hchunk, -⟩ := List.forall_mem_append.mp hsame
      have hleft : chunk.filter (attempts ≤ times ·) = chunk.filter (attempts ≤ others ·) :=
        List.filter_congr fun item hitem => by rw [hchunk item hitem]
      have hkept : chunk.filter (times · < attempts) = chunk.filter (others · < attempts) :=
        List.filter_congr fun item hitem => by rw [hchunk item hitem]
      obtain ⟨item, hitem, hle⟩ := hmore
      rw [hleft, hkept]
      exact .gaveUp ⟨item, hitem, hchunk item hitem ▸ hle⟩

theorem PutsEnd.sublist (hends : PutsEnd attempts times batches result stored) :
    stored.Sublist batches.flatten := by
  induction hends with
  | done => exact .refl _
  | next _ _ ih => exact ih.append_left _
  | gaveUp => exact List.filter_sublist.trans (List.sublist_append_left _ _)

/-- A run goes well if all counts are small enough. -/
theorem PutsEnd.of_forall_lt (hends : PutsEnd attempts times batches result stored)
    (hless : ∀ item ∈ batches.flatten, times item < attempts) :
    result = .ok () ∧ stored = batches.flatten := by
  induction hends with
  | done => exact ⟨rfl, rfl⟩
  | next _ _ ih =>
      obtain ⟨-, hrest⟩ := List.forall_mem_append.mp hless
      obtain ⟨rfl, rfl⟩ := ih hrest
      exact ⟨rfl, rfl⟩
  | gaveUp hmore =>
      obtain ⟨hchunk, -⟩ := List.forall_mem_append.mp hless
      obtain ⟨item, hitem, hle⟩ := hmore
      exact absurd (hchunk item hitem) (Nat.not_lt.mpr hle)

/-- Otherwise it gives up at the first chunk with a count that is too large. -/
theorem PutsEnd.of_exists_le (hends : PutsEnd attempts times batches result stored)
    (hmore : ∃ item ∈ batches.flatten, attempts ≤ times item) :
    ∃ before chunk rest, batches = before ++ chunk :: rest ∧
      (∀ item ∈ before.flatten, times item < attempts) ∧
      (∃ item ∈ chunk, attempts ≤ times item) ∧
      result = .error (.unprocessedItems attempts
        ((chunk.filter (attempts ≤ times ·) ++ rest.flatten).map .put)) ∧
      stored = before.flatten ++ chunk.filter (times · < attempts) := by
  induction hends with
  | done =>
      obtain ⟨item, hitem, -⟩ := hmore
      exact absurd hitem List.not_mem_nil
  | @next chunk stored batches result hless _ ih =>
      obtain ⟨item, hitem, hle⟩ := hmore
      have hbehind : item ∈ batches.flatten := by
        rcases List.mem_append.mp hitem with hmem | hmem
        · exact absurd (hless item hmem) (Nat.not_lt.mpr hle)
        · exact hmem
      obtain ⟨before, failing, rest, rfl, hbefore, hfailing, rfl, rfl⟩ := ih ⟨item, hbehind, hle⟩
      refine ⟨chunk :: before, failing, rest, rfl, ?_, hfailing, rfl, ?_⟩
      · exact List.forall_mem_append.mpr ⟨hless, hbefore⟩
      · rw [List.flatten_cons, List.append_assoc]
  | @gaveUp chunk batches hchunk =>
      exact ⟨[], chunk, batches, rfl, by simp, hchunk, rfl, rfl⟩

theorem driveChunks_puts (policy : RetryPolicy) {name : String} {table : Table} {store : Store}
    (htable : store.tables.get? name = some table)
    (hkeys : Record.FullKeys fields (store.deferrals.map Deferral.key))
    (hitems : batches.flatten.Pairwise fun a b => ¬ a.AgreesOn fields b) :
    ∃ result events after given stored,
      Batch.driveChunks (Store.batchWrite name) policy (batches.map (List.map .put)) store =
        (result, events, after) ∧
      PutsEnd policy.attempts (timesDeferred store.deferrals) batches result given ∧
      stored.Perm given ∧ Advanced name fields table batches.flatten stored store after := by
  have hpos : 0 < policy.attempts := Nat.le_max_right _ _
  induction batches generalizing store table with
  | nil => exact ⟨_, _, store, [], [], rfl, .done, .refl _, htable, rfl, fun _ _ => rfl⟩
  | cons chunk rest ih =>
      rw [List.flatten_cons] at hitems ⊢
      obtain ⟨hchunk, hrest, hdiffer⟩ := List.pairwise_append.mp hitems
      obtain ⟨events, mid, stored, hdrain, hperm, hfirst⟩ :=
        drain_puts policy (policy.attempts - 1) 0 htable hkeys hchunk
      rw [List.map_cons, Batch.driveChunks, hdrain]
      have hmore : chunk.filter (policy.attempts - 1 < timesDeferred store.deferrals ·) =
          chunk.filter (policy.attempts ≤ timesDeferred store.deferrals ·) := by
        apply List.filter_congr
        intro item _
        rw [decide_eq_decide]
        omega
      have hless : chunk.filter (timesDeferred store.deferrals · ≤ policy.attempts - 1) =
          chunk.filter (timesDeferred store.deferrals · < policy.attempts) := by
        apply List.filter_congr
        intro item _
        rw [decide_eq_decide]
        omega
      rw [hless] at hperm
      rw [hmore]
      by_cases hfull : ∃ item ∈ chunk, policy.attempts ≤ timesDeferred store.deferrals item
      · obtain ⟨item, hitem, hle⟩ := hfull
        have hleft : item ∈ chunk.filter (policy.attempts ≤ timesDeferred store.deferrals ·) :=
          List.mem_filter.mpr ⟨hitem, decide_eq_true hle⟩
        refine ⟨_, events, mid, _, stored, ?_, .gaveUp ⟨item, hitem, hle⟩, hperm,
          hfirst.mono fun item hitem => List.mem_append_left _ hitem⟩
        rw [List.map_append, List.map_flatten]
        revert hleft
        cases chunk.filter (policy.attempts ≤ timesDeferred store.deferrals ·) with
        | nil => exact fun hnil => absurd hnil List.not_mem_nil
        | cons => exact fun _ => rfl
      · have hdone : ∀ item ∈ chunk, timesDeferred store.deferrals item < policy.attempts := by
          intro item hitem
          exact Nat.lt_of_not_le fun hle => hfull ⟨item, hitem, hle⟩
        have hsame : ∀ item ∈ rest.flatten,
            timesDeferred mid.deferrals item = timesDeferred store.deferrals item := by
          intro item hitem
          exact hfirst.others item fun other hother hagree =>
            hdiffer other hother item hitem hagree.symm
        obtain ⟨result, more, after, given, further, hdrive, hends, hperm', hsecond⟩ :=
          ih hfirst.table (hfirst.keys ▸ hkeys) hrest
        rw [List.filter_eq_self.mpr (by simpa using hdone)] at hperm
        rw [List.filter_eq_nil_iff.mpr (by simpa using hdone), List.map_nil, endingWith]
        refine ⟨result, events ++ more, after, chunk ++ given, stored ++ further, ?_,
          .next hdone (hends.congr fun item hitem => (hsame item hitem).symm),
          hperm.append hperm', ?_⟩
        · simp only [hdrive]
        · exact (hfirst.mono fun item hitem => List.mem_append_left _ hitem).trans
            (hsecond.mono fun item hitem => List.mem_append_right _ hitem)

end Runs

/-! ### Batches of an entity -/

theorem foldl_upsert (keyFields : List String) (items rows : List Record) :
    items.foldl Table.upsert ⟨keyFields, rows⟩ =
      ⟨keyFields,
        items.foldl (fun rows item => Record.put (item.pick keyFields) item rows) rows⟩ := by
  induction items generalizing rows with
  | nil => rfl
  | cons item rest ih =>
      rw [List.foldl_cons, List.foldl_cons, ← ih]
      rfl

namespace Gateway

variable {σ : Type}

theorem keyOf_of_hasAll (gateway : Gateway) {row : Record}
    (hhash : gateway.entity.layout.hashKey.isSome)
    (hall : row.HasAll gateway.entity.layout.primaryKeys) : ∃ key, gateway.keyOf row = .ok key := by
  obtain ⟨hashKey, hsome⟩ := Option.isSome_iff_exists.mp hhash
  simp only [keyOf, Entity.keyFields, hsome]
  rcases row.keyOf_cases gateway.entity.layout.primaryKeys with ⟨key, hkey, -⟩ | ⟨field, -, hfind⟩
  · exact ⟨key, by rw [hkey]; rfl⟩
  · have hnone := List.find?_some hfind
    have hvalue := hall field (List.mem_of_find?_eq_some hfind)
    rw [Option.isNone_iff_eq_none.mp hnone] at hvalue
    cases hvalue

/-- A gateway makes as many attempts as it is configured to. -/
theorem attempts_eq (gateway : Gateway) :
    gateway.config.retry.attempts = gateway.config.retry.maxAttempts.toNat := by
  have hpos : 0 < gateway.config.retry.maxAttempts.toNat := by
    have haccepted := gateway.accepted
    refine Nat.pos_of_ne_zero fun hzero => ?_
    have hnone : gateway.config.retry.maxAttempts = 0 := UInt32.toNat_inj.mp hzero
    unfold Config.fault? at haccepted
    split_ifs at haccepted
  exact Nat.max_eq_left hpos

theorem prepare_none (gateway : Gateway) {items : List Record}
    (hkeys : ∀ item ∈ items, ∃ key, gateway.keyOf item = .ok key) (state : Store × σ) :
    gateway.prepare .none items state = (.ok items, state) := by
  induction items with
  | nil => rfl
  | cons item rest ih =>
      obtain ⟨⟨key, hkey⟩, hrest⟩ := List.forall_mem_cons.mp hkeys
      rw [prepare, Action.bind_apply]
      simp only [Hooks.beforeWrite, Hooks.none, Action.second_apply, Action.pure_apply,
        Action.bind_apply, hkey, Action.ofExcept_apply]
      have hprepare := ih hrest
      simp only [Hooks.none] at hprepare
      rw [hprepare]

theorem report_none (gateway : Gateway) (kind : WriteKind) (stored : Record → Option Record)
    (items : List Record) (state : Store × σ) :
    gateway.report .none kind stored items state = (.ok (), state) := by
  induction items with
  | nil => rfl
  | cons item rest ih =>
      rw [report, Action.bind_apply]
      exact ih

/-- Without hooks a batch is what the store makes of it. -/
theorem batchPut_none (gateway : Gateway) {items : List Record}
    (hkeys : ∀ item ∈ items, ∃ key, gateway.keyOf item = .ok key) (store : Store) (state : σ) :
    gateway.batchPut .none items (store, state) =
      ((gateway.batchWrite (items.map .put) store).1.map some,
        (gateway.batchWrite (items.map .put) store).2, state) := by
  rw [batchPut, Action.bind_apply, gateway.prepare_none hkeys]
  dsimp only
  rw [Action.attempt_bind_of_fail fun _ => rfl, Action.bind_apply, Action.first_apply]
  cases (gateway.batchWrite (items.map .put) store).1 with
  | error error => rfl
  | ok summary =>
      simp only [Action.bind_apply, report_none]
      rfl

/-- **What becomes of a batch when writes are left.** Of items with keys of their own, put without
hooks into a table of rows with keys of their own, in chunks for which there can be room, while the
deferrals of the store are by full keys: the batch goes well exactly if every item is left less
often than there are attempts, and then each item stands in the place of the row with its key, or
behind the rows, which stay otherwise. If not, the chunks before the first that has an item with a
larger count are stored, and the items of this chunk with smaller ones; the error tells the number
of attempts and names the other items of the chunk and those of all later chunks, in order, whose
keys are as before. -/
theorem batchPut_stores_by_counts (gateway : Gateway) {items old : List Record}
    {keyFields : List String} {store : Store} (state : σ)
    (hroom : Reservable WriteRequest.bytes gateway.config.batchWriteChunk.toNat)
    (hhash : gateway.entity.layout.hashKey.isSome)
    (htable : store.tables.get? gateway.tableName = some ⟨keyFields, old⟩)
    (hfields : ∀ field, field ∈ keyFields ↔ field ∈ gateway.entity.layout.primaryKeys)
    (hold : KeyedBy gateway.entity.layout.primaryKeys old)
    (hitems : KeyedBy gateway.entity.layout.primaryKeys items)
    (hdeferrals : Record.FullKeys gateway.entity.layout.primaryKeys
      (store.deferrals.map Deferral.key)) :
    let primaryKeys := gateway.entity.layout.primaryKeys
    let attempts := gateway.config.retry.maxAttempts.toNat
    let times := timesDeferred store.deferrals
    ∃ outcome after new, gateway.batchPut .none items (store, state) = (outcome, after, state) ∧
      after.tables.get? gateway.tableName = some ⟨keyFields, new⟩ ∧
      ((∃ summary, outcome = .ok (some summary)) ↔ ∀ item ∈ items, times item < attempts) ∧
      ((∀ item ∈ items, times item < attempts) → StoredIn primaryKeys items old new) ∧
      ((∃ item ∈ items, attempts ≤ times item) →
        ∃ before chunk rest,
          chunks gateway.config.batchWriteChunk.toNat items = before ++ chunk :: rest ∧
          (∀ item ∈ before.flatten, times item < attempts) ∧
          (∃ item ∈ chunk, attempts ≤ times item) ∧
          outcome = .error (.unprocessedItems attempts
            ((chunk.filter (attempts ≤ times ·) ++ rest.flatten).map .put)) ∧
          StoredIn primaryKeys (before.flatten ++ chunk.filter (times · < attempts)) old new) := by
  intro primaryKeys attempts times
  have hne : primaryKeys ≠ [] := by
    obtain ⟨hashKey, hsome⟩ := Option.isSome_iff_exists.mp hhash
    simp [primaryKeys, Layout.primaryKeys, hsome]
  have hattempts : gateway.config.retry.attempts = attempts := gateway.attempts_eq
  have hflat : (chunks gateway.config.batchWriteChunk.toNat items).flatten = items :=
    flatten_chunks _ items
  have hdistinct : (chunks gateway.config.batchWriteChunk.toNat items).flatten.Pairwise
      fun a b => ¬ a.AgreesOn primaryKeys b := by
    rw [hflat]
    exact hitems.distinct hne
  obtain ⟨result, events, after, given, stored, hdrive, hends, hperm, hadvanced⟩ :=
    driveChunks_puts gateway.config.retry htable hdeferrals hdistinct
  rw [hattempts] at hends
  have hgiven : KeyedBy primaryKeys given := hitems.sublist (hflat ▸ hends.sublist)
  obtain ⟨hstored, -⟩ :=
    Record.storedIn_foldl hne hfields hold (hgiven.perm hperm.symm)
  have hnew := hstored.perm ((hgiven.perm hperm.symm).distinct hne) hperm
  have hwrite : gateway.batchWrite (items.map .put) store =
      (result.map fun _ => ⟨items.length, .ofNat (Batch.countSubmissions events)⟩, after) := by
    rw [gateway.batchWrite_of_reservable hroom, chunks_map, hdrive, List.length_map]
  have hput : gateway.batchPut .none items (store, state) =
      ((result.map fun _ => some ⟨items.length, .ofNat (Batch.countSubmissions events)⟩), after,
        state) := by
    rw [gateway.batchPut_none fun item hitem =>
      gateway.keyOf_of_hasAll hhash (hitems.complete item hitem), hwrite]
    cases result <;> rfl
  have htable' : after.tables.get? gateway.tableName = some ⟨keyFields, _⟩ :=
    hadvanced.table.trans (by rw [foldl_upsert])
  refine ⟨_, after, _, hput, htable', ?_⟩
  by_cases hless : ∀ item ∈ items, times item < attempts
  · obtain ⟨rfl, rfl⟩ := hends.of_forall_lt (by rwa [hflat])
    rw [hflat] at hnew
    refine ⟨⟨fun _ => hless, fun _ => ⟨_, rfl⟩⟩, fun _ => hnew, ?_⟩
    rintro ⟨item, hitem, hle⟩
    exact absurd (hless item hitem) (Nat.not_lt.mpr hle)
  · have hmore : ∃ item ∈ items, attempts ≤ times item := by
      by_contra hnone
      exact hless fun item hitem => Nat.lt_of_not_le fun hle => hnone ⟨item, hitem, hle⟩
    obtain ⟨before, chunk, rest, hchunks, hbefore, hchunk, rfl, rfl⟩ :=
      hends.of_exists_le (by rwa [hflat])
    refine ⟨⟨?_, fun hall => absurd hall hless⟩, fun hall => absurd hall hless,
      fun _ => ⟨before, chunk, rest, hchunks, hbefore, hchunk, rfl, hnew⟩⟩
    rintro ⟨summary, hsummary⟩
    cases hsummary

/-- Shelves by number. -/
def shelves : Entity :=
  ⟨⟨"shelves", [("number", { type := .number, isHashKey := true }), ("holds", { type := .string })],
    by decide⟩, by decide⟩

def shelf (number : Nat) (holds : String) : Record :=
  [("holds", .string holds), ("number", .nat number)]

/-- Two items in a chunk, and two attempts. -/
def shelfGateway : Gateway := ⟨shelves, { batchWriteChunk := 2, retry := .immediate 2 }, by decide⟩

/-- The first shelf is left twice, the second once. -/
def busyShelves : Store :=
  { tables := [("shelves", ⟨["number"], [shelf 3 "salt"]⟩)],
    deferrals := [⟨[("number", .nat 1)], 2⟩, ⟨[("number", .nat 2)], 1⟩] }

def shelfItems : List Record := [shelf 1 "tea", shelf 2 "rice", shelf 3 "oats"]

/-- The second shelf is stored; the first is left too often, and the third comes behind it. -/
theorem batchPut_stores_by_counts_shelves :
    ∃ after new, shelfGateway.batchPut .none shelfItems (busyShelves, ()) =
        (.error (.unprocessedItems 2 [.put (shelf 1 "tea"), .put (shelf 3 "oats")]), after, ()) ∧
      after.tables.get? "shelves" = some ⟨["number"], new⟩ ∧
      StoredIn ["number"] [shelf 2 "rice"] [shelf 3 "salt"] new := by
  have hdeferrals : Record.FullKeys ["number"] (busyShelves.deferrals.map Deferral.key) :=
    ⟨by simp [busyShelves], by decide⟩
  have htable : busyShelves.tables.get? "shelves" = some ⟨["number"], [shelf 3 "salt"]⟩ := rfl
  have hitems : KeyedBy ["number"] shelfItems := by decide
  obtain ⟨outcome, after, new, hput, hnew, -, -, hfails⟩ :=
    shelfGateway.batchPut_stores_by_counts () (by decide) rfl htable (fun _ => Iff.rfl) (by decide)
      hitems hdeferrals
  obtain ⟨before, chunk, rest, hchunks, hbefore, -, rfl, hstored⟩ :=
    hfails ⟨shelf 1 "tea", List.mem_cons_self, by decide⟩
  have hsplit : [[shelf 1 "tea", shelf 2 "rice"], [shelf 3 "oats"]] = before ++ chunk :: rest :=
    hchunks
  cases before with
  | nil =>
      obtain ⟨rfl, rfl⟩ := List.cons.inj hsplit
      exact ⟨after, new, hput, hnew, hstored⟩
  | cons first more =>
      obtain ⟨rfl, -⟩ := List.cons.inj hsplit
      have hfirst := hbefore (shelf 1 "tea") (List.mem_append_left _ List.mem_cons_self)
      exact absurd hfirst (by decide)

end Gateway

end KeyValue

end SchemaQuery
