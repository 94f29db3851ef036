import SchemaQuery.KeyValue.Gateway
import SchemaQuery.Proofs.KeyValue.Pages
import SchemaQuery.Proofs.KeyValue.Projections
import SchemaQuery.Proofs.Paging.Walks
import SchemaQuery.Proofs.Schema.Registration

/-!
# Resuming a lookup

A lookup by pages goes on from what it has returned before: the cursor of the store, or one that is
taken from the last row kept. The row has been cut down to the attributes asked for by then, so the
primary keys must be among them. Then no row is left out or repeated, by whichever index the table
is read, in whatever pages and with whatever limits.
-/

namespace SchemaQuery

namespace Paging

/-- What a walk returns is a matter of the rows, not of the cursors. -/
theorem Walked.of_rows_eq {source other : Source} {limits : List Nat} {first : Nat}
    {pages : List QueryPage} (hwalked : Walked source limits first pages)
    (hrows : source.rows = other.rows) : Walked other limits first pages where
  continues := by
    intro k page hpage
    obtain ⟨limit, hlimit, hitems, hnext, hremain⟩ := hwalked.continues k page hpage
    rw [hrows] at hitems hremain
    exact ⟨limit, hlimit, hitems, hnext, hremain⟩
  length_eq := hwalked.length_eq
  ends := hrows ▸ hwalked.ends
  covers := hrows ▸ hwalked.covers

end Paging

namespace KeyValue

/-- The read of one fetch of a walk. -/
def TableRead.asked (read : TableRead) (request : PageRequest) : TableRead :=
  match request.segment with
  | some segment => (read.startingAfter request.cursor).inSegment (.ofNat segment.index)
      (.ofNat segment.total)
  | none => read.startingAfter request.cursor

theorem TableRead.asked_limit (read : TableRead) (request : PageRequest) :
    (read.asked request).limit = read.limit := by
  rcases request with ⟨_ | segment, cursor⟩ <;> rfl

theorem TableRead.asked_startKey (read : TableRead) (request : PageRequest) :
    (read.asked request).startKey = request.cursor := by
  rcases request with ⟨_ | segment, cursor⟩ <;> rfl

namespace Table

variable {table : Table} {read : TableRead}

/-- The pages of a read, if the table is this one. -/
def fetcher (table : Table) (read : TableRead) : Fetch Store := fun request store =>
  (table.page (read.asked request), { store with fetches := store.fetches + 1 })

theorem fetcher_agree (table : Table) (read : TableRead) :
    Fetch.AgreeOn (fun store => store.tables.get? read.tableName = some table)
      (Gateway.fetcher read) (table.fetcher read) := by
  rintro ⟨segment, cursor⟩ store hstore
  refine ⟨?_, hstore⟩
  have hname : (read.asked ⟨segment, cursor⟩).tableName = read.tableName := by
    cases segment with
    | none => rfl
    | some segment => rfl
  have hfetch : Gateway.fetcher read ⟨segment, cursor⟩ store =
      Store.fetch (read.asked ⟨segment, cursor⟩) store := by
    cases segment with
    | none => rfl
    | some segment => rfl
  have htable : Store.table { store with fetches := store.fetches + 1 } read.tableName =
      .ok table := by
    simp only [Store.table, hstore]
  simp only [hfetch, Store.fetch, Store.readTable, hname, htable]
  rfl

theorem IsKeyed.served (hkeyed : table.IsKeyed) {size : UInt32}
    (hlimit : read.limit = some size) (hsize : size ≠ 0) (segment : Option Segment) :
    (table.source (read.asked ⟨segment, none⟩)).ServedBy (table.fetcher read) segment := by
  intro cursor before store hat hbefore
  have hsource : table.source (read.asked ⟨segment, none⟩) =
      table.source (read.asked ⟨segment, cursor⟩) := by
    cases segment with
    | none => rfl
    | some segment => rfl
  have hstart := read.asked_startKey ⟨segment, cursor⟩
  have hasked := (read.asked_limit ⟨segment, cursor⟩).trans hlimit
  rw [hsource] at hat hbefore ⊢
  obtain ⟨page, hpage, hanswers⟩ :=
    hkeyed.page_answers hasked hsize (hstart.symm ▸ hat) hbefore
  exact ⟨page, _, congrArg (·, _) hpage, hanswers⟩

theorem length_source_rows_le (table : Table) (read : TableRead) :
    (table.source read).rows.length ≤ table.rows.length := by
  rw [source, List.length_map, (table.ordered_perm read).length_eq]
  exact (table.candidates_sublist read).length_le

end Table

namespace Gateway

variable (gateway : Gateway) (predicate : Predicate) (options : Options) (extra : Option Fragment)

/-- Pages of a query, each with its limit and from the cursor of the one before. -/
def queryWalk (limits : List Nat) : Action Store (List QueryPage) :=
  Paging.walk (gateway.queryPage predicate options extra) limits none

/-- Pages of a search, each with its limit and from the positions of the one before. -/
def searchWalk (limits : List Nat) : Action Store (List ScanPage) :=
  Paging.searchWalk (gateway.searchPage predicate options extra) limits none

/-- The table that a lookup reads. -/
def target : String := (extra.getD {}).tableName.getD gateway.tableName

theorem segments_pos : 0 < gateway.segments := by
  refine Nat.pos_of_ne_zero fun hzero => ?_
  have hsegments : gateway.config.totalSegments = 0 := UInt32.toNat_inj.mp hzero
  have haccepted := gateway.accepted
  simp only [Config.fault?, hsegments, if_true] at haccepted
  split at haccepted
  · cases haccepted
  · cases haccepted

theorem pageSize_ne_zero (hsize : options.pageSize ≠ some 0) :
    options.pageSize.getD gateway.config.pageSize ≠ 0 := by
  intro hzero
  cases hoption : options.pageSize with
  | some size =>
      rw [hoption] at hsize hzero
      exact hsize (congrArg some hzero)
  | none =>
      rw [hoption] at hzero
      have hdefault : gateway.config.pageSize = 0 := hzero
      have haccepted := gateway.accepted
      rw [Config.fault?, if_pos hdefault] at haccepted
      cases haccepted

/-- The read of a lookup: its table, the size of its pages and its attributes do not depend on the
predicate. -/
theorem compile_cases (lookup : Lookup) :
    (∃ error, gateway.compile predicate (gateway.complete options lookup) extra =
      .error (.compile error)) ∨
    ∃ read, gateway.compile predicate (gateway.complete options lookup) extra = .ok read ∧
      read.tableName = gateway.target extra ∧
      read.limit = some (options.pageSize.getD gateway.config.pageSize) ∧
      Table.returned read =
        if (extra.getD {}).projection = [] then none else some (extra.getD {}).projection := by
  simp only [compile, KeyValue.compile]
  cases gateway.entity.plan predicate (gateway.complete options lookup) with
  | error error => exact Or.inl ⟨error, rfl⟩
  | ok plan => exact Or.inr ⟨_, rfl, rfl, rfl, fields?_render plan _ _ _⟩

end Gateway

/-- A lookup of a table whose rows the entity tells apart by their primary keys, which are among the
attributes asked for. -/
structure Gateway.Places (gateway : Gateway) (options : Options) (extra : Option Fragment)
    (table : Table) : Prop where
  keyFields_eq : table.keyFields = gateway.entity.layout.primaryKeys
  keyed : table.IsKeyed
  pageSize : options.pageSize ≠ some 0
  projected : (extra.getD {}).projection = [] ∨
    ∀ name ∈ table.keyFields, name ∈ (extra.getD {}).projection

namespace Gateway

variable {gateway : Gateway} {predicate : Predicate} {options : Options} {extra : Option Fragment}
  {table : Table} {read : TableRead} {store : Store} {limits : List Nat}

theorem Places.source_keyed (hplaces : gateway.Places options extra table)
    (hreturned : Table.returned read =
      if (extra.getD {}).projection = [] then none else some (extra.getD {}).projection)
    (segment : Option Segment) :
    (table.source (read.asked ⟨segment, none⟩)).Keyed (gateway.cursorKeys options) := by
  have hsame : Table.returned (read.asked ⟨segment, none⟩) = Table.returned read := by
    cases segment with
    | none => rfl
    | some segment => rfl
  refine hplaces.keyed.source_keyed _ (fun name hname => ?_) fun given hgiven name hname => ?_
  · exact gateway.entity.layout.primaryKeys_subset_cursorKeys _ (hplaces.keyFields_eq ▸ hname)
  · rw [hsame, hreturned] at hgiven
    split at hgiven
    next => cases hgiven
    next hsome =>
      obtain rfl := Option.some.inj hgiven
      exact hplaces.projected.resolve_left hsome name hname

theorem toEnd_eq {α : Type} (hstore : store.tables.get? read.tableName = some table)
    (steps : Nat → Action Store α) :
    toEnd read steps store = steps (table.rows.length + 1) store := by
  rw [toEnd, Store.rows, hstore]
  rfl

section Whole

variable {source : Source} {segments : Nat → Source}

/-- A query to the end returns the rows that the table serves. -/
theorem queryAll_eq
    (hread : gateway.compile predicate (gateway.complete options .query) extra = .ok read)
    (hstore : store.tables.get? read.tableName = some table)
    (hserved : source.ServedBy (table.fetcher read) none)
    (hlength : source.rows.length ≤ table.rows.length) :
    (gateway.queryAll predicate options extra store).1 = .ok source.rows := by
  obtain ⟨after, hdrain⟩ := @Paging.drain_eq _ _ _ hserved 0 (table.rows.length + 1) none [] rfl
    (Nat.zero_le _) (by omega) store
  have hsame := (Paging.drain_agree (table.fetcher_agree read) none (table.rows.length + 1) none []
    store hstore).1
  rw [queryAll, hread, Action.ofExcept_ok_bind, toEnd_eq hstore, Paging.queryAll, hsame, hdrain]
  rfl

/-- The rows counted are those that the table serves. -/
theorem totalCount_eq
    (hread : gateway.compile predicate (gateway.complete options .query) extra = .ok read)
    (hstore : store.tables.get? read.tableName = some table)
    (hserved : source.ServedBy (table.fetcher read) none)
    (hlength : source.rows.length ≤ table.rows.length) :
    (gateway.totalCount predicate options extra store).1 = .ok source.rows.length := by
  obtain ⟨after, hcount⟩ := @Paging.countFrom_eq _ _ _ hserved 0 (table.rows.length + 1) none 0 rfl
    (Nat.zero_le _) (by omega) store
  have hsame := (Paging.countFrom_agree (table.fetcher_agree read) (table.rows.length + 1) none 0
    store hstore).1
  rw [totalCount, hread, Action.ofExcept_ok_bind, toEnd_eq hstore, Paging.totalCount, hsame, hcount,
    Nat.zero_add, Nat.sub_zero]

/-- A search to the end returns the rows of the segments, one after the other. -/
theorem searchAll_eq
    (hread : gateway.compile predicate (gateway.complete options .scan) extra = .ok read)
    (hstore : store.tables.get? read.tableName = some table)
    (hserved : Source.SegmentsServed segments (table.fetcher read) gateway.segments)
    (hlength : ∀ index, (segments index).rows.length ≤ table.rows.length) :
    (gateway.searchAll predicate options extra store).1 =
      .ok ((List.range gateway.segments).flatMap fun index => (segments index).rows) := by
  have hsame := (Paging.searchAll_agree (table.fetcher_agree read)
    (Paging.inTurn (Paging.stepsFor (table.rows.length + 1))) gateway.segments store hstore).1
  rw [searchAll, hread, Action.ofExcept_ok_bind, toEnd_eq hstore, hsame]
  refine Paging.searchAll_eq hserved gateway.segments_pos (fun index hindex => ?_) store
  have hfewer := hlength index
  rw [Turn.stepsOf_inTurn _ hindex]
  simp only [Paging.stepsFor]
  omega

end Whole

/-- Queries either fail as the first one does, or their pages are those of the rows. -/
theorem Places.queryWalk_resumes (hplaces : gateway.Places options extra table)
    (hstore : store.tables.get? (gateway.target extra) = some table)
    (hlimits : ∀ limit ∈ limits, 0 < limit) :
    (∃ error, (gateway.queryAll predicate options extra store).1 = .error (.compile error) ∧
      ∀ cursor limit, (gateway.queryPage predicate options extra cursor limit store).1 =
        .error (.compile error)) ∨
    ∃ rows pages, (gateway.queryAll predicate options extra store).1 = .ok rows ∧
      (gateway.queryWalk predicate options extra limits store).1 = .ok pages ∧
      Paging.Walked (.ofRows rows) limits 0 pages := by
  rcases gateway.compile_cases predicate options extra .query with
    ⟨error, herror⟩ | ⟨read, hread, hname, hlimit, hreturned⟩
  · refine Or.inl ⟨error, ?_, fun cursor limit => ?_⟩
    · rw [queryAll, herror]
      rfl
    · rw [queryPage, herror]
      rfl
  · rw [← hname] at hstore
    have hserved : (table.source (read.asked ⟨none, none⟩)).ServedBy (table.fetcher read) none :=
      hplaces.keyed.served hlimit (gateway.pageSize_ne_zero options hplaces.pageSize) none
    have hkeyed := hplaces.source_keyed hreturned none
    have hagree := table.fetcher_agree read
    have hall := queryAll_eq hread hstore hserved (table.length_source_rows_le _)
    have hpage (cursor : Option Cursor) (limit : Nat) :
        gateway.queryPage predicate options extra cursor limit =
          Paging.query (fetcher read) limit cursor limit (gateway.cursorKeys options) := by
      rw [queryPage, hread, Action.ofExcept_ok_bind]
    obtain ⟨pages, after, hpages, hwalked⟩ := Paging.walk_walked
      (fun cursor first limit state hlimit hat hfirst =>
        Paging.query_answers hserved hkeyed hlimit hat hfirst
          (Nat.le_succ_of_le (Nat.min_le_left limit _)) state)
      hlimits (show (table.source (read.asked ⟨none, none⟩)).At none 0 from rfl) (Nat.zero_le _)
      store
    have hwalk := (Paging.walk_agree (fun cursor limit =>
      Paging.query_agree hagree limit cursor limit (gateway.cursorKeys options)) limits none store
      hstore).1
    refine Or.inr ⟨_, pages, hall, ?_, hwalked.of_rows_eq rfl⟩
    rw [queryWalk, funext fun cursor => funext (hpage cursor), hwalk, hpages]

/-- Searches either fail as the first one does, or their pages are those of the rows, which come in
another order. -/
theorem Places.searchWalk_resumes (hplaces : gateway.Places options extra table)
    (hstore : store.tables.get? (gateway.target extra) = some table)
    (hlimits : ∀ limit ∈ limits, Paging.IsLimit limit) :
    (∃ error, (gateway.searchAll predicate options extra store).1 = .error (.compile error) ∧
      ∀ given limit, (gateway.searchPage predicate options extra given limit store).1 =
        .error (.compile error)) ∨
    ∃ rows pages, (gateway.searchAll predicate options extra store).1 = .ok rows ∧
      (gateway.searchWalk predicate options extra limits store).1 = .ok pages ∧
      (pages.flatMap ScanPage.items).Subperm rows ∧
      ((∃ page ∈ pages, page.ending = .done) → (pages.flatMap ScanPage.items).Perm rows) ∧
      (rows.length < limits.length → ∃ page ∈ pages, page.ending = .done) := by
  rcases gateway.compile_cases predicate options extra .scan with
    ⟨error, herror⟩ | ⟨read, hread, hname, hlimit, hreturned⟩
  · refine Or.inl ⟨error, ?_, fun given limit => ?_⟩
    · rw [searchAll, herror]
      rfl
    · rw [searchPage, herror]
      rfl
  · rw [← hname] at hstore
    let source (index : Nat) : Source :=
      table.source (read.asked ⟨some ⟨index, gateway.segments⟩, none⟩)
    have hserved : Source.SegmentsServed source (table.fetcher read) gateway.segments :=
      fun index _ => hplaces.keyed.served hlimit
        (gateway.pageSize_ne_zero options hplaces.pageSize) _
    have hkeyed (index : Nat) (_ : index < gateway.segments) :
        (source index).Keyed (gateway.cursorKeys options) := hplaces.source_keyed hreturned _
    have hagree := table.fetcher_agree read
    have hall := searchAll_eq hread hstore hserved fun _ => table.length_source_rows_le _
    have hpage (given : Option (List SegmentCursor)) (limit : Nat) :
        gateway.searchPage predicate options extra given limit =
          Paging.searchInTurn (fetcher read) gateway.segments (gateway.cursorKeys options) given
            limit := by
      rw [searchPage, hread, Action.ofExcept_ok_bind, Paging.searchInTurn]
    obtain ⟨pages, after, hpages, hperm⟩ :=
      Paging.searchWalk_perm gateway.segments_pos hserved hkeyed hlimits store
    have hwalk := (Paging.searchWalk_agree (fun given limit => Paging.search_agree hagree
      (Paging.inTurn (Paging.stepsFor (limit + 1))) given gateway.segments limit
      (gateway.cursorKeys options)) limits none store hstore).1
    refine Or.inr ⟨_, pages, hall, ?_, hperm⟩
    rw [searchWalk, funext fun given => funext (hpage given)]
    exact (congrArg Prod.fst hwalk).trans (congrArg Prod.fst hpages)

/-- **Resumed lookups.** If the rows are told apart by the primary keys, and these are among the
attributes asked for, then a walk with any positive limits, for which there can be room if it is one
of searches, never fails, unless the lookup cannot be compiled at all. The pages of a query hold
exactly the next rows up to their limits; those of a search hold no row twice, and every row once
the last of them is reached. Both walks end. -/
theorem walks_resume (gateway : Gateway) (predicate : Predicate) (options : Options)
    (extra : Option Fragment) {table : Table} {store : Store} {limits : List Nat}
    (hstore : store.tables.get? (gateway.target extra) = some table)
    (hplaces : gateway.Places options extra table) (hlimits : ∀ limit ∈ limits, 0 < limit) :
    ((∃ error, (gateway.queryAll predicate options extra store).1 = .error (.compile error) ∧
        ∀ cursor limit, (gateway.queryPage predicate options extra cursor limit store).1 =
          .error (.compile error)) ∨
      ∃ rows pages, (gateway.queryAll predicate options extra store).1 = .ok rows ∧
        (gateway.queryWalk predicate options extra limits store).1 = .ok pages ∧
        Paging.Walked (.ofRows rows) limits 0 pages) ∧
    ((∀ limit ∈ limits, Reservable Record.bytes limit) →
      (∃ error, (gateway.searchAll predicate options extra store).1 = .error (.compile error) ∧
        ∀ given limit, (gateway.searchPage predicate options extra given limit store).1 =
          .error (.compile error)) ∨
      ∃ rows pages, (gateway.searchAll predicate options extra store).1 = .ok rows ∧
        (gateway.searchWalk predicate options extra limits store).1 = .ok pages ∧
        (pages.flatMap ScanPage.items).Subperm rows ∧
        ((∃ page ∈ pages, page.ending = .done) → (pages.flatMap ScanPage.items).Perm rows) ∧
        (rows.length < limits.length → ∃ page ∈ pages, page.ending = .done)) :=
  ⟨hplaces.queryWalk_resumes hstore hlimits, fun hroom =>
    hplaces.searchWalk_resumes hstore fun limit hmem => ⟨hlimits limit hmem, hroom limit hmem⟩⟩

/-- Notes with a number, which is their key, and a text. -/
def notes : Gateway where
  entity := ⟨⟨"notes", [("id", { type := .number, isHashKey := true }),
    ("text", { type := .string })], by decide⟩, by decide⟩
  config := {}
  accepted := by decide

def notesTable : Table where
  keyFields := ["id"]
  rows := [[("id", .nat 1), ("text", .string "a")], [("id", .nat 2), ("text", .string "b")],
    [("id", .nat 3), ("text", .string "c")]]

def notesStore : Store := { tables := [("notes", notesTable)] }

/-- Three notes, one by one, with the number among the attributes. -/
theorem notes_walks_resume :
    let extra : Option Fragment := some { projection := ["text", "id"] }
    (∃ rows pages, (notes.queryAll .empty {} extra notesStore).1 = .ok rows ∧
      (notes.queryWalk .empty {} extra [1, 1, 1, 1] notesStore).1 = .ok pages ∧
      Paging.Walked (.ofRows rows) [1, 1, 1, 1] 0 pages) ∧
    ∃ rows pages, (notes.searchAll .empty {} extra notesStore).1 = .ok rows ∧
      (notes.searchWalk .empty {} extra [1, 1, 1, 1] notesStore).1 = .ok pages ∧
      (pages.flatMap ScanPage.items).Subperm rows := by
  intro extra
  have hplaces : notes.Places {} extra notesTable := ⟨by decide, by decide, by decide, by decide⟩
  have hstore : notesStore.tables.get? (notes.target extra) = some notesTable := rfl
  obtain ⟨hquery, hsearch⟩ := walks_resume notes .empty {} extra hstore hplaces
    (show ∀ limit ∈ [1, 1, 1, 1], 0 < limit by decide)
  -- A page of no rows is refused for its limit, and not by the compiler.
  refine ⟨hquery.resolve_left ?_, ?_⟩
  · rintro ⟨error, -, herror⟩
    have hzero : (notes.queryPage .empty {} extra none 0 notesStore).1 =
        .error (.invalidLimit 0) := rfl
    rw [herror none 0] at hzero
    cases hzero
  · rcases hsearch (by decide) with ⟨error, -, herror⟩ | ⟨rows, pages, hrows, hpages, hpart, -⟩
    · have hzero : (notes.searchPage .empty {} extra none 0 notesStore).1 =
          .error (.invalidLimit 0) := rfl
      rw [herror none 0] at hzero
      cases hzero
    · exact ⟨rows, pages, hrows, hpages, hpart⟩

/-- The read of the texts alone. -/
def notesTexts : TableRead where
  tableName := "notes"
  projection := some "#text"
  names := [("#text", "text")]
  limit := some 100

/-- With only the text among the attributes the second page is refused. -/
theorem notes_walks_refused :
    notesTable.keyFields = notes.entity.layout.primaryKeys ∧ notesTable.IsKeyed ∧
    notesStore.tables.get? (notes.target (some { projection := ["text"] })) = some notesTable ∧
    (notes.queryWalk .empty {} (some { projection := ["text"] }) [1, 1] notesStore).1 =
      .error (.invalidCursor .startKeyNotFound) ∧
    (notes.searchWalk .empty {} (some { projection := ["text"] }) [1, 1] notesStore).1 =
      .error (.invalidCursor .startKeyNotFound) := by
  refine ⟨by decide, by decide, rfl, ?_, rfl⟩
  have hpage (cursor : Option Cursor) (limit : Nat) :
      notes.queryPage .empty {} (some { projection := ["text"] }) cursor limit =
        Paging.query (fetcher notesTexts) limit cursor limit ["id"] := rfl
  have hfirst : Paging.query (fetcher notesTexts) 1 none 1 ["id"] notesStore =
      (.ok ⟨[[("text", .string "a")]], some ⟨[]⟩, .limitReached⟩,
        { notesStore with fetches := 1 }) := by
    rw [Paging.query, Paging.gather]
    rfl
  have hsecond : Paging.query (fetcher notesTexts) 1 (some ⟨[]⟩) 1 ["id"]
      { notesStore with fetches := 1 } =
        (.error (.invalidCursor .startKeyNotFound), { notesStore with fetches := 2 }) := by
    rw [Paging.query, Paging.gather]
    rfl
  rw [queryWalk, funext fun cursor => funext (hpage cursor), Paging.walk, Action.bind_apply, hfirst]
  simp only [Paging.walk, Action.bind_apply, hsecond]

end Gateway

end KeyValue

end SchemaQuery
