import SchemaQuery.Proofs.KeyValue.Resuming
import SchemaQuery.Proofs.KeyValue.Serving
import SchemaQuery.Proofs.Predicate.Lookups
import SchemaQuery.Proofs.Schema.Indexes

/-!
# Whole retrievals

A query, a count and a search to the end go through all pages of a table. However large the pages
are and into however many segments a search divides the table, they come to every row once; only
pages of no rows are taken for the last. By an index a query returns the rows in the order of the
field that the index sorts by.
-/

namespace SchemaQuery.KeyValue

/-! ### The rows of all pages -/

namespace Table

variable {table : Table} {read : TableRead}

/-- What the pages of a read hold together. A page that is to hold no row is the last. -/
def paged (table : Table) (read : TableRead) (segment : Option Segment) : Source :=
  if read.limit = some 0 then .ofRows [] else table.source (read.asked ⟨segment, none⟩)

/-- A page of no rows has no cursor to go on from. -/
theorem page_of_limit_zero (hlimit : read.limit = some 0) (hstart : read.startKey = none) :
    table.page read = .ok ⟨[], none⟩ := by
  unfold page
  rw [hstart, hlimit]
  simp [after, Except.map]

theorem answers_nil (stands : Cursor → Nat → Prop) :
    Source.Answers ⟨[], stands⟩ 0 ⟨[], none⟩ where
  isPrefix_items := List.prefix_rfl
  items_ne_nil := fun hlt => absurd hlt (Nat.lt_irrefl 0)
  next_eq_none := ⟨fun _ => Nat.le_refl 0, fun _ => rfl⟩
  next_stands := fun _ hnext => by cases hnext

theorem IsKeyed.paged_served (hkeyed : table.IsKeyed) {size : UInt32}
    (hlimit : read.limit = some size) (segment : Option Segment) :
    (table.paged read segment).ServedBy (table.fetcher read) segment := by
  unfold paged
  split
  next hzero =>
    rintro (_ | cursor) before store hat hbefore
    · obtain rfl : before = 0 := hat
      refine ⟨⟨[], none⟩, _, congrArg (·, _) (page_of_limit_zero ?_ ?_), answers_nil _⟩
      · rw [TableRead.asked_limit, hzero]
      · rw [TableRead.asked_startKey]
    · obtain ⟨hcount, -⟩ := hat
      cases hcount
  next hsize =>
    refine hkeyed.served hlimit ?_ segment
    rintro rfl
    exact hsize hlimit

theorem length_paged_rows_le (table : Table) (read : TableRead) (segment : Option Segment) :
    (table.paged read segment).rows.length ≤ table.rows.length := by
  unfold paged
  split
  next => exact Nat.zero_le _
  next => exact table.length_source_rows_le _

theorem paged_rows_of_limit_zero (hlimit : read.limit = some 0) (segment : Option Segment) :
    (table.paged read segment).rows = [] := by
  rw [paged, if_pos hlimit]
  rfl

/-- The rows of all pages, if they are returned whole. -/
theorem paged_rows (hreturned : returned read = none) (hlimit : read.limit ≠ some 0)
    (segment : Option Segment) :
    (table.paged read segment).rows = table.ordered (read.asked ⟨segment, none⟩) := by
  have hsame : returned (read.asked ⟨segment, none⟩) = none := by
    rcases segment with _ | segment
    · exact hreturned
    · exact hreturned
  rw [paged, if_neg hlimit, source, hsame]
  exact List.map_id _

end Table

/-! ### Retrievals of an entity -/

namespace Gateway

/-- A read by a plan without anything of the caller's own: it returns whole rows, by the index of the
plan, in pages of the size asked for. -/
structure ReadsWhole (gateway : Gateway) (options : Options) (plan : Plan) (read : TableRead) :
    Prop where
  tableName : read.tableName = gateway.tableName
  limit : read.limit = some (options.pageSize.getD gateway.config.pageSize)
  returned : Table.returned read = none
  indexName : read.indexName = plan.index.map PlanIndex.name
  forward : read.forward = plan.index.map fun _ => !plan.descending
  segment : read.segment = none

variable {gateway : Gateway} {predicate : Predicate} {options : Options} {plan : Plan}
  {read : TableRead} {table : Table} {store : Store}

theorem readsWhole_render (gateway : Gateway) (options : Options) (plan : Plan) :
    gateway.ReadsWhole options plan (render plan gateway.tableName
      (some (options.pageSize.getD gateway.config.pageSize)) none) where
  tableName := rfl
  limit := rfl
  returned := (fields?_render plan _ _ none).trans (if_pos rfl)
  indexName := rfl
  forward := rfl
  segment := rfl

theorem ReadsWhole.limit_eq_zero_iff (hread : gateway.ReadsWhole options plan read) :
    read.limit = some 0 ↔ options.pageSize = some 0 := by
  rw [hread.limit, Option.some.injEq]
  constructor
  · exact fun hzero => Decidable.of_not_not fun hsize =>
      gateway.pageSize_ne_zero options hsize hzero
  · intro hsize
    rw [hsize]
    rfl

theorem ReadsWhole.rows_perm (hread : gateway.ReadsWhole options plan read) (table : Table) :
    (table.ordered (read.asked ⟨none, none⟩)).Perm table.rows := by
  have hsegment : (read.asked ⟨none, none⟩).segment = none := hread.segment
  have hcandidates : table.candidates (read.asked ⟨none, none⟩) = table.rows := by
    rw [Table.candidates, hsegment]
  exact hcandidates ▸ table.ordered_perm (read.asked ⟨none, none⟩)

variable (gateway predicate options)

/-- A predicate that can be compiled for one lookup can be compiled for the other. -/
theorem compile_either :
    (∃ fault, ∀ lookup, gateway.compile predicate (gateway.complete options lookup) none =
      .error (.compile fault)) ∨
    ∀ lookup, ∃ plan read, gateway.entity.plan predicate (gateway.complete options lookup) =
        .ok plan ∧
      gateway.compile predicate (gateway.complete options lookup) none = .ok read ∧
      gateway.ReadsWhole options plan read := by
  rcases gateway.entity.plan_either predicate (gateway.complete options .query) with
    ⟨fault, hquery, hscan⟩ | ⟨narrowing, whole, hquery, hscan⟩
  · have hscan : gateway.entity.plan predicate (gateway.complete options .scan) =
      .error fault := hscan
    refine Or.inl ⟨fault, fun lookup => ?_⟩
    rw [compile, KeyValue.compile]
    cases lookup with
    | query => exact hquery ▸ rfl
    | scan => exact hscan ▸ rfl
  · have hscan : gateway.entity.plan predicate (gateway.complete options .scan) = .ok whole := hscan
    refine Or.inr fun lookup => ?_
    rw [compile, KeyValue.compile]
    cases lookup with
    | query => exact ⟨narrowing, _, hquery, hquery ▸ rfl, gateway.readsWhole_render options _⟩
    | scan => exact ⟨whole, _, hscan, hscan ▸ rfl, gateway.readsWhole_render options _⟩

/-- The segments of a search hold the rows of the table, whatever it reads them by. -/
theorem segments_rows_perm (table : Table) (read : TableRead) :
    ((List.range gateway.segments).flatMap fun index =>
      table.ordered (read.asked ⟨some ⟨index, gateway.segments⟩, none⟩)).Perm table.rows := by
  have hpos : gateway.config.totalSegments ≠ 0 := by
    intro hzero
    have hsegments := gateway.segments_pos
    rw [segments, hzero] at hsegments
    exact absurd hsegments (Nat.lt_irrefl 0)
  have hword : UInt32.ofNat gateway.segments = gateway.config.totalSegments := UInt32.ofNat_toNat
  have hsame (index : Nat) : table.ordered (read.asked ⟨some ⟨index, gateway.segments⟩, none⟩) =
      table.along read.indexName read.forward (some (.ofNat index))
        (some gateway.config.totalSegments) := by
    rw [Table.along, ← hword]
    rfl
  simp only [hsame]
  exact table.segments_perm read.indexName read.forward hpos

/-- **Retrievals do not depend on paging.** Of a table whose rows are told apart by their keys, a
predicate that can be compiled at all retrieves every row once by a query to the end, and every row
once by a search, and counts all rows, whatever the size of the pages and the number of segments;
but if pages are to hold no row, it retrieves and counts none. -/
theorem retrieves_every_row
    (hstore : store.tables.get? gateway.tableName = some table) (hkeyed : table.IsKeyed) :
    (∃ fault, (∀ lookup, gateway.compile predicate (gateway.complete options lookup) none =
          .error (.compile fault)) ∧
        (gateway.queryAll predicate options none store).1 = .error (.compile fault) ∧
        (gateway.totalCount predicate options none store).1 = .error (.compile fault) ∧
        (gateway.searchAll predicate options none store).1 = .error (.compile fault)) ∨
      ∃ rows found, (gateway.queryAll predicate options none store).1 = .ok rows ∧
        (gateway.totalCount predicate options none store).1 = .ok rows.length ∧
        (gateway.searchAll predicate options none store).1 = .ok found ∧
        rows.Perm (if options.pageSize = some 0 then [] else table.rows) ∧ found.Perm rows := by
  rcases gateway.compile_either predicate options with ⟨fault, hfault⟩ | hplanned
  · refine Or.inl ⟨fault, hfault, ?_, ?_, ?_⟩
    · rw [queryAll, hfault .query]
      rfl
    · rw [totalCount, hfault .query]
      rfl
    · rw [searchAll, hfault .scan]
      rfl
  · obtain ⟨narrowing, read, -, hquery, hread⟩ := hplanned .query
    obtain ⟨whole, scan, -, hscan, hscans⟩ := hplanned .scan
    have hall := queryAll_eq hquery (hread.tableName ▸ hstore)
      (hkeyed.paged_served hread.limit none) (table.length_paged_rows_le read none)
    have hcount := totalCount_eq hquery (hread.tableName ▸ hstore)
      (hkeyed.paged_served hread.limit none) (table.length_paged_rows_le read none)
    have hsearch := searchAll_eq hscan (hscans.tableName ▸ hstore)
      (fun index _ => hkeyed.paged_served hscans.limit (some ⟨index, gateway.segments⟩))
      fun index => table.length_paged_rows_le scan (some ⟨index, gateway.segments⟩)
    refine Or.inr ⟨_, _, hall, hcount, hsearch, ?_⟩
    by_cases hsize : options.pageSize = some 0
    · simp [hsize, Table.paged_rows_of_limit_zero (hread.limit_eq_zero_iff.mpr hsize),
        Table.paged_rows_of_limit_zero (hscans.limit_eq_zero_iff.mpr hsize)]
    · have hlimit := mt hread.limit_eq_zero_iff.mp hsize
      have hlimits := mt hscans.limit_eq_zero_iff.mp hsize
      simp only [if_neg hsize, Table.paged_rows hread.returned hlimit,
        Table.paged_rows hscans.returned hlimits]
      have hrows := hread.rows_perm table
      exact ⟨hrows, (gateway.segments_rows_perm table scan).trans hrows.symm⟩

/-- Three notes, two on a page. -/
theorem notes_retrieved :
    ∃ rows found, (notes.queryAll .empty { pageSize := some 2 } none notesStore).1 = .ok rows ∧
      (notes.totalCount .empty { pageSize := some 2 } none notesStore).1 = .ok rows.length ∧
      (notes.searchAll .empty { pageSize := some 2 } none notesStore).1 = .ok found ∧
      rows.Perm notesTable.rows ∧ found.Perm rows := by
  have hstore : notesStore.tables.get? notes.tableName = some notesTable := rfl
  refine (retrieves_every_row notes .empty { pageSize := some 2 } hstore (by decide)).resolve_left ?_
  rintro ⟨fault, hfault, -⟩
  cases hfault .query

/-- In pages of no rows none of the three notes is retrieved, and none is counted. -/
theorem notes_not_retrieved :
    notesStore.tables.get? notes.tableName = some notesTable ∧ notesTable.IsKeyed ∧
      notesTable.rows.length = 3 ∧
      (∃ read, notes.compile .empty (notes.complete { pageSize := some 0 } .query) none = .ok read) ∧
      (notes.queryAll .empty { pageSize := some 0 } none notesStore).1 = .ok [] ∧
      (notes.totalCount .empty { pageSize := some 0 } none notesStore).1 = .ok 0 ∧
      (notes.searchAll .empty { pageSize := some 0 } none notesStore).1 = .ok [] := by
  refine ⟨rfl, by decide, rfl, ⟨_, rfl⟩, ?_, ?_, rfl⟩
  · change (Paging.drain (fetcher { tableName := "notes", limit := some 0 }) none 4 none []
      notesStore).1 = _
    rw [Paging.drain]
    rfl
  · change (Paging.countFrom (fetcher { tableName := "notes", limit := some 0 }) 4 none 0
      notesStore).1 = _
    rw [Paging.countFrom]
    rfl

end Gateway

/-! ### Rows in the order of an index -/

theorem toList_nameFor (field : String) :
    (GlobalIndex.nameFor field).toList = field.toList ++ (GlobalIndex.nameFor "").toList := by
  simp [GlobalIndex.nameFor]

/-- The mark of a global index is taken off again. -/
theorem Table.indexField_nameFor (field : String) :
    indexField (GlobalIndex.nameFor field) = field := by
  have hsuffix : (GlobalIndex.nameFor "").toList.isSuffixOf (GlobalIndex.nameFor field).toList =
      true := List.isSuffixOf_iff_suffix.mpr ⟨field.toList, (toList_nameFor field).symm⟩
  simp only [indexField]
  rw [if_pos hsuffix, toList_nameFor, List.length_append, Nat.add_sub_cancel, List.take_left,
    String.ofList_toList]

theorem Table.indexField_of_forall_ne {name : String}
    (hname : ∀ field, name ≠ GlobalIndex.nameFor field) : indexField name = name := by
  have hsuffix : ¬ (GlobalIndex.nameFor "").toList.isSuffixOf name.toList = true := by
    intro hends
    obtain ⟨field, hfield⟩ := List.isSuffixOf_iff_suffix.mp hends
    apply hname (String.ofList field)
    rw [← String.toList_inj, toList_nameFor, String.toList_ofList, hfield]
  simp only [indexField]
  rw [if_neg hsuffix]

/-- A global index is called after the field that it sorts by. -/
theorem name_of_globalIndex? {entity : Entity} {name : String} {index : GlobalIndex}
    (hindex : entity.layout.globalIndex? name = some index) :
    index.name = GlobalIndex.nameFor index.sortField := by
  obtain ⟨hmem, -⟩ := entity.wellFormed.globalIndex?_eq_some_iff.mp hindex
  obtain ⟨entry, -, hdeclares⟩ := entity.wellFormed.mem_globalIndexes_iff.mp hmem
  rw [hdeclares.name, hdeclares.sortField]

/-- The store sorts by the field of the index, unless it takes a local index for a global one. -/
theorem indexField_of_index? {entity : Entity} {name : String} {index : Index}
    (hindex : entity.layout.index? name = some index)
    (hname : index.isGlobal = true ∨ ∀ field, index.name ≠ GlobalIndex.nameFor field) :
    Table.indexField index.name = index.sortField := by
  cases index with
  | onField field =>
      exact Table.indexField_of_forall_ne (hname.resolve_left Bool.false_ne_true)
  | global index =>
      rw [Index.name, name_of_globalIndex? (Layout.index?_eq_global_iff.mp hindex),
        Table.indexField_nameFor, Index.sortField]

namespace Gateway

variable (gateway : Gateway) (predicate : Predicate) {options : Options} {table : Table}
  {store : Store}

/-- **Reads by an index.** Of a table whose rows are told apart by their keys, a query to the end
with an order that the layout knows returns every row once, in the order of the field of the index;
but a local index on a field whose name ends like that of a global index is taken for one. -/
theorem queryAll_inOrder {sort : SortOrder} {index : Index} (hsort : options.sort = some sort)
    (hindex : gateway.entity.layout.index? sort.index = some index)
    (hname : index.isGlobal = true ∨ ∀ field, index.name ≠ GlobalIndex.nameFor field)
    (hsize : options.pageSize ≠ some 0)
    (hstore : store.tables.get? gateway.tableName = some table) (hkeyed : table.IsKeyed) :
    (∃ fault, (∀ lookup, gateway.compile predicate (gateway.complete options lookup) none =
          .error (.compile fault)) ∧
        (gateway.queryAll predicate options none store).1 = .error (.compile fault)) ∨
      ∃ rows, (gateway.queryAll predicate options none store).1 = .ok rows ∧
        rows.Perm table.rows ∧
        InOrder (fun row => row.get? index.sortField) sort.descending rows := by
  rcases gateway.compile_either predicate options with ⟨fault, hfault⟩ | hplanned
  · refine Or.inl ⟨fault, hfault, ?_⟩
    rw [queryAll, hfault .query]
    rfl
  · obtain ⟨plan, read, hplan, hcompile, hread⟩ := hplanned .query
    have hall := queryAll_eq hcompile (hread.tableName ▸ hstore)
      (hkeyed.paged_served hread.limit none) (table.length_paged_rows_le read none)
    rw [Table.paged_rows hread.returned (mt hread.limit_eq_zero_iff.mp hsize)] at hall
    refine Or.inr ⟨_, hall, hread.rows_perm table, ?_⟩
    obtain rfl := Entity.eq_laidOut_of_plan hplan
    have hplanned : (gateway.entity.laidOut predicate (gateway.complete options .query)).index =
        some index.toPlan := by
      simp only [Entity.laidOut, Entity.indexOf, complete, hsort, Option.bind_some, hindex,
        Option.map_some]
    have hdescending : (gateway.entity.laidOut predicate
        (gateway.complete options .query)).descending = sort.descending := by
      simp only [Entity.laidOut, complete, hsort, Option.map_some, Option.getD_some]
    have hindexName : (read.asked ⟨none, none⟩).indexName = some index.name := by
      refine hread.indexName.trans ?_
      rw [hplanned]
      rfl
    have hforward : (read.asked ⟨none, none⟩).forward = some (!sort.descending) := by
      refine hread.forward.trans ?_
      rw [hplanned, hdescending]
      rfl
    simp only [Table.ordered, hindexName, hforward, indexField_of_index? hindex hname]
    cases sort.descending with
    | true => exact sortRows_inOrder _ true _
    | false => exact sortRows_inOrder _ false _

/-- Players by their names; a field is named like the global index on another. -/
def players : Gateway where
  entity := ⟨⟨"players", [("id", { type := .number, isHashKey := true }),
    ("name", { type := .string, isLocalIndex := true }),
    ("rank_global", { type := .string, isLocalIndex := true })], by decide⟩, by decide⟩
  config := {}
  accepted := Config.fault?_default

def player (id : Nat) (name rank : String) : Record :=
  [("id", .nat id), ("name", .string name), ("rank_global", .string rank)]

def playersTable : Table := ⟨["id"], [player 1 "ann" "b", player 2 "bob" "a"]⟩

def playersStore : Store := { tables := [("players", playersTable)] }

/-- From the last name to the first. -/
def byName : Options := { sort := some ⟨"name", true⟩ }

theorem players_inOrder :
    ∃ rows, (players.queryAll .empty byName none playersStore).1 = .ok rows ∧
      rows.Perm playersTable.rows ∧ InOrder (fun row => row.get? "name") true rows := by
  have hindex : players.entity.layout.index? (SortOrder.mk "name" true).index =
      some (.onField "name") := by decide
  have hname : ∀ field, (Index.onField "name").name ≠ GlobalIndex.nameFor field := by
    intro field hfield
    have hlength := congrArg (fun name : String => name.toList.length) hfield
    rw [toList_nameFor, List.length_append] at hlength
    have hshort : (Index.onField "name").name.toList.length = 4 := by decide
    have hlong : (GlobalIndex.nameFor "").toList.length = 7 := by decide
    omega
  have hstore : playersStore.tables.get? players.tableName = some playersTable := rfl
  have hsort : byName.sort = some ⟨"name", true⟩ := rfl
  refine (queryAll_inOrder players .empty hsort hindex (Or.inr hname) (by decide) hstore
    (by decide)).resolve_left ?_
  rintro ⟨fault, hfault, -⟩
  cases hfault .query

/-- The read of all players by the index on `rank_global`. -/
def playersByRank : TableRead where
  tableName := "players"
  indexName := some "rank_global"
  forward := some true
  limit := some 100

/-- The players are not returned in the order of the index on `rank_global`. -/
theorem players_not_inOrder :
    players.entity.layout.index? "rank_global" = some (.onField "rank_global") ∧
      playersStore.tables.get? players.tableName = some playersTable ∧ playersTable.IsKeyed ∧
      (players.queryAll .empty { sort := some ⟨"rank_global", false⟩ } none playersStore).1 =
        .ok playersTable.rows ∧
      ¬ InOrder (fun row => row.get? "rank_global") false playersTable.rows := by
  refine ⟨by decide, rfl, by decide, ?_, by decide⟩
  have hordered : playersTable.ordered playersByRank = playersTable.rows :=
    List.mergeSort_of_pairwise (by decide)
  have hpage : playersTable.page playersByRank = .ok ⟨playersTable.rows, none⟩ := by
    rw [Table.page, hordered]
    rfl
  have hfetch : fetcher playersByRank ⟨none, none⟩ playersStore =
      (.ok ⟨playersTable.rows, none⟩, { playersStore with fetches := 1 }) :=
    congrArg (fun page => (page, { playersStore with fetches := 1 })) hpage
  change (Paging.drain (fetcher playersByRank) none 3 none [] playersStore).1 = _
  rw [Paging.drain, Action.bind_apply, hfetch]
  rfl

end Gateway

end SchemaQuery.KeyValue
