import SchemaQuery.KeyValue.Store
import SchemaQuery.Proofs.Json.Records
import SchemaQuery.Proofs.Paging.Source
import SchemaQuery.Proofs.Store.Sorting

/-!
# Pages of a table

A table whose rows are told apart by their keys serves its rows in the order of the read, cut down
to the attributes asked for. Its cursors are taken from whole rows. A cursor that is taken from what
the read returns stands at the same place, if the primary keys are among the attributes.
-/

namespace SchemaQuery

/-- The answer to a fetch, with something done to each row. -/
theorem Source.Answers.map {rows : List Record} {before : Nat} {page : Page}
    (hanswers : (Source.ofRows rows).Answers before page) (change : Record → Record) :
    Source.Answers ⟨rows.map change, (Source.ofRows rows).stands⟩ before
      ⟨page.items.map change, page.next⟩ where
  isPrefix_items := by
    rw [← List.map_drop]
    exact hanswers.isPrefix_items.map change
  items_ne_nil := by
    intro hlt hnil
    rw [List.length_map] at hlt
    exact hanswers.items_ne_nil hlt (List.map_eq_nil_iff.mp hnil)
  next_eq_none := by
    rw [List.length_map, List.length_map]
    exact hanswers.next_eq_none
  next_stands := by
    rw [List.length_map]
    exact hanswers.next_stands

namespace KeyValue.Table

/-- The key of each row is the key of exactly one row. -/
def IsKeyed (table : Table) : Prop :=
  ∀ row ∈ table.rows, table.rows.countP (·.hasKey (row.pick table.keyFields)) = 1

instance (table : Table) : Decidable table.IsKeyed :=
  inferInstanceAs (Decidable (∀ row ∈ table.rows,
    table.rows.countP (·.hasKey (row.pick table.keyFields)) = 1))

theorem segmentRows_sublist (segment total : Nat) (rows : List Record) :
    (segmentRows segment total rows).Sublist rows := by
  have hfilter : (segmentRows segment total rows).Sublist (rows.zipIdx.map (·.1)) :=
    List.filter_sublist.map _
  rwa [List.zipIdx_map_fst] at hfilter

theorem candidates_sublist (table : Table) (read : TableRead) :
    (table.candidates read).Sublist table.rows := by
  unfold candidates
  split
  next =>
    split
    next => exact List.Sublist.refl _
    next => exact segmentRows_sublist ..
  next => exact List.Sublist.refl _

theorem ordered_perm (table : Table) (read : TableRead) :
    (table.ordered read).Perm (table.candidates read) := by
  unfold ordered
  cases read.indexName with
  | none => exact .refl _
  | some name => exact sortRows_perm ..

variable {table : Table}

theorem IsKeyed.pick_ne_nil (hkeyed : table.IsKeyed) {row : Record} (hrow : row ∈ table.rows) :
    row.pick table.keyFields ≠ [] := by
  obtain ⟨other, -, hother⟩ := List.countP_pos_iff.mp ((hkeyed row hrow).symm ▸ Nat.one_pos)
  exact (Record.hasKey_iff.mp hother).1

/-- Of the rows read, only the row itself has a key that says as much as its primary key. -/
theorem IsKeyed.countP_pointsAt (hkeyed : table.IsKeyed) (read : TableRead) {row : Record}
    (hrow : row ∈ table.ordered read) {cursor : Cursor} (hself : cursor.pointsAt row = true)
    (honly : ∀ other : Record, cursor.pointsAt other = true →
      other.hasKey (row.pick table.keyFields) = true) :
    (table.ordered read).countP cursor.pointsAt = 1 := by
  have hperm := table.ordered_perm read
  have hsublist := table.candidates_sublist read
  have hmem : row ∈ table.rows := hsublist.subset (hperm.subset hrow)
  refine Nat.le_antisymm ?_ (List.countP_pos_iff.mpr ⟨row, hrow, hself⟩)
  calc (table.ordered read).countP cursor.pointsAt
    _ ≤ (table.ordered read).countP (·.hasKey (row.pick table.keyFields)) :=
        List.countP_mono_left fun other _ => honly other
    _ = (table.candidates read).countP (·.hasKey (row.pick table.keyFields)) :=
        hperm.countP_eq _
    _ ≤ table.rows.countP (·.hasKey (row.pick table.keyFields)) := hsublist.countP_le
    _ = 1 := hkeyed row hmem

/-- The attributes that a read returns; all if it names none. -/
def returned (read : TableRead) : Option (List String) :=
  Projection.fields? ⟨read.projection, read.names⟩

/-- The rows as they are returned; a cursor stands where it does among the whole rows. -/
def source (table : Table) (read : TableRead) : Source where
  rows := (table.ordered read).map fun row => row.project (returned read)
  stands := (Source.ofRows (table.ordered read)).stands

/-- A cursor that is taken from a part of a row, with the values of the primary keys. -/
theorem IsKeyed.cursor_of_part (hkeyed : table.IsKeyed) (read : TableRead) {row : Record}
    (hrow : row ∈ table.ordered read) {part : Record} {fields : List String}
    (hpart : ∀ name value, part.get? name = some value → row.get? name = some value)
    (hkeys : ∀ name ∈ table.keyFields, name ∈ fields ∧ part.get? name = row.get? name) :
    (Cursor.ofRow part fields).pointsAt row = true ∧
      (table.ordered read).countP (Cursor.ofRow part fields).pointsAt = 1 := by
  have hmem : row ∈ table.rows :=
    (table.candidates_sublist read).subset ((table.ordered_perm read).subset hrow)
  obtain ⟨hself, honly⟩ := Record.hasKey_pick_of_part hpart hkeys (hkeyed.pick_ne_nil hmem)
  exact ⟨hself, hkeyed.countP_pointsAt read hrow hself honly⟩

theorem IsKeyed.source_keyed (hkeyed : table.IsKeyed) (read : TableRead) {fields : List String}
    (hfields : ∀ name ∈ table.keyFields, name ∈ fields)
    (hreturned : ∀ given, returned read = some given → ∀ name ∈ table.keyFields, name ∈ given) :
    (table.source read).Keyed fields := by
  intro place row hrow
  obtain ⟨whole, hwhole, rfl⟩ := Option.map_eq_some_iff.mp ((List.getElem?_map ..).symm.trans hrow)
  obtain ⟨hplace, rfl⟩ := List.getElem?_eq_some_iff.mp hwhole
  obtain ⟨hself, hcount⟩ := hkeyed.cursor_of_part read (List.getElem_mem hplace)
    (fun _ _ => Record.get?_of_get?_project) fun name hname =>
      And.intro (hfields name hname)
        (Record.get?_project _ fun given hgiven => hreturned given hgiven name hname)
  exact ⟨hcount, by rw [Source.findIdx_eq_of_countP_eq_one hcount hplace hself]⟩

theorem after_eq {rows : List Record} {cursor : Option Cursor} {before : Nat}
    (hat : (Source.ofRows rows).At cursor before) :
    after rows cursor = .ok (rows.drop (Paging.placeOf rows cursor)) := by
  cases cursor with
  | none => rfl
  | some cursor =>
      have hfound : rows.findIdx cursor.pointsAt < rows.length := by
        rw [List.findIdx_lt_length]
        obtain ⟨row, hrow, hpoints⟩ := List.countP_pos_iff.mp (hat.1.symm ▸ Nat.one_pos)
        exact ⟨row, hrow, hpoints⟩
      rw [after, List.findIdx?_eq_guard_findIdx_lt]
      simp only [Option.guard, hfound, decide_true, if_true]
      rfl

/-- A page of a table answers the fetch. -/
theorem IsKeyed.page_answers (hkeyed : table.IsKeyed) {read : TableRead} {size : UInt32}
    (hlimit : read.limit = some size) (hsize : size ≠ 0) {before : Nat}
    (hat : (table.source read).At read.startKey before)
    (hbefore : before ≤ (table.source read).rows.length) :
    ∃ page, table.page read = .ok page ∧ (table.source read).Answers before page := by
  have hunique : ∀ row ∈ table.ordered read, (table.ordered read).countP
      (Cursor.ofRow row (table.cursorFields read)).pointsAt = 1 := by
    intro row hrow
    refine (hkeyed.cursor_of_part read hrow (fun _ _ h => h) fun name hname => ⟨?_, rfl⟩).2
    exact List.mem_append_left _ hname
  have hpos : 0 < size.toNat := by
    refine Nat.pos_of_ne_zero fun hzero => hsize ?_
    exact UInt32.toNat_inj.mp hzero
  have hserved : (Source.ofRows (table.ordered read)).ServedBy
      (Paging.fixedPages size.toNat (table.cursorFields read) fun _ => table.ordered read) none :=
    @Paging.fixedPages_servedBy size.toNat (table.cursorFields read)
      (fun _ => table.ordered read) none hpos hunique
  have hat' : (Source.ofRows (table.ordered read)).At read.startKey before := by
    cases hkey : read.startKey with
    | none =>
        rw [hkey] at hat
        exact hat
    | some cursor =>
        rw [hkey] at hat
        exact hat
  have hbefore' : before ≤ (Source.ofRows (table.ordered read)).rows.length := by
    rwa [source, List.length_map] at hbefore
  obtain ⟨served, after, hserve, hanswers⟩ := hserved read.startKey before () hat' hbefore'
  obtain rfl := Except.ok.inj (Prod.mk.inj hserve).1
  refine ⟨_, ?_, hanswers.map fun row => row.project (returned read)⟩
  have hmore {first all taken : Nat} : taken < all - first ↔ first + taken < all := by
    omega
  simp only [page, after_eq hat', Except.map, hlimit, List.length_drop, hmore, returned]

end KeyValue.Table

end SchemaQuery
