import Mathlib.Data.List.Perm.Basic
import SchemaQuery.Proofs.Json.Storing
import SchemaQuery.Proofs.KeyValue.Pages

/-!
# One order of the rows

The rows that a table serves along an index, in a direction and within a segment stand in one order,
and every page is a run of them: from the first row, or from behind the row that a cursor was taken
from. A page that is not the last says where to go on by a cursor that stands for no other row of
the table, be it in another segment.
-/

namespace SchemaQuery

open Record (AgreesOn)

/-- The classes below a bound hold the entries of all these classes, each once. -/
theorem flatMap_filter_range_perm {α : Type} (number : α → Nat) (entries : List α) (bound : Nat) :
    ((List.range bound).flatMap fun index => entries.filter (number · == index)).Perm
      (entries.filter (number · < bound)) := by
  induction bound with
  | zero => simp
  | succ bound ih =>
      have hfewer : (entries.filter (number · < bound + 1)).filter (number · < bound) =
          entries.filter (number · < bound) := by
        rw [List.filter_filter]
        apply List.filter_congr
        intro entry _
        rw [← Bool.decide_and, decide_eq_decide]
        omega
      have hlast : (entries.filter (number · < bound + 1)).filter
          (fun entry => !decide (number entry < bound)) =
            entries.filter (number · == bound) := by
        rw [List.filter_filter]
        apply List.filter_congr
        intro entry _
        rw [← decide_not, ← Bool.decide_and, beq_eq_decide, decide_eq_decide]
        omega
      rw [List.range_succ, List.flatMap_append, List.flatMap_singleton, ← hlast]
      refine (ih.append_right _).trans ?_
      rw [← hfewer]
      exact List.filter_append_perm _ _

section Distinct

variable {fields : List String} {rows : List Record} {row : Record}

/-- Where no two rows agree, only one has what only rows that agree with it have. -/
theorem Record.countP_eq_one (hrows : rows.Pairwise fun a b => ¬ a.AgreesOn fields b)
    (hrow : row ∈ rows) {p : Record → Bool} (hself : p row = true)
    (honly : ∀ other ∈ rows, p other = true → other.AgreesOn fields row) : rows.countP p = 1 := by
  obtain ⟨before, behind, rfl⟩ := List.append_of_mem hrow
  obtain ⟨-, hbehind, hbefore⟩ := List.pairwise_append.mp hrows
  have hnone : before.countP p = 0 := by
    rw [List.countP_eq_zero]
    intro other hother hp
    exact hbefore other hother row List.mem_cons_self
      (honly other (List.mem_append_left _ hother) hp)
  have hnone' : behind.countP p = 0 := by
    rw [List.countP_eq_zero]
    intro other hother hp
    have hagree := honly other (List.mem_append_right _ (List.mem_cons_of_mem _ hother)) hp
    exact (List.pairwise_cons.mp hbehind).1 other hother hagree.symm
  rw [List.countP_append, List.countP_cons_of_pos hself, hnone, hnone']

/-- By no fields no two rows are told apart. -/
theorem Record.length_le_one (hrows : rows.Pairwise fun a b => ¬ a.AgreesOn [] b) :
    rows.length ≤ 1 := by
  cases rows with
  | nil => exact Nat.zero_le 1
  | cons first rest =>
      cases rest with
      | nil => exact Nat.le_refl 1
      | cons second rest =>
          have hdiffer := (List.pairwise_cons.mp hrows).1 second List.mem_cons_self
          exact absurd (fun _ hfield => absurd hfield List.not_mem_nil) hdiffer

/-- Rows that a cursor points at agree on the fields that it names. -/
theorem Cursor.agreesOn_of_pointsAt {cursor : Cursor} {other : Record}
    (hnames : ∀ field ∈ fields, field ∈ cursor.key.map Prod.fst)
    (hrow : cursor.pointsAt row = true) (hother : cursor.pointsAt other = true) :
    other.AgreesOn fields row := by
  obtain ⟨-, hrow⟩ := Record.hasKey_iff.mp hrow
  obtain ⟨-, hother⟩ := Record.hasKey_iff.mp hother
  intro field hfield
  obtain ⟨member, hmember, rfl⟩ := List.mem_map.mp (hnames field hfield)
  exact BEq.trans (hother member hmember) (BEq.symm (hrow member hmember))

end Distinct

namespace KeyValue

namespace Table

/-- The rows of a page that begins with the first of these: as many as the limit allows. -/
def taken (read : TableRead) (rows : List Record) : List Record :=
  match read.limit with
  | some limit => rows.take limit.toNat
  | none => rows

/-- A page that begins with the first of these rows holds what the limit allows of them, cut down
to the attributes asked for. It ends the reading exactly if it holds all; otherwise its cursor
points at its last row and at no other row of the table. -/
structure Serves (table : Table) (read : TableRead) (rows : List Record) (page : Page) : Prop where
  items : page.items = (taken read rows).map fun row => row.project (returned read)
  next_eq_none : page.next = none ↔ taken read rows = rows
  next_points : ∀ cursor, page.next = some cursor → ∃ last, (taken read rows).getLast? = some last ∧
    cursor.pointsAt last = true ∧ table.rows.countP cursor.pointsAt = 1

theorem taken_sublist (read : TableRead) (rows : List Record) : (taken read rows).Sublist rows := by
  unfold taken
  cases read.limit with
  | none => exact .refl _
  | some limit => exact List.take_sublist _ _

theorem taken_ne_nil {read : TableRead} {rows : List Record} (hlimit : read.limit ≠ some 0)
    (hrows : rows ≠ []) : taken read rows ≠ [] := by
  unfold taken
  cases hsize : read.limit with
  | none => exact hrows
  | some limit =>
      have hpos : limit.toNat ≠ 0 := by
        intro hzero
        exact hlimit (hsize.trans (congrArg some (UInt32.toNat_inj.mp hzero)))
      simp [List.take_eq_nil_iff, hpos, hrows]

variable {table : Table} {read : TableRead} {rows : List Record}

theorem ordered_subset (table : Table) (read : TableRead) : table.ordered read ⊆ table.rows :=
  fun _ hrow => (table.candidates_sublist read).subset ((table.ordered_perm read).subset hrow)

theorem ordered_distinct
    (hdistinct : table.rows.Pairwise fun a b => ¬ a.AgreesOn table.keyFields b)
    (read : TableRead) :
    (table.ordered read).Pairwise fun a b => ¬ a.AgreesOn table.keyFields b :=
  (table.ordered_perm read).symm.pairwise (hdistinct.sublist (table.candidates_sublist read))
    fun hdiffer hsame => hdiffer hsame.symm

/-- The keys of a row and any more of its fields tell it from all other rows. -/
theorem cursor_points (hall : ∀ row ∈ table.rows, row.HasAll table.keyFields)
    (hdistinct : table.rows.Pairwise fun a b => ¬ a.AgreesOn table.keyFields b)
    (hne : table.keyFields ≠ []) {row : Record} (hrow : row ∈ table.rows) (more : List String) :
    (Cursor.ofRow row (table.keyFields ++ more)).pointsAt row = true ∧
      table.rows.countP (Cursor.ofRow row (table.keyFields ++ more)).pointsAt = 1 := by
  have hkey := Record.isKeyOf_pick (hall row hrow) fun _ => Iff.rfl
  have hpick : row.pick table.keyFields ≠ [] :=
    (Record.hasKey_iff.mp ((hkey row).mpr ⟨hne, .refl row⟩)).1
  obtain ⟨hself, honly⟩ := Record.hasKey_pick_of_part (fun _ _ hvalue => hvalue)
    (fun name hname => And.intro (List.mem_append_left more hname) rfl) hpick
  exact ⟨hself, Record.countP_eq_one hdistinct hrow hself fun other _ hother =>
    ((hkey other).mp (honly other hother)).2⟩

theorem page_serves (hall : ∀ row ∈ table.rows, row.HasAll table.keyFields)
    (hdistinct : table.rows.Pairwise fun a b => ¬ a.AgreesOn table.keyFields b)
    (hlimit : read.limit ≠ some 0) (hrows : rows.Sublist (table.ordered read))
    (hafter : after (table.ordered read) read.startKey = .ok rows) :
    ∃ page, table.page read = .ok page ∧ table.Serves read rows page := by
  have hpage : table.page read = .ok ⟨(taken read rows).map fun row => row.project (returned read),
      if (taken read rows).length < rows.length then
        (taken read rows).getLast?.map fun row => Cursor.ofRow row (table.cursorFields read)
      else none⟩ := by
    simp only [page, hafter, Except.map]
    rfl
  have hsublist := taken_sublist read rows
  refine ⟨_, hpage, rfl, ?_, ?_⟩
  · by_cases hfewer : (taken read rows).length < rows.length
    · have hne : taken read rows ≠ [] := taken_ne_nil hlimit (by rintro rfl; simp at hfewer)
      rw [if_pos hfewer, Option.map_eq_none_iff, List.getLast?_eq_none_iff]
      constructor
      · intro hnil
        exact absurd hnil hne
      · intro hall
        rw [hall] at hfewer
        omega
    · rw [if_neg hfewer]
      exact ⟨fun _ => hsublist.eq_of_length_le (Nat.le_of_not_lt hfewer), fun _ => rfl⟩
  · intro cursor hnext
    by_cases hfewer : (taken read rows).length < rows.length
    · rw [if_pos hfewer, Option.map_eq_some_iff] at hnext
      obtain ⟨last, hlast, rfl⟩ := hnext
      have htaken : last ∈ taken read rows := List.mem_of_getLast? hlast
      have hmem : last ∈ table.rows :=
        table.ordered_subset read (hrows.subset (hsublist.subset htaken))
      -- Without keys there would be one row at most, and it would have been taken.
      have hne : table.keyFields ≠ [] := by
        intro hnil
        have hapart := (ordered_distinct hdistinct read).sublist hrows
        rw [hnil] at hapart
        have hone := Record.length_le_one hapart
        have hpos := List.length_pos_of_mem htaken
        omega
      exact ⟨last, hlast, cursor_points hall hdistinct hne hmem _⟩
    · rw [if_neg hfewer] at hnext
      cases hnext

theorem after_append {before behind : List Record} {row : Record} {cursor : Cursor}
    (hbefore : ∀ other ∈ before, cursor.pointsAt other = false)
    (hrow : cursor.pointsAt row = true) :
    after (before ++ row :: behind) (some cursor) = .ok behind := by
  have hnone : before.findIdx? cursor.pointsAt = none := List.findIdx?_eq_none_iff.mpr hbefore
  have hfind : (before ++ row :: behind).findIdx? cursor.pointsAt = some before.length := by
    rw [List.findIdx?_append, hnone, List.findIdx?_cons, if_pos hrow]
    simp
  rw [after, hfind]
  simp

end Table

/-- The rows of a table in the order of an index and a direction, of a segment or of all. -/
def Table.along (table : Table) (indexName : Option String) (forward : Option Bool)
    (segment totalSegments : Option UInt32) : List Record :=
  table.ordered { tableName := "", indexName, forward, segment, totalSegments }

theorem Table.segments_perm (table : Table) (indexName : Option String) (forward : Option Bool)
    {total : UInt32} (htotal : total ≠ 0) :
    ((List.range total.toNat).flatMap fun index =>
      table.along indexName forward (some (.ofNat index)) (some total)).Perm table.rows := by
  have hpos : 0 < total.toNat :=
    Nat.pos_of_ne_zero fun hzero => htotal (UInt32.toNat_inj.mp hzero)
  have hsegment : ∀ index ∈ List.range total.toNat,
      (table.along indexName forward (some (.ofNat index)) (some total)).Perm
        (Table.segmentRows index total.toNat table.rows) := by
    intro index hindex
    have hword : (UInt32.ofNat index).toNat = index :=
      UInt32.toNat_ofNat_of_lt' (Nat.lt_trans (List.mem_range.mp hindex) total.toNat_lt)
    have hcandidates : table.candidates ⟨"", none, none, none, [], [], indexName, forward, none,
        none, some (.ofNat index), some total⟩ =
          Table.segmentRows index total.toNat table.rows := by
      rw [Table.candidates]
      simp only [if_neg htotal, hword]
    rw [← hcandidates]
    exact table.ordered_perm _
  have hclasses := flatMap_filter_range_perm
    (fun entry : Record × Nat => entry.2 % UInt32.size % total.toNat) table.rows.zipIdx total.toNat
  rw [List.filter_eq_self.mpr fun entry _ => decide_eq_true (Nat.mod_lt _ hpos)] at hclasses
  have hrows := hclasses.map (·.1)
  rw [List.map_flatMap, List.zipIdx_map_fst] at hrows
  exact (List.Perm.flatMap_left _ hsegment).trans hrows

/-- **Pages of one order.** Of a table whose rows have all key fields and differ in them: for each
index, direction and segment there is an order of the candidates, and the segments of one total hold
every row of the table once. Whatever else a read with a positive limit asks for, its page begins
with the first row of this order if there is no cursor, and behind a row if the cursor has entries,
each of which is the row's, with the key fields among them; it holds as many rows as the limit
allows, is the last exactly if it reaches the end, and names its own last row alone otherwise. A
cursor that points at no row of the order is refused, and one without entries points at none. -/
theorem fetch_serves_one_order (table : Table)
    (hall : ∀ row ∈ table.rows, row.HasAll table.keyFields)
    (hdistinct : table.rows.Pairwise fun a b => ¬ a.AgreesOn table.keyFields b) :
    ∃ order : Option String → Option Bool → Option UInt32 → Option UInt32 → List Record,
      (∀ read : TableRead,
        (order read.indexName read.forward read.segment read.totalSegments).Perm
          (table.candidates read)) ∧
      (∀ indexName forward total, total ≠ 0 →
        ((List.range total.toNat).flatMap fun index =>
          order indexName forward (some (.ofNat index)) (some total)).Perm table.rows) ∧
      ∀ (read : TableRead) (store : Store), store.tables.get? read.tableName = some table →
        read.limit ≠ some 0 →
        let rows := order read.indexName read.forward read.segment read.totalSegments
        let outcome := (Store.fetch read store).1
        (read.startKey = none → ∃ page, outcome = .ok page ∧ table.Serves read rows page) ∧
        (∀ start before row behind, read.startKey = some start → rows = before ++ row :: behind →
          start.key ≠ [] →
          (∀ member ∈ start.key, (row.get? member.1 == some member.2) = true) →
          (∀ field ∈ table.keyFields, field ∈ start.key.map Prod.fst) →
          ∃ page, outcome = .ok page ∧ table.Serves read behind page) ∧
        ∀ start, read.startKey = some start → (∀ row ∈ rows, start.pointsAt row = false) →
          outcome = .error (.invalidCursor .startKeyNotFound) := by
  refine ⟨table.along, fun read => table.ordered_perm read,
    fun indexName forward total htotal => table.segments_perm indexName forward htotal, ?_⟩
  intro read store htable hlimit rows outcome
  have houtcome : outcome = table.page read := by
    simp only [outcome, Store.fetch, Store.readTable, Store.table, htable]
    rfl
  have hrows : rows = table.ordered read := rfl
  rw [houtcome]
  refine ⟨fun hstart => ?_, fun start before row behind hstart hsplit hne hentries hnames => ?_,
    fun start hstart hnone => ?_⟩
  · refine Table.page_serves hall hdistinct hlimit (.refl _) ?_
    rw [hstart]
    rfl
  · have hpoints : start.pointsAt row = true := Record.hasKey_iff.mpr ⟨hne, hentries⟩
    have hapart : (before ++ row :: behind).Pairwise fun a b =>
        ¬ a.AgreesOn table.keyFields b := hsplit ▸ Table.ordered_distinct hdistinct read
    have hbefore : ∀ other ∈ before, start.pointsAt other = false := by
      intro other hother
      refine Bool.eq_false_iff.mpr fun hsame => ?_
      exact (List.pairwise_append.mp hapart).2.2 other hother row List.mem_cons_self
        (Cursor.agreesOn_of_pointsAt hnames hpoints hsame)
    have hsublist : behind.Sublist (table.ordered read) := by
      rw [← hrows, hsplit]
      exact (List.sublist_cons_self row behind).trans (List.sublist_append_right _ _)
    refine Table.page_serves hall hdistinct hlimit hsublist ?_
    rw [hstart, ← hrows, hsplit]
    exact Table.after_append hbefore hpoints
  · have hfind : rows.findIdx? start.pointsAt = none := List.findIdx?_eq_none_iff.mpr hnone
    rw [Table.page, hstart, Table.after, ← hrows, hfind]
    rfl

def visit (id : Nat) (rest : Record) : Record := ("id", .nat id) :: rest

/-- Two visits of one day, and one of which the day is not known. -/
def visits : Table :=
  ⟨["id"], [visit 1 [("day", .nat 5)], visit 2 [("day", .nat 5)], visit 3 []]⟩

def visitStore : Store := { tables := [("visits", visits)] }

/-- The visits by day, the latest first, one on a page. -/
def visitRead (startKey : Option Cursor) : TableRead :=
  { tableName := "visits", indexName := some "day", forward := some false, limit := some 1,
    startKey }

/-- The first page, and the one behind the first visit, of one order. -/
theorem visits_serve_one_order :
    ∃ rows first before behind next, rows.Perm visits.rows ∧
      (Store.fetch (visitRead none) visitStore).1 = .ok first ∧
      visits.Serves (visitRead none) rows first ∧
      rows = before ++ visit 1 [("day", .nat 5)] :: behind ∧
      (Store.fetch (visitRead (some ⟨visit 1 []⟩)) visitStore).1 = .ok next ∧
      visits.Serves (visitRead (some ⟨visit 1 []⟩)) behind next := by
  obtain ⟨order, hperm, -, hserves⟩ := fetch_serves_one_order visits (by decide) (by decide)
  have hrows := hperm (visitRead none)
  obtain ⟨before, behind, hsplit⟩ :=
    List.append_of_mem (hrows.mem_iff.mpr (List.mem_cons_self : visit 1 [("day", .nat 5)] ∈ _))
  obtain ⟨first, hfirst, hpage⟩ := (hserves (visitRead none) visitStore rfl (by decide)).1 rfl
  obtain ⟨next, hnext, hpage'⟩ :=
    (hserves (visitRead (some ⟨visit 1 []⟩)) visitStore rfl (by decide)).2.1 _ before _ behind rfl
      hsplit (by decide) (by decide) (by decide)
  exact ⟨_, first, before, behind, next, hrows, hfirst, hpage, hsplit, hnext, hpage'⟩

end KeyValue

end SchemaQuery
