import SchemaQuery.Paging.Segmented
import SchemaQuery.Proofs.Json.Members

/-!
# Stores that serve one fixed list of rows

A source is a list of rows with the places at which its cursors stand, a place being the number of
rows before it. A store serves a source if it answers every fetch by a run of the rows after the
cursor, of any length, which is empty only if no row is left, and says where to go on unless the run
reaches the end. Which rows a page holds beyond that may depend on the state of the store.
-/

namespace SchemaQuery

namespace Cursor

/-- A cursor that was taken from a row and points anywhere points at that row. -/
theorem pointsAt_ofRow_self {row other : Record} {keys : List String}
    (hother : (ofRow row keys).pointsAt other = true) : (ofRow row keys).pointsAt row = true := by
  simp only [pointsAt, ofRow] at hother ⊢
  rw [Record.hasKey_pick]
  simp only [Record.hasKey, Bool.and_eq_true] at hother
  exact hother.1

end Cursor

structure Source where
  rows : List Record
  /-- A cursor stands behind so many rows. -/
  stands : Cursor → Nat → Prop

namespace Source

/-- The rows of a table: a cursor that points at exactly one row stands behind that row. -/
def ofRows (rows : List Record) : Source where
  rows := rows
  stands cursor before :=
    rows.countP cursor.pointsAt = 1 ∧ rows.findIdx cursor.pointsAt + 1 = before

variable (source : Source)

/-- The place from which a fetch reads on; without a cursor it reads from the first row. -/
def At : Option Cursor → Nat → Prop
  | none, before => before = 0
  | some cursor, before => source.stands cursor before

/-- The place of the position of a segment. -/
def Placed : SegmentCursor → Nat → Prop
  | .start, before => before = 0
  | .resume cursor, before => source.stands cursor before ∧ before ≤ source.rows.length
  | .exhausted, before => before = source.rows.length

/-- What a store may answer to a fetch from a place. -/
structure Answers (before : Nat) (page : Page) : Prop where
  isPrefix_items : page.items <+: source.rows.drop before
  items_ne_nil : before < source.rows.length → page.items ≠ []
  next_eq_none : page.next = none ↔ source.rows.length ≤ before + page.items.length
  next_stands : ∀ cursor, page.next = some cursor →
    source.stands cursor (before + page.items.length)

def ServedBy {S : Type} (fetch : Fetch S) (segment : Option Segment) : Prop :=
  ∀ cursor before state, source.At cursor before → before ≤ source.rows.length →
    ∃ page after, fetch ⟨segment, cursor⟩ state = (.ok page, after) ∧ source.Answers before page

/-- The cursor of every row, taken from its key fields, stands behind that row. -/
def Keyed (keys : List String) : Prop :=
  ∀ (place : Nat) (row : Record), source.rows[place]? = some row →
    source.stands (Cursor.ofRow row keys) (place + 1)

/-- Every segment of a scan is served. -/
def SegmentsServed {S : Type} (source : Nat → Source) (fetch : Fetch S) (total : Nat) : Prop :=
  ∀ index < total, (source index).ServedBy fetch (some ⟨index, total⟩)

/-- The positions of the segments stand at given places. -/
def SegmentsPlaced (source : Nat → Source) (positions : List SegmentCursor) (first : Nat → Nat) :
    Prop :=
  ∀ (index : Nat) (position : SegmentCursor), positions[index]? = some position →
    (source index).Placed position (first index)

variable {source}

theorem Placed.le {cursor : SegmentCursor} {before : Nat} (hplaced : source.Placed cursor before) :
    before ≤ source.rows.length := by
  cases cursor with
  | start => exact (show before = 0 from hplaced) ▸ Nat.zero_le _
  | resume cursor => exact hplaced.2
  | exhausted => exact Nat.le_of_eq hplaced

theorem Answers.le {before : Nat} {page : Page} (hanswers : source.Answers before page)
    (hbefore : before ≤ source.rows.length) :
    before + page.items.length ≤ source.rows.length := by
  have hlength := hanswers.isPrefix_items.length_le
  rw [List.length_drop] at hlength
  omega

/-- The rows of a page follow those read before it. -/
theorem Answers.isPrefix_append {first : Nat} {items : List Record} {page : Page}
    (hitems : items <+: source.rows.drop first)
    (hanswers : source.Answers (first + items.length) page) :
    items ++ page.items <+: source.rows.drop first := by
  obtain ⟨rest, hrest⟩ := hitems
  have hdrop : source.rows.drop (first + items.length) = rest := by
    rw [← List.drop_drop, ← hrest, List.drop_left]
  have hpage := hanswers.isPrefix_items
  rw [hdrop] at hpage
  obtain ⟨tail, htail⟩ := hpage
  exact ⟨tail, by rw [List.append_assoc, htail, hrest]⟩

/-- Where only one entry has a property, the search for it ends there. -/
theorem findIdx_eq_of_countP_eq_one {α : Type} {p : α → Bool} {entries : List α} {place : Nat}
    (hcount : entries.countP p = 1) (hplace : place < entries.length)
    (hp : p entries[place] = true) : entries.findIdx p = place := by
  induction entries generalizing place with
  | nil => simp at hplace
  | cons head rest ih =>
      rw [List.findIdx_cons]
      cases hhead : p head with
      | false =>
          rw [List.countP_cons_of_neg (by simp [hhead])] at hcount
          cases place with
          | zero => simp [hhead] at hp
          | succ place =>
              rw [ih hcount (by simpa using hplace) (by simpa using hp)]
              rfl
      | true =>
          rw [List.countP_cons_of_pos hhead] at hcount
          have hnone : rest.countP p = 0 := by omega
          cases place with
          | zero => rfl
          | succ place =>
              have hrest : place < rest.length := Nat.lt_of_succ_lt_succ hplace
              have hmem : rest[place] ∈ rest := List.getElem_mem hrest
              exact absurd hp (List.countP_eq_zero.mp hnone _ hmem)

/-- If the cursor of each row points at exactly one row, that row is its own. -/
theorem keyed_ofRows {rows : List Record} {keys : List String}
    (hunique : ∀ row ∈ rows, rows.countP (Cursor.ofRow row keys).pointsAt = 1) :
    (ofRows rows).Keyed keys := by
  intro place row hrow
  have hrow' : rows[place]? = some row := hrow
  obtain ⟨hplace, rfl⟩ := List.getElem?_eq_some_iff.mp hrow'
  have hcount := hunique _ (List.getElem_mem hplace)
  refine ⟨hcount, ?_⟩
  generalize hcursor : Cursor.ofRow rows[place] keys = cursor at hcount ⊢
  have hself : cursor.pointsAt rows[place] = true := by
    obtain ⟨other, -, hother⟩ := List.countP_pos_iff.mp (hcount ▸ Nat.one_pos)
    subst hcursor
    exact Cursor.pointsAt_ofRow_self hother
  rw [findIdx_eq_of_countP_eq_one hcount hplace hself]

end Source

namespace Paging

/-- How many rows lie before the place of a cursor. -/
def placeOf (rows : List Record) : Option Cursor → Nat
  | none => 0
  | some cursor => rows.findIdx cursor.pointsAt + 1

/-- A store that serves fixed lists of rows in pages of one size. -/
def fixedPages (size : Nat) (keys : List String) (rows : Option Segment → List Record) :
    Fetch Unit := fun request state =>
  let all := rows request.segment
  let before := placeOf all request.cursor
  let items := (all.drop before).take size
  let next :=
    if before + items.length < all.length then
      items.getLast?.map fun row => Cursor.ofRow row keys
    else none
  (.ok ⟨items, next⟩, state)

theorem fixedPages_servedBy {size : Nat} {keys : List String} {rows : Option Segment → List Record}
    {segment : Option Segment} (hsize : 0 < size)
    (hunique : ∀ row ∈ rows segment,
      (rows segment).countP (Cursor.ofRow row keys).pointsAt = 1) :
    (Source.ofRows (rows segment)).ServedBy (fixedPages size keys rows) segment := by
  intro cursor before state hat hbefore
  have hplace : placeOf (rows segment) cursor = before := by
    cases cursor with
    | none => exact (show before = 0 from hat).symm
    | some cursor => exact hat.2
  refine ⟨_, _, rfl, ?_⟩
  simp only [hplace]
  generalize hall : rows segment = all at hunique hbefore ⊢
  have hlength : ((all.drop before).take size).length = min size (all.length - before) := by
    rw [List.length_take, List.length_drop]
  refine ⟨List.take_prefix _ _, fun hlt => ?_, ?_, ?_⟩
  · rw [← List.length_pos_iff, hlength]
    change before < all.length at hlt
    omega
  · change _ ↔ all.length ≤ _
    split
    next hmore =>
      have hsome : ((all.drop before).take size) ≠ [] := by
        rw [← List.length_pos_iff, hlength]
        omega
      rw [List.getLast?_eq_some_getLast hsome]
      simp only [Option.map_some, reduceCtorEq, false_iff]
      omega
    next hend => simp only [true_iff]; omega
  · intro cursor hcursor
    simp only at hcursor
    split at hcursor
    next hmore =>
      obtain ⟨row, hrow, rfl⟩ := Option.map_eq_some_iff.mp hcursor
      rw [List.getLast?_eq_getElem?, List.getElem?_take_of_lt (by omega),
        List.getElem?_drop] at hrow
      have hkeyed := Source.keyed_ofRows hunique _ _ hrow
      have hlast : before + (((all.drop before).take size).length - 1) + 1 =
          before + ((all.drop before).take size).length := by omega
      rwa [hlast] at hkeyed
    next => cases hcursor

theorem length_fixedPages_le {size : Nat} {keys : List String}
    {rows : Option Segment → List Record} (request : PageRequest) (state : Unit) (page : Page)
    (after : Unit) (hpage : fixedPages size keys rows request state = (.ok page, after)) :
    page.items.length ≤ size := by
  obtain rfl := Except.ok.inj (Prod.mk.inj hpage).1
  exact List.length_take_le _ _

/-- Rows by number, the even ones in the first segment and the odd ones in the second. -/
def numberedRows : Option Segment → List Record
  | none => [0, 1, 2, 3, 4].map fun n => [("id", .nat n)]
  | some segment => ([0, 1, 2, 3, 4].filter (· % 2 = segment.index)).map fun n => [("id", .nat n)]

theorem fixedPages_numberedRows_servedBy {size index : Nat} (hsize : 0 < size)
    (hindex : index < 2) :
    (Source.ofRows (numberedRows (some ⟨index, 2⟩))).ServedBy (fixedPages size ["id"] numberedRows)
      (some ⟨index, 2⟩) := by
  have hsegment : index = 0 ∨ index = 1 := by omega
  refine fixedPages_servedBy hsize ?_
  rcases hsegment with rfl | rfl <;> decide

end Paging

end SchemaQuery
