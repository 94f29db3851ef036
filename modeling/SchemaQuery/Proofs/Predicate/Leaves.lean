import Mathlib.Data.List.Lex
import SchemaQuery.Proofs.Predicate.Planned
import SchemaQuery.Proofs.Store.Paths

/-!
# The leaves of a map

The conditions that a map asks for are on its leaves. They are listed in the order in which the
names on the way to them ascend, so that each comes once and none stands behind another. Written
back into an empty row at their paths, they give the map again without what holds no leaf.
-/

namespace SchemaQuery

open Record (Diverge)

namespace Json

/-! ### Where values stand -/

/-- What a value holds at a path: itself at the empty one, and what its members hold. -/
inductive Holds : Json → List String → Json → Prop
  | here (value : Json) : Holds value [] value
  | behind {members : Record} {name : String} {child held : Json} {path : List String}
      (hmem : (name, child) ∈ members) (hholds : Holds child path held) :
      Holds (object members) (name :: path) held

theorem holds_object_iff {members : Record} {path : List String} {held : Json} :
    (object members).Holds path held ↔ (path = [] ∧ held = object members) ∨
      ∃ member ∈ members, ∃ rest, path = member.1 :: rest ∧ member.2.Holds rest held := by
  constructor
  · intro hholds
    cases hholds with
    | here => exact Or.inl ⟨rfl, rfl⟩
    | behind hmem hholds => exact Or.inr ⟨_, hmem, _, rfl, hholds⟩
  · rintro (⟨rfl, rfl⟩ | ⟨member, hmem, rest, rfl, hholds⟩)
    · exact .here _
    · exact .behind hmem hholds

theorem holds_iff_of_object?_eq_none {value held : Json} {path : List String}
    (hvalue : value.object? = none) : value.Holds path held ↔ path = [] ∧ held = value := by
  constructor
  · intro hholds
    cases hholds with
    | here => exact ⟨rfl, rfl⟩
    | behind hmem hholds => cases hvalue
  · rintro ⟨rfl, rfl⟩
    exact .here _

/-- What a value holds is read along its path, where no object has a name twice. -/
theorem Holds.read {value held : Json} {path : List String} (hholds : value.Holds path held)
    (hdistinct : value.IsDistinct) :
    path.foldl (fun value name => value.bind (Json.get? · name)) (some value) = some held := by
  induction hholds with
  | here => rfl
  | behind hmem _ ih =>
      obtain ⟨hnodup, hall⟩ := hdistinct
      rw [List.foldl_cons, Option.bind_some, get?, Members.get?_eq_some_of_mem hnodup hmem]
      exact ih (allMembers_iff.mp hall _ hmem)

mutual

theorem IsSorted.isDistinct : ∀ {value : Json}, value.IsSorted → value.IsDistinct
  | object _, hsorted => ⟨Members.IsAscending.nodup hsorted.1, membersDistinct hsorted.2⟩
  | array _, hsorted => itemsDistinct hsorted
  | null, _ | bool _, _ | number _, _ | string _, _ => trivial

theorem itemsDistinct : ∀ {items : List Json}, AllItems Members.IsAscending items →
    AllItems (fun members => (members.map (·.1)).Nodup) items
  | [], _ => trivial
  | _ :: _, hsorted => ⟨IsSorted.isDistinct hsorted.1, itemsDistinct hsorted.2⟩

theorem membersDistinct : ∀ {members : Record}, AllMembers Members.IsAscending members →
    AllMembers (fun members => (members.map (·.1)).Nodup) members
  | [], _ => trivial
  | _ :: _, hsorted => ⟨IsSorted.isDistinct hsorted.1, membersDistinct hsorted.2⟩

end

/-! ### The list of leaves -/

theorem mem_leaves_of_isLeaf {value held : Json} {before path : List String}
    (hleaf : value.IsLeaf) (hvalue : value.object? = none) :
    (path, held) ∈ [(before, value)] ↔
      ∃ rest, path = before ++ rest ∧ value.Holds rest held ∧ held.IsLeaf := by
  rw [List.mem_singleton]
  simp only [holds_iff_of_object?_eq_none hvalue]
  constructor
  · rintro ⟨⟩
    exact ⟨[], (List.append_nil _).symm, ⟨rfl, rfl⟩, hleaf⟩
  · rintro ⟨rest, rfl, ⟨rfl, rfl⟩, -⟩
    rw [List.append_nil]

mutual

/-- The leaves are what a value holds and is a leaf, with the paths to them. -/
theorem mem_leaves_iff : ∀ {value held : Json} {before path : List String},
    (path, held) ∈ value.leaves before ↔
      ∃ rest, path = before ++ rest ∧ value.Holds rest held ∧ held.IsLeaf
  | null, held, before, path => by
      refine iff_of_false List.not_mem_nil ?_
      rintro ⟨rest, -, hholds, hleaf⟩
      obtain ⟨-, rfl⟩ := (holds_iff_of_object?_eq_none rfl).mp hholds
      exact hleaf
  | bool _, _, _, _ => mem_leaves_of_isLeaf trivial rfl
  | number _, _, _, _ => mem_leaves_of_isLeaf trivial rfl
  | string _, _, _, _ => mem_leaves_of_isLeaf trivial rfl
  | array _, _, _, _ => mem_leaves_of_isLeaf trivial rfl
  | object [], held, before, path => by
      rw [leaves, List.mem_singleton]
      simp only [holds_object_iff, List.not_mem_nil, false_and, exists_false, or_false]
      constructor
      · rintro ⟨⟩
        exact ⟨[], (List.append_nil _).symm, ⟨rfl, rfl⟩, trivial⟩
      · rintro ⟨rest, rfl, ⟨rfl, rfl⟩, -⟩
        rw [List.append_nil]
  | object (member :: members), held, before, path => by
      rw [leaves, mem_memberLeaves_iff]
      simp only [holds_object_iff]
      constructor
      · rintro ⟨child, hmem, rest, hpath, hholds, hleaf⟩
        exact ⟨_, hpath, Or.inr ⟨child, hmem, rest, rfl, hholds⟩, hleaf⟩
      · rintro ⟨rest, hpath, ⟨-, rfl⟩ | ⟨child, hmem, more, rfl, hholds⟩, hleaf⟩
        · exact absurd hleaf id
        · exact ⟨child, hmem, more, hpath, hholds, hleaf⟩

theorem mem_memberLeaves_iff : ∀ {members : List (String × Json)} {held : Json}
    {before path : List String}, (path, held) ∈ memberLeaves before members ↔
      ∃ member ∈ members, ∃ rest, path = before ++ member.1 :: rest ∧ member.2.Holds rest held ∧
        held.IsLeaf
  | [], held, before, path => by simp [memberLeaves]
  | (name, value) :: rest, held, before, path => by
      rw [memberLeaves, List.mem_append, mem_leaves_iff, mem_memberLeaves_iff]
      simp only [List.append_assoc, List.singleton_append, List.exists_mem_cons_iff]

end

/-- Paths that part at some name stand in the order of the names there, and neither leads on from
the other. -/
theorem lt_and_diverge {name other : String} (hlt : name < other) (before rest more : List String) :
    before ++ name :: rest < before ++ other :: more ∧
      Diverge (before ++ name :: rest) (before ++ other :: more) := by
  refine ⟨?_, fun hprefix => ?_, fun hprefix => ?_⟩
  · exact List.Lex.append_left _ (List.Lex.rel hlt) before
  · rw [List.prefix_append_right_inj] at hprefix
    exact hlt.ne (List.cons_prefix_cons.mp hprefix).1
  · rw [List.prefix_append_right_inj] at hprefix
    exact hlt.ne' (List.cons_prefix_cons.mp hprefix).1

mutual

/-- The paths to the leaves ascend, and none leads on from another. -/
theorem leaves_pairwise : ∀ (value : Json) (before : List String), value.IsSorted →
    (value.leaves before).Pairwise fun a b => a.1 < b.1 ∧ Diverge a.1 b.1
  | null, _, _ => .nil
  | bool _, _, _ | number _, _, _ | string _, _, _ | array _, _, _ | object [], _, _ =>
      List.pairwise_singleton _ _
  | object (member :: members), before, hsorted =>
      memberLeaves_pairwise (member :: members) before hsorted.1 hsorted.2

theorem memberLeaves_pairwise : ∀ (members : List (String × Json)) (before : List String),
    Members.IsAscending members → AllMembers Members.IsAscending members →
    (memberLeaves before members).Pairwise fun a b => a.1 < b.1 ∧ Diverge a.1 b.1
  | [], _, _, _ => .nil
  | (name, value) :: rest, before, hascending, hsorted => by
      obtain ⟨hfirst, hascending⟩ := List.pairwise_cons.mp hascending
      rw [memberLeaves, List.pairwise_append]
      refine ⟨leaves_pairwise value _ hsorted.1,
        memberLeaves_pairwise rest before hascending hsorted.2, fun a ha b hb => ?_⟩
      obtain ⟨behind, ha, -⟩ := mem_leaves_iff.mp ha
      obtain ⟨member, hmem, more, hb, -⟩ := mem_memberLeaves_iff.mp hb
      rw [ha, hb, List.append_assoc]
      exact lt_and_diverge (hfirst member hmem) before behind more

end

mutual

theorem leaves_append : ∀ (value : Json) (before path : List String),
    value.leaves (before ++ path) =
      (value.leaves path).map fun leaf => (before ++ leaf.1, leaf.2)
  | null, _, _ => rfl
  | bool _, _, _ | number _, _, _ | string _, _, _ | array _, _, _ | object [], _, _ => rfl
  | object (member :: members), before, path => memberLeaves_append (member :: members) before path

theorem memberLeaves_append : ∀ (members : List (String × Json)) (before path : List String),
    memberLeaves (before ++ path) members =
      (memberLeaves path members).map fun leaf => (before ++ leaf.1, leaf.2)
  | [], _, _ => rfl
  | (name, value) :: rest, before, path => by
      rw [memberLeaves, memberLeaves, List.map_append, List.append_assoc,
        leaves_append value before, memberLeaves_append rest before]

end

/-! ### What holds no leaf -/

mutual

/-- A value without the `null`s in its objects and without the objects that come to be empty so;
nothing if it is one of these itself. An array is a leaf, whatever is in it. -/
def pruned? : Json → Option Json
  | null => none
  | object [] => some (object [])
  | object (member :: members) =>
      match prunedMembers (member :: members) with
      | [] => none
      | kept => some (object kept)
  | value => some value

def prunedMembers : List (String × Json) → List (String × Json)
  | [] => []
  | (name, value) :: rest =>
      match pruned? value with
      | some kept => (name, kept) :: prunedMembers rest
      | none => prunedMembers rest

end

theorem prunedMembers_cons (member : String × Json) (rest : List (String × Json)) :
    prunedMembers (member :: rest) = prunedMembers [member] ++ prunedMembers rest := by
  obtain ⟨name, value⟩ := member
  rw [prunedMembers, prunedMembers]
  cases pruned? value <;> rfl

theorem mem_prunedMembers_singleton {name : String} {value : Json} {member : String × Json}
    (hmem : member ∈ prunedMembers [(name, value)]) : member.1 = name := by
  rw [prunedMembers] at hmem
  split at hmem
  next => rw [List.mem_singleton.mp hmem]
  next => exact absurd hmem List.not_mem_nil

end Json

/-! ### Writing leaves -/

theorem Members.set_of_forall_lt {α : Type} {members : Members α} {name : String}
    (hlast : ∀ member ∈ members, member.1 < name) (value : α) :
    members.set name value = members ++ [(name, value)] := by
  induction members with
  | nil => rfl
  | cons member rest ih =>
      obtain ⟨key, old⟩ := member
      obtain ⟨hfirst, hrest⟩ := List.forall_mem_cons.mp hlast
      rw [set, if_neg hfirst.ne, if_neg (lt_asymm hfirst), ih hrest, List.cons_append]

theorem Members.set_ne_nil {α : Type} (members : Members α) (name : String) (value : α) :
    members.set name value ≠ [] := by
  intro hnil
  have hget := Members.get?_set_self members name value
  rw [hnil] at hget
  cases hget

namespace Record

/-- Sets values at paths one after the other. -/
def setAll (row : Record) (leaves : List (List String × Json)) : Except BackendFault Record :=
  leaves.foldlM (fun row leaf => row.setPath leaf.1 leaf.2) row

theorem setAll_cons (row : Record) (leaf : List String × Json)
    (leaves : List (List String × Json)) :
    row.setAll (leaf :: leaves) = (row.setPath leaf.1 leaf.2).bind (setAll · leaves) := rfl

theorem setAll_append (row : Record) (leaves more : List (List String × Json)) :
    row.setAll (leaves ++ more) = (row.setAll leaves).bind (setAll · more) := List.foldlM_append

theorem setAll_ne_nil {row after : Record} {leaves : List (List String × Json)}
    (hset : row.setAll leaves = .ok after) (hne : leaves ≠ []) : after ≠ [] := by
  obtain ⟨init, last, rfl⟩ := List.eq_nil_or_concat' leaves |>.resolve_left hne
  rw [setAll_append] at hset
  cases hinit : row.setAll init with
  | error fault => rw [hinit] at hset; cases hset
  | ok mid =>
      rw [hinit] at hset
      have hlast : mid.setPath last.1 last.2 = .ok after := by
        simpa [setAll, Except.bind] using hset
      obtain ⟨field, inner, -, rfl⟩ := exists_eq_set_of_setPath hlast
      exact Members.set_ne_nil mid field inner

/-- Leaves behind one field are set in what stands there. -/
theorem setAll_behind {row members : Record} {field : String}
    (hinner : row.inner? field = some members) {leaves : List (List String × Json)}
    (hne : leaves ≠ []) (hpaths : ∀ leaf ∈ leaves, leaf.1 ≠ []) :
    row.setAll (leaves.map fun leaf => ([field] ++ leaf.1, leaf.2)) =
      (setAll members leaves).map fun inner => Members.set row field (.object inner) := by
  induction leaves generalizing row members with
  | nil => exact absurd rfl hne
  | cons leaf rest ih =>
      obtain ⟨path, value⟩ := leaf
      obtain ⟨hpath, hrest⟩ := List.forall_mem_cons.mp hpaths
      obtain ⟨next, path, rfl⟩ := List.exists_cons_of_ne_nil hpath
      rw [List.map_cons, setAll_cons, setAll_cons]
      simp only [List.singleton_append, setPath_cons_cons, hinner]
      cases hset : setPath members (next :: path) value with
      | error fault => rfl
      | ok inner =>
          cases rest with
          | nil => rfl
          | cons second rest =>
              have hmore := ih (inner?_set_object row field inner) (List.cons_ne_nil _ _) hrest
              simp only [List.singleton_append] at hmore
              simp only [Except.map, Except.bind, hmore, Members.set_set]

end Record

namespace Json

open Record (setAll)

theorem setAll_leaf {row : Record} {name : String} (hlast : ∀ member ∈ row, member.1 < name)
    (value : Json) : row.setAll [([name], value)] = .ok (row ++ [(name, value)]) := by
  rw [← Members.set_of_forall_lt hlast]
  rfl

theorem inner?_of_forall_lt {row : Record} {name : String}
    (hlast : ∀ member ∈ row, member.1 < name) : row.inner? name = some [] := by
  have hnone : row.get? name = none := by
    by_contra hsome
    obtain ⟨member, hmem, hname⟩ := List.mem_map.mp (Members.mem_names_of_get?_ne_none hsome)
    exact (hlast member hmem).ne hname
  rw [Record.inner?, hnone]

mutual

/-- The leaves of a value, set behind the last field of a row, add what the value holds. -/
theorem setAll_leaves : ∀ (value : Json) (name : String) (row : Record), value.IsSorted →
    (∀ member ∈ row, member.1 < name) →
    row.setAll (value.leaves [name]) = .ok (row ++ prunedMembers [(name, value)])
  | null, _, row, _, _ => by
      rw [prunedMembers, pruned?]
      exact congrArg Except.ok (List.append_nil row).symm
  | bool _, _, _, _, hlast => setAll_leaf hlast _
  | number _, _, _, _, hlast => setAll_leaf hlast _
  | string _, _, _, _, hlast => setAll_leaf hlast _
  | array _, _, _, _, hlast => setAll_leaf hlast _
  | object [], _, _, _, hlast => setAll_leaf hlast _
  | object (member :: members), name, row, hsorted, hlast => by
      have hinside := setAll_memberLeaves (member :: members) [] hsorted.1 hsorted.2
        fun _ hmem => absurd hmem List.not_mem_nil
      rw [leaves, prunedMembers, pruned?, ← List.append_nil [name], memberLeaves_append]
      cases hleaves : memberLeaves [] (member :: members) with
      | nil =>
          -- Without leaves nothing is written, and nothing is left of the object.
          rw [hleaves] at hinside
          have hnone : [] = prunedMembers (member :: members) := Except.ok.inj hinside
          rw [← hnone, List.map_nil]
          exact congrArg Except.ok (List.append_nil row).symm
      | cons leaf more =>
          have hpaths : ∀ entry ∈ leaf :: more, entry.1 ≠ [] := by
            intro entry hmem hnil
            rw [← hleaves] at hmem
            obtain ⟨child, -, rest, hpath, -⟩ := mem_memberLeaves_iff.mp hmem
            rw [hnil] at hpath
            cases hpath
          rw [hleaves] at hinside
          have hkept := Record.setAll_ne_nil hinside (List.cons_ne_nil _ _)
          obtain ⟨first, kept, hpruned⟩ := List.exists_cons_of_ne_nil hkept
          rw [List.nil_append] at hpruned
          rw [Record.setAll_behind (inner?_of_forall_lt hlast) (List.cons_ne_nil _ _) hpaths,
            hinside, List.nil_append, hpruned]
          exact congrArg Except.ok (Members.set_of_forall_lt hlast _)

theorem setAll_memberLeaves : ∀ (members : List (String × Json)) (row : Record),
    Members.IsAscending members → AllMembers Members.IsAscending members →
    (∀ member ∈ row, ∀ other ∈ members, member.1 < other.1) →
    row.setAll (memberLeaves [] members) = .ok (row ++ prunedMembers members)
  | [], row, _, _, _ => congrArg Except.ok (List.append_nil row).symm
  | (name, value) :: rest, row, hascending, hsorted, hlast => by
      obtain ⟨hfirst, hascending⟩ := List.pairwise_cons.mp hascending
      have hvalue := setAll_leaves value name row hsorted.1
        fun member hmem => hlast member hmem _ List.mem_cons_self
      have hrest := setAll_memberLeaves rest (row ++ prunedMembers [(name, value)]) hascending
        hsorted.2 fun member hmem other hother => ?_
      · rw [memberLeaves, Record.setAll_append, List.nil_append, hvalue,
          prunedMembers_cons (name, value) rest, ← List.append_assoc]
        exact hrest
      · rcases List.mem_append.mp hmem with hmem | hmem
        · exact hlast member hmem other (List.mem_cons_of_mem _ hother)
        · rw [mem_prunedMembers_singleton hmem]
          exact hfirst other hother

end

/-- **The leaves of a map.** They are what the map holds that is neither `null` nor an object with
members. Their paths begin with the field and ascend, so that each comes once, and none leads on
from another. In the row of that one field each is found at its path, and setting them all in an
empty row succeeds and gives this row without what holds no leaf. -/
theorem leaves_listed_once (field : String) {value : Json} (hsorted : value.IsSorted) :
    (∀ path held, (path, held) ∈ value.leaves [field] ↔
      ∃ rest, path = field :: rest ∧ value.Holds rest held ∧ held.IsLeaf) ∧
    ((value.leaves [field]).Pairwise fun a b => a.1 < b.1 ∧ Diverge a.1 b.1) ∧
    (∀ leaf ∈ value.leaves [field], Record.getPath? [(field, value)] leaf.1 = some leaf.2) ∧
    Record.setAll [] (value.leaves [field]) = .ok (prunedMembers [(field, value)]) := by
  refine ⟨fun _ _ => mem_leaves_iff, leaves_pairwise value [field] hsorted, fun leaf hmem => ?_,
    setAll_leaves value field [] hsorted fun _ hmem => absurd hmem List.not_mem_nil⟩
  obtain ⟨rest, hpath, hholds, -⟩ := mem_leaves_iff.mp hmem
  rw [hpath, List.singleton_append, Record.getPath?, Members.get?, if_pos rfl]
  exact hholds.read hsorted.isDistinct

/-- An address with a part left open, an empty one, and one that holds nothing. -/
def address : Json :=
  .object [("door", .object [("code", .null), ("floor", .int 2)]), ("geo", .object []),
    ("lines", .array [.string "12", .null]), ("post", .object [("box", .null)])]

theorem address_leaves_listed_once :
    address.IsSorted ∧
    address.leaves ["home"] = [(["home", "door", "floor"], .int 2), (["home", "geo"], .object []),
      (["home", "lines"], .array [.string "12", .null])] ∧
    address.Holds ["door", "floor"] (.int 2) ∧
    ((address.leaves ["home"]).Pairwise fun a b => a.1 < b.1 ∧ Diverge a.1 b.1) ∧
    Record.getPath? [("home", address)] ["home", "geo"] = some (.object []) ∧
    Record.setAll [] (address.leaves ["home"]) = .ok [("home", .object [
      ("door", .object [("floor", .int 2)]), ("geo", .object []),
      ("lines", .array [.string "12", .null])])] := by
  have hsorted : address.IsSorted := by decide
  obtain ⟨hholds, hpaths, hread, hset⟩ := leaves_listed_once "home" hsorted
  obtain ⟨rest, hrest, hfloor, -⟩ := (hholds ["home", "door", "floor"] (.int 2)).mp (.head _)
  obtain rfl := (List.cons.inj hrest).2
  exact ⟨hsorted, rfl, hfloor, hpaths, hread (["home", "geo"], .object []) (.tail _ (.head _)),
    hset⟩

end Json

end SchemaQuery
