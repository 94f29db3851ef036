import SchemaQuery.Proofs.Json.Members

/-!
# Parts of rows

A row that is cut down to some fields keeps their values. So a key that is taken from what is left
of a row is a key of the row, and a row that has it has each shorter key of that row as well.
-/

namespace SchemaQuery

namespace Members

variable {α : Type}

theorem mem_of_get?_eq_some {members : Members α} {name : String} {value : α}
    (hget : members.get? name = some value) : (name, value) ∈ members := by
  induction members with
  | nil => cases hget
  | cons member rest ih =>
      obtain ⟨key, old⟩ := member
      rw [get?] at hget
      split at hget
      next hkey =>
        obtain rfl := Option.some.inj hget
        exact hkey ▸ List.mem_cons_self
      next => exact List.mem_cons_of_mem _ (ih hget)

/-- The value of a name that comes once. -/
theorem get?_eq_some_of_mem {members : Members α} (hnodup : (members.map Prod.fst).Nodup)
    {member : String × α} (hmem : member ∈ members) :
    members.get? member.1 = some member.2 := by
  induction members with
  | nil => exact absurd hmem List.not_mem_nil
  | cons first rest ih =>
      obtain ⟨hnew, hrest⟩ := List.nodup_cons.mp hnodup
      rw [get?]
      rcases List.mem_cons.mp hmem with rfl | hmem
      · rw [if_pos rfl]
      · rw [if_neg fun heq : first.1 = member.1 => hnew (heq ▸ List.mem_map_of_mem hmem)]
        exact ih hrest hmem

/-- Members laid on others that have the same values as these. -/
theorem get?_merge_of_forall {base more : Members α} {name : String} {value : α}
    (hmore : ∀ member ∈ more, member.1 = name → member.2 = value)
    (hbase : base.get? name = some value ∨ name ∈ more.map Prod.fst) :
    (base.merge more).get? name = some value := by
  induction more generalizing base with
  | nil => exact hbase.resolve_right List.not_mem_nil
  | cons member rest ih =>
      obtain ⟨hfirst, hrest⟩ := List.forall_mem_cons.mp hmore
      refine ih hrest ?_
      change (base.set member.1 member.2).get? name = some value ∨ _
      by_cases hname : member.1 = name
      · refine Or.inl ?_
        rw [hname, hfirst hname, get?_set_self]
      · rw [get?_set_of_ne _ _ hname]
        refine hbase.imp_right fun hmem => ?_
        exact (List.mem_cons.mp hmem).resolve_left (Ne.symm hname)

/-- A member of a new name is one more. -/
theorem set_perm {members : Members α} {name : String} (hnew : name ∉ members.map Prod.fst)
    (value : α) : (members.set name value).Perm ((name, value) :: members) := by
  induction members with
  | nil => exact .refl _
  | cons member rest ih =>
      obtain ⟨key, old⟩ := member
      obtain ⟨hne, hrest⟩ := not_or.mp (mt List.mem_cons.mpr hnew)
      rw [set, if_neg (Ne.symm hne)]
      split
      next => exact .refl _
      next => exact ((ih hrest).cons _).trans (.swap _ _ _)

/-- Where no name comes twice, laying members on others loses none. -/
theorem merge_perm {base more : Members α} (hnodup : ((base ++ more).map Prod.fst).Nodup) :
    (base.merge more).Perm (base ++ more) := by
  induction more generalizing base with
  | nil => rw [List.append_nil]; exact .refl _
  | cons member rest ih =>
      have hmove : (member :: (base ++ rest)).Perm (base ++ member :: rest) :=
        List.perm_middle.symm
      have hall : (((member :: base) ++ rest).map Prod.fst).Nodup :=
        (hmove.map Prod.fst).nodup_iff.mpr hnodup
      have hnew : member.1 ∉ base.map Prod.fst := by
        rw [List.cons_append, List.map_cons, List.nodup_cons, List.map_append] at hall
        exact fun hmem => hall.1 (List.mem_append_left _ hmem)
      have hset := set_perm hnew member.2
      have hsetAll : (base.set member.1 member.2 ++ rest).Perm (member :: (base ++ rest)) :=
        hset.append_right rest
      refine ((ih ?_).trans hsetAll).trans hmove
      exact (hsetAll.map Prod.fst).nodup_iff.mpr hall

theorem ofList_perm {members : List (String × α)} (hnodup : (members.map Prod.fst).Nodup) :
    (ofList members).Perm members := merge_perm hnodup

end Members

namespace Record

theorem get?_of_get?_pick {row : Record} {fields : List String} {name : String} {value : Json}
    (hget : Members.get? (row.pick fields) name = some value) : row.get? name = some value :=
  @get?_of_mem_pick row fields (name, value) (Members.mem_of_get?_eq_some hget)

theorem get?_pick {fields : List String} {name : String} (row : Record) (hname : name ∈ fields) :
    Members.get? (row.pick fields) name = row.get? name := by
  cases hvalue : row.get? name with
  | none =>
      cases hget : Members.get? (row.pick fields) name with
      | none => rfl
      | some value =>
          rw [get?_of_get?_pick hget] at hvalue
          cases hvalue
  | some value =>
      refine Members.get?_merge_of_forall (fun member hmember hfirst => ?_)
        (Or.inr (List.mem_map.mpr ⟨(name, value), ?_, rfl⟩))
      · obtain ⟨field, -, hfield⟩ := List.mem_filterMap.mp hmember
        obtain ⟨other, hother, rfl⟩ := Option.map_eq_some_iff.mp hfield
        obtain rfl : field = name := hfirst
        rw [hvalue] at hother
        exact (Option.some.inj hother).symm
      · refine List.mem_filterMap.mpr ⟨name, hname, ?_⟩
        rw [hvalue]
        rfl

/-- What is picked of a row are its values of the fields. -/
theorem mem_pick_iff {row : Record} {fields : List String} {member : String × Json} :
    member ∈ row.pick fields ↔ member.1 ∈ fields ∧ row.get? member.1 = some member.2 := by
  constructor
  · intro hmem
    refine ⟨?_, get?_of_mem_pick hmem⟩
    obtain ⟨field, hfield, hvalue⟩ := List.mem_filterMap.mp (Members.mem_of_mem_ofList hmem)
    obtain ⟨value, -, rfl⟩ := Option.map_eq_some_iff.mp hvalue
    exact hfield
  · rintro ⟨hfield, hvalue⟩
    exact Members.mem_of_get?_eq_some ((get?_pick row hfield).trans hvalue)

theorem get?_of_get?_project {row : Record} {fields : Option (List String)} {name : String}
    {value : Json} (hget : Members.get? (row.project fields) name = some value) :
    row.get? name = some value := by
  cases fields with
  | none => exact hget
  | some fields => exact get?_of_get?_pick hget

theorem get?_project {fields : Option (List String)} {name : String} (row : Record)
    (hname : ∀ given, fields = some given → name ∈ given) :
    Members.get? (row.project fields) name = row.get? name := by
  cases fields with
  | none => rfl
  | some fields => exact get?_pick row (hname fields rfl)

theorem hasKey_iff {row key : Record} :
    row.hasKey key = true ↔
      key ≠ [] ∧ ∀ member ∈ key, (row.get? member.1 == some member.2) = true := by
  rw [hasKey, Bool.and_eq_true, List.all_eq_true, Bool.not_eq_true', List.isEmpty_eq_false_iff]

/-- A key that is taken from a part of a row. -/
theorem hasKey_pick_of_part {row part : Record} {fields shorter : List String}
    (hpart : ∀ name value, part.get? name = some value → row.get? name = some value)
    (hshorter : ∀ name ∈ shorter, name ∈ fields ∧ part.get? name = row.get? name)
    (hne : row.pick shorter ≠ []) :
    row.hasKey (part.pick fields) = true ∧
      ∀ other : Record, other.hasKey (part.pick fields) = true →
        other.hasKey (row.pick shorter) = true := by
  have hmem (member : String × Json) (hmember : member ∈ row.pick shorter) :
      member ∈ part.pick fields := by
    obtain ⟨hname, hvalue⟩ := mem_pick_iff.mp hmember
    obtain ⟨hfield, hsame⟩ := hshorter _ hname
    exact mem_pick_iff.mpr ⟨hfield, hsame.trans hvalue⟩
  refine ⟨hasKey_iff.mpr ⟨fun hnil => ?_, fun member hmember => ?_⟩, fun other hother => ?_⟩
  · obtain ⟨member, hmember⟩ := List.exists_mem_of_ne_nil _ hne
    exact absurd (hnil ▸ hmem member hmember) List.not_mem_nil
  · rw [hpart _ _ (mem_pick_iff.mp hmember).2]
    exact beq_self_eq_true (some member.2)
  · obtain ⟨-, hall⟩ := hasKey_iff.mp hother
    exact hasKey_iff.mpr ⟨hne, fun member hmember => hall member (hmem member hmember)⟩

end Record

end SchemaQuery
