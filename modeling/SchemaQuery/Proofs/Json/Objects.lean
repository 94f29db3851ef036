import Mathlib.Data.String.Basic
import SchemaQuery.Proofs.Json.Records

/-!
# Objects in ascending order

Members are put together so that their names ascend and each comes once. Putting a member keeps them
so, and putting the value that is there already changes nothing. A value is sorted if this holds of
every object in it.
-/

namespace SchemaQuery

namespace Members

variable {α : Type} {members : Members α}

/-- The names are in ascending order, so that each comes once. -/
def IsAscending (members : Members α) : Prop := members.Pairwise fun a b => a.1 < b.1

instance : Decidable members.IsAscending :=
  inferInstanceAs (Decidable (members.Pairwise fun a b => a.1 < b.1))

theorem IsAscending.nodup (hmembers : members.IsAscending) : (members.map Prod.fst).Nodup :=
  List.pairwise_map.mpr (hmembers.imp ne_of_lt)

theorem IsAscending.set (hmembers : members.IsAscending) (name : String) (value : α) :
    (members.set name value).IsAscending := by
  induction members with
  | nil => exact List.pairwise_singleton _ _
  | cons member rest ih =>
      obtain ⟨key, old⟩ := member
      obtain ⟨hfirst, hrest⟩ := List.pairwise_cons.mp hmembers
      rw [Members.set]
      split
      next hkey => exact List.pairwise_cons.mpr ⟨hkey ▸ hfirst, hrest⟩
      next hne =>
        split
        next hlt =>
          refine List.pairwise_cons.mpr ⟨fun other hother => ?_, hmembers⟩
          rcases List.mem_cons.mp hother with rfl | hother
          · exact hlt
          · exact hlt.trans (hfirst other hother)
        next hge =>
          refine List.pairwise_cons.mpr ⟨fun other hother => ?_, ih hrest⟩
          rcases mem_set hother with rfl | hother
          · exact lt_of_le_of_ne (not_lt.mp hge) hne
          · exact hfirst other hother

theorem IsAscending.merge (hmembers : members.IsAscending) (more : Members α) :
    (members.merge more).IsAscending := by
  induction more generalizing members with
  | nil => exact hmembers
  | cons member rest ih => exact ih (hmembers.set member.1 member.2)

theorem nodup_names_ofList (given : List (String × α)) : ((ofList given).map Prod.fst).Nodup :=
  (IsAscending.merge .nil given).nodup

/-- Members by name are all of those given if no name comes twice, and only then. -/
theorem ofList_perm_iff {given : List (String × α)} :
    (ofList given).Perm given ↔ (given.map Prod.fst).Nodup :=
  ⟨fun hperm => (hperm.map Prod.fst).nodup_iff.mp (nodup_names_ofList given), ofList_perm⟩

theorem IsAscending.eq_of_perm {more : Members α} (hmembers : members.IsAscending)
    (hmore : more.IsAscending) (hperm : members.Perm more) : members = more :=
  hperm.eq_of_pairwise (fun _ _ _ _ hlt hgt => absurd hlt (lt_asymm hgt)) hmembers hmore

/-- The order in which members are given does not matter if no name comes twice. -/
theorem ofList_eq_of_perm {given other : List (String × α)} (hperm : given.Perm other)
    (hnodup : (other.map Prod.fst).Nodup) : ofList given = ofList other := by
  have hgiven : (given.map Prod.fst).Nodup := (hperm.map Prod.fst).nodup_iff.mpr hnodup
  exact (IsAscending.merge .nil given).eq_of_perm (IsAscending.merge .nil other)
    ((ofList_perm hgiven).trans (hperm.trans (ofList_perm hnodup).symm))

/-- The value that a name has already changes nothing when it is put. -/
theorem IsAscending.set_held (hmembers : members.IsAscending) {name : String} {value : α}
    (hget : members.get? name = some value) : members.set name value = members := by
  induction members with
  | nil => cases hget
  | cons member rest ih =>
      obtain ⟨key, old⟩ := member
      obtain ⟨hfirst, hrest⟩ := List.pairwise_cons.mp hmembers
      rw [get?] at hget
      rw [Members.set]
      split at hget
      next hkey =>
        obtain rfl := Option.some.inj hget
        rw [if_pos hkey, hkey]
      next hne =>
        have hlater : key < name := hfirst _ (mem_of_get?_eq_some hget)
        rw [if_neg hne, if_neg (lt_asymm hlater), ih hrest hget]

end Members

namespace Json

mutual

/-- A property of every object in a value, at any depth. -/
def AllObjects (p : Record → Prop) : Json → Prop
  | object members => p members ∧ AllMembers p members
  | array items => AllItems p items
  | _ => True

def AllItems (p : Record → Prop) : List Json → Prop
  | [] => True
  | item :: rest => AllObjects p item ∧ AllItems p rest

def AllMembers (p : Record → Prop) : List (String × Json) → Prop
  | [] => True
  | (_, value) :: rest => AllObjects p value ∧ AllMembers p rest

end

theorem allMembers_iff {p : Record → Prop} {members : List (String × Json)} :
    AllMembers p members ↔ ∀ member ∈ members, member.2.AllObjects p := by
  induction members with
  | nil => exact ⟨fun _ _ hmem => absurd hmem List.not_mem_nil, fun _ => trivial⟩
  | cons member rest ih => rw [AllMembers, List.forall_mem_cons, ih]

mutual

def decideObjects (p : Record → Prop) [DecidablePred p] :
    (value : Json) → Decidable (value.AllObjects p)
  | object members => @instDecidableAnd _ _ _ (decideMembers p members)
  | array items => decideItems p items
  | null | bool _ | number _ | string _ => .isTrue trivial

def decideItems (p : Record → Prop) [DecidablePred p] :
    (items : List Json) → Decidable (AllItems p items)
  | [] => .isTrue trivial
  | item :: rest => @instDecidableAnd _ _ (decideObjects p item) (decideItems p rest)

def decideMembers (p : Record → Prop) [DecidablePred p] :
    (members : List (String × Json)) → Decidable (AllMembers p members)
  | [] => .isTrue trivial
  | (_, value) :: rest => @instDecidableAnd _ _ (decideObjects p value) (decideMembers p rest)

end

instance (p : Record → Prop) [DecidablePred p] (value : Json) : Decidable (value.AllObjects p) :=
  decideObjects p value

/-- Every object has its members in ascending order. -/
def IsSorted (value : Json) : Prop := value.AllObjects Members.IsAscending

instance : DecidablePred IsSorted := fun value =>
  inferInstanceAs (Decidable (value.AllObjects Members.IsAscending))

end Json

namespace Record

/-- The members ascend, and those of every object in the row. -/
def IsSorted (row : Record) : Prop := (Json.object row).IsSorted

instance : DecidablePred IsSorted := fun row =>
  inferInstanceAs (Decidable (Json.object row).IsSorted)

theorem isSorted_iff {row : Record} :
    row.IsSorted ↔ Members.IsAscending row ∧ ∀ member ∈ row, member.2.IsSorted := by
  rw [IsSorted, Json.IsSorted, Json.AllObjects, Json.allMembers_iff]
  rfl

theorem IsSorted.ascending {row : Record} (hrow : row.IsSorted) : Members.IsAscending row :=
  (isSorted_iff.mp hrow).1

theorem IsSorted.get? {row : Record} (hrow : row.IsSorted) {field : String} {value : Json}
    (hget : row.get? field = some value) : value.IsSorted :=
  (isSorted_iff.mp hrow).2 _ (Members.mem_of_get?_eq_some hget)

end Record

end SchemaQuery
