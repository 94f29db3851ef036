import SchemaQuery.Json.Record

/-!
# Laws of members and of row keys

A value equals itself under the equality of the stores, a member that was put is found again and no
other changes, and a row has every value of a key that was taken from it.
-/

namespace SchemaQuery

theorem Number.beq_refl (a : Number) : (a == a) = true := by
  cases a with
  | int n => exact beq_self_eq_true n
  | float x => exact beq_self_eq_true x.position

namespace Json

mutual

theorem eqv_refl : ∀ a : Json, eqv a a = true
  | .null => rfl
  | .bool _ => by simp [eqv]
  | .number a => by simpa only [eqv] using Number.beq_refl a
  | .string _ => by simp [eqv]
  | .array items => by simpa only [eqv] using eqvItems_refl items
  | .object members => by simpa only [eqv] using eqvMembers_refl members

theorem eqvItems_refl : ∀ items : List Json, eqvItems items items = true
  | [] => rfl
  | a :: as => by simp [eqvItems, eqv_refl a, eqvItems_refl as]

theorem eqvMembers_refl : ∀ members : List (String × Json), eqvMembers members members = true
  | [] => rfl
  | (_, a) :: as => by simp [eqvMembers, eqv_refl a, eqvMembers_refl as]

end

instance : ReflBEq Json := ⟨fun {a} => eqv_refl a⟩

end Json

namespace Members

variable {α : Type}

@[simp] theorem get?_nil (name : String) : get? ([] : Members α) name = none := by
  rw [get?]

theorem get?_cons (key : String) (value : α) (rest : Members α) (name : String) :
    get? ((key, value) :: rest) name = if key = name then some value else rest.get? name := by
  rw [get?]

theorem get?_append (members more : Members α) (name : String) :
    get? (members ++ more) name = (members.get? name).or (more.get? name) := by
  induction members with
  | nil => rfl
  | cons member rest ih =>
      rw [List.cons_append, get?_cons, get?_cons]
      split
      · rfl
      · exact ih

@[simp] theorem get?_set_self (members : Members α) (name : String) (value : α) :
    (members.set name value).get? name = some value := by
  induction members with
  | nil => simp [set, get?]
  | cons member rest ih =>
      obtain ⟨key, old⟩ := member
      simp only [set]
      split
      · simp [get?]
      · split <;> simp_all [get?]

theorem get?_set_of_ne (members : Members α) {name other : String} (value : α)
    (hne : name ≠ other) : (members.set name value).get? other = members.get? other := by
  induction members with
  | nil => simp [set, get?, hne]
  | cons member rest ih =>
      obtain ⟨key, old⟩ := member
      simp only [set]
      split
      next hkey =>
        subst hkey
        simp [get?, hne]
      next =>
        split
        · simp [get?, hne]
        · simp only [get?, ih]

/-- Of two values put under one name the second counts. -/
theorem set_set (members : Members α) (name : String) (value other : α) :
    (members.set name value).set name other = members.set name other := by
  induction members with
  | nil => simp [set]
  | cons member rest ih =>
      obtain ⟨key, old⟩ := member
      simp only [set]
      by_cases hkey : key = name
      · simp [hkey, set]
      · by_cases hlt : name < key
        · simp [hkey, hlt, set]
        · simp [hkey, hlt, set, ih]

theorem mem_names_of_get?_ne_none {members : Members α} {name : String}
    (hget : members.get? name ≠ none) : name ∈ members.map Prod.fst := by
  induction members with
  | nil => exact absurd rfl hget
  | cons member rest ih =>
      obtain ⟨key, old⟩ := member
      rw [get?] at hget
      split at hget
      next hkey => exact hkey ▸ List.mem_cons_self
      next => exact List.mem_cons_of_mem _ (ih hget)

theorem mem_set {members : Members α} {name : String} {value : α} {member : String × α}
    (hmem : member ∈ members.set name value) : member = (name, value) ∨ member ∈ members := by
  induction members with
  | nil => simpa [set] using hmem
  | cons head rest ih =>
      obtain ⟨key, old⟩ := head
      simp only [set] at hmem
      split at hmem
      · rcases List.mem_cons.mp hmem with h | h
        · exact Or.inl h
        · exact Or.inr (List.mem_cons_of_mem _ h)
      · split at hmem
        · exact List.mem_cons.mp hmem
        · rcases List.mem_cons.mp hmem with h | h
          · exact Or.inr (h ▸ List.mem_cons_self)
          · exact (ih h).imp_right (List.mem_cons_of_mem _)

theorem mem_merge {base more : Members α} {member : String × α} (hmem : member ∈ base.merge more) :
    member ∈ base ∨ member ∈ more := by
  induction more generalizing base with
  | nil => exact Or.inl hmem
  | cons head rest ih =>
      rcases ih hmem with h | h
      · rcases mem_set h with h | h
        · exact Or.inr (h ▸ List.mem_cons_self)
        · exact Or.inl h
      · exact Or.inr (List.mem_cons_of_mem _ h)

theorem mem_of_mem_ofList {given : List (String × α)} {member : String × α}
    (hmem : member ∈ ofList given) : member ∈ given := by
  rcases mem_merge hmem with h | h
  · simp at h
  · exact h

end Members

namespace Record

/-- Every value of a picked record is the row's own. -/
theorem get?_of_mem_pick {row : Record} {fields : List String} {member : String × Json}
    (hmem : member ∈ row.pick fields) : row.get? member.1 = some member.2 := by
  obtain ⟨field, -, hfield⟩ := List.mem_filterMap.mp (Members.mem_of_mem_ofList hmem)
  obtain ⟨value, hvalue, rfl⟩ := Option.map_eq_some_iff.mp hfield
  exact hvalue

/-- A row has the key that was picked from it, unless nothing was picked. -/
theorem hasKey_pick (row : Record) (fields : List String) :
    row.hasKey (row.pick fields) = !(row.pick fields).isEmpty := by
  have hall : (row.pick fields).all (fun member => row.get? member.1 == some member.2) = true :=
    List.all_eq_true.mpr fun member hmem => by simp [get?_of_mem_pick hmem]
  simp only [hasKey]
  rw [hall, Bool.and_true]

end Record

end SchemaQuery
