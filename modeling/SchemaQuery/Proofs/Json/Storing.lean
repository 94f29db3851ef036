import Mathlib.Data.List.Pairwise
import Mathlib.Tactic.ByContra
import SchemaQuery.Proofs.Json.Keys

/-!
# Items stored among rows

Items with keys of their own are put among rows one after the other. Each row then gives way to the
item with its key, in its place, and the items whose keys are new stand behind the rows. In which
order the items are put decides only in which order the new ones stand.
-/

namespace SchemaQuery.Record

variable {fields : List String}

/-- The item with the key of a row, or the row itself if there is none. -/
def standIn (fields : List String) (items : List Record) (row : Record) : Record :=
  (items.find? fun item => item.AgreesOn fields row).getD row

/-- Each row stands where it stood, or the item with its key does; the items whose keys no row has
stand behind, in some order. -/
def StoredIn (fields : List String) (items old new : List Record) : Prop :=
  ∃ added, added.Perm (items.filter fun item => ¬ item.HasKeyAmong fields old) ∧
    new = old.map (standIn fields items) ++ added

/-- Rows that are told apart by their fields and agree are the same. -/
theorem eq_of_agreesOn {rows : List Record} (hrows : rows.Pairwise fun a b => ¬ a.AgreesOn fields b)
    {row other : Record} (hrow : row ∈ rows) (hother : other ∈ rows)
    (hagree : row.AgreesOn fields other) : row = other := by
  have hsymm : Std.Symm fun a b : Record => ¬ a.AgreesOn fields b :=
    ⟨fun a b hdiffer hsame => hdiffer hsame.symm⟩
  by_contra hne
  exact hrows.forall hrow hother hne hagree

theorem KeyedBy.perm {rows others : List Record} (hrows : KeyedBy fields rows)
    (hperm : rows.Perm others) : KeyedBy fields others where
  complete row hrow := hrows.complete row (hperm.mem_iff.mpr hrow)
  distinct hne := hperm.pairwise (hrows.distinct hne) fun hdiffer hsame => hdiffer hsame.symm

section StandIn

variable {items more : List Record} {row item : Record}

theorem standIn_of_agreesOn (hitems : items.Pairwise fun a b => ¬ a.AgreesOn fields b)
    (hitem : item ∈ items) (hagree : item.AgreesOn fields row) :
    standIn fields items row = item := by
  unfold standIn
  cases hfind : items.find? fun item => item.AgreesOn fields row with
  | none => exact absurd hagree (by simpa using List.find?_eq_none.mp hfind item hitem)
  | some other =>
      have hother : other.AgreesOn fields row := by simpa using List.find?_some hfind
      exact eq_of_agreesOn hitems (List.mem_of_find?_eq_some hfind) hitem
        (hother.trans hagree.symm)

theorem standIn_of_not_agreesOn (hnone : ∀ item ∈ items, ¬ item.AgreesOn fields row) :
    standIn fields items row = row := by
  have hfind : items.find? (fun item => item.AgreesOn fields row) = none := by simpa using hnone
  rw [standIn, hfind, Option.getD_none]

theorem map_standIn_of_not_agreesOn {rows : List Record}
    (hnone : ∀ row ∈ rows, ∀ item ∈ items, ¬ item.AgreesOn fields row) :
    rows.map (standIn fields items) = rows := by
  calc rows.map (standIn fields items)
    _ = rows.map id := List.map_congr_left fun row hrow => standIn_of_not_agreesOn (hnone row hrow)
    _ = rows := List.map_id rows

/-- What stands for a row is an item that agrees with it, or the row, with which no item does. -/
theorem standIn_cases (fields : List String) (items : List Record) (row : Record) :
    (∃ item ∈ items, item.AgreesOn fields row ∧ standIn fields items row = item) ∨
      (∀ item ∈ items, ¬ item.AgreesOn fields row) ∧ standIn fields items row = row := by
  cases hfind : items.find? fun item => item.AgreesOn fields row with
  | none =>
      have hnone : ∀ item ∈ items, ¬ item.AgreesOn fields row := by simpa using hfind
      exact Or.inr ⟨hnone, standIn_of_not_agreesOn hnone⟩
  | some item =>
      refine Or.inl ⟨item, List.mem_of_find?_eq_some hfind, ?_, ?_⟩
      · simpa using List.find?_some hfind
      · rw [standIn, hfind, Option.getD_some]

end StandIn

section StoredIn

variable {items more old mid new : List Record} {item : Record}

/-- It makes no difference in which order the items are named. -/
theorem StoredIn.perm (hstored : StoredIn fields items old new)
    (hitems : items.Pairwise fun a b => ¬ a.AgreesOn fields b) (hperm : items.Perm more) :
    StoredIn fields more old new := by
  have hmore : more.Pairwise fun a b => ¬ a.AgreesOn fields b :=
    hperm.pairwise hitems fun hdiffer hsame => hdiffer hsame.symm
  obtain ⟨added, hadded, rfl⟩ := hstored
  refine ⟨added, hadded.trans (hperm.filter _), ?_⟩
  congr 1
  apply List.map_congr_left
  intro row _
  rcases standIn_cases fields items row with ⟨item, hitem, hagree, hstands⟩ | ⟨hnone, hstands⟩
  · rw [hstands, standIn_of_agreesOn hmore (hperm.mem_iff.mp hitem) hagree]
  · rw [hstands, standIn_of_not_agreesOn fun item hitem => hnone item (hperm.mem_iff.mpr hitem)]

theorem storedIn_nil : StoredIn fields [] old old :=
  ⟨[], .refl _, by rw [map_standIn_of_not_agreesOn (by simp), List.append_nil]⟩

/-- One item is put in the place of the row with its key, or behind the rows. -/
theorem storedIn_put {key : Record} (hne : fields ≠ []) (hkey : IsKeyOf fields item key)
    (hold : old.Pairwise fun a b => ¬ a.AgreesOn fields b) :
    StoredIn fields [item] old (put key item old) := by
  induction old with
  | nil => exact ⟨[item], by simp [HasKeyAmong], rfl⟩
  | cons first rest ih =>
      obtain ⟨hfirst, hrest⟩ := List.pairwise_cons.mp hold
      by_cases hgives : first.hasKey key = true
      · have hagree : item.AgreesOn fields first := ((hkey first).mp hgives).2.symm
        have hstays : ∀ row ∈ rest, ∀ other ∈ [item], ¬ other.AgreesOn fields row := by
          intro row hrow other hother hsame
          obtain rfl := List.mem_singleton.mp hother
          exact hfirst row hrow (hagree.symm.trans hsame)
        refine ⟨[], by simp [HasKeyAmong, hagree], ?_⟩
        rw [put, if_pos hgives, List.append_nil, List.map_cons,
          map_standIn_of_not_agreesOn hstays,
          standIn_of_agreesOn (List.pairwise_singleton _ _) List.mem_cons_self hagree]
      · have hdiffer : ¬ item.AgreesOn fields first := fun hsame =>
          hgives ((hkey first).mpr ⟨hne, hsame.symm⟩)
        have hamong : item.HasKeyAmong fields (first :: rest) ↔ item.HasKeyAmong fields rest := by
          simp [HasKeyAmong, hdiffer]
        obtain ⟨added, hadded, hput⟩ := ih hrest
        refine ⟨added, ?_, ?_⟩
        · simpa only [List.filter_cons, List.filter_nil, hamong] using hadded
        · rw [put, if_neg hgives, hput, List.map_cons,
            standIn_of_not_agreesOn (by simpa using hdiffer), List.cons_append]

/-- What is new to the rows among which other items have been stored was new before. -/
theorem StoredIn.hasKeyAmong_iff (hstored : StoredIn fields items old new)
    (hnew : ∀ other ∈ items, ¬ other.AgreesOn fields item) :
    item.HasKeyAmong fields new ↔ item.HasKeyAmong fields old := by
  obtain ⟨added, hadded, rfl⟩ := hstored
  constructor
  · rintro ⟨row, hrow, hagree⟩
    rcases List.mem_append.mp hrow with hmapped | hbehind
    · obtain ⟨before, hbefore, rfl⟩ := List.mem_map.mp hmapped
      rcases standIn_cases fields items before with ⟨other, hother, -, hstands⟩ | ⟨-, hstands⟩
      · rw [hstands] at hagree
        exact absurd hagree.symm (hnew other hother)
      · rw [hstands] at hagree
        exact ⟨before, hbefore, hagree⟩
    · have hmem : row ∈ items := (List.mem_filter.mp (hadded.mem_iff.mp hbehind)).1
      exact absurd hagree.symm (hnew row hmem)
  · rintro ⟨row, hrow, hagree⟩
    have hstays : standIn fields items row = row :=
      standIn_of_not_agreesOn fun other hother hsame =>
        hnew other hother (hsame.trans hagree.symm)
    refine ⟨row, List.mem_append_left _ (List.mem_map.mpr ⟨row, hrow, hstays⟩), hagree⟩

theorem StoredIn.trans (hfirst : StoredIn fields items old mid)
    (hsecond : StoredIn fields more mid new)
    (hitems : (items ++ more).Pairwise fun a b => ¬ a.AgreesOn fields b) :
    StoredIn fields (items ++ more) old new := by
  obtain ⟨-, hmore, hdiffer⟩ := List.pairwise_append.mp hitems
  have hsame : more.filter (fun item => ¬ item.HasKeyAmong fields mid) =
      more.filter fun item => ¬ item.HasKeyAmong fields old := by
    apply List.filter_congr
    intro item hitem
    simp only [hfirst.hasKeyAmong_iff fun other hother => hdiffer other hother item hitem]
  obtain ⟨added, hadded, rfl⟩ := hfirst
  obtain ⟨further, hfurther, rfl⟩ := hsecond
  have hstays : added.map (standIn fields more) = added := by
    apply map_standIn_of_not_agreesOn
    intro item hitem other hother hagree
    have hmem : item ∈ items := (List.mem_filter.mp (hadded.mem_iff.mp hitem)).1
    exact hdiffer item hmem other hother hagree.symm
  refine ⟨added ++ further, ?_, ?_⟩
  · rw [List.filter_append, ← hsame]
    exact hadded.append hfurther
  · rw [List.map_append, List.map_map, hstays, List.append_assoc]
    congr 1
    apply List.map_congr_left
    intro row _
    change standIn fields more (standIn fields items row) = _
    rcases standIn_cases fields items row with ⟨item, hitem, hagree, hstands⟩ | ⟨hnone, hstands⟩
    · rw [hstands, standIn_of_agreesOn hitems (List.mem_append_left _ hitem) hagree]
      exact standIn_of_not_agreesOn fun other hother hother' =>
        hdiffer item hitem other hother hother'.symm
    · rw [hstands]
      rcases standIn_cases fields more row with ⟨item, hitem, hagree, hstands⟩ | ⟨hnone', hstands⟩
      · rw [hstands, standIn_of_agreesOn hitems (List.mem_append_right _ hitem) hagree]
      · rw [hstands, standIn_of_not_agreesOn (List.forall_mem_append.mpr ⟨hnone, hnone'⟩)]

/-- Items put one after the other are stored among the rows, and no two rows have one key then. -/
theorem storedIn_foldl {given : List String} (hne : fields ≠ [])
    (hgiven : ∀ field, field ∈ given ↔ field ∈ fields) (hold : KeyedBy fields old)
    (hitems : KeyedBy fields items) :
    StoredIn fields items old
        (items.foldl (fun rows item => put (item.pick given) item rows) old) ∧
      KeyedBy fields (items.foldl (fun rows item => put (item.pick given) item rows) old) := by
  induction items generalizing old with
  | nil => exact ⟨storedIn_nil, hold⟩
  | cons item rest ih =>
      have hall : item.HasAll fields := hitems.complete item List.mem_cons_self
      have hkey := isKeyOf_pick hall hgiven
      have hfirst := storedIn_put hne hkey (hold.distinct hne)
      obtain ⟨hstored, hkeyed⟩ :=
        ih (hold.put hkey hall) (hitems.sublist (List.sublist_cons_self item rest))
      exact ⟨hfirst.trans hstored (hitems.distinct hne), hkeyed⟩

end StoredIn

end SchemaQuery.Record
