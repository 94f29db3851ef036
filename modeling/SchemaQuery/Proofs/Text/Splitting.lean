/-!
# Texts between marks

Texts without a mark, joined by it, can be told apart again.
-/

namespace SchemaQuery

variable {mark : Char}

/-- A function that begins a new part at each mark, by recursion on the characters. -/
theorem eq_splitOn {split : List Char → List (List Char)} (hnil : split [] = [[]])
    (hcons : ∀ c rest, split (c :: rest) =
      if c = mark then [] :: split rest
      else match split rest with
        | [] => [[c]]
        | part :: parts => (c :: part) :: parts) (chars : List Char) :
    split chars = chars.splitOn mark := by
  induction chars with
  | nil => exact hnil
  | cons c chars ih =>
      rw [hcons, ih, List.splitOn_cons_eq_if_modifyHead]
      simp only [beq_iff_eq]
      split
      next => rfl
      next =>
        obtain ⟨part, parts, hparts⟩ := List.exists_cons_of_ne_nil
          (show chars.splitOn mark ≠ [] from fun h => List.splitOn_ne_nil _ _ h)
        rw [hparts]
        rfl

theorem splitOn_intercalate {separator : String} (hseparator : separator.toList = [mark])
    {texts : List String} (hne : texts ≠ []) (htexts : ∀ text ∈ texts, mark ∉ text.toList) :
    (String.intercalate separator texts).toList.splitOn mark = texts.map String.toList := by
  rw [String.toList_intercalate, hseparator]
  exact List.splitOn_intercalate mark (List.forall_mem_map.mpr htexts)
    (mt List.map_eq_nil_iff.mp hne)

theorem notMem_intercalate {separator : String} (hseparator : mark ∉ separator.toList)
    {texts : List String} (htexts : ∀ text ∈ texts, mark ∉ text.toList) :
    mark ∉ (String.intercalate separator texts).toList := by
  induction texts with
  | nil => exact List.not_mem_nil
  | cons first rest ih =>
      obtain ⟨hfirst, hrest⟩ := List.forall_mem_cons.mp htexts
      cases rest with
      | nil => rwa [String.intercalate_singleton]
      | cons second rest =>
          rw [String.intercalate_cons_cons, String.toList_append, String.toList_append]
          simp only [List.mem_append, hfirst, hseparator, ih hrest, or_self, not_false_eq_true]

end SchemaQuery
