import SchemaQuery.Text.Pattern

/-!
# Patterns of literal texts

The pattern that a text is escaped to is read as its characters, one after the other. It is found in
a text just if they stand there side by side; if case is ignored, up to case folding.
-/

namespace SchemaQuery

namespace Pattern

/-- Some characters, one after the other. -/
def literal : List Char → Pattern
  | [] => empty
  | c :: cs => seq (char c) (literal cs)

/-! ### Reading -/

theorem isPunctuation_of_isSpecial {c : Char} (hspecial : isSpecial c = true) :
    isPunctuation c = true := by
  have hall : ['\\', '.', '+', '*', '?', '(', ')', '|', '[', ']', '{', '}', '^', '$', '#',
      '&', '-', '~'].all isPunctuation = true := by decide
  exact List.all_eq_true.mp hall c (List.contains_iff_mem.mp hspecial)

theorem escapeChars_cons (c : Char) (cs : List Char) :
    escapeChars (c :: cs) = (if isSpecial c then ['\\', c] else [c]) ++ escapeChars cs := rfl

/-- A character that stands for itself. -/
theorem item_of_not_isSpecial {c : Char} (hplain : isSpecial c = false) (fuel : Nat)
    (rest : List Char) : item (fuel + 1) (c :: rest) = some (char c, rest) := by
  have hne {mark : Char} (hmark : isSpecial mark = true) : c ≠ mark := by
    rintro rfl
    rw [hplain] at hmark
    cases hmark
  unfold item
  rw [if_neg (hne (by decide)), if_neg (hne (by decide)), if_neg (hne (by decide)),
    if_neg (hne (by decide)), if_neg (hne (by decide)), if_neg (hne (by decide)), if_neg]
  rintro (h | h | h | h)
  · exact hne (by decide) h
  · exact hne (by decide) h
  · exact hne (by decide) h
  · exact hne (by decide) h

theorem item_of_isSpecial {c : Char} (hspecial : isSpecial c = true) (fuel : Nat)
    (rest : List Char) : item (fuel + 1) ('\\' :: c :: rest) = some (char c, rest) := by
  unfold item
  rw [if_neg (by decide), if_neg (by decide), if_neg (by decide), if_neg (by decide),
    if_neg (by decide), if_pos rfl, escaped?, if_pos (isPunctuation_of_isSpecial hspecial)]
  rfl

/-- What an escaped text begins with is no mark of its own, but the one before a special
character. -/
theorem head_escapeChars {cs : List Char} {c : Char} {rest : List Char}
    (hcs : escapeChars cs = c :: rest) : c = '\\' ∨ isSpecial c = false := by
  cases cs with
  | nil => cases hcs
  | cons first cs =>
      rw [escapeChars_cons] at hcs
      cases hfirst : isSpecial first with
      | true =>
          rw [hfirst] at hcs
          exact Or.inl (List.cons.inj hcs).1.symm
      | false =>
          rw [hfirst] at hcs
          obtain rfl := (List.cons.inj hcs).1
          exact Or.inr hfirst

theorem head_escapeChars_ne {cs : List Char} {c mark : Char} {rest : List Char}
    (hcs : escapeChars cs = c :: rest) (hmark : isSpecial mark = true) (hescape : mark ≠ '\\') :
    c ≠ mark := by
  rintro rfl
  rcases head_escapeChars hcs with h | h
  · exact hescape h
  · rw [hmark] at h
    cases h

theorem item_escapeChars (c : Char) (cs : List Char) (fuel : Nat) :
    item (fuel + 1) (escapeChars (c :: cs)) = some (char c, escapeChars cs) := by
  rw [escapeChars_cons]
  cases hspecial : isSpecial c with
  | true => exact item_of_isSpecial hspecial fuel _
  | false => exact item_of_not_isSpecial hspecial fuel _

theorem repetition_escapeChars (seen : Repetition) (cs : List Char) :
    repetition seen (escapeChars cs) = (seen, escapeChars cs) := by
  cases hcs : escapeChars cs with
  | nil => rfl
  | cons c rest =>
      have hstar : c ≠ '*' := head_escapeChars_ne hcs (by decide) (by decide)
      have hplus : c ≠ '+' := head_escapeChars_ne hcs (by decide) (by decide)
      have hquestion : c ≠ '?' := head_escapeChars_ne hcs (by decide) (by decide)
      rw [repetition] <;> simp_all

theorem sequence_escapeChars {cs : List Char} {fuel : Nat} (hfuel : cs.length < fuel) :
    sequence fuel (escapeChars cs) = some (literal cs, []) := by
  induction cs generalizing fuel with
  | nil =>
      obtain ⟨fuel, rfl⟩ : ∃ less, fuel = less + 1 := ⟨fuel - 1, by omega⟩
      rfl
  | cons c cs ih =>
      simp only [List.length_cons] at hfuel
      obtain ⟨fuel, rfl⟩ : ∃ less, fuel = less + 2 := ⟨fuel - 2, by omega⟩
      obtain ⟨first, rest, hcs⟩ : ∃ first rest, escapeChars (c :: cs) = first :: rest := by
        rw [escapeChars_cons]
        cases isSpecial c with
        | true => exact ⟨_, _, rfl⟩
        | false => exact ⟨_, _, rfl⟩
      have hbar : first ≠ '|' := head_escapeChars_ne hcs (by decide) (by decide)
      have hclosing : first ≠ ')' := head_escapeChars_ne hcs (by decide) (by decide)
      have hitem := item_escapeChars c cs fuel
      have hrest := ih (show cs.length < fuel + 1 by omega)
      rw [hcs] at hitem ⊢
      rw [sequence]
      · simp only [hitem, Option.bind_eq_bind, Option.bind_some, repetition_escapeChars, hrest]
        rfl
      · simp
      · simp [hbar]
      · simp [hclosing]

theorem ofText?_escape (text : String) : ofText? (escape text) = some (literal text.toList) := by
  have hlength : text.toList.length ≤ (escapeChars text.toList).length := by
    induction text.toList with
    | nil => exact Nat.le_refl _
    | cons c cs ih =>
        rw [escapeChars_cons, List.length_append, List.length_cons]
        split <;> simp only [List.length_cons, List.length_nil] <;> omega
  have hsequence := @sequence_escapeChars text.toList
    (3 * (escapeChars text.toList).length + 2) (by omega)
  rw [ofText?, escape, String.toList_ofList, ofChars?, alternatives, hsequence]
  rfl

/-! ### Matching -/

/-- Some places are marked. -/
theorem any_id_iff {marks : List Bool} :
    marks.any id = true ↔ ∃ place : Nat, marks[place]? = some true := by
  simp only [List.any_eq_true, id_eq, exists_eq_right, List.mem_iff_getElem?]

theorem step_getElem?_succ {test : Char → Bool} {text : List Char} {marks : List Bool}
    {place : Nat} :
    (step test text marks)[place + 1]? = some true ↔
      marks[place]? = some true ∧ ∃ c, text[place]? = some c ∧ test c = true := by
  rw [step, List.getElem?_cons_succ, List.getElem?_zipWith]
  cases text[place]? with
  | none => simp
  | some c =>
      cases marks[place]? with
      | none => simp
      | some marked => simp

theorem step_getElem?_zero (test : Char → Bool) (text : List Char) (marks : List Bool) :
    (step test text marks)[0]? = some false := rfl

/-- A literal reaches some place just if it stands at a marked one. -/
theorem any_reach_literal {ignoreCase : Bool} {text : List Char} {same : Char → Char}
    (hsame : ∀ a b, sameChar ignoreCase a b = true ↔ same a = same b) {cs : List Char}
    {marks : List Bool} :
    (reach ignoreCase text (literal cs) marks).any id = true ↔
      ∃ place : Nat, marks[place]? = some true ∧ cs.map same <+: (text.drop place).map same := by
  induction cs generalizing marks with
  | nil =>
      simp only [literal, reach, any_id_iff, List.map_nil, List.nil_prefix, and_true]
  | cons c cs ih =>
      rw [literal, reach, reach, ih]
      constructor
      · rintro ⟨place, hplace, hrest⟩
        cases place with
        | zero =>
            rw [step_getElem?_zero] at hplace
            cases hplace
        | succ place =>
            obtain ⟨hmarked, first, hfirst, htest⟩ := step_getElem?_succ.mp hplace
            refine ⟨place, hmarked, ?_⟩
            obtain ⟨hlt, rfl⟩ := List.getElem?_eq_some_iff.mp hfirst
            rw [List.drop_eq_getElem_cons hlt, List.map_cons, List.map_cons,
              List.cons_prefix_cons]
            exact ⟨(hsame _ _).mp htest, hrest⟩
      · rintro ⟨place, hmarked, hprefix⟩
        have hlt : place < text.length := by
          rw [← Nat.not_le]
          intro hle
          rw [List.drop_eq_nil_of_le hle] at hprefix
          exact List.cons_ne_nil _ _ (List.prefix_nil.mp hprefix)
        rw [List.drop_eq_getElem_cons hlt, List.map_cons, List.map_cons,
          List.cons_prefix_cons] at hprefix
        exact ⟨place + 1, step_getElem?_succ.mpr ⟨hmarked, text[place],
          List.getElem?_eq_getElem hlt, (hsame _ _).mpr hprefix.1⟩, hprefix.2⟩

theorem sameChar_true_iff (a b : Char) :
    sameChar true a b = true ↔ CaseFold.fold a = CaseFold.fold b := by
  simp only [sameChar, Bool.true_and, Bool.or_eq_true, beq_iff_eq]
  exact ⟨fun h => h.elim (congrArg _) id, Or.inr⟩

end Pattern

/-- A text stands somewhere in another one, whatever the case of its letters. -/
def CaseFold.Within (part text : String) : Prop :=
  part.toList.map fold <:+: text.toList.map fold

/-- The pattern of an escaped text is found where the text stands. -/
theorem Pattern.isFoundIn_literal (part text : String) :
    (literal part.toList).isFoundIn true text = true ↔ CaseFold.Within part text := by
  rw [isFoundIn, any_reach_literal sameChar_true_iff, CaseFold.Within, List.infix_iff_prefix_suffix]
  constructor
  · rintro ⟨place, -, hprefix⟩
    rw [List.map_drop] at hprefix
    exact ⟨_, hprefix, List.drop_suffix _ _⟩
  · rintro ⟨rest, hprefix, hsuffix⟩
    have hrest :
        rest = (text.toList.drop (text.toList.length - rest.length)).map CaseFold.fold := by
      rw [List.map_drop]
      simpa using List.suffix_iff_eq_drop.mp hsuffix
    refine ⟨text.toList.length - rest.length, ?_, hrest ▸ hprefix⟩
    rw [List.getElem?_replicate, if_pos (by omega)]

end SchemaQuery
