import SchemaQuery.Proofs.KeyValue.Reading

/-!
# The reader and the grammar

What the reader takes a text for, the text derives in the grammar, and the other way round. A reader
is local: what it has read, it reads before any other tokens too, as long as a clause ends there. So
any text that is read at all can stand in a longer one and keeps its reading.
-/

namespace SchemaQuery.KeyValue

namespace Token

theorem lex_append {read chars rest : List Char} {tokens : List Token}
    (hlex : lex read chars = some tokens) (hrest : Ends rest) :
    lex read (chars ++ rest) = (lex [] rest).map (tokens ++ ·) := by
  induction chars generalizing read tokens with
  | nil =>
      rw [lex] at hlex
      exact lex_ends hrest hlex
  | cons c chars ih =>
      rw [lex] at hlex
      rw [List.cons_append, lex]
      split at hlex
      next hcontinues =>
        rw [if_pos hcontinues]
        exact ih hlex
      next hcontinues =>
        rw [if_neg hcontinues]
        obtain ⟨before, hbefore, hlex⟩ := Option.bind_eq_some_iff.mp hlex
        obtain ⟨behind, hbehind, rfl⟩ := Option.map_eq_some_iff.mp hlex
        rw [hbefore, Option.bind_some]
        split at hbehind
        next hopens =>
          rw [if_pos hopens, ih hbehind]
          cases lex [] rest <;> simp
        next hopens =>
          rw [if_neg hopens]
          split at hbehind
          next hblank =>
            rw [if_pos hblank, ih hbehind]
            cases lex [] rest <;> simp
          next hblank =>
            obtain ⟨mark, hmark, hbehind⟩ := Option.bind_eq_some_iff.mp hbehind
            obtain ⟨others, hothers, rfl⟩ := Option.map_eq_some_iff.mp hbehind
            rw [if_neg hblank, hmark, Option.bind_some, ih hothers]
            cases lex [] rest <;> simp

theorem lexes_of_lex {chars : List Char} {tokens : List Token} (hlex : lex [] chars = some tokens) :
    Lexes chars tokens := fun _ hrest => lex_append hlex hrest

end Token

namespace Reader

variable {α β : Type} {read : List Token → Option (α × List Token)}

/-- A reader that reads what it has taken before other tokens too. -/
def Local (read : List Token → Option (α × List Token)) : Prop :=
  ∀ ⦃tokens value rest⦄, read tokens = some (value, rest) →
    ∃ taken, tokens = taken ++ rest ∧ Takes read taken value

theorem Local.bind {next : α → List Token → Option (β × List Token)} (hread : Local read)
    (hnext : ∀ value, Local (next value))
    (hends : ∀ value tokens result, next value tokens = some result → ClauseEnds tokens) :
    Local fun tokens => (read tokens).bind fun (value, rest) => next value rest := by
  intro tokens result rest htokens
  obtain ⟨⟨value, middle⟩, hvalue, hresult⟩ := Option.bind_eq_some_iff.mp htokens
  obtain ⟨taken, rfl, htakes⟩ := hread hvalue
  obtain ⟨others, rfl, hothers⟩ := hnext value hresult
  refine ⟨taken ++ others, (List.append_assoc ..).symm, fun more hmore => ?_⟩
  have hlater := hothers more hmore
  simp only [List.append_assoc, htakes _ (hends _ _ _ hlater), Option.bind_some]
  exact hlater

theorem Local.map (hread : Local read) (make : α → β) :
    Local fun tokens => (read tokens).bind fun (value, rest) => some (make value, rest) := by
  intro tokens result rest htokens
  obtain ⟨⟨value, middle⟩, hvalue, hresult⟩ := Option.bind_eq_some_iff.mp htokens
  obtain ⟨rfl, rfl⟩ := Prod.mk.inj (Option.some.inj hresult)
  obtain ⟨taken, rfl, htakes⟩ := hread hvalue
  exact ⟨taken, rfl, fun more hmore => by simp only [htakes more hmore, Option.bind_some]⟩

theorem eq_cons_of_expect {token : Token} {tokens : List Token} {result : Unit × List Token}
    (hread : expect token tokens = some result) : tokens = token :: result.2 := by
  cases tokens with
  | nil => cases hread
  | cons head tokens =>
      rw [expect] at hread
      split at hread
      next hhead =>
        cases hread
        rw [hhead]
      next => cases hread

/-- A token that is expected, and what is read behind it. -/
theorem Local.behind {next : List Token → Option (β × List Token)} (hnext : Local next)
    (token : Token) :
    Local fun tokens => (expect token tokens).bind fun ((), rest) => next rest := by
  intro tokens value rest htokens
  obtain ⟨⟨⟨⟩, behind⟩, hexpect, hvalue⟩ := Option.bind_eq_some_iff.mp htokens
  obtain rfl := eq_cons_of_expect hexpect
  obtain ⟨taken, rfl, htakes⟩ := hnext hvalue
  refine ⟨token :: taken, rfl, fun more hmore => ?_⟩
  simp only [List.cons_append, expect, if_true, Option.bind_some]
  exact htakes more hmore

theorem clauseEnds_of_expect {token : Token} {tokens : List Token}
    {next : Unit × List Token → Option β} {result : β}
    (hexpect : (expect token tokens).bind next = some result)
    (htoken : token ≠ .point ∧ token ≠ .itemOpening ∧ token ≠ .opening) : ClauseEnds tokens := by
  obtain ⟨read, hread, -⟩ := Option.bind_eq_some_iff.mp hexpect
  rw [eq_cons_of_expect hread]
  exact clauseEnds_cons _ htoken

theorem Takes.ne_nil {taken : List Token} {value : α} (htakes : Takes read taken value)
    (hnil : read [] = none) : taken ≠ [] := by
  rintro rfl
  have hread := htakes [] clauseEnds_nil
  rw [List.append_nil, hnil] at hread
  cases hread

/-- Nothing more is read. -/
theorem local_some (value : α) : Local fun tokens => some (value, tokens) := by
  intro tokens result rest htokens
  cases htokens
  exact ⟨[], rfl, fun _ _ => rfl⟩

/-! ### Clauses -/

/-- One more step of a path. -/
theorem takes_step {before tokens rest : List Token} {step : PathStep} {path : List PathStep}
    (hsteps : ∀ tokens, steps (before ++ tokens) =
      (steps tokens).bind fun (path, rest) => some (step :: path, rest))
    (hlocal : ∀ path, steps tokens = some (path, rest) →
      ∃ taken, tokens = taken ++ rest ∧ Takes steps taken path)
    (hread : steps (before ++ tokens) = some (path, rest)) :
    ∃ taken, before ++ tokens = taken ++ rest ∧ Takes steps taken path := by
  rw [hsteps] at hread
  obtain ⟨⟨path, rest⟩, hpath, hread⟩ := Option.bind_eq_some_iff.mp hread
  cases hread
  obtain ⟨taken, rfl, htakes⟩ := hlocal path hpath
  refine ⟨before ++ taken, (List.append_assoc ..).symm, fun more hmore => ?_⟩
  rw [List.append_assoc, hsteps, htakes more hmore]
  rfl

theorem local_steps : Local steps := by
  intro tokens path rest hread
  induction tokens using steps.induct generalizing path with
  | case1 placeholder tokens ih =>
      exact @takes_step [.point, .name placeholder] _ _ _ _ (fun _ => rfl) (fun _ h => ih h) hread
  | case2 name tokens ih =>
      exact @takes_step [.point, .word name] _ _ _ _ (fun _ => rfl) (fun _ h => ih h) hread
  | case3 tokens hname hword =>
      rw [steps] at hread
      · cases hread
      · exact hname
      · exact hword
  | case4 index tokens ih =>
      exact @takes_step [.itemOpening, .word index, .itemClosing] _ _ _ _ (fun _ => rfl)
        (fun _ h => ih h) hread
  | case5 tokens hitem =>
      rw [steps] at hread
      · cases hread
      · exact hitem
  | case6 tokens hname hword hpoint hindex hitem =>
      rw [steps] at hread
      · cases hread
        exact ⟨[], rfl, fun more hmore => steps_of_pathEnds hmore.pathEnds⟩
      all_goals assumption

theorem local_path : Local path := by
  intro tokens value rest hread
  unfold path at hread
  split at hread
  next placeholder tokens =>
    obtain ⟨taken, rfl, htakes⟩ := local_steps.map (PathStep.named placeholder :: ·) hread
    exact ⟨.name placeholder :: taken, rfl, htakes⟩
  next name tokens =>
    obtain ⟨taken, rfl, htakes⟩ := local_steps.map (PathStep.field name :: ·) hread
    exact ⟨.word name :: taken, rfl, htakes⟩
  next => cases hread

/-- Tokens that do not begin like a call do not begin like one before other tokens either. -/
theorem ne_call {taken rest more : List Token} {word : String} (hne : taken ≠ [])
    (hrest : ∀ others, taken ++ rest ≠ .word word :: .opening :: others) (hmore : ClauseEnds more)
    (others : List Token) : taken ++ more ≠ .word word :: .opening :: others := by
  intro hcall
  match taken, hne with
  | [first], _ =>
      obtain ⟨-, hbehind⟩ := List.cons.inj hcall
      exact hmore.opening (congrArg List.head? hbehind)
  | first :: second :: taken, _ =>
      obtain ⟨rfl, hbehind⟩ := List.cons.inj hcall
      obtain ⟨rfl, -⟩ := List.cons.inj hbehind
      exact hrest (taken ++ rest) rfl

theorem local_operand : Local operand := by
  intro tokens value rest hread
  unfold operand at hread
  split at hread
  next placeholder tokens =>
    cases hread
    exact ⟨[.value placeholder], rfl, fun _ _ => rfl⟩
  next tokens =>
    have hclosed (path : List PathStep) :=
      (local_some (.size path : Operand String)).behind .closing
    have hsized := local_path.bind hclosed fun _ _ _ hexpect =>
      clauseEnds_of_expect hexpect (by decide)
    obtain ⟨taken, rfl, htakes⟩ := hsized hread
    exact ⟨.word "size" :: .opening :: taken, rfl, htakes⟩
  next hvalue hsize =>
    obtain ⟨taken, rfl, htakes⟩ := local_path.map Operand.path hread
    refine ⟨taken, rfl, fun more hmore => ?_⟩
    have hlater := htakes more hmore
    rw [operand]
    · exact hlater
    · intro placeholder others hothers
      rw [hothers] at hlater
      cases hlater
    · exact ne_call (htakes.ne_nil rfl) hsize hmore

theorem operands_append {fuel : Nat} {tokens rest : List Token} {items : List (Operand String)}
    (hread : operands fuel tokens = some (items, rest)) :
    ∃ taken, tokens = taken ++ rest ∧ ∀ fuel more, taken.length ≤ fuel →
      operands fuel (taken ++ more) = some (items, more) := by
  induction fuel generalizing tokens items with
  | zero => cases hread
  | succ fuel ih =>
      rw [operands] at hread
      obtain ⟨⟨first, behind⟩, hfirst, hmatch⟩ := Option.bind_eq_some_iff.mp hread
      obtain ⟨taken, rfl, htakes⟩ := local_operand hfirst
      simp only at hmatch
      split at hmatch
      next behind =>
        obtain ⟨⟨others, behind⟩, hothers, hsome⟩ := Option.bind_eq_some_iff.mp hmatch
        cases hsome
        obtain ⟨more, rfl, hmore⟩ := ih hothers
        refine ⟨taken ++ .comma :: more, by simp, fun fuel later hfuel => ?_⟩
        rw [List.length_append, List.length_cons] at hfuel
        obtain ⟨fuel, rfl⟩ := Nat.exists_eq_add_of_le' (show 1 ≤ fuel from by omega)
        have hfirst := htakes (.comma :: (more ++ later)) (clauseEnds_cons _ (by decide))
        have hbehind := hmore fuel later (by omega)
        simp only [List.append_assoc, List.cons_append, operands, hfirst, hbehind,
          Option.bind_eq_bind, Option.bind_some]
      next behind =>
        cases hmatch
        refine ⟨taken ++ [.closing], by simp, fun fuel later hfuel => ?_⟩
        rw [List.length_append, List.length_singleton] at hfuel
        obtain ⟨fuel, rfl⟩ := Nat.exists_eq_add_of_le' (show 1 ≤ fuel from by omega)
        have hfirst := htakes (.closing :: later) (clauseEnds_cons _ (by decide))
        simp only [List.append_assoc, List.cons_append, List.nil_append, operands, hfirst,
          Option.bind_eq_bind, Option.bind_some]
      next => cases hmatch

theorem local_demand (left : Operand String) : Local (demand left) := by
  intro tokens value rest hread
  unfold demand at hread
  split at hread
  next comparator tokens =>
    obtain ⟨taken, rfl, htakes⟩ := local_operand.map (Clause.compare left comparator) hread
    exact ⟨.comparator comparator :: taken, rfl, htakes⟩
  next tokens =>
    have hlast (first : Operand String) :=
      (local_operand.map (Clause.between left first)).behind .and
    have hbounds := local_operand.bind hlast fun _ _ _ hexpect =>
      clauseEnds_of_expect hexpect (by decide)
    obtain ⟨taken, rfl, htakes⟩ := hbounds hread
    exact ⟨.between :: taken, rfl, htakes⟩
  next tokens =>
    obtain ⟨⟨items, behind⟩, hitems, hread⟩ := Option.bind_eq_some_iff.mp hread
    cases hread
    obtain ⟨taken, rfl, htaken⟩ := operands_append hitems
    refine ⟨.isIn :: .opening :: taken, rfl, fun more _ => ?_⟩
    have hitems := htaken (taken ++ more).length more (by simp)
    simp only [List.cons_append, demand, hitems, Option.bind_eq_bind, Option.bind_some]
  next => cases hread

theorem clauseEnds_of_demand {left : Operand String} {tokens : List Token}
    {result : Clause String × List Token} (hread : demand left tokens = some result) :
    ClauseEnds tokens := by
  unfold demand at hread
  split at hread
  next => exact clauseEnds_cons _ (by simp)
  next => exact clauseEnds_cons _ (by decide)
  next => exact clauseEnds_cons _ (by decide)
  next => cases hread

theorem local_comparison : Local comparison :=
  local_operand.bind local_demand fun _ _ _ => clauseEnds_of_demand

/-- What stands in the parentheses of a function behind its path. -/
theorem local_arguments (function : String) : Local (arguments function) := by
  have hclosed (clause : Clause String) := (local_some clause).behind .closing
  by_cases hpresent : function = "attribute_exists"
  · subst hpresent
    exact local_path.bind (fun path => hclosed (.present path)) fun _ _ _ hexpect =>
      clauseEnds_of_expect hexpect (by decide)
  by_cases habsent : function = "attribute_not_exists"
  · subst habsent
    exact local_path.bind (fun path => hclosed (.absent path)) fun _ _ _ hexpect =>
      clauseEnds_of_expect hexpect (by decide)
  cases hrelation : relation? function with
  | none =>
      intro tokens value rest hread
      simp [arguments, hpresent, habsent, hrelation] at hread
  | some relation =>
      have hoperand (path : List PathStep) := (local_operand.bind
        (fun operand => hclosed (.related relation path operand))
        fun _ _ _ hexpect => clauseEnds_of_expect hexpect (by decide)).behind .comma
      have hrelated := local_path.bind hoperand fun _ _ _ hexpect =>
        clauseEnds_of_expect hexpect (by decide)
      intro tokens value rest hread
      simp only [arguments, if_neg hpresent, if_neg habsent, hrelation, Option.bind_eq_bind,
        Option.bind_some] at hread
      obtain ⟨taken, rfl, htakes⟩ := hrelated hread
      refine ⟨taken, rfl, fun more hmore => ?_⟩
      simp only [arguments, if_neg hpresent, if_neg habsent, hrelation, Option.bind_eq_bind,
        Option.bind_some]
      exact htakes more hmore

theorem local_clause : Local clause := by
  intro tokens value rest hread
  unfold clause at hread
  split at hread
  next tokens =>
    obtain ⟨taken, htokens, htakes⟩ := local_comparison hread
    obtain ⟨first, taken, rfl⟩ := List.exists_cons_of_ne_nil (htakes.ne_nil rfl)
    obtain ⟨rfl, rfl⟩ := List.cons.inj htokens
    exact ⟨.word "size" :: taken, rfl, htakes⟩
  next function tokens hsize =>
    obtain ⟨taken, rfl, htakes⟩ := local_arguments function hread
    refine ⟨.word function :: .opening :: taken, rfl, fun more hmore => ?_⟩
    rw [List.cons_append, List.cons_append, clause]
    · exact htakes more hmore
    · exact hsize
  next hsize hcall =>
    obtain ⟨taken, rfl, htakes⟩ := local_comparison hread
    refine ⟨taken, rfl, fun more hmore => ?_⟩
    rw [clause]
    · exact htakes more hmore
    · intro others hothers
      obtain ⟨first, taken, rfl⟩ := List.exists_cons_of_ne_nil (htakes.ne_nil rfl)
      exact hsize _ (congrArg (· :: _) (List.cons.inj hothers).1)
    · exact fun function => ne_call (htakes.ne_nil rfl) (hcall function) hmore

end Reader

/-! ### Formulas -/

/-- What a level of the reader has read derives there. -/
theorem derives_of_read {fuel : Nat} {level : Level} {tokens rest : List Token}
    {formula : Formula String} (hread : level.read fuel tokens = some (formula, rest)) :
    ∃ taken, tokens = taken ++ rest ∧ Derives level taken formula := by
  induction fuel generalizing level tokens formula rest with
  | zero => cases level <;> cases hread
  | succ fuel ih =>
      cases level with
      | negation =>
          rw [Level.read] at hread
          unfold Reader.negation at hread
          split at hread
          next => cases hread
          next hfuel =>
            cases hfuel
            obtain ⟨⟨inner, behind⟩, hinner, hsome⟩ := Option.bind_eq_some_iff.mp hread
            cases hsome
            obtain ⟨taken, rfl, hderives⟩ := @ih .negation _ _ _ hinner
            exact ⟨.not :: taken, rfl, .not hderives⟩
          next hfuel =>
            cases hfuel
            obtain ⟨⟨inner, behind⟩, hinner, hbehind⟩ := Option.bind_eq_some_iff.mp hread
            obtain ⟨closed, hclosing, hsome⟩ := Option.bind_eq_some_iff.mp hbehind
            cases hsome
            obtain rfl := Reader.eq_cons_of_expect hclosing
            obtain ⟨taken, rfl, hderives⟩ := @ih .disjunction _ _ _ hinner
            exact ⟨.opening :: (taken ++ [.closing]), by simp, .group hderives⟩
          next hfuel _ _ =>
            cases hfuel
            obtain ⟨⟨clause, behind⟩, hclause, hsome⟩ := Option.bind_eq_some_iff.mp hread
            cases hsome
            obtain ⟨taken, rfl, htakes⟩ := Reader.local_clause hclause
            exact ⟨taken, rfl, .clause htakes⟩
      | conjunction =>
          rw [Level.read, Reader.conjunction] at hread
          obtain ⟨⟨left, behind⟩, hleft, hmatch⟩ := Option.bind_eq_some_iff.mp hread
          obtain ⟨taken, rfl, hderives⟩ := @ih .negation _ _ _ hleft
          simp only at hmatch
          split at hmatch
          next =>
            obtain ⟨⟨right, behind⟩, hright, hsome⟩ := Option.bind_eq_some_iff.mp hmatch
            cases hsome
            obtain ⟨others, rfl, hbehind⟩ := @ih .conjunction _ _ _ hright
            exact ⟨taken ++ .and :: others, by simp, .and hderives hbehind⟩
          next =>
            cases hmatch
            exact ⟨taken, rfl, .conjunction hderives⟩
      | disjunction =>
          rw [Level.read, Reader.disjunction] at hread
          obtain ⟨⟨left, behind⟩, hleft, hmatch⟩ := Option.bind_eq_some_iff.mp hread
          obtain ⟨taken, rfl, hderives⟩ := @ih .conjunction _ _ _ hleft
          simp only at hmatch
          split at hmatch
          next =>
            obtain ⟨⟨right, behind⟩, hright, hsome⟩ := Option.bind_eq_some_iff.mp hmatch
            cases hsome
            obtain ⟨others, rfl, hbehind⟩ := @ih .disjunction _ _ _ hright
            exact ⟨taken ++ .or :: others, by simp, .or hderives hbehind⟩
          next =>
            cases hmatch
            exact ⟨taken, rfl, .disjunction hderives⟩

/-! ### Texts -/

/-- Reads a whole text at a level of the grammar. -/
def Level.parse (level : Level) (text : String) : Option (Formula String) := do
  let tokens ← Token.lex [] text.toList
  let (formula, rest) ← level.read (3 * tokens.length + 3) tokens
  if rest.isEmpty then some formula else none

/-- A text that is read whole is read as the same wherever it stands. -/
theorem Level.parse_eq_some_iff {level : Level} {text : String} {formula : Formula String} :
    level.parse text = some formula ↔ Reads level text formula := by
  constructor
  · intro hparse
    obtain ⟨tokens, htokens, hread⟩ := Option.bind_eq_some_iff.mp hparse
    obtain ⟨⟨formula, rest⟩, hread, hwhole⟩ := Option.bind_eq_some_iff.mp hread
    obtain ⟨taken, rfl, hderives⟩ := derives_of_read hread
    simp only at hwhole
    split at hwhole
    next hrest =>
      obtain rfl := List.isEmpty_iff.mp hrest
      cases hwhole
      rw [List.append_nil] at htokens
      exact ⟨taken, Token.lexes_of_lex htokens, hderives⟩
    next => cases hwhole
  · rintro ⟨tokens, hlexes, hderives⟩
    have hdepth : level.depth ≤ 3 := by cases level <;> decide
    have hread := hderives.read_eq (Nat.add_le_add_left hdepth _) level.stops_nil
    rw [List.append_nil] at hread
    simp [Level.parse, hlexes.lex_eq, hread]

end SchemaQuery.KeyValue
