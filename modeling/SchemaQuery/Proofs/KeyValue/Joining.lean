import SchemaQuery.Proofs.KeyValue.Derivations
import SchemaQuery.Proofs.KeyValue.Narrowing

/-!
# Expressions of a caller before the compiled ones

Expressions of the caller's own are joined with each other and with the compiled one, of which only
the compiled one is in parentheses. Joined by `or` they say together what they say each for itself.
Joined by `and` they do so if none has an `or` outside of parentheses, which would take its sides
apart.
-/

namespace SchemaQuery

/-- What joined expressions say together. -/
def Junction.joins : Junction → List Bool → Bool
  | and, values => values.all id
  | or, values => values.any id

theorem Junction.joins_singleton (junction : Junction) (value : Bool) :
    junction.joins [value] = value := by
  cases junction with
  | and => exact Bool.and_true value
  | or => exact Bool.or_false value

namespace KeyValue

variable {bound : Placeholders} {verdict : Clause Json → Bool}

/-! ### Chains -/

/-- Whether a formula over placeholders holds of a row; nothing if a placeholder is not bound. -/
def Formula.truth (bound : Placeholders) (verdict : Clause Json → Bool)
    (formula : Formula String) : Option Bool :=
  (formula.resolve bound).map (Formula.holds verdict)

theorem Formula.truth_and (left right : Formula String) :
    (Formula.and left right).truth bound verdict =
      (left.truth bound verdict).bind fun first =>
        (right.truth bound verdict).map (first && ·) := by
  unfold truth
  rw [resolve]
  cases left.resolve bound <;> cases right.resolve bound <;> rfl

theorem Formula.truth_or (left right : Formula String) :
    (Formula.or left right).truth bound verdict =
      (left.truth bound verdict).bind fun first =>
        (right.truth bound verdict).map (first || ·) := by
  unfold truth
  rw [resolve]
  cases left.resolve bound <;> cases right.resolve bound <;> rfl

/-- Two conjunctions joined by `and` are one, which is read to the right and holds of the same. -/
theorem Derives.and_conjunction {tokens others : List Token} {formula behind : Formula String}
    (hderives : Derives .conjunction tokens formula)
    (hbehind : Derives .conjunction others behind) :
    ∃ joined, Derives .conjunction (tokens ++ .and :: others) joined ∧ ∀ bound verdict,
      joined.truth bound verdict = (Formula.and formula behind).truth bound verdict := by
  generalize hlevel : Level.conjunction = level at hderives
  induction hderives with
  | conjunction hinner => exact ⟨_, .and hinner hbehind, fun _ _ => rfl⟩
  | @and _ _ first last hinner _ _ ih =>
      obtain ⟨joined, hjoined, htruth⟩ := ih hlevel
      refine ⟨.and first joined, ?_, fun bound verdict => ?_⟩
      · rw [List.append_assoc, List.cons_append]
        exact .and hinner hjoined
      · simp only [Formula.truth_and, htruth]
        cases first.truth bound verdict <;> cases last.truth bound verdict <;>
          cases behind.truth bound verdict <;> simp [Bool.and_assoc]
  | _ => cases hlevel

/-- Two disjunctions joined by `or` are one. -/
theorem Derives.or_disjunction {tokens others : List Token} {formula behind : Formula String}
    (hderives : Derives .disjunction tokens formula)
    (hbehind : Derives .disjunction others behind) :
    ∃ joined, Derives .disjunction (tokens ++ .or :: others) joined ∧ ∀ bound verdict,
      joined.truth bound verdict = (Formula.or formula behind).truth bound verdict := by
  generalize hlevel : Level.disjunction = level at hderives
  induction hderives with
  | disjunction hinner => exact ⟨_, .or hinner hbehind, fun _ _ => rfl⟩
  | @or _ _ first last hinner _ _ ih =>
      obtain ⟨joined, hjoined, htruth⟩ := ih hlevel
      refine ⟨.or first joined, ?_, fun bound verdict => ?_⟩
      · rw [List.append_assoc, List.cons_append]
        exact .or hinner hjoined
      · simp only [Formula.truth_or, htruth]
        cases first.truth bound verdict <;> cases last.truth bound verdict <;>
          cases behind.truth bound verdict <;> simp [Bool.or_assoc]
  | _ => cases hlevel

/-! ### Texts -/

theorem decides_iff_truth {level : Level} {text : String} {holds : Bool} :
    Decides bound verdict level text holds ↔
      ∃ written, Reads level text written ∧ written.truth bound verdict = some holds := by
  constructor
  · rintro ⟨written, resolved, hreads, hresolve, rfl⟩
    exact ⟨written, hreads, Option.map_eq_some_iff.mpr ⟨resolved, hresolve, rfl⟩⟩
  · rintro ⟨written, hreads, htruth⟩
    obtain ⟨resolved, hresolve, rfl⟩ := Option.map_eq_some_iff.mp htruth
    exact ⟨written, resolved, hreads, hresolve, rfl⟩

theorem expressionHolds_eq_some_iff {text : String} {holds : Bool} :
    expressionHolds bound verdict (some text) = some holds ↔
      Decides bound verdict .disjunction text holds := by
  constructor
  · intro hholds
    obtain ⟨written, hparse, hholds⟩ := Option.bind_eq_some_iff.mp hholds
    obtain ⟨resolved, hresolve, hholds⟩ := Option.bind_eq_some_iff.mp hholds
    exact ⟨written, resolved, Level.parse_eq_some_iff.mp hparse, hresolve, Option.some.inj hholds⟩
  · rintro ⟨written, resolved, hreads, hresolve, rfl⟩
    simp only [expressionHolds, hreads.parse_eq, Option.bind_eq_bind, Option.bind_some, hresolve]

/-- A text that can be read without an `or` outside of parentheses. -/
def IsConjunction (text : String) : Prop := (Level.conjunction.parse text).isSome = true

instance : DecidablePred IsConjunction := fun text =>
  inferInstanceAs (Decidable ((Level.conjunction.parse text).isSome = true))

namespace Decides

variable {text other : String} {holds behind : Bool}

theorem group (hdecides : Decides bound verdict .disjunction text holds) :
    Decides bound verdict .negation (parenthesized text) holds := by
  obtain ⟨written, resolved, hreads, hresolve⟩ := hdecides
  exact ⟨written, resolved, hreads.group, hresolve⟩

theorem disjunction (hdecides : Decides bound verdict .conjunction text holds) :
    Decides bound verdict .disjunction text holds := by
  obtain ⟨written, resolved, hreads, hresolve⟩ := hdecides
  exact ⟨written, resolved, hreads.disjunction, hresolve⟩

theorem alone (junction : Junction) (hdecides : Decides bound verdict .negation text holds) :
    Decides bound verdict (levelOf junction) text holds := by
  obtain ⟨written, resolved, hreads, hresolve⟩ := hdecides
  exact ⟨written, resolved, hreads.alone junction, hresolve⟩

theorem whole {junction : Junction}
    (hdecides : Decides bound verdict (levelOf junction) text holds) :
    Decides bound verdict .disjunction text holds := by
  obtain ⟨written, resolved, hreads, hresolve⟩ := hdecides
  exact ⟨written, resolved, hreads.whole, hresolve⟩

/-- What can be read as a conjunction decides as one. -/
theorem of_isConjunction (hdecides : Decides bound verdict .disjunction text holds)
    (hconjunction : IsConjunction text) : Decides bound verdict .conjunction text holds := by
  obtain ⟨written, resolved, hreads, hresolve⟩ := hdecides
  obtain ⟨formula, hparse⟩ := Option.isSome_iff_exists.mp hconjunction
  have hformula : Reads .conjunction text formula := Level.parse_eq_some_iff.mp hparse
  have hsame : formula = written :=
    Option.some.inj (hformula.disjunction.parse_eq.symm.trans hreads.parse_eq)
  exact ⟨written, resolved, hsame ▸ hformula, hresolve⟩

theorem and_conjunction (htext : Decides bound verdict .conjunction text holds)
    (hother : Decides bound verdict .conjunction other behind) :
    Decides bound verdict .conjunction (text ++ " and " ++ other) (holds && behind) := by
  obtain ⟨written, ⟨tokens, hlexes, hderives⟩, htruth⟩ := decides_iff_truth.mp htext
  obtain ⟨written', ⟨others, hlexes', hderives'⟩, htruth'⟩ := decides_iff_truth.mp hother
  obtain ⟨joined, hjoined, hsame⟩ := hderives.and_conjunction hderives'
  refine decides_iff_truth.mpr ⟨joined, ⟨_, Token.lexes_and.between hlexes hlexes', hjoined⟩, ?_⟩
  rw [hsame, Formula.truth_and, htruth, htruth']
  rfl

theorem or_disjunction (htext : Decides bound verdict .disjunction text holds)
    (hother : Decides bound verdict .disjunction other behind) :
    Decides bound verdict .disjunction (text ++ " or " ++ other) (holds || behind) := by
  obtain ⟨written, ⟨tokens, hlexes, hderives⟩, htruth⟩ := decides_iff_truth.mp htext
  obtain ⟨written', ⟨others, hlexes', hderives'⟩, htruth'⟩ := decides_iff_truth.mp hother
  obtain ⟨joined, hjoined, hsame⟩ := hderives.or_disjunction hderives'
  refine decides_iff_truth.mpr ⟨joined, ⟨_, Token.lexes_or.between hlexes hlexes', hjoined⟩, ?_⟩
  rw [hsame, Formula.truth_or, htruth, htruth']
  rfl

theorem join (junction : Junction) {values : List Bool}
    (htext : Decides bound verdict (levelOf junction) text holds)
    (hother : Decides bound verdict (levelOf junction) other (junction.joins values)) :
    Decides bound verdict (levelOf junction) (text ++ (" " ++ junction.keyword ++ " ") ++ other)
      (junction.joins (holds :: values)) := by
  cases junction with
  | and => exact htext.and_conjunction hother
  | or => exact htext.or_disjunction hother

end Decides

/-- Texts that can stand in a chain of their junction. -/
theorem decides_joinWith (junction : Junction) {text : String} {texts : List String}
    {values : List Bool}
    (htexts : List.Forall₂ (Decides bound verdict (levelOf junction)) (text :: texts) values) :
    Decides bound verdict (levelOf junction) (joinWith junction.keyword (text :: texts))
      (junction.joins values) := by
  induction texts generalizing text values with
  | nil =>
      cases htexts with
      | cons htext hnil =>
          cases hnil
          rw [junction.joins_singleton, joinWith, String.intercalate_singleton]
          exact htext
  | cons next texts ih =>
      cases htexts with
      | cons htext hrest =>
          rw [joinWith, String.intercalate_cons_cons]
          exact htext.join junction (ih hrest)

theorem joinWith_concat (keyword text last : String) (texts : List String) :
    joinWith keyword (text :: (texts ++ [last])) =
      joinWith keyword (text :: texts) ++ " " ++ keyword ++ " " ++ last := by
  induction texts generalizing text with
  | nil =>
      simp only [joinWith, List.nil_append, String.intercalate_cons_cons,
        String.intercalate_singleton, String.append_assoc]
  | cons next texts ih =>
      have hnext := ih next
      simp only [joinWith] at hnext
      simp only [joinWith, List.cons_append, String.intercalate_cons_cons, hnext]
      simp only [String.append_assoc]

/-- The compiled expression is one more, in parentheses. -/
theorem prepend_cons (own keyword : String) (others : List String) (compiled : Option String) :
    Fragment.prepend (own :: others) keyword compiled =
      some (joinWith keyword (own :: (others ++ compiled.toList.map parenthesized))) := by
  cases compiled with
  | none =>
      simp only [Option.toList_none, List.map_nil, List.append_nil]
      rfl
  | some compiled =>
      simp only [Option.toList_some, List.map_cons, List.map_nil, joinWith_concat]
      rfl

/-- Whether each of some expressions holds of a row. -/
abbrev Truths (bound : Placeholders) (verdict : Clause Json → Bool) :
    List String → List Bool → Prop :=
  List.Forall₂ fun text holds => expressionHolds bound verdict (some text) = some holds

/-- Expressions that can be told apart in a chain, and the compiled one in its parentheses. -/
theorem Truths.decides {junction : Junction} {own : List String} {compiled : Option String}
    {values : List Bool} (htruths : Truths bound verdict (own ++ compiled.toList) values)
    (hown : junction = .and → ∀ text ∈ own, IsConjunction text) :
    List.Forall₂ (Decides bound verdict (levelOf junction))
      (own ++ compiled.toList.map parenthesized) values := by
  induction own generalizing values with
  | nil =>
      refine List.forall₂_map_left_iff.mpr (htruths.imp fun text holds hholds => ?_)
      exact (expressionHolds_eq_some_iff.mp hholds).group.alone junction
  | cons text own ih =>
      cases htruths with
      | cons htext hrest =>
          have hdecides := expressionHolds_eq_some_iff.mp htext
          refine .cons ?_ (ih hrest fun hand other hother =>
            hown hand other (List.mem_cons_of_mem _ hother))
          cases junction with
          | and => exact hdecides.of_isConjunction (hown rfl text List.mem_cons_self)
          | or => exact hdecides

theorem Truths.single {text : String} {values : List Bool}
    (htruths : Truths bound verdict [text] values) (junction : Junction) :
    expressionHolds bound verdict (some text) = some (junction.joins values) := by
  cases htruths with
  | cons htext hnil =>
      cases hnil
      rw [junction.joins_singleton]
      exact htext

/-- Expressions that stay whole where they are joined: of several joined by `and` none of the
caller's own has an `or` outside of parentheses. -/
def StayWhole (junction : Junction) (own : List String) (compiled : Option String) : Prop :=
  junction = .and → 1 < (own ++ compiled.toList).length → ∀ text ∈ own, IsConjunction text

instance (junction : Junction) (own : List String) (compiled : Option String) :
    Decidable (StayWhole junction own compiled) :=
  inferInstanceAs (Decidable (_ → _ → ∀ text ∈ own, IsConjunction text))

theorem prepend_holds {junction : Junction} {own : List String} {compiled : Option String}
    {values : List Bool} (htruths : Truths bound verdict (own ++ compiled.toList) values)
    (hne : values ≠ []) (hwhole : StayWhole junction own compiled) :
    expressionHolds bound verdict (Fragment.prepend own junction.keyword compiled) =
      some (junction.joins values) := by
  cases own with
  | nil =>
      cases compiled with
      | none => exact absurd (List.forall₂_nil_left_iff.mp htruths) hne
      | some compiled => exact htruths.single junction
  | cons text others =>
      by_cases hseveral : 1 < (text :: others ++ compiled.toList).length
      · have hdecides := htruths.decides fun hand => hwhole hand hseveral
        rw [prepend_cons]
        exact expressionHolds_eq_some_iff.mpr (decides_joinWith junction hdecides).whole
      · obtain ⟨rfl, hcompiled⟩ : others = [] ∧ compiled.toList = [] := by
          rw [List.cons_append, List.length_cons] at hseveral
          exact List.append_eq_nil_iff.mp (List.length_eq_zero_iff.mp (by omega))
        obtain rfl := Option.toList_eq_nil_iff.mp hcompiled
        exact htruths.single junction

/-! ### Later placeholders -/

section

variable {later : Placeholders} (hlater : bound.Extends later)

theorem mapM_eq_some {α β : Type} {make other : α → Option β}
    (hmake : ∀ entry result, make entry = some result → other entry = some result)
    {entries : List α} {results : List β} (hresults : entries.mapM make = some results) :
    entries.mapM other = some results := by
  induction entries generalizing results with
  | nil => exact hresults
  | cons entry entries ih =>
      rw [List.mapM_cons] at hresults ⊢
      obtain ⟨result, hresult, hrest⟩ := Option.bind_eq_some_iff.mp hresults
      obtain ⟨others, hothers, hsome⟩ := Option.bind_eq_some_iff.mp hrest
      rw [hmake entry result hresult, ih hothers]
      exact hsome

include hlater

theorem PathStep.resolve_extends {step resolved : PathStep}
    (hresolve : step.resolve bound = some resolved) : step.resolve later = some resolved := by
  cases step with
  | named placeholder =>
      obtain ⟨field, hfield, rfl⟩ := Option.map_eq_some_iff.mp hresolve
      rw [PathStep.resolve, hlater.names _ _ hfield]
      rfl
  | field => exact hresolve
  | item => exact hresolve

theorem steps_resolve_extends {steps resolved : List PathStep}
    (hresolve : steps.mapM (PathStep.resolve bound) = some resolved) :
    steps.mapM (PathStep.resolve later) = some resolved :=
  mapM_eq_some (fun _ _ => PathStep.resolve_extends hlater) hresolve

theorem Operand.resolve_extends {operand : Operand String} {resolved : Operand Json}
    (hresolve : operand.resolve bound = some resolved) : operand.resolve later = some resolved := by
  cases operand with
  | path steps =>
      obtain ⟨path, hpath, rfl⟩ := Option.map_eq_some_iff.mp hresolve
      rw [Operand.resolve, steps_resolve_extends hlater hpath]
      rfl
  | value placeholder =>
      obtain ⟨json, hjson, rfl⟩ := Option.map_eq_some_iff.mp hresolve
      rw [Operand.resolve, hlater.values _ _ hjson]
      rfl
  | size steps =>
      obtain ⟨path, hpath, rfl⟩ := Option.map_eq_some_iff.mp hresolve
      rw [Operand.resolve, steps_resolve_extends hlater hpath]
      rfl

theorem Clause.resolve_extends {clause : Clause String} {resolved : Clause Json}
    (hresolve : clause.resolve bound = some resolved) : clause.resolve later = some resolved := by
  have hsteps := @steps_resolve_extends bound later hlater
  have hoperand := @Operand.resolve_extends bound later hlater
  have hitems {items : List (Operand String)} {resolved} :=
    @mapM_eq_some _ _ (Operand.resolve bound) (Operand.resolve later) (fun _ _ => hoperand) items
      resolved
  cases clause <;>
    simp only [Clause.resolve, Option.bind_eq_bind, Option.bind_eq_some_iff,
      Option.map_eq_some_iff] at hresolve ⊢ <;>
    grind

theorem Formula.resolve_extends {formula : Formula String} {resolved : Formula Json}
    (hresolve : formula.resolve bound = some resolved) :
    formula.resolve later = some resolved := by
  induction formula generalizing resolved with
  | clause clause =>
      obtain ⟨asked, hasked, rfl⟩ := Option.map_eq_some_iff.mp hresolve
      rw [Formula.resolve, Clause.resolve_extends hlater hasked]
      rfl
  | not formula ih =>
      obtain ⟨inner, hinner, rfl⟩ := Option.map_eq_some_iff.mp hresolve
      rw [Formula.resolve, ih hinner]
      rfl
  | and left right ihleft ihright | or left right ihleft ihright =>
      obtain ⟨first, hfirst, hresolve⟩ := Option.bind_eq_some_iff.mp hresolve
      obtain ⟨last, hlast, hresolve⟩ := Option.bind_eq_some_iff.mp hresolve
      rw [Formula.resolve, ihleft hfirst, ihright hlast]
      exact hresolve

/-- What an expression says by the placeholders of the caller it says by all that are bound. -/
theorem expressionHolds_extends {text : String} {holds : Bool}
    (hholds : expressionHolds bound verdict (some text) = some holds) :
    expressionHolds later verdict (some text) = some holds := by
  obtain ⟨written, hparse, hholds⟩ := Option.bind_eq_some_iff.mp hholds
  obtain ⟨resolved, hresolve, hholds⟩ := Option.bind_eq_some_iff.mp hholds
  simp only [expressionHolds, hparse, Formula.resolve_extends hlater hresolve, Option.bind_eq_bind,
    Option.bind_some]
  exact hholds

end

/-! ### The read of a plan -/

theorem eq_nil_of_prepend {own : List String} {keyword : String} {compiled : Option String}
    (hnone : Fragment.prepend own keyword compiled = none) : own ++ compiled.toList = [] := by
  cases own with
  | nil => exact Option.toList_eq_nil_iff.mpr hnone
  | cons =>
      rw [prepend_cons] at hnone
      cases hnone

/-- The placeholders that are bound once the expressions of a plan are made. -/
def boundAfter (plan : Plan) (bound : Placeholders) : Placeholders :=
  (bindConditions (bindHash bound plan.hashKey).2 plan.conditions).2

theorem Means.exists_holds {part : Option String} {formula : Option (Formula Json)}
    (hmeans : Means bound part formula) (verdict : Clause Json → Bool) :
    ∀ text ∈ part.toList, ∃ holds, expressionHolds bound verdict (some text) = some holds := by
  cases hmeans with
  | none => exact fun _ hmem => absurd hmem List.not_mem_nil
  | some hmeans =>
      obtain ⟨written, resolved, hparse, hresolve, -⟩ := hmeans
      rintro text hmem
      obtain rfl := List.mem_singleton.mp hmem
      refine ⟨resolved.holds verdict, ?_⟩
      simp only [expressionHolds, hparse, hresolve, Option.bind_eq_bind, Option.bind_some]

/-- The expressions of a plan that can be written are well-formed. -/
theorem parts_hold {plan : Plan} (hwritable : ∀ condition ∈ plan.conditions, Writable condition)
    (bound : Placeholders) (verdict : Clause Json → Bool) :
    ∀ text ∈ (plan.parts bound).1.toList ++ (plan.parts bound).2.toList, ∃ holds,
      expressionHolds (boundAfter plan bound) verdict (some text) = some holds := by
  obtain ⟨hhash, -⟩ := bindHash_asksHash bound plan.hashKey
  obtain ⟨hask, hlater⟩ := bindConditions_askAll (bindHash bound plan.hashKey).2 hwritable
  obtain ⟨hkey, hfilter⟩ := expressions_means (hhash.extends hlater) hask
  intro text htext
  rcases List.mem_append.mp htext with htext | htext
  · exact hkey.exists_holds verdict text htext
  · exact hfilter.exists_holds verdict text htext

section

variable {plan : Plan} {fragment : Fragment} (table : String) (pageSize : Option UInt32)

/-- If an expression is sent, all that is bound is sent with it. -/
theorem render_extends {text : String}
    (hsent : text ∈ fragment.keyConditions ++ (plan.parts fragment.placeholders).1.toList ∨
      text ∈ fragment.filters ++ (plan.parts fragment.placeholders).2.toList) :
    let read := render plan table pageSize (some fragment)
    fragment.placeholders.Extends (boundAfter plan fragment.placeholders) ∧
      (boundAfter plan fragment.placeholders).Extends ⟨read.names, read.values⟩ := by
  intro read
  obtain ⟨-, -, hkept, -⟩ := parts_binds plan fragment.placeholders
  obtain ⟨-, -, hprojected, -⟩ :=
    projectionOf_binds (boundAfter plan fragment.placeholders) fragment.projection
  have hmerged : (fragment.mergeKeyCondition (plan.parts fragment.placeholders).1).isSome ∨
      (fragment.mergeFilter (plan.parts fragment.placeholders).2).isSome :=
    hsent.imp
      (fun hmem => Option.isSome_iff_ne_none.mpr fun hnone =>
        List.ne_nil_of_mem hmem (eq_nil_of_prepend hnone))
      fun hmem => Option.isSome_iff_ne_none.mpr fun hnone =>
        List.ne_nil_of_mem hmem (eq_nil_of_prepend hnone)
  have hbound : (⟨read.names, read.values⟩ : Placeholders) = _ := strip_of_isSome _ _ hmerged
  rw [hbound]
  exact ⟨hkept, hprojected⟩

theorem filter_of_nil
    (hnil : fragment.filters ++ (plan.parts fragment.placeholders).2.toList = []) :
    (render plan table pageSize (some fragment)).filter =
      match plan.lookup with
      | .query => none
      | .scan => some unconstrained := by
  obtain ⟨hown, hcompiled⟩ := List.append_eq_nil_iff.mp hnil
  have hmerged : fragment.mergeFilter (plan.parts fragment.placeholders).2 = none := by
    rw [Fragment.mergeFilter, hown, Option.toList_eq_nil_iff.mp hcompiled]
    rfl
  have hfilter : (render plan table pageSize (some fragment)).filter =
      if (fragment.mergeFilter (plan.parts fragment.placeholders).2).isNone &&
        plan.lookup == .scan then some unconstrained
      else fragment.mergeFilter (plan.parts fragment.placeholders).2 := rfl
  rw [hfilter, hmerged]
  cases plan.lookup with
  | query => rfl
  | scan => rfl

end

/-- **Expressions of a caller keep their meaning.** In a read an expression of the caller holds of
the rows of which it holds by the caller's placeholders, and those of a plan that can be written are
well-formed. As long as the caller's stay whole, the key condition holds of a row just if all that
are joined in it do, and the filter if those do that its junction asks for. Where there is no
expression to filter by, a query has no filter, and a scan that of a plan without conditions. -/
theorem render_joins (plan : Plan) (table : String) (pageSize : Option UInt32)
    (fragment : Fragment) (verdict : Clause Json → Bool)
    (hkeys : StayWhole .and fragment.keyConditions (plan.parts fragment.placeholders).1)
    (hfilters : StayWhole fragment.junction fragment.filters
      (plan.parts fragment.placeholders).2) :
    let read := render plan table pageSize (some fragment)
    let bound : Placeholders := ⟨read.names, read.values⟩
    let compiled := plan.parts fragment.placeholders
    (∀ text ∈ fragment.keyConditions ++ fragment.filters, ∀ holds,
      expressionHolds fragment.placeholders verdict (some text) = some holds →
        expressionHolds bound verdict (some text) = some holds) ∧
    ((∀ condition ∈ plan.conditions, Writable condition) →
      ∀ text ∈ compiled.1.toList ++ compiled.2.toList, ∃ holds,
        expressionHolds bound verdict (some text) = some holds) ∧
    (∀ values, Truths bound verdict (fragment.keyConditions ++ compiled.1.toList) values →
      expressionHolds bound verdict read.keyCondition = some (values.all id)) ∧
    (∀ values, Truths bound verdict (fragment.filters ++ compiled.2.toList) values → values ≠ [] →
      expressionHolds bound verdict read.filter = some (fragment.junction.joins values)) ∧
    (fragment.filters ++ compiled.2.toList = [] → read.filter =
      match plan.lookup with
      | .query => none
      | .scan => some unconstrained) := by
  intro read bound compiled
  have hkey : read.keyCondition = Fragment.prepend fragment.keyConditions "and" compiled.1 := rfl
  refine ⟨fun text htext holds hholds => ?_, fun hwritable text htext => ?_,
    fun values htruths => ?_, fun values htruths hne => ?_, filter_of_nil table pageSize⟩
  · obtain ⟨hfirst, hlater⟩ := render_extends table pageSize
      ((List.mem_append.mp htext).imp (List.mem_append_left _) (List.mem_append_left _))
    exact expressionHolds_extends (hfirst.trans hlater) hholds
  · obtain ⟨-, hlater⟩ := render_extends table pageSize
      ((List.mem_append.mp htext).imp (List.mem_append_right _) (List.mem_append_right _))
    obtain ⟨holds, hholds⟩ := parts_hold hwritable fragment.placeholders verdict text htext
    exact ⟨holds, expressionHolds_extends hlater hholds⟩
  · rw [hkey]
    cases values with
    | nil =>
        have hnil := List.forall₂_nil_right_iff.mp htruths
        obtain ⟨hown, hcompiled⟩ := List.append_eq_nil_iff.mp hnil
        rw [hown, Option.toList_eq_nil_iff.mp hcompiled]
        rfl
    | cons value values =>
        exact @prepend_holds bound verdict .and _ _ _ htruths (List.cons_ne_nil _ _) hkeys
  · have hmerged := prepend_holds htruths hne hfilters
    rcases filter_of_render plan table pageSize (some fragment) with hsent | ⟨hnone, -⟩
    · rw [hsent]
      exact hmerged
    · have hnil : fragment.filters ++ compiled.2.toList = [] := eq_nil_of_prepend hnone
      rw [hnil] at htruths
      exact absurd (List.forall₂_nil_left_iff.mp htruths) hne

/-- The vans of one maker, which is the hash key. -/
def fordVans : Plan where
  hashKey := some ⟨"maker", .string "ford"⟩
  conditions := [⟨["body"], .equal (.string "van"), .filter⟩]
  junction := .and
  lookup := .query
  index := none
  descending := false
  skipped := []

/-- A caller's own condition on colors, on both sides. -/
def onColors (condition : String) : Fragment where
  keyConditions := [condition]
  filters := [condition]
  names := [("#color", "color")]
  values := [(":blue", .string "blue"), (":red", .string "red")]

/-- Of a red car of another maker, which is no van, nothing holds but its color. -/
def isRed (clause : Clause Json) : Bool :=
  clause == .compare (.path [.field "color"]) .equal (.value (.string "red"))

theorem onColors_joins :
    let fragment := onColors "(#color = :red or #color = :blue)"
    let read := render fordVans "cars" none (some fragment)
    let bound : Placeholders := ⟨read.names, read.values⟩
    let compiled := fordVans.parts fragment.placeholders
    Truths bound isRed (fragment.filters ++ compiled.2.toList) [true, false] ∧
      expressionHolds bound isRed read.filter = some false := by
  intro fragment read bound compiled
  have htruths : Truths bound isRed (fragment.filters ++ compiled.2.toList) [true, false] :=
    .cons (by decide +kernel) (.cons (by decide +kernel) .nil)
  obtain ⟨-, -, -, hfilter, -⟩ := render_joins fordVans "cars" none fragment isRed
    (by decide +kernel) (by decide +kernel)
  exact ⟨htruths, hfilter _ htruths (by simp)⟩

/-- Without parentheses a red car is selected for its color, whatever its maker and its body. -/
theorem onColors_widens :
    let fragment := onColors "#color = :red or #color = :blue"
    let read := render fordVans "cars" none (some fragment)
    let bound : Placeholders := ⟨read.names, read.values⟩
    let compiled := fordVans.parts fragment.placeholders
    fragment.junction = .and ∧
      (Truths bound isRed (fragment.keyConditions ++ compiled.1.toList) [true, false] ∧
        expressionHolds bound isRed read.keyCondition = some true) ∧
      (Truths bound isRed (fragment.filters ++ compiled.2.toList) [true, false] ∧
        expressionHolds bound isRed read.filter = some true) := by
  intro fragment read bound compiled
  exact ⟨rfl, ⟨.cons (by decide +kernel) (.cons (by decide +kernel) .nil), by decide +kernel⟩,
    .cons (by decide +kernel) (.cons (by decide +kernel) .nil), by decide +kernel⟩

end KeyValue

end SchemaQuery
