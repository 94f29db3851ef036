import SchemaQuery.KeyValue.Expression
import SchemaQuery.Proofs.KeyValue.Reading

/-!
# What conditions and their texts denote

A condition denotes a formula over attributes and values. The atom made of it is written over
placeholders, and once these are replaced by what they stand for, its text is read as that formula,
with values that are equal to those of the condition under the equality of the stores.
-/

namespace SchemaQuery

open KeyValue

variable {V : Type}

def Junction.connect : Junction → Formula V → Formula V → Formula V
  | and => .and
  | or => .or

/-- The formulas joined by the junction; nothing for none. -/
def Junction.connectAll (junction : Junction) : List (Formula V) → Option (Formula V)
  | [] => none
  | [formula] => some formula
  | formula :: rest => (junction.connectAll rest).map (junction.connect formula)

/-- The conjunction of what is there. -/
def KeyValue.Formula.both : Option (Formula V) → Option (Formula V) → Option (Formula V)
  | some left, some right => some (.and left right)
  | some left, none => some left
  | none, right => right

/-- Membership of an item and containment of a text are the same function of the store. -/
def Test.formula (path : List String) : Test → Formula Json
  | .equal json => .clause (.compare (.path (path.map .field)) .equal (.value json))
  | .contains json | .hasItem json => .clause (.related .contains (path.map .field) (.value json))
  | .lacksItem json => .not (.clause (.related .contains (path.map .field) (.value json)))
  | .oneOf items => .clause (.oneOf (.path (path.map .field)) (items.map .value))
  | .range (some first) (some last) =>
      .clause (.between (.path (path.map .field)) (.value first) (.value last))
  | .range (some first) none =>
      .clause (.compare (.path (path.map .field)) .atLeast (.value first))
  | .range none (some last) => .clause (.compare (.path (path.map .field)) .atMost (.value last))
  | .range none none => .clause (.present (path.map .field))

def Condition.formula (condition : Condition) : Formula Json :=
  condition.test.formula condition.path

def HashBinding.formula (binding : HashBinding) : Formula Json :=
  (Test.equal binding.value).formula [binding.field]

namespace KeyValue

/-- A text is read as a formula over placeholders, which stands for a formula over attributes and
values. -/
def Denotes (bound : Placeholders) (level : Level) (text : String) (formula : Formula Json) :
    Prop :=
  ∃ written resolved, Reads level text written ∧ written.resolve bound = some resolved ∧
    (resolved == formula) = true

namespace Denotes

variable {bound : Placeholders} {text other : String} {formula behind : Formula Json}

theorem conjunction (hdenotes : Denotes bound .negation text formula) :
    Denotes bound .conjunction text formula := by
  obtain ⟨written, resolved, hreads, hresolve⟩ := hdenotes
  exact ⟨written, resolved, hreads.conjunction, hresolve⟩

theorem disjunction (hdenotes : Denotes bound .conjunction text formula) :
    Denotes bound .disjunction text formula := by
  obtain ⟨written, resolved, hreads, hresolve⟩ := hdenotes
  exact ⟨written, resolved, hreads.disjunction, hresolve⟩

theorem group (hdenotes : Denotes bound .disjunction text formula) :
    Denotes bound .negation (parenthesized text) formula := by
  obtain ⟨written, resolved, hreads, hresolve⟩ := hdenotes
  exact ⟨written, resolved, hreads.group, hresolve⟩

theorem not (hdenotes : Denotes bound .negation text formula) :
    Denotes bound .negation ("not " ++ text) (.not formula) := by
  obtain ⟨written, resolved, hreads, hresolve, hsame⟩ := hdenotes
  exact ⟨.not written, .not resolved, hreads.not, by rw [Formula.resolve, hresolve]; rfl, hsame⟩

theorem and (hleft : Denotes bound .negation text formula)
    (hright : Denotes bound .conjunction other behind) :
    Denotes bound .conjunction (text ++ " and " ++ other) (.and formula behind) := by
  obtain ⟨written, resolved, hreads, hresolve, hsame⟩ := hleft
  obtain ⟨written', resolved', hreads', hresolve', hsame'⟩ := hright
  refine ⟨.and written written', .and resolved resolved', hreads.and hreads', ?_, ?_⟩
  · rw [Formula.resolve, hresolve, hresolve']
    rfl
  · change (resolved == formula && resolved' == behind) = true
    rw [hsame, hsame']
    rfl

theorem or (hleft : Denotes bound .conjunction text formula)
    (hright : Denotes bound .disjunction other behind) :
    Denotes bound .disjunction (text ++ " or " ++ other) (.or formula behind) := by
  obtain ⟨written, resolved, hreads, hresolve, hsame⟩ := hleft
  obtain ⟨written', resolved', hreads', hresolve', hsame'⟩ := hright
  refine ⟨.or written written', .or resolved resolved', hreads.or hreads', ?_, ?_⟩
  · rw [Formula.resolve, hresolve, hresolve']
    rfl
  · change (resolved == formula && resolved' == behind) = true
    rw [hsame, hsame']
    rfl

end Denotes

/-! ### Atoms -/

/-- A path of placeholders for attributes. -/
def PathNames (bound : Placeholders) (text : String) (path : List String) : Prop :=
  ∃ placeholders, placeholders ≠ [] ∧ text = String.intercalate "." placeholders ∧
    bound.NamesAll placeholders path

/-- An atom over placeholders for what a test asks of a path. -/
inductive Asks (bound : Placeholders) (path : List String) : Atom → Test → Prop where
  | equal {name value : String} {json : Json} : PathNames bound name path →
      bound.StandsFor value json → Asks bound path (.equal name value) (.equal json)
  | contains {name value : String} {json : Json} : PathNames bound name path →
      bound.StandsFor value json → Asks bound path (.contains name value) (.contains json)
  | hasItem {name value : String} {json : Json} : PathNames bound name path →
      bound.StandsFor value json → Asks bound path (.contains name value) (.hasItem json)
  | lacksItem {name value : String} {json : Json} : PathNames bound name path →
      bound.StandsFor value json → Asks bound path (.lacks name value) (.lacksItem json)
  | oneOf {name : String} {values : List String} {items : List Json} :
      PathNames bound name path → values ≠ [] → bound.StandsForAll values items →
      Asks bound path (.oneOf name values) (.oneOf items)
  | between {name first last : String} {low high : Json} : PathNames bound name path →
      bound.StandsFor first low → bound.StandsFor last high →
      Asks bound path (.between name first last) (.range (some low) (some high))
  | atLeast {name first : String} {low : Json} : PathNames bound name path →
      bound.StandsFor first low → Asks bound path (.atLeast name first) (.range (some low) none)
  | atMost {name last : String} {high : Json} : PathNames bound name path →
      bound.StandsFor last high → Asks bound path (.atMost name last) (.range none (some high))
  | present {name : String} : PathNames bound name path →
      Asks bound path (.present name) (.range none none)

theorem PathNames.extends {bound later : Placeholders} {text : String} {path : List String}
    (hpath : PathNames bound text path) (hlater : bound.Extends later) :
    PathNames later text path := by
  obtain ⟨placeholders, hne, htext, hnames⟩ := hpath
  exact ⟨placeholders, hne, htext, hnames.extends hlater⟩

theorem Asks.extends {bound later : Placeholders} {path : List String} {atom : Atom} {test : Test}
    (hasks : Asks bound path atom test) (hlater : bound.Extends later) :
    Asks later path atom test := by
  cases hasks with
  | equal hpath hvalue => exact .equal (hpath.extends hlater) (hvalue.extends hlater)
  | contains hpath hvalue => exact .contains (hpath.extends hlater) (hvalue.extends hlater)
  | hasItem hpath hvalue => exact .hasItem (hpath.extends hlater) (hvalue.extends hlater)
  | lacksItem hpath hvalue => exact .lacksItem (hpath.extends hlater) (hvalue.extends hlater)
  | oneOf hpath hne hvalues => exact .oneOf (hpath.extends hlater) hne (hvalues.extends hlater)
  | between hpath hfirst hlast =>
      exact .between (hpath.extends hlater) (hfirst.extends hlater) (hlast.extends hlater)
  | atLeast hpath hfirst => exact .atLeast (hpath.extends hlater) (hfirst.extends hlater)
  | atMost hpath hlast => exact .atMost (hpath.extends hlater) (hlast.extends hlater)
  | present hpath => exact .present (hpath.extends hlater)

theorem resolve_names {bound : Placeholders} {placeholders path : List String}
    (hnames : bound.NamesAll placeholders path) :
    (placeholders.map PathStep.named).mapM (PathStep.resolve bound) =
      some (path.map PathStep.field) := by
  induction hnames with
  | nil => rfl
  | cons hname _ ih =>
      simp only [List.map_cons, List.mapM_cons, PathStep.resolve, hname.2, Option.map_some, ih,
        Option.bind_eq_bind, Option.bind_some, Option.pure_def]

theorem resolve_value {bound : Placeholders} {value : String} {json : Json}
    (hvalue : bound.StandsFor value json) :
    ∃ stored, (Operand.value value).resolve bound = some (.value stored) ∧
      (stored == json) = true := by
  obtain ⟨-, stored, hstored, hsame⟩ := hvalue
  exact ⟨stored, by rw [Operand.resolve, hstored]; rfl, hsame⟩

theorem resolve_values {bound : Placeholders} {values : List String} {items : List Json}
    (hvalues : bound.StandsForAll values items) :
    ∃ stored, (values.map Operand.value).mapM (Operand.resolve bound) = some stored ∧
      (stored == items.map Operand.value) = true := by
  induction hvalues with
  | nil => exact ⟨[], rfl, rfl⟩
  | @cons value json _ _ hvalue _ ih =>
      obtain ⟨stored, hresolve, hsame⟩ := resolve_value hvalue
      obtain ⟨rest, hrest, hsame'⟩ := ih
      refine ⟨.value stored :: rest, ?_, ?_⟩
      · simp only [List.map_cons, List.mapM_cons, hresolve, hrest, Option.bind_eq_bind,
          Option.bind_some, Option.pure_def]
      · rw [List.map_cons, List.cons_beq_cons, hsame', Bool.and_true]
        exact hsame

instance : ReflBEq (Operand Json) where
  rfl {operand} := by
    cases operand with
    | path steps => exact beq_self_eq_true steps
    | value json => exact beq_self_eq_true json
    | size steps => exact beq_self_eq_true steps

theorem PathNames.lexes {bound : Placeholders} {text : String} {path : List String}
    (hpath : PathNames bound text path) :
    ∃ first others, Token.Lexes text.toList (Reader.pathTokens (first :: others)) ∧
      ((first :: others).map PathStep.named).mapM (PathStep.resolve bound) =
        some (path.map PathStep.field) := by
  obtain ⟨placeholders, hne, rfl, hnames⟩ := hpath
  obtain ⟨first, others, rfl⟩ := List.exists_cons_of_ne_nil hne
  refine ⟨first, others, ?_, resolve_names hnames⟩
  have hmarked := ((List.forall₂_and_left _ _).mp hnames).1
  exact Token.lexes_intercalate rfl rfl (by decide) (by decide)
    fun text hmem => Token.lexes_name (hmarked text hmem)

/-- An atom that begins with its path. -/
theorem denotes_demand {bound : Placeholders} {name : String} {path : List String}
    {tail : List Char} {tokens : List Token} {text : String}
    (written : Operand String → Clause String) (resolved : Operand Json → Clause Json)
    {formula : Clause Json} (hpath : PathNames bound name path)
    (htext : text.toList = name.toList ++ ' ' :: tail) (htail : Token.Lexes tail tokens)
    (hends : ∀ rest, Reader.PathEnds (tokens ++ rest))
    (hread : ∀ left rest, Reader.demand left (tokens ++ rest) = some (written left, rest))
    (hresolve : ∀ left place, left.resolve bound = some place →
      (written left).resolve bound = some (resolved place))
    (hsame : (resolved (.path (path.map .field)) == formula) = true) :
    Denotes bound .negation text (.clause formula) := by
  obtain ⟨first, others, hlexes, hnames⟩ := hpath.lexes
  have hplace : (Operand.path ((first :: others).map .named)).resolve bound =
      some (.path (path.map .field)) := by
    rw [Operand.resolve, hnames]
    rfl
  refine ⟨.clause (written (.path ((first :: others).map .named))), .clause _, ?_, ?_, hsame⟩
  · obtain ⟨more, hmore⟩ := Reader.exists_pathTokens_cons first others
    have hall : Token.Lexes text.toList (.name first :: (more ++ tokens)) := by
      rw [htext, ← List.cons_append, ← hmore]
      exact hlexes.append htail.blank (Token.ends_cons _ (by decide))
    refine Reads.clause hall fun rest _ => ?_
    have hoperand := Reader.operand_pathTokens first others (hends rest)
    rw [hmore, List.cons_append] at hoperand
    simp only [List.cons_append, Reader.clause, Reader.comparison, List.append_assoc, hoperand,
      Option.bind_eq_bind, Option.bind_some, hread]
  · rw [Formula.resolve, hresolve _ _ hplace]
    rfl

theorem denotes_compare {bound : Placeholders} {name value text : String} {path : List String}
    {json : Json} {sign : List Char} {comparator : Comparator} (hpath : PathNames bound name path)
    (hvalue : bound.StandsFor value json)
    (htext : text.toList = name.toList ++ ' ' :: (sign ++ ' ' :: value.toList))
    (hsign : Token.Lexes sign [.comparator comparator]) :
    Denotes bound .negation text
      (.clause (.compare (.path (path.map .field)) comparator (.value json))) := by
  obtain ⟨stored, hresolve, hsame⟩ := resolve_value hvalue
  have htail : Token.Lexes (sign ++ ' ' :: value.toList) [.comparator comparator, .value value] :=
    hsign.append (Token.lexes_value hvalue.1).blank (Token.ends_cons _ (by decide))
  refine denotes_demand (.compare · comparator (.value value))
    (.compare · comparator (.value stored)) hpath htext htail (fun _ => ⟨by simp, by simp⟩)
    (fun _ _ => rfl) (fun left place hleft => ?_) ?_
  · rw [Clause.resolve, hleft, hresolve]
    rfl
  · change (_ == _ && (comparator == comparator && stored == json)) = true
    rw [hsame, beq_self_eq_true, beq_self_eq_true]
    rfl

theorem denotes_between {bound : Placeholders} {name first last : String} {path : List String}
    {low high : Json} (hpath : PathNames bound name path) (hfirst : bound.StandsFor first low)
    (hlast : bound.StandsFor last high) :
    Denotes bound .negation (name ++ " between " ++ first ++ " and " ++ last)
      (.clause (.between (.path (path.map .field)) (.value low) (.value high))) := by
  obtain ⟨stored, hresolve, hsame⟩ := resolve_value hfirst
  obtain ⟨stored', hresolve', hsame'⟩ := resolve_value hlast
  have hbetween : Token.Lexes "between".toList [.between] := Token.lexes_chars rfl rfl rfl
  have hand := Token.lexes_and.keyword (Token.lexes_value hlast.1)
  have hvalues := (Token.lexes_value hfirst.1).append hand (Token.ends_cons _ (by decide))
  have htail := hbetween.append hvalues.blank (Token.ends_cons _ (by decide))
  refine denotes_demand (.between · (.value first) (.value last))
    (.between · (.value stored) (.value stored')) hpath (by simp [String.toList_append]) htail
    (fun _ => ⟨by simp, by simp⟩) (fun _ _ => rfl) (fun left place hleft => ?_) ?_
  · rw [Clause.resolve, hleft, hresolve, hresolve']
    rfl
  · change (_ == _ && (stored == low && stored' == high)) = true
    rw [hsame, hsame', beq_self_eq_true]
    rfl

theorem denotes_oneOf {bound : Placeholders} {name : String} {values path : List String}
    {items : List Json} (hpath : PathNames bound name path) (hne : values ≠ [])
    (hvalues : bound.StandsForAll values items) :
    Denotes bound .negation (name ++ " IN (" ++ String.intercalate "," values ++ ")")
      (.clause (.oneOf (.path (path.map .field)) (items.map .value))) := by
  obtain ⟨stored, hresolve, hsame⟩ := resolve_values hvalues
  obtain ⟨first, others, rfl⟩ := List.exists_cons_of_ne_nil hne
  have hmarked := ((List.forall₂_and_left _ _).mp hvalues).1
  have hin : Token.Lexes ['I', 'N'] [.isIn] := Token.lexes_chars rfl rfl rfl
  have hlist : Token.Lexes (String.intercalate "," (first :: others)).toList
      (((first :: others).map Token.value).intersperse .comma) :=
    Token.lexes_intercalate rfl rfl (by decide) (by decide)
      fun text hmem => Token.lexes_value (hmarked text hmem)
  have htail := hin.append hlist.closing.opening.blank (Token.ends_cons _ (by decide))
  refine denotes_demand (.oneOf · ((first :: others).map .value)) (.oneOf · stored) hpath
    (by simp [String.toList_append]) htail (fun _ => ⟨by simp, by simp⟩) (fun left rest => ?_)
    (fun left place hleft => ?_) ?_
  · rw [← Reader.demand_values left first others rest]
    simp only [List.cons_append, List.nil_append, List.append_assoc]
  · rw [Clause.resolve, hleft, hresolve]
    rfl
  · change (_ == _ && stored == _) = true
    rw [hsame, beq_self_eq_true]
    rfl

/-- An atom that is a function of its path. -/
theorem denotes_call {bound : Placeholders} {name function text : String} {path : List String}
    {tail : List Char} {tokens : List Token} {formula : Clause Json}
    (written : List PathStep → Clause String) (resolved : Clause Json)
    (hpath : PathNames bound name path)
    (htext : text.toList = function.toList ++ '(' :: (name.toList ++ tail))
    (hfunction : Token.Lexes function.toList [.word function]) (hsize : function ≠ "size")
    (htail : Token.Lexes tail tokens) (hends : Token.Ends tail)
    (hread : ∀ first others rest,
      Reader.arguments function (Reader.pathTokens (first :: others) ++ (tokens ++ rest)) =
        some (written ((first :: others).map .named), rest))
    (hresolve : ∀ steps, steps.mapM (PathStep.resolve bound) = some (path.map .field) →
      (written steps).resolve bound = some resolved)
    (hsame : (resolved == formula) = true) :
    Denotes bound .negation text (.clause formula) := by
  obtain ⟨first, others, hlexes, hnames⟩ := hpath.lexes
  refine ⟨.clause (written ((first :: others).map .named)), .clause resolved, ?_, ?_, hsame⟩
  · have hall : Token.Lexes text.toList
        (.word function :: .opening :: (Reader.pathTokens (first :: others) ++ tokens)) := by
      rw [htext]
      exact hfunction.append (hlexes.append htail hends).opening (Token.ends_cons _ (by decide))
    refine Reads.clause hall fun rest _ => ?_
    rw [List.cons_append, List.cons_append, List.append_assoc, Reader.clause, hread]
    exact hsize
  · rw [Formula.resolve, hresolve _ hnames]
    rfl

theorem denotes_contains {bound : Placeholders} {name value : String} {path : List String}
    {json : Json} (hpath : PathNames bound name path) (hvalue : bound.StandsFor value json) :
    Denotes bound .negation ("contains(" ++ name ++ ", " ++ value ++ ")")
      (.clause (.related .contains (path.map .field) (.value json))) := by
  obtain ⟨stored, hresolve, hsame⟩ := resolve_value hvalue
  have hword : Token.Lexes "contains".toList [.word "contains"] :=
    Token.lexes_chars rfl rfl rfl
  refine denotes_call (.related .contains · (.value value))
    (.related .contains (path.map .field) (.value stored)) hpath (by simp [String.toList_append])
    hword (by decide) (Token.lexes_value hvalue.1).closing.blank.comma
    (Token.ends_cons _ (by decide)) (fun first others rest => ?_) (fun steps hsteps => ?_) ?_
  · rw [Reader.arguments, Reader.path_pathTokens _ _ ⟨by simp, by simp⟩]
    rfl
  · rw [Clause.resolve, hsteps, hresolve]
    rfl
  · change (Relation.contains == Relation.contains &&
      (path.map PathStep.field == path.map PathStep.field && stored == json)) = true
    rw [hsame, beq_self_eq_true, beq_self_eq_true]
    rfl

theorem denotes_present {bound : Placeholders} {name : String} {path : List String}
    (hpath : PathNames bound name path) :
    Denotes bound .negation ("attribute_exists(" ++ name ++ ")")
      (.clause (.present (path.map .field))) := by
  have hword : Token.Lexes "attribute_exists".toList [.word "attribute_exists"] :=
    Token.lexes_chars rfl rfl rfl
  refine denotes_call .present (.present (path.map .field)) hpath (by simp [String.toList_append])
    hword (by decide) Token.lexes_nil.closing (Token.ends_cons _ (by decide))
    (fun first others rest => ?_) (fun steps hsteps => ?_) ?_
  · rw [Reader.arguments, Reader.path_pathTokens _ _ ⟨by simp, by simp⟩]
    rfl
  · rw [Clause.resolve, hsteps]
    rfl
  · exact beq_self_eq_true (path.map PathStep.field)

theorem Asks.denotes {bound : Placeholders} {path : List String} {atom : Atom} {test : Test}
    (hasks : Asks bound path atom test) :
    Denotes bound .negation atom.text (test.formula path) := by
  have hequal : Token.Lexes ['='] [.comparator .equal] := Token.lexes_chars rfl rfl rfl
  have hatLeast : Token.Lexes ['>', '='] [.comparator .atLeast] :=
    Token.lexes_chars rfl rfl rfl
  have hatMost : Token.Lexes ['<', '='] [.comparator .atMost] :=
    Token.lexes_chars rfl rfl rfl
  cases hasks with
  | @equal name value _ hpath hvalue =>
      exact denotes_compare hpath hvalue
        (show (name ++ " = " ++ value).toList = _ by simp [String.toList_append]) hequal
  | contains hpath hvalue => exact denotes_contains hpath hvalue
  | hasItem hpath hvalue => exact denotes_contains hpath hvalue
  | @lacksItem name value _ hpath hvalue =>
      have htext : (Atom.lacks name value).text =
          "not " ++ ("contains(" ++ name ++ ", " ++ value ++ ")") := by
        rw [← String.append_assoc, ← String.append_assoc, ← String.append_assoc,
          ← String.append_assoc]
        rfl
      rw [htext]
      exact (denotes_contains hpath hvalue).not
  | oneOf hpath hne hvalues => exact denotes_oneOf hpath hne hvalues
  | between hpath hfirst hlast => exact denotes_between hpath hfirst hlast
  | @atLeast name first _ hpath hfirst =>
      exact denotes_compare hpath hfirst
        (show (name ++ " >= " ++ first).toList = _ by simp [String.toList_append]) hatLeast
  | @atMost name last _ hpath hlast =>
      exact denotes_compare hpath hlast
        (show (name ++ " <= " ++ last).toList = _ by simp [String.toList_append]) hatMost
  | present hpath => exact denotes_present hpath

end KeyValue

end SchemaQuery
