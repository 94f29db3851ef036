import SchemaQuery.KeyValue.Fragment
import SchemaQuery.Proofs.KeyValue.Grammar
import SchemaQuery.Proofs.KeyValue.Placeholders

/-!
# How texts put together are read

What a part of a text is read as does not depend on what stands behind it, as long as no token and
no chain goes on there. So the reading of a text follows from that of its parts: of the pieces of a
condition between blanks and marks, and of the conditions between keywords and parentheses. Which
tokens make up a formula is told level by level, and the reader takes them for it.
-/

namespace SchemaQuery.KeyValue

namespace Token

/-- Before these characters a token is at its end. -/
def Ends (chars : List Char) : Prop :=
  ∀ c ∈ chars.head?, Placeholder.isPlain c = false ∧ isComparing c = false

theorem ends_nil : Ends [] := fun _ hmem => absurd hmem (Option.not_mem_none _)

theorem ends_cons {c : Char} (chars : List Char) (hopens : opens c = false) :
    Ends (c :: chars) := by
  intro other hother
  obtain rfl := Option.some.inj hother
  simp only [opens, Bool.or_eq_false_iff] at hopens
  exact ⟨hopens.1.1.1, hopens.2⟩

theorem Ends.append {chars rest : List Char} (hchars : Ends chars) (hrest : Ends rest) :
    Ends (chars ++ rest) := by
  cases chars with
  | nil => exact hrest
  | cons c chars => exact hchars

theorem continues_eq_false {read : List Char} {c : Char} {chars : List Char}
    (hends : Ends (c :: chars)) : continues read c = false := by
  obtain ⟨hplain, hcomparing⟩ := hends c rfl
  cases read with
  | nil => rfl
  | cons first read => simp only [continues, hplain, hcomparing, ite_self]

/-- The tokens of a part of a text. -/
def Lexes (chars : List Char) (tokens : List Token) : Prop :=
  ∀ rest, Ends rest → lex [] (chars ++ rest) = (lex [] rest).map (tokens ++ ·)

theorem Lexes.lex_eq {chars : List Char} {tokens : List Token} (hlexes : Lexes chars tokens) :
    lex [] chars = some tokens := by
  have h := hlexes [] ends_nil
  rwa [List.append_nil, show lex [] [] = some [] from rfl, Option.map_some, List.append_nil] at h

theorem Lexes.append {chars others : List Char} {tokens behind : List Token}
    (hchars : Lexes chars tokens) (hothers : Lexes others behind) (hends : Ends others) :
    Lexes (chars ++ others) (tokens ++ behind) := by
  intro rest hrest
  rw [List.append_assoc, hchars _ (hends.append hrest), hothers rest hrest, Option.map_map]
  congr 1
  funext more
  exact (List.append_assoc ..).symm

theorem lexes_nil : Lexes [] [] := by
  intro rest _
  simp

/-- Where no token has begun. -/
theorem lex_nil_cons (c : Char) (rest : List Char) :
    lex [] (c :: rest) =
      if opens c then lex [c] rest
      else if isBlank c then lex [] rest
      else (ofMark? c).bind fun mark => (lex [] rest).map (mark :: ·) := by
  have hnil : continues [] c = false := rfl
  have hnone : ofChars? [] = some [] := rfl
  rw [lex]
  simp only [hnil, hnone, Bool.false_eq_true, if_false, Option.bind_some, List.nil_append,
    Option.map_id_fun', id_eq]

/-- At the end of a token the rest is read for itself. -/
theorem lex_ends {read rest : List Char} {tokens : List Token} (hrest : Ends rest)
    (htokens : ofChars? read = some tokens) :
    lex read rest = (lex [] rest).map (tokens ++ ·) := by
  cases rest with
  | nil => rw [lex, htokens, lex, ofChars?, Option.map_some, List.append_nil]
  | cons c rest =>
      have hread : continues read c = false := continues_eq_false hrest
      rw [lex_nil_cons, lex]
      simp only [hread, htokens, Bool.false_eq_true, if_false, Option.bind_some]

theorem Lexes.blank {chars : List Char} {tokens : List Token} (hlexes : Lexes chars tokens) :
    Lexes (' ' :: chars) tokens := by
  intro rest hrest
  rw [List.cons_append, lex_nil_cons, if_neg (by decide), if_pos (by decide)]
  exact hlexes rest hrest

theorem Lexes.mark {c : Char} {token : Token} {chars : List Char} {tokens : List Token}
    (hmark : ofMark? c = some token) (hopens : opens c = false) (hblank : isBlank c = false)
    (hlexes : Lexes chars tokens) : Lexes (c :: chars) (token :: tokens) := by
  intro rest hrest
  rw [List.cons_append, lex_nil_cons, hopens, hblank, hmark, hlexes rest hrest]
  simp only [Bool.false_eq_true, if_false, Option.bind_some, Option.map_map]
  rfl

theorem Lexes.comma {chars : List Char} {tokens : List Token} (hlexes : Lexes chars tokens) :
    Lexes (',' :: chars) (.comma :: tokens) := hlexes.mark rfl (by decide) (by decide)

theorem Lexes.opening {chars : List Char} {tokens : List Token} (hlexes : Lexes chars tokens) :
    Lexes ('(' :: chars) (.opening :: tokens) := hlexes.mark rfl (by decide) (by decide)

theorem Lexes.closing {chars : List Char} {tokens : List Token} (hlexes : Lexes chars tokens) :
    Lexes (chars ++ [')']) (tokens ++ [.closing]) :=
  hlexes.append (lexes_nil.mark rfl (by decide) (by decide)) (ends_cons _ (by decide))

theorem lex_continues {first : Char} {chars : List Char} (read rest : List Char)
    (hchars : ∀ c ∈ chars, continues [first] c = true) :
    lex (first :: read) (chars ++ rest) = lex (first :: read ++ chars) rest := by
  induction chars generalizing read with
  | nil => rw [List.append_nil, List.nil_append]
  | cons c chars ih =>
      have hc : continues (first :: read) c = true := hchars c List.mem_cons_self
      have hrest : ∀ c ∈ chars, continues [first] c = true :=
        fun c hmem => hchars c (List.mem_cons_of_mem _ hmem)
      rw [List.cons_append, lex, if_pos hc]
      have h := ih (read ++ [c]) hrest
      simp only [List.cons_append, List.append_assoc, List.nil_append] at h ⊢
      exact h

/-- A token of several characters ends where the next one begins. -/
theorem lexes_chars {first : Char} {chars : List Char} {tokens : List Token}
    (hopens : opens first = true) (hchars : chars.all (continues [first]) = true)
    (htokens : ofChars? (first :: chars) = some tokens) : Lexes (first :: chars) tokens := by
  intro rest hrest
  rw [← lex_ends hrest htokens, List.cons_append, lex_nil_cons, if_pos hopens,
    lex_continues [] rest (List.all_eq_true.mp hchars), List.cons_append, List.nil_append]

/-- A keyword between blanks. -/
theorem Lexes.keyword {word chars : List Char} {token : Token} {tokens : List Token}
    (hword : Lexes word [token]) (hlexes : Lexes chars tokens) :
    Lexes (' ' :: (word ++ ' ' :: chars)) (token :: tokens) :=
  (hword.append hlexes.blank (ends_cons _ (by decide))).blank

/-- Two texts with a keyword between. -/
theorem Lexes.between {text keyword other : String} {token : Token} {tokens others : List Token}
    (hkeyword : Lexes keyword.toList [token]) (htext : Lexes text.toList tokens)
    (hother : Lexes other.toList others) :
    Lexes (text ++ (" " ++ keyword ++ " ") ++ other).toList (tokens ++ token :: others) := by
  have hchars : (text ++ (" " ++ keyword ++ " ") ++ other).toList =
      text.toList ++ ' ' :: (keyword.toList ++ ' ' :: other.toList) := by
    simp [String.toList_append]
  rw [hchars]
  exact htext.append (hkeyword.keyword hother) (ends_cons _ (by decide))

theorem lexes_and : Lexes "and".toList [.and] := lexes_chars rfl rfl rfl

theorem lexes_or : Lexes "or".toList [.or] := lexes_chars rfl rfl rfl

/-- A placeholder is as long as its name. -/
theorem lexes_marked {mark : Char} {token : String → Token} (hopens : opens mark = true)
    (hcomparing : isComparing mark = false)
    (htoken : ∀ name ≠ [],
      ofChars? (mark :: name) = some [token (String.ofList (mark :: name))])
    {placeholder : String} (hmarked : Placeholder.IsMarked mark placeholder) :
    Lexes placeholder.toList [token placeholder] := by
  obtain ⟨name, hname, hne, hplain⟩ := hmarked
  have hchars : name.all (continues [mark]) = true := by
    refine List.all_eq_true.mpr fun c hmem => ?_
    rw [continues, hcomparing, if_neg Bool.false_ne_true]
    exact hplain c hmem
  have htokens : ofChars? (mark :: name) = some [token placeholder] := by
    rw [htoken name hne, ← hname, String.ofList_toList]
  rw [hname]
  exact lexes_chars hopens hchars htokens

theorem lexes_name {placeholder : String} (hmarked : Placeholder.IsMarked '#' placeholder) :
    Lexes placeholder.toList [.name placeholder] := by
  refine lexes_marked rfl rfl (fun name hne => ?_) hmarked
  rw [ofChars?, if_neg (by simpa using hne)]

theorem lexes_value {placeholder : String} (hmarked : Placeholder.IsMarked ':' placeholder) :
    Lexes placeholder.toList [.value placeholder] := by
  refine lexes_marked rfl rfl (fun name hne => ?_) hmarked
  rw [ofChars?, if_neg (by simpa using hne)]

/-- Texts with a mark between. -/
theorem lexes_intercalate {c : Char} {mark : Token} {separator : String} {token : String → Token}
    (hseparator : separator.toList = [c]) (hmark : ofMark? c = some mark)
    (hopens : opens c = false) (hblank : isBlank c = false)
    {texts : List String} (htexts : ∀ text ∈ texts, Lexes text.toList [token text]) :
    Lexes (separator.intercalate texts).toList ((texts.map token).intersperse mark) := by
  induction texts with
  | nil => exact lexes_nil
  | cons text rest ih =>
      have htext : Lexes text.toList [token text] := htexts text List.mem_cons_self
      cases rest with
      | nil =>
          rw [String.intercalate_singleton]
          exact htext
      | cons next rest =>
          have hrest := ih fun other hother => htexts other (List.mem_cons_of_mem _ hother)
          rw [String.intercalate_cons_cons, String.toList_append, String.toList_append, hseparator,
            List.append_assoc]
          exact htext.append (hrest.mark hmark hopens hblank) (ends_cons _ hopens)

end Token

/-! ### Paths and operands -/

namespace Reader

/-- Before these tokens a path is at its end. -/
def PathEnds (rest : List Token) : Prop :=
  rest.head? ≠ some .point ∧ rest.head? ≠ some .itemOpening

theorem steps_of_pathEnds {rest : List Token} (hrest : PathEnds rest) :
    steps rest = some ([], rest) := by
  obtain ⟨hpoint, hitem⟩ := hrest
  cases rest with
  | nil => rfl
  | cons token rest =>
      cases token <;> first | rfl | exact absurd rfl hpoint | exact absurd rfl hitem

/-- The tokens of a path of placeholders. -/
def pathTokens (placeholders : List String) : List Token :=
  (placeholders.map Token.name).intersperse .point

theorem exists_pathTokens_cons (first : String) (placeholders : List String) :
    ∃ tail, pathTokens (first :: placeholders) = .name first :: tail := by
  cases placeholders with
  | nil => exact ⟨[], rfl⟩
  | cons next placeholders => exact ⟨.point :: pathTokens (next :: placeholders), rfl⟩

theorem path_pathTokens (first : String) (placeholders : List String) {rest : List Token}
    (hrest : PathEnds rest) :
    path (pathTokens (first :: placeholders) ++ rest) =
      some ((first :: placeholders).map .named, rest) := by
  induction placeholders generalizing first with
  | nil =>
      rw [show pathTokens [first] ++ rest = .name first :: rest from rfl, path,
        steps_of_pathEnds hrest]
      rfl
  | cons next placeholders ih =>
      obtain ⟨tail, htail⟩ := exists_pathTokens_cons next placeholders
      have hnext := ih next
      rw [htail, List.cons_append, path] at hnext
      rw [show pathTokens (first :: next :: placeholders) =
          .name first :: .point :: pathTokens (next :: placeholders) from rfl, htail]
      simp only [List.cons_append, path, steps, hnext, Option.bind_eq_bind, Option.bind_some,
        List.map_cons]

theorem operand_pathTokens (first : String) (placeholders : List String) {rest : List Token}
    (hrest : PathEnds rest) :
    operand (pathTokens (first :: placeholders) ++ rest) =
      some (.path ((first :: placeholders).map .named), rest) := by
  obtain ⟨tail, htail⟩ := exists_pathTokens_cons first placeholders
  have hpath := path_pathTokens first placeholders hrest
  rw [htail, List.cons_append] at hpath ⊢
  simp only [operand, hpath, Option.bind_eq_bind, Option.bind_some]

theorem length_lt_intersperse {α : Type} (separator first : α) (entries : List α) :
    entries.length < ((first :: entries).intersperse separator).length := by
  induction entries generalizing first with
  | nil => exact Nat.one_pos
  | cons next entries ih =>
      have hnext := ih next
      rw [List.intersperse_cons_cons, List.length_cons, List.length_cons, List.length_cons]
      omega

theorem operands_of_lt (first : String) (placeholders : List String) (rest : List Token)
    {fuel : Nat} (hfuel : placeholders.length < fuel) :
    operands fuel
        (((first :: placeholders).map Token.value).intersperse .comma ++ .closing :: rest) =
      some ((first :: placeholders).map .value, rest) := by
  induction placeholders generalizing first fuel with
  | nil =>
      obtain ⟨fuel, rfl⟩ := Nat.exists_eq_add_of_le' hfuel
      rfl
  | cons next placeholders ih =>
      obtain ⟨fuel, rfl⟩ := Nat.exists_eq_add_of_le' (Nat.one_le_of_lt hfuel)
      have hnext := ih next (Nat.lt_of_succ_lt_succ hfuel)
      simp only [List.map_cons, List.intersperse_cons_cons, List.cons_append] at hnext ⊢
      simp only [operands, operand, hnext, Option.bind_eq_bind, Option.bind_some]

/-- A list of values in parentheses. -/
theorem demand_values (left : Operand String) (first : String) (placeholders : List String)
    (rest : List Token) :
    demand left (.isIn :: .opening ::
        (((first :: placeholders).map Token.value).intersperse .comma ++ .closing :: rest)) =
      some (.oneOf left ((first :: placeholders).map .value), rest) := by
  have hlength := length_lt_intersperse Token.comma (.value first) (placeholders.map Token.value)
  rw [List.length_map, ← List.map_cons] at hlength
  simp only [demand]
  rw [operands_of_lt first placeholders rest]
  · rfl
  · rw [List.length_append]
    exact Nat.lt_add_right _ hlength

end Reader

/-! ### Levels of the grammar -/

namespace Reader

/-- Before these tokens a clause is at its end: no path goes on, and no arguments follow. -/
structure ClauseEnds (rest : List Token) : Prop where
  pathEnds : PathEnds rest
  opening : rest.head? ≠ some .opening

/-- What a reader takes tokens for, whatever stands behind them, as long as a clause ends there. -/
def Takes {α : Type} (read : List Token → Option (α × List Token)) (tokens : List Token)
    (value : α) : Prop :=
  ∀ rest, ClauseEnds rest → read (tokens ++ rest) = some (value, rest)

/-- Every token but these ends a clause. -/
theorem clauseEnds_cons {token : Token} (rest : List Token)
    (htoken : token ≠ .point ∧ token ≠ .itemOpening ∧ token ≠ .opening) :
    ClauseEnds (token :: rest) where
  pathEnds := ⟨by simpa using htoken.1, by simpa using htoken.2.1⟩
  opening := by simpa using htoken.2.2

theorem clauseEnds_nil : ClauseEnds [] where
  pathEnds := ⟨by simp, by simp⟩
  opening := by simp

theorem exists_cons_of_clause {tokens rest : List Token} {clause : Clause String}
    (hread : Reader.clause tokens = some (clause, rest)) :
    ∃ first others, tokens = first :: others ∧ first ≠ .not ∧ first ≠ .opening := by
  cases tokens with
  | nil => cases hread
  | cons first others =>
      refine ⟨first, others, rfl, ?_, ?_⟩
      · rintro rfl
        cases hread
      · rintro rfl
        cases hread

end Reader

/-- What stands alone, what `and` joins, and what `or` joins. -/
inductive Level where
  | negation
  | conjunction
  | disjunction

namespace Level

def read : Level → Nat → List Token → Option (Formula String × List Token)
  | negation => Reader.negation
  | conjunction => Reader.conjunction
  | disjunction => Reader.disjunction

def depth : Level → Nat
  | negation => 0
  | conjunction => 1
  | disjunction => 2

/-- Before these tokens a chain of the level is at its end. -/
def Stops : Level → List Token → Prop
  | negation, rest => Reader.ClauseEnds rest
  | conjunction, rest => Reader.ClauseEnds rest ∧ rest.head? ≠ some .and
  | disjunction, rest =>
      Reader.ClauseEnds rest ∧ rest.head? ≠ some .and ∧ rest.head? ≠ some .or

theorem stops_nil (level : Level) : level.Stops [] := by
  cases level with
  | negation => exact Reader.clauseEnds_nil
  | conjunction => exact ⟨Reader.clauseEnds_nil, by simp⟩
  | disjunction => exact ⟨Reader.clauseEnds_nil, by simp, by simp⟩

end Level

/-- The tokens of a formula at a level of the grammar. -/
inductive Derives : Level → List Token → Formula String → Prop where
  | clause {tokens : List Token} {clause : Clause String} :
      Reader.Takes Reader.clause tokens clause → Derives .negation tokens (.clause clause)
  | not {tokens : List Token} {formula : Formula String} :
      Derives .negation tokens formula → Derives .negation (.not :: tokens) (.not formula)
  | group {tokens : List Token} {formula : Formula String} :
      Derives .disjunction tokens formula →
      Derives .negation (.opening :: (tokens ++ [.closing])) formula
  | conjunction {tokens : List Token} {formula : Formula String} :
      Derives .negation tokens formula → Derives .conjunction tokens formula
  | and {tokens others : List Token} {formula behind : Formula String} :
      Derives .negation tokens formula → Derives .conjunction others behind →
      Derives .conjunction (tokens ++ .and :: others) (.and formula behind)
  | disjunction {tokens : List Token} {formula : Formula String} :
      Derives .conjunction tokens formula → Derives .disjunction tokens formula
  | or {tokens others : List Token} {formula behind : Formula String} :
      Derives .conjunction tokens formula → Derives .disjunction others behind →
      Derives .disjunction (tokens ++ .or :: others) (.or formula behind)

/-- The reader takes the tokens of a formula for it, given the three levels of the grammar for each
of them, whatever stands behind them, as long as the level ends there. -/
theorem Derives.read_eq {level : Level} {tokens : List Token} {formula : Formula String}
    (hderives : Derives level tokens formula) {fuel : Nat} {rest : List Token}
    (hfuel : 3 * tokens.length + level.depth ≤ fuel) (hstops : level.Stops rest) :
    level.read fuel (tokens ++ rest) = some (formula, rest) := by
  induction hderives generalizing fuel rest with
  | @clause tokens clause htakes =>
      have hread := htakes [] Reader.clauseEnds_nil
      rw [List.append_nil] at hread
      obtain ⟨first, others, rfl, hnot, hopening⟩ := Reader.exists_cons_of_clause hread
      rw [List.length_cons] at hfuel
      obtain ⟨fuel, rfl⟩ := Nat.exists_eq_add_of_le' (show 1 ≤ fuel from by omega)
      have hrest := htakes rest hstops
      rw [List.cons_append] at hrest ⊢
      rw [Level.read, Reader.negation, hrest]
      · rfl
      · exact fun _ heq => hnot (List.cons.inj heq).1
      · exact fun _ heq => hopening (List.cons.inj heq).1
  | @not tokens formula _ ih =>
      rw [List.length_cons] at hfuel
      simp only [Level.depth] at hfuel ih
      obtain ⟨fuel, rfl⟩ := Nat.exists_eq_add_of_le' (show 1 ≤ fuel from by omega)
      have hinner : Reader.negation fuel (tokens ++ rest) = some (formula, rest) :=
        ih (by omega) hstops
      simp only [Level.read, List.cons_append, Reader.negation, hinner, Option.bind_eq_bind,
        Option.bind_some]
  | @group tokens formula _ ih =>
      rw [List.length_cons, List.length_append, List.length_singleton] at hfuel
      simp only [Level.depth] at hfuel ih
      obtain ⟨fuel, rfl⟩ := Nat.exists_eq_add_of_le' (show 1 ≤ fuel from by omega)
      have hclosing : Level.disjunction.Stops (.closing :: rest) :=
        ⟨Reader.clauseEnds_cons rest (by decide), by simp, by simp⟩
      have hinner : Reader.disjunction fuel (tokens ++ .closing :: rest) =
          some (formula, .closing :: rest) := ih (by omega) hclosing
      simp only [Level.read, List.cons_append, List.append_assoc, List.nil_append, Reader.negation,
        hinner, Reader.expect, if_true, Option.bind_eq_bind, Option.bind_some]
  | @conjunction tokens formula _ ih =>
      simp only [Level.depth] at hfuel ih
      obtain ⟨fuel, rfl⟩ := Nat.exists_eq_add_of_le' (show 1 ≤ fuel from by omega)
      have hleft : Reader.negation fuel (tokens ++ rest) = some (formula, rest) :=
        ih (by omega) hstops.1
      simp only [Level.read, Reader.conjunction, hleft, Option.bind_eq_bind, Option.bind_some]
      split
      next => exact absurd rfl hstops.2
      next => rfl
  | @and tokens others formula behind _ _ ihleft ihright =>
      rw [List.length_append, List.length_cons] at hfuel
      simp only [Level.depth] at hfuel ihleft ihright
      obtain ⟨fuel, rfl⟩ := Nat.exists_eq_add_of_le' (show 1 ≤ fuel from by omega)
      have hfirst : Reader.negation fuel (tokens ++ (.and :: (others ++ rest))) =
          some (formula, .and :: (others ++ rest)) :=
        ihleft (by omega) (Reader.clauseEnds_cons _ (by decide))
      have hsecond : Reader.conjunction fuel (others ++ rest) = some (behind, rest) :=
        ihright (by omega) hstops
      simp only [Level.read, List.append_assoc, List.cons_append, Reader.conjunction, hfirst,
        hsecond, Option.bind_eq_bind, Option.bind_some]
  | @disjunction tokens formula _ ih =>
      simp only [Level.depth] at hfuel ih
      obtain ⟨fuel, rfl⟩ := Nat.exists_eq_add_of_le' (show 1 ≤ fuel from by omega)
      have hleft : Reader.conjunction fuel (tokens ++ rest) = some (formula, rest) :=
        ih (by omega) ⟨hstops.1, hstops.2.1⟩
      simp only [Level.read, Reader.disjunction, hleft, Option.bind_eq_bind, Option.bind_some]
      split
      next => exact absurd rfl hstops.2.2
      next => rfl
  | @or tokens others formula behind _ _ ihleft ihright =>
      rw [List.length_append, List.length_cons] at hfuel
      simp only [Level.depth] at hfuel ihleft ihright
      obtain ⟨fuel, rfl⟩ := Nat.exists_eq_add_of_le' (show 1 ≤ fuel from by omega)
      have hfirst : Reader.conjunction fuel (tokens ++ (.or :: (others ++ rest))) =
          some (formula, .or :: (others ++ rest)) :=
        ihleft (by omega) ⟨Reader.clauseEnds_cons _ (by decide), by simp⟩
      have hsecond : Reader.disjunction fuel (others ++ rest) = some (behind, rest) :=
        ihright (by omega) hstops
      simp only [Level.read, List.append_assoc, List.cons_append, Reader.disjunction, hfirst,
        hsecond, Option.bind_eq_bind, Option.bind_some]

/-! ### Texts -/

/-- What the junction joins. -/
def levelOf : Junction → Level
  | .and => .conjunction
  | .or => .disjunction

/-- A text is read as a formula, whatever stands behind it. -/
def Reads (level : Level) (text : String) (formula : Formula String) : Prop :=
  ∃ tokens, Token.Lexes text.toList tokens ∧ Derives level tokens formula

namespace Reads

variable {text other : String} {formula behind : Formula String}

/-- A clause by itself. -/
theorem clause {tokens : List Token} {clause : Clause String}
    (hlexes : Token.Lexes text.toList tokens) (htakes : Reader.Takes Reader.clause tokens clause) :
    Reads .negation text (.clause clause) := ⟨tokens, hlexes, .clause htakes⟩

theorem conjunction (hreads : Reads .negation text formula) : Reads .conjunction text formula := by
  obtain ⟨tokens, hlexes, hderives⟩ := hreads
  exact ⟨tokens, hlexes, .conjunction hderives⟩

theorem disjunction (hreads : Reads .conjunction text formula) :
    Reads .disjunction text formula := by
  obtain ⟨tokens, hlexes, hderives⟩ := hreads
  exact ⟨tokens, hlexes, .disjunction hderives⟩

theorem and (hleft : Reads .negation text formula) (hright : Reads .conjunction other behind) :
    Reads .conjunction (text ++ " and " ++ other) (.and formula behind) := by
  obtain ⟨tokens, hlexes, hderives⟩ := hleft
  obtain ⟨others, hlexes', hderives'⟩ := hright
  exact ⟨tokens ++ .and :: others, Token.lexes_and.between hlexes hlexes',
    .and hderives hderives'⟩

theorem or (hleft : Reads .conjunction text formula) (hright : Reads .disjunction other behind) :
    Reads .disjunction (text ++ " or " ++ other) (.or formula behind) := by
  obtain ⟨tokens, hlexes, hderives⟩ := hleft
  obtain ⟨others, hlexes', hderives'⟩ := hright
  exact ⟨tokens ++ .or :: others, Token.lexes_or.between hlexes hlexes',
    .or hderives hderives'⟩

theorem not (hreads : Reads .negation text formula) :
    Reads .negation ("not " ++ text) (.not formula) := by
  obtain ⟨tokens, hlexes, hderives⟩ := hreads
  have hword : Token.Lexes ['n', 'o', 't'] [.not] := Token.lexes_chars rfl rfl rfl
  refine ⟨.not :: tokens, ?_, .not hderives⟩
  rw [String.toList_append]
  exact hword.append hlexes.blank (Token.ends_cons _ (by decide))

theorem group (hreads : Reads .disjunction text formula) :
    Reads .negation (parenthesized text) formula := by
  obtain ⟨tokens, hlexes, hderives⟩ := hreads
  refine ⟨.opening :: (tokens ++ [.closing]), ?_, .group hderives⟩
  rw [parenthesized, String.toList_append, String.toList_append, List.append_assoc]
  exact hlexes.closing.opening

theorem alone (junction : Junction) (hreads : Reads .negation text formula) :
    Reads (levelOf junction) text formula := by
  cases junction with
  | and => exact hreads.conjunction
  | or => exact hreads.conjunction.disjunction

theorem whole {junction : Junction} (hreads : Reads (levelOf junction) text formula) :
    Reads .disjunction text formula := by
  cases junction with
  | and => exact hreads.disjunction
  | or => exact hreads

/-- A whole text. -/
theorem parse_eq (hreads : Reads .disjunction text formula) :
    Formula.parse text = some formula := by
  obtain ⟨tokens, hlexes, hderives⟩ := hreads
  have hall : Reader.disjunction (3 * tokens.length + 3) (tokens ++ []) = some (formula, []) :=
    hderives.read_eq (Nat.le_succ _) Level.disjunction.stops_nil
  rw [List.append_nil] at hall
  simp [Formula.parse, hlexes.lex_eq, hall]

end Reads

end SchemaQuery.KeyValue
