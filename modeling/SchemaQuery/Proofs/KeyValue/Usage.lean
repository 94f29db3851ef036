import Mathlib.Data.List.TakeWhile
import SchemaQuery.Proofs.KeyValue.Grammar
import SchemaQuery.Proofs.KeyValue.Placeholders

/-!
# The placeholders that a text uses

A placeholder reaches from its mark to the last plain character behind it, in any text: whether the
text is an expression or not. So what a text uses is what its parts use, unless a placeholder at the
end of one goes on in the next.
-/

namespace SchemaQuery

namespace Placeholder

def IsMark (mark : Char) : Prop := mark = '#' ∨ mark = ':'

theorem IsMark.notMem {mark : Char} {chars : List Char} (hmark : IsMark mark)
    (hname : '#' ∉ chars) (hvalue : ':' ∉ chars) : mark ∉ chars := by
  rcases hmark with rfl | rfl
  · exact hname
  · exact hvalue

/-- The placeholders with this mark, in the order of the text. -/
def usedIn (mark : Char) : List Char → List String
  | [] => []
  | c :: rest =>
      if c = mark ∧ rest.takeWhile isPlain ≠ [] then
        String.ofList (c :: rest.takeWhile isPlain) :: usedIn mark rest
      else usedIn mark rest

def used (mark : Char) (text : String) : List String := usedIn mark text.toList

/-- What an expression uses, where there may be none. -/
def usedBy (mark : Char) (text : Option String) : List String := text.elim [] (used mark)

/-- Nothing goes on in a text that begins like this. -/
def Breaks (chars : List Char) : Prop := ∀ c ∈ chars.head?, isPlain c = false

theorem breaks_cons {c : Char} (rest : List Char) (hc : isPlain c = false) :
    Breaks (c :: rest) := by
  intro other hother
  obtain rfl := Option.some.inj hother
  exact hc

theorem Breaks.takeWhile_eq_nil {chars : List Char} (hbreaks : Breaks chars) :
    chars.takeWhile isPlain = [] := by
  cases chars with
  | nil => rfl
  | cons c rest => rw [List.takeWhile_cons, hbreaks c rfl, if_neg Bool.false_ne_true]

theorem takeWhile_append_of_breaks (left : List Char) {right : List Char} (hright : Breaks right) :
    (left ++ right).takeWhile isPlain = left.takeWhile isPlain := by
  rw [List.takeWhile_append, hright.takeWhile_eq_nil, List.append_nil]
  split
  next hall =>
    exact ((List.takeWhile_prefix isPlain).eq_of_length hall).symm
  next => rfl

theorem usedIn_append (mark : Char) (left : List Char) {right : List Char}
    (hright : Breaks right) :
    usedIn mark (left ++ right) = usedIn mark left ++ usedIn mark right := by
  induction left with
  | nil => rfl
  | cons c left ih =>
      rw [List.cons_append, usedIn, usedIn, takeWhile_append_of_breaks left hright, ih]
      split
      next => rfl
      next => rfl

theorem usedIn_of_notMem {mark : Char} {left : List Char} (hleft : mark ∉ left)
    (right : List Char) : usedIn mark (left ++ right) = usedIn mark right := by
  induction left with
  | nil => rfl
  | cons c left ih =>
      obtain ⟨hne, hrest⟩ := not_or.mp (mt List.mem_cons.mpr hleft)
      rw [List.cons_append, usedIn, if_neg fun h => hne h.1.symm, ih hrest]

theorem usedIn_eq_nil {mark : Char} {chars : List Char} (hchars : mark ∉ chars) :
    usedIn mark chars = [] := by
  rw [← List.append_nil chars, usedIn_of_notMem hchars, usedIn]

theorem used_append (mark : Char) (left : String) {right : String} (hright : Breaks right.toList) :
    used mark (left ++ right) = used mark left ++ used mark right := by
  rw [used, String.toList_append]
  exact usedIn_append mark left.toList hright

theorem used_of_notMem {mark : Char} {left : String} (hleft : mark ∉ left.toList)
    (right : String) : used mark (left ++ right) = used mark right := by
  rw [used, String.toList_append]
  exact usedIn_of_notMem hleft right.toList

theorem IsMarked.used_eq {mark other : Char} {placeholder : String}
    (hmarked : IsMarked mark placeholder) (hother : isPlain other = false) :
    used other placeholder = if other = mark then [placeholder] else [] := by
  obtain ⟨name, hname, hne, hplain⟩ := hmarked
  have htake : name.takeWhile isPlain = name := List.takeWhile_eq_self_iff.mpr hplain
  have hnone : usedIn other name = [] := usedIn_eq_nil (notMem_of_isPlain hother hplain)
  rw [used, hname, usedIn, htake, hnone]
  by_cases heq : other = mark
  · rw [if_pos ⟨heq.symm, hne⟩, if_pos heq, ← hname, String.ofList_toList]
  · rw [if_neg fun h => heq h.1.symm, if_neg heq]

/-- Marked placeholders use themselves. -/
theorem flatMap_used {mark other : Char} {placeholders : List String}
    (hmarked : ∀ placeholder ∈ placeholders, IsMarked mark placeholder)
    (hother : isPlain other = false) :
    placeholders.flatMap (used other) = if other = mark then placeholders else [] := by
  induction placeholders with
  | nil => rw [List.flatMap_nil, ite_self]
  | cons placeholder rest ih =>
      obtain ⟨hfirst, hrest⟩ := List.forall_mem_cons.mp hmarked
      rw [List.flatMap_cons, hfirst.used_eq hother, ih hrest]
      split
      next => rfl
      next => rfl

/-- A text that uses nothing, and in which no placeholder before it goes on. -/
structure Separates (mark : Char) (separator : String) : Prop where
  free : mark ∉ separator.toList
  breaks : ∀ right, Breaks (separator.toList ++ right)

theorem IsMark.separates {mark c : Char} {rest : List Char} {separator : String}
    (hmark : IsMark mark) (heq : separator.toList = c :: rest) (hc : isPlain c = false)
    (hname : '#' ∉ c :: rest) (hvalue : ':' ∉ c :: rest) : Separates mark separator := by
  refine ⟨heq ▸ hmark.notMem hname hvalue, fun right => ?_⟩
  rw [heq]
  exact breaks_cons (rest ++ right) hc

theorem Separates.used_between {mark : Char} {separator : String} (left right : String)
    (hseparates : Separates mark separator) :
    used mark (left ++ separator ++ right) = used mark left ++ used mark right := by
  rw [String.append_assoc, used_append, used_of_notMem hseparates.free]
  rw [String.toList_append]
  exact hseparates.breaks right.toList

theorem Separates.used_behind {mark : Char} {separator : String} (left : String)
    (hseparates : Separates mark separator) : used mark (left ++ separator) = used mark left := by
  have h := hseparates.used_between left ""
  rwa [String.append_empty, show used mark "" = [] from rfl, List.append_nil] at h

theorem Separates.used_intercalate {mark : Char} {separator : String} (texts : List String)
    (hseparates : Separates mark separator) :
    used mark (separator.intercalate texts) = texts.flatMap (used mark) := by
  induction texts with
  | nil => rfl
  | cons text rest ih =>
      cases rest with
      | nil => rw [String.intercalate_singleton, List.flatMap_singleton]
      | cons next rest =>
          rw [String.intercalate_cons_cons, hseparates.used_between, ih]
          rfl

end Placeholder

end SchemaQuery
