import Mathlib.Data.List.Forall2
import SchemaQuery.KeyValue.Placeholders
import SchemaQuery.Proofs.Json.Members

/-!
# What placeholders stand for

The candidates for a placeholder are all different, so one of the first is free or bound to the
same. It keeps what it is bound to, whatever is bound after it.
-/

namespace SchemaQuery

namespace Placeholder

/-- A mark and a name of plain characters. -/
def IsMarked (mark : Char) (text : String) : Prop :=
  ∃ name, text.toList = mark :: name ∧ name ≠ [] ∧ ∀ c ∈ name, isPlain c = true

/-- A mark is no plain character, so there is none in a name. -/
theorem notMem_of_isPlain {mark : Char} {name : List Char} (hmark : isPlain mark = false)
    (hname : ∀ c ∈ name, isPlain c = true) : mark ∉ name := by
  intro hmem
  rw [hname mark hmem] at hmark
  cases hmark

theorem IsMarked.notMem {mark other : Char} {placeholder : String}
    (hmarked : IsMarked mark placeholder) (hother : isPlain other = false) (hne : other ≠ mark) :
    other ∉ placeholder.toList := by
  obtain ⟨name, hname, -, hplain⟩ := hmarked
  rw [hname]
  exact List.not_mem_cons_of_ne_of_not_mem hne (notMem_of_isPlain hother hplain)

theorem plain_isPlain (text : String) :
    (plain text).toList ≠ [] ∧ ∀ c ∈ (plain text).toList, isPlain c = true := by
  rw [plain]
  split
  next =>
    refine ⟨by decide, fun c hmem => ?_⟩
    obtain rfl : c = '_' := by simpa using hmem
    decide
  next hempty =>
    refine ⟨?_, fun c hmem => ?_⟩
    · simpa using hempty
    · rw [String.toList_ofList] at hmem
      obtain ⟨other, -, rfl⟩ := List.mem_map.mp hmem
      split
      next hplain => exact hplain
      next => decide

theorem isMarked_plain (mark : String) {c : Char} (hmark : mark.toList = [c]) (text : String) :
    IsMarked c (mark ++ plain text) := by
  obtain ⟨hne, hplain⟩ := plain_isPlain text
  exact ⟨(plain text).toList, by rw [String.toList_append, hmark]; rfl, hne, hplain⟩

theorem isPlain_of_mem_toDigits {n : Nat} {c : Char} (hmem : c ∈ Nat.toDigits 10 n) :
    isPlain c = true := by
  have hdigit := Nat.isDigit_of_mem_toDigits (by decide) (by decide) hmem
  simp only [Char.isDigit, Bool.and_eq_true, decide_eq_true_eq] at hdigit
  have hbetween : ('0' ≤ c && c ≤ '9') = true := by
    simp only [Bool.and_eq_true, decide_eq_true_eq]
    exact hdigit
  simp only [isPlain, hbetween, Bool.or_true, Bool.true_or]

theorem toList_candidate_succ (base : String) (n : Nat) :
    (candidate base (n + 1)).toList = base.toList ++ '_' :: Nat.toDigits 10 (n + 1) := by
  simp [candidate, String.toList_append]

theorem candidate_isMarked {mark : Char} {base : String} (hbase : IsMarked mark base) (n : Nat) :
    IsMarked mark (candidate base n) := by
  cases n with
  | zero => exact hbase
  | succ n =>
      obtain ⟨name, hname, hne, hplain⟩ := hbase
      refine ⟨name ++ '_' :: Nat.toDigits 10 (n + 1), ?_, by simp, fun c hmem => ?_⟩
      · rw [toList_candidate_succ, hname, List.cons_append]
      · rcases List.mem_append.mp hmem with h | h
        · exact hplain c h
        · rcases List.mem_cons.mp h with rfl | h
          · decide
          · exact isPlain_of_mem_toDigits h

theorem candidate_injective {base : String} {m n : Nat}
    (heq : candidate base m = candidate base n) : m = n := by
  have hlist := congrArg String.toList heq
  cases m with
  | zero =>
      cases n with
      | zero => rfl
      | succ n =>
          rw [toList_candidate_succ] at hlist
          have hlength := congrArg List.length hlist
          simp [candidate] at hlength
  | succ m =>
      cases n with
      | zero =>
          rw [toList_candidate_succ] at hlist
          have hlength := congrArg List.length hlist
          simp [candidate] at hlength
      | succ n =>
          rw [toList_candidate_succ, toList_candidate_succ] at hlist
          have hdigits := (List.cons.inj (List.append_cancel_left hlist)).2
          have hnumbers := congrArg (Nat.ofDigitChars 10 · 0) hdigits
          simpa only [Nat.ofDigitChars_ten_toDigits] using hnumbers

variable {α : Type}

/-- Among more candidates than there are bindings one is free. -/
theorem exists_free (bound : Members α) (base : String) {fuel : Nat} (hfuel : bound.length < fuel) :
    ∃ i < fuel, bound.get? (candidate base i) = none := by
  refine Classical.byContradiction fun htaken => ?_
  have hsubset : (List.range fuel).map (candidate base) ⊆ bound.map Prod.fst := by
    intro name hname
    obtain ⟨i, hi, rfl⟩ := List.mem_map.mp hname
    have hsome : bound.get? (candidate base i) ≠ none :=
      fun hnone => htaken ⟨i, List.mem_range.mp hi, hnone⟩
    exact Members.mem_names_of_get?_ne_none hsome
  have hnodup : ((List.range fuel).map (candidate base)).Nodup :=
    List.pairwise_map.mpr (List.nodup_range.imp fun hne heq => hne (candidate_injective heq))
  have hlength := hnodup.length_le_of_subset hsubset
  simp only [List.length_map, List.length_range] at hlength
  omega

section Search

variable {same : α → Bool} {value : α} {base : String} {bound : Members α}

/-- The search for a placeholder, however many candidates it takes: it ends with the first one that
is free or bound to the same. -/
inductive Probes (same : α → Bool) (value : α) (base : String) (bound : Members α) :
    Nat → String × Members α → Prop
  | free {n : Nat} (hfree : bound.get? (candidate base n) = none) :
      Probes same value base bound n (candidate base n, bound.set (candidate base n) value)
  | shared {n : Nat} {old : α} (hold : bound.get? (candidate base n) = some old)
      (hsame : same old = true) : Probes same value base bound n (candidate base n, bound)
  | taken {n : Nat} {old : α} {result : String × Members α}
      (hold : bound.get? (candidate base n) = some old) (hother : same old = false)
      (hnext : Probes same value base bound (n + 1) result) :
      Probes same value base bound n result

theorem bindFrom_probes (same : α → Bool) (value : α) {fuel n : Nat}
    (hfree : ∃ i < fuel, bound.get? (candidate base (n + i)) = none) :
    Probes same value base bound n (bindFrom same value base bound fuel n) := by
  induction fuel generalizing n with
  | zero =>
      obtain ⟨i, hi, -⟩ := hfree
      exact absurd hi (Nat.not_lt_zero i)
  | succ fuel ih =>
      rw [bindFrom]
      cases hget : bound.get? (candidate base n) with
      | none => exact .free hget
      | some old =>
          simp only
          split
          next hsame => exact .shared hget hsame
          next hother =>
            obtain ⟨i, hi, hnone⟩ := hfree
            cases i with
            | zero =>
                rw [Nat.add_zero, hget] at hnone
                cases hnone
            | succ i =>
                refine .taken hget (eq_false_of_ne_true hother)
                  (ih ⟨i, Nat.lt_of_succ_lt_succ hi, ?_⟩)
                rwa [Nat.add_assoc, Nat.add_comm 1]

/-- The search ends, with what `bind` gives. -/
theorem bind_probes (same : α → Bool) (value : α) (base : String) (bound : Members α) :
    Probes same value base bound 0 (bind same value base bound) := by
  obtain ⟨i, hi, hfree⟩ := exists_free bound base (Nat.lt_succ_self bound.length)
  exact bindFrom_probes same value ⟨i, hi, by rwa [Nat.zero_add]⟩

/-- What the search for a placeholder comes to. -/
structure Found (same : α → Bool) (base : String) (bound : Members α)
    (result : String × Members α) : Prop where
  candidate : ∃ n, result.1 = candidate base n
  stands : ∃ stored, result.2.get? result.1 = some stored ∧ same stored = true
  kept : ∀ name old, bound.get? name = some old → result.2.get? name = some old

theorem Probes.found {n : Nat} {result : String × Members α}
    (hprobes : Probes same value base bound n result) (hsame : same value = true) :
    Found same base bound result := by
  induction hprobes with
  | @free n hfree =>
      refine ⟨⟨n, rfl⟩, ⟨value, Members.get?_set_self .., hsame⟩, fun name old hold => ?_⟩
      have hne : candidate base n ≠ name := by
        rintro rfl
        rw [hfree] at hold
        cases hold
      rwa [Members.get?_set_of_ne _ _ hne]
  | @shared n old hold hsame => exact ⟨⟨n, rfl⟩, ⟨old, hold, hsame⟩, fun _ _ h => h⟩
  | taken _ _ _ ih => exact ih

theorem bind_found (same : α → Bool) {value : α} (hsame : same value = true) (base : String)
    (bound : Members α) : Found same base bound (bind same value base bound) :=
  (bind_probes same value base bound).found hsame

end Search

end Placeholder

namespace Placeholders

/-- What is bound stays bound. -/
structure Extends (bound later : Placeholders) : Prop where
  names : ∀ placeholder field, bound.names.get? placeholder = some field →
    later.names.get? placeholder = some field
  values : ∀ placeholder json, bound.values.get? placeholder = some json →
    later.values.get? placeholder = some json

theorem Extends.refl (bound : Placeholders) : bound.Extends bound :=
  ⟨fun _ _ h => h, fun _ _ h => h⟩

theorem Extends.trans {bound next later : Placeholders} (hfirst : bound.Extends next)
    (hsecond : next.Extends later) : bound.Extends later :=
  ⟨fun _ _ h => hsecond.names _ _ (hfirst.names _ _ h),
    fun _ _ h => hsecond.values _ _ (hfirst.values _ _ h)⟩

/-- A placeholder for an attribute. -/
def Names (bound : Placeholders) (placeholder field : String) : Prop :=
  Placeholder.IsMarked '#' placeholder ∧ bound.names.get? placeholder = some field

/-- A placeholder for a value, up to the equality of the stores. -/
def StandsFor (bound : Placeholders) (placeholder : String) (json : Json) : Prop :=
  Placeholder.IsMarked ':' placeholder ∧
    ∃ stored, bound.values.get? placeholder = some stored ∧ (stored == json) = true

theorem Names.extends {bound later : Placeholders} {placeholder field : String}
    (hnames : bound.Names placeholder field) (hlater : bound.Extends later) :
    later.Names placeholder field := ⟨hnames.1, hlater.names _ _ hnames.2⟩

theorem StandsFor.extends {bound later : Placeholders} {placeholder : String} {json : Json}
    (hstands : bound.StandsFor placeholder json) (hlater : bound.Extends later) :
    later.StandsFor placeholder json := by
  obtain ⟨hmarked, stored, hstored, hsame⟩ := hstands
  exact ⟨hmarked, stored, hlater.values _ _ hstored, hsame⟩

theorem name_names (bound : Placeholders) (field : String) :
    (bound.name field).2.Names (bound.name field).1 field ∧
      bound.Extends (bound.name field).2 := by
  have hfound := Placeholder.bind_found (· == field) (beq_self_eq_true field)
    ("#" ++ Placeholder.plain field) bound.names
  obtain ⟨n, hn⟩ := hfound.candidate
  obtain ⟨stored, hstored, hsame⟩ := hfound.stands
  obtain rfl := eq_of_beq hsame
  refine ⟨⟨?_, hstored⟩, hfound.kept, fun _ _ h => h⟩
  exact hn ▸ Placeholder.candidate_isMarked (Placeholder.isMarked_plain "#" rfl stored) n

theorem value_standsFor (bound : Placeholders) (hint : String) (json : Json) :
    (bound.value hint json).2.StandsFor (bound.value hint json).1 json ∧
      bound.Extends (bound.value hint json).2 := by
  have hfound := Placeholder.bind_found (· == json) (beq_self_eq_true json)
    (":" ++ Placeholder.plain hint) bound.values
  obtain ⟨n, hn⟩ := hfound.candidate
  refine ⟨⟨?_, hfound.stands⟩, fun _ _ h => h, hfound.kept⟩
  exact hn ▸ Placeholder.candidate_isMarked (Placeholder.isMarked_plain ":" rfl hint) n

/-- One placeholder for each attribute, in their order. -/
abbrev NamesAll (bound : Placeholders) : List String → List String → Prop :=
  List.Forall₂ bound.Names

/-- One placeholder for each value, in their order. -/
abbrev StandsForAll (bound : Placeholders) : List String → List Json → Prop :=
  List.Forall₂ bound.StandsFor

theorem NamesAll.extends {bound later : Placeholders} {placeholders fields : List String}
    (hnames : bound.NamesAll placeholders fields) (hlater : bound.Extends later) :
    later.NamesAll placeholders fields :=
  hnames.imp fun _ _ hname => hname.extends hlater

theorem StandsForAll.extends {bound later : Placeholders} {placeholders : List String}
    {items : List Json} (hstands : bound.StandsForAll placeholders items)
    (hlater : bound.Extends later) : later.StandsForAll placeholders items :=
  hstands.imp fun _ _ hvalue => hvalue.extends hlater

theorem nameAll_namesAll (bound : Placeholders) (fields : List String) :
    (bound.nameAll fields).2.NamesAll (bound.nameAll fields).1 fields ∧
      bound.Extends (bound.nameAll fields).2 := by
  induction fields generalizing bound with
  | nil => exact ⟨.nil, .refl bound⟩
  | cons field fields ih =>
      obtain ⟨hname, hfirst⟩ := bound.name_names field
      obtain ⟨hnames, hrest⟩ := ih (bound.name field).2
      exact ⟨.cons (hname.extends hrest) hnames, hfirst.trans hrest⟩

end Placeholders

end SchemaQuery
