import SchemaQuery.Json.Printer
import SchemaQuery.Json.Reader
import SchemaQuery.Proofs.Json.Objects

/-!
# Texts are read as they were written

A value without doubles is written in a text that is read again, whatever its texts hold and however
deep it nests. What is read has the members in the order of the text, and the integers as numerals
that have their values if they are of 64 bits. It is a value again if it nests no deeper than a
reader allows, and then its members are in order.
-/

namespace SchemaQuery

/-! ### Numerals -/

/-- The value of a decimal digit. -/
def digitValue (c : Char) : Nat := c.toNat - '0'.toNat

/-- The numeral that an integer is written as. -/
def Numeral.ofInt (n : Int) : Numeral :=
  ⟨decide (n < 0), (Nat.toDigits 10 n.natAbs).map digitValue, [], none⟩

namespace Numeral

theorem le_foldl (ds : List Nat) (n : Nat) : n ≤ ds.foldl (fun n d => n * 10 + d) n := by
  induction ds generalizing n with
  | nil => exact Nat.le_refl n
  | cons d ds ih => exact Nat.le_trans (by omega) (ih (n * 10 + d))

/-- All digits are taken if the number they make has 64 bits. -/
theorem take_of_lt {ds : List Nat} {n : Nat}
    (hlt : ds.foldl (fun n d => n * 10 + d) n < UInt64.size) :
    take n ds = (ds.foldl (fun n d => n * 10 + d) n, []) := by
  induction ds generalizing n with
  | nil => rfl
  | cons d ds ih =>
      have hfirst : n * 10 + d < UInt64.size := Nat.lt_of_le_of_lt (le_foldl ds _) hlt
      rw [take, if_pos hfirst]
      exact ih hlt

theorem foldl_toDigits (n : Nat) :
    ((Nat.toDigits 10 n).map digitValue).foldl (fun n d => n * 10 + d) 0 = n := by
  rw [List.foldl_map]
  simpa only [Nat.ofDigitChars_eq_foldl, Nat.mul_comm 10, digitValue] using
    Nat.ofDigitChars_ten_toDigits (n := n)

/-- The numeral of an integer of 64 bits has its value. -/
theorem value?_ofInt {n : Int} (hlow : -9223372036854775808 ≤ n)
    (hhigh : n < 18446744073709551616) : (ofInt n).value? = some (.int n) := by
  have hsize : n.natAbs < UInt64.size := by
    change n.natAbs < 18446744073709551616
    omega
  have htake : take 0 ((Nat.toDigits 10 n.natAbs).map digitValue) = (n.natAbs, []) := by
    have hfold := foldl_toDigits n.natAbs
    rw [take_of_lt (hfold.symm ▸ hsize), hfold]
  simp only [value?, ofInt, htake]
  by_cases hneg : n < 0
  · have hne : n.natAbs ≠ 0 := by omega
    have heq : -(n.natAbs : Int) = n := by omega
    have hfits : fitsInt64 n = true := decide_eq_true ⟨hlow, by omega⟩
    rw [heq, if_neg fun hpos => hpos.2 (decide_eq_true hneg), if_pos ⟨rfl, hne, hfits⟩]
  · have heq : (n.natAbs : Int) = n := by omega
    rw [heq, if_pos ⟨rfl, by rw [decide_eq_true_eq]; exact hneg⟩]

end Numeral

theorem isDigit_toDigits {n : Nat} : ∀ c ∈ Nat.toDigits 10 n, c.isDigit = true :=
  fun _ hc => Nat.isDigit_of_mem_toDigits (by decide) (by decide) hc

/-- Only the number zero is written with a leading zero, and then with no other digit. -/
theorem toDigits_leading (n : Nat) :
    ∃ d ds, (Nat.toDigits 10 n).map digitValue = d :: ds ∧ (d = 0 → ds = [] ∧ n = 0) := by
  induction n using Nat.strongRecOn with
  | _ n ih =>
      by_cases hlt : n < 10
      · have hvalue : ∀ m < 10, digitValue (Nat.digitChar m) = m := by decide
        rw [Nat.toDigits_of_lt_base hlt]
        exact ⟨_, [], rfl, fun hzero => ⟨rfl, (hvalue n hlt).symm.trans hzero⟩⟩
      · obtain ⟨d, ds, hdigits, hzero⟩ := ih (n / 10) (by omega)
        rw [Nat.toDigits_eq_if (by decide), if_neg hlt, List.map_append, hdigits]
        refine ⟨d, ds ++ _, rfl, fun hd => ?_⟩
        have hquotient := (hzero hd).2
        omega

namespace Written

/-- What follows a value in a text: a mark, or nothing. -/
def Ends (rest : List Char) : Prop := ∀ c ∈ rest.head?, c = ',' ∨ c = ']' ∨ c = '}'

theorem ends_nil : Ends [] := fun _ hc => nomatch hc

theorem ends_cons {c : Char} (hc : c = ',' ∨ c = ']' ∨ c = '}') (rest : List Char) :
    Ends (c :: rest) := fun _ hmem => Option.some.inj hmem ▸ hc

theorem digit?_of_isDigit {c : Char} (hdigit : c.isDigit = true) :
    digit? c = some (digitValue c) := by
  simp only [Char.isDigit, Bool.and_eq_true, decide_eq_true_eq] at hdigit
  exact if_pos hdigit

theorem digits_append {cs rest : List Char} (hcs : ∀ c ∈ cs, c.isDigit = true)
    (hrest : Ends rest) : digits (cs ++ rest) = (cs.map digitValue, rest) := by
  induction cs with
  | nil =>
      cases rest with
      | nil => rfl
      | cons c rest => rcases hrest c rfl with rfl | rfl | rfl <;> rfl
  | cons c cs ih =>
      obtain ⟨hc, hcs⟩ := List.forall_mem_cons.mp hcs
      rw [List.cons_append, digits, digit?_of_isDigit hc]
      simp only [ih hcs, List.map_cons]

theorem fraction_of_ends {rest : List Char} (hrest : Ends rest) :
    fraction rest = some ([], rest) := by
  cases rest with
  | nil => rfl
  | cons c rest => rcases hrest c rfl with rfl | rfl | rfl <;> rfl

theorem exponent_of_ends {rest : List Char} (hrest : Ends rest) :
    exponent rest = some (none, rest) := by
  cases rest with
  | nil => rfl
  | cons c rest => rcases hrest c rfl with rfl | rfl | rfl <;> rfl

theorem unsigned_toDigits (negative : Bool) (n : Nat) {rest : List Char} (hrest : Ends rest) :
    unsigned negative (Nat.toDigits 10 n ++ rest) =
      some (⟨negative, (Nat.toDigits 10 n).map digitValue, [], none⟩, rest) := by
  obtain ⟨d, ds, hdigits, hzero⟩ := toDigits_leading n
  rw [unsigned, digits_append isDigit_toDigits hrest, hdigits]
  split
  next heq => cases heq
  next heq =>
    -- Of several digits the first is not zero.
    obtain ⟨rfl, rfl⟩ := List.cons.inj (Prod.mk.inj heq).1
    cases (hzero rfl).1
  next heq =>
    obtain ⟨rfl, rfl⟩ := Prod.mk.inj heq
    rw [fraction_of_ends hrest]
    simp [exponent_of_ends hrest]

theorem numeral_intChars (n : Int) {rest : List Char} (hrest : Ends rest) :
    numeral (Json.intChars n ++ rest) = some (.ofInt n, rest) := by
  rw [Json.intChars, Numeral.ofInt]
  by_cases hneg : n < 0
  · rw [if_pos hneg, decide_eq_true hneg]
    exact unsigned_toDigits true _ hrest
  · rw [if_neg hneg, decide_eq_false hneg, List.nil_append, numeral]
    · exact unsigned_toDigits false _ hrest
    · -- The first character is a digit, and so not a minus sign.
      intro more heq
      have hne := List.ne_nil_of_length_pos (Nat.length_toDigits_pos (b := 10) (n := n.natAbs))
      obtain ⟨c, cs, hcs⟩ := List.exists_cons_of_ne_nil hne
      have hdigit : c.isDigit = true := isDigit_toDigits c (hcs ▸ List.mem_cons_self)
      rw [hcs] at heq
      obtain rfl := (List.cons.inj heq).1
      cases hdigit

/-! ### Quoted texts -/

theorem hex?_hexDigit : ∀ n < 16, hex? (hexDigit n) = some n := by decide

/-- Two characters that stand for one. -/
theorem units_escaped {mark c : Char} (hmark : mark ≠ 'u') (hc : escaped? mark = some c)
    (cs : List Char) :
    units ('\\' :: mark :: cs) = (units cs).map fun read => (.char c :: read.1, read.2) := by
  rw [units]
  · rw [hc]
    cases units cs <;> rfl
  · exact fun _ _ _ _ _ hu => absurd hu hmark

/-- The code of a control character. -/
theorem units_control {c : Char} (hc : c.toNat < 32) (cs : List Char) :
    units ('\\' :: 'u' :: '0' :: '0' :: hexDigit (c.toNat / 16) :: hexDigit (c.toNat % 16) :: cs) =
      (units cs).map fun read => (.char c :: read.1, read.2) := by
  have hcode : Unit.ofCode (((0 * 16 + 0) * 16 + c.toNat / 16) * 16 + c.toNat % 16) = .char c := by
    have heq : ((0 * 16 + 0) * 16 + c.toNat / 16) * 16 + c.toNat % 16 = c.toNat := by omega
    rw [heq, Unit.ofCode, if_neg (by omega), if_neg (by omega), Char.ofNat_toNat]
  have hzero : hex? '0' = some 0 := rfl
  rw [units, hex?_hexDigit _ (by omega), hex?_hexDigit _ (by omega), hzero]
  simp only [Option.bind_eq_bind, Option.bind_some, hcode]
  cases units cs <;> rfl

theorem units_plain {c : Char} (hquote : c ≠ '"') (hslash : c ≠ '\\') (hc : ¬ c.toNat < 32)
    (cs : List Char) :
    units (c :: cs) = (units cs).map fun read => (.char c :: read.1, read.2) := by
  rw [units]
  · rw [if_neg hc]
    cases units cs <;> rfl
  · exact hquote
  · exact fun _ _ _ _ _ hu => absurd hu hslash
  · exact fun _ _ hu => absurd hu hslash

theorem units_escape (c : Char) (cs : List Char) :
    units (Json.escape c ++ cs) = (units cs).map fun read => (.char c :: read.1, read.2) := by
  by_cases hquote : c = '"'
  · subst hquote; exact units_escaped (by decide) rfl cs
  by_cases hslash : c = '\\'
  · subst hslash; exact units_escaped (by decide) rfl cs
  by_cases hn : c = '\n'
  · subst hn; exact units_escaped (by decide) rfl cs
  by_cases hr : c = '\r'
  · subst hr; exact units_escaped (by decide) rfl cs
  by_cases ht : c = '\t'
  · subst ht; exact units_escaped (by decide) rfl cs
  by_cases hb : c = '\x08'
  · subst hb; exact units_escaped (by decide) rfl cs
  by_cases hf : c = '\x0c'
  · subst hf; exact units_escaped (by decide) rfl cs
  rw [Json.escape, if_neg hquote, if_neg hslash, if_neg hn, if_neg hr, if_neg ht, if_neg hb,
    if_neg hf]
  by_cases hcontrol : c.toNat < 32
  · rw [if_pos hcontrol]
    exact units_control hcontrol cs
  · rw [if_neg hcontrol]
    exact units_plain hquote hslash hcontrol cs

theorem units_flatMap_escape (s rest : List Char) :
    units (s.flatMap Json.escape ++ '"' :: rest) = some (s.map .char, rest) := by
  induction s with
  | nil => rfl
  | cons c s ih => rw [List.flatMap_cons, List.append_assoc, units_escape, ih]; rfl

theorem join?_map_char (s : List Char) : join? (s.map .char) = some s := by
  induction s with
  | nil => rfl
  | cons c s ih => rw [List.map_cons, join?, ih]; rfl

theorem quoted_flatMap_escape (s : String) (rest : List Char) :
    quoted (s.toList.flatMap Json.escape ++ '"' :: rest) = some (some s, rest) := by
  rw [quoted, units_flatMap_escape]
  simp [join?_map_char]

/-! ### Values -/

mutual

/-- A value as its text has it. Nothing for a double, whose numeral need not have its value. -/
def ofJson? : Json → Option Written
  | .null => some .null
  | .bool b => some (.bool b)
  | .number (.int n) => some (.number (.ofInt n))
  | .number (.float _) => none
  | .string s => some (.string (some s))
  | .array values => (ofItems? values).map .array
  | .object record => (ofMembers? record).map .object

def ofItems? : List Json → Option (List Written)
  | [] => some []
  | v :: rest => do
      let w ← ofJson? v
      let ws ← ofItems? rest
      some (w :: ws)

def ofMembers? : List (String × Json) → Option (List (Option String × Written))
  | [] => some []
  | (name, v) :: rest => do
      let w ← ofJson? v
      let ws ← ofMembers? rest
      some ((some name, w) :: ws)

end

theorem skip_cons {c : Char} (hc : isBlank c = false) (cs : List Char) : skip (c :: cs) = c :: cs :=
  List.dropWhile_cons_of_neg (by simp [hc])

theorem begins_intChars (n : Int) :
    ∃ c rest, Json.intChars n = c :: rest ∧ (c = '-' ∨ c.isDigit = true) := by
  by_cases hneg : n < 0
  · exact ⟨'-', Nat.toDigits 10 n.natAbs, by rw [Json.intChars, if_pos hneg]; rfl, .inl rfl⟩
  · have hne := List.ne_nil_of_length_pos (Nat.length_toDigits_pos (b := 10) (n := n.natAbs))
    obtain ⟨c, cs, hcs⟩ := List.exists_cons_of_ne_nil hne
    refine ⟨c, cs, ?_, .inr (isDigit_toDigits c (hcs ▸ List.mem_cons_self))⟩
    rw [Json.intChars, if_neg hneg, hcs]
    rfl

theorem isBlank_of_digit {c : Char} (hc : c = '-' ∨ c.isDigit = true) : isBlank c = false := by
  simp only [isBlank, Bool.or_eq_false_iff, beq_eq_false_iff_ne]
  refine ⟨⟨⟨?_, ?_⟩, ?_⟩, ?_⟩ <;> rintro rfl <;> revert hc <;> decide

theorem value_number (n : Int) {rest : List Char} (hrest : Ends rest) (fuel : Nat) :
    value (fuel + 1) (Json.intChars n ++ rest) = some (.number (.ofInt n), rest) := by
  obtain ⟨c, cs, hcs, hc⟩ := begins_intChars n
  have hnum := numeral_intChars n hrest
  rw [hcs, List.cons_append] at hnum ⊢
  rw [value, skip_cons (isBlank_of_digit hc)]
  split
  case h_7 => rw [hnum]; rfl
  all_goals
    next heq =>
      obtain rfl := (List.cons.inj heq).1
      exact absurd hc (by decide)

/-- No text of a value begins with a blank or closes an array. -/
theorem chars_cons {v : Json} {w : Written} (hv : ofJson? v = some w) :
    ∃ c cs, v.chars = c :: cs ∧ isBlank c = false ∧ c ≠ ']' := by
  cases v with
  | null => exact ⟨_, _, rfl, by decide, by decide⟩
  | bool b => cases b <;> exact ⟨_, _, rfl, by decide, by decide⟩
  | number n =>
      cases n with
      | int n =>
          obtain ⟨c, cs, hcs, hc⟩ := begins_intChars n
          refine ⟨c, cs, hcs, isBlank_of_digit hc, ?_⟩
          rintro rfl
          exact absurd hc (by decide)
      | float x => cases hv
  | string s => exact ⟨_, _, rfl, by decide, by decide⟩
  | array values => exact ⟨_, _, rfl, by decide, by decide⟩
  | object record => exact ⟨_, _, rfl, by decide, by decide⟩

theorem value_quoted (s : String) (fuel : Nat) (rest : List Char) :
    value (fuel + 1) (Json.quoted s.toList ++ rest) = some (.string (some s), rest) := by
  rw [Json.quoted, List.cons_append, List.append_assoc, List.singleton_append, value,
    skip_cons (by decide)]
  simp only [quoted_flatMap_escape, Option.map_some]

theorem itemChars_cons (v : Json) (values : List Json) :
    ∃ more, Json.itemChars (v :: values) = v.chars ++ more := by
  cases values with
  | nil => exact ⟨[], (List.append_nil _).symm⟩
  | cons v' values => exact ⟨_, rfl⟩

theorem value_array {v : Json} {w : Written} (hv : ofJson? v = some w) {values : List Json}
    {fuel : Nat} {cs rest : List Char} {ws : List Written}
    (hitems : items fuel (Json.itemChars (v :: values) ++ cs) = some (ws, rest)) :
    value (fuel + 1) ('[' :: (Json.itemChars (v :: values) ++ cs)) = some (.array ws, rest) := by
  obtain ⟨c, first, hfirst, hblank, hclose⟩ := chars_cons hv
  obtain ⟨more, hmore⟩ := itemChars_cons v values
  rw [hmore, hfirst, List.cons_append, List.cons_append] at hitems ⊢
  rw [value, skip_cons (by decide)]
  simp only [skip_cons hblank]
  split
  next heq => exact absurd (List.cons.inj heq).1 hclose
  next => rw [hitems]; rfl

theorem items_last {fuel : Nat} {cs rest : List Char} {w : Written}
    (hv : value fuel cs = some (w, ']' :: rest)) : items (fuel + 1) cs = some ([w], rest) := by
  rw [items, hv]
  rfl

theorem items_more {fuel : Nat} {cs more rest : List Char} {w : Written} {ws : List Written}
    (hv : value fuel cs = some (w, ',' :: more)) (hmore : items fuel more = some (ws, rest)) :
    items (fuel + 1) cs = some (w :: ws, rest) := by
  rw [items, hv]
  simp only [skip_cons (show isBlank ',' = false by decide), hmore, Option.map_some]

theorem value_object (name : String) {cs rest : List Char} {fuel : Nat}
    {ws : List (Option String × Written)}
    (hmembers : members fuel (Json.quoted name.toList ++ cs) = some (ws, rest)) :
    value (fuel + 1) ('{' :: (Json.quoted name.toList ++ cs)) = some (.object ws, rest) := by
  rw [Json.quoted, List.cons_append] at hmembers ⊢
  rw [value, skip_cons (by decide)]
  simp only [skip_cons (show isBlank '"' = false by decide)]
  exact congrArg (Option.map _) hmembers

theorem members_last (name : String) {fuel : Nat} {cs rest : List Char} {w : Written}
    (hv : value fuel cs = some (w, '}' :: rest)) :
    members (fuel + 1) (Json.quoted name.toList ++ ':' :: cs) = some ([(some name, w)], rest) := by
  rw [Json.quoted, List.cons_append, List.append_assoc, List.singleton_append, members,
    skip_cons (by decide)]
  simp only [quoted_flatMap_escape, skip_cons (show isBlank ':' = false by decide), hv]
  rfl

theorem members_more (name : String) {fuel : Nat} {cs more rest : List Char} {w : Written}
    {ws : List (Option String × Written)} (hv : value fuel cs = some (w, ',' :: more))
    (hmore : members fuel more = some (ws, rest)) :
    members (fuel + 1) (Json.quoted name.toList ++ ':' :: cs) =
      some ((some name, w) :: ws, rest) := by
  rw [Json.quoted, List.cons_append, List.append_assoc, List.singleton_append, members,
    skip_cons (by decide)]
  simp only [quoted_flatMap_escape, skip_cons (show isBlank ':' = false by decide), hv]
  exact congrArg (Option.map _) hmore

theorem memberChars_cons (name : String) (v : Json) (record : List (String × Json)) :
    ∃ more, Json.memberChars ((name, v) :: record) = Json.quoted name.toList ++ more := by
  cases record with
  | nil => exact ⟨_, rfl⟩
  | cons member record => exact ⟨_, rfl⟩

theorem of_ofItems?_cons {v : Json} {values : List Json} {ws : List Written}
    (hws : ofItems? (v :: values) = some ws) :
    ∃ w more, ofJson? v = some w ∧ ofItems? values = some more ∧ ws = w :: more := by
  obtain ⟨w, hw, hws⟩ := Option.bind_eq_some_iff.mp hws
  obtain ⟨more, hmore, hws⟩ := Option.bind_eq_some_iff.mp hws
  exact ⟨w, more, hw, hmore, (Option.some.inj hws).symm⟩

theorem of_ofMembers?_cons {name : String} {v : Json} {record : List (String × Json)}
    {ws : List (Option String × Written)} (hws : ofMembers? ((name, v) :: record) = some ws) :
    ∃ w more, ofJson? v = some w ∧ ofMembers? record = some more ∧ ws = (some name, w) :: more := by
  obtain ⟨w, hw, hws⟩ := Option.bind_eq_some_iff.mp hws
  obtain ⟨more, hmore, hws⟩ := Option.bind_eq_some_iff.mp hws
  exact ⟨w, more, hw, hmore, (Option.some.inj hws).symm⟩

mutual

/-- The text of a value is read with fuel for twice its length. -/
theorem value_chars {v : Json} {w : Written} (hv : ofJson? v = some w) {rest : List Char}
    (hrest : Ends rest) {fuel : Nat} (hfuel : 2 * v.chars.length ≤ fuel) :
    value fuel (v.chars ++ rest) = some (w, rest) := by
  obtain ⟨c, cs, hcs, -⟩ := chars_cons hv
  have hpos : 0 < v.chars.length := hcs ▸ Nat.succ_pos _
  obtain ⟨fuel, rfl⟩ : ∃ less, fuel = less + 1 := ⟨fuel - 1, by omega⟩
  match v with
  | .null => obtain rfl := Option.some.inj hv; rfl
  | .bool true => obtain rfl := Option.some.inj hv; rfl
  | .bool false => obtain rfl := Option.some.inj hv; rfl
  | .number (.int n) => obtain rfl := Option.some.inj hv; exact value_number n hrest fuel
  | .string s => obtain rfl := Option.some.inj hv; exact value_quoted s fuel rest
  | .array [] => obtain rfl := Option.some.inj hv; rfl
  | .array (v :: values) =>
      obtain ⟨ws, hws, rfl⟩ := Option.map_eq_some_iff.mp hv
      obtain ⟨w, -, hw, -⟩ := of_ofItems?_cons hws
      simp only [Json.chars, List.length_cons, List.length_append, List.length_nil] at hfuel
      rw [Json.chars, List.cons_append, List.append_assoc, List.singleton_append]
      exact value_array hw (items_itemChars hws (by omega))
  | .object [] => obtain rfl := Option.some.inj hv; rfl
  | .object ((name, v) :: record) =>
      obtain ⟨ws, hws, rfl⟩ := Option.map_eq_some_iff.mp hv
      simp only [Json.chars, List.length_cons, List.length_append, List.length_nil] at hfuel
      have hmembers : members fuel (Json.memberChars ((name, v) :: record) ++ '}' :: rest) =
        some (ws, rest) := members_memberChars hws (by omega)
      obtain ⟨more, hmore⟩ := memberChars_cons name v record
      rw [hmore, List.append_assoc] at hmembers
      rw [Json.chars, List.cons_append, List.append_assoc, List.singleton_append, hmore,
        List.append_assoc]
      exact value_object name hmembers
termination_by fuel

theorem items_itemChars {v : Json} {values : List Json} {ws : List Written}
    (hws : ofItems? (v :: values) = some ws) {rest : List Char} {fuel : Nat}
    (hfuel : 2 * (Json.itemChars (v :: values)).length + 1 ≤ fuel) :
    items fuel (Json.itemChars (v :: values) ++ ']' :: rest) = some (ws, rest) := by
  obtain ⟨fuel, rfl⟩ : ∃ less, fuel = less + 1 := ⟨fuel - 1, by omega⟩
  obtain ⟨w, more, hw, hmore, rfl⟩ := of_ofItems?_cons hws
  match values with
  | [] =>
      obtain rfl := Option.some.inj hmore
      rw [Json.itemChars] at hfuel ⊢
      exact items_last (value_chars hw (ends_cons (by simp) rest) (by omega))
  | v' :: values =>
      have hchars : Json.itemChars (v :: v' :: values) =
        v.chars ++ ',' :: Json.itemChars (v' :: values) := rfl
      rw [hchars, List.length_append, List.length_cons] at hfuel
      rw [hchars, List.append_assoc, List.cons_append]
      exact items_more (value_chars hw (ends_cons (by simp) _) (by omega))
        (items_itemChars hmore (by omega))
termination_by fuel

theorem members_memberChars {name : String} {v : Json} {record : List (String × Json)}
    {ws : List (Option String × Written)} (hws : ofMembers? ((name, v) :: record) = some ws)
    {rest : List Char} {fuel : Nat}
    (hfuel : 2 * (Json.memberChars ((name, v) :: record)).length + 1 ≤ fuel) :
    members fuel (Json.memberChars ((name, v) :: record) ++ '}' :: rest) = some (ws, rest) := by
  obtain ⟨fuel, rfl⟩ : ∃ less, fuel = less + 1 := ⟨fuel - 1, by omega⟩
  obtain ⟨w, more, hw, hmore, rfl⟩ := of_ofMembers?_cons hws
  match record with
  | [] =>
      obtain rfl := Option.some.inj hmore
      rw [Json.memberChars, List.length_append, List.length_cons] at hfuel
      rw [Json.memberChars, List.append_assoc, List.cons_append]
      exact members_last name (value_chars hw (ends_cons (by simp) rest) (by omega))
  | (name', v') :: record =>
      have hchars : Json.memberChars ((name, v) :: (name', v') :: record) =
        Json.quoted name.toList ++ ':' ::
          (v.chars ++ ',' :: Json.memberChars ((name', v') :: record)) := rfl
      rw [hchars, List.length_append, List.length_cons, List.length_append, List.length_cons]
        at hfuel
      rw [hchars, List.append_assoc, List.cons_append, List.append_assoc, List.cons_append]
      exact members_more name (value_chars hw (ends_cons (by simp) _) (by omega))
        (members_memberChars hmore (by omega))
termination_by fuel

end

/-- The text of a value is read as it was written. -/
theorem ofText?_text {v : Json} {w : Written} (hv : ofJson? v = some w) :
    ofText? v.text = some w := by
  rw [ofText?, Json.text, String.toList_ofList, ofChars?]
  have hvalue : value (2 * v.chars.length + 2) (v.chars ++ []) = some (w, []) :=
    value_chars hv ends_nil (by omega)
  rw [List.append_nil] at hvalue
  rw [hvalue]
  rfl

end Written

namespace Json

/-! ### Values of texts -/

mutual

/-- Whether the text of a value has a value again: it has no doubles, its integers are those of 64
bits, and it nests at most `depth` deep. -/
def isReadable : Nat → Json → Bool
  | _, null | _, bool _ | _, string _ => true
  | _, number (.int n) => decide (-9223372036854775808 ≤ n ∧ n < 18446744073709551616)
  | _, number (.float _) | 0, array _ | 0, object _ => false
  | depth + 1, array values => itemsReadable depth values
  | depth + 1, object record => membersReadable depth record

def itemsReadable : Nat → List Json → Bool
  | _, [] => true
  | depth, v :: rest => isReadable depth v && itemsReadable depth rest

def membersReadable : Nat → List (String × Json) → Bool
  | _, [] => true
  | depth, (_, v) :: rest => isReadable depth v && membersReadable depth rest

end

mutual

/-- The value with the members of every object in order, and of those with one name the last. -/
def sorted : Json → Json
  | array values => array (sortedItems values)
  | object record => object (Members.ofList (sortedMembers record))
  | v => v

def sortedItems : List Json → List Json
  | [] => []
  | v :: rest => sorted v :: sortedItems rest

def sortedMembers : List (String × Json) → List (String × Json)
  | [] => []
  | (name, v) :: rest => (name, sorted v) :: sortedMembers rest

end

theorem isReadable_nat (depth : Nat) {n : Nat} (hn : n < 18446744073709551616) :
    isReadable depth (.nat n) = true := by
  change isReadable depth (.number (.int n)) = true
  rw [isReadable]
  exact decide_eq_true (by omega)

theorem membersReadable_eq (depth : Nat) (record : List (String × Json)) :
    membersReadable depth record = record.all fun member => member.2.isReadable depth := by
  induction record with
  | nil => rfl
  | cons member record ih => rw [membersReadable, List.all_cons, ih]

theorem sortedMembers_eq (record : List (String × Json)) :
    sortedMembers record = record.map fun member => (member.1, member.2.sorted) := by
  induction record with
  | nil => rfl
  | cons member record ih => rw [sortedMembers, List.map_cons, ih]

theorem isReadable_of_perm {record other : List (String × Json)} (hperm : record.Perm other)
    (depth : Nat) : (object record).isReadable depth = (object other).isReadable depth := by
  cases depth with
  | zero => rfl
  | succ depth =>
      rw [isReadable, isReadable, membersReadable_eq, membersReadable_eq, hperm.all_eq]

theorem sorted_of_perm {record other : List (String × Json)} (hperm : record.Perm other)
    (hnodup : (other.map Prod.fst).Nodup) : (object record).sorted = (object other).sorted := by
  rw [sorted, sorted, sortedMembers_eq, sortedMembers_eq]
  refine congrArg object (Members.ofList_eq_of_perm (hperm.map _) ?_)
  rw [List.map_map]
  exact hnodup

end Json

namespace Written

mutual

theorem exists_of_isReadable {depth : Nat} {v : Json} (hv : v.isReadable depth = true) :
    ∃ w, ofJson? v = some w ∧ w.toJson? depth = some v.sorted := by
  match v, depth with
  | .null, _ => exact ⟨_, rfl, by rw [toJson?]; rfl⟩
  | .bool b, _ => exact ⟨_, rfl, by rw [toJson?]; rfl⟩
  | .string s, _ => exact ⟨_, rfl, by rw [toJson?]; rfl⟩
  | .number (.int n), _ =>
      have hrange := of_decide_eq_true hv
      exact ⟨_, rfl, by rw [toJson?, Numeral.value?_ofInt hrange.1 hrange.2]; rfl⟩
  | .array values, depth + 1 =>
      have hitems : Json.itemsReadable depth values = true := hv
      obtain ⟨ws, hws, hvalues⟩ := items_of_isReadable hitems
      refine ⟨.array ws, by rw [ofJson?, hws]; rfl, ?_⟩
      rw [toJson?, hvalues]
      rfl
  | .object record, depth + 1 =>
      have hmembers : Json.membersReadable depth record = true := hv
      obtain ⟨ws, hws, hvalues⟩ := members_of_isReadable hmembers
      refine ⟨.object ws, by rw [ofJson?, hws]; rfl, ?_⟩
      rw [toJson?, hvalues]
      rfl

theorem items_of_isReadable {depth : Nat} {values : List Json}
    (hvalues : Json.itemsReadable depth values = true) :
    ∃ ws, ofItems? values = some ws ∧ toItems? depth ws = some (Json.sortedItems values) := by
  match values with
  | [] => exact ⟨[], rfl, by rw [toItems?]; rfl⟩
  | v :: values =>
      obtain ⟨hv, hvalues⟩ := Bool.and_eq_true_iff.mp hvalues
      obtain ⟨w, hw, hvalue⟩ := exists_of_isReadable hv
      obtain ⟨ws, hws, hvalues⟩ := items_of_isReadable hvalues
      refine ⟨w :: ws, by rw [ofItems?, hw, hws]; rfl, ?_⟩
      rw [toItems?, hvalue, hvalues]
      rfl

theorem members_of_isReadable {depth : Nat} {record : List (String × Json)}
    (hrecord : Json.membersReadable depth record = true) :
    ∃ ws, ofMembers? record = some ws ∧
      toMembers? depth ws = some (Json.sortedMembers record) := by
  match record with
  | [] => exact ⟨[], rfl, by rw [toMembers?]; rfl⟩
  | (name, v) :: record =>
      obtain ⟨hv, hrecord⟩ := Bool.and_eq_true_iff.mp hrecord
      obtain ⟨w, hw, hvalue⟩ := exists_of_isReadable hv
      obtain ⟨ws, hws, hvalues⟩ := members_of_isReadable hrecord
      refine ⟨(some name, w) :: ws, by rw [ofMembers?, hw, hws]; rfl, ?_⟩
      rw [toMembers?, hvalue, hvalues]
      rfl

end

end Written

end SchemaQuery
