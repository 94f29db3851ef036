import SchemaQuery.Proofs.Json.Equality
import SchemaQuery.Proofs.KeyValue.Placeholders

/-!
# Calls for placeholders

Whatever is bound before, and in whatever order placeholders are called for, every search for one
ends. What a placeholder was given out for it stands for ever after. An attribute keeps the first
placeholder that it was given, since the candidates tried before that one are taken by others and
stay so.
-/

namespace SchemaQuery

namespace Placeholder

variable {α : Type} {same : α → Bool} {value : α} {base : String} {bound later : Members α}

/-- A search has one end. -/
theorem Probes.unique {n : Nat} {result other : String × Members α}
    (hprobes : Probes same value base bound n result)
    (hother : Probes same value base bound n other) : result = other := by
  induction hprobes with
  | free hfree =>
      cases hother with
      | free => rfl
      | shared hold | taken hold =>
          rw [hfree] at hold
          cases hold
  | shared hold hsame =>
      cases hother with
      | free hfree =>
          rw [hold] at hfree
          cases hfree
      | shared => rfl
      | taken hheld hdiffers =>
          obtain rfl := Option.some.inj (hold.symm.trans hheld)
          rw [hsame] at hdiffers
          cases hdiffers
  | taken hold hdiffers _ ih =>
      cases hother with
      | free hfree =>
          rw [hold] at hfree
          cases hfree
      | shared hheld hsame =>
          obtain rfl := Option.some.inj (hold.symm.trans hheld)
          rw [hsame] at hdiffers
          cases hdiffers
      | taken _ _ hnext => exact ih hnext

theorem probes_iff {result : String × Members α} :
    Probes same value base bound 0 result ↔ result = bind same value base bound :=
  ⟨fun hprobes => hprobes.unique (bind_probes same value base bound),
    fun heq => heq ▸ bind_probes same value base bound⟩

/-- A candidate that is bound to another. -/
def IsTaken (same : α → Bool) (base : String) (bound : Members α) (n : Nat) : Prop :=
  ∃ other, bound.get? (candidate base n) = some other ∧ same other = false

/-- The first candidate that is bound to the same, all before it being taken. -/
def IsChosen (same : α → Bool) (base : String) (bound : Members α) (placeholder : String) : Prop :=
  ∃ n, placeholder = candidate base n ∧
    (∃ stored, bound.get? placeholder = some stored ∧ same stored = true) ∧
    ∀ m < n, IsTaken same base bound m

theorem Probes.isChosen {n : Nat} {result : String × Members α}
    (hprobes : Probes same value base bound n result) (hsame : same value = true)
    (hbefore : ∀ m < n, IsTaken same base bound m) : IsChosen same base result.2 result.1 := by
  induction hprobes with
  | @free n hfree =>
      refine ⟨n, rfl, ⟨value, Members.get?_set_self .., hsame⟩, fun m hm => ?_⟩
      obtain ⟨other, hother, hdiffers⟩ := hbefore m hm
      have hne : candidate base n ≠ candidate base m :=
        fun heq => Nat.ne_of_gt hm (candidate_injective heq)
      exact ⟨other, by rwa [Members.get?_set_of_ne _ _ hne], hdiffers⟩
  | @shared n old hold hsame => exact ⟨n, rfl, ⟨old, hold, hsame⟩, hbefore⟩
  | @taken n old _ hold hother _ ih =>
      refine ih fun m hm => ?_
      rcases Nat.lt_succ_iff_lt_or_eq.mp hm with hm | rfl
      · exact hbefore m hm
      · exact ⟨old, hold, hother⟩

/-- What is chosen stays chosen, as long as nothing that is bound changes. -/
theorem IsChosen.mono {placeholder : String} (hchosen : IsChosen same base bound placeholder)
    (hkept : ∀ name old, bound.get? name = some old → later.get? name = some old) :
    IsChosen same base later placeholder := by
  obtain ⟨n, hn, ⟨stored, hstored, hsame⟩, hbefore⟩ := hchosen
  refine ⟨n, hn, ⟨stored, hkept _ _ hstored, hsame⟩, fun m hm => ?_⟩
  obtain ⟨other, hother, hdiffers⟩ := hbefore m hm
  exact ⟨other, hkept _ _ hother, hdiffers⟩

theorem IsChosen.unique {placeholder other : String}
    (hchosen : IsChosen same base bound placeholder) (hother : IsChosen same base bound other) :
    placeholder = other := by
  obtain ⟨m, rfl, ⟨stored, hstored, hsame⟩, hbefore⟩ := hchosen
  obtain ⟨n, rfl, ⟨held, hheld, hshares⟩, hearlier⟩ := hother
  rcases Nat.lt_trichotomy m n with hlt | rfl | hlt
  · obtain ⟨taken, htaken, hdiffers⟩ := hearlier m hlt
    obtain rfl := Option.some.inj (hstored.symm.trans htaken)
    rw [hsame] at hdiffers
    cases hdiffers
  · rfl
  · obtain ⟨taken, htaken, hdiffers⟩ := hbefore n hlt
    obtain rfl := Option.some.inj (hheld.symm.trans htaken)
    rw [hshares] at hdiffers
    cases hdiffers

end Placeholder

namespace Placeholders

/-- A call for the placeholder of an attribute, for those along a path, or for that of a value,
called after a hint. -/
inductive Call where
  | name (field : String)
  | path (segments : List String)
  | value (hint : String) (json : Json)

/-- The attributes that a call asks placeholders for. -/
def Call.fields : Call → List String
  | name field => [field]
  | path segments => segments
  | value _ _ => []

/-- The values that a call asks placeholders for. -/
def Call.items : Call → List Json
  | value _ json => [json]
  | _ => []

/-- The text that a call returns, with the placeholders in it and what they were given out for. -/
structure Answer where
  text : String
  names : List (String × String) := []
  values : List (String × Json) := []

def answer (bound : Placeholders) : Call → Answer × Placeholders
  | .name field =>
      let (text, later) := bound.name field
      ({ text, names := [(text, field)] }, later)
  | .path segments =>
      let (text, later) := bound.path segments
      ({ text, names := (bound.nameAll segments).1.zip segments }, later)
  | .value hint json =>
      let (text, later) := bound.value hint json
      ({ text, values := [(text, json)] }, later)

/-- Calls one after the other. -/
def run (bound : Placeholders) : List Call → List Answer × Placeholders
  | [] => ([], bound)
  | call :: calls =>
      let (first, later) := bound.answer call
      let (rest, last) := later.run calls
      (first :: rest, last)

/-- An answer to a call: its text are the placeholders asked for, with points between. -/
structure Answer.IsTo (answer : Answer) (call : Call) : Prop where
  names : answer.names.map Prod.snd = call.fields
  values : answer.values.map Prod.snd = call.items
  text : answer.text =
    String.intercalate "." (answer.names.map Prod.fst ++ answer.values.map Prod.fst)

/-- The placeholder that every call for an attribute returns. -/
def Settles (bound : Placeholders) (placeholder field : String) : Prop :=
  Placeholder.IsChosen (· == field) ("#" ++ Placeholder.plain field) bound.names placeholder

/-- The placeholders of an answer stand for what they were given out for. -/
structure Answer.IsKeptBy (answer : Answer) (bound : Placeholders) : Prop where
  names : ∀ given ∈ answer.names, bound.Names given.1 given.2 ∧ bound.Settles given.1 given.2
  values : ∀ given ∈ answer.values, bound.StandsFor given.1 given.2

theorem Answer.IsKeptBy.extends {answer : Answer} {bound later : Placeholders}
    (hkept : answer.IsKeptBy bound) (hlater : bound.Extends later) : answer.IsKeptBy later where
  names given hgiven := by
    obtain ⟨hnames, hsettles⟩ := hkept.names given hgiven
    exact ⟨hnames.extends hlater, hsettles.mono hlater.names⟩
  values given hgiven := (hkept.values given hgiven).extends hlater

theorem name_settles (bound : Placeholders) (field : String) :
    (bound.name field).2.Settles (bound.name field).1 field :=
  (Placeholder.bind_probes (· == field) field ("#" ++ Placeholder.plain field)
    bound.names).isChosen (beq_self_eq_true field) fun _ hm => absurd hm (Nat.not_lt_zero _)

theorem length_nameAll (bound : Placeholders) (fields : List String) :
    (bound.nameAll fields).1.length = fields.length :=
  (bound.nameAll_namesAll fields).1.length_eq

theorem nameAll_settles (bound : Placeholders) (fields : List String) :
    ∀ given ∈ (bound.nameAll fields).1.zip fields,
      (bound.nameAll fields).2.Settles given.1 given.2 := by
  induction fields generalizing bound with
  | nil => exact fun given hgiven => absurd hgiven List.not_mem_nil
  | cons field fields ih =>
      have hlater := ((bound.name field).2.nameAll_namesAll fields).2
      refine List.forall_mem_cons.mpr ⟨?_, ih (bound.name field).2⟩
      exact (bound.name_settles field).mono hlater.names

/-- One call. -/
theorem answer_spec (bound : Placeholders) (call : Call) :
    (bound.answer call).1.IsTo call ∧ (bound.answer call).1.IsKeptBy (bound.answer call).2 ∧
      bound.Extends (bound.answer call).2 := by
  cases call with
  | name field =>
      obtain ⟨hnames, hextends⟩ := bound.name_names field
      refine ⟨⟨rfl, rfl, rfl⟩, ⟨fun given hgiven => ?_, fun _ h => absurd h List.not_mem_nil⟩,
        hextends⟩
      rw [List.mem_singleton.mp hgiven]
      exact ⟨hnames, bound.name_settles field⟩
  | path segments =>
      have hlength := bound.length_nameAll segments
      obtain ⟨hnames, hextends⟩ := bound.nameAll_namesAll segments
      refine ⟨⟨List.map_snd_zip (Nat.le_of_eq hlength.symm), rfl, ?_⟩,
        ⟨fun given hgiven => ⟨?_, bound.nameAll_settles segments given hgiven⟩,
          fun _ h => absurd h List.not_mem_nil⟩, hextends⟩
      · change String.intercalate "." (bound.nameAll segments).1 = _
        rw [answer, List.map_fst_zip (Nat.le_of_eq hlength), List.map_nil, List.append_nil]
      · exact (List.forall₂_iff_zip.mp hnames).2 hgiven
  | value hint json =>
      obtain ⟨hstands, hextends⟩ := bound.value_standsFor hint json
      refine ⟨⟨rfl, rfl, rfl⟩, ⟨fun _ h => absurd h List.not_mem_nil, fun given hgiven => ?_⟩,
        hextends⟩
      rw [List.mem_singleton.mp hgiven]
      exact hstands

/-- Calls one after the other. -/
theorem run_spec (bound : Placeholders) (calls : List Call) :
    List.Forall₂ Answer.IsTo (bound.run calls).1 calls ∧
      (∀ answer ∈ (bound.run calls).1, answer.IsKeptBy (bound.run calls).2) ∧
      bound.Extends (bound.run calls).2 := by
  induction calls generalizing bound with
  | nil => exact ⟨.nil, fun _ h => absurd h List.not_mem_nil, .refl bound⟩
  | cons call calls ih =>
      obtain ⟨hto, hkept, hextends⟩ := bound.answer_spec call
      obtain ⟨hrest, hanswers, hlater⟩ := ih (bound.answer call).2
      exact ⟨.cons hto hrest, List.forall_mem_cons.mpr ⟨hkept.extends hlater, hanswers⟩,
        hextends.trans hlater⟩

theorem run_append (bound : Placeholders) (calls more : List Call) :
    (bound.run (calls ++ more)).2 = ((bound.run calls).2.run more).2 := by
  induction calls generalizing bound with
  | nil => rfl
  | cons call calls ih => exact ih (bound.answer call).2

/-- **Calls for placeholders.** Every search ends, in one way. The calls are answered in their
order, each with the placeholders it asked for. What is bound at any time stays bound, and the
placeholders given out stand, after all calls, for what they were given out for. Two of those given
out for attributes are the same if and only if the attributes are. -/
theorem calls_allot_soundly (seeds : Placeholders) (calls : List Call) :
    (∀ (bound : Placeholders) (field : String) (result : String × Members String),
      Placeholder.Probes (· == field) field ("#" ++ Placeholder.plain field) bound.names 0 result ↔
        result = ((bound.name field).1, (bound.name field).2.names)) ∧
    (∀ (bound : Placeholders) (hint : String) (json : Json) (result : String × Members Json),
      Placeholder.Probes (· == json) json (":" ++ Placeholder.plain hint) bound.values 0 result ↔
        result = ((bound.value hint json).1, (bound.value hint json).2.values)) ∧
    List.Forall₂ Answer.IsTo (seeds.run calls).1 calls ∧
    (∀ before after, calls = before ++ after →
      (seeds.run before).2.Extends (seeds.run calls).2) ∧
    (∀ answer ∈ (seeds.run calls).1,
      (∀ given ∈ answer.names, (seeds.run calls).2.Names given.1 given.2) ∧
      ∀ given ∈ answer.values, (seeds.run calls).2.StandsFor given.1 given.2) ∧
    ∀ given ∈ (seeds.run calls).1.flatMap Answer.names,
      ∀ other ∈ (seeds.run calls).1.flatMap Answer.names,
        given.1 = other.1 ↔ given.2 = other.2 := by
  obtain ⟨hto, hkept, -⟩ := seeds.run_spec calls
  refine ⟨fun _ _ _ => Placeholder.probes_iff, fun _ _ _ _ => Placeholder.probes_iff, hto,
    fun before after hcalls => ?_, fun answer hanswer =>
      ⟨fun given hgiven => ((hkept answer hanswer).names given hgiven).1,
        (hkept answer hanswer).values⟩, fun given hgiven other hother => ?_⟩
  · rw [hcalls, run_append]
    exact ((seeds.run before).2.run_spec after).2.2
  · obtain ⟨first, hfirst, hgiven⟩ := List.mem_flatMap.mp hgiven
    obtain ⟨second, hsecond, hother⟩ := List.mem_flatMap.mp hother
    obtain ⟨hnames, hsettles⟩ := (hkept first hfirst).names given hgiven
    obtain ⟨hothers, hsettled⟩ := (hkept second hsecond).names other hother
    constructor
    · intro hsame
      have hbound := hnames.2
      rw [hsame] at hbound
      exact Option.some.inj (hbound.symm.trans hothers.2)
    · intro hsame
      rw [hsame] at hsettles
      exact hsettles.unique hsettled

/-- The second attribute finds its placeholder taken and keeps the next one. -/
example : (empty.run [.name "first-name", .path ["first_name", "last"], .name "first_name"]).1.map
    Answer.text = ["#first_name", "#first_name_1.#last", "#first_name_1"] := by
  decide

end Placeholders

end SchemaQuery
