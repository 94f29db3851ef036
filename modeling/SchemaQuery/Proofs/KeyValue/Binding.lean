import SchemaQuery.KeyValue.Expression
import SchemaQuery.Proofs.KeyValue.Usage

/-!
# Placeholders of rendered plans

Each atom uses placeholders for the path of its condition and for the values it compares with, and
nothing else is bound for it. Joining and merging keep every atom, so a read binds what its
expressions use, to what it was made for, and nothing besides but what the caller has bound.
-/

namespace SchemaQuery

open KeyValue Placeholder

/-! ### What a plan asks for -/

/-- The values that a test compares with. -/
def Test.items : Test → List Json
  | .equal json | .contains json | .hasItem json | .lacksItem json => [json]
  | .oneOf items => items
  | .range first last => first.toList ++ last.toList

def HashBinding.condition (binding : HashBinding) : Condition :=
  ⟨[binding.field], .equal binding.value, .key⟩

namespace Plan

/-- What the key condition asks: a query narrows, by the hash key first, and a scan does not. -/
def keyAsks (plan : Plan) : List Condition :=
  match plan.lookup with
  | .query => plan.hashKey.toList.map HashBinding.condition ++ plan.on .key
  | .scan => []

/-- What the filter asks. -/
def filterAsks (plan : Plan) : List Condition :=
  match plan.lookup with
  | .query => plan.on .filter
  | .scan => plan.hashKey.toList.map HashBinding.condition ++ plan.conditions

/-- The key condition and the filter of a plan, with the placeholders of a caller bound before. -/
def parts (plan : Plan) (bound : Placeholders) : Option String × Option String :=
  expressions plan (bindHash bound plan.hashKey).1
    (bindConditions (bindHash bound plan.hashKey).2 plan.conditions).1

end Plan

/-! ### What binding adds -/

namespace Placeholder

variable {α : Type}

theorem mem_bindFrom {same : α → Bool} {value : α} {base : String} {bound : Members α}
    {fuel n : Nat} {member : String × α}
    (hmem : member ∈ (bindFrom same value base bound fuel n).2) :
    member ∈ bound ∨ member.1 = (bindFrom same value base bound fuel n).1 := by
  induction fuel generalizing n with
  | zero => exact Or.inl hmem
  | succ fuel ih =>
      rw [bindFrom] at hmem ⊢
      split at hmem
      next hfree =>
        rcases Members.mem_set hmem with rfl | h
        · exact Or.inr rfl
        · exact Or.inl h
      next old htaken =>
        split at hmem
        next => exact Or.inl hmem
        next hother =>
          simp only [hother, Bool.false_eq_true, if_false]
          exact ih hmem

theorem mem_bind (same : α → Bool) (value : α) (base : String) {bound : Members α}
    {member : String × α} (hmem : member ∈ (bind same value base bound).2) :
    member ∈ bound ∨ member.1 = (bind same value base bound).1 := mem_bindFrom hmem

end Placeholder

namespace Placeholders

/-- Besides what was bound before, only these placeholders are bound. -/
structure Within (bound later : Placeholders) (names values : List String) : Prop where
  names : ∀ member ∈ later.names, member ∈ bound.names ∨ member.1 ∈ names
  values : ∀ member ∈ later.values, member ∈ bound.values ∨ member.1 ∈ values

theorem Within.refl (bound : Placeholders) : bound.Within bound [] [] :=
  ⟨fun _ hmem => Or.inl hmem, fun _ hmem => Or.inl hmem⟩

theorem Within.trans {bound next later : Placeholders} {names values names' values' : List String}
    (hfirst : bound.Within next names values) (hsecond : next.Within later names' values') :
    bound.Within later (names ++ names') (values ++ values') := by
  refine ⟨fun member hmem => ?_, fun member hmem => ?_⟩
  · rcases hsecond.names member hmem with h | h
    · exact (hfirst.names member h).imp_right (List.mem_append_left names')
    · exact Or.inr (List.mem_append_right names h)
  · rcases hsecond.values member hmem with h | h
    · exact (hfirst.values member h).imp_right (List.mem_append_left values')
    · exact Or.inr (List.mem_append_right values h)

theorem Within.mono {bound later : Placeholders} {names values names' values' : List String}
    (hwithin : bound.Within later names values) (hnames : names ⊆ names')
    (hvalues : values ⊆ values') : bound.Within later names' values' :=
  ⟨fun member hmem => (hwithin.names member hmem).imp_right (hnames ·),
    fun member hmem => (hwithin.values member hmem).imp_right (hvalues ·)⟩

theorem name_within (bound : Placeholders) (field : String) :
    bound.Within (bound.name field).2 [(bound.name field).1] [] :=
  ⟨fun _ hmem => (mem_bind (· == field) field _ hmem).imp_right List.mem_singleton.mpr,
    fun _ hmem => Or.inl hmem⟩

theorem value_within (bound : Placeholders) (hint : String) (json : Json) :
    bound.Within (bound.value hint json).2 [] [(bound.value hint json).1] :=
  ⟨fun _ hmem => Or.inl hmem,
    fun _ hmem => (mem_bind (· == json) json _ hmem).imp_right List.mem_singleton.mpr⟩

theorem nameAll_within (bound : Placeholders) (fields : List String) :
    bound.Within (bound.nameAll fields).2 (bound.nameAll fields).1 [] := by
  induction fields generalizing bound with
  | nil => exact .refl bound
  | cons field fields ih => exact (bound.name_within field).trans (ih (bound.name field).2)

/-- Placeholders for values, and nothing else bound for them. -/
structure Stores (bound later : Placeholders) (placeholders : List String) (items : List Json) :
    Prop where
  stands : later.StandsForAll placeholders items
  kept : bound.Extends later
  within : bound.Within later [] placeholders

theorem Stores.nil (bound : Placeholders) : bound.Stores bound [] [] :=
  ⟨.nil, .refl bound, .refl bound⟩

theorem stores_value (bound : Placeholders) (hint : String) (json : Json) :
    bound.Stores (bound.value hint json).2 [(bound.value hint json).1] [json] := by
  obtain ⟨hstands, hkept⟩ := bound.value_standsFor hint json
  exact ⟨.cons hstands .nil, hkept, bound.value_within hint json⟩

theorem Stores.append {bound next later : Placeholders} {placeholders placeholders' : List String}
    {items items' : List Json} (hfirst : bound.Stores next placeholders items)
    (hsecond : next.Stores later placeholders' items') :
    bound.Stores later (placeholders ++ placeholders') (items ++ items') :=
  ⟨List.rel_append (hfirst.stands.extends hsecond.kept) hsecond.stands,
    hfirst.kept.trans hsecond.kept, hfirst.within.trans hsecond.within⟩

end Placeholders

namespace KeyValue

variable {mark : Char}

theorem stores_valueAll (bound : Placeholders) (hint : String) (place : Nat) (items : List Json) :
    bound.Stores (valueAll bound hint place items).2 (valueAll bound hint place items).1 items := by
  induction items generalizing bound place with
  | nil => exact .nil bound
  | cons json rest ih =>
      exact (bound.stores_value (hint ++ String.ofList (Nat.toDigits 10 place)) json).append
        (ih _ (place + 1))

theorem stores_valueOption (bound : Placeholders) (hint : String) (json : Option Json) :
    bound.Stores (valueOption bound hint json).2 (valueOption bound hint json).1.toList
      json.toList := by
  cases json with
  | none => exact .nil bound
  | some json => exact bound.stores_value hint json

/-! ### What atoms use -/

namespace Atom

def path : Atom → String
  | equal path _ | contains path _ | lacks path _ | oneOf path _ | between path _ _
  | atLeast path _ | atMost path _ | present path => path

def values : Atom → List String
  | equal _ value | contains _ value | lacks _ value | atLeast _ value | atMost _ value => [value]
  | oneOf _ values => values
  | between _ first last => [first, last]
  | present _ => []

/-- An atom uses what its path and its values use. -/
theorem used_text (hmark : IsMark mark) (atom : Atom) :
    used mark atom.text = used mark atom.path ++ atom.values.flatMap (used mark) := by
  have hcomma : Separates mark ", " := hmark.separates rfl (by decide) (by decide) (by decide)
  have hclosing : Separates mark ")" := hmark.separates rfl (by decide) (by decide) (by decide)
  have hcontains : mark ∉ "contains(".toList := hmark.notMem (by decide) (by decide)
  have hlacks : mark ∉ "not contains(".toList := hmark.notMem (by decide) (by decide)
  have hpresent : mark ∉ "attribute_exists(".toList := hmark.notMem (by decide) (by decide)
  cases atom with
  | equal path value =>
      have hequal : Separates mark " = " := hmark.separates rfl (by decide) (by decide) (by decide)
      rw [values, List.flatMap_singleton]
      exact hequal.used_between path value
  | contains path value =>
      rw [values, List.flatMap_singleton]
      calc used mark (contains path value).text
        _ = used mark ("contains(" ++ path ++ ", " ++ value) := hclosing.used_behind _
        _ = used mark ("contains(" ++ path) ++ used mark value := hcomma.used_between _ _
        _ = used mark path ++ used mark value := by rw [used_of_notMem hcontains path]
  | lacks path value =>
      rw [values, List.flatMap_singleton]
      calc used mark (lacks path value).text
        _ = used mark ("not contains(" ++ path ++ ", " ++ value) := hclosing.used_behind _
        _ = used mark ("not contains(" ++ path) ++ used mark value := hcomma.used_between _ _
        _ = used mark path ++ used mark value := by rw [used_of_notMem hlacks path]
  | oneOf path values =>
      have hin : Separates mark " IN (" := hmark.separates rfl (by decide) (by decide) (by decide)
      have hplain : Separates mark "," := hmark.separates rfl (by decide) (by decide) (by decide)
      calc used mark (oneOf path values).text
        _ = used mark (path ++ " IN (" ++ String.intercalate "," values) := hclosing.used_behind _
        _ = used mark path ++ used mark (String.intercalate "," values) := hin.used_between _ _
        _ = used mark path ++ values.flatMap (used mark) := by rw [hplain.used_intercalate values]
  | between path first last =>
      have hbetween : Separates mark " between " :=
        hmark.separates rfl (by decide) (by decide) (by decide)
      have hand : Separates mark " and " := hmark.separates rfl (by decide) (by decide) (by decide)
      rw [values, List.flatMap_cons, List.flatMap_singleton]
      calc used mark (between path first last).text
        _ = used mark (path ++ " between " ++ first) ++ used mark last := hand.used_between _ _
        _ = used mark path ++ used mark first ++ used mark last := by
          rw [hbetween.used_between path first]
        _ = used mark path ++ (used mark first ++ used mark last) := List.append_assoc ..
  | atLeast path first =>
      have hatLeast : Separates mark " >= " :=
        hmark.separates rfl (by decide) (by decide) (by decide)
      rw [values, List.flatMap_singleton]
      exact hatLeast.used_between path first
  | atMost path last =>
      have hatMost : Separates mark " <= " :=
        hmark.separates rfl (by decide) (by decide) (by decide)
      rw [values, List.flatMap_singleton]
      exact hatMost.used_between path last
  | present path =>
      rw [values, List.flatMap_nil, List.append_nil]
      calc used mark (present path).text
        _ = used mark ("attribute_exists(" ++ path) := hclosing.used_behind _
        _ = used mark path := used_of_notMem hpresent path

theorem used_of_marked {atom : Atom} {placeholders : List String}
    (hpath : atom.path = ".".intercalate placeholders)
    (hnames : ∀ placeholder ∈ placeholders, IsMarked '#' placeholder)
    (hvalues : ∀ placeholder ∈ atom.values, IsMarked ':' placeholder) :
    used '#' atom.text = placeholders ∧ used ':' atom.text = atom.values := by
  have hpoint {mark : Char} (hmark : IsMark mark) : Separates mark "." :=
    hmark.separates rfl (by decide) (by decide) (by decide)
  constructor
  · rw [used_text (Or.inl rfl), hpath, (hpoint (Or.inl rfl)).used_intercalate,
      flatMap_used hnames (by decide), flatMap_used hvalues (by decide), if_pos rfl,
      if_neg (by decide), List.append_nil]
  · rw [used_text (Or.inr rfl), hpath, (hpoint (Or.inr rfl)).used_intercalate,
      flatMap_used hnames (by decide), flatMap_used hvalues (by decide), if_pos rfl,
      if_neg (by decide), List.nil_append]

/-- The placeholders of an atom are those for the path of a condition and for its values. -/
structure Writes (bound : Placeholders) (atom : Atom) (condition : Condition) : Prop where
  names : bound.NamesAll (used '#' atom.text) condition.path
  values : bound.StandsForAll (used ':' atom.text) condition.test.items

theorem Writes.extends {bound later : Placeholders} {atom : Atom} {condition : Condition}
    (hwrites : Writes bound atom condition) (hlater : bound.Extends later) :
    Writes later atom condition :=
  ⟨hwrites.names.extends hlater, hwrites.values.extends hlater⟩

theorem forall₂_writes_extends {bound later : Placeholders} {atoms : List Atom}
    {conditions : List Condition} (hwrites : List.Forall₂ (Writes bound) atoms conditions)
    (hlater : bound.Extends later) : List.Forall₂ (Writes later) atoms conditions :=
  hwrites.imp fun _ _ hatom => hatom.extends hlater

end Atom

/-- What atoms use. -/
abbrev usedAll (mark : Char) (atoms : List Atom) : List String :=
  atoms.flatMap fun atom => used mark atom.text

/-! ### Binding a plan -/

theorem rangeAtom_parts (path : String) (first last : Option String) :
    (rangeAtom path first last).path = path ∧
      (rangeAtom path first last).values = first.toList ++ last.toList := by
  cases first with
  | none => cases last <;> exact ⟨rfl, rfl⟩
  | some first => cases last <;> exact ⟨rfl, rfl⟩

theorem bindTest_stores (bound : Placeholders) (path hint : String) (test : Test) :
    (bindTest bound path hint test).1.path = path ∧
      bound.Stores (bindTest bound path hint test).2 (bindTest bound path hint test).1.values
        test.items := by
  cases test with
  | equal json => exact ⟨rfl, bound.stores_value hint json⟩
  | contains json => exact ⟨rfl, bound.stores_value hint json⟩
  | hasItem json => exact ⟨rfl, bound.stores_value hint json⟩
  | lacksItem json => exact ⟨rfl, bound.stores_value hint json⟩
  | oneOf items => exact ⟨rfl, stores_valueAll bound hint 0 items⟩
  | range first last =>
      have hfirst := stores_valueOption bound (hint ++ "Begin") first
      have hlast :=
        stores_valueOption (valueOption bound (hint ++ "Begin") first).2 (hint ++ "End") last
      obtain ⟨hpath, hvalues⟩ := rangeAtom_parts path (valueOption bound (hint ++ "Begin") first).1
        (valueOption (valueOption bound (hint ++ "Begin") first).2 (hint ++ "End") last).1
      refine ⟨hpath, ?_⟩
      have hboth := hfirst.append hlast
      rw [← hvalues] at hboth
      exact hboth

theorem bindCondition_writes (bound : Placeholders) (condition : Condition) :
    Atom.Writes (bindCondition bound condition).2 (bindCondition bound condition).1 condition ∧
      bound.Extends (bindCondition bound condition).2 ∧
      bound.Within (bindCondition bound condition).2
        (used '#' (bindCondition bound condition).1.text)
        (used ':' (bindCondition bound condition).1.text) := by
  obtain ⟨hnames, hnamed⟩ := bound.nameAll_namesAll condition.path
  obtain ⟨hpath, hstores⟩ := bindTest_stores (bound.path condition.path).2
    (bound.path condition.path).1 (String.intercalate "_" condition.path) condition.test
  have hmarked := ((List.forall₂_and_left _ _).mp hnames).1
  have hmarked' := ((List.forall₂_and_left _ _).mp hstores.stands).1
  obtain ⟨hname, hvalue⟩ := Atom.used_of_marked hpath hmarked hmarked'
  have hwithin := (bound.nameAll_within condition.path).trans hstores.within
  rw [List.append_nil, List.nil_append, ← hname, ← hvalue] at hwithin
  refine ⟨⟨?_, ?_⟩, hnamed.trans hstores.kept, hwithin⟩
  · rw [← hname] at hnames
    exact hnames.extends hstores.kept
  · have hstands := hstores.stands
    rw [← hvalue] at hstands
    exact hstands

theorem bindConditions_writes (bound : Placeholders) (conditions : List Condition) :
    List.Forall₂ (fun entry condition => entry.1 = condition.side ∧
        Atom.Writes (bindConditions bound conditions).2 entry.2 condition)
      (bindConditions bound conditions).1 conditions ∧
    bound.Extends (bindConditions bound conditions).2 ∧
    bound.Within (bindConditions bound conditions).2
      (usedAll '#' ((bindConditions bound conditions).1.map (·.2)))
      (usedAll ':' ((bindConditions bound conditions).1.map (·.2))) := by
  induction conditions generalizing bound with
  | nil => exact ⟨.nil, .refl bound, .refl bound⟩
  | cons condition rest ih =>
      obtain ⟨hwrites, hkept, hwithin⟩ := bindCondition_writes bound condition
      obtain ⟨hrest, hlater, hmore⟩ := ih (bindCondition bound condition).2
      exact ⟨.cons ⟨rfl, hwrites.extends hlater⟩ hrest, hkept.trans hlater, hwithin.trans hmore⟩

/-- The hash equality is bound as a condition is. -/
theorem bindHash_some (bound : Placeholders) (binding : HashBinding) :
    bindHash bound (some binding) =
      (some (bindCondition bound binding.condition).1,
        (bindCondition bound binding.condition).2) := by
  simp only [bindHash, bindCondition, HashBinding.condition, Placeholders.path,
    Placeholders.nameAll, bindTest, String.intercalate_singleton]

theorem bindHash_writes (bound : Placeholders) (hash : Option HashBinding) :
    List.Forall₂ (Atom.Writes (bindHash bound hash).2) (bindHash bound hash).1.toList
      (hash.toList.map HashBinding.condition) ∧
    bound.Extends (bindHash bound hash).2 ∧
    bound.Within (bindHash bound hash).2 (usedAll '#' (bindHash bound hash).1.toList)
      (usedAll ':' (bindHash bound hash).1.toList) := by
  cases hash with
  | none => exact ⟨.nil, .refl bound, .refl bound⟩
  | some binding =>
      obtain ⟨hwrites, hkept, hwithin⟩ := bindCondition_writes bound binding.condition
      rw [bindHash_some]
      refine ⟨.cons hwrites .nil, hkept, ?_⟩
      rw [usedAll, usedAll, Option.toList_some, List.flatMap_singleton, List.flatMap_singleton]
      exact hwithin

/-! ### Joining -/

theorem separates_keyword (hmark : IsMark mark) (junction : Junction) :
    Separates mark (" " ++ junction.keyword ++ " ") := by
  cases junction with
  | and => exact hmark.separates rfl (by decide) (by decide) (by decide)
  | or => exact hmark.separates rfl (by decide) (by decide) (by decide)

theorem used_parenthesized (hmark : IsMark mark) (text : String) :
    used mark (parenthesized text) = used mark text := by
  have hclosing : Separates mark ")" :=
    hmark.separates rfl (by decide) (by decide) (by decide)
  have hopening : mark ∉ "(".toList := hmark.notMem (by decide) (by decide)
  calc used mark (parenthesized text)
    _ = used mark ("(" ++ text) := hclosing.used_behind _
    _ = used mark text := used_of_notMem hopening text

theorem usedBy_joinAtoms (hmark : IsMark mark) (junction : Junction)
    (atoms : List Atom) : usedBy mark (joinAtoms junction atoms) = usedAll mark atoms := by
  cases atoms with
  | nil => rfl
  | cons atom rest =>
      refine ((separates_keyword hmark junction).used_intercalate _).trans ?_
      rw [List.flatMap_map]

theorem usedBy_withHash (hmark : IsMark mark) (junction : Junction)
    (hash : Option Atom) (atoms : List Atom) :
    usedBy mark (withHash junction hash atoms) = usedAll mark (hash.toList ++ atoms) := by
  have hjoin := usedBy_joinAtoms hmark junction atoms
  have hand := separates_keyword hmark .and
  unfold withHash
  generalize joinAtoms junction atoms = joined at hjoin ⊢
  cases hash with
  | none => exact hjoin
  | some hash =>
      rw [Option.toList_some, List.singleton_append, usedAll, List.flatMap_cons]
      rw [usedAll] at hjoin
      cases joined with
      | none =>
          rw [← hjoin]
          exact (List.append_nil _).symm
      | some rest =>
          rw [← hjoin]
          simp only
          split
          next => exact (hand.used_between _ _).trans (by rw [used_parenthesized hmark]; rfl)
          next => exact hand.used_between _ _

/-- A text has placeholders for the paths and for the values of some conditions, in their order. -/
structure Binds (bound : Placeholders) (text : Option String) (conditions : List Condition) :
    Prop where
  names : bound.NamesAll (usedBy '#' text) (conditions.flatMap Condition.path)
  values : bound.StandsForAll (usedBy ':' text)
    (conditions.flatMap fun condition => condition.test.items)

theorem binds_of_writes {bound : Placeholders} {text : Option String} {atoms : List Atom}
    {conditions : List Condition} (hwrites : List.Forall₂ (Atom.Writes bound) atoms conditions)
    (hused : ∀ mark, IsMark mark → usedBy mark text = usedAll mark atoms) :
    Binds bound text conditions := by
  refine ⟨?_, ?_⟩
  · rw [hused '#' (Or.inl rfl)]
    exact List.rel_flatMap hwrites fun _ _ hatom => hatom.names
  · rw [hused ':' (Or.inr rfl)]
    exact List.rel_flatMap hwrites fun _ _ hatom => hatom.values

theorem Binds.extends {bound later : Placeholders} {text : Option String}
    {conditions : List Condition} (hbinds : Binds bound text conditions)
    (hlater : bound.Extends later) : Binds later text conditions :=
  ⟨hbinds.names.extends hlater, hbinds.values.extends hlater⟩

/-- Where no text is, nothing is asked, whatever is bound. -/
theorem Binds.of_none {bound : Placeholders} {conditions : List Condition}
    (hbinds : Binds bound none conditions) (other : Placeholders) :
    Binds other none conditions := by
  obtain ⟨hnames, hvalues⟩ := hbinds
  rw [usedBy, Option.elim_none] at hnames hvalues
  refine ⟨?_, ?_⟩
  · rw [List.forall₂_nil_left_iff.mp hnames]
    exact .nil
  · rw [List.forall₂_nil_left_iff.mp hvalues]
    exact .nil

/-- Entries with the sides of their conditions, filtered by side. -/
theorem writes_on {bound : Placeholders} {entries : List (Side × Atom)}
    {conditions : List Condition} (side : Side)
    (hentries : List.Forall₂ (fun entry condition => entry.1 = condition.side ∧
      Atom.Writes bound entry.2 condition) entries conditions) :
    List.Forall₂ (Atom.Writes bound) ((entries.filter fun entry => entry.1 == side).map (·.2))
      (conditions.filter fun condition => condition.side == side) := by
  induction hentries with
  | nil => exact .nil
  | @cons entry condition _ _ hentry _ ih =>
      rw [List.filter_cons, List.filter_cons, hentry.1]
      split
      next => exact .cons hentry.2 ih
      next => exact ih

theorem expressions_binds {bound : Placeholders} {plan : Plan} {hash : Option Atom}
    {entries : List (Side × Atom)}
    (hhash : List.Forall₂ (Atom.Writes bound) hash.toList
      (plan.hashKey.toList.map HashBinding.condition))
    (hentries : List.Forall₂ (fun entry condition => entry.1 = condition.side ∧
      Atom.Writes bound entry.2 condition) entries plan.conditions) :
    Binds bound (expressions plan hash entries).1 plan.keyAsks ∧
      Binds bound (expressions plan hash entries).2 plan.filterAsks := by
  rw [expressions, Plan.keyAsks, Plan.filterAsks]
  cases plan.lookup with
  | query =>
      exact ⟨binds_of_writes (List.rel_append hhash (writes_on .key hentries))
          fun mark hmark => usedBy_withHash hmark ..,
        binds_of_writes (writes_on .filter hentries) fun mark hmark => usedBy_joinAtoms hmark ..⟩
  | scan =>
      have hall : List.Forall₂ (Atom.Writes bound) (entries.map (·.2)) plan.conditions :=
        List.forall₂_map_left_iff.mpr (hentries.imp fun _ _ hentry => hentry.2)
      exact ⟨binds_of_writes .nil fun _ _ => rfl,
        binds_of_writes (List.rel_append hhash hall) fun mark hmark => usedBy_withHash hmark ..⟩

/-- Every atom is in one of the two expressions. -/
theorem mem_usedBy_expressions (hmark : IsMark mark) (plan : Plan) (hash : Option Atom)
    {entries : List (Side × Atom)} {placeholder : String}
    (hmem : placeholder ∈ usedAll mark (hash.toList ++ entries.map (·.2))) :
    placeholder ∈ usedBy mark (expressions plan hash entries).1 ∨
      placeholder ∈ usedBy mark (expressions plan hash entries).2 := by
  rw [expressions]
  cases plan.lookup with
  | scan =>
      refine Or.inr ?_
      rw [usedBy_withHash hmark]
      exact hmem
  | query =>
      simp only [usedBy_withHash hmark, usedBy_joinAtoms hmark]
      obtain ⟨atom, hatom, hused⟩ := List.mem_flatMap.mp hmem
      rcases List.mem_append.mp hatom with hhash | hentry
      · exact Or.inl (List.mem_flatMap.mpr ⟨atom, List.mem_append_left _ hhash, hused⟩)
      · obtain ⟨⟨side, atom⟩, hmember, rfl⟩ := List.mem_map.mp hentry
        have hside : atom ∈ (entries.filter fun entry => entry.1 == side).map (·.2) :=
          List.mem_map.mpr ⟨(side, atom), List.mem_filter.mpr ⟨hmember, beq_self_eq_true side⟩, rfl⟩
        cases side with
        | key => exact Or.inl (List.mem_flatMap.mpr ⟨atom, List.mem_append_right _ hside, hused⟩)
        | filter => exact Or.inr (List.mem_flatMap.mpr ⟨atom, hside, hused⟩)

/-- What the compiled expression uses is used by the one it is merged into. -/
theorem mem_usedBy_prepend (hmark : IsMark mark) (own : List String) (keyword : String)
    {compiled : Option String} {placeholder : String} (hmem : placeholder ∈ usedBy mark compiled) :
    placeholder ∈ usedBy mark (Fragment.prepend own keyword compiled) := by
  unfold Fragment.prepend
  split
  next => exact hmem
  next =>
    cases compiled with
    | none => exact absurd hmem List.not_mem_nil
    | some compiled =>
        have hblank : Separates mark " " :=
          hmark.separates rfl (by decide) (by decide) (by decide)
        have hused := hblank.used_between (joinWith keyword own ++ " " ++ keyword)
          (parenthesized compiled)
        rw [used_parenthesized hmark] at hused
        have h := List.mem_append_right (used mark (joinWith keyword own ++ " " ++ keyword)) hmem
        rw [usedBy, Option.elim_some, ← hused] at h
        exact h

theorem isSome_prepend (own : List String) (keyword : String) {compiled : Option String}
    (hsome : compiled.isSome) : (Fragment.prepend own keyword compiled).isSome := by
  unfold Fragment.prepend
  split
  next => exact hsome
  next =>
    cases compiled with
    | none => cases hsome
    | some => rfl

/-! ### The read of a plan -/

/-- The parts of a plan use what is bound for them, and nothing else is. -/
theorem parts_binds (plan : Plan) (bound : Placeholders) :
    let parts := plan.parts bound
    let later := (bindConditions (bindHash bound plan.hashKey).2 plan.conditions).2
    Binds later parts.1 plan.keyAsks ∧ Binds later parts.2 plan.filterAsks ∧
      bound.Extends later ∧
      bound.Within later (usedBy '#' parts.1 ++ usedBy '#' parts.2)
        (usedBy ':' parts.1 ++ usedBy ':' parts.2) := by
  intro parts later
  obtain ⟨hhash, hkept, hwithin⟩ := bindHash_writes bound plan.hashKey
  obtain ⟨hentries, hkept', hwithin'⟩ :=
    bindConditions_writes (bindHash bound plan.hashKey).2 plan.conditions
  obtain ⟨hkey, hfilter⟩ :=
    expressions_binds (Atom.forall₂_writes_extends hhash hkept') hentries
  refine ⟨hkey, hfilter, hkept.trans hkept', (hwithin.trans hwithin').mono ?_ ?_⟩
  · rw [← List.flatMap_append]
    exact fun _ hmem =>
      List.mem_append.mpr (mem_usedBy_expressions (Or.inl rfl) plan _ hmem)
  · rw [← List.flatMap_append]
    exact fun _ hmem =>
      List.mem_append.mpr (mem_usedBy_expressions (Or.inr rfl) plan _ hmem)

theorem projectionOf_binds (bound : Placeholders) (fields : List String) :
    (projectionOf bound fields).2.NamesAll (usedBy '#' (projectionOf bound fields).1) fields ∧
      usedBy ':' (projectionOf bound fields).1 = [] ∧
      bound.Extends (projectionOf bound fields).2 ∧
      bound.Within (projectionOf bound fields).2 (usedBy '#' (projectionOf bound fields).1) [] := by
  cases fields with
  | nil => exact ⟨.nil, rfl, .refl bound, .refl bound⟩
  | cons field fields =>
      obtain ⟨hnames, hkept⟩ := bound.nameAll_namesAll (field :: fields)
      have hwithin := bound.nameAll_within (field :: fields)
      have hcomma {mark : Char} (hmark : IsMark mark) : Separates mark "," :=
        hmark.separates rfl (by decide) (by decide) (by decide)
      have hprojection : projectionOf bound (field :: fields) =
          (some (String.intercalate "," (bound.nameAll (field :: fields)).1),
            (bound.nameAll (field :: fields)).2) := rfl
      rw [hprojection]
      generalize bound.nameAll (field :: fields) = named at hnames hkept hwithin ⊢
      have hmarked := ((List.forall₂_and_left _ _).mp hnames).1
      have hname : usedBy '#' (some (String.intercalate "," named.1)) = named.1 := by
        refine ((hcomma (Or.inl rfl)).used_intercalate named.1).trans ?_
        rw [flatMap_used hmarked (by decide), if_pos rfl]
      have hvalue : usedBy ':' (some (String.intercalate "," named.1)) = [] := by
        refine ((hcomma (Or.inr rfl)).used_intercalate named.1).trans ?_
        rw [flatMap_used hmarked (by decide), if_neg (by decide)]
      rw [hname, hvalue]
      exact ⟨hnames, rfl, hkept, hwithin⟩

theorem strip_of_isSome {key filter : Option String} (projection : Option String)
    (bound : Placeholders) (hasked : key.isSome ∨ filter.isSome) :
    strip key filter projection bound = bound := by
  rw [strip, if_pos]
  rwa [Bool.or_eq_true]

theorem strip_within (key filter projection : Option String) (bound : Placeholders) :
    bound.Within (strip key filter projection bound) [] [] := by
  rw [strip]
  split
  next => exact .refl bound
  next =>
    refine ⟨fun member hmem => Or.inl ?_, fun member hmem => absurd hmem List.not_mem_nil⟩
    simp only at hmem
    split at hmem
    next => exact hmem
    next => exact absurd hmem List.not_mem_nil

theorem Binds.strip {bound : Placeholders} {key filter part : Option String}
    {conditions : List Condition} (projection : Option String)
    (hbinds : Binds bound part conditions) (hpart : part.isSome → key.isSome ∨ filter.isSome) :
    Binds (strip key filter projection bound) part conditions := by
  cases part with
  | none => exact hbinds.of_none _
  | some part =>
      rw [strip_of_isSome projection bound (hpart rfl)]
      exact hbinds

theorem strip_projection {bound : Placeholders} {projection : Option String}
    {fields : List String} (key filter : Option String)
    (hnames : bound.NamesAll (usedBy '#' projection) fields) :
    (KeyValue.strip key filter projection bound).NamesAll (usedBy '#' projection) fields := by
  cases projection with
  | none =>
      rw [List.forall₂_nil_left_iff.mp hnames]
      exact .nil
  | some projection =>
      rw [KeyValue.strip]
      split
      next => exact hnames
      next => exact hnames.imp fun _ _ hname => hname

theorem mem_names_of_namesAll {bound : Placeholders} {placeholders fields : List String}
    (hnames : bound.NamesAll placeholders fields) :
    ∀ placeholder ∈ placeholders, placeholder ∈ bound.names.map Prod.fst := by
  refine ((List.forall₂_and_left _ _).mp (hnames.imp fun _ _ hname => ⟨?_, hname⟩)).1
  refine Members.mem_names_of_get?_ne_none ?_
  rw [hname.2]
  exact Option.some_ne_none _

theorem mem_values_of_standsForAll {bound : Placeholders} {placeholders : List String}
    {items : List Json} (hstands : bound.StandsForAll placeholders items) :
    ∀ placeholder ∈ placeholders, placeholder ∈ bound.values.map Prod.fst := by
  refine ((List.forall₂_and_left _ _).mp (hstands.imp fun _ _ hstand => ⟨?_, hstand⟩)).1
  obtain ⟨-, stored, hstored, -⟩ := hstand
  refine Members.mem_names_of_get?_ne_none ?_
  rw [hstored]
  exact Option.some_ne_none _

/-- A scan that asks nothing still has a filter, which uses nothing. -/
theorem filter_of_render (plan : Plan) (table : String) (pageSize : Option UInt32)
    (extra : Option Fragment) :
    let read := render plan table pageSize extra
    let fragment := extra.getD {}
    let merged := fragment.mergeFilter (plan.parts fragment.placeholders).2
    read.filter = merged ∨ merged = none ∧ read.filter = some "attribute_not_exists(dummy)" := by
  intro read fragment merged
  have hread : read.filter =
      if merged.isNone && plan.lookup == .scan then some unconstrained else merged := rfl
  rw [hread]
  split
  next hnone => exact Or.inr ⟨Option.isNone_iff_eq_none.mp (Bool.and_eq_true_iff.mp hnone).1, rfl⟩
  next => exact Or.inl rfl

theorem usedBy_unconstrained (hmark : IsMark mark) :
    usedBy mark (some "attribute_not_exists(dummy)") = [] :=
  usedIn_eq_nil (hmark.notMem (by decide) (by decide))

/-- **What a read binds.** The expressions made from a plan have placeholders for the paths and the
values of its conditions, in their order, and the projection those for its attributes; each is bound
to what it stands for. What is bound besides is the caller's, and that is kept wherever an
expression is sent. Without a caller a read binds the placeholders it uses, and no others. -/
theorem render_binds (plan : Plan) (table : String) (pageSize : Option UInt32)
    (extra : Option Fragment) :
    let fragment := extra.getD {}
    let read := render plan table pageSize extra
    let parts := plan.parts fragment.placeholders
    let bound : Placeholders := ⟨read.names, read.values⟩
    let names := usedBy '#' read.keyCondition ++ usedBy '#' read.filter ++
      usedBy '#' read.projection
    let values := usedBy ':' read.keyCondition ++ usedBy ':' read.filter
    (read.keyCondition = fragment.mergeKeyCondition parts.1 ∧
      (read.filter = fragment.mergeFilter parts.2 ∨
        fragment.mergeFilter parts.2 = none ∧
          read.filter = some "attribute_not_exists(dummy)")) ∧
    (Binds bound parts.1 plan.keyAsks ∧ Binds bound parts.2 plan.filterAsks) ∧
    (bound.NamesAll (usedBy '#' read.projection) fragment.projection ∧
      usedBy ':' read.projection = []) ∧
    fragment.placeholders.Within bound names values ∧
    ((fragment.mergeKeyCondition parts.1).isSome ∨ (fragment.mergeFilter parts.2).isSome →
      fragment.placeholders.Extends bound) ∧
    (extra = none → ∀ placeholder,
      (placeholder ∈ read.names.map Prod.fst ↔ placeholder ∈ names) ∧
      (placeholder ∈ read.values.map Prod.fst ↔ placeholder ∈ values)) := by
  intro fragment read parts bound names values
  obtain ⟨hkey, hfilter, hkept, hwithin⟩ := parts_binds plan fragment.placeholders
  obtain ⟨hprojection, hfree, hkept', hwithin'⟩ := projectionOf_binds
    (bindConditions (bindHash fragment.placeholders plan.hashKey).2 plan.conditions).2
    fragment.projection
  have hsent := filter_of_render plan table pageSize extra
  have hkey : Binds bound parts.1 plan.keyAsks := (hkey.extends hkept').strip _ fun hsome =>
    Or.inl (isSome_prepend fragment.keyConditions "and" hsome)
  have hfilter : Binds bound parts.2 plan.filterAsks :=
    (hfilter.extends hkept').strip _ fun hsome =>
      Or.inr (isSome_prepend fragment.filters fragment.junction.keyword hsome)
  have hprojection : bound.NamesAll (usedBy '#' read.projection) fragment.projection :=
    strip_projection _ _ hprojection
  -- What the parts use is sent with them.
  have hused {mark : Char} (hmark : IsMark mark) :
      usedBy mark parts.1 ++ usedBy mark parts.2 ⊆
        usedBy mark read.keyCondition ++ usedBy mark read.filter := by
    intro placeholder hmem
    rcases List.mem_append.mp hmem with h | h
    · exact List.mem_append_left _ (mem_usedBy_prepend hmark fragment.keyConditions "and" h)
    · have hmerged := mem_usedBy_prepend hmark fragment.filters fragment.junction.keyword h
      rcases hsent with hread | ⟨hnone, -⟩
      · rw [hread]
        exact List.mem_append_right _ hmerged
      · rw [Fragment.mergeFilter] at hnone
        rw [hnone] at hmerged
        exact absurd hmerged List.not_mem_nil
  have hbound : fragment.placeholders.Within bound names values := by
    have hall : fragment.placeholders.Within bound _ _ :=
      (hwithin.trans hwithin').trans (strip_within ..)
    simp only [List.append_nil] at hall
    refine hall.mono (List.append_subset.mpr ⟨?_, List.subset_append_right _ _⟩)
      (hused (Or.inr rfl))
    exact fun _ hmem => List.mem_append_left _ (hused (Or.inl rfl) hmem)
  refine ⟨⟨rfl, hsent⟩, ⟨hkey, hfilter⟩, ⟨hprojection, hfree⟩, hbound, fun hasked => ?_, ?_⟩
  · have hstrip : bound = _ := strip_of_isSome _ _ hasked
    rw [hstrip]
    exact hkept.trans hkept'
  · rintro rfl placeholder
    have hread {mark : Char} (hmark : IsMark mark)
        (hmem : placeholder ∈ usedBy mark read.keyCondition ++ usedBy mark read.filter) :
        placeholder ∈ usedBy mark parts.1 ∨ placeholder ∈ usedBy mark parts.2 := by
      rcases List.mem_append.mp hmem with h | h
      · exact Or.inl h
      · rcases hsent with hread | ⟨-, hread⟩
        · rw [hread] at h
          exact Or.inr h
        · rw [hread, usedBy_unconstrained hmark] at h
          exact absurd h List.not_mem_nil
    refine ⟨⟨fun hmem => ?_, fun hmem => ?_⟩, ⟨fun hmem => ?_, fun hmem => ?_⟩⟩
    · obtain ⟨member, hmember, rfl⟩ := List.mem_map.mp hmem
      exact (hbound.names member hmember).resolve_left List.not_mem_nil
    · rcases List.mem_append.mp hmem with h | h
      · exact (hread (Or.inl rfl) h).elim (mem_names_of_namesAll hkey.names placeholder)
          (mem_names_of_namesAll hfilter.names placeholder)
      · exact mem_names_of_namesAll hprojection placeholder h
    · obtain ⟨member, hmember, rfl⟩ := List.mem_map.mp hmem
      exact (hbound.values member hmember).resolve_left List.not_mem_nil
    · exact (hread (Or.inr rfl) hmem).elim (mem_values_of_standsForAll hkey.values placeholder)
        (mem_values_of_standsForAll hfilter.values placeholder)

end KeyValue

end SchemaQuery
