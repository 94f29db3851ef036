import SchemaQuery.Proofs.Json.Equality
import SchemaQuery.Proofs.Json.Records
import SchemaQuery.Store.ChangeSet

/-!
# Rows and their keys

The key of a row is what it holds in some fields. Two rows have the same key if their values of
these fields are equal, so a key that is taken from a row addresses exactly the rows that agree with
it. Rows are keyed by fields if each has all of them and no two agree: this is what a row that is
put in the place of the one with its key, and a row that is taken away, leave true. Which keys there
are is changed by no more than the key of the row that is put or taken away.
-/

namespace SchemaQuery

instance partialEquivBEqOption {α : Type} [BEq α] [PartialEquivBEq α] :
    PartialEquivBEq (Option α) where
  symm {a b} h := by
    cases a <;> cases b <;> simp_all [BEq.symm]
  trans {a b c} hab hbc := by
    cases a <;> cases b <;> cases c <;> simp_all
    exact BEq.trans hab hbc

namespace Record

variable {fields : List String}

/-! ### Agreement -/

/-- Two rows have the same values of some fields. -/
def AgreesOn (fields : List String) (a b : Record) : Prop :=
  ∀ field ∈ fields, (a.get? field == b.get? field) = true

instance (fields : List String) (a b : Record) : Decidable (a.AgreesOn fields b) :=
  inferInstanceAs (Decidable (∀ field ∈ fields, (a.get? field == b.get? field) = true))

/-- A row has a value, be it `null`, of each of some fields. -/
def HasAll (fields : List String) (row : Record) : Prop :=
  ∀ field ∈ fields, (row.get? field).isSome = true

instance (fields : List String) (row : Record) : Decidable (row.HasAll fields) :=
  inferInstanceAs (Decidable (∀ field ∈ fields, (row.get? field).isSome = true))

theorem AgreesOn.of_eq {a b : Record} (hsame : ∀ field ∈ fields, a.get? field = b.get? field) :
    a.AgreesOn fields b := by
  intro field hfield
  rw [hsame field hfield]
  exact beq_self_eq_true (b.get? field)

theorem AgreesOn.refl (row : Record) : row.AgreesOn fields row := .of_eq fun _ _ => rfl

theorem AgreesOn.symm {a b : Record} (hagree : a.AgreesOn fields b) : b.AgreesOn fields a :=
  fun field hfield => BEq.symm (hagree field hfield)

theorem AgreesOn.trans {a b c : Record} (hab : a.AgreesOn fields b) (hbc : b.AgreesOn fields c) :
    a.AgreesOn fields c :=
  fun field hfield => BEq.trans (hab field hfield) (hbc field hfield)

theorem AgreesOn.hasAll {a b : Record} (hagree : a.AgreesOn fields b) (hall : a.HasAll fields) :
    b.HasAll fields := by
  intro field hfield
  have hsame := hagree field hfield
  obtain ⟨value, hvalue⟩ := Option.isSome_iff_exists.mp (hall field hfield)
  cases hother : b.get? field with
  | some other => rfl
  | none =>
      rw [hvalue, hother] at hsame
      cases hsame

/-- What is kept of a row has the row's values, if each name comes once. -/
theorem get?_filter {row : Record} (hnodup : (row.map Prod.fst).Nodup)
    (keep : String × Json → Bool) (field : String) :
    Members.get? (row.filter keep) field =
      (row.get? field).filter fun value => keep (field, value) := by
  induction row with
  | nil => rfl
  | cons member rest ih =>
      obtain ⟨name, value⟩ := member
      obtain ⟨hnew, hrest⟩ := List.nodup_cons.mp hnodup
      rw [List.filter_cons, Members.get?]
      by_cases hname : name = field
      · have hnone : Members.get? rest field = none :=
          Decidable.of_not_not fun hne => hnew (hname ▸ Members.mem_names_of_get?_ne_none hne)
        subst hname
        rw [if_pos rfl]
        split
        next hkeep => rw [Members.get?, if_pos rfl, Option.filter_some, if_pos hkeep]
        next hdrop => rw [ih hrest, hnone, Option.filter_some, if_neg hdrop, Option.filter_none]
      · rw [if_neg hname]
        split
        next => rw [Members.get?, if_neg hname, ih hrest]
        next => exact ih hrest

theorem isSome_get?_of_filter {row : Record} {keep : String × Json → Bool} {field : String}
    (hsome : (Members.get? (row.filter keep) field).isSome) : (row.get? field).isSome := by
  induction row with
  | nil => exact hsome
  | cons member rest ih =>
      obtain ⟨name, value⟩ := member
      rw [Members.get?]
      by_cases hname : name = field
      · rw [if_pos hname]
        rfl
      · rw [if_neg hname]
        apply ih
        rw [List.filter_cons] at hsome
        split at hsome
        next => rwa [Members.get?, if_neg hname] at hsome
        next => exact hsome

/-- What is kept of a field whose name comes once is its value. -/
theorem get?_filter_of_isSome {row : Record} {keep : String × Json → Bool} {field : String}
    (hnodup : (row.map Prod.fst).Nodup)
    (hsome : (Members.get? (row.filter keep) field).isSome) :
    Members.get? (row.filter keep) field = row.get? field := by
  rw [get?_filter hnodup] at hsome ⊢
  cases hvalue : row.get? field with
  | none => rfl
  | some value =>
      rw [hvalue, Option.isSome_filter] at hsome
      exact Option.filter_some_pos hsome

/-! ### Keys taken from a row -/

/-- A key addresses the rows that agree with a row; if there are no fields, none. -/
def IsKeyOf (fields : List String) (row key : Record) : Prop :=
  ∀ other : Record, other.hasKey key = true ↔ fields ≠ [] ∧ other.AgreesOn fields row

theorem IsKeyOf.of_agreesOn {row other key : Record} (hkey : IsKeyOf fields row key)
    (hagree : row.AgreesOn fields other) : IsKeyOf fields other key := fun third =>
  (hkey third).trans (and_congr_right' ⟨(·.trans hagree), (·.trans hagree.symm)⟩)

/-- A key that holds the row's values of the fields and nothing else. -/
theorem isKeyOf_of_mem_iff {row key : Record} (hall : row.HasAll fields)
    (hmem : ∀ member, member ∈ key ↔
      member.1 ∈ fields ∧ row.get? member.1 = some member.2) : IsKeyOf fields row key := by
  intro other
  rw [hasKey_iff]
  constructor
  · rintro ⟨hne, hvalues⟩
    obtain ⟨member, hmember⟩ := List.exists_mem_of_ne_nil _ hne
    refine ⟨List.ne_nil_of_mem ((hmem member).mp hmember).1, fun field hfield => ?_⟩
    obtain ⟨value, hvalue⟩ := Option.isSome_iff_exists.mp (hall field hfield)
    rw [hvalue]
    exact hvalues (field, value) ((hmem _).mpr ⟨hfield, hvalue⟩)
  · rintro ⟨hne, hagree⟩
    obtain ⟨field, hfield⟩ := List.exists_mem_of_ne_nil _ hne
    obtain ⟨value, hvalue⟩ := Option.isSome_iff_exists.mp (hall field hfield)
    refine ⟨List.ne_nil_of_mem ((hmem (field, value)).mpr ⟨hfield, hvalue⟩),
      fun member hmember => ?_⟩
    obtain ⟨hname, hown⟩ := (hmem member).mp hmember
    exact hown ▸ hagree member.1 hname

theorem isKeyOf_pick {row : Record} {given : List String} (hall : row.HasAll fields)
    (hgiven : ∀ field, field ∈ given ↔ field ∈ fields) : IsKeyOf fields row (row.pick given) :=
  isKeyOf_of_mem_iff hall fun member => by rw [mem_pick_iff, hgiven]

theorem keyOf_cons (row : Record) (field : String) (rest : List String) :
    (∃ value key, row.get? field = some value ∧ row.keyOf rest = .ok key ∧
      row.keyOf (field :: rest) = .ok (Members.set key field value)) ∨
    ∃ error, row.keyOf (field :: rest) = .error error := by
  rw [keyOf]
  cases hvalue : row.get? field with
  | none => exact Or.inr ⟨_, rfl⟩
  | some value =>
      cases hkey : row.keyOf rest with
      | error error => exact Or.inr ⟨error, rfl⟩
      | ok key => exact Or.inl ⟨value, key, rfl, rfl, rfl⟩

/-- A key is taken of the values of its fields. -/
theorem keyOf_congr {row other : Record}
    (hsame : ∀ field ∈ fields, row.get? field = other.get? field) :
    row.keyOf fields = other.keyOf fields := by
  induction fields with
  | nil => rfl
  | cons field rest ih =>
      obtain ⟨hfield, hrest⟩ := List.forall_mem_cons.mp hsame
      rw [keyOf, keyOf, hfield, ih hrest]

/-- A key is taken, or the first field without a value is missed. -/
theorem keyOf_cases (row : Record) (fields : List String) :
    (∃ key, row.keyOf fields = .ok key ∧
      fields.find? (fun field => (row.get? field).isNone) = none) ∨
    ∃ field, row.keyOf fields = .error (.missingKeyValue field) ∧
      fields.find? (fun field => (row.get? field).isNone) = some field := by
  induction fields with
  | nil => exact Or.inl ⟨[], rfl, rfl⟩
  | cons first rest ih =>
      rw [Record.keyOf, List.find?_cons]
      cases hvalue : row.get? first with
      | none => exact Or.inr ⟨first, rfl, rfl⟩
      | some value =>
          rcases ih with ⟨key, hkey, hnone⟩ | ⟨field, herror, hsome⟩
          · exact Or.inl ⟨_, by rw [hkey], hnone⟩
          · exact Or.inr ⟨field, by rw [herror], hsome⟩

/-- A key has the row's values of the fields, all of which the row has. -/
theorem get?_keyOf {row key : Record} (hkey : row.keyOf fields = .ok key) :
    row.HasAll fields ∧ ∀ field ∈ fields, Members.get? key field = row.get? field := by
  induction fields generalizing key with
  | nil => exact ⟨fun _ h => absurd h List.not_mem_nil, fun _ h => absurd h List.not_mem_nil⟩
  | cons first rest ih =>
      obtain ⟨value, inner, hvalue, hinner, hset⟩ | ⟨error, herror⟩ := row.keyOf_cons first rest
      · obtain rfl := Except.ok.inj (hset.symm.trans hkey)
        obtain ⟨hall, hsame⟩ := ih hinner
        refine ⟨List.forall_mem_cons.mpr ⟨hvalue ▸ rfl, hall⟩, fun field hfield => ?_⟩
        by_cases hfirst : first = field
        · rw [← hfirst, Members.get?_set_self, hvalue]
        · rw [Members.get?_set_of_ne _ _ hfirst]
          exact hsame field ((List.mem_cons.mp hfield).resolve_left (Ne.symm hfirst))
      · cases herror.symm.trans hkey

theorem mem_keyOf {row key : Record} (hkey : row.keyOf fields = .ok key) {member : String × Json}
    (hmember : member ∈ key) : member.1 ∈ fields ∧ row.get? member.1 = some member.2 := by
  induction fields generalizing key with
  | nil =>
      obtain rfl := Except.ok.inj hkey
      exact absurd hmember List.not_mem_nil
  | cons first rest ih =>
      obtain ⟨value, inner, hvalue, hinner, hset⟩ | ⟨error, herror⟩ := row.keyOf_cons first rest
      · obtain rfl := Except.ok.inj (hset.symm.trans hkey)
        rcases Members.mem_set hmember with rfl | hmem
        · exact ⟨List.mem_cons_self, hvalue⟩
        · exact (ih hinner hmem).imp_left (List.mem_cons_of_mem first)
      · cases herror.symm.trans hkey

theorem isKeyOf_keyOf {row key : Record} (hkey : row.keyOf fields = .ok key) :
    IsKeyOf fields row key := by
  obtain ⟨hall, hsame⟩ := get?_keyOf hkey
  refine isKeyOf_of_mem_iff hall fun member => ⟨mem_keyOf hkey, fun ⟨hfield, hvalue⟩ => ?_⟩
  exact Members.mem_of_get?_eq_some ((hsame _ hfield).trans hvalue)

/-! ### Putting a row in the place of the one with its key -/

section Put

variable {rows : List Record} {key row other : Record}

theorem mem_put (hmem : other ∈ put key row rows) : other = row ∨ other ∈ rows := by
  induction rows with
  | nil => exact Or.inl (List.mem_singleton.mp hmem)
  | cons old rest ih =>
      rw [put] at hmem
      split at hmem
      next => exact (List.mem_cons.mp hmem).imp_right (List.mem_cons_of_mem old)
      next =>
        rcases List.mem_cons.mp hmem with rfl | hrest
        · exact Or.inr List.mem_cons_self
        · exact (ih hrest).imp_right (List.mem_cons_of_mem old)

theorem self_mem_put : row ∈ put key row rows := by
  induction rows with
  | nil => exact List.mem_cons_self
  | cons old rest ih =>
      rw [put]
      split
      next => exact List.mem_cons_self
      next => exact List.mem_cons_of_mem old ih

/-- Only a row with the key gives way. -/
theorem mem_put_of_mem (hmem : other ∈ rows) :
    other ∈ put key row rows ∨ other.hasKey key = true := by
  induction rows with
  | nil => exact absurd hmem List.not_mem_nil
  | cons old rest ih =>
      rw [put]
      split
      next hold =>
        rcases List.mem_cons.mp hmem with rfl | hrest
        · exact Or.inr hold
        · exact Or.inl (List.mem_cons_of_mem row hrest)
      next =>
        rcases List.mem_cons.mp hmem with rfl | hrest
        · exact Or.inl List.mem_cons_self
        · exact (ih hrest).imp_left (List.mem_cons_of_mem old)

theorem put_of_find?_eq_none (hfind : rows.find? (·.hasKey key) = none) :
    put key row rows = rows ++ [row] := by
  induction rows with
  | nil => rfl
  | cons old rest ih =>
      obtain ⟨hold, hrest⟩ := List.forall_mem_cons.mp (List.find?_eq_none.mp hfind)
      rw [put, if_neg hold, ih (List.find?_eq_none.mpr hrest), List.cons_append]

/-- A row is put in the place of the first that has the key. -/
theorem put_append {before behind : List Record} {key old : Record}
    (hbefore : ∀ other ∈ before, other.hasKey key = false) (hold : old.hasKey key = true)
    (row : Record) : put key row (before ++ old :: behind) = before ++ row :: behind := by
  induction before with
  | nil => rw [List.nil_append, put, if_pos hold, List.nil_append]
  | cons first rest ih =>
      obtain ⟨hfirst, hrest⟩ := List.forall_mem_cons.mp hbefore
      rw [List.cons_append, put, if_neg (Bool.eq_false_iff.mp hfirst), ih hrest, List.cons_append]

/-- Of two rows that are put by one key the second counts. -/
theorem put_put (hrow : row.hasKey key = true) (other : Record) (rows : List Record) :
    put key other (put key row rows) = put key other rows := by
  induction rows with
  | nil => rw [put, put, put, if_pos hrow]
  | cons old rest ih =>
      by_cases hold : old.hasKey key = true
      · rw [put, if_pos hold, put, if_pos hrow, put, if_pos hold]
      · rw [put, if_neg hold, put, if_neg hold, ih, put, if_neg hold]

theorem find?_put (hrow : row.hasKey key = true) (rows : List Record) :
    (put key row rows).find? (·.hasKey key) = some row := by
  induction rows with
  | nil => exact List.find?_cons_of_pos (p := fun row => hasKey row key) hrow
  | cons old rest ih =>
      by_cases hold : old.hasKey key = true
      · rw [put, if_pos hold]
        exact List.find?_cons_of_pos (p := fun row => hasKey row key) hrow
      · rw [put, if_neg hold, List.find?_cons_of_neg (p := fun row => hasKey row key) hold]
        exact ih

/-- What the row put has in common with the one that gives way is as before everywhere. -/
theorem map_put {α : Type} {view : Record → α} {old : Record}
    (hfind : rows.find? (·.hasKey key) = some old) (hsame : view row = view old) :
    (put key row rows).map view = rows.map view := by
  induction rows with
  | nil => cases hfind
  | cons first rest ih =>
      rw [List.find?_cons] at hfind
      rw [put]
      cases hfirst : first.hasKey key with
      | true =>
          rw [hfirst] at hfind
          obtain rfl := Option.some.inj hfind
          rw [if_pos rfl, List.map_cons, List.map_cons, hsame]
      | false =>
          rw [hfirst] at hfind
          rw [if_neg Bool.false_ne_true, List.map_cons, List.map_cons, ih hfind]

end Put

/-! ### Rows that are told apart by their keys -/

/-- Every row has all of the fields, and no two agree on them. Where there are no fields, nothing
tells rows apart. -/
structure KeyedBy (fields : List String) (rows : List Record) : Prop where
  complete : ∀ row ∈ rows, row.HasAll fields
  distinct : fields ≠ [] → rows.Pairwise fun a b => ¬ a.AgreesOn fields b

instance (fields : List String) (rows : List Record) : Decidable (KeyedBy fields rows) :=
  decidable_of_iff ((∀ row ∈ rows, row.HasAll fields) ∧
      (fields ≠ [] → rows.Pairwise fun a b => ¬ a.AgreesOn fields b))
    ⟨fun h => ⟨h.1, h.2⟩, fun h => ⟨h.complete, h.distinct⟩⟩

section KeyedBy

variable {rows : List Record} {key row : Record}

theorem keyedBy_nil (fields : List String) : KeyedBy fields [] :=
  ⟨fun _ h => absurd h List.not_mem_nil, fun _ => .nil⟩

theorem distinct_put (hdistinct : rows.Pairwise fun a b => ¬ a.AgreesOn fields b)
    (hne : fields ≠ []) (hkey : IsKeyOf fields row key) :
    (put key row rows).Pairwise fun a b => ¬ a.AgreesOn fields b := by
  induction rows with
  | nil => exact List.pairwise_singleton _ _
  | cons old rest ih =>
      obtain ⟨hold, hrest⟩ := List.pairwise_cons.mp hdistinct
      rw [put]
      split
      next hgives =>
        obtain ⟨-, hagree⟩ := (hkey old).mp hgives
        exact List.pairwise_cons.mpr
          ⟨fun other hother hsame => hold other hother (hagree.trans hsame), hrest⟩
      next hstays =>
        refine List.pairwise_cons.mpr ⟨fun other hother hsame => ?_, ih hrest⟩
        rcases mem_put hother with rfl | hmem
        · exact hstays ((hkey old).mpr ⟨hne, hsame⟩)
        · exact hold other hmem hsame

theorem KeyedBy.put (hrows : KeyedBy fields rows) (hkey : IsKeyOf fields row key)
    (hall : row.HasAll fields) : KeyedBy fields (put key row rows) where
  complete other hother := by
    rcases mem_put hother with rfl | hmem
    · exact hall
    · exact hrows.complete other hmem
  distinct hne := distinct_put (hrows.distinct hne) hne hkey

theorem KeyedBy.sublist {fewer : List Record} (hrows : KeyedBy fields rows)
    (hfewer : fewer.Sublist rows) : KeyedBy fields fewer :=
  ⟨fun row hrow => hrows.complete row (hfewer.subset hrow),
    fun hne => (hrows.distinct hne).sublist hfewer⟩

/-- No row has the key that is picked of another. -/
theorem KeyedBy.pairwise_hasKey (hrows : KeyedBy fields rows) :
    rows.Pairwise fun a b => b.hasKey (a.pick fields) = false := by
  by_cases hne : fields = []
  · subst hne
    exact List.pairwise_of_forall fun _ _ => rfl
  · refine (hrows.distinct hne).imp_of_mem fun {a b} ha _ hdiffer => ?_
    refine Bool.eq_false_iff.mpr fun hsame => hdiffer ?_
    exact (((isKeyOf_pick (hrows.complete a ha) fun _ => Iff.rfl) b).mp hsame).2.symm

end KeyedBy

/-! ### How the keys of rows change -/

/-- A row has the key of one of others. -/
def HasKeyAmong (fields : List String) (others : List Record) (row : Record) : Prop :=
  ∃ other ∈ others, row.AgreesOn fields other

/-- The keys are those there were, with some of those added and without some of those removed. -/
structure KeysMove (fields : List String) (added removed old new : List Record) : Prop where
  of_new : ∀ row ∈ new, row.HasKeyAmong fields old ∨ row.HasKeyAmong fields added
  of_old : ∀ row ∈ old, row.HasKeyAmong fields new ∨ row.HasKeyAmong fields removed

/-- Rows that are keyed stay so, and their keys change by no more than those added and removed. -/
def KeepsKeyed (fields : List String) (added removed old new : List Record) : Prop :=
  KeyedBy fields old → KeyedBy fields new ∧ KeysMove fields added removed old new

instance (fields : List String) (others : List Record) (row : Record) :
    Decidable (row.HasKeyAmong fields others) :=
  inferInstanceAs (Decidable (∃ other ∈ others, row.AgreesOn fields other))

instance (fields : List String) (added removed old new : List Record) :
    Decidable (KeysMove fields added removed old new) :=
  decidable_of_iff ((∀ row ∈ new, row.HasKeyAmong fields old ∨ row.HasKeyAmong fields added) ∧
      ∀ row ∈ old, row.HasKeyAmong fields new ∨ row.HasKeyAmong fields removed)
    ⟨fun h => ⟨h.1, h.2⟩, fun h => ⟨h.of_new, h.of_old⟩⟩

theorem HasKeyAmong.of_mem {others : List Record} {row : Record} (hrow : row ∈ others) :
    row.HasKeyAmong fields others := ⟨row, hrow, .refl row⟩

section KeysMove

variable {added removed old mid new : List Record}

theorem KeysMove.refl : KeysMove fields added removed old old :=
  ⟨fun _ hrow => Or.inl (.of_mem hrow), fun _ hrow => Or.inl (.of_mem hrow)⟩

theorem KeysMove.trans (hfirst : KeysMove fields added removed old mid)
    (hsecond : KeysMove fields added removed mid new) : KeysMove fields added removed old new where
  of_new row hrow := by
    rcases hsecond.of_new row hrow with ⟨other, hother, hagree⟩ | hadded
    · refine (hfirst.of_new other hother).imp ?_ ?_
      · exact fun ⟨third, hthird, hsame⟩ => ⟨third, hthird, hagree.trans hsame⟩
      · exact fun ⟨third, hthird, hsame⟩ => ⟨third, hthird, hagree.trans hsame⟩
    · exact Or.inr hadded
  of_old row hrow := by
    rcases hfirst.of_old row hrow with ⟨other, hother, hagree⟩ | hremoved
    · refine (hsecond.of_old other hother).imp ?_ ?_
      · exact fun ⟨third, hthird, hsame⟩ => ⟨third, hthird, hagree.trans hsame⟩
      · exact fun ⟨third, hthird, hsame⟩ => ⟨third, hthird, hagree.trans hsame⟩
    · exact Or.inr hremoved

theorem KeysMove.mono {added' removed' : List Record}
    (hmove : KeysMove fields added removed old new)
    (hadded : ∀ row ∈ added, row.HasKeyAmong fields added')
    (hremoved : ∀ row ∈ removed, row.HasKeyAmong fields removed') :
    KeysMove fields added' removed' old new where
  of_new row hrow := (hmove.of_new row hrow).imp_right fun ⟨other, hother, hagree⟩ =>
    (hadded other hother).imp fun _ ⟨hmem, hsame⟩ => ⟨hmem, hagree.trans hsame⟩
  of_old row hrow := (hmove.of_old row hrow).imp_right fun ⟨other, hother, hagree⟩ =>
    (hremoved other hother).imp fun _ ⟨hmem, hsame⟩ => ⟨hmem, hagree.trans hsame⟩

theorem KeysMove.put {row key : Record} (hkey : IsKeyOf fields row key)
    (hadded : row.HasKeyAmong fields added) :
    KeysMove fields added removed old (put key row old) where
  of_new other hother := by
    rcases mem_put hother with rfl | hmem
    · exact Or.inr hadded
    · exact Or.inl (.of_mem hmem)
  of_old other hother := by
    refine Or.inl ?_
    rcases mem_put_of_mem hother with hmem | hgives
    · exact .of_mem hmem
    · exact ⟨row, self_mem_put, ((hkey other).mp hgives).2⟩

theorem KeysMove.eraseP {key : Record}
    (hremoved : ∀ row ∈ old, row.hasKey key = true → row.HasKeyAmong fields removed) :
    KeysMove fields added removed old (old.eraseP (·.hasKey key)) where
  of_new row hrow := Or.inl (.of_mem (List.mem_of_mem_eraseP hrow))
  of_old row hrow := by
    by_cases hgoes : row.hasKey key = true
    · exact Or.inr (hremoved row hrow hgoes)
    · have hstays := List.mem_eraseP_of_neg (p := fun row => hasKey row key) (l := old) hgoes
      exact Or.inl (.of_mem (hstays.mpr hrow))

end KeysMove

section KeepsKeyed

variable {added removed old mid new : List Record} {row key : Record}

theorem KeepsKeyed.refl : KeepsKeyed fields added removed old old := fun hold => ⟨hold, .refl⟩

theorem KeepsKeyed.trans (hfirst : KeepsKeyed fields added removed old mid)
    (hsecond : KeepsKeyed fields added removed mid new) :
    KeepsKeyed fields added removed old new := by
  intro hold
  obtain ⟨hmid, hbefore⟩ := hfirst hold
  obtain ⟨hnew, hafter⟩ := hsecond hmid
  exact ⟨hnew, hbefore.trans hafter⟩

theorem KeepsKeyed.put (hkey : IsKeyOf fields row key) (hall : row.HasAll fields)
    (hadded : row.HasKeyAmong fields added) :
    KeepsKeyed fields added removed old (put key row old) :=
  fun hold => ⟨hold.put hkey hall, .put hkey hadded⟩

theorem KeepsKeyed.eraseP (hkey : IsKeyOf fields key key) (hremoved : key ∈ removed) :
    KeepsKeyed fields added removed old (old.eraseP (·.hasKey key)) :=
  fun hold => ⟨hold.sublist List.eraseP_sublist,
    .eraseP fun other _ hother => ⟨key, hremoved, ((hkey other).mp hother).2⟩⟩

end KeepsKeyed

/-- Rows that are keyed stay apart, and their keys change by no more than those added and removed.
They need not have all fields any more. -/
def KeepsApart (fields : List String) (added removed old new : List Record) : Prop :=
  KeyedBy fields old →
    (fields ≠ [] → new.Pairwise fun a b => ¬ a.AgreesOn fields b) ∧
      KeysMove fields added removed old new

section KeepsApart

variable {added removed old new : List Record}

theorem KeepsKeyed.keepsApart (hkeeps : KeepsKeyed fields added removed old new) :
    KeepsApart fields added removed old new := fun hold => (hkeeps hold).imp_left KeyedBy.distinct

/-- A row is added whose values of the fields no row has, be they all of them or not. -/
theorem KeepsApart.append {row : Record} {given : List String}
    (hgiven : ∀ field, field ∈ given ↔ field ∈ fields)
    (hnone : old.find? (·.hasKey (row.pick given)) = none) (hadded : row ∈ added) :
    KeepsApart fields added removed old (old ++ [row]) := by
  intro hold
  refine ⟨fun hne => List.pairwise_append.mpr ⟨hold.distinct hne, List.pairwise_singleton _ _, ?_⟩,
    fun other hother => ?_, fun other hother => Or.inl (.of_mem (List.mem_append_left _ hother))⟩
  · rintro other hother _ hrow hagree
    obtain rfl := List.mem_singleton.mp hrow
    have hall := hagree.hasAll (hold.complete other hother)
    have hkey := (isKeyOf_pick hall hgiven other).mpr ⟨hne, hagree⟩
    exact List.find?_eq_none.mp hnone other hother hkey
  · rcases List.mem_append.mp hother with hmem | hrow
    · exact Or.inl (.of_mem hmem)
    · exact Or.inr (.of_mem (List.mem_singleton.mp hrow ▸ hadded))

/-- Rows stay keyed if all that is added has all fields: a key that a row moves to is the key of a
row that had them. -/
theorem KeepsApart.keyedBy (hkeeps : KeepsApart fields added removed old new)
    (hadded : ∀ row ∈ added, row.HasAll fields) (hold : KeyedBy fields old) : KeyedBy fields new := by
  obtain ⟨hdistinct, hmove⟩ := hkeeps hold
  refine ⟨fun row hrow => ?_, hdistinct⟩
  rcases hmove.of_new row hrow with ⟨other, hother, hagree⟩ | ⟨other, hother, hagree⟩
  · exact hagree.symm.hasAll (hold.complete other hother)
  · exact hagree.symm.hasAll (hadded other hother)

end KeepsApart

/-! ### Changing the row with a key -/

/-- The values of some fields. -/
def valuesOf (fields : List String) (row : Record) : List (Option Json) := fields.map row.get?

/-- Row by row the values of the fields are as before, but there may be one more row for the key. -/
def SameKeys (fields : List String) (key : Record) (old new : List Record) : Prop :=
  ∃ more, (more = [] ∨ more = [key]) ∧
    new.map (valuesOf fields) = (old ++ more).map (valuesOf fields)

section Change

variable {rows : List Record} {row key : Record}

theorem SameKeys.refl : SameKeys fields key rows rows :=
  ⟨[], Or.inl rfl, by rw [List.append_nil]⟩

/-- A row that agrees with the one that has the key, or with the key itself if there is none. -/
theorem sameKeys_put (hsame : ∀ field ∈ fields, row.get? field =
      ((rows.find? (·.hasKey key)).getD key).get? field) :
    SameKeys fields key rows (put key row rows) := by
  have hvalues : valuesOf fields row = valuesOf fields ((rows.find? (·.hasKey key)).getD key) :=
    List.map_congr_left hsame
  cases hfound : rows.find? (·.hasKey key) with
  | some old =>
      rw [hfound] at hvalues
      exact ⟨[], Or.inl rfl, by rw [map_put hfound hvalues, List.append_nil]⟩
  | none =>
      rw [hfound] at hvalues
      refine ⟨[key], Or.inr rfl, ?_⟩
      rw [put_of_find?_eq_none hfound, List.map_append, List.map_append, List.map_singleton,
        List.map_singleton, hvalues]
      rfl

/-- The row with a key, or the key if there is none, agrees with the key. -/
theorem KeyedBy.getD_find? (hrows : KeyedBy fields rows) (hkey : IsKeyOf fields key key)
    (hall : key.HasAll fields) :
    ((rows.find? (·.hasKey key)).getD key).AgreesOn fields key ∧
      ((rows.find? (·.hasKey key)).getD key).HasAll fields := by
  cases hfound : rows.find? (·.hasKey key) with
  | some old =>
      have hhas := List.find?_some (p := fun row => hasKey row key) hfound
      exact ⟨((hkey old).mp hhas).2, hrows.complete old (List.mem_of_find?_eq_some hfound)⟩
  | none => exact ⟨.refl key, hall⟩

theorem keepsKeyed_put {added removed : List Record} (hkey : IsKeyOf fields key key)
    (hall : key.HasAll fields) (hadded : key ∈ added)
    (hsame : ∀ field ∈ fields, row.get? field =
      ((rows.find? (·.hasKey key)).getD key).get? field) :
    KeepsKeyed fields added removed rows (put key row rows) := by
  intro hrows
  obtain ⟨hstart, hcomplete⟩ := hrows.getD_find? hkey hall
  have hagree : row.AgreesOn fields key := (AgreesOn.of_eq hsame).trans hstart
  have hrow : row.HasAll fields := fun field hfield =>
    (congrArg Option.isSome (hsame field hfield)).trans (hcomplete field hfield)
  exact KeepsKeyed.put (hkey.of_agreesOn hagree.symm) hrow ⟨key, hadded, hagree⟩ hrows

end Change

end Record

end SchemaQuery
