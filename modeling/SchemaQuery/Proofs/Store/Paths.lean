import SchemaQuery.Proofs.Json.Members
import SchemaQuery.Store.Values

/-!
# Values at paths of a row

A value that is set at a path is found there, and what was set there before is forgotten. Of the
values at other paths only those on the way to it and behind it change, so at the top of the row the
one field that the path begins with.
-/

namespace SchemaQuery.Record

/-! ### Reading -/

theorem foldl_bind_none (path : List String) :
    path.foldl (fun value name => value.bind (Json.get? · name)) none = (none : Option Json) := by
  induction path with
  | nil => rfl
  | cons _ _ ih => exact ih

/-- Further than one field a path leads through objects only. -/
theorem getPath?_cons_cons (row : Record) (field next : String) (path : List String) :
    row.getPath? (field :: next :: path) =
      match row.get? field with
      | some (.object members) => getPath? members (next :: path)
      | _ => none := by
  rw [getPath?, List.foldl_cons]
  cases row.get? field with
  | none => exact foldl_bind_none path
  | some value =>
      cases value with
      | object members => rfl
      | null | bool | number | string | array => exact foldl_bind_none path

/-- What is found at a path is found in the field that it begins with. -/
theorem getPath?_congr {row other : Record} {path : List String}
    (hsame : ∀ field, path.head? = some field → row.get? field = other.get? field) :
    row.getPath? path = other.getPath? path := by
  cases path with
  | nil => rfl
  | cons field path => rw [getPath?, getPath?, hsame field rfl]

/-! ### Setting -/

/-- What a path goes on in behind its first field: the object there, or a new one if there is
nothing. -/
def inner? (row : Record) (field : String) : Option Record :=
  match row.get? field with
  | none => some []
  | some (.object members) => some members
  | some _ => none

/-- The walk goes on in what stands at the first field, or stops there. -/
theorem assign_cons_cons (row : Record) (field next : String) (path : List String) (value : Json) :
    row.assign (field :: next :: path) value =
      match row.inner? field with
      | some members =>
          ((assign members (next :: path) value).1,
            Members.set row field (.object (assign members (next :: path) value).2))
      | none => (.error (.notAMap field), row) := by
  rw [assign, inner?, Members.contains]
  cases hget : Members.get? row field with
  | none => simp only [Option.isSome_none, Bool.false_eq_true, if_false, Members.get?_set_self,
      Members.set_set]
  | some held =>
      simp only [Option.isSome_some, if_true, hget]
      cases held <;> rfl

theorem setPath_cons_cons (row : Record) (field next : String) (path : List String)
    (value : Json) :
    row.setPath (field :: next :: path) value =
      match row.inner? field with
      | some members => (setPath members (next :: path) value).map fun inner =>
          Members.set row field (.object inner)
      | none => .error (.notAMap field) := by
  rw [setPath, assign_cons_cons]
  cases row.inner? field with
  | none => rfl
  | some members =>
      simp only [setPath]
      cases assign members (next :: path) value with
      | mk result inner => cases result <;> rfl

theorem setPath_cons_cons_eq_ok {row after : Record} {field next : String} {path : List String}
    {value : Json} :
    row.setPath (field :: next :: path) value = .ok after ↔
      ∃ members inner, row.inner? field = some members ∧
        setPath members (next :: path) value = .ok inner ∧
        after = Members.set row field (.object inner) := by
  rw [setPath_cons_cons]
  cases row.inner? field with
  | none => simp
  | some members =>
      simp only [Option.some.injEq, exists_and_left, exists_eq_left']
      cases setPath members (next :: path) value <;> simp [Except.map, eq_comm]

theorem exists_eq_set_of_setPath {row after : Record} {path : List String} {value : Json}
    (hset : row.setPath path value = .ok after) :
    ∃ field inner, path.head? = some field ∧ after = Members.set row field inner := by
  match path with
  | [] => cases hset
  | [field] => exact ⟨field, value, rfl, (Except.ok.inj hset).symm⟩
  | field :: next :: path =>
      obtain ⟨members, inner, -, -, hafter⟩ := setPath_cons_cons_eq_ok.mp hset
      exact ⟨field, .object inner, rfl, hafter⟩

theorem get?_setPath_of_ne {row after : Record} {path : List String} {value : Json}
    (hset : row.setPath path value = .ok after) {field : String}
    (hne : path.head? ≠ some field) : after.get? field = row.get? field := by
  obtain ⟨head, inner, hhead, rfl⟩ := exists_eq_set_of_setPath hset
  refine Members.get?_set_of_ne row inner fun hsame => hne ?_
  rw [hhead, hsame]

theorem inner?_set_object (row : Record) (field : String) (inner : Record) :
    inner? (Members.set row field (.object inner)) field = some inner := by
  rw [inner?, Members.get?_set_self]

/-- A path is read in what it goes on in. -/
theorem getPath?_of_inner? {row members : Record} {field : String}
    (hinner : row.inner? field = some members) (next : String) (path : List String) :
    row.getPath? (field :: next :: path) = getPath? members (next :: path) := by
  rw [getPath?_cons_cons]
  rw [inner?] at hinner
  cases hvalue : row.get? field with
  | none =>
      rw [hvalue] at hinner
      obtain rfl := Option.some.inj hinner
      exact (foldl_bind_none path).symm
  | some value =>
      rw [hvalue] at hinner
      cases value with
      | object inner =>
          obtain rfl := Option.some.inj hinner
          rfl
      | null | bool | number | string | array => cases hinner

/-- The value that was set is found. -/
theorem getPath?_setPath {row after : Record} {path : List String} {value : Json}
    (hset : row.setPath path value = .ok after) : after.getPath? path = some value := by
  induction path generalizing row after with
  | nil => cases hset
  | cons field path ih =>
      cases path with
      | nil =>
          obtain rfl := Except.ok.inj hset
          exact Members.get?_set_self row field value
      | cons next path =>
          obtain ⟨members, inner, -, hinner, rfl⟩ := setPath_cons_cons_eq_ok.mp hset
          rw [getPath?_of_inner? (inner?_set_object row field inner)]
          exact ih hinner

/-- Of two values that are set at one path the second counts. -/
theorem setPath_setPath {row mid : Record} {path : List String} {value : Json}
    (hset : row.setPath path value = .ok mid) (other : Json) :
    mid.setPath path other = row.setPath path other := by
  induction path generalizing row mid with
  | nil => cases hset
  | cons field path ih =>
      cases path with
      | nil =>
          obtain rfl := Except.ok.inj hset
          exact congrArg Except.ok (Members.set_set row field value other)
      | cons next path =>
          obtain ⟨members, inner, hmembers, hinner, rfl⟩ := setPath_cons_cons_eq_ok.mp hset
          rw [setPath_cons_cons, setPath_cons_cons, inner?_set_object, hmembers]
          simp only [ih hinner, Members.set_set]

/-- Neither path leads on from the other. -/
def Diverge (path other : List String) : Prop := ¬ path <+: other ∧ ¬ other <+: path

/-- Values at paths that lead elsewhere stay. -/
theorem getPath?_setPath_of_diverge {row after : Record} {path other : List String} {value : Json}
    (hset : row.setPath path value = .ok after) (hdiverge : Diverge path other) :
    after.getPath? other = row.getPath? other := by
  induction path generalizing row after other with
  | nil => cases hset
  | cons field path ih =>
      cases other with
      | nil => exact absurd List.nil_prefix hdiverge.2
      | cons first rest =>
          by_cases hfirst : field = first
          · subst hfirst
            have hrest : Diverge path rest :=
              ⟨fun h => hdiverge.1 (List.prefix_cons_inj field |>.mpr h),
                fun h => hdiverge.2 (List.prefix_cons_inj field |>.mpr h)⟩
            cases path with
            | nil => exact absurd List.nil_prefix hrest.1
            | cons next path =>
                cases rest with
                | nil => exact absurd List.nil_prefix hrest.2
                | cons second rest =>
                    obtain ⟨members, inner, hmembers, hinner, rfl⟩ :=
                      setPath_cons_cons_eq_ok.mp hset
                    rw [getPath?_of_inner? (inner?_set_object row field inner),
                      getPath?_of_inner? hmembers]
                    exact ih hinner hrest
          · refine getPath?_congr fun head hhead => get?_setPath_of_ne hset ?_
            rintro hsame
            exact hfirst ((Option.some.inj hsame).trans (Option.some.inj hhead).symm)

end SchemaQuery.Record
