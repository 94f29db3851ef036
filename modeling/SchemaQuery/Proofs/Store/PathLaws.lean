import SchemaQuery.Proofs.Json.Objects
import SchemaQuery.Proofs.Store.Paths

/-!
# Laws of values at paths

A value can be set at a path unless something that is no object stands on the way to it. A walk that
is stopped so has made nothing on its way: objects are made where there was nothing, and behind
these nothing can stop it. A value that is set is found, other paths do not see it, of two values
set the second counts, and setting what is there already changes nothing.
-/

namespace SchemaQuery.Record

/-- Something that is no object stands on the way to the end of the path. -/
def IsBlocked (row : Record) (path : List String) : Prop :=
  ∃ before held, before <+: path ∧ before ≠ path ∧ row.getPath? before = some held ∧
    held.object? = none

variable {row after : Record} {path : List String} {value : Json}

theorem inner?_eq_none_iff {field : String} :
    row.inner? field = none ↔ ∃ held, row.get? field = some held ∧ held.object? = none := by
  rw [inner?]
  cases Members.get? row field with
  | none => simp
  | some held => cases held <;> simp [Json.object?]

theorem not_isBlocked_singleton (field : String) : ¬ row.IsBlocked [field] := by
  rintro ⟨before, held, hprefix, hne, hget, -⟩
  cases before with
  | nil => cases hget
  | cons first rest =>
      obtain ⟨rfl, hrest⟩ := List.cons_prefix_cons.mp hprefix
      exact hne (congrArg _ (List.prefix_nil.mp hrest))

/-- A path of several fields is blocked at the first one, or in what it goes on in. -/
theorem isBlocked_cons_cons {field next : String} :
    row.IsBlocked (field :: next :: path) ↔
      ∀ members, row.inner? field = some members → members.IsBlocked (next :: path) := by
  constructor
  · rintro ⟨before, held, hprefix, hne, hget, hheld⟩ members hinner
    match before with
    | [] => cases hget
    | [first] =>
        obtain ⟨rfl, -⟩ := List.cons_prefix_cons.mp hprefix
        rw [inner?_eq_none_iff.mpr ⟨held, hget, hheld⟩] at hinner
        cases hinner
    | first :: second :: rest =>
        obtain ⟨rfl, hrest⟩ := List.cons_prefix_cons.mp hprefix
        rw [getPath?_of_inner? hinner] at hget
        exact ⟨second :: rest, held, hrest, fun heq => hne (heq ▸ rfl), hget, hheld⟩
  · intro hblocked
    cases hinner : row.inner? field with
    | none =>
        obtain ⟨held, hget, hheld⟩ := inner?_eq_none_iff.mp hinner
        exact ⟨[field], held, ⟨next :: path, rfl⟩, by simp, hget, hheld⟩
    | some members =>
        obtain ⟨before, held, hprefix, hne, hget, hheld⟩ := hblocked members hinner
        cases before with
        | nil => cases hget
        | cons first rest =>
            rw [← getPath?_of_inner? hinner] at hget
            exact ⟨field :: first :: rest, held, List.cons_prefix_cons.mpr ⟨rfl, hprefix⟩,
              fun heq => hne (List.cons.inj heq).2, hget, hheld⟩

theorem assign_fails_iff (hpath : path ≠ []) :
    (∃ fault, (row.assign path value).1 = .error fault) ↔ row.IsBlocked path := by
  induction path generalizing row with
  | nil => exact absurd rfl hpath
  | cons field path ih =>
      cases path with
      | nil =>
          refine iff_of_false ?_ (not_isBlocked_singleton field)
          rintro ⟨fault, hfault⟩
          cases hfault
      | cons next path =>
          rw [assign_cons_cons, isBlocked_cons_cons]
          cases row.inner? field with
          | none => simp
          | some members => simpa using ih (List.cons_ne_nil next path)

/-- A walk that is stopped leaves the row as it was. -/
theorem assign_of_fault (hrow : row.IsSorted) {fault : BackendFault}
    (hfault : (row.assign path value).1 = .error fault) : (row.assign path value).2 = row := by
  induction path generalizing row with
  | nil => rfl
  | cons field path ih =>
      cases path with
      | nil => cases hfault
      | cons next path =>
          cases hget : row.get? field with
          | none =>
              -- What is made on the way is empty, and an empty row blocks no path.
              have hinner : row.inner? field = some [] := by rw [inner?, hget]
              have hblocked := (assign_fails_iff (List.cons_ne_nil _ _)).mp ⟨fault, hfault⟩
              obtain ⟨before, held, -, -, hheld, -⟩ := isBlocked_cons_cons.mp hblocked [] hinner
              cases before with
              | nil => cases hheld
              | cons first rest =>
                  rw [getPath?, Members.get?, foldl_bind_none] at hheld
                  cases hheld
          | some held =>
              rw [assign_cons_cons] at hfault ⊢
              cases held with
              | object members =>
                  have hinner : row.inner? field = some members := by rw [inner?, hget]
                  rw [hinner] at hfault ⊢
                  have hsame := ih (hrow.get? hget) hfault
                  simp only [hsame]
                  exact hrow.ascending.set_held hget
              | null | bool | number | string | array => simp only [inner?, hget]

theorem setPath_eq_ok_iff :
    row.setPath path value = .ok after ↔ row.assign path value = (.ok (), after) := by
  rw [setPath]
  cases row.assign path value with
  | mk result left => cases result <;> simp

/-- Setting the value that a path leads to changes nothing. -/
theorem assign_held (hrow : row.IsSorted) (hget : row.getPath? path = some value) :
    row.assign path value = (.ok (), row) := by
  induction path generalizing row with
  | nil => cases hget
  | cons field path ih =>
      cases path with
      | nil => exact congrArg _ (hrow.ascending.set_held hget)
      | cons next path =>
          rw [getPath?_cons_cons] at hget
          split at hget
          next members hmembers =>
            have hinner : row.inner? field = some members := by rw [inner?, hmembers]
            rw [assign_cons_cons, hinner]
            simp only [ih (hrow.get? hmembers) hget]
            rw [hrow.ascending.set_held hmembers]
          next => cases hget

/-- **Values at paths.** Setting a value fails if and only if the path is blocked, and the row then
stays as it was. Else the value is found at the path, values at paths that lead elsewhere stay, and
another value set there next might have been set at once. The value that a path leads to can be set
and makes no difference. -/
theorem assign_obeys_laws {row : Record} (hrow : row.IsSorted) {path : List String}
    (hpath : path ≠ []) (value : Json) :
    ((∃ fault, (row.assign path value).1 = .error fault) ↔ row.IsBlocked path) ∧
    (∀ fault, (row.assign path value).1 = .error fault → (row.assign path value).2 = row) ∧
    (∀ after, row.assign path value = (.ok (), after) →
      after.getPath? path = some value ∧
      (∀ other, ¬ other <+: path → ¬ path <+: other →
        after.getPath? other = row.getPath? other) ∧
      ∀ again, after.assign path again = row.assign path again) ∧
    ∀ held, row.getPath? path = some held → row.assign path held = (.ok (), row) := by
  refine ⟨assign_fails_iff hpath, fun fault => assign_of_fault hrow, fun after hassign => ?_,
    fun held => assign_held hrow⟩
  have hset := setPath_eq_ok_iff.mpr hassign
  refine ⟨getPath?_setPath hset,
    fun other hother hnot => getPath?_setPath_of_diverge hset ⟨hnot, hother⟩, fun again => ?_⟩
  have hfree : ¬ row.IsBlocked path := fun hblocked => by
    obtain ⟨fault, hfault⟩ := (assign_fails_iff hpath).mpr hblocked
    rw [hassign] at hfault
    cases hfault
  -- Whether the path is blocked does not hang on the value, so the other value can be set as well.
  cases hagain : row.assign path again with
  | mk result later =>
      cases result with
      | error fault => exact absurd ((assign_fails_iff hpath).mp ⟨fault, by rw [hagain]⟩) hfree
      | ok _ =>
          rw [← setPath_eq_ok_iff, setPath_setPath hset]
          exact setPath_eq_ok_iff.mpr hagain

/-- A reading of two instruments in one station. -/
def reading : Record :=
  [("rain", .object [("level", .int 3), ("unit", .string "mm")]), ("wind", .int 12)]

/-- A second value can stand beside the level of rain, but nothing can stand in it. -/
theorem reading_obeys_laws :
    reading.IsSorted ∧
    (∃ after, reading.assign ["rain", "peak", "hour"] (.int 7) = (.ok (), after) ∧
      after.getPath? ["rain", "peak", "hour"] = some (.int 7) ∧
      after.getPath? ["rain", "level"] = some (.int 3) ∧
      after.assign ["rain", "peak", "hour"] (.int 8) =
        reading.assign ["rain", "peak", "hour"] (.int 8)) ∧
    reading.assign ["rain", "level", "hour"] (.int 7) = (.error (.notAMap "level"), reading) := by
  have hsorted : reading.IsSorted := by decide
  obtain ⟨-, -, hlaws, -⟩ :=
    assign_obeys_laws hsorted (List.cons_ne_nil "rain" ["peak", "hour"]) (.int 7)
  obtain ⟨-, hstays, -, -⟩ :=
    assign_obeys_laws hsorted (List.cons_ne_nil "rain" ["level", "hour"]) (.int 7)
  obtain ⟨hfound, hothers, hagain⟩ := hlaws _ rfl
  exact ⟨hsorted, ⟨_, rfl, hfound, hothers _ (by decide) (by decide), hagain _⟩,
    Prod.ext rfl (hstays _ rfl)⟩

end SchemaQuery.Record
