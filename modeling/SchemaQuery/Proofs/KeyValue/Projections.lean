import SchemaQuery.KeyValue.PointRequest
import SchemaQuery.Proofs.KeyValue.Placeholders
import SchemaQuery.Proofs.Text.Splitting

/-!
# The attributes that a read returns

The projection of a read is written with placeholders, between commas. Taken apart again it names
the attributes that the caller has asked for, in their order.
-/

namespace SchemaQuery

namespace KeyValue

open Placeholder

theorem isBlank_of_isPlain {c : Char} (hplain : isPlain c = true) : isBlank c = false := by
  simp only [isPlain, Bool.or_eq_true, Bool.and_eq_true, decide_eq_true_eq, beq_iff_eq] at hplain
  simp only [Char.le_def, UInt32.le_iff_toNat_le] at hplain
  have hunderscore : c = '_' → c.val.toNat = 95 := fun heq => heq ▸ rfl
  have hletters : 48 ≤ c.val.toNat ∧ c.val.toNat ≤ 122 := by
    rcases hplain with ((⟨h, h'⟩ | ⟨h, h'⟩) | ⟨h, h'⟩) | h
    · exact ⟨Nat.le_trans (by decide) h, h'⟩
    · exact ⟨Nat.le_trans (by decide) h, Nat.le_trans h' (by decide)⟩
    · exact ⟨h, Nat.le_trans h' (by decide)⟩
    · rw [hunderscore h]
      decide
  simp only [isBlank, Char.toNat, Bool.or_eq_false_iff, Bool.and_eq_false_iff,
    decide_eq_false_iff_not, beq_eq_false_iff_ne]
  omega

theorem trimStart_of_forall {chars : List Char} (hchars : ∀ c ∈ chars, isBlank c = false) :
    trimStart chars = chars := by
  cases chars with
  | nil => rfl
  | cons c rest => rw [trimStart, List.dropWhile_cons, hchars c List.mem_cons_self]; rfl

theorem trim_of_forall {chars : List Char} (hchars : ∀ c ∈ chars, isBlank c = false) :
    trim chars = chars := by
  rw [trim, trimStart_of_forall hchars, trimStart_of_forall, List.reverse_reverse]
  exact fun c hmem => hchars c (List.mem_reverse.mp hmem)

namespace Projection

theorem splitCommas_intercalate {texts : List String} (hne : texts ≠ [])
    (htexts : ∀ text ∈ texts, ',' ∉ text.toList) :
    splitCommas (String.intercalate "," texts).toList = texts.map String.toList :=
  (eq_splitOn rfl (fun _ _ => rfl) _).trans (splitOn_intercalate rfl hne htexts)

theorem trim_of_isMarked {placeholder : String} (hmarked : IsMarked '#' placeholder) :
    trim placeholder.toList = placeholder.toList := by
  obtain ⟨name, hname, -, hplain⟩ := hmarked
  refine trim_of_forall fun c hmem => ?_
  rw [hname] at hmem
  rcases List.mem_cons.mp hmem with rfl | h
  · rfl
  · exact isBlank_of_isPlain (hplain c h)

theorem resolve_intercalate {bound : Placeholders} {placeholders fields : List String}
    (hne : placeholders ≠ []) (hnames : bound.NamesAll placeholders fields) :
    resolve (String.intercalate "," placeholders) bound.names = fields := by
  have hmarked := ((List.forall₂_and_left _ _).mp hnames).1
  rw [resolve, splitCommas_intercalate hne fun text hmem =>
    (hmarked text hmem).notMem rfl (by decide), List.map_map]
  clear hne
  induction hnames with
  | nil => rfl
  | @cons placeholder field placeholders fields hname hrest ih =>
      obtain ⟨hfirst, hmore⟩ := List.forall_mem_cons.mp hmarked
      simp only [List.map_cons, ih hmore, Function.comp_apply, trim_of_isMarked hfirst,
        String.ofList_toList, hname.2, Option.getD_some]

/-- What is asked for by a list of attributes. -/
theorem fields?_projectionOf (bound : Placeholders) {fields : List String} (hne : fields ≠ []) :
    (projectionOf bound fields).1.isSome ∧
      fields? ⟨(projectionOf bound fields).1, (projectionOf bound fields).2.names⟩ =
        some fields := by
  cases fields with
  | nil => exact absurd rfl hne
  | cons field fields =>
      obtain ⟨hnames, -⟩ := bound.nameAll_namesAll (field :: fields)
      have hprojection : projectionOf bound (field :: fields) =
          (some (String.intercalate "," (bound.nameAll (field :: fields)).1),
            (bound.nameAll (field :: fields)).2) := rfl
      rw [hprojection]
      generalize bound.nameAll (field :: fields) = named at hnames ⊢
      refine ⟨rfl, congrArg some (resolve_intercalate (fun hnil => ?_) hnames)⟩
      rw [hnil] at hnames
      cases hnames

end Projection

theorem names_strip (key filter : Option String) {projection : Option String}
    (bound : Placeholders) (hprojection : projection.isSome) :
    (strip key filter projection bound).names = bound.names := by
  rw [strip, if_pos hprojection]
  split
  next => rfl
  next => rfl

/-- A read returns the attributes that its caller names, or all if it names none. -/
theorem fields?_render (plan : Plan) (table : String) (pageSize : Option UInt32)
    (extra : Option Fragment) :
    let read := render plan table pageSize extra
    Projection.fields? ⟨read.projection, read.names⟩ =
      if (extra.getD {}).projection = [] then none else some (extra.getD {}).projection := by
  intro read
  let fragment := extra.getD {}
  let bound := (bindConditions (bindHash fragment.placeholders plan.hashKey).2 plan.conditions).2
  have hprojection : read.projection = (projectionOf bound fragment.projection).1 := rfl
  split
  next hnone =>
    have hnothing : projectionOf bound fragment.projection = (none, bound) := by
      rw [show fragment.projection = [] from hnone, projectionOf]
    rw [hprojection, hnothing]
    rfl
  next hsome =>
    obtain ⟨hprojects, hfields⟩ := Projection.fields?_projectionOf bound hsome
    have hnames : read.names = (projectionOf bound fragment.projection).2.names :=
      names_strip _ _ _ hprojects
    rw [hprojection, hnames]
    exact hfields

/-! ### Projections read back -/

theorem Projection.fields?_ofFields {fields : List String} (hne : fields ≠ []) :
    (ofFields fields).fields? = some fields := (fields?_projectionOf .empty hne).2

/-- Whatever attributes a projection names, and whatever placeholders its caller has bound before
it, it is read back as it was given. -/
theorem projections_read_back {fields : List String} (hne : fields ≠ []) :
    (∀ request : GetRequest, (request.project fields).projection.fields? = some fields) ∧
    (∀ request : BatchGetRequest, (request.project fields).projection.fields? = some fields) ∧
    ∀ (plan : Plan) (table : String) (pageSize : Option UInt32) (fragment : Fragment),
      fragment.projection = fields →
        let read := render plan table pageSize (some fragment)
        Projection.fields? ⟨read.projection, read.names⟩ = some fields := by
  refine ⟨fun _ => Projection.fields?_ofFields hne, fun _ => Projection.fields?_ofFields hne, ?_⟩
  intro plan table pageSize fragment hprojection
  have hfields := fields?_render plan table pageSize (some fragment)
  rw [Option.getD_some, hprojection, if_neg hne] at hfields
  exact hfields

/-- Names that become the same placeholder, one of them twice, and what they become is bound to
another attribute already. -/
theorem projections_read_back_nicknames :
    let fields := ["first-name", "first_name", "a,b", "", "first-name"]
    let everyone : Plan := ⟨none, [], .and, .scan, none, false, []⟩
    let fragment : Fragment := { projection := fields, names := [("#first_name", "nickname")] }
    let read := render everyone "people" none (some fragment)
    (GetRequest.project ⟨"people", [], {}⟩ fields).projection.expression =
        some "#first_name,#first_name_1,#a_b,#_,#first_name" ∧
      (GetRequest.project ⟨"people", [], {}⟩ fields).projection.fields? = some fields ∧
      (BatchGetRequest.project ⟨"people", [], {}⟩ fields).projection.fields? = some fields ∧
      read.projection = some "#first_name_1,#first_name_2,#a_b,#_,#first_name_1" ∧
      Projection.fields? ⟨read.projection, read.names⟩ = some fields := by
  intro fields everyone fragment read
  have hne : fields ≠ [] := List.cons_ne_nil _ _
  obtain ⟨hget, hbatch, hrender⟩ := projections_read_back hne
  exact ⟨by rfl, hget _, hbatch _, by rfl, hrender everyone "people" none fragment rfl⟩

end KeyValue

end SchemaQuery
