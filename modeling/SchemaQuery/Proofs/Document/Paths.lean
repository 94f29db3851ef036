import SchemaQuery.Document.Matching
import SchemaQuery.Predicate.Plan
import SchemaQuery.Proofs.Text.Splitting

/-!
# Dotted paths

Names without points can be told apart again after they are joined by points. Of such paths only
those that begin with the mark of operators are written like an operator.
-/

namespace SchemaQuery.Document

/-- A name that is neither a path nor an operator. -/
def IsPlainName (name : String) : Prop := '.' ∉ name.toList ∧ startsWithDollar name = false

instance (name : String) : Decidable (IsPlainName name) :=
  inferInstanceAs (Decidable ('.' ∉ name.toList ∧ startsWithDollar name = false))

/-- A path is found again in its dotted form. -/
theorem pathOf_intercalate {path : List String} (hne : path ≠ [])
    (hpath : ∀ name ∈ path, '.' ∉ name.toList) : pathOf (String.intercalate "." path) = path := by
  have hsplit (chars : List Char) : splitPoints chars = chars.splitOn '.' :=
    eq_splitOn rfl (fun _ _ => rfl) chars
  rw [pathOf, hsplit, splitOn_intercalate rfl hne hpath, List.map_map]
  exact (List.map_congr_left fun _ _ => String.ofList_toList).trans (List.map_id path)

theorem pathOf_of_notMem {name : String} (hname : '.' ∉ name.toList) : pathOf name = [name] := by
  have hpath := pathOf_intercalate (List.cons_ne_nil name []) (by simpa using hname)
  rwa [String.intercalate_singleton] at hpath

theorem toList_dotted_cons (name next : String) (path : List String) :
    (String.intercalate "." (name :: next :: path)).toList =
      name.toList ++ '.' :: (String.intercalate "." (next :: path)).toList := by
  rw [String.intercalate_cons_cons, String.toList_append, String.toList_append, List.append_assoc]
  rfl

/-- A path that begins with a plain name is not written like an operator. -/
theorem startsWithDollar_intercalate {name : String} {path : List String}
    (hname : startsWithDollar name = false) :
    startsWithDollar (String.intercalate "." (name :: path)) = false := by
  cases path with
  | nil => rwa [String.intercalate_singleton]
  | cons next path =>
      rw [startsWithDollar, toList_dotted_cons]
      cases hchars : name.toList with
      | nil => rfl
      | cons c chars =>
          rw [startsWithDollar, hchars] at hname
          exact hname

theorem ne_operatorOf {name : String} (hname : startsWithDollar name = false)
    (junction : Junction) : name ≠ operatorOf junction := by
  rintro rfl
  cases junction with
  | and => exact absurd hname (by decide)
  | or => exact absurd hname (by decide)

end SchemaQuery.Document
