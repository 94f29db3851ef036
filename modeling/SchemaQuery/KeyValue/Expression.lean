import SchemaQuery.KeyValue.TableRead
import SchemaQuery.Predicate.Planning

/-!
# Plans as key-value expressions

Each condition becomes an atom over placeholders. The atoms of a side are joined by the plan's
keyword; the hash equality stands before them and binds all of them, so a disjunction of several
atoms goes into parentheses behind it. A scan has no key condition: all its conditions filter.
-/

namespace SchemaQuery.KeyValue

/-- A condition over placeholders: the path of an attribute, and values. -/
inductive Atom where
  | equal (path value : String)
  | contains (path value : String)
  | lacks (path value : String)
  | oneOf (path : String) (values : List String)
  | between (path first last : String)
  | atLeast (path first : String)
  | atMost (path last : String)
  | present (path : String)

namespace Atom

def text : Atom → String
  | equal path value => path ++ " = " ++ value
  | contains path value => "contains(" ++ path ++ ", " ++ value ++ ")"
  | lacks path value => "not contains(" ++ path ++ ", " ++ value ++ ")"
  | oneOf path values => path ++ " IN (" ++ String.intercalate "," values ++ ")"
  | between path first last => path ++ " between " ++ first ++ " and " ++ last
  | atLeast path first => path ++ " >= " ++ first
  | atMost path last => path ++ " <= " ++ last
  | present path => "attribute_exists(" ++ path ++ ")"

end Atom

/-- The placeholders of a list of values, called after the hint and their place. -/
def valueAll (bound : Placeholders) (hint : String) : Nat → List Json → List String × Placeholders
  | _, [] => ([], bound)
  | place, json :: rest =>
      let (placeholder, bound) :=
        bound.value (hint ++ String.ofList (Nat.toDigits 10 place)) json
      let (placeholders, bound) := valueAll bound hint (place + 1) rest
      (placeholder :: placeholders, bound)

/-- The placeholder of a bound, if there is one. -/
def valueOption (bound : Placeholders) (hint : String) :
    Option Json → Option String × Placeholders
  | none => (none, bound)
  | some json =>
      let (placeholder, bound) := bound.value hint json
      (some placeholder, bound)

def rangeAtom (path : String) : Option String → Option String → Atom
  | some first, some last => .between path first last
  | some first, none => .atLeast path first
  | none, some last => .atMost path last
  | none, none => .present path

def bindTest (bound : Placeholders) (path hint : String) : Test → Atom × Placeholders
  | .equal json =>
      let (value, bound) := bound.value hint json
      (.equal path value, bound)
  | .contains json | .hasItem json =>
      let (value, bound) := bound.value hint json
      (.contains path value, bound)
  | .lacksItem json =>
      let (value, bound) := bound.value hint json
      (.lacks path value, bound)
  | .oneOf items =>
      let (values, bound) := valueAll bound hint 0 items
      (.oneOf path values, bound)
  | .range first last =>
      let (first, bound) := valueOption bound (hint ++ "Begin") first
      let (last, bound) := valueOption bound (hint ++ "End") last
      (rangeAtom path first last, bound)

def bindCondition (bound : Placeholders) (condition : Condition) : Atom × Placeholders :=
  let (path, bound) := bound.path condition.path
  bindTest bound path (String.intercalate "_" condition.path) condition.test

/-- The atoms of the conditions, each with its side. -/
def bindConditions (bound : Placeholders) : List Condition → List (Side × Atom) × Placeholders
  | [] => ([], bound)
  | condition :: rest =>
      let (atom, bound) := bindCondition bound condition
      let (atoms, bound) := bindConditions bound rest
      ((condition.side, atom) :: atoms, bound)

def bindHash (bound : Placeholders) : Option HashBinding → Option Atom × Placeholders
  | none => (none, bound)
  | some binding =>
      let (name, bound) := bound.name binding.field
      let (value, bound) := bound.value binding.field binding.value
      (some (.equal name value), bound)

def joinAtoms (junction : Junction) : List Atom → Option String
  | [] => none
  | atoms => some (joinWith junction.keyword (atoms.map Atom.text))

/-- The hash equality and the joined atoms. -/
def withHash (junction : Junction) (hash : Option Atom) (atoms : List Atom) : Option String :=
  match hash, joinAtoms junction atoms with
  | some hash, some rest =>
      if junction = .or ∧ 1 < atoms.length then some (hash.text ++ " and " ++ parenthesized rest)
      else some (hash.text ++ " and " ++ rest)
  | some hash, none => some hash.text
  | none, rest => rest

/-- True of every row: no row has the reserved attribute. -/
def unconstrained : String := "attribute_not_exists(" ++ Predicate.reservedField ++ ")"

/-- The key condition and the filter of a plan. -/
def expressions (plan : Plan) (hash : Option Atom) (atoms : List (Side × Atom)) :
    Option String × Option String :=
  match plan.lookup with
  | .query =>
      (withHash plan.junction hash ((atoms.filter fun atom => atom.1 == .key).map (·.2)),
        joinAtoms plan.junction ((atoms.filter fun atom => atom.1 == .filter).map (·.2)))
  | .scan => (none, withHash plan.junction hash (atoms.map (·.2)))

/-- The placeholders of a list of attributes, with commas between; nothing for no attribute. -/
def projectionOf (bound : Placeholders) : List String → Option String × Placeholders
  | [] => (none, bound)
  | fields =>
      let (placeholders, bound) := bound.nameAll fields
      (some (String.intercalate "," placeholders), bound)

/-- A read without any condition needs no values, and no names unless it projects. -/
def strip (key filter projection : Option String) (bound : Placeholders) : Placeholders :=
  if key.isSome || filter.isSome then bound
  else ⟨if projection.isSome then bound.names else [], []⟩

/-- The read that a plan asks of a table. -/
def render (plan : Plan) (table : String) (pageSize : Option UInt32) (extra : Option Fragment) :
    TableRead :=
  let fragment := extra.getD {}
  let (hash, bound) := bindHash fragment.placeholders plan.hashKey
  let (atoms, bound) := bindConditions bound plan.conditions
  let (key, filter) := expressions plan hash atoms
  let (projection, bound) := projectionOf bound fragment.projection
  let key := fragment.mergeKeyCondition key
  let filter := fragment.mergeFilter filter
  let bound := strip key filter projection bound
  { tableName := fragment.tableName.getD table
    keyCondition := key
    filter := if filter.isNone && plan.lookup == .scan then some unconstrained else filter
    projection
    names := bound.names
    values := bound.values
    indexName := plan.index.map PlanIndex.name
    forward := plan.index.map fun _ => !plan.descending
    limit := pageSize }

/-- The read that a predicate asks of the table of an entity. -/
def compile (entity : Entity) (predicate : Predicate) (options : Options) (table : String)
    (extra : Option Fragment) : Except CompileError TableRead :=
  (entity.plan predicate options).map fun plan => render plan table options.pageSize extra

end SchemaQuery.KeyValue
