import SchemaQuery.Predicate.Basic
import SchemaQuery.Schema.Layout

/-!
# Plans

A plan is what a predicate asks of one entity, before it is written for either kind of store: an
equality on the hash key, if there is a value for it, and conditions on paths, each on the key side
or on the filter side.
-/

namespace SchemaQuery

/-- Where a condition is evaluated: it narrows the rows read, or filters them. -/
inductive Side where
  | key
  | filter
  deriving DecidableEq

/-- What is asked of the value at a path. -/
inductive Test where
  | equal (value : Json)
  /-- The value is a text that contains this one. -/
  | contains (text : Json)
  | oneOf (values : List Json)
  /-- The value is a date between the bounds that are given, both included. -/
  | range (first last : Option Json)
  | hasItem (item : Json)
  | lacksItem (item : Json)

structure Condition where
  path : List String
  test : Test
  side : Side

/-- The path with points, as documents address it. -/
def Condition.dotted (condition : Condition) : String := String.intercalate "." condition.path

structure HashBinding where
  field : String
  value : Json

/-- The index a plan reads by. -/
structure PlanIndex where
  name : String
  sortField : String
  isGlobal : Bool
  deriving DecidableEq

def Index.toPlan (index : Index) : PlanIndex := ⟨index.name, index.sortField, index.isGlobal⟩

structure Plan where
  hashKey : Option HashBinding
  conditions : List Condition
  junction : Junction
  lookup : Lookup
  index : Option PlanIndex
  descending : Bool
  /-- The fields passed over because their values do not suit their types. -/
  skipped : List String

namespace Plan

def on (plan : Plan) (side : Side) : List Condition :=
  plan.conditions.filter fun condition => condition.side == side

def isUnconstrained (plan : Plan) : Bool := plan.hashKey.isNone && plan.conditions.isEmpty

end Plan

end SchemaQuery
