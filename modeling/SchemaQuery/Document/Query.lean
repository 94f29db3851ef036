import SchemaQuery.Document.DateBound
import SchemaQuery.Predicate.Planning
import SchemaQuery.Text.Pattern

/-!
# Document queries

A plan becomes one condition document. Joined by "and", its conditions are the members of the
document, by their paths; joined by "or", they are clauses under one operator. The hash equality is
always a member of the document itself. Where a condition is evaluated makes no difference here.
-/

namespace SchemaQuery.Document

/-- Conditions and a projection of the caller. -/
structure Fragment where
  conditions : Record := []
  junction : Junction := .and
  projection : List String := []

/-- The operator that joins clauses. -/
def operatorOf : Junction → String
  | .and => "$and"
  | .or => "$or"

namespace Fragment

/-- The compiled conditions and the caller's, joined; one of them alone if the other is empty. -/
def merge (fragment : Fragment) (compiled : Record) : Record :=
  if fragment.conditions.isEmpty then compiled
  else if compiled.isEmpty then fragment.conditions
  else [(operatorOf fragment.junction, .array [.object compiled, .object fragment.conditions])]

def toJson (fragment : Fragment) : Json :=
  .object [
    ("comparison", fragment.junction.toJson),
    ("conditions", .object fragment.conditions),
    ("projection", .strings fragment.projection)]

def ofJson? (value : Json) : Option Fragment := do
  let fields ← value.fields? ["conditions", "comparison", "projection"]
  let conditions ← fields.withDefault "conditions" Json.object? []
  let junction ← fields.withDefault "comparison" Junction.ofJson? .and
  let projection ← fields.withDefault "projection" Json.strings? []
  some ⟨conditions, junction, projection⟩

end Fragment

/-- The field that documents are ordered by, as a path with points. -/
structure FieldOrder where
  field : String
  descending : Bool := false

namespace FieldOrder

def toJson (order : FieldOrder) : Json :=
  .object [("descending", .bool order.descending), ("field", .string order.field)]

def ofJson? (value : Json) : Option FieldOrder := do
  let fields ← value.fields? ["field", "descending"]
  let field ← fields.required "field" Json.string?
  let descending ← fields.withDefault "descending" Json.bool? false
  some ⟨field, descending⟩

end FieldOrder

structure Query where
  conditions : Record := []
  order : Option FieldOrder := none
  projection : List String := []

namespace Query

def toJson (query : Query) : Json :=
  .object (
    [("conditions", .object query.conditions)] ++
    (if query.projection.isEmpty then [] else [("projection", .strings query.projection)]) ++
    (match query.order with
      | some order => [("sort", order.toJson)]
      | none => []))

def ofJson? (value : Json) : Option Query := do
  let fields ← value.fields? ["conditions", "sort", "projection"]
  let conditions ← fields.required "conditions" Json.object?
  let order ← fields.optional "sort" FieldOrder.ofJson?
  let projection ← fields.withDefault "projection" Json.strings? []
  some ⟨conditions, order, projection⟩

/-- The text that a substring condition looks for. -/
def needle : Json → String
  | .string s => s
  | value => value.text

/-- A bound as a member, if it is given. -/
def boundMember (operator path : String) : Option Json → Except CompileError Record
  | none => .ok []
  | some value => (value.dateBound path).map fun bound => [(operator, bound)]

/-- What a test asks of the value at a path. -/
def testValue (path : String) : Test → Except CompileError Json
  | .equal value | .hasItem value => .ok value
  | .contains value =>
      .ok (.object [("$options", .string "i"), ("$regex", .string (Pattern.escape (needle value)))])
  | .oneOf values => .ok (.object [("$in", .array values)])
  | .lacksItem value => .ok (.object [("$ne", value)])
  | .range first last => do
      let first ← boundMember "$gte" path first
      let last ← boundMember "$lte" path last
      let bounds := first ++ last
      .ok (.object (if bounds.isEmpty then [("$exists", .bool true)] else bounds))

/-- The conditions with their paths. -/
def conditionMembers : List Condition → Except CompileError Record
  | [] => .ok []
  | condition :: rest => do
      let value ← testValue condition.dotted condition.test
      let members ← conditionMembers rest
      .ok ((condition.dotted, value) :: members)

def joinMembers (junction : Junction) (members : Record) : Record :=
  match junction with
  | .and => Members.ofList members
  | .or =>
      if members.isEmpty then []
      else [(operatorOf .or, .array (members.map fun member => .object [member]))]

def withHash (conditions : Record) : Option HashBinding → Record
  | some binding => conditions.set binding.field binding.value
  | none => conditions

def render (plan : Plan) (extra : Option Fragment) : Except CompileError Query := do
  let fragment := extra.getD {}
  let members ← conditionMembers plan.conditions
  .ok {
    conditions := fragment.merge (withHash (joinMembers plan.junction members) plan.hashKey)
    order := plan.index.map fun index => ⟨index.sortField, plan.descending⟩
    projection := fragment.projection }

/-- The query that a predicate asks of the documents of an entity. All fields are matched after
retrieval, so the plan is that of a scan. -/
def compile (entity : Entity) (predicate : Predicate) (options : Options)
    (extra : Option Fragment) : Except CompileError Query := do
  render (← entity.plan predicate { options with lookup := .scan }) extra

end Query

end SchemaQuery.Document
