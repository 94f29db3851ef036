import SchemaQuery.KeyValue.PointRequest
import SchemaQuery.Store.ChangeSet

/-!
# Updates of a row

A change-set becomes assignments to the fields that are no keys; the keys address the row. `null`
and `{}` are dropped, and a locally indexed field is not made empty.
-/

namespace SchemaQuery

namespace KeyValue

inductive ReturnValues where
  | allNew
  | updatedNew
  deriving DecidableEq

namespace ReturnValues

def name : ReturnValues → String
  | allNew => "ALL_NEW"
  | updatedNew => "UPDATED_NEW"

def toJson (values : ReturnValues) : Json := .string values.name

def ofJson? (value : Json) : Option ReturnValues :=
  value.variant?.bind fun name => [allNew, updatedNew].find? fun values => values.name == name

end ReturnValues

inductive Assignment where
  | set (path : List String) (value : Json)
  /-- Adds a number to the value, or takes it away. -/
  | adjust (path : List String) (subtract : Bool) (delta : Json)

def Assignment.path : Assignment → List String
  | set path _ => path
  | adjust path _ _ => path

structure Update where
  tableName : String
  key : Record
  assignments : List Assignment
  returns : ReturnValues

namespace Update

def build (entity : Entity) (changes : Record) (table : String) : Except CompileError Update := do
  let fields ← entity.keyFields
  let args := changes.withoutBlanks
  let key ← args.keyOf fields
  let assigned := entity.layout.assigned args
  .ok ⟨table, key, assigned.map fun (field, value) => .set [field] value, .allNew⟩

def adjust (table : String) (key : Record) (path : List String) (subtract : Bool) (delta : Json) :
    Update :=
  ⟨table, key, [.adjust path subtract delta], .updatedNew⟩

/-- Nothing is assigned; only the row is touched. -/
def isNoop (update : Update) : Bool := update.assignments.isEmpty

def bindAssignment (bound : Placeholders) : Assignment → String × Placeholders
  | .set path json =>
      let (name, bound) := bound.path path
      let (value, bound) := bound.value (String.intercalate "_" path) json
      (name ++ "= " ++ value, bound)
  | .adjust path subtract delta =>
      let (name, bound) := bound.path path
      let (value, bound) := bound.value "v" delta
      (name ++ " = " ++ name ++ (if subtract then " - " else " + ") ++ value, bound)

def bindAssignments (bound : Placeholders) : List Assignment → List String × Placeholders
  | [] => ([], bound)
  | assignment :: rest =>
      let (clause, bound) := bindAssignment bound assignment
      let (clauses, bound) := bindAssignments bound rest
      (clause :: clauses, bound)

/-- The expression of an update, and its placeholders. -/
def expression (update : Update) : Option String × Placeholders :=
  let (clauses, bound) := bindAssignments .empty update.assignments
  (if clauses.isEmpty then none else some ("set " ++ String.intercalate ", " clauses), bound)

def toJson (update : Update) : Json :=
  let (expression, bound) := update.expression
  .object (
    TableRead.nonempty "ExpressionAttributeNames" (TableRead.textMembers bound.names) ++
    TableRead.nonempty "ExpressionAttributeValues" bound.values ++
    [("Key", .object update.key), ("ReturnValues", update.returns.toJson),
      ("TableName", .string update.tableName)] ++
    TableRead.member "UpdateExpression" .string expression)

end Update

end KeyValue

end SchemaQuery
