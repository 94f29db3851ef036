import SchemaQuery.Schema.Entity

/-!
# Key layout

The keys and indexes of an entity, read off its schema: the primary hash and range key, the locally
indexed fields, and the global indexes, each sorted by the field that declares it.
-/

namespace SchemaQuery

structure GlobalIndex where
  name : String
  hashKey : String
  hashKeyType : Option FieldType
  sortField : String
  sortType : FieldType
  deriving DecidableEq

/-- The name of the global index sorted by a field. -/
def GlobalIndex.nameFor (field : String) : String := field ++ "_global"

def GlobalIndex.toJson (index : GlobalIndex) : Json :=
  .object [
    ("hash_key", .string index.hashKey),
    ("hash_key_type", Json.ofOption (fun type => .string type.name) index.hashKeyType),
    ("indexed_field", .string index.sortField),
    ("indexed_type", .string index.sortType.name),
    ("name", .string index.name)]

/-- An index by which rows can be read in order. -/
inductive Index where
  | onField (field : String)
  | global (index : GlobalIndex)
  deriving DecidableEq

namespace Index

def name : Index → String
  | onField field => field
  | global index => index.name

def sortField : Index → String
  | onField field => field
  | global index => index.sortField

def isGlobal : Index → Bool
  | onField _ => false
  | global _ => true

end Index

structure Layout where
  hashKey : Option String
  rangeKey : Option String
  localIndexes : List String
  globalIndexes : List GlobalIndex

namespace Schema

def flagged (schema : Schema) (flag : FieldDescriptor → Bool) : List String :=
  (schema.fields.filter fun field => flag field.2).map (·.1)

def globalIndexes (schema : Schema) : List GlobalIndex :=
  schema.fields.filterMap fun (name, descriptor) =>
    descriptor.globalIndex.map fun hashKey =>
      { name := GlobalIndex.nameFor name
        hashKey
        hashKeyType := (schema.field? hashKey).map (·.type)
        sortField := name
        sortType := descriptor.type }

/-- The first field with the flag is the key. -/
def layout (schema : Schema) : Layout where
  hashKey := (schema.flagged (·.isHashKey)).head?
  rangeKey := (schema.flagged (·.isRangeKey)).head?
  localIndexes := schema.flagged (·.isLocalIndex)
  globalIndexes := schema.globalIndexes

end Schema

def Entity.layout (entity : Entity) : Layout := entity.schema.layout

namespace Layout

/-- The declared primary key fields, the hash key first. -/
def primaryKeys (layout : Layout) : List String :=
  layout.hashKey.toList ++ layout.rangeKey.toList

def isLocallyIndexed (layout : Layout) (field : String) : Bool := layout.localIndexes.contains field

def globalIndex? (layout : Layout) (name : String) : Option GlobalIndex :=
  layout.globalIndexes.find? fun index => index.name == name

/-- A global index by its name, or a local one by its field. -/
def index? (layout : Layout) (name : String) : Option Index :=
  match layout.globalIndex? name with
  | some index => some (.global index)
  | none => if layout.isLocallyIndexed name then some (.onField name) else none

/-- The keys that an index is read by: sort field and hash key of a global index, else the primary
keys. -/
def requiredKeys (layout : Layout) (sort : Option String) : List String :=
  match sort.bind layout.globalIndex? with
  | some index => [index.sortField, index.hashKey]
  | none => layout.primaryKeys

/-- Adds a name that is not there yet. -/
def adjoin (names : List String) (name : String) : List String :=
  if name ∈ names then names else names ++ [name]

/-- The fields that place a row in the order read: the required keys, the sort field, and the
primary keys. -/
def cursorKeys (layout : Layout) (sort : Option String) : List String :=
  (((sort.bind layout.index?).map Index.sortField).toList ++ layout.primaryKeys).foldl adjoin
    (layout.requiredKeys sort)

end Layout

end SchemaQuery
