import SchemaQuery.Json.Fields

/-!
# Schemas

A schema names an entity and lists its fields in the order of their declaration. Field names are
distinct: a field declared again keeps its place and takes the new descriptor.
-/

namespace SchemaQuery

inductive FieldType where
  | string
  | number
  | boolean
  | date
  | map
  | list
  deriving DecidableEq

namespace FieldType

def name : FieldType → String
  | string => "String"
  | number => "Number"
  | boolean => "Boolean"
  | date => "Date"
  | map => "Map"
  | list => "List"

def ofName? (name : String) : Option FieldType :=
  [string, number, boolean, date, map, list].find? fun type => type.name == name

def ofJson? (value : Json) : Option FieldType := value.variant?.bind ofName?

end FieldType

structure FieldDescriptor where
  type : FieldType
  isHashKey : Bool := false
  isRangeKey : Bool := false
  isLocalIndex : Bool := false
  /-- The hash key field of the global index sorted by this field. -/
  globalIndex : Option String := none
  deriving DecidableEq

namespace FieldDescriptor

/-- Whether the field addresses a row. -/
def isPrimaryKey (descriptor : FieldDescriptor) : Bool :=
  descriptor.isHashKey || descriptor.isRangeKey

def globalIndexToJson (hashKey : String) : Json := .object [("hashKey", .string hashKey)]

def globalIndexOfJson? (value : Json) : Option String := do
  let fields ← value.fields? ["hashKey"]
  fields.required "hashKey" Json.string?

def members (descriptor : FieldDescriptor) : Record :=
  (match descriptor.globalIndex with
    | some hashKey => [("globalIndex", globalIndexToJson hashKey)]
    | none => []) ++
  [("isHashKey", .bool descriptor.isHashKey),
    ("isLocalIndex", .bool descriptor.isLocalIndex),
    ("isRangeKey", .bool descriptor.isRangeKey),
    ("type", .string descriptor.type.name)]

def toJson (descriptor : FieldDescriptor) : Json := .object descriptor.members

def ofFields? (readType : Json → Option FieldType) (fields : Fields) : Option FieldDescriptor := do
  let type ← fields.required "type" readType
  let isHashKey ← fields.withDefault "isHashKey" Json.bool? false
  let isRangeKey ← fields.withDefault "isRangeKey" Json.bool? false
  let isLocalIndex ← fields.withDefault "isLocalIndex" Json.bool? false
  let globalIndex ← fields.optional "globalIndex" globalIndexOfJson?
  some { type, isHashKey, isRangeKey, isLocalIndex, globalIndex }

def ofJson? (value : Json) : Option FieldDescriptor := do
  ofFields? FieldType.ofJson?
    (← value.fields? ["type", "isHashKey", "isRangeKey", "isLocalIndex", "globalIndex"])

end FieldDescriptor

structure Schema where
  name : String
  fields : List (String × FieldDescriptor)
  nodup : (fields.map (·.1)).Nodup

namespace Schema

def empty (name : String) : Schema := ⟨name, [], List.nodup_nil⟩

def declare (field : String) (descriptor : FieldDescriptor) :
    List (String × FieldDescriptor) → List (String × FieldDescriptor)
  | [] => [(field, descriptor)]
  | (name, old) :: rest =>
      if name = field then (name, descriptor) :: rest
      else (name, old) :: declare field descriptor rest

theorem mem_names_declare {field name : String} {descriptor : FieldDescriptor}
    {fields : List (String × FieldDescriptor)} :
    name ∈ (declare field descriptor fields).map (·.1) ↔
      name = field ∨ name ∈ fields.map (·.1) := by
  induction fields with
  | nil => simp [declare]
  | cons head rest ih =>
      by_cases h : head.1 = field
      · simp [declare, h]
      · simp only [declare, h, if_false, List.map_cons, List.mem_cons, ih]
        exact or_left_comm

theorem nodup_declare {field : String} {descriptor : FieldDescriptor}
    {fields : List (String × FieldDescriptor)} (nodup : (fields.map (·.1)).Nodup) :
    ((declare field descriptor fields).map (·.1)).Nodup := by
  induction fields with
  | nil => simp [declare]
  | cons head rest ih =>
      rw [List.map_cons, List.nodup_cons] at nodup
      by_cases h : head.1 = field
      · rw [declare, if_pos h, List.map_cons, List.nodup_cons]
        exact nodup
      · rw [declare, if_neg h, List.map_cons, List.nodup_cons, mem_names_declare]
        exact ⟨fun member => member.elim h nodup.1, ih nodup.2⟩

def withField (schema : Schema) (field : String) (descriptor : FieldDescriptor) : Schema :=
  ⟨schema.name, declare field descriptor schema.fields, nodup_declare schema.nodup⟩

def ofList (name : String) (fields : List (String × FieldDescriptor)) : Schema :=
  fields.foldl (fun schema field => schema.withField field.1 field.2) (empty name)

def field? (schema : Schema) (name : String) : Option FieldDescriptor := schema.fields.lookup name

end Schema

end SchemaQuery
