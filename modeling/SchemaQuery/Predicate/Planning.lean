import SchemaQuery.Predicate.Error
import SchemaQuery.Predicate.Plan

/-!
# Planning

The hash key is that of the index read by, if it is a global one, and the primary hash key
otherwise. Its value leaves the predicate as a binding of its own. Every other field becomes the
conditions that its declared type and its value ask for; they go to the key side only where a
narrowing lookup reads by that field.
-/

namespace SchemaQuery

/-- A value that can address rows: neither `null` nor the empty text. -/
def Json.isConcrete : Json → Bool
  | null => false
  | string s => s != ""
  | _ => true

/-- A scalar as text. -/
def Json.asText? : Json → Option Json
  | string s => some (string s)
  | number n => some (string (String.ofList n.chars))
  | bool true => some (string "true")
  | bool false => some (string "false")
  | _ => none

namespace Json

mutual

/-- The leaves of a value with their paths: everything but `null` and objects with members. -/
def leaves (path : List String) : Json → List (List String × Json)
  | null => []
  | object [] => [(path, object [])]
  | object (member :: members) => memberLeaves path (member :: members)
  | value => [(path, value)]

def memberLeaves (path : List String) : List (String × Json) → List (List String × Json)
  | [] => []
  | (name, value) :: rest => leaves (path ++ [name]) value ++ memberLeaves path rest

end

end Json

namespace Condition

/-- The condition on a leaf of a map. -/
def ofLeaf (mode : TextMatch) (leaf : List String × Json) : Condition where
  path := leaf.1
  test :=
    match mode, leaf.2 with
    | .substring, .string s => .contains (.string s)
    | _, value => .equal value
  side := .filter

end Condition

/-- What the position of a field in the lookup decides. -/
structure Standing where
  /-- The lookup reads by this field. -/
  isKey : Bool
  /-- The field is the local index read by; a range of dates on it narrows even a scan. -/
  isSortIndex : Bool

namespace Standing

def side (standing : Standing) : Side := if standing.isKey then .key else .filter

def rangeSide (standing : Standing) : Side :=
  if standing.isKey || standing.isSortIndex then .key else .filter

end Standing

/-- A bound of a range; `null` is no bound. -/
def rangeBound (value : Json) (name : String) : Option Json :=
  match value.get? name with
  | some .null => none
  | bound => bound

/-- The test on a field of text. Texts contained are not looked for on the key side. -/
def textTest? (value : Json) (standing : Standing) (mode : TextMatch) : Option Test :=
  match value with
  | .array [] => none
  | .array items => (items.mapM Json.asText?).map .oneOf
  | value =>
      value.asText?.map fun text =>
        if !standing.isKey && mode == .substring then .contains text else .equal text

/-- The test on a list field. -/
def itemTest? : Json → Option Test
  | .string s =>
      match s.toList with
      | c :: rest =>
          if c = Predicate.negationMark then some (.lacksItem (.string (String.ofList rest)))
          else some (.hasItem (.string s))
      | [] => some (.hasItem (.string s))
  | .number n => some (.hasItem (.number n))
  | _ => none

/-- The conditions that a value asks of a field; nothing if value and type do not suit. -/
def conditions? (field : String) (value : Json) (declared : Kind) (standing : Standing)
    (mode : TextMatch) : Option (List Condition) :=
  match declared with
  | .string =>
      (textTest? value standing mode).map fun test => [⟨[field], test, standing.side⟩]
  | .number =>
      if (Kind.ofValue value).isScalar then some [⟨[field], .equal value, standing.side⟩] else none
  | .boolean =>
      if (Kind.ofValue value).isScalar then some [⟨[field], .equal value, .filter⟩] else none
  | .dateRange =>
      if Kind.ofValue value = .dateRange then
        match rangeBound value "begin", rangeBound value "end" with
        | none, none => none
        | first, last => some [⟨[field], .range first last, standing.rangeSide⟩]
      else none
  | .map =>
      if Kind.ofValue value = .map ∨ Kind.ofValue value = .dateRange then
        some ((value.leaves [field]).map (Condition.ofLeaf mode))
      else none
  | .list => (itemTest? value).map fun test => [⟨[field], test, .filter⟩]
  | .unknown => none

namespace Layout

/-- The field whose value addresses the partition read. -/
def hashField (layout : Layout) : Option Index → Option String
  | some (.global index) => some index.hashKey
  | _ => layout.hashKey

/-- The fields that a narrowing lookup reads by. -/
def keyFields (layout : Layout) : Option Index → List String
  | some (.global index) => [index.sortField]
  | some (.onField field) => layout.hashKey.toList ++ [field]
  | none => layout.primaryKeys

end Layout

namespace Entity

/-- The index that a sort order names. -/
def sortIndex (entity : Entity) : Option SortOrder → Except CompileError (Option Index)
  | none => .ok none
  | some sort =>
      match entity.layout.index? sort.index with
      | some index => .ok (some index)
      | none => .error (.unknownIndex sort.index)

/-- The binding of the hash field, if the predicate has a concrete value for it. A text field is
bound to the text of a scalar. -/
def hashBinding? (entity : Entity) (predicate : Predicate) (field : String) :
    Option HashBinding :=
  match predicate.wanted.get? field with
  | none => none
  | some value =>
      if value.isConcrete then
        some ⟨field,
          if Kind.ofField entity.schema field = .string then value.asText?.getD value else value⟩
      else none

def standing (entity : Entity) (index : Option Index) (lookup : Lookup) (field : String) :
    Standing where
  isKey := lookup == .query && (entity.layout.keyFields index).contains field
  isSortIndex := entity.layout.isLocallyIndexed field && index.map Index.name == some field

/-- Whether a field of the predicate asks for no condition of its own. -/
def isPassive (hashField : Option String) (field : String) (value : Json) : Bool :=
  hashField == some field || field == Predicate.reservedField || value.isNull

/-- The conditions of the fields in their order, and the fields passed over. -/
def conditionsOf (entity : Entity) (index : Option Index) (options : Options) :
    Record → Except CompileError (List Condition × List String)
  | [] => .ok ([], [])
  | (field, value) :: rest =>
      if isPassive (entity.layout.hashField index) field value then
        entity.conditionsOf index options rest
      else
        let declared := Kind.ofField entity.schema field
        let standing := entity.standing index options.lookup field
        match conditions? field value declared standing options.textMatch with
        | some conditions =>
            match entity.conditionsOf index options rest with
            | .ok (more, skipped) => .ok (conditions ++ more, skipped)
            | .error error => .error error
        | none =>
            if options.strict then .error (.unsupportedField field declared (Kind.ofValue value))
            else
              match entity.conditionsOf index options rest with
              | .ok (more, skipped) => .ok (more, field :: skipped)
              | .error error => .error error

/-- A global index can be read only with a value for its hash key. -/
def checkBinding : Option Index → Option HashBinding → Except CompileError Unit
  | some (.global index), none => .error (.missingIndexHashKey index.name index.hashKey)
  | _, _ => .ok ()

def plan (entity : Entity) (predicate : Predicate) (options : Options) :
    Except CompileError Plan := do
  let index ← entity.sortIndex options.sort
  let hashKey := (entity.layout.hashField index).bind (entity.hashBinding? predicate)
  checkBinding index hashKey
  let (conditions, skipped) ← entity.conditionsOf index options predicate.wanted
  .ok {
    hashKey
    conditions
    junction := options.junction
    lookup := options.lookup
    index := index.map Index.toPlan
    descending := (options.sort.map SortOrder.descending).getD false
    skipped }

end Entity

end SchemaQuery
