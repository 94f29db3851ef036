import SchemaQuery.Batch.Request
import SchemaQuery.Config
import SchemaQuery.Document.Query
import SchemaQuery.KeyValue.TableRead
import SchemaQuery.Proofs.Schema.Shapes

/-!
# Wire forms are read as they were written

A structure is written as an object of its fields, some of which are left out when they are empty.
The reader takes each field from its member, and what is left out from its default; so every
structure is read as it was written, whatever texts and values it holds.
-/

namespace SchemaQuery

/-! ### Values -/

namespace Json

@[simp] theorem string?_string (s : String) : string? (.string s) = some s := rfl

@[simp] theorem bool?_bool (b : Bool) : bool? (.bool b) = some b := rfl

@[simp] theorem object?_object (record : Record) : object? (.object record) = some record := rfl

theorem bounded?_nat {limit n : Nat} (hlt : n < limit) : bounded? limit (.nat n) = some n :=
  if_pos hlt

@[simp] theorem uint32?_nat (n : UInt32) : uint32? (.nat n.toNat) = some n := by
  rw [uint32?, bounded?_nat n.toNat_lt, Option.map_some, UInt32.ofNat_toNat]

@[simp] theorem uint64?_nat (n : UInt64) : uint64? (.nat n.toNat) = some n := by
  rw [uint64?, bounded?_nat n.toNat_lt, Option.map_some, UInt64.ofNat_toNat]

@[simp] theorem strings?_strings (items : List String) :
    strings? (.strings items) = some items := by
  rw [strings?, strings, listOf?]
  induction items with
  | nil => rfl
  | cons item items ih => rw [List.map_cons, List.mapM_cons, ih]; rfl

@[simp] theorem texts?_textMembers (texts : Members String) :
    texts? (.object (KeyValue.TableRead.textMembers texts)) = some texts := by
  rw [texts?]
  induction texts with
  | nil => rfl
  | cons text texts ih =>
      rw [KeyValue.TableRead.textMembers] at ih ⊢
      rw [List.map_cons, List.mapM_cons, ih]
      rfl

@[simp] theorem optional?_ofOption_string (s : Option String) :
    optional? string? (.ofOption .string s) = some s := by
  cases s <;> rfl

end Json

/-! ### Fields -/

namespace Fields

variable {α : Type} {fields : Fields} {name : String} {read : Json → Option α}

theorem withDefault_eq (fields : Fields) (name : String) (read : Json → Option α) (absent : α) :
    fields.withDefault name read absent = ((fields name).map read).getD (some absent) := by
  rw [withDefault]
  cases fields name <;> rfl

theorem optional_eq (fields : Fields) (name : String) (read : Json → Option α) :
    fields.optional name read = ((fields name).map (Json.optional? read)).getD (some none) := by
  rw [optional]
  cases fields name with
  | none => rfl
  | some value => cases value <;> rfl

/-- A field that is left out when there is no value. -/
theorem optional_of_map {write : α → Json} {value : Option α}
    (hfield : fields name = value.map write)
    (hread : ∀ a, Json.optional? read (write a) = some (some a)) :
    fields.optional name read = some value := by
  rw [optional_eq, hfield]
  cases value with
  | none => rfl
  | some a => exact hread a

/-- A field that is left out when it is empty. -/
theorem withDefault_of_nonempty {members : Record} {a absent : α}
    (hfield : fields name = if members = [] then none else some (.object members))
    (hread : read (.object members) = some a) (habsent : members = [] → absent = a) :
    fields.withDefault name read absent = some a := by
  rw [withDefault_eq, hfield]
  split
  next hempty => rw [habsent hempty]; rfl
  next => exact hread

end Fields

/-! ### Structures -/

theorem Cursor.ofJson?_toJson (cursor : Cursor) : ofJson? cursor.toJson = some cursor := rfl

theorem SegmentCursor.ofJson?_toJson (cursor : SegmentCursor) :
    ofJson? cursor.toJson = some cursor := by
  cases cursor <;> rfl

theorem WriteRequest.ofJson?_toJson (request : WriteRequest) :
    ofJson? request.toJson = some request := by
  cases request <;> rfl

theorem Predicate.ofJson?_toJson (predicate : Predicate) :
    ofJson? predicate.toJson = some predicate := rfl

@[simp] theorem Junction.ofJson?_toJson (junction : Junction) :
    ofJson? junction.toJson = some junction := by
  cases junction <;> rfl

theorem SortOrder.ofJson?_toJson (sort : SortOrder) : ofJson? sort.toJson = some sort := by
  simp [ofJson?, toJson, Json.fields?, Fields.required, Fields.withDefault_eq, Members.get?_cons]

@[simp] theorem RetryPolicy.ofJson?_toJson (policy : RetryPolicy) :
    ofJson? policy.toJson = some policy := by
  simp [ofJson?, toJson, Json.fields?, Fields.withDefault_eq, Members.get?_cons]

theorem Config.ofJson?_toJson (config : Config) : ofJson? config.toJson = some config := by
  simp [ofJson?, toJson, Json.fields?, Fields.withDefault_eq, Members.get?_cons]

theorem FieldDescriptor.ofJson?_toJson (descriptor : FieldDescriptor) :
    ofJson? descriptor.toJson = some descriptor := by
  have htype : ¬TypeHasContent descriptor.members := by
    rintro ⟨type, htype⟩
    have hname : Members.get? descriptor.members "type" = some (.string descriptor.type.name) := by
      cases h : descriptor.globalIndex <;> simp [members, h, Members.get?_cons]
    cases hname.symm.trans htype
  rw [toJson, ofJson?_object, ← ofFields?_ofEntry?_eq htype, ofFields?_members]

namespace Document

theorem Fragment.ofJson?_toJson (fragment : Fragment) :
    ofJson? fragment.toJson = some fragment := by
  simp [ofJson?, toJson, Json.fields?, Fields.withDefault_eq, Members.get?_cons]

theorem FieldOrder.ofJson?_toJson (order : FieldOrder) : ofJson? order.toJson = some order := by
  simp [ofJson?, toJson, Json.fields?, Fields.required, Fields.withDefault_eq, Members.get?_cons]

@[simp] theorem FieldOrder.optional?_toJson (order : FieldOrder) :
    Json.optional? ofJson? order.toJson = some (some order) :=
  congrArg (Option.map some) order.ofJson?_toJson

theorem Query.ofJson?_toJson (query : Query) : ofJson? query.toJson = some query := by
  obtain ⟨conditions, order, projection⟩ := query
  cases order <;> cases projection <;>
    simp [ofJson?, toJson, Json.fields?, Fields.required, Fields.withDefault_eq,
      Fields.optional_eq, Members.get?_cons]

end Document

namespace KeyValue

theorem Fragment.ofJson?_toJson (fragment : Fragment) :
    ofJson? fragment.toJson = some fragment := by
  have hnames : Json.texts? (textsToJson fragment.names) = some fragment.names :=
    Json.texts?_textMembers fragment.names
  simp [ofJson?, toJson, Json.fields?, Fields.withDefault_eq, Fields.optional_eq,
    Members.get?_cons, hnames]

namespace TableRead

theorem get?_member {α : Type} (name other : String) (write : α → Json) (value : Option α) :
    Members.get? (member name write value) other =
      if name = other then value.map write else none := by
  cases value with
  | none => simp [member]
  | some a => rw [member, Members.get?_cons, Members.get?_nil]; rfl

theorem get?_nonempty (name other : String) (members : Record) :
    Members.get? (nonempty name members) other =
      if name = other then if members = [] then none else some (.object members) else none := by
  cases members with
  | nil => simp [nonempty]
  | cons member members => simp [nonempty, Members.get?_cons]

/-- What a read is written as under each name. -/
theorem exists_fields (read : TableRead) :
    ∃ fields : Fields, read.toJson.fields? fieldNames = some fields ∧
      fields "TableName" = some (.string read.tableName) ∧
      fields "KeyConditionExpression" = read.keyCondition.map .string ∧
      fields "FilterExpression" = read.filter.map .string ∧
      fields "ProjectionExpression" = read.projection.map .string ∧
      (fields "ExpressionAttributeNames" =
        if textMembers read.names = [] then none else some (.object (textMembers read.names))) ∧
      (fields "ExpressionAttributeValues" =
        if read.values = [] then none else some (.object read.values)) ∧
      fields "IndexName" = read.indexName.map .string ∧
      fields "ScanIndexForward" = read.forward.map .bool ∧
      fields "ExclusiveStartKey" = read.startKey.map Cursor.toJson ∧
      fields "Limit" = read.limit.map word ∧
      fields "Segment" = read.segment.map word ∧
      fields "TotalSegments" = read.totalSegments.map word := by
  refine ⟨_, rfl, ?_⟩
  simp [Members.get?_append, Members.get?_cons, get?_member, get?_nonempty]

theorem ofJson?_toJson (read : TableRead) : ofJson? read.toJson = some read := by
  obtain ⟨fields, hfields, htable, hcondition, hfilter, hprojection, hnames, hvalues, hindex,
    hforward, hstart, hlimit, hsegment, htotal⟩ := exists_fields read
  have hempty : textMembers read.names = [] → [] = read.names := fun h =>
    (List.map_eq_nil_iff.mp h).symm
  have hstring (s : String) : Json.optional? Json.string? (.string s) = some (some s) := rfl
  have hbool (b : Bool) : Json.optional? Json.bool? (.bool b) = some (some b) := rfl
  have hcursor (cursor : Cursor) :
      Json.optional? Cursor.ofJson? cursor.toJson = some (some cursor) :=
    congrArg (Option.map some) cursor.ofJson?_toJson
  have hword (n : UInt32) : Json.optional? Json.uint32? (word n) = some (some n) :=
    congrArg (Option.map some) (Json.uint32?_nat n)
  simp only [ofJson?, hfields, Fields.required, htable, Json.string?_string,
    Fields.optional_of_map hcondition hstring, Fields.optional_of_map hfilter hstring,
    Fields.optional_of_map hprojection hstring,
    Fields.withDefault_of_nonempty hnames (Json.texts?_textMembers read.names) hempty,
    Fields.withDefault_of_nonempty hvalues (Json.object?_object read.values) Eq.symm,
    Fields.optional_of_map hindex hstring, Fields.optional_of_map hforward hbool,
    Fields.optional_of_map hstart hcursor, Fields.optional_of_map hlimit hword,
    Fields.optional_of_map hsegment hword, Fields.optional_of_map htotal hword,
    Option.bind_eq_bind, Option.bind_some]

end TableRead

end KeyValue

end SchemaQuery
