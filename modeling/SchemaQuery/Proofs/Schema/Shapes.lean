import SchemaQuery.Schema.Loader
import SchemaQuery.Proofs.Json.Members
import SchemaQuery.Proofs.Schema.Registration

/-!
# Shapes of a schema

The same descriptors may be written as an object or as a list of entries with names. Both are read
alike, up to the texts of their errors, but for one thing: an entry of a list may give its type with
an empty object for content. A list of the descriptors of a registered schema is read as that
schema.
-/

namespace SchemaQuery

namespace FieldType

theorem ofName?_name (type : FieldType) : ofName? type.name = some type := by
  cases type <;> rfl

theorem name_of_ofName? {name : String} {type : FieldType} (hname : ofName? name = some type) :
    type.name = name := by
  simpa using List.find?_some hname

/-- What an object may give as a type an entry may give as well. -/
theorem ofEntry?_of_ofJson? {value : Json} {type : FieldType} (htype : ofJson? value = some type) :
    ofEntry? value = some type := by
  unfold ofEntry?
  split
  next => cases htype
  next => exact htype

theorem ofEntry?_eq_ofJson? {value : Json}
    (hvalue : ∀ type : FieldType, value ≠ .object [(type.name, .object [])]) :
    ofEntry? value = ofJson? value := by
  unfold ofEntry?
  split
  next name =>
    cases hname : ofName? name with
    | none => rfl
    | some type => exact absurd (by rw [name_of_ofName? hname]) (hvalue type)
  next => rfl

end FieldType

namespace FieldDescriptor

/-- The type is given with an empty object for content. -/
def TypeHasContent (record : Record) : Prop :=
  ∃ type : FieldType, record.get? "type" = some (.object [(type.name, .object [])])

theorem ofJson?_object (record : Record) :
    ofJson? (.object record) = ofFields? FieldType.ofJson? (Members.get? record) := rfl

theorem ofFields?_congr {fields : Fields} {first second : Json → Option FieldType}
    (htype : fields.required "type" first = fields.required "type" second) :
    ofFields? first fields = ofFields? second fields := by
  rw [ofFields?, htype, ← ofFields?]

theorem ofFields?_ofEntry?_of_eq_some {fields : Fields} {descriptor : FieldDescriptor}
    (hread : ofFields? FieldType.ofJson? fields = some descriptor) :
    ofFields? FieldType.ofEntry? fields = some descriptor := by
  obtain ⟨type, htype, -⟩ := Option.bind_eq_some_iff.mp hread
  obtain ⟨value, hvalue, hofJson⟩ := Option.bind_eq_some_iff.mp htype
  rw [← hread]
  refine ofFields?_congr ?_
  rw [htype, Fields.required, hvalue]
  exact FieldType.ofEntry?_of_ofJson? hofJson

theorem ofFields?_ofEntry?_eq {record : Record} (hrecord : ¬TypeHasContent record) :
    ofFields? FieldType.ofEntry? (Members.get? record) =
      ofFields? FieldType.ofJson? (Members.get? record) := by
  refine ofFields?_congr (Option.bind_congr fun value hvalue => ?_)
  exact FieldType.ofEntry?_eq_ofJson? fun type htype => hrecord ⟨type, htype ▸ hvalue⟩

/-- No field of a descriptor is called `name`. -/
theorem ofFields?_set_name (readType : Json → Option FieldType) (record : Record) (value : Json) :
    ofFields? readType (Members.get? (Members.set record "name" value)) =
      ofFields? readType (Members.get? record) := by
  simp [ofFields?, Fields.required, Fields.withDefault, Fields.optional, Members.get?_set_of_ne]

/-- A descriptor is read as it was written. -/
theorem ofFields?_members (descriptor : FieldDescriptor) :
    ofFields? FieldType.ofEntry? (Members.get? descriptor.members) = some descriptor := by
  obtain ⟨type, isHashKey, isRangeKey, isLocalIndex, globalIndex⟩ := descriptor
  have htype : FieldType.ofEntry? (.string type.name) = some type := FieldType.ofName?_name type
  cases globalIndex with
  | none =>
      simp [ofFields?, members, Members.get?, Fields.required, Fields.withDefault,
        Fields.optional, Json.bool?, htype]
  | some hashKey =>
      have hindex : globalIndexOfJson? (.object [("hashKey", .string hashKey)]) = some hashKey := rfl
      simp [ofFields?, members, globalIndexToJson, Members.get?, Fields.required,
        Fields.withDefault, Fields.optional, Json.bool?, htype, hindex]

end FieldDescriptor

namespace Schema

/-! ### Shapes -/

def asMember (descriptor : String × Record) : String × Json :=
  (descriptor.1, .object descriptor.2)

/-- Descriptors by the names of their fields, as an object. -/
def asObject (descriptors : List (String × Record)) : Json := .object (descriptors.map asMember)

/-- An entry of a list: the descriptor with the name of its field. -/
def asEntry (descriptor : String × Record) : Json :=
  .object (Members.set descriptor.2 "name" (.string descriptor.1))

def asList (descriptors : List (String × Record)) : Json := .array (descriptors.map asEntry)

/-- The descriptor of a declared field, written out. -/
def written (field : String × FieldDescriptor) : String × Record := (field.1, field.2.members)

theorem entry?_asEntry (descriptor : String × Record) :
    entry? (asEntry descriptor) =
      (FieldDescriptor.ofFields? FieldType.ofEntry? (Members.get? descriptor.2)).map
        fun read => (descriptor.1, read) := by
  rw [asEntry, entry?, FieldDescriptor.ofFields?_set_name, Fields.required,
    Members.get?_set_self, Option.map_eq_bind]
  rfl

/-- A name is still free when another field is declared. -/
theorem notMem_withField {schema : Schema} {field name : String} {descriptor : FieldDescriptor}
    (hname : name ∉ schema.fields.map Prod.fst) (hne : name ≠ field) :
    name ∉ (schema.withField field descriptor).fields.map Prod.fst :=
  mt mem_names_declare.mp (not_or.mpr ⟨hne, hname⟩)

/-- If all of an object is read, or no type in it has content, the list is read alike. -/
theorem ofEntries_agrees {schema : Schema} {descriptors : List (String × Record)}
    (hnodup : (descriptors.map Prod.fst).Nodup)
    (hfree : ∀ descriptor ∈ descriptors, descriptor.1 ∉ schema.fields.map Prod.fst)
    (hread : (∃ read, schema.ofMembers (descriptors.map asMember) = .ok read) ∨
      ∀ descriptor ∈ descriptors, ¬FieldDescriptor.TypeHasContent descriptor.2) :
    (schema.ofMembers (descriptors.map asMember)).mapError SchemaError.code =
      (schema.ofEntries (descriptors.map asEntry)).mapError SchemaError.code := by
  induction descriptors generalizing schema with
  | nil => rfl
  | cons descriptor rest ih =>
      obtain ⟨hfirst, hnodup⟩ := List.nodup_cons.mp hnodup
      obtain ⟨hname, hfree⟩ := List.forall_mem_cons.mp hfree
      rw [List.forall_mem_cons] at hread
      rw [List.map_cons, asMember, ofMembers, FieldDescriptor.ofJson?_object] at hread ⊢
      rw [List.map_cons, ofEntries, entry?_asEntry]
      cases hobject : FieldDescriptor.ofFields? FieldType.ofJson? (Members.get? descriptor.2) with
      | some found =>
          rw [hobject] at hread
          rw [FieldDescriptor.ofFields?_ofEntry?_of_eq_some hobject]
          simp only [Option.map_some, isSome_field?_iff, if_neg hname]
          refine ih hnodup (fun other hother => ?_) (hread.imp_right And.right)
          refine notMem_withField (hfree other hother) fun hsame => hfirst ?_
          exact hsame ▸ List.mem_map_of_mem hother
      | none =>
          rw [hobject] at hread
          obtain ⟨_, hread⟩ | ⟨hcontent, -⟩ := hread
          · cases hread
          · rw [FieldDescriptor.ofFields?_ofEntry?_eq hcontent, hobject]
            rfl

theorem declare_of_notMem {field : String} {descriptor : FieldDescriptor}
    {fields : List (String × FieldDescriptor)} (hfield : field ∉ fields.map Prod.fst) :
    declare field descriptor fields = fields ++ [(field, descriptor)] := by
  induction fields with
  | nil => rfl
  | cons head rest ih =>
      obtain ⟨hne, hrest⟩ := not_or.mp (mt List.mem_cons.mpr hfield)
      rw [declare, if_neg (Ne.symm hne), ih hrest, List.cons_append]

/-- Entries of further fields are added in their order. -/
theorem ofEntries_written {schema : Schema} {more : List (String × FieldDescriptor)}
    (hnodup : ((schema.fields ++ more).map Prod.fst).Nodup) :
    ∃ read, schema.ofEntries ((more.map written).map asEntry) = .ok read ∧
      read.name = schema.name ∧ read.fields = schema.fields ++ more := by
  induction more generalizing schema with
  | nil => exact ⟨schema, rfl, rfl, (List.append_nil _).symm⟩
  | cons field rest ih =>
      have hfield : field.1 ∉ schema.fields.map Prod.fst := by
        rw [List.map_append, List.nodup_append] at hnodup
        exact fun hmem => hnodup.2.2 _ hmem _ List.mem_cons_self rfl
      have hfields : (schema.withField field.1 field.2).fields = schema.fields ++ [field] :=
        declare_of_notMem hfield
      rw [List.map_cons, List.map_cons, ofEntries, entry?_asEntry, written,
        FieldDescriptor.ofFields?_members]
      simp only [Option.map_some, isSome_field?_iff, if_neg hfield]
      rw [List.append_cons, ← hfields] at hnodup ⊢
      exact ih hnodup

/-- What was read is given if it has no fault. -/
def checked (schema : Schema) : Except SchemaError Schema :=
  match schema.firstFault? with
  | some error => .error error
  | none => .ok schema

theorem ofJson_asObject (name : String) (descriptors : List (String × Record)) :
    ofJson name (asObject descriptors) =
      (empty name).ofMembers (descriptors.map asMember) >>= checked := rfl

theorem ofJson_asList (name : String) (descriptors : List (String × Record)) :
    ofJson name (asList descriptors) =
      (empty name).ofEntries (descriptors.map asEntry) >>= checked := rfl

theorem mapError_bind (read : Except SchemaError Schema) :
    (read >>= checked).mapError SchemaError.code =
      read.mapError SchemaError.code >>= fun schema => schema.checked.mapError SchemaError.code := by
  cases read <;> rfl

/-- An object is read to the end if its schema is given. -/
theorem exists_ofMembers_of_ofJson {name : String} {descriptors : List (String × Record)}
    {schema : Schema} (hobject : ofJson name (asObject descriptors) = .ok schema) :
    ∃ read, (empty name).ofMembers (descriptors.map asMember) = .ok read := by
  rw [ofJson_asObject] at hobject
  cases hread : (empty name).ofMembers (descriptors.map asMember) with
  | ok read => exact ⟨read, rfl⟩
  | error error => cases (congrArg (· >>= checked) hread).symm.trans hobject

theorem ofJson_agrees {name : String} {descriptors : List (String × Record)}
    (hnodup : (descriptors.map Prod.fst).Nodup)
    (hread : (∃ schema, ofJson name (asObject descriptors) = .ok schema) ∨
      ∀ descriptor ∈ descriptors, ¬FieldDescriptor.TypeHasContent descriptor.2) :
    (ofJson name (asObject descriptors)).mapError SchemaError.code =
      (ofJson name (asList descriptors)).mapError SchemaError.code := by
  have hfree : ∀ descriptor ∈ descriptors, descriptor.1 ∉ (empty name).fields.map Prod.fst :=
    fun _ _ => List.not_mem_nil
  rw [ofJson_asObject, ofJson_asList, mapError_bind, mapError_bind,
    ofEntries_agrees hnodup hfree (hread.imp_left fun h => exists_ofMembers_of_ofJson h.choose_spec)]

theorem ofJson_asList_eq_ok {name : String} {descriptors : List (String × Record)}
    (hnodup : (descriptors.map Prod.fst).Nodup) {schema : Schema}
    (hobject : ofJson name (asObject descriptors) = .ok schema) :
    ofJson name (asList descriptors) = .ok schema := by
  have hagree := ofJson_agrees hnodup (Or.inl ⟨schema, hobject⟩)
  rw [hobject] at hagree
  cases hlist : ofJson name (asList descriptors) with
  | ok read =>
      rw [hlist] at hagree
      exact congrArg Except.ok (Except.ok.inj hagree).symm
  | error error =>
      rw [hlist] at hagree
      cases hagree

theorem ofJson_written (entity : Entity) :
    ofJson entity.name (asList (entity.schema.fields.map written)) = .ok entity.schema := by
  have hnodup : (((empty entity.name).fields ++ entity.schema.fields).map Prod.fst).Nodup :=
    entity.schema.nodup
  obtain ⟨read, hread, hname, hfields⟩ := ofEntries_written hnodup
  obtain rfl : read = entity.schema := by
    cases read
    cases hname
    cases hfields
    rfl
  rw [ofJson_asList, hread]
  change entity.schema.checked = _
  rw [checked, entity.valid]

/-- **The two shapes of a schema.** An object of descriptors and the list of the same descriptors,
whose names are distinct, give equal schemas or errors of one code, if no type in them has an empty
object for content; in any case the list gives the schema of the object, where there is one. The
list of the descriptors of a registered schema gives this schema. -/
theorem shapes_agree (name : String) {descriptors : List (String × Record)}
    (hnodup : (descriptors.map Prod.fst).Nodup) :
    ((∀ descriptor ∈ descriptors, ¬FieldDescriptor.TypeHasContent descriptor.2) →
      (ofJson name (asObject descriptors)).mapError SchemaError.code =
        (ofJson name (asList descriptors)).mapError SchemaError.code) ∧
    (∀ schema, ofJson name (asObject descriptors) = .ok schema →
      ofJson name (asList descriptors) = .ok schema) ∧
    ∀ entity : Entity,
      ofJson entity.name (asList (entity.schema.fields.map written)) = .ok entity.schema := by
  refine ⟨fun hcontent => ?_, fun schema hobject => ?_, ofJson_written⟩
  · exact ofJson_agrees hnodup (Or.inr hcontent)
  · exact ofJson_asList_eq_ok hnodup hobject

/-- Stops of buses by route and time. -/
def stops : List (String × Record) :=
  [("route", [("isHashKey", .bool true), ("type", .string "String")]),
    ("time", [("isRangeKey", .bool true), ("type", .object [("Date", .null)])])]

theorem stops_shapes_agree :
    (ofJson "stops" (asObject stops)).mapError SchemaError.code =
      (ofJson "stops" (asList stops)).mapError SchemaError.code ∧
    ofJson "stops" (asList stops) = .ok (ofList "stops"
      [("route", { type := .string, isHashKey := true }),
        ("time", { type := .date, isRangeKey := true })]) := by
  have hnodup : (stops.map Prod.fst).Nodup := by decide
  obtain ⟨hagree, hlist, -⟩ := shapes_agree "stops" hnodup
  refine ⟨hagree ?_, hlist _ rfl⟩
  simp [stops, FieldDescriptor.TypeHasContent, Members.get?]

/-- Parts by their number, whose type has content. -/
def parts : List (String × Record) := [("number", [("type", .object [("String", .object [])])])]

theorem parts_shapes_differ :
    (ofJson "parts" (asObject parts)).mapError SchemaError.code = .error "SCHEMA_MALFORMED" ∧
      ofJson "parts" (asList parts) = .ok (ofList "parts" [("number", { type := .string })]) :=
  ⟨rfl, rfl⟩

end Schema

end SchemaQuery
