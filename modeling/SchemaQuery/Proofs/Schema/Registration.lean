import Mathlib.Data.List.Forall2
import SchemaQuery.Schema.Layout

/-!
# Registration

The check of a schema goes through the fields once and keeps the keys it has met. It lets pass just
the schemas that are well formed: each field by itself is admitted, and there are not two hash keys
or two range keys. The layout of such a schema says nothing but what the fields declare, in the
order of their declaration, and a cursor holds what its order and the primary keys ask for.
-/

namespace SchemaQuery

namespace Schema

variable {schema : Schema} {name : String} {descriptor : FieldDescriptor}

/-! ### Declared fields -/

theorem field?_eq_some_iff :
    schema.field? name = some descriptor ↔ (name, descriptor) ∈ schema.fields := by
  rw [field?, List.lookup_eq_some_iff]
  constructor
  · rintro ⟨before, after, hfields, -⟩
    exact hfields ▸ List.mem_append_right before List.mem_cons_self
  · intro hmem
    obtain ⟨before, after, hfields⟩ := List.append_of_mem hmem
    have hnodup := schema.nodup
    rw [hfields, List.map_append, List.nodup_append] at hnodup
    refine ⟨before, after, hfields, fun other hother => bne_iff_ne.mpr fun hsame => ?_⟩
    exact hnodup.2.2 _ (List.mem_map_of_mem hother) _ List.mem_cons_self hsame.symm

theorem isSome_field?_iff :
    (schema.field? name).isSome = true ↔ name ∈ schema.fields.map Prod.fst := by
  rw [field?, List.lookup_isSome_iff, List.mem_map]
  exact exists_congr fun entry => and_congr_right' (beq_iff_eq.trans eq_comm)

/-- A field with a flag is declared. -/
def Flags (schema : Schema) (flag : FieldDescriptor → Bool) (name : String) : Prop :=
  ∃ descriptor, schema.field? name = some descriptor ∧ flag descriptor = true

theorem mem_flagged_iff {flag : FieldDescriptor → Bool} :
    name ∈ schema.flagged flag ↔ schema.Flags flag name := by
  simp [flagged, Flags, field?_eq_some_iff]

/-! ### Well-formed schemas -/

/-- What is asked of a field by itself: a name, one part at most in the primary key, and a declared
hash key for its index. -/
structure Admits (schema : Schema) (entry : String × FieldDescriptor) : Prop where
  named : entry.1 ≠ ""
  onePart : ¬(entry.2.isHashKey = true ∧ entry.2.isRangeKey = true)
  indexed : ∀ hashKey, entry.2.globalIndex = some hashKey →
    hashKey ∈ schema.fields.map Prod.fst

structure WellFormed (schema : Schema) : Prop where
  admits : ∀ entry ∈ schema.fields, schema.Admits entry
  oneHashKey : schema.fields.countP (fun entry => entry.2.isHashKey) ≤ 1
  oneRangeKey : schema.fields.countP (fun entry => entry.2.isRangeKey) ≤ 1

/-- A field passes if it is admitted and is not the second of one kind of key. -/
theorem fault?_cons_eq_none_iff {hashKey rangeKey : Option String}
    {entry : String × FieldDescriptor} {rest : List (String × FieldDescriptor)} :
    schema.fault? hashKey rangeKey (entry :: rest) = none ↔
      schema.Admits entry ∧
      (entry.2.isHashKey = true → hashKey = none) ∧
      (entry.2.isRangeKey = true → rangeKey = none) ∧
      schema.fault? (if entry.2.isHashKey then some entry.1 else hashKey)
        (if entry.2.isRangeKey then some entry.1 else rangeKey) rest = none := by
  obtain ⟨name, descriptor⟩ := entry
  rw [fault?]
  by_cases hname : name = ""
  · rw [if_pos hname]
    exact iff_of_false nofun fun h => h.1.named hname
  rw [if_neg hname]
  by_cases hboth : descriptor.isHashKey = true ∧ descriptor.isRangeKey = true
  · rw [if_pos hboth]
    exact iff_of_false nofun fun h => h.1.onePart hboth
  rw [if_neg hboth]
  split
  next hfirst =>
    refine iff_of_false nofun fun h => ?_
    split at hfirst
    next hhash => cases hfirst.symm.trans (h.2.1 hhash)
    next => cases hfirst
  next hfirst =>
    refine iff_of_false nofun fun h => ?_
    split at hfirst
    next hrange => cases hfirst.symm.trans (h.2.2.1 hrange)
    next => cases hfirst
  next hhash hrange =>
    have hhash : descriptor.isHashKey = true → hashKey = none := fun h => by
      rwa [if_pos h] at hhash
    have hrange : descriptor.isRangeKey = true → rangeKey = none := fun h => by
      rwa [if_pos h] at hrange
    split
    next indexKey hindex =>
      split
      next hdeclared =>
        refine ⟨fun h => ⟨⟨hname, hboth, ?_⟩, hhash, hrange, h⟩, fun h => h.2.2.2⟩
        rintro _ hother
        obtain rfl := Option.some.inj (hindex.symm.trans hother)
        exact isSome_field?_iff.mp hdeclared
      next hmissing =>
        exact iff_of_false nofun fun h =>
          hmissing (isSome_field?_iff.mpr (h.1.indexed indexKey hindex))
    next hindex =>
      refine ⟨fun h => ⟨⟨hname, hboth, ?_⟩, hhash, hrange, h⟩, fun h => h.2.2.2⟩
      exact fun _ hother => absurd (hindex.symm.trans hother) nofun

/-- Of a kind of key there is room for one, also of those met before. -/
theorem room_cons (isKey : Bool) (key : Option String) (name : String) (more : Nat) :
    (isKey = true → key = none) ∧
        more + (if isKey then some name else key).toList.length ≤ 1 ↔
      more + (if isKey then 1 else 0) + key.toList.length ≤ 1 := by
  cases isKey <;> cases key <;> simp

theorem fault?_eq_none_iff {hashKey rangeKey : Option String}
    {fields : List (String × FieldDescriptor)} :
    schema.fault? hashKey rangeKey fields = none ↔
      (∀ entry ∈ fields, schema.Admits entry) ∧
      fields.countP (fun entry => entry.2.isHashKey) + hashKey.toList.length ≤ 1 ∧
      fields.countP (fun entry => entry.2.isRangeKey) + rangeKey.toList.length ≤ 1 := by
  induction fields generalizing hashKey rangeKey with
  | nil => cases hashKey <;> cases rangeKey <;> simp [fault?]
  | cons entry rest ih =>
      rw [fault?_cons_eq_none_iff, ih, List.forall_mem_cons, List.countP_cons, List.countP_cons,
        ← room_cons _ hashKey entry.1, ← room_cons _ rangeKey entry.1]
      tauto

theorem firstFault?_eq_none_iff : schema.firstFault? = none ↔ schema.WellFormed := by
  rw [firstFault?, fault?_eq_none_iff]
  exact ⟨fun h => ⟨h.1, h.2.1, h.2.2⟩, fun h => ⟨h.admits, h.oneHashKey, h.oneRangeKey⟩⟩

end Schema

namespace Entity

theorem wellFormed (entity : Entity) : entity.schema.WellFormed :=
  Schema.firstFault?_eq_none_iff.mp entity.valid

theorem register_eq_ok_iff {schema : Schema} {entity : Entity} :
    register schema = .ok entity ↔ entity.schema = schema := by
  unfold register
  split
  next error hfault =>
    refine iff_of_false nofun ?_
    rintro rfl
    cases hfault.symm.trans entity.valid
  next hfault => exact ⟨fun h => Except.ok.inj h ▸ rfl, fun h => by subst h; rfl⟩

end Entity

/-! ### Layouts -/

/-- The index that a field declares, with the types of both its fields. -/
structure GlobalIndex.IsDeclaredBy (schema : Schema) (index : GlobalIndex)
    (entry : String × FieldDescriptor) : Prop where
  name : index.name = GlobalIndex.nameFor entry.1
  sortField : index.sortField = entry.1
  sortType : index.sortType = entry.2.type
  hashKey : entry.2.globalIndex = some index.hashKey
  hashKeyType : ∃ descriptor, schema.field? index.hashKey = some descriptor ∧
    index.hashKeyType = some descriptor.type

namespace Schema

variable {schema : Schema} {entry : String × FieldDescriptor}

/-- What the layout takes for the index of a field. -/
def indexOn (schema : Schema) (entry : String × FieldDescriptor) : Option GlobalIndex :=
  entry.2.globalIndex.map fun hashKey =>
    { name := GlobalIndex.nameFor entry.1
      hashKey
      hashKeyType := (schema.field? hashKey).map (·.type)
      sortField := entry.1
      sortType := entry.2.type }

theorem globalIndexes_eq (schema : Schema) :
    schema.globalIndexes = schema.fields.filterMap schema.indexOn := rfl

theorem indexOn_eq_some_iff (hentry : schema.Admits entry) {index : GlobalIndex} :
    schema.indexOn entry = some index ↔ index.IsDeclaredBy schema entry := by
  constructor
  · intro hindex
    obtain ⟨hashKey, hdeclared, rfl⟩ := Option.map_eq_some_iff.mp hindex
    obtain ⟨descriptor, hfield⟩ := Option.isSome_iff_exists.mp
      (isSome_field?_iff.mpr (hentry.indexed hashKey hdeclared))
    exact ⟨rfl, rfl, rfl, hdeclared, descriptor, hfield, congrArg (Option.map _) hfield⟩
  · rintro ⟨hname, hsortField, hsortType, hhashKey, descriptor, hfield, hhashKeyType⟩
    cases index
    subst hname hsortField hsortType hhashKeyType
    rw [indexOn, hhashKey, Option.map_some, hfield, Option.map_some]

theorem WellFormed.mem_globalIndexes_iff (hschema : schema.WellFormed) {index : GlobalIndex} :
    index ∈ schema.globalIndexes ↔ ∃ entry ∈ schema.fields, index.IsDeclaredBy schema entry := by
  rw [globalIndexes_eq, List.mem_filterMap]
  exact exists_congr fun entry => and_congr_right fun hmem =>
    indexOn_eq_some_iff (hschema.admits entry hmem)

theorem WellFormed.forall₂_globalIndexes (hschema : schema.WellFormed) :
    List.Forall₂ (GlobalIndex.IsDeclaredBy schema) schema.globalIndexes
      (schema.fields.filter fun entry => entry.2.globalIndex.isSome) := by
  have hadmits := hschema.admits
  rw [globalIndexes_eq]
  generalize schema.fields = fields at hadmits ⊢
  induction fields with
  | nil => exact .nil
  | cons entry rest ih =>
      obtain ⟨hentry, hrest⟩ := List.forall_mem_cons.mp hadmits
      have hisSome : (schema.indexOn entry).isSome = entry.2.globalIndex.isSome := Option.isSome_map
      rw [List.filterMap_cons, List.filter_cons, ← hisSome]
      cases hindex : schema.indexOn entry with
      | none => exact ih hrest
      | some index => exact .cons ((indexOn_eq_some_iff hentry).mp hindex) (ih hrest)

/-- If at most one field has a flag, the first that has it is the only one. -/
theorem head?_flagged_iff {flag : FieldDescriptor → Bool}
    (hcount : schema.fields.countP (fun entry => flag entry.2) ≤ 1) {name : String} :
    (schema.flagged flag).head? = some name ↔ schema.Flags flag name := by
  rw [← mem_flagged_iff]
  have hlength : (schema.flagged flag).length ≤ 1 := by
    rwa [flagged, List.length_map, ← List.countP_eq_length_filter]
  match hflagged : schema.flagged flag, hlength with
  | [], _ => simp
  | [only], _ => simp [eq_comm]

end Schema

namespace Layout

theorem prefix_foldl_adjoin (names more : List String) : names <+: more.foldl adjoin names := by
  induction more generalizing names with
  | nil => exact List.prefix_rfl
  | cons next more ih =>
      refine List.IsPrefix.trans ?_ (ih (adjoin names next))
      rw [adjoin]
      split
      next => exact List.prefix_rfl
      next => exact List.prefix_append names [next]

theorem mem_foldl_adjoin {names more : List String} {name : String} :
    name ∈ more.foldl adjoin names ↔ name ∈ names ∨ name ∈ more := by
  induction more generalizing names with
  | nil => simp
  | cons next more ih =>
      have hadjoin : name ∈ adjoin names next ↔ name ∈ names ∨ name = next := by
        rw [adjoin]
        split
        next hmem => exact (or_iff_left_of_imp fun h => h ▸ hmem).symm
        next => rw [List.mem_append, List.mem_singleton]
      rw [List.foldl_cons, ih, hadjoin, List.mem_cons, or_assoc]

/-- A cursor has the keys required by the order, the sort field of the index, the primary keys, and
nothing else. -/
theorem mem_cursorKeys_iff (layout : Layout) (sort : Option String) {name : String} :
    name ∈ layout.cursorKeys sort ↔
      name ∈ layout.requiredKeys sort ∨
      (∃ index, sort.bind layout.index? = some index ∧ index.sortField = name) ∨
      name ∈ layout.primaryKeys := by
  rw [cursorKeys, mem_foldl_adjoin, List.mem_append, Option.mem_toList, Option.map_eq_some_iff]

/-- A cursor has the primary keys, whatever the order. -/
theorem primaryKeys_subset_cursorKeys (layout : Layout) (sort : Option String) {name : String}
    (hname : name ∈ layout.primaryKeys) : name ∈ layout.cursorKeys sort :=
  (layout.mem_cursorKeys_iff sort).mpr (Or.inr (Or.inr hname))

theorem requiredKeys_prefix_cursorKeys (layout : Layout) (sort : Option String) :
    layout.requiredKeys sort <+: layout.cursorKeys sort :=
  prefix_foldl_adjoin _ _

/-- A layout says what the fields of the schema declare. -/
structure Describes (layout : Layout) (schema : Schema) : Prop where
  hashKey : ∀ name, layout.hashKey = some name ↔ schema.Flags (·.isHashKey) name
  rangeKey : ∀ name, layout.rangeKey = some name ↔ schema.Flags (·.isRangeKey) name
  localIndexes_sublist : layout.localIndexes.Sublist (schema.fields.map Prod.fst)
  mem_localIndexes : ∀ name, name ∈ layout.localIndexes ↔ schema.Flags (·.isLocalIndex) name
  globalIndexes : List.Forall₂ (GlobalIndex.IsDeclaredBy schema) layout.globalIndexes
    (schema.fields.filter fun entry => entry.2.globalIndex.isSome)
  requiredKeys : ∀ sort, layout.requiredKeys sort <+: layout.cursorKeys sort
  sortField : ∀ sort index, layout.index? sort = some index →
    index.sortField ∈ layout.cursorKeys (some sort)
  primaryKeys : ∀ sort, layout.primaryKeys ⊆ layout.cursorKeys sort

end Layout

theorem Schema.WellFormed.layout {schema : Schema} (hschema : schema.WellFormed) :
    schema.layout.Describes schema where
  hashKey _ := Schema.head?_flagged_iff hschema.oneHashKey
  rangeKey _ := Schema.head?_flagged_iff hschema.oneRangeKey
  localIndexes_sublist := List.Sublist.map Prod.fst List.filter_sublist
  mem_localIndexes _ := Schema.mem_flagged_iff
  globalIndexes := hschema.forall₂_globalIndexes
  requiredKeys := schema.layout.requiredKeys_prefix_cursorKeys
  sortField _ index hindex :=
    (schema.layout.mem_cursorKeys_iff _).mpr (Or.inr (Or.inl ⟨index, hindex, rfl⟩))
  primaryKeys sort _ hname := schema.layout.primaryKeys_subset_cursorKeys sort hname

instance (schema : Schema) : Decidable schema.WellFormed :=
  decidable_of_iff _ Schema.firstFault?_eq_none_iff

/-- **Registration.** A schema is registered if it is well formed, and only then; what is registered
is the schema itself, with a layout that says what its fields declare. -/
theorem Entity.registers_wellFormed (schema : Schema) :
    ((∃ entity, register schema = .ok entity) ↔ schema.WellFormed) ∧
      ∀ entity, register schema = .ok entity →
        entity.schema = schema ∧ entity.layout.Describes schema := by
  refine ⟨⟨?_, fun hschema => ?_⟩, fun entity hentity => ?_⟩
  · rintro ⟨entity, hentity⟩
    exact register_eq_ok_iff.mp hentity ▸ entity.wellFormed
  · exact ⟨⟨schema, Schema.firstFault?_eq_none_iff.mpr hschema⟩, register_eq_ok_iff.mpr rfl⟩
  · obtain rfl := register_eq_ok_iff.mp hentity
    exact ⟨rfl, entity.wellFormed.layout⟩

/-- Orders of a shop by number. The number is declared twice; it is a key only the second time. -/
def orders : Schema :=
  Schema.ofList "orders" [("number", { type := .string }),
    ("placed", { type := .date, isRangeKey := true, globalIndex := some "shop" }),
    ("shop", { type := .string, isLocalIndex := true }),
    ("number", { type := .number, isHashKey := true })]

theorem orders_registered : ∃ entity, Entity.register orders = .ok entity ∧
    entity.schema = orders ∧ entity.layout.Describes orders := by
  obtain ⟨hregisters, hdescribes⟩ := Entity.registers_wellFormed orders
  obtain ⟨entity, hentity⟩ := hregisters.mpr (by decide)
  exact ⟨entity, hentity, hdescribes entity hentity⟩

end SchemaQuery
