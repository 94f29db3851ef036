import SchemaQuery.Proofs.Schema.Registration

/-!
# Names of indexes

An index is chosen by its name: a local one by its field, a global one by the field it sorts by and
a suffix. Two global indexes never share a name, so each is found by its own. But a field may itself
be named like the global index of another one; then its local index is never found, since global
indexes are looked up first.
-/

namespace SchemaQuery

theorem GlobalIndex.nameFor_injective : Function.Injective GlobalIndex.nameFor :=
  fun _ _ h => (String.append_left_inj _).mp h

theorem Layout.index?_eq_global_iff {layout : Layout} {name : String} {index : GlobalIndex} :
    layout.index? name = some (.global index) ↔ layout.globalIndex? name = some index := by
  rw [index?]
  cases layout.globalIndex? name with
  | some other => simp
  | none => cases layout.isLocallyIndexed name <;> simp

namespace Schema

variable {schema : Schema}

/-- Some field declares a global index of this name. -/
def NamesGlobalIndex (schema : Schema) (name : String) : Prop :=
  ∃ field, schema.Flags (·.globalIndex.isSome) field ∧ GlobalIndex.nameFor field = name

/-- Fields are told apart by their names, and so are their global indexes. -/
theorem WellFormed.index_unique (hschema : schema.WellFormed) {first second : GlobalIndex}
    (hfirst : first ∈ schema.globalIndexes) (hsecond : second ∈ schema.globalIndexes)
    (hname : first.name = second.name) : first = second := by
  obtain ⟨⟨field, descriptor⟩, hentry, hdeclares⟩ := hschema.mem_globalIndexes_iff.mp hfirst
  obtain ⟨⟨other, found⟩, hother, hagain⟩ := hschema.mem_globalIndexes_iff.mp hsecond
  obtain rfl : field = other :=
    GlobalIndex.nameFor_injective (hdeclares.name.symm.trans (hname.trans hagain.name))
  obtain rfl : descriptor = found := Option.some.inj
    ((field?_eq_some_iff.mpr hentry).symm.trans (field?_eq_some_iff.mpr hother))
  have hadmits := hschema.admits _ hentry
  exact Option.some.inj (((indexOn_eq_some_iff hadmits).mpr hdeclares).symm.trans
    ((indexOn_eq_some_iff hadmits).mpr hagain))

theorem WellFormed.globalIndex?_eq_some_iff (hschema : schema.WellFormed) {name : String}
    {index : GlobalIndex} :
    schema.layout.globalIndex? name = some index ↔
      index ∈ schema.globalIndexes ∧ index.name = name := by
  have hfound {found : GlobalIndex} (hfind : schema.layout.globalIndex? name = some found) :
      found ∈ schema.globalIndexes ∧ found.name = name :=
    ⟨List.mem_of_find?_eq_some hfind, by simpa using List.find?_some hfind⟩
  refine ⟨hfound, ?_⟩
  rintro ⟨hmem, rfl⟩
  cases hfind : schema.layout.globalIndex? index.name with
  | none => exact absurd BEq.rfl (List.find?_eq_none.mp hfind index hmem)
  | some other =>
      obtain ⟨hother, hname⟩ := hfound hfind
      rw [hschema.index_unique hother hmem hname]

/-- A field with a global index has it found by its name, with what the hash key was declared as. -/
theorem WellFormed.globalIndex?_nameFor (hschema : schema.WellFormed) {field hashKey : String}
    {descriptor : FieldDescriptor} (hfield : schema.field? field = some descriptor)
    (hindex : descriptor.globalIndex = some hashKey) :
    ∃ declared, schema.field? hashKey = some declared ∧
      schema.layout.globalIndex? (GlobalIndex.nameFor field) =
        some { name := GlobalIndex.nameFor field
               hashKey
               hashKeyType := some declared.type
               sortField := field
               sortType := descriptor.type } := by
  have hentry := field?_eq_some_iff.mp hfield
  obtain ⟨declared, hdeclared⟩ := Option.isSome_iff_exists.mp
    (isSome_field?_iff.mpr ((hschema.admits _ hentry).indexed hashKey hindex))
  refine ⟨declared, hdeclared, hschema.globalIndex?_eq_some_iff.mpr ⟨?_, rfl⟩⟩
  rw [hschema.mem_globalIndexes_iff]
  exact ⟨_, hentry, rfl, rfl, rfl, hindex, declared, hdeclared, rfl⟩

theorem WellFormed.globalIndex?_eq_none_iff (hschema : schema.WellFormed) {name : String} :
    schema.layout.globalIndex? name = none ↔ ¬schema.NamesGlobalIndex name := by
  rw [← not_iff_not, not_not, ← ne_eq, Option.ne_none_iff_exists']
  constructor
  · rintro ⟨index, hfound⟩
    obtain ⟨hmem, rfl⟩ := hschema.globalIndex?_eq_some_iff.mp hfound
    obtain ⟨⟨field, descriptor⟩, hentry, hdeclares⟩ := hschema.mem_globalIndexes_iff.mp hmem
    exact ⟨field, ⟨descriptor, field?_eq_some_iff.mpr hentry,
      Option.isSome_of_eq_some hdeclares.hashKey⟩, hdeclares.name.symm⟩
  · rintro ⟨field, ⟨descriptor, hfield, hindex⟩, rfl⟩
    obtain ⟨hashKey, hindex⟩ := Option.isSome_iff_exists.mp hindex
    obtain ⟨declared, -, hfound⟩ := hschema.globalIndex?_nameFor hfield hindex
    exact ⟨_, hfound⟩

theorem isLocallyIndexed_layout_iff {name : String} :
    schema.layout.isLocallyIndexed name = true ↔ schema.Flags (·.isLocalIndex) name := by
  rw [Layout.isLocallyIndexed, List.contains_iff_mem]
  exact mem_flagged_iff

end Schema

/-- **Names of indexes.** Of a registered schema every global index is found by its name, and every
local one that is not named like a global index; no other name finds any. A field that is named like
the global index of a field never has its own index read. -/
theorem Entity.index?_declared (entity : Entity) :
    (∀ field descriptor hashKey, entity.schema.field? field = some descriptor →
      descriptor.globalIndex = some hashKey →
      ∃ declared, entity.schema.field? hashKey = some declared ∧
        entity.layout.index? (GlobalIndex.nameFor field) =
          some (.global
            { name := GlobalIndex.nameFor field
              hashKey
              hashKeyType := some declared.type
              sortField := field
              sortType := descriptor.type })) ∧
    (∀ field, entity.schema.Flags (·.isLocalIndex) field →
      (entity.layout.index? field = some (.onField field) ↔
        ¬entity.schema.NamesGlobalIndex field)) ∧
    ∀ name, ¬entity.schema.Flags (·.isLocalIndex) name → ¬entity.schema.NamesGlobalIndex name →
      entity.layout.index? name = none := by
  have hschema := entity.wellFormed
  refine ⟨fun field descriptor hashKey hfield hindex => ?_, fun field hlocal => ?_,
    fun name hlocal hglobal => ?_⟩
  · obtain ⟨declared, hdeclared, hfound⟩ := hschema.globalIndex?_nameFor hfield hindex
    exact ⟨declared, hdeclared, Layout.index?_eq_global_iff.mpr hfound⟩
  · rw [← hschema.globalIndex?_eq_none_iff, Entity.layout, Layout.index?]
    cases entity.schema.layout.globalIndex? field with
    | some index => exact iff_of_false nofun nofun
    | none => exact iff_of_true (if_pos (Schema.isLocallyIndexed_layout_iff.mpr hlocal)) rfl
  · rw [Entity.layout, Layout.index?, hschema.globalIndex?_eq_none_iff.mpr hglobal]
    exact if_neg (mt Schema.isLocallyIndexed_layout_iff.mp hlocal)

/-- Charts of songs: read by rank among the songs of an artist, and by a rank of all songs whose
field is named like that index. -/
def charts : Entity where
  schema := Schema.ofList "charts" [("song", { type := .string, isHashKey := true }),
    ("artist", { type := .string }),
    ("year", { type := .number, isLocalIndex := true }),
    ("rank", { type := .number, globalIndex := some "artist" }),
    ("rank_global", { type := .number, isLocalIndex := true })]
  valid := by decide

theorem charts_indexes_found :
    charts.layout.index? "rank_global" = some (.global
      { name := "rank_global"
        hashKey := "artist"
        hashKeyType := some .string
        sortField := "rank"
        sortType := .number }) ∧
    charts.layout.index? "year" = some (.onField "year") ∧
    charts.layout.index? "artist" = none := by
  obtain ⟨hglobal, hlocal, hnone⟩ := charts.index?_declared
  have hnames {name : String} (hname : charts.layout.globalIndex? name = none) :
      ¬charts.schema.NamesGlobalIndex name :=
    charts.wellFormed.globalIndex?_eq_none_iff.mp hname
  refine ⟨?_, (hlocal "year" ⟨_, rfl, rfl⟩).mpr (hnames (by decide)),
    hnone "artist" ?_ (hnames (by decide))⟩
  · obtain ⟨artist, hartist, hfound⟩ := hglobal "rank" _ "artist" rfl rfl
    obtain rfl := Option.some.inj hartist
    exact hfound
  · rintro ⟨artist, hartist, hlocal⟩
    obtain rfl := Option.some.inj hartist
    cases hlocal

/-- The other rank is indexed but has no index under its name. -/
theorem charts_index_shadowed : charts.schema.Flags (·.isLocalIndex) "rank_global" ∧
    charts.layout.index? "rank_global" ≠ some (.onField "rank_global") :=
  ⟨⟨_, rfl, rfl⟩, by decide⟩

end SchemaQuery
