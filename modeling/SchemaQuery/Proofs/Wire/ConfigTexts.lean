import Mathlib.Data.List.Nodup
import Mathlib.Data.Option.Basic
import SchemaQuery.Proofs.Json.Texts
import SchemaQuery.Proofs.Wire.Forms

/-!
# Configurations are read from their texts

A configuration may be written with its members in any order. The reader of a text looks only at the
members whose names it knows, none of them twice, and these are all. So a configuration is read from
its text as every structure is from its value, but only if it is valid.
-/

namespace SchemaQuery

namespace Written

variable {record : List (String × Json)} {ws : List (Option String × Written)}

theorem names_of_ofMembers? (hws : ofMembers? record = some ws) :
    ws.map Prod.fst = (record.map Prod.fst).map some := by
  induction record generalizing ws with
  | nil => obtain rfl := Option.some.inj hws; rfl
  | cons member record ih =>
      obtain ⟨name, v⟩ := member
      obtain ⟨w, more, -, hmore, rfl⟩ := of_ofMembers?_cons hws
      rw [List.map_cons, List.map_cons, List.map_cons, ih hmore]

theorem exists_of_mem_ofMembers? (hws : ofMembers? record = some ws)
    {member : Option String × Written} (hmember : member ∈ ws) :
    ∃ name v, (name, v) ∈ record ∧ member.1 = some name ∧ ofJson? v = some member.2 := by
  induction record generalizing ws with
  | nil => obtain rfl := Option.some.inj hws; cases hmember
  | cons first record ih =>
      obtain ⟨name, v⟩ := first
      obtain ⟨w, more, hw, hmore, rfl⟩ := of_ofMembers?_cons hws
      rcases List.mem_cons.mp hmember with rfl | hmember
      · exact ⟨name, v, List.mem_cons_self, rfl, hw⟩
      · obtain ⟨name, v, hmem, hread⟩ := ih hmore hmember
        exact ⟨name, v, List.mem_cons_of_mem _ hmem, hread⟩

/-- Nothing is left out of an object whose names are known and come once. -/
theorem known?_of_ofMembers? (hws : ofMembers? record = some ws) {names : List String}
    (hnames : (record.map Prod.fst).Perm names) (hnodup : names.Nodup) :
    known? names (.object ws) = some (.object ws) := by
  have hfilter : ws.filter (fun member => member.1.any names.contains) = ws := by
    refine List.filter_eq_self.mpr fun member hmember => ?_
    obtain ⟨name, v, hmem, hname, -⟩ := exists_of_mem_ofMembers? hws hmember
    rw [hname]
    exact List.contains_iff_mem.mpr (hnames.mem_iff.mp (List.mem_map_of_mem hmem))
  have hall : ws.all (fun member => member.1.isSome) = true := by
    refine List.all_eq_true.mpr fun member hmember => ?_
    obtain ⟨name, v, -, hname, -⟩ := exists_of_mem_ofMembers? hws hmember
    rw [hname]
    rfl
  have hdistinct : (ws.map Prod.fst).Nodup := by
    rw [names_of_ofMembers? hws]
    exact List.Nodup.map (Option.some_injective String) (hnames.nodup_iff.mpr hnodup)
  simp only [known?, hfilter]
  exact if_pos ⟨hall, hdistinct⟩

theorem mapM_eq_self {α : Type} {f : α → Option α} {items : List α}
    (hf : ∀ item ∈ items, f item = some item) : items.mapM f = some items := by
  induction items with
  | nil => rfl
  | cons item items ih =>
      obtain ⟨hitem, hitems⟩ := List.forall_mem_cons.mp hf
      rw [List.mapM_cons, hitem, ih hitems]
      rfl

theorem atMember_eq_self {name : String} {f : Written → Option Written}
    (hf : ∀ member ∈ ws, member.1 = some name → f member.2 = some member.2) :
    atMember name f (.object ws) = some (.object ws) := by
  rw [atMember, mapM_eq_self, Option.map_some]
  intro member hmember
  split
  next hname => rw [hf member hmember hname, Option.map_some]
  next => rfl

end Written

namespace RetryPolicy

/-- The members in the order of their declaration. -/
def declared (policy : RetryPolicy) : Record :=
  [("max_attempts", .nat policy.maxAttempts.toNat),
    ("initial_backoff_ms", .nat policy.initialBackoffMs.toNat),
    ("max_backoff_ms", .nat policy.maxBackoffMs.toNat)]

theorem nodup_fieldNames : fieldNames.Nodup := by decide

theorem toJson_eq (policy : RetryPolicy) :
    policy.toJson = .object (Members.ofList policy.declared) := by
  simp +decide only [toJson, declared, Members.ofList, Members.merge, List.foldl_cons,
    List.foldl_nil, Members.set, if_true, if_false]

end RetryPolicy

namespace Config

/-- The members in the order of their declaration. -/
def declared (config : Config) (retry : Json) : Record :=
  [("table_prefix", .string config.tablePrefix),
    ("page_size", .nat config.pageSize.toNat),
    ("total_segments", .nat config.totalSegments.toNat),
    ("batch_write_chunk", .nat config.batchWriteChunk.toNat),
    ("batch_get_chunk", .nat config.batchGetChunk.toNat),
    ("strict_predicates", .bool config.strictPredicates),
    ("retry", retry)]

theorem nodup_fieldNames : fieldNames.Nodup := by decide

theorem toJson_eq (config : Config) :
    config.toJson = .object (Members.ofList (config.declared config.retry.toJson)) := by
  simp +decide only [toJson, declared, Members.ofList, Members.merge, List.foldl_cons,
    List.foldl_nil, Members.set, if_true, if_false]

/-- The text that a configuration is written as. -/
def text (config : Config) : String :=
  (Json.object (config.declared (.object config.retry.declared))).text

variable {config : Config} {members retry : Record}

theorem isReadable_of_perm (hretry : retry.Perm config.retry.declared)
    (hmembers : members.Perm (config.declared (.object retry))) :
    (Json.object members).isReadable Written.maxDepth = true := by
  have hword (depth : Nat) (n : UInt32) : (Json.nat n.toNat).isReadable depth = true :=
    Json.isReadable_nat depth (n.toNat_lt.trans (by decide))
  have hlong (depth : Nat) (n : UInt64) : (Json.nat n.toNat).isReadable depth = true :=
    Json.isReadable_nat depth n.toNat_lt
  have hpolicy : (Json.object retry).isReadable 126 = true := by
    rw [Json.isReadable_of_perm hretry]
    simp only [RetryPolicy.declared, Json.isReadable, Json.membersReadable, hword, hlong,
      Bool.and_true]
  rw [Json.isReadable] at hpolicy
  rw [Json.isReadable_of_perm hmembers, Written.maxDepth]
  simp only [declared, Json.isReadable, Json.membersReadable, hword, hlong, hpolicy, Bool.and_true]

/-- The members in order are those of the value of the configuration. -/
theorem sorted_of_perm (hretry : retry.Perm config.retry.declared)
    (hmembers : members.Perm (config.declared (.object retry))) :
    (Json.object members).sorted = config.toJson := by
  have hpolicy : (Json.object retry).sorted = config.retry.toJson := by
    rw [Json.sorted_of_perm hretry RetryPolicy.nodup_fieldNames, RetryPolicy.toJson_eq]
    rfl
  rw [Json.sorted_of_perm hmembers nodup_fieldNames, toJson_eq, ← hpolicy]
  rfl

/-- Every member of a configuration and of its retries counts. -/
theorem prune?_of_perm {w : Written} (hretry : retry.Perm config.retry.declared)
    (hmembers : members.Perm (config.declared (.object retry)))
    (hw : Written.ofJson? (.object members) = some w) : prune? w = some w := by
  obtain ⟨ws, hws, rfl⟩ := Option.map_eq_some_iff.mp hw
  have hknown : Written.known? fieldNames (.object ws) = some (.object ws) :=
    Written.known?_of_ofMembers? hws (hmembers.map Prod.fst) nodup_fieldNames
  have hat : Written.atMember "retry" (Written.known? RetryPolicy.fieldNames) (.object ws) =
      some (.object ws) := by
    refine Written.atMember_eq_self fun member hmember hname => ?_
    obtain ⟨name, v, hmem, hread, hw⟩ := Written.exists_of_mem_ofMembers? hws hmember
    obtain rfl := Option.some.inj (hread.symm.trans hname)
    obtain rfl : v = .object retry := by simpa [declared] using hmembers.mem_iff.mp hmem
    obtain ⟨parts, hparts, hobject⟩ := Option.map_eq_some_iff.mp hw
    rw [← hobject]
    exact Written.known?_of_ofMembers? hparts (hretry.map Prod.fst) RetryPolicy.nodup_fieldNames
  rw [prune?, hknown]
  simp only [Option.bind_eq_bind, Option.bind_some, hat]
  rfl

/-- A configuration is read from a text of its members in any order. -/
theorem ofText_of_perm (hretry : retry.Perm config.retry.declared)
    (hmembers : members.Perm (config.declared (.object retry))) :
    ofText (Json.object members).text = config.validate.map fun _ => config := by
  obtain ⟨w, hw, hvalue⟩ := Written.exists_of_isReadable (isReadable_of_perm hretry hmembers)
  rw [sorted_of_perm hretry hmembers] at hvalue
  rw [ofText, Written.ofText?_text hw, Option.bind_some, prune?_of_perm hretry hmembers hw,
    Option.bind_some, hvalue, Option.bind_some, config.ofJson?_toJson, validate]
  cases h : config.fault? <;> simp only [h] <;> rfl

theorem ofText_text (config : Config) :
    ofText config.text = config.validate.map fun _ => config := ofText_of_perm .rfl .rfl

example : ({} : Config).text =
    "\x7b\"table_prefix\":\"\",\"page_size\":100,\"total_segments\":1,\"batch_write_chunk\":25," ++
      "\"batch_get_chunk\":100,\"strict_predicates\":false,\"retry\":\x7b\"max_attempts\":8," ++
      "\"initial_backoff_ms\":50,\"max_backoff_ms\":2000\x7d\x7d" := by
  cbv

theorem ofText_text_toJson (config : Config) :
    ofText config.toJson.text = config.validate.map fun _ => config := by
  rw [toJson_eq, RetryPolicy.toJson_eq]
  exact ofText_of_perm (Members.ofList_perm RetryPolicy.nodup_fieldNames)
    (Members.ofList_perm nodup_fieldNames)

end Config

/-- What is written is read again. -/
def ReadsBack {α : Type} (write : α → Json) (read : Json → Option α) : Prop :=
  ∀ a, read (write a) = some a

/-- Every structure is read as it was written. A configuration is read from its text, with its
members as declared or in order, if it is valid, and otherwise refused for what is wrong with it. -/
theorem wire_forms_read_back :
    ReadsBack KeyValue.TableRead.toJson KeyValue.TableRead.ofJson? ∧
    ReadsBack KeyValue.Fragment.toJson KeyValue.Fragment.ofJson? ∧
    ReadsBack Document.Query.toJson Document.Query.ofJson? ∧
    ReadsBack Document.Fragment.toJson Document.Fragment.ofJson? ∧
    ReadsBack Config.toJson Config.ofJson? ∧
    ReadsBack RetryPolicy.toJson RetryPolicy.ofJson? ∧
    ReadsBack SortOrder.toJson SortOrder.ofJson? ∧
    ReadsBack FieldDescriptor.toJson FieldDescriptor.ofJson? ∧
    ReadsBack SegmentCursor.toJson SegmentCursor.ofJson? ∧
    ReadsBack WriteRequest.toJson WriteRequest.ofJson? ∧
    ReadsBack Predicate.toJson Predicate.ofJson? ∧
    ∀ (config : Config), ∀ text ∈ [config.text, config.toJson.text],
      (Config.ofText text = .ok config ↔ config.validate = .ok ()) ∧
      (config.validate ≠ .ok () → ∃ fault, config.validate = .error (.invalidConfig fault) ∧
        Config.ofText text = .error (.invalidConfig fault)) := by
  refine ⟨KeyValue.TableRead.ofJson?_toJson, KeyValue.Fragment.ofJson?_toJson,
    Document.Query.ofJson?_toJson, Document.Fragment.ofJson?_toJson, Config.ofJson?_toJson,
    RetryPolicy.ofJson?_toJson, SortOrder.ofJson?_toJson, FieldDescriptor.ofJson?_toJson,
    SegmentCursor.ofJson?_toJson, WriteRequest.ofJson?_toJson, Predicate.ofJson?_toJson,
    fun config text htext => ?_⟩
  have hread : Config.ofText text = config.validate.map fun _ => config := by
    rcases List.mem_pair.mp htext with rfl | rfl
    · exact config.ofText_text
    · exact config.ofText_text_toJson
  rw [hread, Config.validate]
  cases config.fault? with
  | none => exact ⟨⟨fun _ => rfl, fun _ => rfl⟩, fun hinvalid => absurd rfl hinvalid⟩
  | some fault => exact ⟨⟨nofun, nofun⟩, fun _ => ⟨fault, rfl, rfl⟩⟩

end SchemaQuery
