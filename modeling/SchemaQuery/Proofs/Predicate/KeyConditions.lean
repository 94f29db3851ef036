import SchemaQuery.Proofs.Predicate.Accounting

/-!
# Conditions on the key side

Rows are read in the order of one field, the range key or the sort field of an index, and a
condition narrows the rows read only if it is on this field and asks for one value or an interval of
values. Planning keeps to it with two exceptions: a list of texts stays a list where it narrows the
rows, and a locally indexed field of dates is taken for the one read by if it bears the name of a
global index.
-/

namespace SchemaQuery

/-- The field in whose order rows are read. -/
def Layout.orderField (layout : Layout) : Option Index → Option String
  | some index => some index.sortField
  | none => layout.rangeKey

/-- A test that picks adjacent rows out of an order: those of one value, or of a range of values. -/
def Test.isInterval : Test → Bool
  | .equal _ => true
  | .range _ _ => true
  | _ => false

/-! ### One field -/

namespace Standing

theorem side_eq_key_iff {standing : Standing} : standing.side = .key ↔ standing.isKey = true := by
  simp [side]

theorem rangeSide_eq_key_iff {standing : Standing} :
    standing.rangeSide = .key ↔ standing.isKey = true ∨ standing.isSortIndex = true := by
  rw [rangeSide, ← Bool.or_eq_true]
  cases standing.isKey || standing.isSortIndex <;> simp

end Standing

/-- On a key field a text is asked for as a whole, whatever the mode. -/
theorem isInterval_of_textTest? {value : Json} {standing : Standing} {mode : TextMatch}
    {test : Test} (hkey : standing.isKey = true)
    (htest : textTest? value standing mode = some test) :
    test.isInterval = true ∨ ∃ items, value = .array items := by
  unfold textTest? at htest
  split at htest
  next => cases htest
  next items _ => exact Or.inr ⟨items, rfl⟩
  next =>
    obtain ⟨text, -, rfl⟩ := Option.map_eq_some_iff.mp htest
    rw [hkey]
    exact Or.inl rfl

/-- What a value asks on the key side is one condition, on the field itself: the lookup reads by the
field, or dates are wanted of the index read by. -/
theorem keySide_of_conditions? {field : String} {value : Json} {declared : Kind}
    {standing : Standing} {mode : TextMatch} {conditions : List Condition} {condition : Condition}
    (hconditions : conditions? field value declared standing mode = some conditions)
    (hmem : condition ∈ conditions) (hside : condition.side = .key) :
    conditions = [condition] ∧ condition.path = [field] ∧
      (standing.isKey = true ∨ declared = .dateRange ∧ standing.isSortIndex = true) ∧
      (condition.test.isInterval = true ∨
        declared = .string ∧ standing.isKey = true ∧ ∃ items, value = .array items) := by
  cases declared with
  | string =>
      obtain ⟨test, htest, rfl⟩ := Option.map_eq_some_iff.mp hconditions
      obtain rfl := List.mem_singleton.mp hmem
      have hkey : standing.isKey = true := Standing.side_eq_key_iff.mp hside
      refine ⟨rfl, rfl, Or.inl hkey, ?_⟩
      exact (isInterval_of_textTest? hkey htest).imp_right fun hitems => ⟨rfl, hkey, hitems⟩
  | number =>
      simp only [conditions?, Option.ite_none_right_eq_some, Option.some.injEq] at hconditions
      obtain ⟨-, rfl⟩ := hconditions
      obtain rfl := List.mem_singleton.mp hmem
      exact ⟨rfl, rfl, Or.inl (Standing.side_eq_key_iff.mp hside), Or.inl rfl⟩
  | dateRange =>
      simp only [conditions?, Option.ite_none_right_eq_some] at hconditions
      obtain ⟨-, hbounds⟩ := hconditions
      split at hbounds
      next => cases hbounds
      next =>
        obtain rfl := Option.some.inj hbounds
        obtain rfl := List.mem_singleton.mp hmem
        refine ⟨rfl, rfl, ?_, Or.inl rfl⟩
        exact (Standing.rangeSide_eq_key_iff.mp hside).imp_right fun hsort => ⟨rfl, hsort⟩
  | boolean =>
      simp only [conditions?, Option.ite_none_right_eq_some, Option.some.injEq] at hconditions
      obtain ⟨-, rfl⟩ := hconditions
      obtain rfl := List.mem_singleton.mp hmem
      cases hside
  | list =>
      obtain ⟨test, -, rfl⟩ := Option.map_eq_some_iff.mp hconditions
      obtain rfl := List.mem_singleton.mp hmem
      cases hside
  | map =>
      simp only [conditions?, Option.ite_none_right_eq_some, Option.some.injEq] at hconditions
      obtain ⟨-, rfl⟩ := hconditions
      obtain ⟨leaf, -, rfl⟩ := List.mem_map.mp hmem
      cases hside
  | unknown => cases hconditions

namespace Entity

variable {entity : Entity} {index : Option Index} {options : Options} {predicate : Predicate}

/-- No locally indexed field of dates bears the name of the global index read by, for which it would
be taken. -/
def Unshadowed (entity : Entity) (index : Option Index) : Prop :=
  ∀ found, index = some (.global found) → entity.layout.isLocallyIndexed found.name = true →
    Kind.ofField entity.schema found.name ≠ .dateRange

/-! ### The field read by -/

theorem orderField_of_isKey {lookup : Lookup} {field : String}
    (hfield : entity.layout.hashField index ≠ some field)
    (hkey : (entity.standing index lookup field).isKey = true) :
    lookup = .query ∧ entity.layout.orderField index = some field := by
  simp only [standing, Bool.and_eq_true, beq_iff_eq, List.contains_iff_mem] at hkey
  obtain ⟨hlookup, hmem⟩ := hkey
  refine ⟨hlookup, ?_⟩
  cases index with
  | none =>
      rcases List.mem_append.mp hmem with hhash | hrange
      · exact absurd (Option.mem_toList.mp hhash) hfield
      · exact Option.mem_toList.mp hrange
  | some index =>
      cases index with
      | onField name =>
          rcases List.mem_append.mp hmem with hhash | hname
          · exact absurd (Option.mem_toList.mp hhash) hfield
          · exact congrArg some (List.mem_singleton.mp hname).symm
      | global found => exact congrArg some (List.mem_singleton.mp hmem).symm

theorem orderField_of_isSortIndex {lookup : Lookup} {field : String}
    (hname : entity.Unshadowed index) (hdates : Kind.ofField entity.schema field = .dateRange)
    (hsort : (entity.standing index lookup field).isSortIndex = true) :
    entity.layout.orderField index = some field := by
  simp only [standing, Bool.and_eq_true, beq_iff_eq, Option.map_eq_some_iff] at hsort
  obtain ⟨hindexed, found, rfl, rfl⟩ := hsort
  cases found with
  | onField name => rfl
  | global found => exact absurd hdates (hname found rfl hindexed)

theorem keySide_of_asked? {lookup : Lookup} {mode : TextMatch} {member : String × Json}
    {own : List Condition} {condition : Condition} (hname : entity.Unshadowed index)
    (hown : entity.asked? index lookup mode member = some own) (hmem : condition ∈ own)
    (hside : condition.side = .key) :
    own = [condition] ∧ condition.path = [member.1] ∧
      entity.layout.orderField index = some member.1 ∧
      (condition.test.isInterval = true ∨ lookup = .query ∧
        Kind.ofField entity.schema member.1 = .string ∧ ∃ items, member.2 = .array items) := by
  have hasking : IsAsking (entity.layout.hashField index) member := by
    refine @isAsking_of_asked?_ne entity index lookup mode member fun hnone => ?_
    obtain rfl := Option.some.inj (hown.symm.trans hnone)
    exact absurd hmem List.not_mem_nil
  rw [asked?, isPassive_eq_false_iff.mpr hasking, if_neg Bool.false_ne_true] at hown
  obtain ⟨hsingle, hpath, hread, htest⟩ := keySide_of_conditions? hown hmem hside
  refine ⟨hsingle, hpath, ?_, htest.imp_right ?_⟩
  · rcases hread with hkey | ⟨hdates, hsort⟩
    · exact (orderField_of_isKey hasking.1 hkey).2
    · exact orderField_of_isSortIndex hname hdates hsort
  · rintro ⟨htext, hkey, hitems⟩
    exact ⟨(orderField_of_isKey hasking.1 hkey).1, htext, hitems⟩

/-- Where all conditions of one side are on one field, they are those of that side on the field. -/
theorem on_eq_filter_conditionsOn {plan : Plan} {side : Side} {field : String}
    (hpaths : ∀ condition ∈ plan.on side, condition.path.head? = some field) :
    plan.on side = (plan.conditionsOn field).filter fun condition => condition.side == side := by
  rw [Plan.on, Plan.conditionsOn, List.filter_filter]
  refine List.filter_congr fun condition hcondition => ?_
  cases hside : condition.side == side with
  | false => rfl
  | true => simp [hpaths condition (List.mem_filter.mpr ⟨hcondition, hside⟩)]

theorem exists_asked?_of_mem_laidOut {condition : Condition}
    (hmem : condition ∈ (entity.laidOut predicate options).conditions) :
    ∃ member ∈ predicate.wanted, ∃ own,
      entity.asked? (entity.indexOf options.sort) options.lookup options.textMatch member =
        some own ∧ condition ∈ own := by
  obtain ⟨member, hmember, hcondition⟩ := List.mem_flatMap.mp hmem
  refine ⟨member, hmember, ?_⟩
  cases hown : entity.asked? (entity.indexOf options.sort) options.lookup options.textMatch
    member with
  | none => exact absurd (hown ▸ hcondition) List.not_mem_nil
  | some own => exact ⟨own, rfl, by rwa [hown] at hcondition⟩

/-- **Key conditions.** If no field of dates is taken for the index read by, a plan has at most one
condition on the key side; it is on the field that orders the rows read, and asks for one value or
an interval of values, unless a query wants a list of texts of that field. -/
theorem plan_narrows_by_order {plan : Plan} (hnodup : (predicate.wanted.map Prod.fst).Nodup)
    (hname : entity.Unshadowed (entity.indexOf options.sort))
    (hplan : entity.plan predicate options = .ok plan) :
    plan.on .key = [] ∨ ∃ field value test,
      entity.layout.orderField (entity.indexOf options.sort) = some field ∧
      predicate.wanted.get? field = some value ∧
      plan.on .key = [⟨[field], test, .key⟩] ∧
      (test.isInterval = true ∨ options.lookup = .query ∧
        Kind.ofField entity.schema field = .string ∧ ∃ items, value = .array items) := by
  obtain rfl := eq_laidOut_of_plan hplan
  refine or_iff_not_imp_left.mpr fun hne => ?_
  obtain ⟨condition, hon⟩ := List.exists_mem_of_ne_nil _ hne
  obtain ⟨hcondition, hside⟩ := List.mem_filter.mp hon
  have hside : condition.side = .key := beq_iff_eq.mp hside
  obtain ⟨member, hmember, own, hown, hmem⟩ := exists_asked?_of_mem_laidOut hcondition
  obtain ⟨rfl, hpath, horder, htest⟩ := keySide_of_asked? hname hown hmem hside
  have hpaths : ∀ other ∈ (entity.laidOut predicate options).on .key,
      other.path.head? = some member.1 := by
    intro other hother
    obtain ⟨hother, hside⟩ := List.mem_filter.mp hother
    obtain ⟨second, -, more, hmore, hmem⟩ := exists_asked?_of_mem_laidOut hother
    obtain ⟨-, hpath, hsecond, -⟩ := keySide_of_asked? hname hmore hmem (beq_iff_eq.mp hside)
    rw [hpath, List.head?_cons, ← hsecond, horder]
  have hwhole : condition = ⟨[member.1], condition.test, .key⟩ := by
    rw [← hpath, ← hside]
  refine ⟨member.1, member.2, condition.test, horder,
    Members.get?_eq_some_of_mem hnodup hmember, ?_, htest⟩
  rw [on_eq_filter_conditionsOn hpaths, conditionsOn_laidOut entity options hnodup hmember, hown,
    ← hwhole]
  simp [hside]

/-- Tickets of a queue by their state, which can also be read by date, those of one owner. A field
is named like the index on the date when they are due. -/
def tickets : Entity where
  schema := ⟨"tickets", [("queue", { type := .string, isHashKey := true }),
    ("state", { type := .string, isRangeKey := true }), ("owner", { type := .string }),
    ("opened", { type := .date, globalIndex := some "owner" }),
    ("due", { type := .date, globalIndex := some "owner" }),
    ("due_global", { type := .date, isLocalIndex := true })], by decide⟩
  valid := by decide

/-- Open tickets of one owner from a date on. -/
def ownTickets : Predicate where
  wanted := [("opened", .object [("begin", .nat 1)]), ("owner", .string "ann"),
    ("state", .string "open")]

def byOpened : Options := { sort := some ⟨"opened_global", true⟩ }

theorem tickets_narrow_by_order : ∃ plan field value test,
    tickets.plan ownTickets byOpened = .ok plan ∧
      tickets.layout.orderField (tickets.indexOf byOpened.sort) = some field ∧
      ownTickets.wanted.get? field = some value ∧ plan.on .key = [⟨[field], test, .key⟩] ∧
      (test.isInterval = true ∨ byOpened.lookup = .query ∧
        Kind.ofField tickets.schema field = .string ∧ ∃ items, value = .array items) := by
  have hname : tickets.Unshadowed (tickets.indexOf byOpened.sort) := by
    intro found hfound hindexed
    obtain rfl := Index.global.inj (Option.some.inj hfound)
    exact absurd hindexed (by decide)
  obtain ⟨plan, hplan, hkeys⟩ : ∃ plan, tickets.plan ownTickets byOpened = .ok plan ∧
      plan.on .key ≠ [] := ⟨_, rfl, List.cons_ne_nil _ _⟩
  obtain ⟨field, value, test, hfound⟩ :=
    (plan_narrows_by_order (by decide) hname hplan).resolve_left hkeys
  exact ⟨plan, field, value, test, hplan, hfound⟩

/-- Tickets of a queue in one of two states. -/
def pending : Predicate where
  wanted := [("queue", .string "a"), ("state", .array [.string "open", .string "new"])]

/-- Tickets of one owner by two dates. -/
def pressing : Predicate where
  wanted := [("due", .object [("begin", .nat 1)]), ("due_global", .object [("begin", .nat 2)]),
    ("owner", .string "ann")]

/-- A list of states stands on the key side; and by the index on the date when tickets are due,
there are two conditions there, one of them on the field that is named like it. -/
theorem tickets_not_narrowed :
    (∃ plan, tickets.plan pending {} = .ok plan ∧
      plan.on .key = [⟨["state"], .oneOf [.string "open", .string "new"], .key⟩]) ∧
    ∃ plan, tickets.plan pressing { sort := some ⟨"due_global", false⟩ } = .ok plan ∧
      tickets.layout.orderField (tickets.indexOf (some ⟨"due_global", false⟩)) = some "due" ∧
      plan.on .key = [⟨["due"], .range (some (.nat 1)) none, .key⟩,
        ⟨["due_global"], .range (some (.nat 2)) none, .key⟩] :=
  ⟨⟨_, rfl, rfl⟩, _, rfl, by decide, rfl⟩

end Entity

end SchemaQuery
