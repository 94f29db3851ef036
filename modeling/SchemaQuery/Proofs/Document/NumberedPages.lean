import SchemaQuery.Document.Gateway
import SchemaQuery.Proofs.Predicate.Accounting
import SchemaQuery.Proofs.Store.Sorting

/-!
# Pages by number

What a query finds stands in one order, of which a page is the window of its number. The pages from
the first on, each named by the one before, are as many as there are windows that hold something,
but one at least, and put together they are what is found.
-/

namespace SchemaQuery

/-! ### Windows -/

/-- How many pages are read of so many rows: as many as hold one, and the first in any case. -/
def Window.pages (rows limit : Nat) : Nat := max 1 ((rows + limit - 1) / limit)

section Windows

variable {rows : List Record} {limit : Nat}

/-- A page is not the last if a row comes behind it. -/
theorem Window.lt_pages {count : Nat} (hlimit : 0 < limit) {number : Nat} (hnumber : 0 < number) :
    number < Window.pages count limit ↔ number * limit < count := by
  have hdiv : number + 1 ≤ (count + limit - 1) / limit ↔
      (number + 1) * limit ≤ count + limit - 1 := Nat.le_div_iff_mul_le hlimit
  rw [Nat.succ_mul] at hdiv
  unfold Window.pages
  omega

/-- A number past 64 bits is behind the last row as well. -/
theorem Window.drop_skip (hrows : rows.length ≤ Window.largest) (number : Nat) :
    rows.drop (Window.ofPage number limit).skip = rows.drop ((number - 1) * limit) := by
  unfold Window.ofPage
  by_cases hfits : (number - 1) * limit ≤ Window.largest
  · rw [Nat.min_eq_left hfits]
  · rw [Nat.min_eq_right (Nat.le_of_not_le hfits), List.drop_eq_nil_of_le hrows,
      List.drop_eq_nil_of_le (by omega)]

/-- The rows up to the end of a window are counted without passing 64 bits, -/
theorem Window.counted_le (limit : Nat) (hrows : rows.length ≤ Window.largest) (number : Nat) :
    (Window.ofPage number limit).skip +
      ((rows.drop (Window.ofPage number limit).skip).take limit).length ≤ Window.largest := by
  have hskip : (Window.ofPage number limit).skip ≤ Window.largest := Nat.min_le_right _ _
  rw [List.length_take, List.length_drop]
  omega

/-- and tell whether any come behind it. -/
theorem Window.counted_lt_iff (limit : Nat) (hrows : rows.length ≤ Window.largest) {number : Nat}
    (hnumber : 0 < number) :
    (Window.ofPage number limit).skip +
        ((rows.drop (Window.ofPage number limit).skip).take limit).length < rows.length ↔
      number * limit < rows.length := by
  have hsucc : (number - 1) * limit + limit = number * limit := by
    rw [← Nat.succ_mul, Nat.succ_eq_add_one, Nat.sub_add_cancel hnumber]
  rw [Window.drop_skip hrows, List.length_take, List.length_drop]
  unfold Window.ofPage
  dsimp only
  omega

theorem flatMap_windows (rows : List Record) (limit count : Nat) :
    ((List.range count).flatMap fun place => (rows.drop (place * limit)).take limit) =
      rows.take (count * limit) := by
  induction count with
  | zero => simp
  | succ count ih =>
      rw [List.range_succ, List.flatMap_append, List.flatMap_singleton, ih, Nat.succ_mul,
        List.take_add]

end Windows

namespace Document

/-! ### Pages of what is found -/

/-- The page of a number, of all that is found. -/
def pageOf (rows : List Record) (limit number : Nat) : NumberedPage where
  items := (rows.drop ((number - 1) * limit)).take limit
  nextPage := if number * limit < rows.length then some (number + 1) else none
  ending := if number * limit < rows.length then .limitReached else .done

/-- All pages of what is found. -/
def numberedPages (rows : List Record) (limit : Nat) : List NumberedPage :=
  (List.range' 1 (Window.pages rows.length limit)).map (pageOf rows limit)

/-- Pages from a number on, each of the number that the one before names, up to one that names
none. -/
inductive NumberedWalk {S : Type} (query : Option Nat → Action S NumberedPage) :
    Option Nat → S → List NumberedPage → S → Prop where
  | last {start : Option Nat} {state after : S} {page : NumberedPage} :
      query start state = (.ok page, after) → page.nextPage = none →
      NumberedWalk query start state [page] after
  | next {start : Option Nat} {state mid after : S} {page : NumberedPage} {number : Nat}
      {pages : List NumberedPage} :
      query start state = (.ok page, mid) → page.nextPage = some number →
      NumberedWalk query (some number) mid pages after →
      NumberedWalk query start state (page :: pages) after

section Walks

variable {S : Type} {query : Option Nat → Action S NumberedPage} {start : Option Nat}
  {state after after' : S} {pages pages' : List NumberedPage} {rows : List Record} {limit : Nat}

/-- A walk is settled by where it starts. -/
theorem NumberedWalk.unique (hwalk : NumberedWalk query start state pages after)
    (hother : NumberedWalk query start state pages' after') : pages' = pages ∧ after' = after := by
  induction hwalk generalizing pages' with
  | last hquery hnone =>
      cases hother with
      | last hquery' =>
          obtain ⟨rfl, rfl⟩ : _ ∧ _ := by simpa using hquery'.symm.trans hquery
          exact ⟨rfl, rfl⟩
      | next hquery' hsome =>
          obtain ⟨rfl, rfl⟩ : _ ∧ _ := by simpa using hquery'.symm.trans hquery
          rw [hnone] at hsome
          cases hsome
  | next hquery hnext _ ih =>
      cases hother with
      | last hquery' hnone =>
          obtain ⟨rfl, rfl⟩ : _ ∧ _ := by simpa using hquery'.symm.trans hquery
          rw [hnext] at hnone
          cases hnone
      | next hquery' hnext' hrest =>
          obtain ⟨rfl, rfl⟩ : _ ∧ _ := by simpa using hquery'.symm.trans hquery
          rw [hnext] at hnext'
          obtain rfl := Option.some.inj hnext'
          obtain ⟨rfl, rfl⟩ := ih hrest
          exact ⟨rfl, rfl⟩

/-- From any number up to the last page. -/
theorem numberedWalk_pageOf (hlimit : 0 < limit)
    (hquery : ∀ number, 0 < number → number ≤ Window.pages rows.length limit →
      query (some number) state = (.ok (pageOf rows limit number), state))
    {left number : Nat} (hnumber : 0 < number)
    (hleft : number + left = Window.pages rows.length limit) :
    NumberedWalk query (some number) state
      ((List.range' number (left + 1)).map (pageOf rows limit)) state := by
  induction left generalizing number with
  | zero =>
      have hlast : ¬ number * limit < rows.length := by
        rw [← Window.lt_pages hlimit hnumber]
        omega
      exact .last (hquery number hnumber (by omega)) (if_neg hlast)
  | succ left ih =>
      have hmore : number * limit < rows.length := by
        rw [← Window.lt_pages hlimit hnumber]
        omega
      rw [List.range'_succ, List.map_cons]
      exact .next (hquery number hnumber (by omega)) (if_pos hmore) (ih (Nat.succ_pos _) (by omega))

/-- From the first page on, all pages are visited. -/
theorem numberedWalk_numberedPages (hlimit : 0 < limit)
    (hquery : ∀ number, 0 < number →
      query (some number) state = (.ok (pageOf rows limit number), state)) :
    NumberedWalk query (some 1) state (numberedPages rows limit) state := by
  have hone : 1 ≤ Window.pages rows.length limit := Nat.le_max_left _ _
  have hwalk := numberedWalk_pageOf hlimit (fun number hnumber _ => hquery number hnumber)
    Nat.one_pos (Nat.add_sub_cancel' hone)
  rwa [Nat.sub_add_cancel hone] at hwalk

/-- No number is the number of the first page. -/
theorem NumberedWalk.of_start (hwalk : NumberedWalk query start state pages after)
    (hsame : query start = query none) : NumberedWalk query none state pages after := by
  cases hwalk with
  | last hquery hnone => exact .last (hsame ▸ hquery) hnone
  | next hquery hnext hrest => exact .next (hsame ▸ hquery) hnext hrest

end Walks

section Pages

variable {rows : List Record} {limit number : Nat}

theorem pageOf_full (hnumber : 0 < number) (hmore : number * limit < rows.length) :
    (pageOf rows limit number).items.length = limit := by
  have hsucc : (number - 1) * limit + limit = number * limit := by
    rw [← Nat.succ_mul, Nat.succ_eq_add_one, Nat.sub_add_cancel hnumber]
  simp only [pageOf, List.length_take, List.length_drop]
  omega

theorem pageOf_nextPage : (pageOf rows limit number).nextPage = none ↔
    ¬ number * limit < rows.length := by
  simp [pageOf]

theorem pageOf_ending : (pageOf rows limit number).ending = .done ↔
    ¬ number * limit < rows.length := by
  by_cases hmore : number * limit < rows.length <;> simp [pageOf, hmore]

/-- Behind the last page nothing is left. -/
theorem pageOf_behind (hlimit : 0 < limit) (hnumber : Window.pages rows.length limit < number) :
    pageOf rows limit number = ⟨[], none, .done⟩ := by
  have hpos : 0 < number - 1 := by
    have hone : 1 ≤ Window.pages rows.length limit := Nat.le_max_left _ _
    omega
  have hend : ¬ (number - 1) * limit < rows.length := by
    rw [← Window.lt_pages hlimit hpos]
    omega
  have hend' : ¬ number * limit < rows.length := by
    rw [← Window.lt_pages hlimit (by omega)]
    omega
  rw [pageOf, List.drop_eq_nil_of_le (Nat.le_of_not_lt hend), List.take_nil, if_neg hend',
    if_neg hend']

theorem length_numberedPages :
    (numberedPages rows limit).length = Window.pages rows.length limit := by
  rw [numberedPages, List.length_map, List.length_range']

theorem getElem?_numberedPages {k : Nat} {page : NumberedPage}
    (hpage : (numberedPages rows limit)[k]? = some page) :
    k < Window.pages rows.length limit ∧ page = pageOf rows limit (k + 1) := by
  obtain ⟨hk, rfl⟩ := List.getElem?_eq_some_iff.mp hpage
  rw [length_numberedPages] at hk
  simp only [numberedPages, List.getElem_map, List.getElem_range', Nat.one_mul]
  exact ⟨hk, by rw [Nat.add_comm]⟩

/-- The pages together hold what is found. -/
theorem flatMap_numberedPages (hlimit : 0 < limit) :
    (numberedPages rows limit).flatMap NumberedPage.items = rows := by
  have hone : 1 ≤ Window.pages rows.length limit := Nat.le_max_left _ _
  have hall : ¬ Window.pages rows.length limit * limit < rows.length := by
    rw [← Window.lt_pages hlimit hone]
    omega
  rw [numberedPages, List.range'_eq_map_range, List.map_map, List.flatMap_map]
  calc (List.range (Window.pages rows.length limit)).flatMap
        (fun place => (pageOf rows limit (1 + place)).items)
    _ = (List.range (Window.pages rows.length limit)).flatMap
        fun place => (rows.drop (place * limit)).take limit := by
        simp only [pageOf, Nat.add_sub_cancel_left]
    _ = rows.take (Window.pages rows.length limit * limit) := flatMap_windows ..
    _ = rows := List.take_of_length_le (Nat.le_of_not_lt hall)

end Pages

/-! ### Queries -/

/-- Whether the conditions hold for a document. -/
def Query.selects (query : Query) (document : Record) : Bool :=
  match matchesAll document query.conditions with
  | .ok holds => holds
  | .error _ => false

/-- The attributes of a document that a caller asks for; all if none are named. -/
def Fragment.narrow (fragment : Fragment) (document : Record) : Record :=
  document.project (if fragment.projection.isEmpty then none else some fragment.projection)

section Queries

variable {entity : Entity} {predicate : Predicate} {options : Options} {extra : Option Fragment}
  {query : Query} {collection : Collection} {store : Store} {limit : Nat}

theorem plan_sorted {plan : Plan} (hplan : entity.plan predicate options = .ok plan)
    {sort : SortOrder} (hsort : options.sort = some sort) :
    ∃ index, entity.layout.index? sort.index = some index ∧
      plan.index = some index.toPlan ∧ plan.descending = sort.descending := by
  have hfault : entity.sortFault? predicate options.sort = none := by
    cases hfault : entity.sortFault? predicate options.sort with
    | none => rfl
    | some fault =>
        rw [Entity.plan_of_sortFault? options hfault] at hplan
        cases hplan
  obtain rfl := Entity.eq_laidOut_of_plan hplan
  cases hindex : entity.layout.index? sort.index with
  | none =>
      rw [hsort, Entity.sortFault?, Option.bind_some, hindex] at hfault
      cases hfault
  | some index =>
      exact ⟨index, rfl, by simp [Entity.laidOut, Entity.indexOf, hsort, hindex],
        by simp [Entity.laidOut, hsort]⟩

theorem compile_sorted (hquery : Query.compile entity predicate options extra = .ok query) :
    query.projection = (extra.getD {}).projection ∧
    ∀ sort, options.sort = some sort → ∃ index, entity.layout.index? sort.index = some index ∧
      query.order = some ⟨index.sortField, sort.descending⟩ := by
  simp only [Query.compile, Query.render, bind, Except.bind] at hquery
  split at hquery
  next => cases hquery
  next plan hplan =>
    split at hquery
    next => cases hquery
    next members _ =>
      obtain rfl := Except.ok.inj hquery
      refine ⟨rfl, fun sort hsort => ?_⟩
      obtain ⟨index, hindex, hplanned, hdescending⟩ := plan_sorted hplan hsort
      refine ⟨index, hindex, ?_⟩
      rw [hplanned, hdescending]
      rfl

theorem selectAll_eq_filter (documents : List Record)
    (hevaluates : ∀ document ∈ documents, ∃ holds,
      matchesAll document query.conditions = .ok holds) :
    selectAll query.conditions documents = .ok (documents.filter query.selects) := by
  induction documents with
  | nil => rfl
  | cons document rest ih =>
      obtain ⟨⟨holds, hholds⟩, hrest⟩ := List.forall_mem_cons.mp hevaluates
      rw [selectAll, hholds, ih hrest, List.filter_cons, Query.selects, hholds]

/-- What is found: the documents selected, in the order asked for. -/
theorem select_spec (hevaluates : ∀ document ∈ collection.documents, ∃ holds,
      matchesAll document query.conditions = .ok holds) :
    ∃ found, collection.select query = .ok found ∧
      found.Perm (collection.documents.filter query.selects) ∧
      ∀ order, query.order = some order →
        InOrder (fun document => document.getPath? (pathOf order.field)) order.descending
          found := by
  rw [Collection.select, selectAll_eq_filter _ hevaluates]
  cases query.order with
  | none => exact ⟨_, rfl, .refl _, fun _ hnone => by cases hnone⟩
  | some order =>
      refine ⟨_, rfl, sortRows_perm .., ?_⟩
      intro other hother
      obtain rfl := Option.some.inj hother
      exact sortRows_inOrder ..

namespace Gateway

variable {gateway : Gateway} {found : List Record}

/-- The query of a gateway has the caller's order and projection. -/
theorem compile_sorted (hcompile : gateway.compile predicate options extra = .ok query) :
    query.projection = (extra.getD {}).projection ∧
    ∀ sort, options.sort = some sort → ∃ index,
      gateway.entity.layout.index? sort.index = some index ∧
      query.order = some ⟨index.sortField, sort.descending⟩ := by
  rw [compile] at hcompile
  cases hquery : Query.compile gateway.entity predicate
      { options with strict := options.strict || gateway.config.strictPredicates } extra with
  | error error =>
      rw [hquery] at hcompile
      cases hcompile
  | ok compiled =>
      rw [hquery] at hcompile
      obtain rfl := Except.ok.inj hcompile
      have hsorted := Document.compile_sorted hquery
      exact hsorted

section Found

variable (hcompile : gateway.compile predicate options extra = .ok query)
  (hcollection : store.collections.get? gateway.collection = some collection)
  (hselect : collection.select query = .ok found)

include hcollection hselect in
theorem count_eq : Store.count gateway.collection query store = (.ok found.length, store) := by
  rw [Store.count, Store.readCollection, Store.collection, hcollection]
  simp only [Except.bind, hselect, Except.map]

include hcompile hcollection hselect

theorem find_eq (window : Option Window) :
    Store.find gateway.collection query window store =
      (.ok ((match window with
        | some window => (found.drop window.skip).take window.limit
        | none => found).map (extra.getD {}).narrow), store) := by
  rw [Store.find, Store.readCollection, Store.collection, hcollection]
  simp only [Except.bind, Collection.find, hselect, Except.map, (compile_sorted hcompile).1]
  rfl

theorem totalCount_eq :
    gateway.totalCount predicate options extra store = (.ok found.length, store) := by
  rw [totalCount, hcompile, Action.ofExcept_ok_bind, count_eq hcollection hselect]

theorem queryAll_eq : gateway.queryAll predicate options extra store =
    (.ok (found.map (extra.getD {}).narrow), store) := by
  rw [queryAll, hcompile, Action.ofExcept_ok_bind, find_eq hcompile hcollection hselect]

/-- A page is the window of its number, also past 64 bits. -/
theorem queryPage_eq (hlimit : 0 < limit) (hfound : found.length ≤ Window.largest) {number : Nat}
    (hnumber : 0 < number) :
    gateway.queryPage predicate options extra (some number) limit store =
      (.ok (pageOf (found.map (extra.getD {}).narrow) limit number), store) := by
  have hmore := Window.counted_lt_iff limit hfound hnumber
  have hperPage : (Window.ofPage number limit).limit = limit := rfl
  simp only [queryPage, Option.getD_some, if_neg (Nat.ne_of_gt hlimit),
    if_neg (Nat.ne_of_gt hnumber), hcompile, Action.ofExcept_ok_bind, Action.bind_apply,
    find_eq hcompile hcollection hselect, count_eq hcollection hselect, List.length_map, hperPage,
    hmore]
  simp only [Window.drop_skip hfound, pageOf, List.length_map, List.map_take, List.map_drop,
    decide_eq_true_eq, Action.pure_apply]

end Found

/-- **Pages by number.** Of a collection whose documents can all be asked: what a query finds are
the documents selected, in the order of the index's field if a sort order is given. From the first
page on, each naming the next, the pages are one for each window that holds something, but one at
least; all but the last are full, the last alone names none and is done, and together they are what
is found at once, cut down as the caller asks, as many as are counted. The page of any number whose
successor is one of 64 bits is computed within 64 bits; behind the last page it is empty and
done. -/
theorem queryPage_walk_covers (gateway : Gateway)
    (hcollection : store.collections.get? gateway.collection = some collection)
    (hsize : collection.documents.length ≤ Window.largest)
    (hcompile : gateway.compile predicate options extra = .ok query)
    (hevaluates : ∀ document ∈ collection.documents, ∃ holds,
      matchesAll document query.conditions = .ok holds)
    (hlimit : 0 < limit) :
    let narrow := (extra.getD {}).narrow
    let call := fun number => gateway.queryPage predicate options extra number limit
    ∃ found pages, found.Perm (collection.documents.filter query.selects) ∧
      (∀ sort, options.sort = some sort → ∃ index,
        gateway.entity.layout.index? sort.index = some index ∧
        InOrder (fun document => document.getPath? (pathOf index.sortField)) sort.descending
          found) ∧
      gateway.totalCount predicate options extra store = (.ok found.length, store) ∧
      gateway.queryAll predicate options extra store = (.ok (found.map narrow), store) ∧
      (∀ walked after, NumberedWalk call none store walked after ↔
        walked = pages ∧ after = store) ∧
      pages.length = max 1 ((found.length + limit - 1) / limit) ∧
      pages.flatMap NumberedPage.items = found.map narrow ∧
      (∀ k page, pages[k]? = some page →
        (k + 1 < pages.length → page.items.length = limit) ∧
        (page.nextPage = none ↔ k + 1 = pages.length) ∧
        (page.ending = .done ↔ k + 1 = pages.length)) ∧
      ∀ number, 0 < number → number < Window.largest →
        ∃ page, call (some number) store = (.ok page, store) ∧
          (Window.ofPage number limit).skip + page.items.length ≤ Window.largest ∧
          number + 1 ≤ Window.largest ∧
          (pages.length < number →
            page.items = [] ∧ page.nextPage = none ∧ page.ending = .done) := by
  intro narrow call
  obtain ⟨found, hselect, hperm, hordered⟩ := select_spec hevaluates
  obtain ⟨-, hsorted⟩ := compile_sorted hcompile
  have hfound : found.length ≤ Window.largest := by
    rw [hperm.length_eq]
    exact Nat.le_trans (List.length_filter_le _ _) hsize
  have hcall : ∀ number, 0 < number → call (some number) store =
      (.ok (pageOf (found.map narrow) limit number), store) := fun number hnumber =>
    queryPage_eq hcompile hcollection hselect hlimit hfound hnumber
  have hwalk : NumberedWalk call none store (numberedPages (found.map narrow) limit) store :=
    (numberedWalk_numberedPages hlimit hcall).of_start rfl
  refine ⟨found, numberedPages (found.map narrow) limit, hperm, ?_,
    totalCount_eq hcompile hcollection hselect, queryAll_eq hcompile hcollection hselect, ?_, ?_,
    flatMap_numberedPages hlimit, ?_, ?_⟩
  · intro sort hsort
    obtain ⟨index, hindex, horder⟩ := hsorted sort hsort
    have hinOrder := hordered _ horder
    exact ⟨index, hindex, hinOrder⟩
  · intro walked after
    constructor
    · exact fun hwalked => hwalk.unique hwalked
    · rintro ⟨rfl, rfl⟩
      exact hwalk
  · rw [length_numberedPages, List.length_map, Window.pages]
  · intro k page hpage
    obtain ⟨hk, rfl⟩ := getElem?_numberedPages hpage
    have hlast : k + 1 < Window.pages (found.map narrow).length limit ↔
        (k + 1) * limit < (found.map narrow).length := Window.lt_pages hlimit (Nat.succ_pos k)
    rw [length_numberedPages, pageOf_nextPage, pageOf_ending, ← hlast]
    refine ⟨fun hmore => pageOf_full (Nat.succ_pos k) (hlast.mp hmore), ?_, ?_⟩ <;> omega
  · intro number hnumber hlargest
    have hrows : (found.map narrow).length ≤ Window.largest := by rwa [List.length_map]
    refine ⟨_, hcall number hnumber, ?_, hlargest, fun hbehind => ?_⟩
    · have hcounted := Window.counted_le limit hrows number
      rwa [Window.drop_skip hrows] at hcounted
    · rw [length_numberedPages] at hbehind
      rw [pageOf_behind hlimit hbehind]
      exact ⟨rfl, rfl, rfl⟩

end Gateway

end Queries

/-- Parcels by number, which can be read by weight. -/
def parcels : Entity :=
  ⟨⟨"parcels", [("number", { type := .number, isHashKey := true }),
    ("weight", { type := .number, isLocalIndex := true })], by decide⟩, by decide⟩

def parcel (number weight : Nat) : Record := [("number", .nat number), ("weight", .nat weight)]

def parcelGateway : Gateway := ⟨parcels, {}, Config.fault?_default⟩

def parcelStore : Store :=
  { collections := [("parcels", ⟨["number"], [parcel 1 5, parcel 2 7, parcel 3 5]⟩)] }

/-- The heaviest first. -/
def byWeight : Options := { sort := some ⟨"weight", true⟩ }

def anyParcel : Predicate := { wanted := [] }

/-- Three parcels are two pages of two. -/
theorem parcels_walk_covers :
    ∃ found first last, found.Perm [parcel 1 5, parcel 2 7, parcel 3 5] ∧
      InOrder (fun document => document.getPath? ["weight"]) true found ∧
      NumberedWalk (fun number => parcelGateway.queryPage anyParcel byWeight none number 2) none
        parcelStore [first, last] parcelStore ∧
      first.items.length = 2 ∧
      first.items ++ last.items = found.map (Fragment.narrow {}) := by
  have hcompile : parcelGateway.compile anyParcel byWeight none =
      .ok { order := some ⟨"weight", true⟩ } := by rfl
  have hevaluates : ∀ document ∈ [parcel 1 5, parcel 2 7, parcel 3 5], ∃ holds,
      matchesAll document [] = .ok holds := fun document _ => ⟨true, by rw [matchesAll]⟩
  have hcollection : parcelStore.collections.get? parcelGateway.collection =
      some ⟨["number"], [parcel 1 5, parcel 2 7, parcel 3 5]⟩ := rfl
  obtain ⟨found, pages, hperm, hsorted, -, -, hwalk, hlength, hitems, hpages, -⟩ :=
    parcelGateway.queryPage_walk_covers hcollection (by decide) hcompile hevaluates Nat.two_pos
  have hall : found.Perm [parcel 1 5, parcel 2 7, parcel 3 5] := hperm
  rw [hall.length_eq] at hlength
  obtain ⟨first, last, rfl⟩ := List.length_eq_two.mp hlength
  obtain ⟨index, hindex, hordered⟩ := hsorted _ rfl
  obtain rfl : Index.onField "weight" = index := Option.some.inj hindex
  obtain ⟨hfull, -, -⟩ := hpages 0 first rfl
  rw [List.flatMap_cons, List.flatMap_singleton] at hitems
  exact ⟨found, first, last, hall, hordered, (hwalk _ _).mpr ⟨rfl, rfl⟩, hfull Nat.one_lt_two,
    hitems⟩

end Document

end SchemaQuery
