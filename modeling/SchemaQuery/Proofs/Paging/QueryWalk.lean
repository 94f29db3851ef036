import SchemaQuery.Paging.Sequential
import SchemaQuery.Proofs.Paging.Source

/-!
# Resuming a query

A query gathers pages until it holds enough rows, and cuts what is too much. What it has gathered
answers the fetch it began with as one long page would, and so does what is left after the cut: the
cursor is the one of the store if the cut falls on the end of a page, and else the one of the last
row kept. A walk that goes on from each returned cursor therefore has no gap and no repetition.
-/

namespace SchemaQuery

namespace Source

variable {source : Source}

/-- Two runs of rows, the second from the end of the first, answer the fetch of the first. -/
theorem Answers.append {first : Nat} {items : List Record} {page : Page}
    (hitems : items <+: source.rows.drop first)
    (hanswers : source.Answers (first + items.length) page) :
    source.Answers first ⟨items ++ page.items, page.next⟩ where
  isPrefix_items := Answers.isPrefix_append hitems hanswers
  items_ne_nil := by
    intro hfirst hnil
    obtain ⟨rfl, hpage⟩ := List.append_eq_nil_iff.mp hnil
    exact hanswers.items_ne_nil (by simpa using hfirst) hpage
  next_eq_none := by
    rw [List.length_append, ← Nat.add_assoc]
    exact hanswers.next_eq_none
  next_stands := by
    rw [List.length_append, ← Nat.add_assoc]
    exact hanswers.next_stands

theorem Answers.items_eq_take {first : Nat} {page : Page} (hanswers : source.Answers first page) :
    page.items = (source.rows.drop first).take page.items.length :=
  List.prefix_iff_eq_take.mp hanswers.isPrefix_items

/-- A page that is not the last one holds a row. -/
theorem Answers.length_pos {before : Nat} {page : Page} (hanswers : source.Answers before page)
    (hmore : page.next ≠ none) : 0 < page.items.length := by
  refine Nat.pos_of_ne_zero fun hempty => ?_
  have hlt : before < source.rows.length := by
    rw [← Nat.not_le]
    intro hle
    exact hmore (hanswers.next_eq_none.mpr (by rw [hempty]; exact hle))
  exact hanswers.items_ne_nil hlt (List.length_eq_zero_iff.mp hempty)

/-- The last page holds all the rows that are left. -/
theorem Answers.items_eq_drop {first : Nat} {page : Page} (hanswers : source.Answers first page)
    (hlast : page.next = none) : page.items = source.rows.drop first := by
  have hle := hanswers.next_eq_none.mp hlast
  rw [hanswers.items_eq_take, List.take_of_length_le]
  rw [List.length_drop]
  omega

end Source

namespace Paging

variable {S : Type} {source : Source} {fetch : Fetch S}

/-- A fetch of a walk that can make `more` fetches after it, where these are as many as rows are
left. Either the page is the last one, or it leaves fewer rows and a fetch for each of them. -/
theorem answer_cases (hserved : source.ServedBy fetch none) {cursor : Option Cursor}
    {before more : Nat} (hat : source.At cursor before) (hbefore : before ≤ source.rows.length)
    (hmore : source.rows.length ≤ before + more + 1) (state : S) :
    ∃ page after, fetch ⟨none, cursor⟩ state = (.ok page, after) ∧ source.Answers before page ∧
      (page.next = none ∨ ∃ next fewer, page.next = some next ∧ more = fewer + 1 ∧
        source.At (some next) (before + page.items.length) ∧
        before + page.items.length ≤ source.rows.length ∧
        source.rows.length ≤ before + page.items.length + fewer + 1) := by
  obtain ⟨page, after, hfetch, hanswers⟩ := hserved cursor before state hat hbefore
  refine ⟨page, after, hfetch, hanswers, ?_⟩
  cases hnext : page.next with
  | none => exact Or.inl rfl
  | some next =>
      have hlt : ¬source.rows.length ≤ before + page.items.length := by
        rw [← hanswers.next_eq_none, hnext]
        exact Option.some_ne_none next
      have hle := hanswers.le hbefore
      have hpos := hanswers.length_pos (hnext ▸ Option.some_ne_none next)
      exact Or.inr ⟨next, more - 1, rfl, by omega, hanswers.next_stands next hnext, by omega,
        by omega⟩

/-- The fetches of a query are enough if there is one for each row that it lacks, or for each row
that is left. -/
theorem gather_answers (hserved : source.ServedBy fetch none) {limit first more : Nat}
    {cursor : Option Cursor} {items : List Record} (hitems : items <+: source.rows.drop first)
    (hat : source.At cursor (first + items.length))
    (hbefore : first + items.length ≤ source.rows.length)
    (hmore : min limit (source.rows.length - first) ≤ items.length + more + 1) (state : S) :
    ∃ all next after, gather fetch limit more cursor items state = (.ok (all, next), after) ∧
      source.Answers first ⟨all, next⟩ ∧ (next ≠ none → limit ≤ all.length) := by
  induction more using Nat.strongRecOn generalizing cursor items state with
  | ind more ih =>
      obtain ⟨page, after, hfetch, hanswers⟩ := hserved cursor _ state hat hbefore
      have hall := hanswers.append hitems
      rw [gather, Action.bind_apply, hfetch]
      cases hnext : page.next with
      | none =>
          rw [hnext] at hall
          refine ⟨items ++ page.items, none, after, ?_, hall, fun hne => absurd rfl hne⟩
          simp only [hnext, Action.pure_apply]
      | some next =>
          rw [hnext] at hall
          by_cases henough : limit ≤ (items ++ page.items).length
          · refine ⟨items ++ page.items, some next, after, ?_, hall, fun _ => henough⟩
            simp only [hnext, if_pos henough, Action.pure_apply]
          · have hpos := hanswers.length_pos (hnext ▸ Option.some_ne_none next)
            have hlength := @List.length_append _ items page.items
            have hleft : ¬source.rows.length ≤ first + (items ++ page.items).length := by
              rw [← hall.next_eq_none]
              exact Option.some_ne_none next
            obtain ⟨fewer, rfl⟩ : ∃ fewer, more = fewer + 1 := ⟨more - 1, by omega⟩
            have hstands : source.At (some next) (first + (items ++ page.items).length) :=
              hall.next_stands next rfl
            have hfewer : min limit (source.rows.length - first) ≤
                (items ++ page.items).length + fewer + 1 := by omega
            obtain ⟨rest, last, final, hgather, hrest⟩ := ih fewer (Nat.lt_succ_self fewer)
              hall.isPrefix_items hstands (hall.le (by omega)) hfewer after
            refine ⟨rest, last, final, ?_, hrest⟩
            simp only [hnext, if_neg henough, hgather]

/-- The rows kept by the cut, with the cursor of the last of them. -/
theorem answers_take {limit first : Nat} {keys : List String} {items : List Record}
    {next : Option Cursor} (hkeyed : source.Keyed keys) (hlimit : 0 < limit)
    (hfirst : first ≤ source.rows.length) (hanswers : source.Answers first ⟨items, next⟩)
    (hlt : limit < items.length) :
    source.Answers first
      ⟨items.take limit, (items.take limit).getLast?.map fun row => Cursor.ofRow row keys⟩ ∧
    ((items.take limit).getLast?.map fun row => Cursor.ofRow row keys).isSome := by
  have hitems : items = (source.rows.drop first).take items.length := hanswers.items_eq_take
  have hle : first + items.length ≤ source.rows.length := hanswers.le hfirst
  have hlength : (items.take limit).length = limit := List.length_take_of_le (Nat.le_of_lt hlt)
  have hlast : (items.take limit).getLast? = source.rows[first + (limit - 1)]? := by
    rw [List.getLast?_eq_getElem?, hlength, List.getElem?_take_of_lt (by omega), hitems,
      List.getElem?_take_of_lt (by omega), List.getElem?_drop]
  obtain ⟨row, hrow⟩ : ∃ row, source.rows[first + (limit - 1)]? = some row :=
    ⟨_, List.getElem?_eq_getElem (by omega)⟩
  have hstands := hkeyed _ _ hrow
  rw [show first + (limit - 1) + 1 = first + limit by omega, ← hlength] at hstands
  rw [hlast, hrow]
  refine ⟨⟨(List.take_prefix _ _).trans hanswers.isPrefix_items, fun _ => ?_, ?_, ?_⟩, rfl⟩
  · exact List.ne_nil_of_length_pos (hlength.symm ▸ hlimit)
  · simp only [Option.map_some, reduceCtorEq, hlength, false_iff]
    omega
  · exact fun cursor hcursor => Option.some.inj hcursor ▸ hstands

/-- What is left after the cut answers the fetch as well. -/
theorem cut_answers {limit first : Nat} {keys : List String} {items : List Record}
    {next : Option Cursor} (hkeyed : source.Keyed keys) (hlimit : 0 < limit)
    (hfirst : first ≤ source.rows.length) (hanswers : source.Answers first ⟨items, next⟩)
    (henough : next ≠ none → limit ≤ items.length) :
    let page := cut limit keys items next
    source.Answers first ⟨page.items, page.next⟩ ∧
      page.items = (source.rows.drop first).take limit ∧
      (page.ending = .limitReached ↔ page.next.isSome) := by
  have hitems : items = (source.rows.drop first).take items.length := hanswers.items_eq_take
  simp only [cut]
  split
  next hlt =>
    obtain ⟨hkept, hsome⟩ := answers_take hkeyed hlimit hfirst hanswers hlt
    refine ⟨hkept, ?_, by simp only [hsome]⟩
    rw [hitems, List.take_take, Nat.min_eq_left (Nat.le_of_lt hlt)]
  next hfits =>
    refine ⟨hanswers, ?_, ?_⟩
    · cases hnext : next with
      | none =>
          have hle : source.rows.length ≤ first + items.length := hanswers.next_eq_none.mp hnext
          have hdrop : items = source.rows.drop first := hanswers.items_eq_drop hnext
          rw [List.take_of_length_le, ← hdrop]
          rw [List.length_drop]
          omega
      | some cursor =>
          have hmost := henough (hnext ▸ Option.some_ne_none cursor)
          rwa [show items.length = limit by omega] at hitems
    · cases next <;> simp

theorem query_answers (hserved : source.ServedBy fetch none) {keys : List String}
    (hkeyed : source.Keyed keys) {limit first more : Nat} {cursor : Option Cursor}
    (hlimit : 0 < limit) (hat : source.At cursor first) (hfirst : first ≤ source.rows.length)
    (hmore : min limit (source.rows.length - first) ≤ more + 1) (state : S) :
    ∃ page after, query fetch more cursor limit keys state = (.ok page, after) ∧
      source.Answers first ⟨page.items, page.next⟩ ∧
      page.items = (source.rows.drop first).take limit ∧
      (page.ending = .limitReached ↔ page.next.isSome) := by
  obtain ⟨items, next, after, hgather, hanswers, henough⟩ :=
    gather_answers hserved List.nil_prefix hat hfirst
      (show min limit (source.rows.length - first) ≤ 0 + more + 1 by omega) state
  refine ⟨cut limit keys items next, after, ?_, cut_answers hkeyed hlimit hfirst hanswers henough⟩
  rw [query, if_neg (Nat.ne_of_gt hlimit), Action.bind_apply, hgather]
  rfl

theorem drain_eq (hserved : source.ServedBy fetch none) {before more : Nat}
    {cursor : Option Cursor} (items : List Record) (hat : source.At cursor before)
    (hbefore : before ≤ source.rows.length) (hmore : source.rows.length ≤ before + more + 1)
    (state : S) :
    ∃ after, drain fetch none more cursor items state =
      (.ok (items ++ source.rows.drop before), after) := by
  induction more using Nat.strongRecOn generalizing cursor before items state with
  | ind more ih =>
      obtain ⟨page, after, hfetch, hanswers, hnext⟩ :=
        answer_cases hserved hat hbefore hmore state
      rw [drain, Action.bind_apply, hfetch]
      rcases hnext with hlast | ⟨next, fewer, hnext, rfl, hstands, hle, hfewer⟩
      · refine ⟨after, ?_⟩
        simp only [hlast, Action.pure_apply, hanswers.items_eq_drop hlast]
      · obtain ⟨rest, hrest⟩ := hanswers.isPrefix_items
        obtain ⟨final, hdrain⟩ :=
          ih fewer (Nat.lt_succ_self fewer) (items ++ page.items) hstands hle hfewer after
        refine ⟨final, ?_⟩
        simp only [hnext, hdrain]
        rw [List.append_assoc, ← hrest, ← List.drop_drop, ← hrest, List.drop_left]

theorem countFrom_eq (hserved : source.ServedBy fetch none) {before more : Nat}
    {cursor : Option Cursor} (total : Nat) (hat : source.At cursor before)
    (hbefore : before ≤ source.rows.length) (hmore : source.rows.length ≤ before + more + 1)
    (state : S) :
    ∃ after, countFrom fetch more cursor total state =
      (.ok (total + (source.rows.length - before)), after) := by
  induction more using Nat.strongRecOn generalizing cursor before total state with
  | ind more ih =>
      obtain ⟨page, after, hfetch, hanswers, hnext⟩ :=
        answer_cases hserved hat hbefore hmore state
      rw [countFrom, Action.bind_apply, hfetch]
      rcases hnext with hlast | ⟨next, fewer, hnext, rfl, hstands, hle, hfewer⟩
      · refine ⟨after, ?_⟩
        simp only [hlast, Action.pure_apply, hanswers.items_eq_drop hlast, List.length_drop]
      · obtain ⟨final, hcount⟩ :=
          ih fewer (Nat.lt_succ_self fewer) (total + page.items.length) hstands hle hfewer after
        refine ⟨final, ?_⟩
        simp only [hnext, hcount]
        rw [show total + page.items.length + (source.rows.length - (before + page.items.length)) =
          total + (source.rows.length - before) by omega]

/-! ### A walk of queries -/

/-- One page after the other, each with its limit and from the cursor of the one before, until one
gives no cursor. -/
def walk (query : Option Cursor → Nat → Action S QueryPage) :
    List Nat → Option Cursor → Action S (List QueryPage)
  | [], _ => pure []
  | limit :: limits, cursor => do
      let page ← query cursor limit
      match page.next with
      | none => pure [page]
      | some next => do
          let pages ← walk query limits (some next)
          pure (page :: pages)

/-- A walk of queries that may each make `more` fetches after their first. -/
def queryWalk (fetch : Fetch S) (more : Nat) (keys : List String) :
    List Nat → Option Cursor → Action S (List QueryPage) :=
  walk fun cursor limit => query fetch more cursor limit keys

/-- The page of a query from a place: the rows that follow, as many as the limit allows. -/
structure Continues (source : Source) (limit before : Nat) (page : QueryPage) : Prop where
  items_eq : page.items = (source.rows.drop before).take limit
  next_isSome : page.next.isSome ↔ page.ending = .limitReached
  rows_remain : page.next.isSome ↔ before + page.items.length < source.rows.length

/-- What a walk from a place returns. -/
structure Walked (source : Source) (limits : List Nat) (first : Nat) (pages : List QueryPage) :
    Prop where
  continues : ∀ (k : Nat) (page : QueryPage), pages[k]? = some page → ∃ limit,
    limits[k]? = some limit ∧
      Continues source limit (first + ((pages.take k).flatMap QueryPage.items).length) page
  length_eq : (∀ page ∈ pages, page.next.isSome) → pages.length = limits.length
  ends : source.rows.length < first + limits.length → ∃ page ∈ pages, page.next = none
  covers : (∃ page ∈ pages, page.next = none) →
    pages.flatMap QueryPage.items = source.rows.drop first

theorem walked_last {limit first : Nat} {page : QueryPage} (limits : List Nat)
    (hpage : Continues source limit first page)
    (hanswers : source.Answers first ⟨page.items, page.next⟩) (hlast : page.next = none) :
    Walked source (limit :: limits) first [page] where
  continues := by
    intro k other hother
    obtain ⟨hk, rfl⟩ := List.getElem?_eq_some_iff.mp hother
    obtain rfl : k = 0 := by simpa using hk
    exact ⟨limit, rfl, hpage⟩
  length_eq := by
    intro hsome
    have := hsome page List.mem_cons_self
    simp [hlast] at this
  ends := fun _ => ⟨page, List.mem_cons_self, hlast⟩
  covers := by
    intro _
    rw [List.flatMap_singleton]
    exact hanswers.items_eq_drop hlast

theorem Walked.cons {limit first : Nat} {limits : List Nat} {page : QueryPage}
    {pages : List QueryPage} (hpage : Continues source limit first page) (hlimit : 0 < limit)
    (hanswers : source.Answers first ⟨page.items, page.next⟩) (hmore : page.next.isSome)
    (hrest : Walked source limits (first + page.items.length) pages) :
    Walked source (limit :: limits) first (page :: pages) where
  continues := by
    intro k other hother
    cases k with
    | zero =>
        obtain rfl := Option.some.inj hother
        exact ⟨limit, rfl, hpage⟩
    | succ k =>
        obtain ⟨next, hnext, hcontinues⟩ := hrest.continues k other hother
        refine ⟨next, hnext, ?_⟩
        rwa [List.take_succ_cons, List.flatMap_cons, List.length_append, ← Nat.add_assoc]
  length_eq := by
    intro hsome
    have hlength := hrest.length_eq fun other hother => hsome other (List.mem_cons_of_mem _ hother)
    rw [List.length_cons, List.length_cons, hlength]
  ends := by
    intro hlt
    have hlength : 0 < page.items.length := by
      have := hpage.rows_remain.mp hmore
      rw [hpage.items_eq, List.length_take, List.length_drop]
      omega
    obtain ⟨other, hother, hnone⟩ := hrest.ends (by rw [List.length_cons] at hlt; omega)
    exact ⟨other, List.mem_cons_of_mem _ hother, hnone⟩
  covers := by
    intro hend
    have hother : ∃ other ∈ pages, other.next = none := by
      obtain ⟨other, hother, hnone⟩ := hend
      rcases List.mem_cons.mp hother with rfl | hmem
      · simp [hnone] at hmore
      · exact ⟨other, hmem, hnone⟩
    obtain ⟨tail, htail⟩ := hanswers.isPrefix_items
    rw [List.flatMap_cons, hrest.covers hother, ← List.drop_drop, ← htail, List.drop_left]

theorem walk_walked {query : Option Cursor → Nat → Action S QueryPage}
    (hquery : ∀ cursor first limit state, 0 < limit → source.At cursor first →
      first ≤ source.rows.length → ∃ page after, query cursor limit state = (.ok page, after) ∧
        source.Answers first ⟨page.items, page.next⟩ ∧
        page.items = (source.rows.drop first).take limit ∧
        (page.ending = .limitReached ↔ page.next.isSome))
    {limits : List Nat} (hlimits : ∀ limit ∈ limits, 0 < limit) {cursor : Option Cursor}
    {first : Nat} (hat : source.At cursor first) (hfirst : first ≤ source.rows.length) (state : S) :
    ∃ pages after, walk query limits cursor state = (.ok pages, after) ∧
      Walked source limits first pages := by
  induction limits generalizing cursor first state with
  | nil =>
      refine ⟨[], state, rfl, fun _ _ hnone => ?_, fun _ => rfl, fun hlt => ?_, ?_⟩
      · simp at hnone
      · exact absurd hfirst (Nat.not_le_of_lt hlt)
      · rintro ⟨page, hmem, -⟩
        exact absurd hmem List.not_mem_nil
  | cons limit limits ih =>
      obtain ⟨hlimit, hrest⟩ := List.forall_mem_cons.mp hlimits
      obtain ⟨page, after, hpage, hanswers, hitems, hending⟩ :=
        hquery cursor first limit state hlimit hat hfirst
      have hcontinues : Continues source limit first page := by
        refine ⟨hitems, hending.symm, ?_⟩
        rw [← Nat.not_le, ← hanswers.next_eq_none]
        exact Option.isSome_iff_ne_none
      rw [walk, Action.bind_apply, hpage]
      cases hnext : page.next with
      | none =>
          refine ⟨[page], after, ?_, walked_last limits hcontinues hanswers hnext⟩
          simp only [hnext, Action.pure_apply]
      | some next =>
          have hstands : source.At (some next) (first + page.items.length) :=
            hanswers.next_stands next hnext
          obtain ⟨pages, final, hpages, hwalked⟩ := ih hrest hstands (hanswers.le hfirst) after
          refine ⟨page :: pages, final, ?_,
            hwalked.cons hcontinues hlimit hanswers (by simp [hnext])⟩
          simp only [hnext, Action.bind_apply, hpages, Action.pure_apply]

/-- **Resumed queries.** A walk from the first row with any positive limits, whose queries may make
as many fetches as there are rows: every page holds exactly the next rows up to its limit, gives a
cursor exactly if the limit ended it, which is so exactly if rows remain, and the walk ends. The
pages put together are what one query for everything returns, and their number is the one that is
counted. -/
theorem queryWalk_round_trip (rows : List Record) {keys : List String} {more : Nat}
    (hserved : (Source.ofRows rows).ServedBy fetch none)
    (hunique : ∀ row ∈ rows, rows.countP (Cursor.ofRow row keys).pointsAt = 1)
    (hmore : rows.length ≤ more + 1) :
    (∀ limits, (∀ limit ∈ limits, 0 < limit) → ∀ state, ∃ pages after,
      queryWalk fetch more keys limits none state = (.ok pages, after) ∧
      (∀ (k : Nat) (page : QueryPage), pages[k]? = some page → ∃ limit, limits[k]? = some limit ∧
        let before := ((pages.take k).flatMap QueryPage.items).length
        page.items = (rows.drop before).take limit ∧
        page.items.length = min limit (rows.length - before) ∧
        (page.next.isSome ↔ page.ending = .limitReached) ∧
        (page.next.isSome ↔ before + page.items.length < rows.length)) ∧
      ((∀ page ∈ pages, page.next.isSome) → pages.length = limits.length) ∧
      (rows.length < limits.length → ∃ page ∈ pages, page.next = none) ∧
      ((∃ page ∈ pages, page.next = none) → pages.flatMap QueryPage.items = rows)) ∧
    (∀ state, ∃ after, queryAll fetch more state = (.ok rows, after)) ∧
    ∀ state, ∃ after, totalCount fetch more state = (.ok rows.length, after) := by
  have hmore' : (Source.ofRows rows).rows.length ≤ 0 + more + 1 := by
    rwa [Nat.zero_add]
  have hkeyed : (Source.ofRows rows).Keyed keys := Source.keyed_ofRows hunique
  have hat : (Source.ofRows rows).At none 0 := rfl
  refine ⟨fun limits hlimits state => ?_, fun state => ?_, fun state => ?_⟩
  · obtain ⟨pages, after, hpages, hwalked⟩ := walk_walked
      (fun cursor first limit state hlimit hat hfirst => query_answers hserved hkeyed hlimit hat
        hfirst (show min limit (rows.length - first) ≤ more + 1 by omega) state)
      hlimits hat (Nat.zero_le _) state
    refine ⟨pages, after, hpages, fun k page hpage => ?_, hwalked.length_eq, fun hlt => ?_,
      hwalked.covers⟩
    · obtain ⟨limit, hlimit, hcontinues⟩ := hwalked.continues k page hpage
      rw [Nat.zero_add] at hcontinues
      refine ⟨limit, hlimit, hcontinues.items_eq, ?_, hcontinues.next_isSome,
        hcontinues.rows_remain⟩
      rw [hcontinues.items_eq, List.length_take, List.length_drop]
      rfl
    · exact hwalked.ends (by rwa [Nat.zero_add])
  · obtain ⟨after, hdrain⟩ := drain_eq hserved [] hat (Nat.zero_le _) hmore' state
    exact ⟨after, hdrain⟩
  · obtain ⟨after, hcount⟩ := countFrom_eq hserved 0 hat (Nat.zero_le _) hmore' state
    rw [Nat.sub_zero, Nat.zero_add] at hcount
    exact ⟨after, hcount⟩

/-- Five rows in pages of two, read with limits that cut a page, end with one and are too large. -/
theorem queryWalk_round_trip_numbered :
    (∃ pages, (queryWalk (fixedPages 2 ["id"] numberedRows) 5 ["id"] [3, 1, 7, 1, 1, 1] none ()).1 =
      .ok pages ∧ pages.flatMap QueryPage.items = numberedRows none) ∧
    ∃ after, totalCount (fixedPages 2 ["id"] numberedRows) 5 () = (.ok 5, after) := by
  have hunique : ∀ row ∈ numberedRows none,
      (numberedRows none).countP (Cursor.ofRow row ["id"]).pointsAt = 1 := by decide
  have hserved : (Source.ofRows (numberedRows none)).ServedBy
      (fixedPages 2 ["id"] numberedRows) none := fixedPages_servedBy (by decide) hunique
  obtain ⟨hwalk, -, hcount⟩ := queryWalk_round_trip (numberedRows none) hserved hunique
    (show (numberedRows none).length ≤ 5 + 1 by decide)
  obtain ⟨pages, after, hpages, -, -, hends, hcovers⟩ := hwalk [3, 1, 7, 1, 1, 1] (by decide) ()
  refine ⟨⟨pages, by rw [hpages], hcovers (hends (by decide))⟩, hcount ()⟩

end Paging

end SchemaQuery
