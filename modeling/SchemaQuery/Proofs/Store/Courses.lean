import SchemaQuery.Proofs.Store.Writes

/-!
# The course of a write

Whatever an entity writes takes one course. Each item goes through the hook before the write and is
checked, one after the other; then the store is written once; then the hook after the write is told
of each item. The first failure decides how it ends: before the store is written it is returned, a
failure of the store goes to the hook for errors if there is one, and behind that it is returned,
with what was written kept. Where there is no room for what is to be written, the call is aborted
instead, and nothing is. Here the course is said for any items, any checks and any store, with every
call of a hook.
-/

namespace SchemaQuery

/-- A call of a hook. -/
inductive HookCall where
  | before (event : PreEvent)
  | after (event : PostEvent)
  | onError (error : StoreError)

/-- The arguments that the hook before a write is called with. -/
def HookCall.args? : HookCall → Option Record
  | before event => some event.args
  | _ => none

namespace Hooks

variable {σ : Type}

def tell (hooks : Hooks σ) (event : PostEvent) : Action σ Unit :=
  match hooks.after with
  | some hook => hook event
  | .none => pure ()

/-- The call of the hook after the write, if there is one. -/
def telling (hooks : Hooks σ) (event : PostEvent) : List HookCall :=
  hooks.after.toList.map fun _ => .after event

/-- Events are told of in their order, up to the first failure. -/
inductive Tells (hooks : Hooks σ) :
    List PostEvent → σ → List HookCall → Except StoreError Unit → σ → Prop where
  | nil (state : σ) : Tells hooks [] state [] (.ok ()) state
  | failed {event : PostEvent} {rest : List PostEvent} {state later : σ} {error : StoreError} :
      hooks.tell event state = (.error error, later) →
      Tells hooks (event :: rest) state (hooks.telling event) (.error error) later
  | cons {event : PostEvent} {rest : List PostEvent} {state mid later : σ}
      {calls : List HookCall} {outcome : Except StoreError Unit} :
      hooks.tell event state = (.ok (), mid) → Tells hooks rest mid calls outcome later →
      Tells hooks (event :: rest) state (hooks.telling event ++ calls) outcome later

/-- Tells of events until a hook fails. -/
def tellAll {S : Type} (hooks : Hooks σ) : List PostEvent → Action (S × σ) Unit
  | [] => pure ()
  | event :: rest => do
      .second (hooks.tell event)
      hooks.tellAll rest

theorem tellAll_singleton_bind {S α : Type} (hooks : Hooks σ) (event : PostEvent)
    (next : Action (S × σ) α) :
    (hooks.tellAll [event] >>= fun _ => next) =
      (Action.second (hooks.tell event) >>= fun _ => next) := by
  funext start
  simp only [tellAll, Action.bind_apply, Action.second_apply]
  cases (hooks.tell event start.2).1 <;> rfl

/-- The hooks, where each call is put on record as well. -/
def recorded (hooks : Hooks σ) : Hooks (σ × List HookCall) where
  attributes := hooks.attributes
  before := hooks.before.map fun hook event state =>
    ((hook event state.1).1, (hook event state.1).2, state.2 ++ [.before event])
  after := hooks.after.map fun hook event state =>
    ((hook event state.1).1, (hook event state.1).2, state.2 ++ [.after event])
  onError := hooks.onError.map fun hook error state =>
    (hook error state.1, state.2 ++ [.onError error])

end Hooks

/-- What one kind of write does besides calling hooks: its items, what each of them must pass, and
the writing. -/
structure Course (S Part Whole Answer Result : Type) where
  entity : String
  rangeKey : Option String
  kind : WriteKind
  items : List Record
  /-- Whether the hook before the write sees the items, and if so, whether as an update. -/
  asks : Option Bool
  /-- What an item becomes part of what is written by. -/
  check : Record → Except StoreError Part
  /-- The parts of what is written, one for each item. -/
  parts : Whole → List Part
  /-- Whether there is room for what is to be written. -/
  room : Prop
  write : Whole → Action S Answer
  write_goes : room → ∀ whole, (write whole).NeverAborts
  write_aborts : ¬room → ∀ whole store, write whole store = (.error .aborted, store)
  /-- The payload and the result that the hook after the write is told of an item. -/
  told : Answer → Record × Part → Record × Option Record
  /-- What the hook before the write has seen is told as it left it. -/
  told_payload : asks ≠ none → ∀ answer item, (told answer item).1 = item.1
  result : Answer → Option Result

namespace Course

variable {S Part Whole Answer Result σ : Type} (course : Course S Part Whole Answer Result)

def ask (hooks : Hooks σ) (item : Record) : Action σ Record :=
  match course.asks with
  | some isUpdate => hooks.beforeWrite item isUpdate
  | none => pure item

/-- The call of the hook before the write, if there is one and the course asks it. -/
def asking (hooks : Hooks σ) (item : Record) : List HookCall :=
  match course.asks with
  | some isUpdate => hooks.before.toList.map fun _ => .before ⟨item, isUpdate, hooks.attributes⟩
  | none => []

def event (hooks : Hooks σ) (answer : Answer) (item : Record × Part) : PostEvent where
  entity := course.entity
  kind := course.kind
  input := (course.told answer item).1
  rangeKey := course.rangeKey
  result := (course.told answer item).2
  attributes := hooks.attributes

/-- Items are asked about and checked in their order, up to the first failure; what comes of it are
the items as the hook left them, with their parts. -/
inductive Asks (hooks : Hooks σ) : List Record → σ → List HookCall →
    Except StoreError (List (Record × Part)) → σ → Prop where
  | nil (state : σ) : Asks hooks [] state [] (.ok []) state
  | refused {item : Record} {rest : List Record} {state later : σ} {error : StoreError} :
      course.ask hooks item state = (.error error, later) →
      Asks hooks (item :: rest) state (course.asking hooks item) (.error error) later
  | unchecked {item given : Record} {rest : List Record} {state later : σ} {error : StoreError} :
      course.ask hooks item state = (.ok given, later) → course.check given = .error error →
      Asks hooks (item :: rest) state (course.asking hooks item) (.error error) later
  | cons {item given : Record} {part : Part} {rest : List Record} {state mid later : σ}
      {calls : List HookCall} {outcome : Except StoreError (List (Record × Part))} :
      course.ask hooks item state = (.ok given, mid) → course.check given = .ok part →
      Asks hooks rest mid calls outcome later →
      Asks hooks (item :: rest) state (course.asking hooks item ++ calls)
        (outcome.map ((given, part) :: ·)) later

/-- The five ways a write may end, each with its calls of hooks, its result, and what it leaves of
the store and of the state of the hooks. -/
inductive Proceeds (hooks : Hooks σ) : S × σ → List HookCall →
    Except StoreError (Option Result) × S × σ → Prop where
  /-- A hook or a check refuses an item: the store is not reached. -/
  | refused {store : S} {state later : σ} {calls : List HookCall} {error : StoreError} :
      course.Asks hooks course.items state calls (.error error) later →
      Proceeds hooks (store, state) calls (.error error, store, later)
  /-- There is no room: nothing is written, and nobody is told. -/
  | aborted {store : S} {state later : σ} {calls : List HookCall}
      {prepared : List (Record × Part)} :
      course.Asks hooks course.items state calls (.ok prepared) later → ¬course.room →
      Proceeds hooks (store, state) calls (.error .aborted, store, later)
  /-- The store fails, and there is no hook for errors. -/
  | failed {store after : S} {state later : σ} {calls : List HookCall}
      {prepared : List (Record × Part)} {whole : Whole} {error : StoreError} :
      course.Asks hooks course.items state calls (.ok prepared) later →
      course.parts whole = prepared.map Prod.snd →
      course.write whole store = (.error error, after) → course.room →
      hooks.onError = none →
      Proceeds hooks (store, state) calls (.error error, after, later)
  /-- The store fails, and the hook for errors takes it. -/
  | handled {store after : S} {state later : σ} {calls : List HookCall}
      {prepared : List (Record × Part)} {whole : Whole} {error : StoreError}
      {hook : StoreError → σ → σ} :
      course.Asks hooks course.items state calls (.ok prepared) later →
      course.parts whole = prepared.map Prod.snd →
      course.write whole store = (.error error, after) → course.room →
      hooks.onError = some hook →
      Proceeds hooks (store, state) (calls ++ [.onError error]) (.ok none, after, hook error later)
  /-- The store is written: a failure behind that is returned as it is. -/
  | written {store after : S} {state later last : σ} {calls told : List HookCall}
      {prepared : List (Record × Part)} {whole : Whole} {answer : Answer}
      {outcome : Except StoreError Unit} :
      course.Asks hooks course.items state calls (.ok prepared) later →
      course.parts whole = prepared.map Prod.snd →
      course.write whole store = (.ok answer, after) →
      hooks.Tells (prepared.map (course.event hooks answer)) later told outcome last →
      Proceeds hooks (store, state) (calls ++ told)
        (outcome.map fun _ => course.result answer, after, last)

variable {course} {hooks : Hooks σ}

/-! ### What is on record -/

theorem filterMap_args?_telling (event : PostEvent) :
    (hooks.telling event).filterMap HookCall.args? = [] := by
  rw [Hooks.telling]
  cases hooks.after <;> rfl

theorem filterMap_args?_of_tells {events : List PostEvent} {state later : σ}
    {told : List HookCall} {outcome : Except StoreError Unit}
    (htells : hooks.Tells events state told outcome later) :
    told.filterMap HookCall.args? = [] := by
  induction htells with
  | nil => rfl
  | failed => exact filterMap_args?_telling _
  | cons _ _ ih => rw [List.filterMap_append, filterMap_args?_telling, ih, List.append_nil]

/-- The hook before the write sees each item at most once, and the items in their order. -/
theorem Asks.args_prefix {items : List Record} {state later : σ} {calls : List HookCall}
    {outcome : Except StoreError (List (Record × Part))}
    (hasks : course.Asks hooks items state calls outcome later) :
    calls.filterMap HookCall.args? <+: items := by
  -- The items asked about are all seen, or none is, for want of a hook or as the course has it.
  have hasking : (∀ item, (course.asking hooks item).filterMap HookCall.args? = [item]) ∨
      ∀ item, (course.asking hooks item).filterMap HookCall.args? = [] := by
    unfold asking
    cases course.asks with
    | none => exact .inr fun _ => rfl
    | some isUpdate =>
        cases hooks.before with
        | none => exact .inr fun _ => rfl
        | some hook => exact .inl fun _ => rfl
  rcases hasking with hasking | hasking
  · induction hasks with
    | nil => exact List.prefix_rfl
    | refused | unchecked =>
        rw [hasking]
        exact List.prefix_append _ _
    | cons _ _ _ ih =>
        rw [List.filterMap_append, hasking]
        exact List.prefix_append_right_inj _ |>.mpr ih
  · have hnone : calls.filterMap HookCall.args? = [] := by
      induction hasks with
      | nil => rfl
      | refused | unchecked => exact hasking _
      | cons _ _ _ ih => rw [List.filterMap_append, hasking, ih, List.append_nil]
    rw [hnone]
    exact List.nil_prefix

theorem Proceeds.args_prefix {start : S × σ} {calls : List HookCall}
    {after : Except StoreError (Option Result) × S × σ}
    (hproceeds : course.Proceeds hooks start calls after) :
    calls.filterMap HookCall.args? <+: course.items := by
  cases hproceeds with
  | refused hasks | aborted hasks | failed hasks => exact hasks.args_prefix
  | @handled _ _ _ _ _ _ _ error _ hasks =>
      have herror : [HookCall.onError error].filterMap HookCall.args? = [] := rfl
      rw [List.filterMap_append, herror, List.append_nil]
      exact hasks.args_prefix
  | written hasks _ _ htells =>
      rw [List.filterMap_append, filterMap_args?_of_tells htells, List.append_nil]
      exact hasks.args_prefix

theorem ask_recorded (item : Record) (state : σ) (log : List HookCall) :
    course.ask hooks.recorded item (state, log) =
      ((course.ask hooks item state).1, (course.ask hooks item state).2,
        log ++ course.asking hooks item) := by
  unfold ask asking
  cases course.asks with
  | none => rw [List.append_nil]; rfl
  | some isUpdate =>
      simp only [Hooks.beforeWrite, Hooks.recorded]
      cases hooks.before with
      | none => rw [Option.toList_none, List.map_nil, List.append_nil]; rfl
      | some hook => rfl

theorem asking_recorded (item : Record) :
    course.asking hooks.recorded item = course.asking hooks item := by
  unfold asking
  cases course.asks with
  | none => rfl
  | some isUpdate =>
      simp only [Hooks.recorded]
      cases hooks.before <;> rfl

theorem tell_recorded (event : PostEvent) (state : σ) (log : List HookCall) :
    hooks.recorded.tell event (state, log) =
      ((hooks.tell event state).1, (hooks.tell event state).2, log ++ hooks.telling event) := by
  simp only [Hooks.tell, Hooks.telling, Hooks.recorded]
  cases hooks.after with
  | none => rw [Option.toList_none, List.map_nil, List.append_nil]; rfl
  | some hook => rfl

theorem telling_recorded (event : PostEvent) :
    hooks.recorded.telling event = hooks.telling event := by
  simp only [Hooks.telling, Hooks.recorded]
  cases hooks.after <;> rfl

/-- A course with the calls on record is one without, and the record is of its calls. -/
theorem Asks.of_recorded {items : List Record} {start last : σ × List HookCall}
    {calls : List HookCall} {outcome : Except StoreError (List (Record × Part))}
    (hasks : course.Asks hooks.recorded items start calls outcome last) :
    course.Asks hooks items start.1 calls outcome last.1 ∧ last.2 = start.2 ++ calls := by
  induction hasks with
  | nil state => exact ⟨.nil state.1, (List.append_nil _).symm⟩
  | @refused item rest state later error hask =>
      rw [ask_recorded] at hask
      obtain ⟨hresult, rfl⟩ := Prod.mk.inj hask
      rw [asking_recorded]
      exact ⟨.refused (Prod.ext hresult rfl), rfl⟩
  | @unchecked item given rest state later error hask hcheck =>
      rw [ask_recorded] at hask
      obtain ⟨hresult, rfl⟩ := Prod.mk.inj hask
      rw [asking_recorded]
      exact ⟨.unchecked (Prod.ext hresult rfl) hcheck, rfl⟩
  | @cons item given part rest state mid later calls outcome hask hcheck _ ih =>
      rw [ask_recorded] at hask
      obtain ⟨hresult, rfl⟩ := Prod.mk.inj hask
      obtain ⟨hrest, hlast⟩ := ih
      rw [asking_recorded]
      exact ⟨.cons (Prod.ext hresult rfl) hcheck hrest, by rw [hlast, List.append_assoc]⟩

theorem tells_of_recorded {events : List PostEvent} {start last : σ × List HookCall}
    {told : List HookCall} {outcome : Except StoreError Unit}
    (htells : hooks.recorded.Tells events start told outcome last) :
    hooks.Tells events start.1 told outcome last.1 ∧ last.2 = start.2 ++ told := by
  induction htells with
  | nil state => exact ⟨.nil state.1, (List.append_nil _).symm⟩
  | @failed event rest state later error htell =>
      rw [tell_recorded] at htell
      obtain ⟨hresult, rfl⟩ := Prod.mk.inj htell
      rw [telling_recorded]
      exact ⟨.failed (Prod.ext hresult rfl), rfl⟩
  | @cons event rest state mid later told outcome htell _ ih =>
      rw [tell_recorded] at htell
      obtain ⟨hresult, rfl⟩ := Prod.mk.inj htell
      obtain ⟨hrest, hlast⟩ := ih
      rw [telling_recorded]
      exact ⟨.cons (Prod.ext hresult rfl) hrest, by rw [hlast, List.append_assoc]⟩

theorem Proceeds.of_recorded {store : S} {state : σ} {log calls : List HookCall}
    {result : Except StoreError (Option Result)} {after : S} {last : σ × List HookCall}
    (hproceeds : course.Proceeds hooks.recorded (store, state, log) calls (result, after, last)) :
    course.Proceeds hooks (store, state) calls (result, after, last.1) ∧ last.2 = log ++ calls := by
  cases hproceeds with
  | refused hasks => exact ⟨.refused hasks.of_recorded.1, hasks.of_recorded.2⟩
  | aborted hasks hroom => exact ⟨.aborted hasks.of_recorded.1 hroom, hasks.of_recorded.2⟩
  | failed hasks hparts hwrite hroom hnone =>
      exact ⟨.failed hasks.of_recorded.1 hparts hwrite hroom (Option.map_eq_none_iff.mp hnone),
        hasks.of_recorded.2⟩
  | handled hasks hparts hwrite hroom hsome =>
      obtain ⟨hook, hhook, rfl⟩ := Option.map_eq_some_iff.mp hsome
      refine ⟨.handled hasks.of_recorded.1 hparts hwrite hroom hhook, ?_⟩
      show _ ++ _ = _
      rw [hasks.of_recorded.2, List.append_assoc]
  | written hasks hparts hwrite htells =>
      obtain ⟨hasks, hmid⟩ := hasks.of_recorded
      obtain ⟨htells, hlast⟩ := tells_of_recorded htells
      exact ⟨.written hasks hparts hwrite htells, by rw [hlast, hmid, List.append_assoc]⟩

/-! ### Following a course -/

/-- The end of a call: the store is written, and the hooks are told what became of it. -/
def finish (course : Course S Part Whole Answer Result) (hooks : Hooks σ) (whole : Whole)
    (prepared : List (Record × Part)) : Action (S × σ) (Option Result) := do
  match ← .attempt (.first (course.write whole)) with
  | .error error => .second (hooks.recover error)
  | .ok answer => do
      hooks.tellAll (prepared.map (course.event hooks answer))
      pure (course.result answer)

variable (course) in
/-- An action is the end of a call if it does so with a failure, and so with an answer. -/
theorem eq_finish {whole : Whole} {prepared : List (Record × Part)}
    {rest : Except StoreError Answer → Action (S × σ) (Option Result)}
    (herror : ∀ error, rest (.error error) = .second (hooks.recover error))
    (hok : ∀ answer, rest (.ok answer) = (do
      hooks.tellAll (prepared.map (course.event hooks answer))
      pure (course.result answer))) :
    (Action.attempt (.first (course.write whole)) >>= rest) =
      course.finish hooks whole prepared := by
  unfold finish
  congr 1
  funext outcome
  cases outcome with
  | error error => exact herror error
  | ok answer => exact hok answer

theorem eq_finish_single (course : Course S Part Part Answer Result) {given : Record} {part : Part}
    {rest : Except StoreError Answer → Action (S × σ) (Option Result)}
    (herror : ∀ error, rest (.error error) = .second (hooks.recover error))
    (hok : ∀ answer, rest (.ok answer) = (do
      .second (hooks.tell (course.event hooks answer (given, part)))
      pure (course.result answer))) :
    (Action.attempt (.first (course.write part)) >>= rest) =
      course.finish hooks part [(given, part)] := by
  refine course.eq_finish herror fun answer => ?_
  rw [hok]
  exact (hooks.tellAll_singleton_bind _ _).symm

theorem tells_tellAll (hooks : Hooks σ) (events : List PostEvent) (store : S) (state : σ) :
    ∃ told outcome last, hooks.Tells events state told outcome last ∧
      (hooks.tellAll events : Action (S × σ) Unit) (store, state) = (outcome, store, last) := by
  induction events generalizing state with
  | nil => exact ⟨[], .ok (), state, .nil state, rfl⟩
  | cons event rest ih =>
      cases htell : hooks.tell event state with
      | mk result mid =>
          cases result with
          | error error =>
              refine ⟨_, _, _, .failed htell, ?_⟩
              rw [Hooks.tellAll, Action.bind_apply, Action.second_apply, htell]
          | ok =>
              obtain ⟨told, outcome, last, hrest, htold⟩ := ih mid
              refine ⟨_, _, _, .cons htell hrest, ?_⟩
              rw [Hooks.tellAll, Action.bind_apply, Action.second_apply, htell]
              exact htold

theorem proceeds_finish {store : S} {state later : σ} {calls : List HookCall}
    {prepared : List (Record × Part)} {whole : Whole}
    (hasks : course.Asks hooks course.items state calls (.ok prepared) later)
    (hparts : course.parts whole = prepared.map Prod.snd) :
    ∃ calls, course.Proceeds hooks (store, state) calls
      (course.finish hooks whole prepared (store, later)) := by
  rw [finish, Action.bind_apply]
  by_cases hroom : course.room
  case neg =>
    have hwrite := course.write_aborts hroom whole store
    have hfirst : (course.write whole).first (store, later) = (.error .aborted, store, later) := by
      rw [Action.first_apply, hwrite]
    rw [Action.attempt_of_aborted (congrArg Prod.fst hfirst), hfirst]
    exact ⟨calls, .aborted hasks hroom⟩
  rw [Action.attempt_apply ((course.write_goes hroom whole).first (store, later)),
    Action.first_apply]
  cases hwrite : course.write whole store with
  | mk result after =>
      cases result with
      | error error =>
          show ∃ calls, course.Proceeds hooks (store, state) calls
            ((hooks.recover error later).1, after, (hooks.recover error later).2)
          rw [Hooks.recover]
          cases hhook : hooks.onError with
          | none => exact ⟨calls, .failed hasks hparts hwrite hroom hhook⟩
          | some hook => exact ⟨_, .handled hasks hparts hwrite hroom hhook⟩
      | ok answer =>
          obtain ⟨told, outcome, last, htells, htold⟩ :=
            tells_tellAll hooks (prepared.map (course.event hooks answer)) after later
          refine ⟨calls ++ told, ?_⟩
          show course.Proceeds hooks (store, state) _
            ((hooks.tellAll (prepared.map (course.event hooks answer)) >>= fun _ =>
              pure (course.result answer)) (after, later))
          have hwritten := Proceeds.written hasks hparts hwrite htells
          rw [Action.bind_apply, htold]
          cases outcome with
          | error error => exact hwritten
          | ok => exact hwritten

/-- A call for one item, whose part is all that is written. -/
def single (course : Course S Part Part Answer Result) (hooks : Hooks σ) (item : Record) :
    Action (S × σ) (Option Result) := do
  let given ← .second (course.ask hooks item)
  let part ← .ofExcept (course.check given)
  course.finish hooks part [(given, part)]

theorem proceeds_single {course : Course S Part Part Answer Result} {item : Record}
    (hitems : course.items = [item]) (hparts : ∀ part, course.parts part = [part])
    (start : S × σ) :
    ∃ calls, course.Proceeds hooks start calls (course.single hooks item start) := by
  obtain ⟨store, state⟩ := start
  rw [single, Action.bind_apply, Action.second_apply]
  cases hask : course.ask hooks item state with
  | mk result later =>
      cases result with
      | error error =>
          have hasks : course.Asks hooks [item] state _ (.error error) later := .refused hask
          rw [← hitems] at hasks
          exact ⟨_, .refused hasks⟩
      | ok given =>
          show ∃ calls, course.Proceeds hooks (store, state) calls
            ((Action.ofExcept (course.check given) >>= fun part =>
              course.finish hooks part [(given, part)]) (store, later))
          cases hcheck : course.check given with
          | error error =>
              have hasks : course.Asks hooks [item] state _ (.error error) later :=
                .unchecked hask hcheck
              rw [← hitems] at hasks
              exact ⟨_, .refused hasks⟩
          | ok part =>
              have hasks := Asks.cons hask hcheck (.nil later)
              rw [← hitems] at hasks
              rw [Action.ofExcept_ok_bind]
              exact proceeds_finish hasks (hparts part)

/-- What comes of an item has passed the check; if no hook sees it, it is the item itself. -/
theorem Asks.prepared_spec {items : List Record} {state later : σ} {calls : List HookCall}
    {outcome : Except StoreError (List (Record × Part))}
    (hasks : course.Asks hooks items state calls outcome later) :
    ∀ prepared, outcome = .ok prepared →
      (∀ item ∈ prepared, course.check item.1 = .ok item.2) ∧
      (course.asks = none → prepared.map Prod.fst = items) := by
  induction hasks with
  | nil =>
      rintro prepared ⟨⟩
      exact ⟨fun _ hmem => absurd hmem List.not_mem_nil, fun _ => rfl⟩
  | refused | unchecked =>
      rintro prepared ⟨⟩
  | @cons item given part rest state mid later calls outcome hask hcheck _ ih =>
      intro prepared hprepared
      cases outcome with
      | error error => cases hprepared
      | ok more =>
          obtain rfl := Except.ok.inj hprepared
          obtain ⟨hchecked, hsame⟩ := ih more rfl
          refine ⟨List.forall_mem_cons.mpr ⟨hcheck, hchecked⟩, fun hnone => ?_⟩
          rw [ask, hnone] at hask
          obtain rfl := Except.ok.inj (Prod.mk.inj hask).1
          rw [List.map_cons, hsame hnone]

/-- An action that asks about the items, and goes on with something made of what comes of it. -/
def Gathers {α : Type} (course : Course S Part Whole Answer Result) (hooks : Hooks σ)
    (action : Action (S × σ) α) (make : List (Record × Part) → α) : Prop :=
  ∀ store state, ∃ calls outcome later, course.Asks hooks course.items state calls outcome later ∧
    action (store, state) = (outcome.map make, store, later)

variable (course) in
/-- An action that takes the items one after the other. -/
theorem gathers_of_cons {α : Type} (gather : List Record → Action (S × σ) α)
    {make : List (Record × Part) → α} {step : Record × Part → α → α}
    (hnil : gather [] = pure (make []))
    (hmake : ∀ item prepared, make (item :: prepared) = step item (make prepared))
    (hcons : ∀ item rest, gather (item :: rest) = (do
      let given ← .second (course.ask hooks item)
      let part ← .ofExcept (course.check given)
      let more ← gather rest
      pure (step (given, part) more))) :
    course.Gathers hooks (gather course.items) make := by
  unfold Gathers
  generalize course.items = items
  intro store state
  induction items generalizing state with
  | nil => exact ⟨[], .ok [], state, .nil state, by rw [hnil]; rfl⟩
  | cons item rest ih =>
      rw [hcons, Action.bind_apply, Action.second_apply]
      cases hask : course.ask hooks item state with
      | mk result mid =>
          cases result with
          | error error => exact ⟨_, _, _, .refused hask, rfl⟩
          | ok given =>
              show ∃ calls outcome later, _ ∧ (Action.ofExcept (course.check given) >>= fun part =>
                gather rest >>= fun more => pure (step (given, part) more)) (store, mid) = _
              cases hcheck : course.check given with
              | error error => exact ⟨_, _, _, .unchecked hask hcheck, rfl⟩
              | ok part =>
                  obtain ⟨calls, outcome, later, hasks, hrest⟩ := ih mid
                  refine ⟨_, _, _, .cons hask hcheck hasks, ?_⟩
                  rw [Action.ofExcept_ok_bind, Action.bind_apply, hrest]
                  cases outcome with
                  | error error => rfl
                  | ok prepared =>
                      show (Except.ok (step (given, part) (make prepared)), store, later) = _
                      rw [← hmake]
                      rfl

variable (course) in
/-- Checks alone, where no hook sees the items. -/
theorem gathers_of_checks (hasks : course.asks = none)
    (checkAll : List Record → Except StoreError (List Part)) (hnil : checkAll [] = .ok [])
    (hcons : ∀ row rest, checkAll (row :: rest) =
      (course.check row).bind fun part => (checkAll rest).map (part :: ·)) :
    course.Gathers hooks (.ofExcept (checkAll course.items)) (List.map Prod.snd) := by
  have hask : ∀ item, course.ask hooks item = pure item := by
    intro item
    rw [ask, hasks]
  refine course.gathers_of_cons (fun rows => .ofExcept (checkAll rows))
    (congrArg _ hnil) (fun _ _ => rfl) fun row rest => ?_
  rw [hask]
  show Action.ofExcept (checkAll (row :: rest)) =
    (Action.ofExcept (course.check row) >>= fun part =>
      Action.ofExcept (checkAll rest) >>= fun parts => pure (part :: parts))
  rw [hcons]
  cases course.check row with
  | error error => rfl
  | ok part => cases checkAll rest <;> rfl

/-- A call for many items. -/
theorem proceeds_batch {α : Type} {action : Action (S × σ) α}
    {make : List (Record × Part) → α} (haction : course.Gathers hooks action make)
    {rest : α → Action (S × σ) (Option Result)}
    (hrest : ∀ prepared, (∀ item ∈ prepared, course.check item.1 = .ok item.2) →
      (course.asks = none → prepared.map Prod.fst = course.items) →
      ∃ whole, course.parts whole = prepared.map Prod.snd ∧
        rest (make prepared) = course.finish hooks whole prepared) (start : S × σ) :
    ∃ calls, course.Proceeds hooks start calls ((action >>= rest) start) := by
  obtain ⟨store, state⟩ := start
  obtain ⟨calls, outcome, later, hasks, hgathered⟩ := haction store state
  rw [Action.bind_apply, hgathered]
  cases outcome with
  | error error => exact ⟨calls, .refused hasks⟩
  | ok prepared =>
      obtain ⟨hchecked, hsame⟩ := hasks.prepared_spec prepared rfl
      obtain ⟨whole, hparts, hwhole⟩ := hrest prepared hchecked hsame
      show ∃ calls, course.Proceeds hooks (store, state) calls (rest (make prepared) (store, later))
      rw [hwhole]
      exact proceeds_finish hasks hparts

/-- A call follows a course if it proceeds as this says, whatever the hooks are; with the hooks on
record, the record is of the calls of the course, of which those before the write see each item at
most once, in the order of the items. -/
def IsFollowedBy (course : Course S Part Whole Answer Result)
    (call : (σ : Type) → Hooks σ → Action (S × σ) (Option Result)) : Prop :=
  ∀ (σ : Type) (hooks : Hooks σ) (store : S) (state : σ),
    (∃ calls, course.Proceeds hooks (store, state) calls (call σ hooks (store, state))) ∧
    ∃ calls result after last,
      call _ hooks.recorded (store, state, []) = (result, after, last, calls) ∧
      course.Proceeds hooks (store, state) calls (result, after, last) ∧
      calls.filterMap HookCall.args? <+: course.items

theorem isFollowedBy_of_proceeds {course : Course S Part Whole Answer Result}
    {call : (σ : Type) → Hooks σ → Action (S × σ) (Option Result)}
    (hcall : ∀ (σ : Type) (hooks : Hooks σ) (start : S × σ),
      ∃ calls, course.Proceeds hooks start calls (call σ hooks start)) :
    course.IsFollowedBy call := by
  intro σ hooks store state
  refine ⟨hcall σ hooks (store, state), ?_⟩
  obtain ⟨calls, hproceeds⟩ := hcall _ hooks.recorded (store, state, [])
  obtain ⟨hproceeds, hlog⟩ := hproceeds.of_recorded
  refine ⟨calls, _, _, _, ?_, hproceeds, hproceeds.args_prefix⟩
  rw [List.nil_append] at hlog
  rw [← hlog]

theorem isFollowedBy_single {course : Course S Part Part Answer Result} {item : Record}
    {call : (σ : Type) → Hooks σ → Action (S × σ) (Option Result)}
    (hitems : course.items = [item]) (hparts : ∀ part, course.parts part = [part])
    (hcall : ∀ (σ : Type) (hooks : Hooks σ), call σ hooks = course.single hooks item) :
    course.IsFollowedBy call := by
  refine isFollowedBy_of_proceeds fun σ hooks start => ?_
  rw [hcall]
  exact proceeds_single hitems hparts start

end Course

end SchemaQuery
