import SchemaQuery.Proofs.KeyValue.Binding
import SchemaQuery.Proofs.KeyValue.Writes
import SchemaQuery.Proofs.Text.Splitting

/-!
# Updates read from their text

The store is given an update as a text: `set`, and then an action for each assignment, with commas
between. An action names its target by placeholders with points between, and assigns to it a value,
or the target itself with a value added or taken away. So the text is read here, without a look at
the assignments that it was written for.
-/

namespace SchemaQuery

theorem exists_mapM_of_forall₂ {α β γ : Type} {make : α → Option β} {relates : β → γ → Prop}
    {elements : List α} {others : List γ}
    (hmakes : List.Forall₂ (fun element other => ∃ made, make element = some made ∧
      relates made other) elements others) :
    ∃ made, elements.mapM make = some made ∧ List.Forall₂ relates made others := by
  induction hmakes with
  | nil => exact ⟨[], rfl, .nil⟩
  | cons hfirst _ ih =>
      obtain ⟨first, hfirst, hrelates⟩ := hfirst
      obtain ⟨rest, hrest, hall⟩ := ih
      exact ⟨first :: rest, by rw [List.mapM_cons, hfirst, hrest]; rfl, .cons hrelates hall⟩

namespace KeyValue

open Placeholder

/-! ### The reader -/

inductive SetAction where
  | set (path : List String) (value : String)
  | adjust (path : List String) (subtract : Bool) (value : String)
  deriving DecidableEq

namespace SetAction

def path : SetAction → List String
  | set path _ | adjust path _ _ => path

def value : SetAction → String
  | set _ value | adjust _ _ value => value

/-- What stands between blanks. -/
def words (text : List Char) : List (List Char) :=
  (text.splitOn ' ').filter fun word => !word.isEmpty

/-- The placeholders of a path. -/
def steps (text : List Char) : List String := (text.splitOn '.').map String.ofList

def subtracts? : List Char → Option Bool
  | ['+'] => some false
  | ['-'] => some true
  | _ => none

/-- The action of a target and of what is assigned to it. -/
def ofWords? : List (List Char) → List (List Char) → Option SetAction
  | [target], [value] => some (.set (steps target) (String.ofList value))
  | [target], [source, sign, value] =>
      if source = target then
        (subtracts? sign).map fun subtract =>
          .adjust (steps target) subtract (String.ofList value)
      else none
  | _, _ => none

def parse? (text : List Char) : Option SetAction :=
  match text.splitOn '=' with
  | [target, operation] => ofWords? (words target) (words operation)
  | _ => none

/-- The actions of an update; if there is no text, there are none. -/
def parseAll? : Option String → Option (List SetAction)
  | none => some []
  | some text =>
      match text.toList with
      | 's' :: 'e' :: 't' :: ' ' :: actions => (actions.splitOn ',').mapM parse?
      | _ => none

example : parseAll? (some "set #a= :a, #b.#c = #b.#c - :v") =
    some [.set ["#a"] ":a", .adjust ["#b", "#c"] true ":v"] := by rfl

/-- The assignment over attributes and values; nothing if a placeholder is not bound. -/
def resolve (bound : Placeholders) : SetAction → Option Assignment
  | set path value => do
      some (.set (← path.mapM bound.names.get?) (← bound.values.get? value))
  | adjust path subtract value => do
      some (.adjust (← path.mapM bound.names.get?) subtract (← bound.values.get? value))

/-! ### Reading what is written -/

/-- A path as it is written. -/
def target (path : List String) : String := String.intercalate "." path

def text : SetAction → String
  | set path value => target path ++ "= " ++ value
  | adjust path subtract value =>
      target path ++ " = " ++ target path ++ (if subtract then " - " else " + ") ++ value

/-- Some placeholders of attributes. -/
def IsPath (path : List String) : Prop :=
  path ≠ [] ∧ ∀ placeholder ∈ path, IsMarked '#' placeholder

theorem words_append (left right : List Char) :
    words (left ++ ' ' :: right) = words left ++ words right := by
  rw [words, List.splitOn_append_cons_self, List.filter_append]
  rfl

theorem words_of_notMem {text : List Char} (hne : text ≠ []) (hblank : ' ' ∉ text) :
    words text = [text] := by
  rw [words, List.splitOn_eq_singleton hblank]
  cases text with
  | nil => exact absurd rfl hne
  | cons c rest => rfl

theorem words_cons_blank (text : List Char) : words (' ' :: text) = words text :=
  words_append [] text

/-- A blank before an action makes no difference. -/
theorem parse?_cons_blank (text : List Char) : parse? (' ' :: text) = parse? text := by
  rw [parse?, parse?, List.splitOn_cons_eq_if_modifyHead, if_neg (by decide)]
  cases text.splitOn '=' with
  | nil => rfl
  | cons target rest =>
      rw [List.modifyHead_cons]
      cases rest with
      | nil => rfl
      | cons operation rest =>
          cases rest with
          | nil => exact congrArg (ofWords? · (words operation)) (words_cons_blank target)
          | cons _ _ => rfl

theorem parse?_append {target operation : List Char} (htarget : '=' ∉ target)
    (hoperation : '=' ∉ operation) :
    parse? (target ++ '=' :: operation) = ofWords? (words target) (words operation) := by
  rw [parse?, List.splitOn_append_cons_self_of_not_mem htarget,
    List.splitOn_eq_singleton hoperation]

/-- The sign of an adjustment. -/
def sign (subtract : Bool) : Char := if subtract then '-' else '+'

theorem toList_text_set (path : List String) (value : String) :
    (set path value).text.toList = (target path).toList ++ '=' :: ' ' :: value.toList := by
  rw [text, String.toList_append, String.toList_append, List.append_assoc]
  rfl

theorem toList_text_adjust (path : List String) (subtract : Bool) (value : String) :
    (adjust path subtract value).text.toList = ((target path).toList ++ [' ']) ++ '=' :: ' ' ::
      ((target path).toList ++ ' ' :: ([sign subtract] ++ ' ' :: value.toList)) := by
  cases subtract <;> simp only [text, String.toList_append, List.append_assoc] <;> rfl

section Written

variable {path : List String} {value : String}

theorem IsPath.notMem_target (hpath : IsPath path) {c : Char} (hplain : isPlain c = false)
    (hname : c ≠ '#') (hpoint : c ≠ '.') : c ∉ (target path).toList :=
  notMem_intercalate (mt List.mem_singleton.mp hpoint) fun placeholder hmem =>
    (hpath.2 placeholder hmem).notMem hplain hname

theorem IsPath.steps_target (hpath : IsPath path) : steps (target path).toList = path := by
  have hpoint : ∀ placeholder ∈ path, '.' ∉ placeholder.toList := fun placeholder hmem =>
    (hpath.2 placeholder hmem).notMem rfl (by decide)
  rw [steps, target, splitOn_intercalate rfl hpath.1 hpoint, List.map_map]
  exact (List.map_congr_left fun _ _ => String.ofList_toList).trans (List.map_id _)

theorem IsPath.words_target (hpath : IsPath path) :
    words (target path).toList = [(target path).toList] := by
  refine words_of_notMem (fun hnil => ?_) (hpath.notMem_target rfl (by decide) (by decide))
  have hsteps := hpath.steps_target
  rw [hnil] at hsteps
  obtain ⟨name, hname, -⟩ := hpath.2 "" (hsteps ▸ List.mem_singleton_self _)
  cases hname

theorem words_value (hvalue : IsMarked ':' value) : words value.toList = [value.toList] := by
  refine words_of_notMem (fun hnil => ?_) (hvalue.notMem rfl (by decide))
  obtain ⟨name, hname, -⟩ := hvalue
  cases hnil.symm.trans hname

theorem parse?_set (hpath : IsPath path) (hvalue : IsMarked ':' value) :
    parse? (set path value).text.toList = some (set path value) := by
  have hequals : '=' ∉ (target path).toList := hpath.notMem_target rfl (by decide) (by decide)
  have hequals' : '=' ∉ ' ' :: value.toList :=
    List.not_mem_cons_of_ne_of_not_mem (by decide) (hvalue.notMem rfl (by decide))
  rw [toList_text_set, parse?_append hequals hequals', words_cons_blank, hpath.words_target,
    words_value hvalue, ofWords?, hpath.steps_target, String.ofList_toList]

theorem parse?_adjust (hpath : IsPath path) (subtract : Bool) (hvalue : IsMarked ':' value) :
    parse? (adjust path subtract value).text.toList = some (adjust path subtract value) := by
  have hequals : '=' ∉ (target path).toList := hpath.notMem_target rfl (by decide) (by decide)
  have hequals' : '=' ∉ value.toList := hvalue.notMem rfl (by decide)
  have hsign : '=' ≠ sign subtract := by cases subtract <;> decide
  have htarget : words ((target path).toList ++ [' ']) = [(target path).toList] := by
    rw [words_append, hpath.words_target]
    rfl
  have hoperation : words ((target path).toList ++ ' ' :: ([sign subtract] ++ ' ' :: value.toList)) =
      [(target path).toList, [sign subtract], value.toList] := by
    rw [words_append, words_append, hpath.words_target, words_value hvalue]
    cases subtract <;> rfl
  have hsubtracts : subtracts? [sign subtract] = some subtract := by cases subtract <;> rfl
  rw [toList_text_adjust, parse?_append (by simp [hequals]) (by simp [hequals, hequals', hsign]),
    words_cons_blank, htarget, hoperation, ofWords?, if_pos rfl, hsubtracts, Option.map_some,
    hpath.steps_target, String.ofList_toList]

end Written

/-- An action on some path, with a value. -/
def IsWritten (action : SetAction) : Prop := IsPath action.path ∧ IsMarked ':' action.value

theorem parse?_text {action : SetAction} (hwritten : action.IsWritten) :
    parse? action.text.toList = some action := by
  cases action with
  | set path value => exact parse?_set hwritten.1 hwritten.2
  | adjust path subtract value => exact parse?_adjust hwritten.1 subtract hwritten.2

theorem comma_notMem_text {action : SetAction} (hwritten : action.IsWritten) :
    ',' ∉ action.text.toList := by
  obtain ⟨hpath, hvalue⟩ := hwritten
  have htarget : ',' ∉ (target action.path).toList :=
    hpath.notMem_target rfl (by decide) (by decide)
  have hnone : ',' ∉ action.value.toList := hvalue.notMem rfl (by decide)
  cases action with
  | set path value =>
      change ',' ∉ (target path).toList at htarget
      change ',' ∉ value.toList at hnone
      simp [toList_text_set, htarget, hnone]
  | adjust path subtract value =>
      change ',' ∉ (target path).toList at htarget
      change ',' ∉ value.toList at hnone
      have hsign : ',' ≠ sign subtract := by cases subtract <;> decide
      simp [toList_text_adjust, htarget, hnone, hsign]

theorem mapM_parse?_modifyHead (texts : List (List Char)) :
    (texts.modifyHead (' ' :: ·)).mapM parse? = texts.mapM parse? := by
  cases texts with
  | nil => rfl
  | cons first rest => rw [List.modifyHead_cons, List.mapM_cons, List.mapM_cons, parse?_cons_blank]

/-- Actions with commas between are read one by one. -/
theorem mapM_parse?_intercalate {actions : List SetAction} (hne : actions ≠ [])
    (hwritten : ∀ action ∈ actions, action.IsWritten) :
    ((String.intercalate ", " (actions.map text)).toList.splitOn ',').mapM parse? =
      some actions := by
  induction actions with
  | nil => exact absurd rfl hne
  | cons first rest ih =>
      obtain ⟨hfirst, hrest⟩ := List.forall_mem_cons.mp hwritten
      have hcomma := comma_notMem_text hfirst
      cases rest with
      | nil =>
          rw [List.map_singleton, String.intercalate_singleton, List.splitOn_eq_singleton hcomma,
            List.mapM_cons, parse?_text hfirst]
          rfl
      | cons second rest =>
          have hcons : (String.intercalate ", " ((first :: second :: rest).map text)).toList =
              first.text.toList ++ ',' :: ' ' ::
                (String.intercalate ", " ((second :: rest).map text)).toList := by
            rw [List.map_cons, List.map_cons, String.intercalate_cons_cons, String.toList_append,
              String.toList_append, List.append_assoc]
            rfl
          rw [hcons, List.splitOn_append_cons_self_of_not_mem hcomma, List.mapM_cons,
            parse?_text hfirst, List.splitOn_cons_eq_if_modifyHead, if_neg (by decide),
            mapM_parse?_modifyHead, ih (List.cons_ne_nil _ _) hrest]
          rfl

theorem parseAll?_text {actions : List SetAction} (hne : actions ≠ [])
    (hwritten : ∀ action ∈ actions, action.IsWritten) :
    parseAll? (some ("set " ++ String.intercalate ", " (actions.map text))) = some actions := by
  rw [← mapM_parse?_intercalate hne hwritten, parseAll?, String.toList_append]
  rfl

/-! ### What actions are written for -/

/-- An action is over placeholders of what an assignment is over. -/
inductive Writes (bound : Placeholders) : SetAction → Assignment → Prop
  | set {placeholders path : List String} {placeholder : String} {json : Json}
      (hpath : bound.NamesAll placeholders path) (hvalue : bound.StandsFor placeholder json) :
      Writes bound (.set placeholders placeholder) (.set path json)
  | adjust {placeholders path : List String} {placeholder : String} {delta : Json}
      (subtract : Bool) (hpath : bound.NamesAll placeholders path)
      (hvalue : bound.StandsFor placeholder delta) :
      Writes bound (.adjust placeholders subtract placeholder) (.adjust path subtract delta)

theorem Writes.extends {bound later : Placeholders} {action : SetAction} {assignment : Assignment}
    (hwrites : Writes bound action assignment) (hlater : bound.Extends later) :
    Writes later action assignment := by
  cases hwrites with
  | set hpath hvalue => exact .set (hpath.extends hlater) (hvalue.extends hlater)
  | adjust subtract hpath hvalue =>
      exact .adjust subtract (hpath.extends hlater) (hvalue.extends hlater)

theorem isPath_of_namesAll {bound : Placeholders} {placeholders path : List String}
    (hnames : bound.NamesAll placeholders path) (hne : path ≠ []) : IsPath placeholders := by
  refine ⟨?_, ((List.forall₂_and_left _ _).mp hnames).1⟩
  rintro rfl
  cases hnames
  exact hne rfl

theorem Writes.isWritten {bound : Placeholders} {action : SetAction} {assignment : Assignment}
    (hwrites : Writes bound action assignment) (hne : assignment.path ≠ []) :
    action.IsWritten := by
  cases hwrites with
  | set hpath hvalue => exact ⟨isPath_of_namesAll hpath hne, hvalue.1⟩
  | adjust subtract hpath hvalue => exact ⟨isPath_of_namesAll hpath hne, hvalue.1⟩

end SetAction

/-- Assignments to the same path of values that are equal to the stores. -/
inductive Assignment.Same : Assignment → Assignment → Prop
  | set (path : List String) {stored json : Json} (hvalue : (stored == json) = true) :
      Same (.set path stored) (.set path json)
  | adjust (path : List String) (subtract : Bool) {stored delta : Json}
      (hvalue : (stored == delta) = true) :
      Same (.adjust path subtract stored) (.adjust path subtract delta)

namespace SetAction

theorem mapM_names {bound : Placeholders} {placeholders path : List String}
    (hnames : bound.NamesAll placeholders path) :
    placeholders.mapM bound.names.get? = some path := by
  induction hnames with
  | nil => rfl
  | cons hname _ ih =>
      rw [List.mapM_cons, hname.2, ih]
      rfl

/-- An action is resolved to what it was written for. -/
theorem Writes.resolve {bound : Placeholders} {action : SetAction} {assignment : Assignment}
    (hwrites : Writes bound action assignment) :
    ∃ read, action.resolve bound = some read ∧ read.Same assignment := by
  cases hwrites with
  | @set _ path _ _ hpath hvalue =>
      obtain ⟨-, stored, hstored, hsame⟩ := hvalue
      refine ⟨.set path stored, ?_, .set path hsame⟩
      rw [SetAction.resolve, mapM_names hpath, hstored]
      rfl
  | @adjust _ path _ _ subtract hpath hvalue =>
      obtain ⟨-, stored, hstored, hsame⟩ := hvalue
      refine ⟨.adjust path subtract stored, ?_, .adjust path subtract hsame⟩
      rw [SetAction.resolve, mapM_names hpath, hstored]
      rfl

end SetAction

namespace Update

open SetAction (Writes)

/-! ### Binding an update -/

/-- A path is bound, and then a value. -/
theorem nameAll_value (bound : Placeholders) (path : List String) (hint : String) (json : Json) :
    let named := bound.nameAll path
    let valued := named.2.value hint json
    valued.2.NamesAll named.1 path ∧ valued.2.StandsFor valued.1 json ∧ bound.Extends valued.2 ∧
      bound.Within valued.2 named.1 [valued.1] := by
  intro named valued
  obtain ⟨hnames, hnamed⟩ := bound.nameAll_namesAll path
  obtain ⟨hstands, hkept⟩ := named.2.value_standsFor hint json
  have hwithin := (bound.nameAll_within path).trans (named.2.value_within hint json)
  rw [List.append_nil, List.nil_append] at hwithin
  exact ⟨hnames.extends hkept, hstands, hnamed.trans hkept, hwithin⟩

theorem bindAssignment_writes (bound : Placeholders) (assignment : Assignment) :
    ∃ action : SetAction, (bindAssignment bound assignment).1 = action.text ∧
      Writes (bindAssignment bound assignment).2 action assignment ∧
      bound.Extends (bindAssignment bound assignment).2 ∧
      bound.Within (bindAssignment bound assignment).2 action.path [action.value] := by
  cases assignment with
  | set path json =>
      obtain ⟨hnames, hstands, hkept, hwithin⟩ :=
        nameAll_value bound path (String.intercalate "_" path) json
      exact ⟨.set _ _, rfl, .set hnames hstands, hkept, hwithin⟩
  | adjust path subtract delta =>
      obtain ⟨hnames, hstands, hkept, hwithin⟩ := nameAll_value bound path "v" delta
      exact ⟨.adjust _ subtract _, rfl, .adjust subtract hnames hstands, hkept, hwithin⟩

theorem bindAssignments_writes (bound : Placeholders) (assignments : List Assignment) :
    ∃ actions : List SetAction,
      (bindAssignments bound assignments).1 = actions.map SetAction.text ∧
      List.Forall₂ (Writes (bindAssignments bound assignments).2) actions assignments ∧
      bound.Extends (bindAssignments bound assignments).2 ∧
      bound.Within (bindAssignments bound assignments).2 (actions.flatMap SetAction.path)
        (actions.map SetAction.value) := by
  induction assignments generalizing bound with
  | nil => exact ⟨[], rfl, .nil, .refl bound, .refl bound⟩
  | cons assignment rest ih =>
      obtain ⟨action, htext, hwrites, hkept, hwithin⟩ := bindAssignment_writes bound assignment
      obtain ⟨actions, htexts, hall, hlater, hwithins⟩ := ih (bindAssignment bound assignment).2
      refine ⟨action :: actions, ?_, .cons (hwrites.extends hlater) hall, hkept.trans hlater,
        hwithin.trans hwithins⟩
      rw [bindAssignments, List.map_cons, ← htext, ← htexts]

/-! ### The text of an update -/

/-- The text of an update says what it assigns, in order, and nothing is bound that the text does
not use. -/
structure TextAgrees (update : Update) : Prop where
  absent : update.expression.1 = none ↔ update.assignments = []
  read : ∃ actions, SetAction.parseAll? update.expression.1 = some actions ∧
    (∃ read, actions.mapM (SetAction.resolve update.expression.2) = some read ∧
      List.Forall₂ Assignment.Same read update.assignments) ∧
    (∀ member ∈ update.expression.2.names, ∃ action ∈ actions, member.1 ∈ action.path) ∧
    ∀ member ∈ update.expression.2.values, ∃ action ∈ actions, member.1 = action.value

theorem forall_isWritten {bound : Placeholders} {actions : List SetAction}
    {assignments : List Assignment} (hwrites : List.Forall₂ (Writes bound) actions assignments)
    (hpaths : ∀ assignment ∈ assignments, assignment.path ≠ []) :
    ∀ action ∈ actions, action.IsWritten := by
  induction hwrites with
  | nil => exact fun _ h => absurd h List.not_mem_nil
  | cons hfirst _ ih =>
      obtain ⟨hpath, hrest⟩ := List.forall_mem_cons.mp hpaths
      exact List.forall_mem_cons.mpr ⟨hfirst.isWritten hpath, ih hrest⟩

theorem textAgrees_of_paths {update : Update}
    (hpaths : ∀ assignment ∈ update.assignments, assignment.path ≠ []) : update.TextAgrees := by
  obtain ⟨actions, htexts, hwrites, -, hwithin⟩ :=
    bindAssignments_writes .empty update.assignments
  have hwritten := forall_isWritten hwrites hpaths
  have hexpression : update.expression.1 = if actions = [] then none
      else some ("set " ++ String.intercalate ", " (actions.map SetAction.text)) := by
    rw [expression]
    simp only [htexts, List.isEmpty_iff, List.map_eq_nil_iff]
  have hparse : SetAction.parseAll? update.expression.1 = some actions := by
    rw [hexpression]
    split
    next hnil => rw [hnil]; rfl
    next hne => exact SetAction.parseAll?_text hne hwritten
  have hnone : actions = [] ↔ update.assignments = [] := by
    rw [← List.length_eq_zero_iff, ← List.length_eq_zero_iff, hwrites.length_eq]
  have hread := exists_mapM_of_forall₂ (hwrites.imp fun _ _ hwrites => hwrites.resolve)
  refine ⟨?_, actions, hparse, hread, fun member hmem => ?_, fun member hmem => ?_⟩
  · rw [hexpression, ← hnone]
    split
    next hnil => exact iff_of_true rfl hnil
    next hne => exact iff_of_false (Option.some_ne_none _) hne
  · have hname := (hwithin.names member hmem).resolve_left List.not_mem_nil
    exact List.mem_flatMap.mp hname
  · have hvalue := (hwithin.values member hmem).resolve_left List.not_mem_nil
    obtain ⟨action, haction, heq⟩ := List.mem_map.mp hvalue
    exact ⟨action, haction, heq.symm⟩

/-- An update of a change-set, or one that adjusts the value at a path, has a text that says what
is assigned. -/
theorem texts_agree :
    (∀ (entity : Entity) (changes : Record) (table : String) (update : Update),
      Update.build entity changes table = .ok update → update.TextAgrees) ∧
    ∀ (table : String) (key : Record) (path : List String) (subtract : Bool) (delta : Json),
      path ≠ [] → (Update.adjust table key path subtract delta).TextAgrees := by
  constructor
  · intro entity changes table update hbuild
    apply textAgrees_of_paths
    intro assignment hassignment
    rw [build_eq] at hbuild
    cases hkey : entity.keyBy (fun value => !value.isBlank) changes with
    | error error =>
        rw [hkey] at hbuild
        cases hbuild
    | ok key =>
        rw [hkey] at hbuild
        obtain rfl := Except.ok.inj hbuild
        obtain ⟨member, -, rfl⟩ := List.mem_map.mp hassignment
        exact List.cons_ne_nil _ _
  · intro table key path subtract delta hne
    apply textAgrees_of_paths
    intro assignment hassignment
    obtain rfl := List.mem_singleton.mp hassignment
    exact hne

def cards : Entity :=
  ⟨⟨"cards", [("id", { type := .string, isHashKey := true })], by decide⟩, by decide⟩

/-- Fields that become one placeholder, two of them with the same value. -/
def cardChanges : Record :=
  [("a b", .nat 1), ("a-b", .nat 1), ("a_b", .nat 2), ("id", .string "x"), ("é", .nat 1)]

theorem cards_texts_agree :
    (∃ update, Update.build cards cardChanges "cards" = .ok update ∧
      update.expression.1 =
        some "set #a_b= :a_b, #a_b_1= :a_b, #a_b_2= :a_b_1, #_= :_" ∧ update.TextAgrees) ∧
    (Update.adjust "cards" [] ["a b", "a_b", "a b"] true (.nat 1)).expression.1 =
      some "set #a_b.#a_b_1.#a_b = #a_b.#a_b_1.#a_b - :v" ∧
    (Update.adjust "cards" [] ["a b", "a_b", "a b"] true (.nat 1)).TextAgrees := by
  obtain ⟨hbuilt, hadjusted⟩ := texts_agree
  exact ⟨⟨_, rfl, rfl, hbuilt cards cardChanges "cards" _ rfl⟩, rfl,
    hadjusted "cards" [] ["a b", "a_b", "a b"] true (.nat 1) (List.cons_ne_nil _ _)⟩

end Update

end KeyValue

end SchemaQuery
