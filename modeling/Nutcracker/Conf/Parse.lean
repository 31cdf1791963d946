import Mathlib.Data.List.TakeWhile
import Nutcracker.Conf.Structure

/-!
# Parsing a configuration

`conf_parse_core` reads the events of a configuration a second time.  It keeps the
scalars that enclose the current event on a stack, the name of the pool at the bottom,
and calls the handler of a directive when a value, or an element of a sequence, has been
pushed.  Memory is taken to be available.
-/

namespace Nutcracker

open Lib

/-! ## Strings -/

/-- A `struct string`: its length, and the bytes before the terminating zero of its data. -/
structure NcString where
  len : Nat
  data : Bytes
  deriving DecidableEq, Repr

namespace NcString

/-- The string that holds a text. -/
def ofText (text : Bytes) : NcString :=
  ⟨text.length, text⟩

/-- `string_copy`: its `strndup` ends at a zero byte, and a zero is written at `srclen`. -/
def copy (src : Bytes) (srclen : Nat) : NcString :=
  ⟨srclen, ((src.take ((srclen + 1) % 2 ^ 32)).takeWhile (· ≠ 0)).take srclen⟩

/-- The copy that `conf_push_scalar` makes, with the length of the scalar in 32 bits. -/
def ofScalar (text : Bytes) : NcString :=
  copy text (text.length % 2 ^ 32)

end NcString

/-! ## The parser -/

/-- A call of `conf_handler`: of `conf_pool_init`, or of the handler of a directive. -/
inductive ConfCall where
  | poolInit (pool : Option Nat) (name : NcString)
  | set (pool : Option Nat) (key value : NcString)
  deriving DecidableEq, Repr

inductive ConfError where
  /-- `conf_event_next` finds no event. -/
  | noEvent
  /-- A scalar of length zero. -/
  | scalar
  /-- A pop of the empty stack. -/
  | underflow
  /-- A handler returns an error. -/
  | handler
  | notReached
  deriving DecidableEq, Repr

/-- The fields of `struct conf` that the parser uses, the stack with its top first, and the pool
that is passed on as `data`; what has happened so far is kept beside them. -/
structure Conf where
  depth : Nat := 0
  seq : Bool := false
  arg : List NcString := []
  npool : Nat := 0
  data : Option Nat := none
  calls : List ConfCall := []
  /-- The stack at each event. -/
  trace : List (List NcString) := []
  deriving DecidableEq, Repr

/-- The local variables `done`, `leaf` and `new_pool`. -/
structure ConfFlags where
  done : Bool := false
  leaf : Bool := false
  newPool : Bool := false
  deriving DecidableEq, Repr

namespace Conf

variable (cf : Conf)

def pushScalar (text : Bytes) : Except ConfError Conf :=
  if text.length % 2 ^ 32 = 0 then .error .scalar
  else .ok { cf with arg := .ofScalar text :: cf.arg }

def popScalar : Except ConfError Conf :=
  match cf.arg with
  | [] => .error .underflow
  | _ :: arg => .ok { cf with arg }

/-- The switch of `conf_parse_core`. -/
def dispatch : NodeEvent Bytes → Except ConfError (Conf × ConfFlags)
  | .mappingEnd => do
    let cf := { cf with depth := cf.depth - 1 }
    if cf.depth = 1 then
      let cf ← cf.popScalar
      return (cf, {})
    else return (cf, { done := cf.depth = 0 })
  | .mappingStart => return ({ cf with depth := cf.depth + 1 }, {})
  | .sequenceStart => return ({ cf with seq := true }, {})
  | .sequenceEnd => do
    let cf ← cf.popScalar
    return ({ cf with seq := false }, {})
  | .scalar text => do
    let cf ← cf.pushScalar text
    if cf.seq then return (cf, { leaf := true })
    else if cf.depth = CONF_ROOT_DEPTH then
      return ({ cf with data := some cf.npool, npool := cf.npool + 1 }, { newPool := true })
    else return (cf, { leaf := cf.arg.length = cf.depth + 1 })
  | .streamStart | .streamEnd | .documentStart | .documentEnd => .error .notReached

/-- The call that `conf_handler` makes. -/
def call : ConfCall :=
  match cf.arg with
  | value :: key :: _ => .set cf.data key value
  | [name] => .poolInit cf.data name
  | [] => .poolInit cf.data ⟨0, []⟩

/-- `conf_handler`, and the pops after a leaf. -/
def handle (handler : ConfCall → Bool) (flags : ConfFlags) : Except ConfError Conf := do
  if flags.leaf || flags.newPool then
    let status := handler cf.call
    let cf := { cf with calls := cf.calls ++ [cf.call] }
    let cf ←
      if flags.leaf then do
        let cf ← cf.popScalar
        if cf.seq then pure cf else cf.popScalar
      else pure cf
    if status then return cf else throw .handler
  else return cf

end Conf

def confParseCore (handler : ConfCall → Bool) (cf : Conf) :
    List (NodeEvent Bytes) → Except ConfError (Conf × List (NodeEvent Bytes))
  | [] => .error .noEvent
  | event :: events => do
    let (cf, flags) ← cf.dispatch event
    let cf := { cf with trace := cf.trace ++ [cf.arg] }
    if flags.done then return (cf, events)
    else
      let cf ← cf.handle handler flags
      confParseCore handler cf events

def confBeginParse (cf : Conf) :
    List (NodeEvent Bytes) → Except ConfError (Conf × List (NodeEvent Bytes))
  | [] => .error .noEvent
  | .streamStart :: events | .documentStart :: events => confBeginParse cf events
  | .mappingStart :: events => .ok ({ cf with depth := cf.depth + 1 }, events)
  | _ :: _ => .error .notReached

def confEndParse (cf : Conf) : List (NodeEvent Bytes) → Except ConfError Conf
  | [] => .error .noEvent
  | .streamEnd :: _ => .ok cf
  | .documentEnd :: events => confEndParse cf events
  | _ :: _ => .error .notReached

/-- `conf_parse`. -/
def confParse (handler : ConfCall → Bool) (events : List (NodeEvent Bytes)) :
    Except ConfError Conf := do
  let (cf, events) ← confBeginParse {} events
  let (cf, events) ← confParseCore handler cf events
  confEndParse cf events

/-! ## What a configuration stands for -/

/-- The scalars of a directive. -/
def directiveScalars : Bytes × Setting → List Bytes
  | (key, .scalar value) => [key, value]
  | (key, .list elements) => key :: elements

namespace PoolText

def scalars (pool : PoolText) : List Bytes :=
  pool.name :: pool.directives.flatMap directiveScalars

end PoolText

/-- The path that encloses each event of a directive of a pool, innermost first. -/
def directivePaths (name : Bytes) : Bytes × Setting → List (List Bytes)
  | (key, .scalar value) => [[key, name], [value, key, name]]
  | (key, .list elements) =>
    [key, name] :: [key, name] :: (elements.map fun element => [element, key, name]) ++ [[name]]

def PoolText.paths (pool : PoolText) : List (List Bytes) :=
  [pool.name] :: [pool.name] :: pool.directives.flatMap (directivePaths pool.name) ++ [[]]

/-- The path at each event, up to the end of the root mapping. -/
def confPaths (pools : List PoolText) : List (List Bytes) :=
  pools.flatMap PoolText.paths ++ [[]]

/-- The pool that `data` points to after the pools, the first of which has the given number. -/
def confData : Option Nat → Nat → List PoolText → Option Nat
  | data, _, [] => data
  | _, index, _ :: pools => confData (some index) (index + 1) pools

section Meaning

variable (str : Bytes → NcString)

/-- The calls for a directive, with the strings that stand for the scalars: one for a scalar
value, one for each element of a sequence. -/
def directiveCalls (pool : Nat) : Bytes × Setting → List ConfCall
  | (key, .scalar value) => [.set (some pool) (str key) (str value)]
  | (key, .list elements) =>
    elements.map fun element => .set (some pool) (str key) (str element)

def PoolText.calls (index : Nat) (pool : PoolText) : List ConfCall :=
  .poolInit (some index) (str pool.name) :: pool.directives.flatMap (directiveCalls str index)

/-- The calls for the pools, the first of which has the given number. -/
def confCalls : Nat → List PoolText → List ConfCall
  | _, [] => []
  | index, pool :: pools => pool.calls str index ++ confCalls (index + 1) pools

end Meaning

/-! ## Reading a configuration -/

/-- A scalar that `conf_push_scalar` does not refuse. -/
def Pushable (text : Bytes) : Prop :=
  text.length % 2 ^ 32 ≠ 0

instance (text : Bytes) : Decidable (Pushable text) :=
  inferInstanceAs (Decidable (_ ≠ _))

namespace Conf

/-- Between two pools. -/
def atRoot (npool : Nat) (data : Option Nat) (calls : List ConfCall)
    (trace : List (List NcString)) : Conf :=
  { depth := 1, npool, data, calls, trace }

/-- In the pool with the given number and the given stack. -/
def atPool (pool : Nat) (seq : Bool) (arg : List NcString) (calls : List ConfCall)
    (trace : List (List NcString)) : Conf :=
  { depth := 2, seq, arg, npool := pool + 1, data := some pool, calls, trace }

end Conf

section Reading

variable {handler : ConfCall → Bool} {cf cf' cf'' : Conf} {event : NodeEvent Bytes}
  {events : List (NodeEvent Bytes)} {flags : ConfFlags} {text : Bytes}

theorem pushScalar_eq :
    cf.pushScalar text =
      if Pushable text then .ok { cf with arg := .ofScalar text :: cf.arg }
      else .error .scalar := by
  by_cases pushable : Pushable text
  · rw [if_pos pushable, Conf.pushScalar, if_neg pushable]
  · rw [if_neg pushable, Conf.pushScalar, if_pos (not_not.mp pushable)]

/-- An event that is not the last. -/
theorem confParseCore_cons (switch : cf.dispatch event = .ok (cf', flags))
    (goOn : flags.done = false)
    (handled : { cf' with trace := cf'.trace ++ [cf'.arg] }.handle handler flags = .ok cf'') :
    confParseCore handler cf (event :: events) = confParseCore handler cf'' events := by
  simp only [confParseCore, switch, goOn, bind, Except.bind, Bool.false_eq_true, if_false, handled]

/-- A scalar is refused, or pushed. -/
theorem confParseCore_scalar
    (switch : Pushable text → cf.dispatch (.scalar text) = .ok (cf', flags))
    (goOn : flags.done = false)
    (handled : { cf' with trace := cf'.trace ++ [cf'.arg] }.handle handler flags = .ok cf'') :
    confParseCore handler cf (.scalar text :: events) =
      if Pushable text then confParseCore handler cf'' events else .error .scalar := by
  by_cases pushable : Pushable text
  · rw [if_pos pushable, confParseCore_cons (switch pushable) goOn handled]
  · simp only [confParseCore, Conf.dispatch, pushScalar_eq, if_neg pushable, bind, Except.bind]

variable (succeeds : ∀ call, handler call = true) {pool : Nat} {calls : List ConfCall}
  {trace : List (List NcString)} {name key : NcString}

theorem confParseCore_key (text : Bytes) :
    confParseCore handler (.atPool pool false [name] calls trace) (.scalar text :: events) =
      if Pushable text then
        confParseCore handler
          (.atPool pool false [.ofScalar text, name] calls (trace ++ [[.ofScalar text, name]]))
          events
      else .error .scalar := by
  apply confParseCore_scalar
  · intro pushable
    simp only [Conf.dispatch, pushScalar_eq, if_pos pushable]
    rfl
  · rfl
  · rfl

theorem confParseCore_sequenceStart :
    confParseCore handler (.atPool pool false [key, name] calls trace)
        (.sequenceStart :: events) =
      confParseCore handler (.atPool pool true [key, name] calls (trace ++ [[key, name]]))
        events :=
  confParseCore_cons rfl rfl rfl

theorem confParseCore_sequenceEnd :
    confParseCore handler (.atPool pool true [key, name] calls trace) (.sequenceEnd :: events) =
      confParseCore handler (.atPool pool false [name] calls (trace ++ [[name]])) events :=
  confParseCore_cons rfl rfl rfl

theorem confParseCore_mappingStart {arg : List NcString} :
    confParseCore handler { Conf.atPool pool false arg calls trace with depth := 1 }
        (.mappingStart :: events) =
      confParseCore handler (.atPool pool false arg calls (trace ++ [arg])) events :=
  confParseCore_cons rfl rfl rfl

theorem confParseCore_mappingEnd :
    confParseCore handler (.atPool pool false [name] calls trace) (.mappingEnd :: events) =
      confParseCore handler (.atRoot (pool + 1) (some pool) calls (trace ++ [[]])) events :=
  confParseCore_cons rfl rfl rfl

section

include succeeds

theorem confParseCore_value (text : Bytes) :
    confParseCore handler (.atPool pool false [key, name] calls trace) (.scalar text :: events) =
      if Pushable text then
        confParseCore handler
          (.atPool pool false [name] (calls ++ [.set (some pool) key (.ofScalar text)])
            (trace ++ [[.ofScalar text, key, name]]))
          events
      else .error .scalar := by
  apply confParseCore_scalar
  · intro pushable
    simp only [Conf.dispatch, pushScalar_eq, if_pos pushable]
    rfl
  · rfl
  · simp only [Conf.handle, succeeds]
    rfl

theorem confParseCore_element (text : Bytes) :
    confParseCore handler (.atPool pool true [key, name] calls trace) (.scalar text :: events) =
      if Pushable text then
        confParseCore handler
          (.atPool pool true [key, name] (calls ++ [.set (some pool) key (.ofScalar text)])
            (trace ++ [[.ofScalar text, key, name]]))
          events
      else .error .scalar := by
  apply confParseCore_scalar
  · intro pushable
    simp only [Conf.dispatch, pushScalar_eq, if_pos pushable]
    rfl
  · rfl
  · simp only [Conf.handle, succeeds]
    rfl

theorem confParseCore_elements (elements : List Bytes) :
    confParseCore handler (.atPool pool true [key, name] calls trace)
        (elements.map .scalar ++ events) =
      if ∀ text ∈ elements, Pushable text then
        confParseCore handler
          (.atPool pool true [key, name]
            (calls ++ elements.map fun text => .set (some pool) key (.ofScalar text))
            (trace ++ elements.map fun text => [.ofScalar text, key, name]))
          events
      else .error .scalar := by
  induction elements generalizing calls trace with
  | nil => simp
  | cons text elements ih =>
    rw [List.map_cons, List.cons_append, confParseCore_element succeeds, ih]
    by_cases pushable : Pushable text
    · simp [pushable]
    · simp [pushable]

/-- A directive is read if its scalars are, with its calls and its paths. -/
theorem confParseCore_directive (name : Bytes) (directive : Bytes × Setting) :
    confParseCore handler (.atPool pool false [.ofScalar name] calls trace)
        (.scalar directive.1 :: (directive.2.node.events ++ events)) =
      if ∀ text ∈ directiveScalars directive, Pushable text then
        confParseCore handler
          (.atPool pool false [.ofScalar name]
            (calls ++ directiveCalls .ofScalar pool directive)
            (trace ++ (directivePaths name directive).map (·.map .ofScalar)))
          events
      else .error .scalar := by
  obtain ⟨key, value | elements⟩ := directive
  · rw [confParseCore_key, Setting.node, Node.events_scalar, List.singleton_append,
      confParseCore_value succeeds]
    by_cases first : Pushable key
    · simp [first, directiveScalars, directiveCalls, directivePaths]
    · simp [first, directiveScalars]
  · rw [confParseCore_key, Setting.node, Node.events_sequence, Node.eventsAll_scalars,
      List.cons_append, List.append_assoc, List.singleton_append, confParseCore_sequenceStart,
      confParseCore_elements succeeds, confParseCore_sequenceEnd]
    by_cases first : Pushable key
    · simp [first, directiveScalars, directiveCalls, directivePaths, Function.comp_def]
    · simp [first, directiveScalars]

theorem confParseCore_directives (name : Bytes) (directives : List (Bytes × Setting)) :
    confParseCore handler (.atPool pool false [.ofScalar name] calls trace)
        (Node.eventsAll (Node.entries (directives.map directivePair)) ++ events) =
      if ∀ text ∈ directives.flatMap directiveScalars, Pushable text then
        confParseCore handler
          (.atPool pool false [.ofScalar name]
            (calls ++ directives.flatMap (directiveCalls .ofScalar pool))
            (trace ++ (directives.flatMap (directivePaths name)).map (·.map .ofScalar)))
          events
      else .error .scalar := by
  induction directives generalizing calls trace with
  | nil => simp
  | cons directive directives ih =>
    rw [List.map_cons, Node.entries_cons, Node.eventsAll_cons, Node.eventsAll_cons, directivePair,
      Node.events_scalar, List.singleton_append, List.cons_append, List.append_assoc,
      confParseCore_directive succeeds, ih]
    simp only [← ite_and, List.flatMap_cons, List.forall_mem_append, List.append_assoc,
      List.map_append]

/-- The name of a pool makes a new one. -/
theorem confParseCore_name {data : Option Nat} (text : Bytes) :
    confParseCore handler (.atRoot pool data calls trace) (.scalar text :: events) =
      if Pushable text then
        confParseCore handler
          { Conf.atPool pool false [.ofScalar text]
              (calls ++ [.poolInit (some pool) (.ofScalar text)])
              (trace ++ [[.ofScalar text]]) with depth := 1 }
          events
      else .error .scalar := by
  apply confParseCore_scalar
  · intro pushable
    simp only [Conf.dispatch, pushScalar_eq, if_pos pushable]
    rfl
  · rfl
  · simp only [Conf.handle, succeeds]
    rfl

theorem confParseCore_pool {data : Option Nat} (text : PoolText) :
    confParseCore handler (.atRoot pool data calls trace)
        (text.pair.1.events ++ text.pair.2.events ++ events) =
      if ∀ scalar ∈ text.scalars, Pushable scalar then
        confParseCore handler
          (.atRoot (pool + 1) (some pool) (calls ++ text.calls .ofScalar pool)
            (trace ++ text.paths.map (·.map .ofScalar)))
          events
      else .error .scalar := by
  rw [PoolText.pair, Node.events_scalar, Node.events_mapping, List.singleton_append,
    List.cons_append, List.cons_append, List.append_assoc, List.singleton_append,
    confParseCore_name succeeds, confParseCore_mappingStart, confParseCore_directives succeeds,
    confParseCore_mappingEnd]
  simp only [← ite_and, PoolText.scalars, List.forall_mem_cons, PoolText.calls, PoolText.paths,
    List.append_assoc, List.cons_append, List.nil_append, List.map_append, List.map_cons,
    List.map_nil]

/-- The events of the pools, and the end of the root mapping. -/
theorem confParseCore_pools {data : Option Nat} (pools : List PoolText) :
    confParseCore handler (.atRoot pool data calls trace)
        (Node.eventsAll (Node.entries (pools.map PoolText.pair)) ++ .mappingEnd :: events) =
      if ∀ scalar ∈ pools.flatMap PoolText.scalars, Pushable scalar then
        .ok ({ depth := 0, npool := pool + pools.length
               data := confData data pool pools
               calls := calls ++ confCalls .ofScalar pool pools
               trace := trace ++ (confPaths pools).map (·.map .ofScalar) }, events)
      else .error .scalar := by
  induction pools generalizing pool data calls trace with
  | nil =>
    simp [confParseCore, Conf.dispatch, Conf.atRoot, confCalls, confData, confPaths, bind,
      Except.bind, pure, Except.pure]
  | cons text pools ih =>
    rw [List.map_cons, Node.entries_cons, Node.eventsAll_cons, Node.eventsAll_cons,
      ← List.append_assoc, List.append_assoc, confParseCore_pool succeeds, ih]
    simp only [← ite_and, List.flatMap_cons, List.forall_mem_append, List.append_assoc,
      confCalls, confData, confPaths, List.map_append, List.length_cons, Nat.add_assoc,
      Nat.add_comm 1]

end

/-- A configuration is parsed if no scalar of it is refused. -/
theorem confParse_confNode (succeeds : ∀ call, handler call = true) (pools : List PoolText) :
    confParse handler (confNode pools).stream =
      if ∀ scalar ∈ pools.flatMap PoolText.scalars, Pushable scalar then
        .ok { npool := pools.length, data := confData none 0 pools
              calls := confCalls .ofScalar 0 pools
              trace := (confPaths pools).map (·.map .ofScalar) }
      else .error .scalar := by
  have opening (events : List (NodeEvent Bytes)) :
      confBeginParse {} (.streamStart :: .documentStart :: .mappingStart :: events) =
        .ok (.atRoot 0 none [] [], events) := rfl
  rw [confParse, Node.stream, confNode, Node.events_mapping, List.cons_append, opening]
  simp only [bind, Except.bind, List.append_assoc, List.singleton_append,
    confParseCore_pools succeeds]
  by_cases all : ∀ scalar ∈ pools.flatMap PoolText.scalars, Pushable scalar
  · rw [if_pos all, if_pos all]
    simp only [confEndParse, Nat.zero_add, List.nil_append]
  · rw [if_neg all, if_neg all]

end Reading

/-! ## Scalars that are copied whole -/

/-- A scalar is copied whole if it is shorter than the largest word and has no zero byte. -/
theorem ofScalar_eq_ofText_iff {text : Bytes} :
    NcString.ofScalar text = .ofText text ↔ text.length < 2 ^ 32 - 1 ∧ 0 ∉ text := by
  simp only [NcString.ofScalar, NcString.copy, NcString.ofText, NcString.mk.injEq]
  constructor
  · rintro ⟨word, same⟩
    have lt : text.length < 2 ^ 32 := by omega
    refine ⟨?_, fun zero => ?_⟩
    · by_contra long
      have wraps : (text.length % 2 ^ 32 + 1) % 2 ^ 32 = 0 := by omega
      rw [wraps, List.take_zero, List.takeWhile_nil, List.take_nil] at same
      rw [← same] at long
      simp at long
    · rw [← same] at zero
      simpa using List.mem_takeWhile_imp (List.mem_of_mem_take zero)
  · rintro ⟨short, noZero⟩
    have word : text.length % 2 ^ 32 = text.length := Nat.mod_eq_of_lt (by omega)
    have room : text.length ≤ (text.length + 1) % 2 ^ 32 := by omega
    refine ⟨word, ?_⟩
    have whole : text.takeWhile (· ≠ 0) = text := by
      rw [List.takeWhile_eq_self_iff]
      intro c member
      simp only [ne_eq, decide_eq_true_eq]
      rintro rfl
      exact noZero member
    rw [word, List.take_of_length_le room, whole, List.take_length]

/-! ## The scalars on the stack -/

theorem mem_flatten_flatMap {α β : Type*} {f : α → List (List β)} {l : List α} {b : β} :
    b ∈ (l.flatMap f).flatten ↔ ∃ a ∈ l, b ∈ (f a).flatten := by
  simp only [List.mem_flatten, List.mem_flatMap]
  exact ⟨fun ⟨path, ⟨a, member, listed⟩, onPath⟩ => ⟨a, member, path, listed, onPath⟩,
    fun ⟨a, member, path, listed, onPath⟩ => ⟨path, ⟨a, member, listed⟩, onPath⟩⟩

theorem mem_flatten_directivePaths {name text : Bytes} {directive : Bytes × Setting} :
    text ∈ (directivePaths name directive).flatten ↔
      text = name ∨ text ∈ directiveScalars directive := by
  obtain ⟨key, value | elements⟩ := directive
  · simp only [directivePaths, directiveScalars, List.flatten_cons, List.flatten_nil,
      List.append_nil, List.mem_append, List.mem_cons, List.not_mem_nil, or_false]
    tauto
  · simp only [directivePaths, directiveScalars, List.cons_append, List.flatten_cons,
      List.flatten_append, List.flatten_nil, List.nil_append, List.append_nil, List.mem_cons,
      List.mem_append, List.mem_flatten, List.mem_map, List.not_mem_nil, or_false]
    constructor
    · rintro (rfl | rfl | rfl | rfl | ⟨_, ⟨element, listed, rfl⟩, onPath⟩ | rfl)
      · exact Or.inr (Or.inl rfl)
      · exact Or.inl rfl
      · exact Or.inr (Or.inl rfl)
      · exact Or.inl rfl
      · simp only [List.mem_cons, List.not_mem_nil, or_false] at onPath
        obtain rfl | rfl | rfl := onPath
        · exact Or.inr (Or.inr listed)
        · exact Or.inr (Or.inl rfl)
        · exact Or.inl rfl
      · exact Or.inl rfl
    · rintro (rfl | rfl | listed)
      · exact Or.inr (Or.inl rfl)
      · exact Or.inl rfl
      · exact Or.inr (Or.inr (Or.inr (Or.inr (Or.inl
          ⟨_, ⟨text, listed, rfl⟩, List.mem_cons_self⟩))))

theorem mem_flatten_paths {pool : PoolText} {text : Bytes} :
    text ∈ pool.paths.flatten ↔ text ∈ pool.scalars := by
  simp only [PoolText.paths, PoolText.scalars, List.cons_append, List.flatten_cons,
    List.flatten_append, List.flatten_nil, List.append_nil, List.mem_cons, List.nil_append,
    mem_flatten_flatMap, mem_flatten_directivePaths, List.mem_flatMap]
  constructor
  · rintro (rfl | rfl | ⟨directive, listed, rfl | scalar⟩)
    · exact Or.inl rfl
    · exact Or.inl rfl
    · exact Or.inl rfl
    · exact Or.inr ⟨directive, listed, scalar⟩
  · rintro (rfl | ⟨directive, listed, scalar⟩)
    · exact Or.inl rfl
    · exact Or.inr (Or.inr ⟨directive, listed, Or.inr scalar⟩)

/-- The scalars of a configuration are those that are on the path of some event. -/
theorem mem_flatten_confPaths {pools : List PoolText} {text : Bytes} :
    text ∈ (confPaths pools).flatten ↔ text ∈ pools.flatMap PoolText.scalars := by
  simp only [confPaths, List.flatten_append, List.flatten_cons, List.flatten_nil,
    List.append_nil, mem_flatten_flatMap, mem_flatten_paths, List.mem_flatMap]

/-! ## The scalars of a proper document -/

theorem properAll_scalars {allowed : Bytes → Prop} {texts : List Bytes} :
    Node.ProperAll allowed (texts.map .scalar) ↔ ∀ text ∈ texts, allowed text := by
  induction texts with
  | nil => simp [Node.ProperAll]
  | cons text texts ih => simp [Node.ProperAll, Node.Proper, ih]

theorem properAll_directives {allowed : Bytes → Prop} {directives : List (Bytes × Setting)}
    (proper : Node.ProperAll allowed (Node.entries (directives.map directivePair))) :
    ∀ text ∈ directives.flatMap directiveScalars, allowed text := by
  induction directives with
  | nil => simp
  | cons directive directives ih =>
    rw [List.map_cons, Node.entries_cons] at proper
    simp only [Node.ProperAll, directivePair, Node.Proper] at proper
    rw [List.flatMap_cons, List.forall_mem_append]
    refine ⟨?_, ih proper.2.2⟩
    obtain ⟨key, value | elements⟩ := directive
    · have value := proper.2.1
      rw [Setting.node, Node.Proper] at value
      simp [directiveScalars, proper.1, value]
    · have value := proper.2.1
      rw [Setting.node, Node.Proper, properAll_scalars] at value
      rw [directiveScalars, List.forall_mem_cons]
      exact ⟨proper.1, value⟩

theorem proper_confNode {allowed : Bytes → Prop} {pools : List PoolText}
    (proper : (confNode pools).Proper allowed) :
    ∀ text ∈ pools.flatMap PoolText.scalars, allowed text := by
  rw [confNode, Node.Proper] at proper
  replace proper := proper.2
  induction pools with
  | nil => simp
  | cons pool pools ih =>
    rw [List.map_cons, Node.entries_cons] at proper
    simp only [Node.ProperAll, PoolText.pair, Node.Proper] at proper
    rw [List.flatMap_cons, List.forall_mem_append, PoolText.scalars, List.forall_mem_cons]
    exact ⟨⟨proper.1, properAll_directives proper.2.1.2⟩, ih proper.2.2⟩

/-! ## The check protects the parser -/

/-- The parser reads the configuration to its end, with one pool for each key of the root mapping,
the calls of its directives in order and the enclosing path on the stack at each event. -/
def ParsesAs (handler : ConfCall → Bool) (pools : List PoolText) : Prop :=
  ∃ cf, confParse handler (confNode pools).stream = .ok cf ∧ cf.arg = [] ∧ cf.depth = 0 ∧
    cf.npool = pools.length ∧ cf.calls = confCalls .ofText 0 pools ∧
    cf.trace = (confPaths pools).map (·.map .ofText)

theorem directiveCalls_congr {str str' : Bytes → NcString} (pool : Nat)
    {directive : Bytes × Setting}
    (same : ∀ text ∈ directiveScalars directive, str text = str' text) :
    directiveCalls str pool directive = directiveCalls str' pool directive := by
  obtain ⟨key, value | elements⟩ := directive
  · rw [directiveScalars, List.forall_mem_cons, List.forall_mem_singleton] at same
    rw [directiveCalls, directiveCalls, same.1, same.2]
  · rw [directiveScalars, List.forall_mem_cons] at same
    rw [directiveCalls, directiveCalls, same.1]
    exact List.map_congr_left fun text member => by rw [same.2 text member]

theorem confCalls_congr {str str' : Bytes → NcString} {index : Nat} {pools : List PoolText}
    (same : ∀ text ∈ pools.flatMap PoolText.scalars, str text = str' text) :
    confCalls str index pools = confCalls str' index pools := by
  induction pools generalizing index with
  | nil => rfl
  | cons pool pools ih =>
    rw [List.flatMap_cons, List.forall_mem_append, PoolText.scalars, List.forall_mem_cons] at same
    rw [confCalls, confCalls, ih same.2, PoolText.calls, PoolText.calls, same.1.1]
    congr 2
    refine List.flatMap_congr fun directive member => ?_
    refine directiveCalls_congr index fun text scalar => ?_
    exact same.1.2 text (List.mem_flatMap.mpr ⟨directive, member, scalar⟩)

/-- The stack shows at every event which strings stand for the scalars. -/
theorem paths_congr_iff {str str' : Bytes → NcString} {pools : List PoolText} :
    (confPaths pools).map (·.map str) = (confPaths pools).map (·.map str') ↔
      ∀ text ∈ pools.flatMap PoolText.scalars, str text = str' text := by
  simp only [List.map_inj_left, ← mem_flatten_confPaths, List.mem_flatten]
  exact ⟨fun same text ⟨path, listed, onPath⟩ => same path listed text onPath,
    fun same path listed text onPath => same text ⟨path, listed, onPath⟩⟩

theorem parsesAs_iff {handler : ConfCall → Bool} (succeeds : ∀ call, handler call = true)
    {pools : List PoolText} (some_ : ∀ text ∈ pools.flatMap PoolText.scalars, text ≠ []) :
    ParsesAs handler pools ↔
      ∀ text ∈ pools.flatMap PoolText.scalars, text.length < 2 ^ 32 - 1 ∧ 0 ∉ text := by
  rw [ParsesAs, confParse_confNode succeeds]
  constructor
  · rintro ⟨cf, parsed, -, -, -, -, trace⟩ text scalar
    split at parsed
    · cases parsed
      exact ofScalar_eq_ofText_iff.mp (paths_congr_iff.mp trace text scalar)
    · cases parsed
  · intro whole
    have same (text : Bytes) (scalar : text ∈ pools.flatMap PoolText.scalars) :
        NcString.ofScalar text = .ofText text :=
      ofScalar_eq_ofText_iff.mpr (whole text scalar)
    rw [if_pos]
    · exact ⟨_, rfl, rfl, rfl, rfl, confCalls_congr same, paths_congr_iff.mpr same⟩
    · intro text scalar
      have pos := List.length_pos_iff.mpr (some_ text scalar)
      have short := (whole text scalar).1
      rw [Pushable]
      omega

/-- The check accepts exactly the mappings of pools with one sequence each, and the parser reads
such a configuration as it is written exactly if every scalar is copied whole. -/
theorem conf_structure_iff (fname : String) {handler : ConfCall → Bool}
    (succeeds : ∀ call, handler call = true) {root : Node Bytes} (proper : root.Proper (· ≠ [])) :
    (confValidateStructure fname root.stream = .ok () ↔
      ∃ pools : List PoolText, root = confNode pools ∧ ∀ p ∈ pools, p.lists = 1) ∧
    ∀ pools : List PoolText, root = confNode pools →
      (ParsesAs handler pools ↔
        ∀ text ∈ pools.flatMap PoolText.scalars, text.length < 2 ^ 32 - 1 ∧ 0 ∉ text) := by
  refine ⟨confValidateStructure_iff fname proper, ?_⟩
  rintro pools rfl
  exact parsesAs_iff succeeds (proper_confNode proper)

/-- The configuration `p: (l: ab, s: [x, y])`. -/
def samplePools : List PoolText :=
  [⟨[112], [([108], .scalar [97, 98]), ([115], .list [[120], [121]])]⟩]

theorem conf_structure_sample :
    confValidateStructure "c.yml" (confNode samplePools).stream = .ok () ∧
      ParsesAs (fun _ => true) samplePools := by
  have two : Even 2 := ⟨1, rfl⟩
  have four : Even 4 := ⟨2, rfl⟩
  have proper : (confNode samplePools).Proper (· ≠ []) := by
    simp [samplePools, confNode, PoolText.pair, directivePair, Setting.node, Node.Proper,
      Node.ProperAll, two, four]
  have settled := conf_structure_iff "c.yml" (fun _ => rfl : ∀ call, (fun _ => true) call = true)
    proper
  exact ⟨settled.1.mpr ⟨samplePools, rfl, by decide⟩,
    (settled.2 samplePools rfl).mpr (by decide)⟩

/-- A value with a zero byte in it, `a`, zero, `b`, is copied up to that byte only, under its full
length. -/
theorem conf_structure_zero_byte :
    confValidateStructure "c.yml"
        (confNode [⟨[112], [([108], .scalar [97, 0, 98]), ([115], .list [[120]])]⟩]).stream =
      .ok () ∧
    (confParse (fun _ => true)
        (confNode [⟨[112], [([108], .scalar [97, 0, 98]), ([115], .list [[120]])]⟩]).stream).map
      (·.calls) =
      .ok [.poolInit (some 0) ⟨1, [112]⟩, .set (some 0) ⟨1, [108]⟩ ⟨3, [97]⟩,
        .set (some 0) ⟨1, [115]⟩ ⟨1, [120]⟩] ∧
    ¬ ParsesAs (fun _ => true)
        [⟨[112], [([108], .scalar [97, 0, 98]), ([115], .list [[120]])]⟩] := by
  refine ⟨by decide, by decide, ?_⟩
  rw [parsesAs_iff (fun _ => rfl) (by decide)]
  decide

end Nutcracker
