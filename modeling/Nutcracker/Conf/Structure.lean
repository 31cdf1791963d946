import Nutcracker.Conf.Number
import Nutcracker.Lib.Nodes

/-!
# The structure check of a configuration

Before a configuration is parsed, `conf_validate_structure` reads it once and counts the
scalars at each depth.  What it lets through are the mappings of pool names to mappings
of directives, with exactly one directive in each pool whose value is a sequence.
-/

namespace Nutcracker

open Lib

/-! ## The check -/

def CONF_ROOT_DEPTH : Nat := 1

def CONF_MAX_DEPTH : Nat := CONF_ROOT_DEPTH + 1

/-- The local variables of `conf_validate_structure`. -/
structure StructureCheck where
  depth : Nat := 0
  count : List Nat := [0, 0, 0]
  seq : Bool := false
  deriving DecidableEq, Repr

namespace StructureCheck

variable (st : StructureCheck)

/-- `count[depth]`. -/
def scalars : Nat :=
  st.count.getD st.depth 0

def setScalars (n : Nat) : StructureCheck :=
  { st with count := st.count.set st.depth n }

/-- The switch of `conf_validate_structure`, with the message of its error. -/
def step (fname : String) : NodeEvent Bytes → Except String StructureCheck
  | .streamStart | .documentStart | .documentEnd | .streamEnd => .ok st
  | .mappingStart =>
    if st.depth = CONF_ROOT_DEPTH ∧ st.scalars ≠ 1 then
      .error ("conf: '" ++ fname ++ "' has more than one \"key:value\" at depth " ++
        toString st.depth)
    else if st.depth ≥ CONF_MAX_DEPTH then
      .error ("conf: '" ++ fname ++ "' has a depth greater than " ++ toString CONF_MAX_DEPTH)
    else .ok { st with depth := st.depth + 1 }
  | .mappingEnd =>
    if st.depth = CONF_MAX_DEPTH ∧ st.seq = false then
      .error ("conf: '" ++ fname ++ "' missing sequence directive at depth " ++ toString st.depth)
    else
      let st := if st.depth = CONF_MAX_DEPTH then { st with seq := false } else st
      let st := { st with depth := st.depth - 1 }
      .ok (st.setScalars 0)
  | .sequenceStart =>
    if st.seq then .error ("conf: '" ++ fname ++ "' has more than one sequence directive")
    else if st.depth ≠ CONF_MAX_DEPTH then
      .error ("conf: '" ++ fname ++ "' has sequence at depth " ++ toString st.depth ++
        " instead of " ++ toString CONF_MAX_DEPTH)
    else if st.scalars ≠ 1 then
      .error ("conf: '" ++ fname ++ "' has invalid \"key:value\" at depth " ++ toString st.depth)
    else .ok { st with seq := true }
  | .sequenceEnd => .ok (st.setScalars 0)
  | .scalar _ =>
    if st.depth = 0 then
      .error ("conf: '" ++ fname ++ "' has invalid empty \"key:\" at depth " ++ toString st.depth)
    else if st.depth = CONF_ROOT_DEPTH ∧ st.scalars ≠ 0 then
      .error ("conf: '" ++ fname ++ "' has invalid mapping \"key:\" at depth " ++
        toString st.depth)
    else
      -- a "key: value" has been found
      let st := if st.depth = CONF_MAX_DEPTH ∧ st.scalars = 2 then st.setScalars 0 else st
      .ok (st.setScalars (st.scalars + 1))

/-- The loop of `conf_validate_structure`; without a next event, `conf_event_next` fails. -/
def loop (fname : String) (st : StructureCheck) : List (NodeEvent Bytes) → Except String Unit
  | [] => .error "conf: failed to get next event"
  | event :: events =>
    match st.step fname event with
    | .error message => .error message
    | .ok st => if event = .streamEnd then .ok () else loop fname st events

end StructureCheck

def confValidateStructure (fname : String) (events : List (NodeEvent Bytes)) :
    Except String Unit :=
  StructureCheck.loop fname {} events

/-! ## Configurations -/

/-- The value of a directive. -/
inductive Setting where
  | scalar (value : Bytes)
  | list (elements : List Bytes)
  deriving DecidableEq, Repr

namespace Setting

def node : Setting → Node Bytes
  | .scalar value => .scalar value
  | .list elements => .sequence (elements.map .scalar)

def isList : Setting → Bool
  | .scalar _ => false
  | .list _ => true

/-- What the check has counted after the value of a directive. -/
def counted : Setting → Nat
  | .scalar _ => 2
  | .list _ => 0

end Setting

/-- A pool as it is written: its name, and its directives in order. -/
structure PoolText where
  name : Bytes
  directives : List (Bytes × Setting)
  deriving DecidableEq, Repr

/-- The key and value nodes of a directive. -/
def directivePair (directive : Bytes × Setting) : Node Bytes × Node Bytes :=
  (.scalar directive.1, directive.2.node)

namespace PoolText

def pair (pool : PoolText) : Node Bytes × Node Bytes :=
  (.scalar pool.name, .mapping (Node.entries (pool.directives.map directivePair)))

/-- How many directives of a pool are sequences. -/
def lists (pool : PoolText) : Nat :=
  pool.directives.countP (·.2.isList)

/-- What the check has counted after a pool. -/
def counted (c : Nat) (pool : PoolText) : Nat :=
  pool.directives.foldl (fun _ directive => directive.2.counted) c

end PoolText

/-- The document of a configuration. -/
def confNode (pools : List PoolText) : Node Bytes :=
  .mapping (Node.entries (pools.map PoolText.pair))

/-! ## Reading a part of a document -/

namespace StructureCheck

variable {fname : String} {st st' : StructureCheck}

/-- The events are read without an error, from one state to the other. -/
def Reads (fname : String) (st : StructureCheck) (events : List (NodeEvent Bytes))
    (st' : StructureCheck) : Prop :=
  events.foldlM (step · fname) st = .ok st'

theorem reads_nil : Reads fname st [] st' ↔ st' = st := by
  simp only [Reads, List.foldlM_nil]
  exact ⟨fun same => by cases same; rfl, fun same => by rw [same]; rfl⟩

theorem reads_cons {event : NodeEvent Bytes} {events : List (NodeEvent Bytes)} :
    Reads fname st (event :: events) st' ↔
      ∃ mid, st.step fname event = .ok mid ∧ Reads fname mid events st' := by
  simp only [Reads, List.foldlM_cons]
  cases st.step fname event with
  | error message => simp [bind, Except.bind]
  | ok mid => simp [bind, Except.bind]

theorem reads_append {events events' : List (NodeEvent Bytes)} :
    Reads fname st (events ++ events') st' ↔
      ∃ mid, Reads fname st events mid ∧ Reads fname mid events' st' := by
  induction events generalizing st with
  | nil => simp [reads_nil]
  | cons event events ih =>
    simp only [List.cons_append, reads_cons, ih]
    constructor
    · rintro ⟨next, step, mid, first, second⟩
      exact ⟨mid, ⟨next, step, first⟩, second⟩
    · rintro ⟨mid, ⟨next, step, first⟩, second⟩
      exact ⟨next, step, mid, first, second⟩

theorem reads_singleton {event : NodeEvent Bytes} :
    Reads fname st [event] st' ↔ st.step fname event = .ok st' := by
  simp [reads_cons, reads_nil]

/-- The loop accepts a stream if the events before its end are read. -/
theorem loop_append_streamEnd {events : List (NodeEvent Bytes)}
    (inner : .streamEnd ∉ events) :
    loop fname st (events ++ [.streamEnd]) = .ok () ↔ ∃ st', Reads fname st events st' := by
  induction events generalizing st with
  | nil => simp [loop, step, reads_nil]
  | cons event events ih =>
    rw [List.mem_cons, not_or] at inner
    rw [List.cons_append, loop]
    simp only [reads_cons]
    cases st.step fname event with
    | error message => simp
    | ok mid => simp [Ne.symm inner.1, ih inner.2]

/-! ## In a pool -/

/-- In a pool, with `c` scalars counted. -/
def inPool (c : Nat) (seq : Bool) : StructureCheck :=
  { depth := 2, count := [0, 1, c], seq }

/-- How a scalar in a pool is counted. -/
def bump (c : Nat) : Nat :=
  (if c = 2 then 0 else c) + 1

section Steps

variable {c : Nat} {seq : Bool}

@[simp]
theorem step_inPool_scalar (text : Bytes) :
    (inPool c seq).step fname (.scalar text) = .ok (inPool (bump c) seq) := by
  by_cases two : c = 2 <;>
    simp [step, inPool, scalars, setScalars, bump, CONF_MAX_DEPTH, CONF_ROOT_DEPTH, two]

theorem step_inPool_mappingStart (st' : StructureCheck) :
    (inPool c seq).step fname .mappingStart ≠ .ok st' := by
  simp [step, inPool, CONF_MAX_DEPTH, CONF_ROOT_DEPTH]

theorem step_inPool_sequenceStart (st' : StructureCheck) :
    (inPool c seq).step fname .sequenceStart = .ok st' ↔
      seq = false ∧ c = 1 ∧ st' = inPool 1 true := by
  by_cases one : c = 1 <;> cases seq <;>
    simp [step, inPool, scalars, CONF_MAX_DEPTH, CONF_ROOT_DEPTH, one, eq_comm]

/-- The elements of a sequence are scalars. -/
theorem reads_elements {items : List (Node Bytes)} :
    Reads fname (inPool c true) (Node.eventsAll items) st' ↔
      ∃ elements : List Bytes, items = elements.map .scalar ∧
        st' = inPool (bump^[elements.length] c) true := by
  induction items generalizing c with
  | nil =>
    simp only [Node.eventsAll_nil, reads_nil]
    constructor
    · rintro rfl
      exact ⟨[], rfl, rfl⟩
    · rintro ⟨elements, none, rfl⟩
      rw [List.map_eq_nil_iff.mp none.symm]
      rfl
  | cons item items ih =>
    rw [Node.eventsAll_cons, reads_append]
    cases item with
    | scalar text =>
      simp only [Node.events_scalar, reads_singleton, step_inPool_scalar, Except.ok.injEq,
        exists_eq_left', ih]
      constructor
      · rintro ⟨elements, rfl, rfl⟩
        exact ⟨text :: elements, rfl, rfl⟩
      · rintro ⟨_ | ⟨first, elements⟩, same, rfl⟩
        · cases same
        · cases same
          exact ⟨elements, rfl, rfl⟩
    | sequence inner =>
      simp only [Node.events_sequence, reads_cons, step_inPool_sequenceStart]
      constructor
      · rintro ⟨mid, ⟨next, ⟨impossible, -⟩, -⟩, -⟩
        cases impossible
      · rintro ⟨_ | ⟨first, elements⟩, same, -⟩ <;> cases same
    | mapping inner =>
      simp only [Node.events_mapping, reads_cons, step_inPool_mappingStart]
      constructor
      · rintro ⟨mid, ⟨next, ⟨⟩, -⟩, -⟩
      · rintro ⟨_ | ⟨first, elements⟩, same, -⟩ <;> cases same

/-- Where a key is read next. -/
def AtKey (c : Nat) : Prop :=
  bump c = 1

theorem atKey_zero : AtKey 0 :=
  rfl

theorem atKey_two : AtKey 2 :=
  rfl

theorem AtKey.ne_one (key : AtKey c) : c ≠ 1 := by
  rintro rfl
  cases key

/-- A key is a scalar. -/
theorem reads_key {node : Node Bytes} (key : AtKey c) :
    Reads fname (inPool c seq) node.events st' ↔
      ∃ text, node = .scalar text ∧ st' = inPool 1 seq := by
  cases node with
  | scalar text =>
    rw [Node.events_scalar, reads_singleton, step_inPool_scalar, show bump c = 1 from key]
    simp [eq_comm]
  | sequence items => simp [reads_cons, step_inPool_sequenceStart, key.ne_one]
  | mapping children => simp [reads_cons, step_inPool_mappingStart]

/-- A value is a scalar, or the one sequence of scalars. -/
theorem reads_value {node : Node Bytes} :
    Reads fname (inPool 1 seq) node.events st' ↔
      ∃ setting : Setting, node = setting.node ∧ seq.toNat + setting.isList.toNat ≤ 1 ∧
        st' = inPool setting.counted (seq || setting.isList) := by
  cases node with
  | scalar text =>
    rw [Node.events_scalar, reads_singleton, step_inPool_scalar]
    constructor
    · rintro ⟨⟩
      exact ⟨.scalar text, rfl, seq.toNat_le, by simp [bump, Setting.counted, Setting.isList]⟩
    · rintro ⟨_ | _, same, -, rfl⟩
      · simp [bump, Setting.counted, Setting.isList]
      · cases same
  | sequence items =>
    simp only [Node.events_sequence, reads_cons, step_inPool_sequenceStart, reads_append,
      reads_nil]
    constructor
    · rintro ⟨_, ⟨rfl, -, rfl⟩, _, elements, _, ⟨⟩, rfl⟩
      obtain ⟨texts, rfl, rfl⟩ := reads_elements.mp elements
      exact ⟨.list texts, rfl, Nat.le_refl 1, rfl⟩
    · rintro ⟨_ | elements, same, once, rfl⟩
      · cases same
      · cases same
        cases seq with
        | true => simp [Setting.isList] at once
        | false =>
          exact ⟨inPool 1 true, by simp, _, reads_elements.mpr ⟨elements, rfl, rfl⟩, _, rfl, rfl⟩
  | mapping children =>
    simp only [Node.events_mapping, reads_cons, step_inPool_mappingStart, false_and,
      exists_false, false_iff]
    rintro ⟨_ | _, same, -⟩ <;> cases same

theorem atKey_counted : ∀ setting : Setting, AtKey setting.counted
  | .scalar _ => atKey_two
  | .list _ => atKey_zero

theorem lists_cons_le_one (seq : Bool) (directive : Bytes × Setting)
    (directives : List (Bytes × Setting)) :
    seq.toNat + (directive :: directives).countP (·.2.isList) ≤ 1 ↔
      seq.toNat + directive.2.isList.toNat ≤ 1 ∧
        (seq || directive.2.isList).toNat + directives.countP (·.2.isList) ≤ 1 := by
  rw [List.countP_cons]
  generalize directives.countP (·.2.isList) = n
  cases seq <;> cases directive.2.isList <;> simp only [Bool.toNat_true,
    Bool.toNat_false, Bool.or_self, Bool.or_true, Bool.or_false, if_true, Bool.false_eq_true,
    if_false] <;> omega

/-- The directives of a pool. -/
theorem reads_directives {pairs : List (Node Bytes × Node Bytes)} (key : AtKey c) :
    Reads fname (inPool c seq) (Node.eventsAll (Node.entries pairs)) st' ↔
      ∃ directives : List (Bytes × Setting), pairs = directives.map directivePair ∧
        seq.toNat + directives.countP (·.2.isList) ≤ 1 ∧
        st' = inPool (directives.foldl (fun _ directive => directive.2.counted) c)
          (seq || directives.any (·.2.isList)) := by
  induction pairs generalizing c seq with
  | nil =>
    simp only [Node.entries_nil, Node.eventsAll_nil, reads_nil]
    constructor
    · rintro rfl
      exact ⟨[], rfl, seq.toNat_le, by simp⟩
    · rintro ⟨directives, none, -, rfl⟩
      rw [List.map_eq_nil_iff.mp none.symm]
      simp
  | cons pair pairs ih =>
    simp only [Node.entries_cons, Node.eventsAll_cons, reads_append, reads_key key]
    constructor
    · rintro ⟨_, ⟨text, first, rfl⟩, _, value, rest⟩
      obtain ⟨setting, second, once, rfl⟩ := reads_value.mp value
      obtain ⟨directives, rfl, few, rfl⟩ := (ih (atKey_counted setting)).mp rest
      refine ⟨(text, setting) :: directives, ?_, ?_, ?_⟩
      · rw [List.map_cons, directivePair, ← first, ← second]
      · exact (lists_cons_le_one seq (text, setting) directives).mpr ⟨once, few⟩
      · simp [Bool.or_assoc]
    · rintro ⟨_ | ⟨⟨text, setting⟩, directives⟩, same, few, rfl⟩
      · cases same
      · cases same
        obtain ⟨once, few⟩ := (lists_cons_le_one seq (text, setting) directives).mp few
        refine ⟨_, ⟨text, rfl, rfl⟩, _, reads_value.mpr ⟨setting, rfl, once, rfl⟩,
          (ih (atKey_counted setting)).mpr ⟨directives, rfl, few, ?_⟩⟩
        simp [Bool.or_assoc]

/-! ## In the root mapping -/

/-- In the root mapping, after `a` scalars of a pool, with `c` left of the pool before. -/
def inRoot (a c : Nat) : StructureCheck :=
  { depth := 1, count := [0, a, c], seq := false }

variable {a : Nat}

theorem step_inRoot_scalar (text : Bytes) :
    (inRoot a c).step fname (.scalar text) = .ok st' ↔ a = 0 ∧ st' = inRoot 1 c := by
  by_cases none : a = 0 <;>
    simp [step, inRoot, scalars, setScalars, CONF_MAX_DEPTH, CONF_ROOT_DEPTH, none, eq_comm]

theorem step_inRoot_sequenceStart : (inRoot a c).step fname .sequenceStart ≠ .ok st' := by
  simp [step, inRoot, CONF_MAX_DEPTH, CONF_ROOT_DEPTH]

theorem step_inRoot_mappingStart :
    (inRoot a c).step fname .mappingStart = .ok st' ↔ a = 1 ∧ st' = inPool c false := by
  by_cases one : a = 1 <;>
    simp [step, inRoot, inPool, scalars, CONF_MAX_DEPTH, CONF_ROOT_DEPTH, one, eq_comm]

theorem step_inPool_mappingEnd :
    (inPool c seq).step fname .mappingEnd = .ok st' ↔ seq = true ∧ st' = inRoot 0 c := by
  cases seq <;>
    simp [step, inRoot, inPool, setScalars, CONF_MAX_DEPTH, CONF_ROOT_DEPTH, eq_comm]

theorem AtKey.foldl_counted (key : AtKey c) (directives : List (Bytes × Setting)) :
    AtKey (directives.foldl (fun _ directive => directive.2.counted) c) := by
  induction directives generalizing c with
  | nil => exact key
  | cons directive directives ih => exact ih (atKey_counted directive.2)

/-- A pool is a scalar and a mapping with one sequence. -/
theorem reads_pool {allowed : Bytes → Prop} {pair : Node Bytes × Node Bytes} (key : AtKey c)
    (proper : pair.2.Proper allowed) :
    Reads fname (inRoot 0 c) (pair.1.events ++ pair.2.events) st' ↔
      ∃ pool : PoolText, pair = pool.pair ∧ pool.lists = 1 ∧ st' = inRoot 0 (pool.counted c) := by
  obtain ⟨name, value⟩ := pair
  cases name with
  | sequence items =>
    simp only [Node.events_sequence, List.cons_append, reads_cons, step_inRoot_sequenceStart,
      false_and, exists_false, false_iff]
    rintro ⟨pool, same, -⟩
    cases same
  | mapping children =>
    simp only [Node.events_mapping, List.cons_append, reads_cons, step_inRoot_mappingStart,
      zero_ne_one, false_and, exists_false, false_iff]
    rintro ⟨pool, same, -⟩
    cases same
  | scalar name =>
  simp only [Node.events_scalar, List.singleton_append, reads_cons, step_inRoot_scalar, true_and,
    exists_eq_left]
  cases value with
  | scalar text =>
    simp only [Node.events_scalar, reads_singleton, step_inRoot_scalar, one_ne_zero, false_and,
      false_iff]
    rintro ⟨pool, same, -⟩
    cases same
  | sequence items =>
    simp only [Node.events_sequence, reads_cons, step_inRoot_sequenceStart, false_and,
      exists_false, false_iff]
    rintro ⟨pool, same, -⟩
    cases same
  | mapping children =>
    simp only [Node.Proper] at proper
    obtain ⟨pairs, rfl⟩ := Node.exists_entries proper.1
    simp only [Node.events_mapping, reads_cons, step_inRoot_mappingStart, true_and,
      exists_eq_left, reads_append, reads_directives key, reads_nil]
    constructor
    · rintro ⟨_, ⟨directives, rfl, few, rfl⟩, _, ending, rfl⟩
      obtain ⟨listed, rfl⟩ := step_inPool_mappingEnd.mp ending
      refine ⟨⟨name, directives⟩, rfl, ?_, rfl⟩
      have some_ : 0 < directives.countP (·.2.isList) := by
        simpa [List.countP_pos_iff] using listed
      simp only [Bool.toNat_false, Nat.zero_add] at few
      exact Nat.le_antisymm few some_
    · rintro ⟨⟨_, directives⟩, same, once, rfl⟩
      simp only [PoolText.pair, Prod.mk.injEq, Node.mapping.injEq] at same
      cases Node.entries_injective same.2
      refine ⟨_, ⟨directives, rfl, ?_, rfl⟩, _, step_inPool_mappingEnd.mpr ⟨?_, rfl⟩, rfl⟩
      · exact Nat.le_of_eq ((Nat.zero_add _).trans once)
      · have some_ : 0 < directives.countP (·.2.isList) := Nat.lt_of_lt_of_eq Nat.one_pos once.symm
        simpa [List.countP_pos_iff] using some_

/-- The pools of the root mapping. -/
theorem reads_pools {allowed : Bytes → Prop} {pairs : List (Node Bytes × Node Bytes)}
    (key : AtKey c) (proper : Node.ProperAll allowed (Node.entries pairs)) :
    Reads fname (inRoot 0 c) (Node.eventsAll (Node.entries pairs)) st' ↔
      ∃ pools : List PoolText, pairs = pools.map PoolText.pair ∧ (∀ p ∈ pools, p.lists = 1) ∧
        st' = inRoot 0 (pools.foldl PoolText.counted c) := by
  induction pairs generalizing c with
  | nil =>
    simp only [Node.entries_nil, Node.eventsAll_nil, reads_nil]
    constructor
    · rintro rfl
      exact ⟨[], rfl, by simp, rfl⟩
    · rintro ⟨pools, none, -, rfl⟩
      rw [List.map_eq_nil_iff.mp none.symm]
      rfl
  | cons pair pairs ih =>
    simp only [Node.entries_cons, Node.ProperAll] at proper
    rw [Node.entries_cons, Node.eventsAll_cons, Node.eventsAll_cons, ← List.append_assoc,
      reads_append]
    simp only [reads_pool key proper.2.1]
    constructor
    · rintro ⟨_, ⟨pool, rfl, once, rfl⟩, rest⟩
      obtain ⟨pools, rfl, each, rfl⟩ :=
        (ih (key.foldl_counted pool.directives) proper.2.2).mp rest
      exact ⟨pool :: pools, rfl, List.forall_mem_cons.mpr ⟨once, each⟩, rfl⟩
    · rintro ⟨_ | ⟨pool, pools⟩, same, each, rfl⟩
      · cases same
      · rw [List.map_cons, List.cons.injEq] at same
        obtain ⟨once, each⟩ := List.forall_mem_cons.mp each
        exact ⟨_, ⟨pool, same.1, once, rfl⟩,
          (ih (key.foldl_counted pool.directives) proper.2.2).mpr ⟨pools, same.2, each, rfl⟩⟩

/-- The root is a mapping of pools. -/
theorem reads_root (fname : String) {allowed : Bytes → Prop} {root : Node Bytes}
    (proper : root.Proper allowed) :
    (∃ st', Reads fname {} root.events st') ↔
      ∃ pools : List PoolText, root = confNode pools ∧ ∀ p ∈ pools, p.lists = 1 := by
  cases root with
  | scalar text =>
    simp only [Node.events_scalar, reads_singleton, step, if_true, reduceCtorEq, exists_false,
      false_iff]
    rintro ⟨pools, same, -⟩
    cases same
  | sequence items =>
    simp only [Node.events_sequence, reads_cons]
    constructor
    · rintro ⟨_, _, impossible, -⟩
      cases impossible
    · rintro ⟨pools, same, -⟩
      cases same
  | mapping children =>
    simp only [Node.Proper] at proper
    obtain ⟨pairs, rfl⟩ := Node.exists_entries proper.1
    have opening : step {} fname .mappingStart = .ok (inRoot 0 0) := rfl
    simp only [Node.events_mapping, reads_cons, opening, Except.ok.injEq, exists_eq_left',
      reads_append, reads_pools atKey_zero proper.2, reads_nil]
    constructor
    · rintro ⟨_, _, ⟨pools, rfl, each, -⟩, -⟩
      exact ⟨pools, rfl, each⟩
    · rintro ⟨pools, same, each⟩
      simp only [confNode, Node.mapping.injEq] at same
      exact ⟨_, _, ⟨pools, Node.entries_injective same, each, rfl⟩, _, rfl, rfl⟩

end Steps

end StructureCheck

/-- What the check accepts, of the documents whose mappings have as many values as keys. -/
theorem confValidateStructure_iff (fname : String) {allowed : Bytes → Prop} {root : Node Bytes}
    (proper : root.Proper allowed) :
    confValidateStructure fname root.stream = .ok () ↔
      ∃ pools : List PoolText, root = confNode pools ∧ ∀ p ∈ pools, p.lists = 1 := by
  have split : root.stream =
      (.streamStart :: .documentStart :: (root.events ++ [.documentEnd])) ++ [.streamEnd] := by
    simp [Node.stream]
  have inner : .streamEnd ∉
      NodeEvent.streamStart :: .documentStart :: (root.events ++ [.documentEnd]) := by
    simp [root.streamEnd_notMem_events]
  rw [confValidateStructure, split, StructureCheck.loop_append_streamEnd inner,
    ← StructureCheck.reads_root fname proper]
  simp [StructureCheck.reads_cons, StructureCheck.reads_append, StructureCheck.step,
    StructureCheck.reads_nil]

end Nutcracker
