import Nutcracker.Conf.Number
import Nutcracker.Proxy.Timers

/-!
# Timeouts

`core_timeout` goes through the timers from the earliest one on.  Requests that are done or in
error may still have one, which is deleted.  Any other timer that has expired closes the
connection it stands for, and with it all the requests there.
-/

namespace Nutcracker

open Proxy

/-! ## The earliest timer -/

/-- The earliest timer, and the first one that was inserted if there are several. -/
def tmoMin : List RbEntry → Option RbEntry
  | [] => none
  | e :: tree =>
    match tmoMin tree with
    | none => some e
    | some later => if later.key < e.key then some later else some e

theorem mem_of_tmoMin {tree : List RbEntry} {x : RbEntry} (least : tmoMin tree = some x) :
    x ∈ tree := by
  induction tree with
  | nil => cases least
  | cons e tree ih =>
    simp only [tmoMin] at least
    split at least
    · cases least
      exact List.mem_cons_self
    · rename_i later found
      split at least
      · exact List.mem_cons_of_mem _ (ih (found.trans least))
      · cases least
        exact List.mem_cons_self

theorem tmoMin_append {older newer : List RbEntry} {x : RbEntry}
    (smaller : ∀ y ∈ older, x.key < y.key) (least : ∀ y ∈ newer, x.key ≤ y.key) :
    tmoMin (older ++ x :: newer) = some x := by
  induction older with
  | nil =>
    simp only [List.nil_append, tmoMin]
    split
    · rfl
    · rename_i later found
      rw [if_neg (Int.not_lt.mpr (least later (mem_of_tmoMin found)))]
  | cons y older ih =>
    rw [List.cons_append, tmoMin, ih fun z inside => smaller z (List.mem_cons_of_mem _ inside)]
    exact if_pos (smaller y List.mem_cons_self)

/-- `rbtree_min` on the memory of the tree finds the earliest timer. -/
theorem min_eq_tmoMin {m : Rbtree} {up : NodePtr} {present : List RbEntry}
    {t : Lib.RedBlack.ColorTree RbEntry} {fuel : Nat} (queued : Queued m up present t)
    (enough : present.length < fuel) :
    RbM.min fuel m = some ((tmoMin present).map RbEntry.node, m) := by
  rw [queued.min_apply enough]
  congr 3
  cases head : t.inorder.head? with
  | none =>
    have perm := queued.perm
    rw [List.head?_eq_none_iff.mp head] at perm
    rw [List.nil_perm.mp perm]
    rfl
  | some x =>
    obtain ⟨older, newer, split, smaller, least⟩ := queued.head_eq head
    rw [split, tmoMin_append smaller least]

/-! ## One iteration -/

/-- What an iteration of `core_timeout` comes to. -/
inductive TimeoutStep where
  /-- There is no timer: it returns. -/
  | empty
  /-- The request is done or in error. -/
  | skip (m : Nat)
  /-- The connection is `NULL`. -/
  | null
  /-- The earliest timer has not expired: it returns. -/
  | wait (deadline : Int)
  /-- A connection is closed. -/
  | close (m s : Nat)
  deriving DecidableEq, Repr

namespace Timed

variable (hs : Handshake) (timeout : Nat → Int) (now : Int)

/-- The branches of the loop. -/
def timeoutStep (τ : Timed) : TimeoutStep :=
  match tmoMin τ.timers.tree with
  | none => .empty
  | some e =>
    -- msg_from_rbe
    let m := e.node - 1
    if (τ.proxy.msgs m).error || (τ.proxy.msgs m).done then .skip m
    else
      match τ.timers.data m with
      | none => .null
      | some s => if now < e.key then .wait e.key else .close m s

def acts (τ : Timed) (as : List Action) : Timed :=
  as.foldl (act hs timeout now) τ

/-- `server_close`. -/
def closeServer (s : Nat) (τ : Timed) : Timed :=
  τ.acts hs timeout now
    (List.replicate (τ.proxy.servers s).imsgq.length (.dropIn s) ++
      List.replicate (τ.proxy.servers s).omsgq.length (.dropOut s) ++ [.shut s])

def tmoDelete (m : Nat) (τ : Timed) : Timed :=
  { τ with timers := τ.timers.call timeout now (.delete m) }

/-- The body of the loop. -/
def timeoutBody (τ : Timed) : Timed :=
  match τ.timeoutStep now with
  | .skip m => τ.tmoDelete timeout now m
  | .close m s => (τ.tmoDelete timeout now m).closeServer hs timeout now s
  | _ => τ

/-- `core_timeout`, on a clock that is read in every iteration: the state it leaves and the
`ctx->timeout` it sets. -/
def coreTimeout (maxTimeout : Int) (clock : Nat → Int) : Nat → Nat → Timed → Option (Timed × Int)
  | 0, _, _ => none
  | fuel + 1, i, τ =>
    match τ.timeoutStep (clock i) with
    | .empty => some (τ, maxTimeout)
    | .null => none
    | .wait deadline => some (τ, min (cInt (deadline - clock i)) maxTimeout)
    | .skip _ | .close _ _ =>
      coreTimeout maxTimeout clock fuel (i + 1) (τ.timeoutBody hs timeout (clock i))

/-! ## Closing a connection -/

variable {hs timeout now} {τ : Timed}

theorem InOrder.acts (order : τ.InOrder) {as : List Action} (takes : Takes hs τ.proxy as) :
    (τ.acts hs timeout now as).InOrder := by
  induction as generalizing τ with
  | nil => exact order
  | cons a as ih => exact ih (order.act takes.1) takes.2

theorem InOrder.closeServer (order : τ.InOrder) (s : Nat) :
    (τ.closeServer hs timeout now s).InOrder :=
  order.acts (takes_closeServer τ.proxy s)

theorem tmoDelete_data (m x : Nat) :
    (τ.tmoDelete timeout now m).timers.data x = if x = m then none else τ.timers.data x := by
  refine (Timers.data_deletes timeout now τ.timers [m] x).trans ?_
  simp only [List.mem_singleton]

/-- A timer is deleted early. -/
theorem InOrder.tmoDelete (order : τ.InOrder) (m : Nat) : (τ.tmoDelete timeout now m).InOrder := by
  have kept : ∀ x s, (τ.tmoDelete timeout now m).timers.data x = some s →
      τ.timers.data x = some s := by
    intro x s timed
    rw [tmoDelete_data] at timed
    split at timed
    · cases timed
    · exact timed
  have well : (τ.timers.call timeout now (.delete m)).Well := order.well.delete m
  refine ⟨order.sound, well, ?_, fun x s timed => order.tended.live x s (kept x s timed), ?_⟩
  · exact fun x s timed => order.tended.pending x s (kept x s timed)
  · intro x held
    rw [tmoDelete_data, order.tended.held x held, ite_self]

/-! ## The branches -/

theorem node_ne_zero {ops : List QueueOp} {present : List RbEntry}
    (allowed : QueueOp.AllAllowed 0 ops present) (start : ∀ e ∈ present, e.node ≠ 0) :
    ∀ e ∈ QueueOp.applyAll ops present, e.node ≠ 0 := by
  induction ops generalizing present with
  | nil => exact start
  | cons op ops ih =>
    refine ih allowed.2 fun e inside => ?_
    cases op with
    | insert node key =>
      rcases List.mem_append.mp inside with old | new
      · exact start e old
      · rw [List.mem_singleton.mp new]
        exact allowed.1.1
    | delete node => exact start e (List.mem_filter.mp inside).1

/-- The earliest timer is that of a message. -/
theorem InOrder.min_spec (order : τ.InOrder) {e : RbEntry} (least : tmoMin τ.timers.tree = some e) :
    e ∈ τ.timers.tree ∧ e.node = e.node - 1 + 1 ∧ τ.timers.data (e.node - 1) ≠ none := by
  have inside : e ∈ τ.timers.tree := mem_of_tmoMin least
  have node := node_ne_zero order.well.allowed (by simp) e inside
  have same : e.node = e.node - 1 + 1 := by omega
  refine ⟨inside, same, (order.well.linked _).mp ?_⟩
  unfold Timers.InTree
  rw [← same]
  exact List.mem_map_of_mem inside

/-- A connection that is closed is open, and one of its requests has expired. -/
theorem InOrder.close_spec (order : τ.InOrder) {m s : Nat}
    (step : τ.timeoutStep now = .close m s) :
    (τ.proxy.servers s).isOpen = true ∧ m ∈ τ.proxy.queue s ∧
      ∃ e ∈ τ.timers.tree, e.node = m + 1 ∧ e.key ≤ now := by
  unfold timeoutStep at step
  split at step
  · cases step
  · rename_i e least
    obtain ⟨inside, node, -⟩ := order.min_spec least
    dsimp only at step
    split at step
    · cases step
    · rename_i pending
      obtain ⟨error, done⟩ := Bool.or_eq_false_iff.mp (Bool.not_eq_true _ ▸ pending)
      split at step
      · cases step
      · rename_i s' timed
        split at step
        · cases step
        · rename_i expired
          cases step
          obtain ⟨isOpen, queued⟩ := order.tended.pending _ s timed done error
          exact ⟨isOpen, queued, e, inside, node, Int.not_lt.mp expired⟩

/-! ## The loop ends -/

theorem length_tree_delete (t : Timers) (m : Nat) :
    (t.call timeout now (.delete m)).tree.length ≤ t.tree.length := by
  by_cases free : t.data m = none
  · simp [Timers.call, free]
  · rw [Timers.tree_delete m free]
    exact List.length_filter_le _ _

theorem length_tree_calls {calls : List TmoCall} (deletes : ∀ call ∈ calls, ∃ m, call = .delete m)
    (t : Timers) : (calls.foldl (Timers.call timeout now) t).tree.length ≤ t.tree.length := by
  induction calls generalizing t with
  | nil => exact Nat.le_refl _
  | cons call calls ih =>
    obtain ⟨m, rfl⟩ := deletes call List.mem_cons_self
    exact Nat.le_trans (ih (fun c inside => deletes c (List.mem_cons_of_mem _ inside)) _)
      (length_tree_delete t m)

/-- An action that inserts no timer. -/
def Deletes (hs : Handshake) (a : Action) : Prop :=
  ∀ σ : Proxy, ∀ call ∈ σ.tmoCalls hs a, ∃ m, call = .delete m

theorem length_tree_acts {as : List Action} (deletes : ∀ a ∈ as, Deletes hs a) (τ : Timed) :
    (τ.acts hs timeout now as).timers.tree.length ≤ τ.timers.tree.length := by
  induction as generalizing τ with
  | nil => exact Nat.le_refl _
  | cons a as ih =>
    refine Nat.le_trans (ih (fun b inside => deletes b (List.mem_cons_of_mem _ inside)) _) ?_
    exact length_tree_calls (deletes a List.mem_cons_self τ.proxy) τ.timers

theorem length_tree_closeServer (s : Nat) (τ : Timed) :
    (τ.closeServer hs timeout now s).timers.tree.length ≤ τ.timers.tree.length := by
  refine length_tree_acts (fun a inside σ call called => ?_) τ
  simp only [List.mem_append, List.mem_replicate, List.mem_singleton] at inside
  obtain (⟨-, rfl⟩ | ⟨-, rfl⟩) | rfl := inside
  · simp only [tmoCalls] at called
    split at called
    · cases called
    · split at called
      · exact ⟨_, List.mem_singleton.mp called⟩
      · cases called
  · simp only [tmoCalls] at called
    split at called
    · cases called
    · rcases List.mem_cons.mp called with rfl | called
      · exact ⟨_, rfl⟩
      · split at called
        · exact ⟨_, List.mem_singleton.mp called⟩
        · cases called
  · cases called

/-- Every iteration that does not return takes at least one timer out of the tree. -/
theorem InOrder.step_cases (order : τ.InOrder) (hs : Handshake) (timeout : Nat → Int) (now : Int) :
    τ.timeoutStep now = .empty ∨ (∃ deadline, τ.timeoutStep now = .wait deadline) ∨
      ((∃ m, τ.timeoutStep now = .skip m) ∨ ∃ m s, τ.timeoutStep now = .close m s) ∧
        (τ.timeoutBody hs timeout now).timers.tree.length < τ.timers.tree.length := by
  cases least : tmoMin τ.timers.tree with
  | none =>
    left
    simp only [timeoutStep, least]
  | some e =>
    right
    obtain ⟨inside, node, timed⟩ := order.min_spec least
    have shorter : (τ.tmoDelete timeout now (e.node - 1)).timers.tree.length <
        τ.timers.tree.length := by
      rw [Timed.tmoDelete, Timers.tree_delete _ timed, ← node]
      exact List.length_filter_lt_length_iff_exists.mpr ⟨e, inside, by simp⟩
    by_cases finished : ((τ.proxy.msgs (e.node - 1)).error ||
        (τ.proxy.msgs (e.node - 1)).done) = true
    · have step : τ.timeoutStep now = .skip (e.node - 1) := by
        simp only [timeoutStep, least, finished, if_true]
      refine Or.inr ⟨Or.inl ⟨_, step⟩, ?_⟩
      simp only [timeoutBody, step]
      exact shorter
    · obtain ⟨s, found⟩ := Option.ne_none_iff_exists'.mp timed
      by_cases early : now < e.key
      · left
        refine ⟨e.key, ?_⟩
        simp only [timeoutStep, least, finished, found, early, if_true]
        rfl
      · have step : τ.timeoutStep now = .close (e.node - 1) s := by
          simp only [timeoutStep, least, finished, found, early, if_false]
          rfl
        refine Or.inr ⟨Or.inr ⟨_, s, step⟩, ?_⟩
        simp only [timeoutBody, step]
        exact Nat.lt_of_le_of_lt (length_tree_closeServer s _) shorter

theorem InOrder.timeoutBody (order : τ.InOrder) : (τ.timeoutBody hs timeout now).InOrder := by
  unfold Timed.timeoutBody
  split
  · exact order.tmoDelete _
  · exact (order.tmoDelete _).closeServer _
  · exact order

theorem coreTimeout_returns (order : τ.InOrder) (maxTimeout : Int) (clock : Nat → Int) {fuel : Nat}
    (enough : τ.timers.tree.length < fuel) (i : Nat) :
    ∃ result, τ.coreTimeout hs timeout maxTimeout clock fuel i = some result := by
  induction fuel generalizing τ i with
  | zero => omega
  | succ fuel ih =>
    have again (shorter : (τ.timeoutBody hs timeout (clock i)).timers.tree.length <
        τ.timers.tree.length) := @ih (τ.timeoutBody hs timeout (clock i)) order.timeoutBody
      (by omega) (i + 1)
    unfold Timed.coreTimeout
    obtain step | ⟨deadline, step⟩ | ⟨⟨m, step⟩ | ⟨m, s, step⟩, shorter⟩ :=
      order.step_cases hs timeout (clock i)
    · rw [step]
      exact ⟨_, rfl⟩
    · rw [step]
      exact ⟨_, rfl⟩
    · rw [step]
      exact again shorter
    · rw [step]
      exact again shorter

end Timed

/-! ## Runs -/

/-- What happens at a time: an action of a handler, or an iteration of `core_timeout`. -/
inductive TimedEvent where
  | act (now : Int) (a : Action)
  | timeout (now : Int)
  deriving DecidableEq, Repr

namespace Timed

variable (hs : Handshake) (timeout : Nat → Int)

def step (τ : Timed) : TimedEvent → Timed
  | .act now a => τ.act hs timeout now a
  | .timeout now => τ.timeoutBody hs timeout now

def Accepts (τ : Timed) : TimedEvent → Prop
  | .act _ a => τ.proxy.Enabled a
  | .timeout _ => True

/-- A run of the proxy with timers. -/
def Runs (es : List TimedEvent) : Prop :=
  Lib.Along (step hs timeout) Accepts {} es

def run (es : List TimedEvent) : Timed :=
  es.foldl (step hs timeout) {}

/-- A message that was released: it is in no queue, and it is not about to be forwarded. -/
def Released (τ : Timed) (m : Nat) : Prop :=
  m < τ.proxy.fresh ∧ ¬ τ.proxy.Live m ∧ τ.proxy.current ≠ some m

/-- What the tree of timers is relied on for. -/
structure Consistent (τ : Timed) : Prop where
  linked : ∀ m, τ.timers.InTree m ↔ τ.timers.data m ≠ none
  pending : ∀ m, τ.timers.InTree m → (τ.proxy.msgs m).done = false →
    (τ.proxy.msgs m).error = false → ∃ s, τ.timers.data m = some s ∧
      (τ.proxy.servers s).isOpen = true ∧
      (m ∈ (τ.proxy.servers s).imsgq ∨ m ∈ (τ.proxy.servers s).omsgq)
  released : ∀ m, τ.Released m → ¬ τ.timers.InTree m
  /-- The code of the tree runs through, and `rbtree_min` finds the earliest timer. -/
  memory : ∀ heap fuel, τ.timers.ops.length < fuel → ∃ memory,
    QueueOp.run fuel τ.timers.ops (Rbtree.init heap 0) = some ((), memory) ∧
      Queued memory (QueueOp.linkOf τ.timers.ops) τ.timers.tree (QueueOp.treeOf τ.timers.ops) ∧
      RbM.min fuel memory = some ((tmoMin τ.timers.tree).map RbEntry.node, memory)
  /-- `core_timeout` closes open connections only, with a request whose deadline has passed. -/
  close : ∀ now m s, τ.timeoutStep now = .close m s →
    (τ.proxy.servers s).isOpen = true ∧
      (m ∈ (τ.proxy.servers s).imsgq ∨ m ∈ (τ.proxy.servers s).omsgq) ∧
      ∃ e ∈ τ.timers.tree, e.node = m + 1 ∧ e.key ≤ now
  /-- An iteration returns or takes a timer out of the tree. -/
  decreases : ∀ now, τ.timeoutStep now = .empty ∨ (∃ deadline, τ.timeoutStep now = .wait deadline) ∨
    (τ.timeoutBody hs timeout now).timers.tree.length < τ.timers.tree.length
  /-- `core_timeout` returns, on whatever clock. -/
  returns : ∀ maxTimeout clock, ∃ result,
    τ.coreTimeout hs timeout maxTimeout clock (τ.timers.tree.length + 1) 0 = some result

variable {hs timeout} {τ : Timed}

theorem InOrder.consistent (order : τ.InOrder) : τ.Consistent hs timeout := by
  have known : ∀ m, τ.timers.InTree m → ∃ s, τ.timers.data m = some s := fun m inside =>
    Option.ne_none_iff_exists'.mp ((order.well.linked m).mp inside)
  refine ⟨order.well.linked, fun m inside done error => ?_, fun m released inside => ?_,
    fun heap fuel enough => ?_, fun now m s step => ?_, fun now => ?_, fun maxTimeout clock => ?_⟩
  · obtain ⟨s, timed⟩ := known m inside
    obtain ⟨isOpen, queued⟩ := order.tended.pending m s timed done error
    exact ⟨s, timed, isOpen, List.mem_append.mp queued⟩
  · obtain ⟨s, timed⟩ := known m inside
    exact released.2.1 (order.tended.live m s timed)
  · obtain ⟨memory, code, queued, bound⟩ := (queued_init heap 0).run order.well.allowed
      (show _ < fuel by simpa using enough)
    refine ⟨memory, code, queued, min_eq_tmoMin queued ?_⟩
    simp only [List.length_nil, Nat.zero_add] at bound
    exact Nat.lt_of_le_of_lt bound enough
  · obtain ⟨isOpen, queued, expired⟩ := order.close_spec step
    exact ⟨isOpen, List.mem_append.mp queued, expired⟩
  · exact (order.step_cases hs timeout now).imp_right fun rest => rest.imp_right And.right
  · exact coreTimeout_returns order maxTimeout clock (Nat.lt_succ_self _) 0

/-- In every run the timers are consistent. -/
theorem timers_consistent (es : List TimedEvent) (runs : Runs hs timeout es) :
    (run hs timeout es).Consistent hs timeout := by
  have keep : ∀ (τ : Timed) e, τ.InOrder → τ.Accepts e → (τ.step hs timeout e).InOrder := by
    intro τ e order accepts
    cases e with
    | act now a => exact order.act accepts
    | timeout now => exact order.timeoutBody
  exact InOrder.consistent (Lib.Along.invariant keep runs inOrder_start)

/-- A request that times out: its connection stays open up to the deadline, and is closed then. -/
theorem timers_consistent_expired :
    let es : List TimedEvent :=
      [.act 0 (.accept 0), .act 0 (.enqueue 0 false), .act 0 (.connect 0 false),
        .act 7 (.forward 0),
        .act 9 (.connected 0), .act 9 (.sent 0), .timeout 406]
    let open_ := run ⟨false, false⟩ (fun _ => 400) es
    let closed := run ⟨false, false⟩ (fun _ => 400) (es ++ [.timeout 407])
    (open_.proxy.servers 0).omsgq = [0] ∧ (closed.proxy.servers 0).isOpen = false ∧
      closed.Consistent ⟨false, false⟩ (fun _ => 400) := by
  refine ⟨by decide +kernel, by decide +kernel, timers_consistent _ ?_⟩
  exact ⟨⟨rfl, rfl⟩, ⟨rfl, rfl, nofun⟩, rfl, ⟨rfl, nofun⟩, ⟨rfl, rfl⟩, ⟨nofun, rfl⟩, trivial,
    trivial, trivial⟩

end Timed

end Nutcracker
