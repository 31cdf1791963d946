import Nutcracker.Proxy.Wakeup
import Nutcracker.Rbtree.Queue

/-!
# Timers

A request has a timer from the moment it is on a server connection.  The timers are the nodes of
a tree, each in its message, with the connection as its data.  They are deleted in different
places: when the server answers, when its connection is closed, and when the request is released.
-/

namespace Nutcracker

/-! ## The tree of timers -/

/-- A call of `msg_tmo_insert` or `msg_tmo_delete`. -/
inductive TmoCall where
  | insert (m s : Nat)
  | delete (m : Nat)
  deriving DecidableEq, Repr

/-- The `tmo_rbe.data` of the messages, and what was done with `tmo_rbt`.  The node of a message is
behind that of the message before it; the first one is `tmo_rbs`. -/
structure Timers where
  data : Nat → Option Nat := fun _ => none
  ops : List QueueOp := []

namespace Timers

/-- The nodes of the tree, in the order of their insertion. -/
def tree (t : Timers) : List RbEntry :=
  QueueOp.applyAll t.ops []

/-- The node of a message is in the tree. -/
def InTree (t : Timers) (m : Nat) : Prop :=
  m + 1 ∈ t.tree.map RbEntry.node

/-- `msg_tmo_insert` and `msg_tmo_delete`.  Without a timeout there are no timers. -/
def call (timeout : Nat → Int) (now : Int) (t : Timers) : TmoCall → Timers
  | .insert m s =>
    if timeout s ≤ 0 then t
    else
      { data := Function.update t.data m (some s)
        ops := t.ops ++ [.insert (m + 1) (now + timeout s)] }
  | .delete m =>
    if t.data m = none then t
    else { data := Function.update t.data m none, ops := t.ops ++ [.delete (m + 1)] }

end Timers

namespace Proxy

/-- The calls that an action makes, in the order of the source: `enqueue_inq` inserts a timer unless
the message is `noreply`, and `dequeue_outq` of a server and `req_put` delete it. -/
def tmoCalls (hs : Handshake) (σ : Proxy) : Action → List TmoCall
  | .forward s =>
    match σ.current with
    | none => []
    | some m =>
      (if hs.requireAuth && !(σ.servers s).authenticated then [.insert σ.fresh s] else []) ++
        if (σ.msgs m).noreply then [] else [.insert m s]
  | .refuse =>
    match σ.current with
    | none => []
    | some m => if (σ.msgs m).noreply then [.delete m] else []
  | .dropIn s =>
    match (σ.servers s).imsgq with
    | [] => []
    | m :: _ => if (σ.msgs m).swallow || (σ.msgs m).noreply then [.delete m] else []
  | .dropOut s =>
    match (σ.servers s).omsgq with
    | [] => []
    | m :: _ => .delete m :: if (σ.msgs m).swallow then [.delete m] else []
  | .connected s => if hs.selectDb then [.insert σ.fresh s] else []
  | .sent s =>
    match (σ.servers s).imsgq with
    | [] => []
    | m :: _ => if (σ.msgs m).noreply then [.delete m] else []
  | .reply s _ =>
    match (σ.servers s).omsgq, (σ.servers s).backend with
    | m :: _, _ :: _ => .delete m :: if (σ.msgs m).swallow then [.delete m] else []
    | _, _ => []
  | .shutClient c => ((σ.omsgq c).filter fun m => (σ.msgs m).done).map .delete
  | .offer c i =>
    match (σ.omsgq c).drop i with
    | [] => []
    | m :: after =>
      let before := ((σ.omsgq c).take i).reverse
      -- rsp_make_error releases the other fragments
      if (σ.markDone before m after).reqError before m after && (σ.msgs m).fragOwner.isSome then
        (σ.siblings m after).map .delete
      else []
  | .finish _ m => [.delete m]
  | _ => []

end Proxy

/-! ## The tree and the data of the nodes -/

namespace QueueOp

theorem applyAll_append (ops ops' : List QueueOp) (present : List RbEntry) :
    applyAll (ops ++ ops') present = applyAll ops' (applyAll ops present) := by
  induction ops generalizing present with
  | nil => rfl
  | cons op ops ih => exact ih (op.apply present)

theorem allAllowed_append {sentinel : Nat} {ops ops' : List QueueOp} {present : List RbEntry} :
    AllAllowed sentinel (ops ++ ops') present ↔
      AllAllowed sentinel ops present ∧ AllAllowed sentinel ops' (applyAll ops present) := by
  induction ops generalizing present with
  | nil => simp [AllAllowed, applyAll]
  | cons op ops ih =>
    simp only [List.cons_append, AllAllowed, applyAll, ih, and_assoc]

end QueueOp

namespace Timers

/-- The tree was used as it has to be, and it holds the nodes whose data is not `NULL`. -/
structure Well (t : Timers) : Prop where
  allowed : QueueOp.AllAllowed 0 t.ops []
  linked : ∀ m, t.InTree m ↔ t.data m ≠ none

theorem well_start : ({} : Timers).Well :=
  ⟨trivial, fun m => by simp [InTree, tree, QueueOp.applyAll]⟩

variable {timeout : Nat → Int} {now : Int} {t : Timers}

theorem tree_insert (m s : Nat) (limited : ¬ timeout s ≤ 0) :
    (t.call timeout now (.insert m s)).tree = t.tree ++ [⟨m + 1, now + timeout s⟩] := by
  simp only [call, if_neg limited, tree, QueueOp.applyAll_append]
  rfl

theorem tree_delete (m : Nat) (linked : t.data m ≠ none) :
    (t.call timeout now (.delete m)).tree = t.tree.filter fun x => x.node ≠ m + 1 := by
  simp only [call, if_neg linked, tree, QueueOp.applyAll_append]
  rfl

theorem Well.insert (well : t.Well) {m : Nat} (s : Nat) (free : t.data m = none) :
    (t.call timeout now (.insert m s)).Well := by
  by_cases limited : timeout s ≤ 0
  · simpa only [call, if_pos limited] using well
  · refine ⟨?_, fun x => ?_⟩
    · simp only [call, if_neg limited]
      refine QueueOp.allAllowed_append.mpr ⟨well.allowed, ⟨Nat.succ_ne_zero m, ?_⟩, trivial⟩
      exact fun inside => (well.linked m).mp inside free
    · have others := well.linked x
      unfold InTree at others ⊢
      rw [tree_insert m s limited]
      by_cases here : x = m
      · simp [call, limited, here]
      · simp only [call, limited, if_false, Function.update_of_ne here]
        simp [← others, here]

theorem Well.delete (well : t.Well) (m : Nat) : (t.call timeout now (.delete m)).Well := by
  by_cases free : t.data m = none
  · simpa only [call, if_pos free] using well
  · refine ⟨?_, fun x => ?_⟩
    · simp only [call, if_neg free]
      refine QueueOp.allAllowed_append.mpr ⟨well.allowed, ?_, trivial⟩
      exact (well.linked m).mpr free
    · have others := well.linked x
      unfold InTree at others ⊢
      rw [tree_delete m free]
      by_cases here : x = m
      · simp [call, free, here]
      · simp only [call, free, if_false, Function.update_of_ne here]
        rw [← others]
        simp only [List.mem_map, List.mem_filter, decide_not, Bool.not_eq_true',
          decide_eq_false_iff_not]
        refine ⟨fun ⟨a, ⟨inside, _⟩, node⟩ => ⟨a, inside, node⟩, fun ⟨a, inside, node⟩ => ?_⟩
        exact ⟨a, ⟨inside, by omega⟩, node⟩

/-- Timers are deleted one after the other. -/
theorem data_deletes (timeout : Nat → Int) (now : Int) (t : Timers) (ms : List Nat) (x : Nat) :
    ((ms.map TmoCall.delete).foldl (call timeout now) t).data x =
      if x ∈ ms then none else t.data x := by
  induction ms generalizing t with
  | nil => simp
  | cons m ms ih =>
    rw [List.map_cons, List.foldl_cons, ih]
    by_cases free : t.data m = none
    · by_cases here : x = m
      · simp [call, free, here]
      · simp [call, free, here]
    · by_cases here : x = m
      · simp [call, free, here]
      · simp [call, free, here]

theorem Well.deletes (well : t.Well) (ms : List Nat) :
    ((ms.map TmoCall.delete).foldl (call timeout now) t).Well := by
  induction ms generalizing t with
  | nil => exact well
  | cons m ms ih => exact ih (well.delete m)

theorem data_insert (timeout : Nat → Int) (now : Int) (t : Timers) (m s x : Nat) :
    (t.call timeout now (.insert m s)).data x = t.data x ∨
      (x = m ∧ (t.call timeout now (.insert m s)).data x = some s) := by
  by_cases limited : timeout s ≤ 0
  · simp [call, limited]
  · by_cases here : x = m
    · simp [call, limited, here]
    · simp [call, limited, here]

/-- Timers are inserted one after the other, all for one connection. -/
theorem data_inserts (timeout : Nat → Int) (now : Int) (t : Timers) (ms : List Nat) (s x : Nat) :
    ((ms.map fun m => TmoCall.insert m s).foldl (call timeout now) t).data x = t.data x ∨
      (x ∈ ms ∧ ((ms.map fun m => TmoCall.insert m s).foldl (call timeout now) t).data x =
        some s) := by
  induction ms generalizing t with
  | nil => exact Or.inl rfl
  | cons m ms ih =>
    rw [List.map_cons, List.foldl_cons]
    obtain same | ⟨inside, found⟩ := ih (t.call timeout now (.insert m s))
    · rw [same]
      obtain same | ⟨rfl, found⟩ := data_insert timeout now t m s x
      · exact Or.inl same
      · exact Or.inr ⟨List.mem_cons_self, found⟩
    · exact Or.inr ⟨List.mem_cons_of_mem _ inside, found⟩

theorem Well.inserts (well : t.Well) {ms : List Nat} (s : Nat) (distinct : ms.Nodup)
    (free : ∀ m ∈ ms, t.data m = none) :
    ((ms.map fun m => TmoCall.insert m s).foldl (call timeout now) t).Well := by
  induction ms generalizing t with
  | nil => exact well
  | cons m ms ih =>
    obtain ⟨absent, distinct⟩ := List.nodup_cons.mp distinct
    refine ih (well.insert s (free m List.mem_cons_self)) distinct fun x inside => ?_
    obtain same | ⟨rfl, -⟩ := data_insert timeout now t m s x
    · rw [same]
      exact free x (List.mem_cons_of_mem _ inside)
    · exact absurd inside absent

end Timers

/-! ## Timers and queues -/

namespace Proxy

variable {hs : Handshake} {σ σ' : Proxy}

/-- A message that is in a queue; the others are released, or about to be forwarded. -/
def Live (σ : Proxy) (m : Nat) : Prop :=
  (∃ c, m ∈ σ.omsgq c) ∨ ∃ s, m ∈ σ.queue s

/-- The timers fit the queues. -/
structure Tended (σ : Proxy) (data : Nat → Option Nat) : Prop where
  pending : ∀ m s, data m = some s → (σ.msgs m).done = false → (σ.msgs m).error = false →
    (σ.servers s).isOpen = true ∧ m ∈ σ.queue s
  live : ∀ m s, data m = some s → σ.Live m
  held : ∀ m, σ.current = some m → data m = none

theorem Live.lt (custody : σ.Custody) {m : Nat} (live : σ.Live m) : m < σ.fresh := by
  obtain ⟨c, inside⟩ | ⟨s, inside⟩ := live
  · exact custody.client_lt c m inside
  · exact custody.server_lt s m inside

/-- The messages are only marked further. -/
structure Marks (σ σ' : Proxy) : Prop where
  done : ∀ m < σ.fresh, (σ'.msgs m).done = false → (σ.msgs m).done = false
  error : ∀ m < σ.fresh, (σ'.msgs m).error = false → (σ.msgs m).error = false

theorem Custody.server_open (custody : σ.Custody) {s m : Nat} (inside : m ∈ σ.queue s) :
    (σ.servers s).isOpen = true := by
  by_contra closed
  rw [custody.server_closed s (by simpa using closed)] at inside
  cases inside

/-- A step that takes some messages out of the queues and carries the others along. -/
structure Carries (gone : Nat → Prop) (σ σ' : Proxy) : Prop where
  marks : Marks σ σ'
  queue : ∀ m s, m ∈ σ.queue s → ¬ gone m → (σ'.msgs m).done = false →
    (σ'.servers s).isOpen = true ∧ m ∈ σ'.queue s
  live : ∀ m, σ.Live m → ¬ gone m → σ'.Live m

/-- The timers of messages that stay. -/
theorem Tended.carry {gone : Nat → Prop} {data data' : Nat → Option Nat}
    (tended : σ.Tended data) (custody : σ.Custody) (carries : Carries gone σ σ')
    (current : ∀ m, σ'.current = some m → data' m = none)
    (kept : ∀ m s, data' m = some s →
      (data m = some s ∧ ¬ gone m) ∨ ((σ'.servers s).isOpen = true ∧ m ∈ σ'.queue s)) :
    σ'.Tended data' := by
  refine ⟨fun m s timed done error => ?_, fun m s timed => ?_, current⟩
  · obtain ⟨before, stays⟩ | added := kept m s timed
    · have lt := (tended.live m s before).lt custody
      have pending := tended.pending m s before (carries.marks.done m lt done)
        (carries.marks.error m lt error)
      exact carries.queue m s pending.2 stays done
    · exact added
  · obtain ⟨before, stays⟩ | added := kept m s timed
    · exact carries.live m (tended.live m s before) stays
    · exact Or.inr ⟨s, added.2⟩

/-- The timers of the messages that leave are deleted. -/
theorem Tended.deletes {timeout : Nat → Int} {now : Int} {t : Timers} {ms : List Nat}
    (tended : σ.Tended t.data) (custody : σ.Custody) (carries : Carries (· ∈ ms) σ σ')
    (current : ∀ m, σ'.current = some m → t.data m = none) :
    σ'.Tended ((ms.map TmoCall.delete).foldl (Timers.call timeout now) t).data := by
  refine tended.carry custody carries (fun m held => ?_) fun m s timed => ?_
  · rw [Timers.data_deletes, current m held, ite_self]
  · rw [Timers.data_deletes] at timed
    split at timed
    · cases timed
    · exact Or.inl ⟨timed, ‹_›⟩

/-! ## Marks -/

theorem Marks.of_msgs (msgs : ∀ m < σ.fresh, σ'.msgs m = σ.msgs m) : Marks σ σ' where
  done m lt done := by rwa [← msgs m lt]
  error m lt error := by rwa [← msgs m lt]

theorem Marks.of_fields (done : ∀ x, (σ'.msgs x).done = (σ.msgs x).done)
    (error : ∀ x, (σ'.msgs x).error = (σ.msgs x).error) : Marks σ σ' where
  done x _ marked := (done x).symm.trans marked
  error x _ marked := (error x).symm.trans marked

theorem Marks.refl (σ : Proxy) : Marks σ σ :=
  .of_msgs fun _ _ => rfl

theorem Marks.trans {σ'' : Proxy} (first : Marks σ σ') (second : Marks σ' σ'')
    (fresh : σ.fresh ≤ σ'.fresh) : Marks σ σ'' where
  done m lt done := first.done m lt (second.done m (Nat.lt_of_lt_of_le lt fresh) done)
  error m lt error := first.error m lt (second.error m (Nat.lt_of_lt_of_le lt fresh) error)

theorem Marks.alloc (σ : Proxy) (r : Req) : Marks σ (σ.alloc r) := by
  refine .of_msgs fun m lt => ?_
  rw [msgs_alloc, Function.update_of_ne (Nat.ne_of_lt lt)]

theorem Marks.modServer (σ : Proxy) (s : Nat) (h : ServerConn → ServerConn) :
    Marks σ (σ.modServer s h) :=
  .of_msgs fun _ _ => rfl

theorem Marks.modMsg (σ : Proxy) (m : Nat) {f : Req → Req}
    (done : ∀ r, (f r).done = false → r.done = false)
    (error : ∀ r, (f r).error = false → r.error = false) : Marks σ (σ.modMsg m f) := by
  refine ⟨fun x _ marked => ?_, fun x _ marked => ?_⟩
  · rw [msgs_modMsg, Function.update_apply] at marked
    split at marked
    · rename_i here
      rw [here]
      exact done _ marked
    · exact marked
  · rw [msgs_modMsg, Function.update_apply] at marked
    split at marked
    · rename_i here
      rw [here]
      exact error _ marked
    · exact marked

theorem Marks.complete (σ : Proxy) (m : Nat) {f : Req → Req}
    (done : ∀ r, (f r).done = false → r.done = false)
    (error : ∀ r, (f r).error = false → r.error = false) : Marks σ (σ.complete m f) := by
  have first : Marks σ (σ.modMsg m fun r => f { r with done := true }) := by
    refine Marks.modMsg σ m (fun r marked => ?_) fun r marked =>
      error { r with done := true } marked
    cases done { r with done := true } marked
  unfold Proxy.complete
  dsimp only
  split
  · rename_i o _
    exact first.trans (Marks.modMsg _ o (fun _ => id) fun _ => id) (Nat.le_refl _)
  · exact first

theorem Marks.wakeOwner (σ : Proxy) (m : Nat) : Marks σ (σ.wakeOwner m) := by
  refine .of_fields (fun x => ?_) fun x => ?_
  · exact field_wakeOwner (·.done) (fun _ => rfl) m x
  · exact field_wakeOwner (·.error) (fun _ => rfl) m x

theorem Marks.drop (σ : Proxy) (m : Nat) (silent : Bool) : Marks σ (σ.drop m silent) := by
  unfold Proxy.drop
  split
  · exact Marks.refl σ
  · refine Marks.trans ?_ (Marks.wakeOwner _ m) (Nat.le_of_eq (complete_rest σ m _).1.symm)
    exact Marks.complete σ m (fun _ => id) nofun

theorem Marks.linked (σ : Proxy) (m b : Nat) (bad : Bool) : Marks σ (σ.linked m b bad) := by
  unfold Proxy.linked
  split
  · refine Marks.modMsg σ m (fun _ marked => ?_) fun _ => id
    cases marked
  · refine Marks.trans ?_ (Marks.wakeOwner _ m) (Nat.le_of_eq (complete_rest σ m _).1.symm)
    exact Marks.complete σ m (fun _ => id) fun r clear => (Bool.or_eq_false_iff.mp clear).1

theorem Marks.refuse (σ : Proxy) (m : Nat) : Marks σ (σ.refuse m) := by
  have marked : Marks σ (σ.modMsg m fun r => { r with done := true, error := true }) :=
    Marks.modMsg σ m nofun nofun
  have first : Marks σ (σ.markRefused m) := ⟨marked.done, marked.error⟩
  unfold Proxy.refuse
  split
  · exact first
  · exact first.trans (Marks.wakeOwner _ m) (Nat.le_refl _)

theorem Marks.markDone (σ : Proxy) (before : List Nat) (m : Nat) (after : List Nat) :
    Marks σ (σ.markDone before m after) := by
  refine .of_fields (fun x => ?_) fun x => ?_
  · exact field_markDone (·.done) (fun _ => rfl) before m after x
  · exact field_markDone (·.error) (fun _ => rfl) before m after x

theorem Marks.forward (σ : Proxy) (s m : Nat) : Marks σ (σ.forward hs s m) := by
  unfold Proxy.forward Proxy.addAuth
  split
  · exact .of_msgs fun x lt => Function.update_of_ne (Nat.ne_of_lt lt) _ _
  · exact .of_msgs fun _ _ => rfl

theorem Marks.makeError (σ : Proxy) (before : List Nat) (m : Nat) (after : List Nat) :
    Marks σ (σ.makeError before m after) := by
  have neutral := Neutral.makeError σ before m after
  refine .of_fields neutral.done fun x => ?_
  exact (field_modMsg (·.error) rfl x).trans
    (field_markError (·.error) (fun _ => rfl) before m after x)

/-! ## What the actions carry along -/

/-- Only the queues of clients change. -/
theorem Carries.of_clients {gone : Nat → Prop} (custody : σ.Custody)
    (servers : σ'.servers = σ.servers)
    (marks : Marks σ σ')
    (omsgq : ∀ c m, m ∈ σ.omsgq c → ¬ gone m → m ∈ σ'.omsgq c ∨ ∃ s, m ∈ σ.queue s) :
    Carries gone σ σ' := by
  have queue : ∀ s, σ'.queue s = σ.queue s := by
    intro s
    unfold Proxy.queue
    rw [servers]
  refine ⟨marks, fun m s inside _ _ => ?_, fun m live stays => ?_⟩
  · rw [servers, queue]
    exact ⟨custody.server_open inside, inside⟩
  · obtain ⟨c, inside⟩ | ⟨s, inside⟩ := live
    · obtain inside' | ⟨s, inside'⟩ := omsgq c m inside stays
      · exact Or.inl ⟨c, inside'⟩
      · exact Or.inr ⟨s, (queue s).symm ▸ inside'⟩
    · exact Or.inr ⟨s, (queue s).symm ▸ inside⟩

/-- Only one server connection changes. -/
theorem Carries.of_server {gone : Nat → Prop} (custody : σ.Custody) (s : Nat) (conn : ServerConn)
    (servers : σ'.servers = Function.update σ.servers s conn)
    (omsgq : ∀ c, σ'.omsgq c = σ.omsgq c)
    (marks : Marks σ σ')
    (queue : ∀ m ∈ σ.queue s, ¬ gone m →
      (conn.isOpen = true ∧ m ∈ conn.imsgq ++ conn.omsgq) ∨
        ((σ'.msgs m).done = true ∧ ∃ c, m ∈ σ.omsgq c)) :
    Carries gone σ σ' := by
  have other : ∀ s', s' ≠ s → σ'.servers s' = σ.servers s' := fun s' ne => by
    rw [servers, Function.update_of_ne ne]
  have here : σ'.servers s = conn := by
    rw [servers, Function.update_self]
  refine ⟨marks, fun m s' inside stays pending => ?_, fun m live stays => ?_⟩
  · by_cases same : s' = s
    · subst same
      obtain present | ⟨done, -⟩ := queue m inside stays
      · unfold Proxy.queue
        rwa [here]
      · rw [done] at pending
        cases pending
    · unfold Proxy.queue
      rw [other s' same]
      exact ⟨custody.server_open inside, inside⟩
  · obtain ⟨c, inside⟩ | ⟨s', inside⟩ := live
    · exact Or.inl ⟨c, (omsgq c).symm ▸ inside⟩
    · by_cases same : s' = s
      · subst same
        obtain ⟨-, present⟩ | ⟨-, c, listed⟩ := queue m inside stays
        · refine Or.inr ⟨s', ?_⟩
          unfold Proxy.queue
          rwa [here]
        · exact Or.inl ⟨c, (omsgq c).symm ▸ listed⟩
      · refine Or.inr ⟨s', ?_⟩
        unfold Proxy.queue
        rwa [other s' same]

theorem mem_omsgq_offer {c i : Nat} {m : Nat} {after : List Nat}
    (found : (σ.omsgq c).drop i = m :: after) {gone : Nat → Prop}
    (siblings : (σ.markDone ((σ.omsgq c).take i).reverse m after).reqError
        ((σ.omsgq c).take i).reverse m after = true → (σ.msgs m).fragOwner.isSome = true →
      ∀ x ∈ σ.siblings m after, gone x)
    {c' x : Nat} (inside : x ∈ σ.omsgq c') (stays : ¬ gone x) : x ∈ (σ.offer c i).omsgq c' := by
  have whole : σ.omsgq c = (σ.omsgq c).take i ++ m :: after := by
    rw [← found, List.take_append_drop]
  have marked := (Alike.markDone σ ((σ.omsgq c).take i).reverse m after).omsgq c'
  have told := (Neutral.makeError (σ.markDone ((σ.omsgq c).take i).reverse m after)
    ((σ.omsgq c).take i).reverse m after).omsgq c'
  unfold Proxy.offer Proxy.offered
  simp only [found]
  split
  · rename_i failed
    split
    · rename_i o member
      rw [omsgq_modClient]
      split
      · rename_i here
        subst here
        rw [whole] at inside
        have out : x ∉ σ.siblings m after := fun sibling =>
          stays (siblings failed (by rw [member]; rfl) x sibling)
        have rest : σ.siblings m after ++ after.drop (σ.siblings m after).length = after :=
          List.prefix_iff_eq_append.mp (List.takeWhile_prefix _)
        rw [← rest] at inside
        simp only [List.mem_append, List.mem_cons] at inside ⊢
        tauto
      · rw [told, marked]
        exact inside
    · rw [told, marked]
      exact inside
  · rw [marked]
    exact inside

theorem done_drop (σ : Proxy) (m : Nat) : ((σ.drop m false).msgs m).done = true := by
  have told : ((σ.complete m fun r => { r with error := true }).msgs m).done = true := by
    have marked := complete_msgs σ m (f := fun r => { r with error := true })
      (fun _ => ⟨rfl, rfl, rfl, rfl⟩) m
    rw [marked.2.2.2]
    simp
  rw [← told]
  exact (Alike.wakeOwner m).done m

/-- A new message in the queue of a client. -/
theorem Carries.join {gone : Nat → Prop} (custody : σ.Custody) {c : Nat} {r : Req}
    (servers : σ'.servers = σ.servers) (msgs : σ'.msgs = (σ.join c r).msgs)
    (omsgq : ∀ c', σ'.omsgq c' = (σ.join c r).omsgq c') : Carries gone σ σ' := by
  refine Carries.of_clients custody servers (.of_msgs fun m lt => ?_) fun c' m inside _ => ?_
  · rw [msgs, msgs_join, Function.update_of_ne (Nat.ne_of_lt lt)]
  · left
    rw [omsgq, omsgq_join]
    split
    · rename_i here
      rw [here] at inside
      exact List.mem_append_left _ inside
    · exact inside

/-- The other messages of a server connection stay when the first one leaves `omsg_q`. -/
theorem mem_tail_omsgq (custody : σ.Custody) {s m : Nat} {ms : List Nat}
    (queued : (σ.servers s).omsgq = m :: ms) {x : Nat} (inside : x ∈ σ.queue s) (other : x ≠ m) :
    (σ.servers s).isOpen = true ∧ x ∈ (σ.servers s).imsgq ++ ms := by
  refine ⟨custody.server_open inside, ?_⟩
  unfold Proxy.queue at inside
  rw [queued] at inside
  simp only [List.mem_append, List.mem_cons] at inside ⊢
  tauto

theorem omsgq_linked (m b : Nat) (bad : Bool) (c : Nat) :
    (σ.linked m b bad).omsgq c = σ.omsgq c := by
  unfold Proxy.linked
  split
  · rfl
  · rw [(Alike.wakeOwner m).omsgq]
    unfold Proxy.omsgq
    rw [(complete_rest σ m _).2.1]

theorem Marks.offer (σ : Proxy) (c i : Nat) : Marks σ (σ.offer c i) := by
  unfold Proxy.offer
  split
  · exact Marks.refl σ
  · rename_i m after _
    have done := Marks.markDone σ ((σ.omsgq c).take i).reverse m after
    have fresh : σ.fresh ≤ (σ.markDone ((σ.omsgq c).take i).reverse m after).fresh :=
      Nat.le_of_eq (Alike.markDone σ ((σ.omsgq c).take i).reverse m after).fresh.symm
    have told := done.trans (Marks.makeError _ ((σ.omsgq c).take i).reverse m after) fresh
    unfold Proxy.offered
    dsimp only
    split
    · split
      · exact ⟨told.done, told.error⟩
      · exact told
    · exact done

end Proxy

/-! ## The proxy and its timers -/

structure Timed where
  proxy : Proxy := {}
  timers : Timers := {}

namespace Timed

/-- An action at a time. -/
def act (hs : Handshake) (timeout : Nat → Int) (now : Int) (τ : Timed) (a : Action) : Timed where
  proxy := τ.proxy.act hs a
  timers := (τ.proxy.tmoCalls hs a).foldl (Timers.call timeout now) τ.timers

structure InOrder (τ : Timed) : Prop where
  sound : τ.proxy.Sound
  well : τ.timers.Well
  tended : τ.proxy.Tended τ.timers.data

theorem inOrder_start : ({} : Timed).InOrder where
  sound := Proxy.sound_start
  well := Timers.well_start
  tended := ⟨nofun, nofun, nofun⟩

open Proxy

variable {hs : Handshake} {timeout : Nat → Int} {now : Int} {τ : Timed}

theorem InOrder.free (order : τ.InOrder) {m : Nat} (new : τ.proxy.fresh ≤ m) :
    τ.timers.data m = none := by
  cases timed : τ.timers.data m with
  | none => rfl
  | some s =>
    have lt := (order.tended.live m s timed).lt order.sound.custody
    omega

/-- An action that only deletes timers. -/
theorem InOrder.deletes (order : τ.InOrder) {a : Action} (enabled : τ.proxy.Enabled a)
    (ms : List Nat) (calls : τ.proxy.tmoCalls hs a = ms.map TmoCall.delete)
    (carries : Carries (· ∈ ms) τ.proxy (τ.proxy.act hs a))
    (current : ∀ m, (τ.proxy.act hs a).current = some m → τ.timers.data m = none) :
    (τ.act hs timeout now a).InOrder := by
  refine ⟨order.sound.act enabled, ?_, ?_⟩
  · simp only [act, calls]
    exact order.well.deletes ms
  · simp only [act, calls]
    exact order.tended.deletes order.sound.custody carries current

/-- An action that puts messages onto a connection, with their timers. -/
theorem InOrder.inserts (order : τ.InOrder) {a : Action} (enabled : τ.proxy.Enabled a) (s : Nat)
    (ms : List Nat) (calls : τ.proxy.tmoCalls hs a = ms.map fun m => TmoCall.insert m s)
    (distinct : ms.Nodup) (free : ∀ m ∈ ms, τ.timers.data m = none)
    (carries : Carries (fun _ => False) τ.proxy (τ.proxy.act hs a))
    (isOpen : ((τ.proxy.act hs a).servers s).isOpen = true)
    (queued : ∀ m ∈ ms, m ∈ (τ.proxy.act hs a).queue s)
    (current : ∀ m, (τ.proxy.act hs a).current = some m → τ.timers.data m = none ∧ m ∉ ms) :
    (τ.act hs timeout now a).InOrder := by
  refine ⟨order.sound.act enabled, ?_, ?_⟩
  · simp only [act, calls]
    exact order.well.inserts s distinct free
  · simp only [act, calls]
    refine order.tended.carry order.sound.custody carries (fun m held => ?_) fun m s' timed => ?_
    · obtain ⟨unset, absent⟩ := current m held
      obtain same | ⟨inside, -⟩ := Timers.data_inserts timeout now τ.timers ms s m
      · exact same.trans unset
      · exact absurd inside absent
    · obtain same | ⟨inside, found⟩ := Timers.data_inserts timeout now τ.timers ms s m
      · exact Or.inl ⟨same.symm.trans timed, id⟩
      · rw [found] at timed
        cases timed
        exact Or.inr ⟨isOpen, queued m inside⟩

/-- An action without calls. -/
theorem InOrder.silent (order : τ.InOrder) {a : Action} (enabled : τ.proxy.Enabled a)
    (calls : τ.proxy.tmoCalls hs a = [])
    (carries : Carries (· ∈ []) τ.proxy (τ.proxy.act hs a))
    (current : ∀ m, (τ.proxy.act hs a).current = some m → τ.timers.data m = none) :
    (τ.act hs timeout now a).InOrder :=
  order.deletes enabled [] calls carries current

section Actions

variable (order : τ.InOrder)

include order

theorem InOrder.accept {c : Nat} (enabled : τ.proxy.Enabled (.accept c)) :
    (τ.act hs timeout now (.accept c)).InOrder := by
  have custody := order.sound.custody
  refine order.silent enabled rfl ?_ order.tended.held
  refine Carries.of_clients custody rfl (.of_msgs fun _ _ => rfl) fun c' m inside _ => ?_
  left
  simp only [Proxy.act, omsgq_modClient]
  split
  · rename_i here
    rw [here, custody.client_closed c enabled.1] at inside
    cases inside
  · exact inside

theorem InOrder.answer {c : Nat} (enabled : τ.proxy.Enabled (.answer c)) :
    (τ.act hs timeout now (.answer c)).InOrder := by
  have omsgq : ∀ c', (τ.proxy.act hs (.answer c)).omsgq c' =
      (τ.proxy.join c
        { owner := some c, noforward := true, done := true, peer := some .own }).omsgq c' := by
    intro c'
    simp only [Proxy.act, Proxy.answer, omsgq_modClient]
    split
    · rename_i here
      rw [here]
      rfl
    · rfl
  exact order.silent enabled rfl (Carries.join order.sound.custody rfl rfl omsgq) order.tended.held

theorem InOrder.enqueue {c : Nat} {noreply : Bool}
    (enabled : τ.proxy.Enabled (.enqueue c noreply)) :
    (τ.act hs timeout now (.enqueue c noreply)).InOrder := by
  have custody := order.sound.custody
  have held : ∀ m, some τ.proxy.fresh = some m → τ.timers.data m = none := by
    rintro m ⟨⟩
    exact order.free (Nat.le_refl _)
  cases noreply with
  | false => exact order.silent enabled rfl (Carries.join custody rfl rfl fun _ => rfl) held
  | true =>
    refine order.silent enabled rfl ?_ held
    have marks := Marks.alloc τ.proxy (τ.proxy.newMsg c true)
    exact Carries.of_clients custody rfl ⟨marks.done, marks.error⟩ fun _ _ inside _ =>
      Or.inl inside

theorem InOrder.refuse (enabled : τ.proxy.Enabled .refuse) :
    (τ.act hs timeout now .refuse).InOrder := by
  obtain ⟨m, held, act⟩ := enabled.refuse hs
  refine order.deletes enabled (if (τ.proxy.msgs m).noreply then [m] else []) ?_ ?_ ?_
  · simp only [tmoCalls, held]
    split <;> rfl
  · rw [act]
    refine Carries.of_clients order.sound.custody (servers_refuse m) (Marks.refuse _ m)
      fun c x inside _ => ?_
    left
    rwa [omsgq_refuse]
  · intro x current
    rw [act, (forwarded_refuse τ.proxy m).current] at current
    cases current

theorem InOrder.dropIn {s : Nat} (enabled : τ.proxy.Enabled (.dropIn s)) :
    (τ.act hs timeout now (.dropIn s)).InOrder := by
  have custody := order.sound.custody
  cases queued : (τ.proxy.servers s).imsgq with
  | nil => exact absurd queued enabled
  | cons m ms =>
    have act : τ.proxy.act hs (.dropIn s) =
        (τ.proxy.modServer s fun conn => { conn with imsgq := ms }).drop m
          ((τ.proxy.msgs m).swallow || (τ.proxy.msgs m).noreply) := by
      simp only [Proxy.act, Proxy.dropIn, queued]
    refine order.deletes enabled
      (if (τ.proxy.msgs m).swallow || (τ.proxy.msgs m).noreply then [m] else []) ?_ ?_ ?_
    · simp only [tmoCalls, queued]
      split <;> rfl
    · refine Carries.of_server custody s { τ.proxy.servers s with imsgq := ms } ?_
        (closing_dropIn τ.proxy s).omsgq ?_ fun x inside stays => ?_
      · rw [act, servers_drop]
        rfl
      · rw [act]
        exact (Marks.modServer _ s _).trans (Marks.drop _ m _) (Nat.le_refl _)
      · rcases List.mem_cons.mp ((queue_of_imsgq queued).mem_iff.mp inside) with rfl | rest
        · -- the message at the front is told to fail, unless nobody wants to know
          have wanted : ((τ.proxy.msgs x).swallow || (τ.proxy.msgs x).noreply) = false := by
            by_contra silent
            rw [Bool.not_eq_false] at silent
            simp [silent] at stays
          obtain ⟨kept, replies⟩ := Bool.or_eq_false_iff.mp wanted
          obtain ⟨-, c, -, listed⟩ := custody.listed s x inside kept replies
          refine Or.inr ⟨?_, c, listed⟩
          rw [act, wanted]
          exact done_drop _ x
        · exact Or.inl ⟨custody.server_open inside, rest⟩
    · rw [(steady_dropIn τ.proxy s).current]
      exact order.tended.held

theorem InOrder.dropOut {s : Nat} (enabled : τ.proxy.Enabled (.dropOut s)) :
    (τ.act hs timeout now (.dropOut s)).InOrder := by
  have custody := order.sound.custody
  cases queued : (τ.proxy.servers s).omsgq with
  | nil => exact absurd queued enabled
  | cons m ms =>
    have act : τ.proxy.act hs (.dropOut s) = (τ.proxy.modServer s fun conn =>
        { conn with omsgq := ms, backend := conn.backend.drop 1 }).drop m
          (τ.proxy.msgs m).swallow := by
      simp only [Proxy.act, Proxy.dropOut, queued]
    refine order.deletes enabled (m :: if (τ.proxy.msgs m).swallow then [m] else []) ?_ ?_ ?_
    · simp only [tmoCalls, queued]
      split <;> rfl
    · refine Carries.of_server custody s
        { τ.proxy.servers s with omsgq := ms, backend := (τ.proxy.servers s).backend.drop 1 } ?_
        (closing_dropOut τ.proxy s).omsgq ?_ fun x inside stays => Or.inl ?_
      · rw [act, servers_drop]
        rfl
      · rw [act]
        exact (Marks.modServer _ s _).trans (Marks.drop _ m _) (Nat.le_refl _)
      · exact mem_tail_omsgq custody queued inside fun here => stays (here ▸ List.mem_cons_self)
    · rw [(steady_dropOut τ.proxy s).current]
      exact order.tended.held

theorem InOrder.sent {s : Nat} (enabled : τ.proxy.Enabled (.sent s)) :
    (τ.act hs timeout now (.sent s)).InOrder := by
  have custody := order.sound.custody
  have held : ∀ x, (τ.proxy.act hs (.sent s)).current = some x → τ.timers.data x = none := by
    rw [(steady_sent hs τ.proxy s).current]
    exact order.tended.held
  cases queued : (τ.proxy.servers s).imsgq with
  | nil => exact absurd queued enabled.1
  | cons m ms =>
    have others : ∀ x ∈ τ.proxy.queue s, x = m ∨ x ∈ ms ∨ x ∈ (τ.proxy.servers s).omsgq := by
      intro x inside
      simpa using (queue_of_imsgq queued).mem_iff.mp inside
    cases silent : (τ.proxy.msgs m).noreply with
    | true =>
      have act : τ.proxy.act hs (.sent s) =
          τ.proxy.modServer s fun conn => { conn with imsgq := ms } := by
        simp only [Proxy.act, Proxy.sent, queued, silent, if_true]
      refine order.deletes enabled [m] ?_ ?_ held
      · simp only [tmoCalls, queued, silent, if_true]
        rfl
      · rw [act]
        refine Carries.of_server custody s { τ.proxy.servers s with imsgq := ms } rfl (fun _ => rfl)
          (Marks.modServer _ s _) fun x inside stays => Or.inl ⟨custody.server_open inside, ?_⟩
        have place := others x inside
        simp only [List.mem_singleton, List.mem_append] at stays ⊢
        tauto
    | false =>
      have act : τ.proxy.act hs (.sent s) = τ.proxy.modServer s fun conn => { conn with
          imsgq := ms, omsgq := conn.omsgq ++ [m], backend := conn.backend ++ [m] } := by
        simp only [Proxy.act, Proxy.sent, queued, silent, Bool.false_eq_true, if_false]
      refine order.silent enabled ?_ ?_ held
      · simp only [tmoCalls, queued, silent, Bool.false_eq_true, if_false]
      · rw [act]
        refine Carries.of_server custody s { τ.proxy.servers s with
          imsgq := ms
          omsgq := (τ.proxy.servers s).omsgq ++ [m]
          backend := (τ.proxy.servers s).backend ++ [m] }
          rfl (fun _ => rfl) (Marks.modServer _ s _) fun x inside _ =>
            Or.inl ⟨custody.server_open inside, ?_⟩
        have place := others x inside
        simp only [List.mem_append, List.mem_singleton]
        tauto

theorem InOrder.reply {s : Nat} {bad : Bool} (enabled : τ.proxy.Enabled (.reply s bad)) :
    (τ.act hs timeout now (.reply s bad)).InOrder := by
  have custody := order.sound.custody
  cases queued : (τ.proxy.servers s).omsgq with
  | nil => exact absurd queued enabled.1
  | cons m ms =>
    cases received : (τ.proxy.servers s).backend with
    | nil => exact absurd received enabled.2
    | cons b bs =>
      have act : τ.proxy.act hs (.reply s bad) = (τ.proxy.modServer s fun conn =>
          { conn with omsgq := ms, backend := bs }).linked m b bad := by
        simp only [Proxy.act, Proxy.reply, queued, received]
      refine order.deletes enabled (m :: if (τ.proxy.msgs m).swallow then [m] else []) ?_ ?_ ?_
      · simp only [tmoCalls, queued, received]
        split <;> rfl
      · refine Carries.of_server custody s { τ.proxy.servers s with omsgq := ms, backend := bs }
          ?_ ?_ ?_ fun x inside stays => Or.inl ?_
        · rw [act, servers_linked]
          rfl
        · intro c
          rw [act, omsgq_linked]
          rfl
        · rw [act]
          exact (Marks.modServer _ s _).trans (Marks.linked _ m b bad) (Nat.le_refl _)
        · exact mem_tail_omsgq custody queued inside fun here => stays (here ▸ List.mem_cons_self)
      · rw [(steady_reply τ.proxy s bad).current]
        exact order.tended.held

theorem InOrder.shutClient {c : Nat} (enabled : τ.proxy.Enabled (.shutClient c)) :
    (τ.act hs timeout now (.shutClient c)).InOrder := by
  have custody := order.sound.custody
  refine order.deletes enabled ((τ.proxy.omsgq c).filter fun m => (τ.proxy.msgs m).done) rfl ?_
    order.tended.held
  refine Carries.of_clients custody rfl ⟨fun m _ => ?_, fun m _ => ?_⟩ fun c' m inside stays => ?_
  · simp only [Proxy.act, Proxy.shutClient]
    split <;> exact id
  · simp only [Proxy.act, Proxy.shutClient]
    split <;> exact id
  · by_cases here : c' = c
    · -- what is not done yet stays with the server
      subst here
      have pending : (τ.proxy.msgs m).done = false := by
        simpa [inside] using stays
      obtain held | queued := custody.waiting c' m inside pending
      · rw [enabled.2.1] at held
        cases held
      · exact Or.inr queued
    · left
      have same : (τ.proxy.act hs (.shutClient c)).omsgq c' = τ.proxy.omsgq c' := by
        simp only [Proxy.act, Proxy.shutClient, Proxy.omsgq, Function.update_of_ne here]
      rwa [same]

theorem InOrder.offer {c i : Nat} (enabled : τ.proxy.Enabled (.offer c i)) :
    (τ.act hs timeout now (.offer c i)).InOrder := by
  cases found : (τ.proxy.omsgq c).drop i with
  | nil =>
    have beyond := List.drop_eq_nil_iff.mp found
    have inside := enabled.1
    omega
  | cons m after =>
    let before := ((τ.proxy.omsgq c).take i).reverse
    refine order.deletes enabled
      (if (τ.proxy.markDone before m after).reqError before m after &&
          (τ.proxy.msgs m).fragOwner.isSome then τ.proxy.siblings m after else []) ?_ ?_ ?_
    · simp only [tmoCalls, found]
      split <;> rfl
    · refine Carries.of_clients order.sound.custody (servers_offer c i) (Marks.offer _ c i)
        fun c' x inside stays => Or.inl (mem_omsgq_offer found (fun failed fragment y sibling => ?_)
          inside stays)
      rwa [if_pos (Bool.and_eq_true_iff.mpr ⟨failed, fragment⟩)]
    · intro x current
      obtain ⟨msgs, log, queue, eq⟩ := offer_eq τ.proxy c i
      simp only [Proxy.act, eq] at current
      exact order.tended.held x current

theorem InOrder.finish {c m : Nat} (enabled : τ.proxy.Enabled (.finish c m)) :
    (τ.act hs timeout now (.finish c m)).InOrder := by
  refine order.deletes enabled [m] rfl ?_ order.tended.held
  refine Carries.of_clients order.sound.custody rfl (.of_msgs fun _ _ => rfl)
    fun c' x inside stays => ?_
  left
  simp only [Proxy.act, omsgq_modClient]
  split
  · rename_i here
    rw [here] at inside
    exact (List.mem_erase_of_ne (by simpa using stays)).mpr inside
  · exact inside

theorem InOrder.connected {s : Nat} (enabled : τ.proxy.Enabled (.connected s)) :
    (τ.act hs timeout now (.connected s)).InOrder := by
  have custody := order.sound.custody
  cases select : hs.selectDb with
  | false =>
    have act : τ.proxy.act hs (.connected s) =
        τ.proxy.modServer s fun conn => { conn with connecting := false } := by
      simp only [Proxy.act, postConnect, select, Bool.false_eq_true, if_false]
    refine order.silent enabled ?_ ?_ ?_
    · simp only [tmoCalls, select, Bool.false_eq_true, if_false]
    · rw [act]
      exact Carries.of_server custody s { τ.proxy.servers s with connecting := false } rfl
        (fun _ => rfl) (Marks.modServer _ s _) fun m inside _ =>
          Or.inl ⟨custody.server_open inside, inside⟩
    · rw [act]
      exact order.tended.held
  | true =>
    have act : τ.proxy.act hs (.connected s) =
        ((τ.proxy.modServer s fun conn => { conn with connecting := false }).alloc
          { swallow := true }).modServer s fun conn =>
            { conn with imsgq := τ.proxy.fresh :: conn.imsgq } := by
      simp only [Proxy.act, postConnect, select, if_true]
      rfl
    have servers : (τ.proxy.act hs (.connected s)).servers = Function.update τ.proxy.servers s
        { τ.proxy.servers s with
          connecting := false, imsgq := τ.proxy.fresh :: (τ.proxy.servers s).imsgq } := by
      rw [act]
      simp
    refine order.inserts enabled s [τ.proxy.fresh] ?_ (List.nodup_singleton _) ?_ ?_ ?_ ?_ ?_
    · simp only [tmoCalls, select, if_true]
      rfl
    · exact fun m here => order.free (Nat.le_of_eq (List.mem_singleton.mp here).symm)
    · refine Carries.of_server custody s _ servers (fun _ => by rw [act]; rfl) ?_
        fun m inside _ => ?_
      · rw [act]
        exact .of_msgs fun m lt => Function.update_of_ne (Nat.ne_of_lt lt) _ _
      · exact Or.inl ⟨enabled.1, List.mem_cons_of_mem _ inside⟩
    · rw [servers, Function.update_self]
      exact enabled.1
    · intro m here
      rw [List.mem_singleton.mp here, Proxy.queue, servers, Function.update_self]
      exact List.mem_cons_self
    · intro m current
      rw [(steady_connected τ.proxy s).current] at current
      refine ⟨order.tended.held m current, fun here => ?_⟩
      have lt := (custody.held m current).1
      rw [List.mem_singleton.mp here] at lt
      exact Nat.lt_irrefl _ lt

theorem InOrder.forward {s : Nat} (enabled : τ.proxy.Enabled (.forward s)) :
    (τ.act hs timeout now (.forward s)).InOrder := by
  have custody := order.sound.custody
  obtain ⟨m, held, act⟩ := enabled.forward hs
  let auth := if hs.requireAuth && !(τ.proxy.servers s).authenticated then [τ.proxy.fresh] else []
  let own := if (τ.proxy.msgs m).noreply then [] else [m]
  have lt := (custody.held m held).1
  have inAuth : ∀ x ∈ auth, x = τ.proxy.fresh := by
    intro x inside
    simp only [auth] at inside
    split at inside
    · exact List.mem_singleton.mp inside
    · cases inside
  have inOwn : ∀ x ∈ own, x = m := by
    intro x inside
    simp only [own] at inside
    split at inside
    · cases inside
    · exact List.mem_singleton.mp inside
  refine order.inserts enabled s (auth ++ own) ?_ ?_ ?_ ?_ ?_ ?_ ?_
  · simp only [tmoCalls, held, auth, own]
    split <;> split <;> rfl
  · refine List.nodup_append.mpr ⟨?_, ?_, fun x inside y inside' same => ?_⟩
    · simp only [auth]
      split <;> simp
    · simp only [own]
      split <;> simp
    · rw [inAuth x inside, inOwn y inside'] at same
      omega
  · intro x inside
    rcases List.mem_append.mp inside with inside | inside
    · exact order.free (Nat.le_of_eq (inAuth x inside).symm)
    · rw [inOwn x inside]
      exact order.tended.held m held
  · rw [act]
    refine Carries.of_server custody s _ (servers_forward s m) (omsgq_forward hs s m)
      (Marks.forward _ s m) fun x inside _ => Or.inl ⟨enabled.1, ?_⟩
    unfold Proxy.queue at inside
    simp only [List.mem_append] at inside ⊢
    tauto
  · rw [act, servers_forward, Function.update_self]
    exact enabled.1
  · intro x inside
    rw [act, Proxy.queue, servers_forward, Function.update_self]
    simp only [List.mem_append]
    rcases List.mem_append.mp inside with inside | inside
    · exact Or.inl (Or.inl (Or.inr inside))
    · exact Or.inl (Or.inr (List.mem_singleton.mpr (inOwn x inside)))
  · intro x current
    rw [act, (forwarded_forward τ.proxy s m).current] at current
    cases current

/-- Every action keeps the timers in order. -/
theorem InOrder.act {a : Action} (enabled : τ.proxy.Enabled a) :
    (τ.act hs timeout now a).InOrder := by
  have custody := order.sound.custody
  cases a with
  | accept c => exact order.accept enabled
  | answer c => exact order.answer enabled
  | fragment c n =>
    exact order.silent enabled rfl (Carries.join custody rfl rfl fun _ => rfl) order.tended.held
  | enqueue c noreply => exact order.enqueue enabled
  | connect s immediate =>
    refine order.silent enabled rfl ?_ order.tended.held
    refine Carries.of_server custody s _ rfl (fun _ => rfl) (.of_msgs fun _ _ => rfl)
      fun m inside _ => ?_
    rw [custody.server_closed s enabled] at inside
    cases inside
  | forward s => exact order.forward enabled
  | refuse => exact order.refuse enabled
  | dropIn s => exact order.dropIn enabled
  | dropOut s => exact order.dropOut enabled
  | shut s =>
    refine order.silent enabled rfl ?_ order.tended.held
    refine Carries.of_server custody s _ rfl (fun _ => rfl) (.of_msgs fun _ _ => rfl)
      fun m inside _ => ?_
    rw [enabled] at inside
    cases inside
  | connected s => exact order.connected enabled
  | sent s => exact order.sent enabled
  | serverIdle s =>
    refine order.silent enabled rfl ?_ order.tended.held
    exact Carries.of_server custody s { τ.proxy.servers s with sendActive := false } rfl
      (fun _ => rfl) (.of_msgs fun _ _ => rfl) fun m inside _ =>
        Or.inl ⟨custody.server_open inside, inside⟩
  | reply s bad => exact order.reply enabled
  | shutClient c => exact order.shutClient enabled
  | offer c i => exact order.offer enabled
  | finish c m => exact order.finish enabled
  | clientIdle c =>
    refine order.silent enabled rfl ?_ order.tended.held
    refine Carries.of_clients custody rfl (.of_msgs fun _ _ => rfl) fun c' m inside _ => ?_
    left
    simp only [Proxy.act, omsgq_modClient]
    split
    · rename_i here
      rw [here] at inside
      exact inside
    · exact inside

end Actions

end Timed

end Nutcracker
