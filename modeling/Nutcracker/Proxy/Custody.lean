import Nutcracker.Proxy.State
import Mathlib.Data.List.Nodup
import Mathlib.Data.List.Perm.Subperm

/-!
# Who waits for whom

A request that is not done is on exactly one server connection, and a message on a
server connection whose reply is wanted is in the queue of its client.  The actions
move messages between the queues in a handful of ways, each of which keeps this.
-/

namespace Nutcracker.Proxy

variable {σ σ' : Proxy}

/-- The queues of the clients: messages that exist, each of them once. -/
structure ClientQueues (σ : Proxy) : Prop where
  client_lt : ∀ c, ∀ m ∈ σ.omsgq c, m < σ.fresh
  client_nodup : ∀ c, (σ.omsgq c).Nodup
  client_closed : ∀ c, (σ.clients c).isOpen = false → σ.omsgq c = []

/-- The queues of the server connections, no two of which have a message in common. -/
structure ServerQueues (σ : Proxy) : Prop where
  server_lt : ∀ s, ∀ m ∈ σ.queue s, m < σ.fresh
  server_nodup : ∀ s, (σ.queue s).Nodup
  apart : ∀ s s' m, m ∈ σ.queue s → m ∈ σ.queue s' → s = s'
  server_closed : ∀ s, (σ.servers s).isOpen = false → σ.queue s = []

/-- The queues and the messages in them agree with each other. -/
structure Custody (σ : Proxy) : Prop extends ClientQueues σ, ServerQueues σ where
  owned : ∀ c, ∀ m ∈ σ.omsgq c,
    (σ.msgs m).owner = some c ∧ (σ.msgs m).swallow = false ∧ (σ.msgs m).noreply = false
  waiting : ∀ c, ∀ m ∈ σ.omsgq c, (σ.msgs m).done = false →
    σ.current = some m ∨ ∃ s, m ∈ σ.queue s
  listed : ∀ s, ∀ m ∈ σ.queue s, (σ.msgs m).swallow = false → (σ.msgs m).noreply = false →
    (σ.msgs m).done = false ∧ ∃ c, (σ.msgs m).owner = some c ∧ m ∈ σ.omsgq c
  held : ∀ m, σ.current = some m → m < σ.fresh ∧ (∀ s, m ∉ σ.queue s) ∧
    (σ.msgs m).done = false ∧ (σ.msgs m).swallow = false ∧
    ((σ.msgs m).noreply = false → ∃ c, (σ.msgs m).owner = some c ∧ m ∈ σ.omsgq c)

/-! ## The queues -/

/-- The same connections are open. -/
structure SameOpen (σ σ' : Proxy) : Prop where
  clients : ∀ c, (σ'.clients c).isOpen = (σ.clients c).isOpen
  servers : ∀ s, (σ'.servers s).isOpen = (σ.servers s).isOpen

theorem ClientQueues.shrink (queues : σ.ClientQueues) (fresh : σ.fresh ≤ σ'.fresh)
    (omsgq : ∀ c, (σ'.omsgq c).Sublist (σ.omsgq c))
    (clients : ∀ c, (σ'.clients c).isOpen = false →
      (σ.clients c).isOpen = false ∨ σ'.omsgq c = []) : σ'.ClientQueues where
  client_lt c m inside := (queues.client_lt c m ((omsgq c).subset inside)).trans_le fresh
  client_nodup c := (omsgq c).nodup (queues.client_nodup c)
  client_closed c closed := (clients c closed).elim
    (fun closed => List.sublist_nil.mp (queues.client_closed c closed ▸ omsgq c)) id

theorem ClientQueues.same (queues : σ.ClientQueues) (shell : SameOpen σ σ')
    (fresh : σ.fresh ≤ σ'.fresh) (omsgq : ∀ c, σ'.omsgq c = σ.omsgq c) : σ'.ClientQueues :=
  queues.shrink fresh (fun c => omsgq c ▸ List.Sublist.refl _)
    fun c closed => Or.inl ((shell.clients c).symm.trans closed)

theorem ServerQueues.shrink (queues : σ.ServerQueues) (fresh : σ.fresh ≤ σ'.fresh)
    (queue : ∀ s, (σ'.queue s).Subperm (σ.queue s))
    (servers : ∀ s, (σ'.servers s).isOpen = false →
      (σ.servers s).isOpen = false ∨ σ'.queue s = []) : σ'.ServerQueues where
  server_lt s m inside := (queues.server_lt s m ((queue s).subset inside)).trans_le fresh
  server_nodup s := by
    obtain ⟨kept, perm, sublist⟩ := queue s
    exact perm.nodup_iff.mp (sublist.nodup (queues.server_nodup s))
  apart s s' m first second :=
    queues.apart s s' m ((queue s).subset first) ((queue s').subset second)
  server_closed s closed := (servers s closed).elim
    (fun closed => List.subperm_nil.mp (queues.server_closed s closed ▸ queue s)) id

theorem ServerQueues.same (queues : σ.ServerQueues) (shell : SameOpen σ σ')
    (fresh : σ.fresh ≤ σ'.fresh) (queue : ∀ s, σ'.queue s = σ.queue s) : σ'.ServerQueues :=
  queues.shrink fresh (fun s => queue s ▸ List.Subperm.refl _)
    fun s closed => Or.inl ((shell.servers s).symm.trans closed)

section Add

variable {s m : Nat} (queue : (σ'.queue s).Perm (m :: σ.queue s))
  (others : ∀ s', s' ≠ s → σ'.queue s' = σ.queue s')

include queue others

theorem mem_queue_add (s' x : Nat) :
    x ∈ σ'.queue s' ↔ x ∈ σ.queue s' ∨ (s' = s ∧ x = m) := by
  by_cases same : s' = s
  · subst same
    rw [queue.mem_iff]
    simp [or_comm]
  · simp [others s' same, same]

/-- A message that was on no server connection is put on one. -/
theorem ServerQueues.add (queues : σ.ServerQueues) (shell : SameOpen σ σ')
    (fresh : σ.fresh ≤ σ'.fresh) (isOpen : (σ.servers s).isOpen = true) (lt : m < σ'.fresh)
    (unqueued : ∀ s, m ∉ σ.queue s) : σ'.ServerQueues := by
  have member := mem_queue_add queue others
  constructor
  · intro s' x inside
    rcases (member s' x).mp inside with earlier | ⟨_, rfl⟩
    · exact (queues.server_lt s' x earlier).trans_le fresh
    · exact lt
  · intro s'
    by_cases same : s' = s
    · subst same
      rw [queue.nodup_iff, List.nodup_cons]
      exact ⟨unqueued _, queues.server_nodup _⟩
    · rw [others s' same]
      exact queues.server_nodup s'
  · intro s₁ s₂ x first second
    rcases (member s₁ x).mp first with earlier | ⟨rfl, rfl⟩
    · rcases (member s₂ x).mp second with earlier' | ⟨rfl, rfl⟩
      · exact queues.apart s₁ s₂ x earlier earlier'
      · exact absurd earlier (unqueued _)
    · rcases (member s₂ x).mp second with earlier' | ⟨rfl, _⟩
      · exact absurd earlier' (unqueued _)
      · rfl
  · intro s' closed
    rw [shell.servers] at closed
    have other : s' ≠ s := by
      rintro rfl
      rw [isOpen] at closed
      cases closed
    rw [others s' other]
    exact queues.server_closed s' closed

end Add

/-- What custody depends on is the same in two states, up to the order of the server queues. -/
structure Alike (σ σ' : Proxy) : Prop where
  fresh : σ'.fresh = σ.fresh
  current : σ'.current = σ.current
  omsgq : ∀ c, σ'.omsgq c = σ.omsgq c
  queue : ∀ s, (σ'.queue s).Perm (σ.queue s)
  clients : ∀ c, (σ'.clients c).isOpen = false → (σ.clients c).isOpen = false ∨ σ.omsgq c = []
  servers : ∀ s, (σ'.servers s).isOpen = false → (σ.servers s).isOpen = false ∨ σ.queue s = []
  owner : ∀ m, (σ'.msgs m).owner = (σ.msgs m).owner
  swallow : ∀ m, (σ'.msgs m).swallow = (σ.msgs m).swallow
  noreply : ∀ m, (σ'.msgs m).noreply = (σ.msgs m).noreply
  done : ∀ m, (σ'.msgs m).done = (σ.msgs m).done

theorem Alike.trans {σ'' : Proxy} (first : Alike σ σ') (second : Alike σ' σ'') : Alike σ σ'' where
  fresh := second.fresh.trans first.fresh
  current := second.current.trans first.current
  omsgq c := (second.omsgq c).trans (first.omsgq c)
  queue s := (second.queue s).trans (first.queue s)
  clients c closed := (second.clients c closed).elim (first.clients c)
    fun empty => Or.inr ((first.omsgq c).symm.trans empty)
  servers s closed := (second.servers s closed).elim (first.servers s)
    fun empty => Or.inr (empty ▸ (first.queue s).symm).eq_nil
  owner m := (second.owner m).trans (first.owner m)
  swallow m := (second.swallow m).trans (first.swallow m)
  noreply m := (second.noreply m).trans (first.noreply m)
  done m := (second.done m).trans (first.done m)

theorem Custody.alike (custody : σ.Custody) (alike : Alike σ σ') : σ'.Custody := by
  have member : ∀ s m, m ∈ σ'.queue s ↔ m ∈ σ.queue s := fun s _ => (alike.queue s).mem_iff
  constructor
  · refine custody.toClientQueues.shrink alike.fresh.ge
      (fun c => alike.omsgq c ▸ List.Sublist.refl _) fun c closed => ?_
    rw [alike.omsgq]
    exact alike.clients c closed
  · refine custody.toServerQueues.shrink alike.fresh.ge (fun s => (alike.queue s).subperm)
      fun s closed => (alike.servers s closed).imp_right fun empty => ?_
    exact (empty ▸ alike.queue s).eq_nil
  · simpa only [alike.omsgq, alike.owner, alike.swallow, alike.noreply] using custody.owned
  · simpa only [alike.omsgq, alike.done, alike.current, member] using custody.waiting
  · simpa only [alike.omsgq, member, alike.done, alike.owner, alike.swallow,
      alike.noreply] using custody.listed
  · simpa only [alike.omsgq, member, alike.done, alike.owner, alike.swallow,
      alike.noreply, alike.fresh, alike.current] using custody.held

/-! ## Ways to move a message -/

section New

variable {r : Req} (fresh : σ'.fresh = σ.fresh + 1)
  (msgs : σ'.msgs = Function.update σ.msgs σ.fresh r)

include msgs in
theorem msgs_of_lt {m : Nat} (lt : m < σ.fresh) : σ'.msgs m = σ.msgs m := by
  rw [msgs, Function.update_of_ne (Nat.ne_of_lt lt)]

include msgs in
theorem msgs_fresh : σ'.msgs σ.fresh = r := by
  rw [msgs, Function.update_self]

include fresh msgs

/-- A new message at the end of a client's queue: it is done, or about to be forwarded. -/
theorem Custody.join (custody : σ.Custody) (idle : σ.current = none) (shell : SameOpen σ σ')
    {c : Nat} (isOpen : (σ.clients c).isOpen = true)
    (wanted : r.owner = some c ∧ r.swallow = false ∧ r.noreply = false)
    (omsgq : ∀ c', σ'.omsgq c' = if c' = c then σ.omsgq c ++ [σ.fresh] else σ.omsgq c')
    (queue : ∀ s, σ'.queue s = σ.queue s)
    (current : σ'.current = if r.done then none else some σ.fresh) : σ'.Custody := by
  have member : ∀ c' m, m ∈ σ'.omsgq c' ↔ m ∈ σ.omsgq c' ∨ (c' = c ∧ m = σ.fresh) := by
    intro c' m
    rw [omsgq]
    split
    · rename_i same
      simp [same]
    · rename_i other
      simp [other]
  have new := msgs_fresh msgs
  refine ⟨⟨?_, ?_, ?_⟩, custody.toServerQueues.same shell (by omega) queue, ?_, ?_, ?_, ?_⟩
  · intro c' m inside
    rw [fresh]
    rcases (member c' m).mp inside with earlier | ⟨_, rfl⟩
    · exact Nat.lt_succ_of_lt (custody.client_lt c' m earlier)
    · exact Nat.lt_succ_self _
  · intro c'
    rw [omsgq]
    split
    · refine List.nodup_append.mpr ⟨custody.client_nodup c, List.nodup_singleton _, ?_⟩
      rintro x inside y last rfl
      rw [List.mem_singleton.mp last] at inside
      exact Nat.lt_irrefl _ (custody.client_lt c _ inside)
    · exact custody.client_nodup c'
  · intro c' closed
    rw [shell.clients] at closed
    have other : c' ≠ c := by
      rintro rfl
      rw [isOpen] at closed
      cases closed
    rw [omsgq, if_neg other]
    exact custody.client_closed c' closed
  · intro c' m inside
    rcases (member c' m).mp inside with earlier | ⟨rfl, rfl⟩
    · rw [msgs_of_lt msgs (custody.client_lt c' m earlier)]
      exact custody.owned c' m earlier
    · rw [new]
      exact wanted
  · intro c' m inside undone
    simp only [queue]
    rcases (member c' m).mp inside with earlier | ⟨_, rfl⟩
    · rw [msgs_of_lt msgs (custody.client_lt c' m earlier)] at undone
      rcases custody.waiting c' m earlier undone with same | queued
      · rw [idle] at same
        cases same
      · exact Or.inr queued
    · rw [new] at undone
      left
      rw [current, undone]
      rfl
  · intro s m inside
    rw [queue] at inside
    rw [msgs_of_lt msgs (custody.server_lt s m inside)]
    intro wanted' answered
    obtain ⟨undone, c', owner, listed⟩ := custody.listed s m inside wanted' answered
    exact ⟨undone, c', owner, (member c' m).mpr (Or.inl listed)⟩
  · intro m held
    have undone : r.done = false ∧ σ.fresh = m := by
      rw [current] at held
      cases done : r.done with
      | true => simp [done] at held
      | false => simpa [done] using held
    obtain ⟨undone, rfl⟩ := undone
    rw [new, fresh]
    refine ⟨Nat.lt_succ_self _, fun s inside => ?_, undone, wanted.2.1,
      fun _ => ⟨c, wanted.1, (member c _).mpr (Or.inr ⟨rfl, rfl⟩)⟩⟩
    rw [queue] at inside
    exact Nat.lt_irrefl _ (custody.server_lt s _ inside)

/-- A new message whose reply nobody wants, about to be forwarded. -/
theorem Custody.hold (custody : σ.Custody) (idle : σ.current = none) (shell : SameOpen σ σ')
    (unwanted : r.noreply = true ∧ r.swallow = false ∧ r.done = false)
    (omsgq : ∀ c, σ'.omsgq c = σ.omsgq c) (queue : ∀ s, σ'.queue s = σ.queue s)
    (current : σ'.current = some σ.fresh) : σ'.Custody := by
  have new := msgs_fresh msgs
  refine ⟨custody.toClientQueues.same shell (by omega) omsgq,
    custody.toServerQueues.same shell (by omega) queue, ?_, ?_, ?_, ?_⟩
  · intro c m inside
    rw [omsgq] at inside
    rw [msgs_of_lt msgs (custody.client_lt c m inside)]
    exact custody.owned c m inside
  · intro c m inside undone
    rw [omsgq] at inside
    rw [msgs_of_lt msgs (custody.client_lt c m inside)] at undone
    simp only [queue]
    rcases custody.waiting c m inside undone with same | queued
    · rw [idle] at same
      cases same
    · exact Or.inr queued
  · intro s m inside
    rw [queue] at inside
    rw [msgs_of_lt msgs (custody.server_lt s m inside)]
    simpa only [omsgq] using custody.listed s m inside
  · intro m held
    obtain rfl : σ.fresh = m := by simpa [current] using held
    rw [new, fresh]
    refine ⟨Nat.lt_succ_self _, fun s inside => ?_, unwanted.2.2, unwanted.2.1, fun wanted => ?_⟩
    · rw [queue] at inside
      exact Nat.lt_irrefl _ (custody.server_lt s _ inside)
    · rw [unwanted.1] at wanted
      cases wanted

/-- A new message of the proxy's own on a server connection. -/
theorem Custody.insert (custody : σ.Custody) (shell : SameOpen σ σ') {s : Nat}
    (isOpen : (σ.servers s).isOpen = true) (own : r.swallow = true)
    (omsgq : ∀ c, σ'.omsgq c = σ.omsgq c) (queue : (σ'.queue s).Perm (σ.fresh :: σ.queue s))
    (others : ∀ s', s' ≠ s → σ'.queue s' = σ.queue s') (current : σ'.current = σ.current) :
    σ'.Custody := by
  have new := msgs_fresh msgs
  have member := mem_queue_add queue others
  refine ⟨custody.toClientQueues.same shell (by omega) omsgq,
    custody.toServerQueues.add queue others shell (by omega) isOpen (by omega) fun s' inside => ?_,
    ?_, ?_, ?_, ?_⟩
  · exact Nat.lt_irrefl _ (custody.server_lt s' _ inside)
  · intro c m inside
    rw [omsgq] at inside
    rw [msgs_of_lt msgs (custody.client_lt c m inside)]
    exact custody.owned c m inside
  · intro c m inside undone
    rw [omsgq] at inside
    rw [msgs_of_lt msgs (custody.client_lt c m inside)] at undone
    rw [current]
    refine (custody.waiting c m inside undone).imp_right ?_
    rintro ⟨s', queued⟩
    exact ⟨s', (member s' m).mpr (Or.inl queued)⟩
  · intro s' m inside
    rcases (member s' m).mp inside with earlier | ⟨_, rfl⟩
    · rw [msgs_of_lt msgs (custody.server_lt s' m earlier)]
      simpa only [omsgq] using custody.listed s' m earlier
    · rw [new, own]
      intro wanted
      cases wanted
  · intro m held
    rw [current] at held
    obtain ⟨lt, unqueued, rest⟩ := custody.held m held
    rw [fresh, msgs_of_lt msgs lt]
    refine ⟨Nat.lt_succ_of_lt lt, fun s' inside => ?_, by simpa only [omsgq] using rest⟩
    rcases (member s' m).mp inside with earlier | ⟨_, rfl⟩
    · exact unqueued s' earlier
    · exact Nat.lt_irrefl _ lt

end New

/-- The message that is being forwarded is put on a server connection. -/
theorem Custody.place (custody : σ.Custody) (shell : SameOpen σ σ') {s m : Nat}
    (isOpen : (σ.servers s).isOpen = true) (held : σ.current = some m)
    (fresh : σ'.fresh = σ.fresh) (msgs : σ'.msgs = σ.msgs)
    (omsgq : ∀ c, σ'.omsgq c = σ.omsgq c) (queue : (σ'.queue s).Perm (m :: σ.queue s))
    (others : ∀ s', s' ≠ s → σ'.queue s' = σ.queue s') (current : σ'.current = none) :
    σ'.Custody := by
  obtain ⟨lt, unqueued, undone, unswallowed, wanted⟩ := custody.held m held
  have member := mem_queue_add queue others
  refine ⟨custody.toClientQueues.same shell fresh.ge omsgq,
    custody.toServerQueues.add queue others shell fresh.ge isOpen (fresh ▸ lt) unqueued,
    ?_, ?_, ?_, ?_⟩
  · simpa only [omsgq, msgs] using custody.owned
  · intro c x inside undone
    rw [omsgq] at inside
    rw [msgs] at undone
    right
    rcases custody.waiting c x inside undone with same | ⟨s', queued⟩
    · rw [held] at same
      cases same
      exact ⟨s, (member s m).mpr (Or.inr ⟨rfl, rfl⟩)⟩
    · exact ⟨s', (member s' x).mpr (Or.inl queued)⟩
  · intro s' x inside
    rw [msgs]
    simp only [omsgq]
    rcases (member s' x).mp inside with earlier | ⟨_, rfl⟩
    · exact custody.listed s' x earlier
    · exact fun _ answered => ⟨undone, wanted answered⟩
  · intro x none
    rw [current] at none
    cases none

/-- The message that is being forwarded is done instead. -/
theorem Custody.giveUp (custody : σ.Custody) (shell : SameOpen σ σ') {m : Nat} {r : Req}
    (held : σ.current = some m) (fresh : σ'.fresh = σ.fresh)
    (msgs : σ'.msgs = Function.update σ.msgs m r)
    (same : r.owner = (σ.msgs m).owner ∧ r.swallow = (σ.msgs m).swallow ∧
      r.noreply = (σ.msgs m).noreply ∧ r.done = true)
    (omsgq : ∀ c, σ'.omsgq c = σ.omsgq c) (queue : ∀ s, σ'.queue s = σ.queue s)
    (current : σ'.current = none) : σ'.Custody := by
  obtain ⟨lt, unqueued, undone, unswallowed, wanted⟩ := custody.held m held
  have flags : ∀ x, (σ'.msgs x).owner = (σ.msgs x).owner ∧
      (σ'.msgs x).swallow = (σ.msgs x).swallow ∧ (σ'.msgs x).noreply = (σ.msgs x).noreply := by
    intro x
    rw [msgs]
    by_cases here : x = m
    · subst here
      rw [Function.update_self]
      exact ⟨same.1, same.2.1, same.2.2.1⟩
    · rw [Function.update_of_ne here]
      exact ⟨rfl, rfl, rfl⟩
  refine ⟨custody.toClientQueues.same shell fresh.ge omsgq,
    custody.toServerQueues.same shell fresh.ge queue, ?_, ?_, ?_, ?_⟩
  · simpa only [omsgq, (flags _).1, (flags _).2.1, (flags _).2.2] using custody.owned
  · intro c x inside undone'
    rw [omsgq] at inside
    simp only [queue]
    have other : x ≠ m := by
      rintro rfl
      rw [msgs, Function.update_self, same.2.2.2] at undone'
      cases undone'
    rw [msgs, Function.update_of_ne other] at undone'
    rcases custody.waiting c x inside undone' with still | queued
    · rw [held] at still
      cases still
      exact absurd rfl other
    · exact Or.inr queued
  · intro s x inside
    rw [queue] at inside
    have other : x ≠ m := by
      rintro rfl
      exact unqueued s inside
    rw [msgs, Function.update_of_ne other]
    simpa only [omsgq] using custody.listed s x inside
  · intro x none
    rw [current] at none
    cases none

/-- A message leaves a server connection: it is done, or nobody wants its reply. -/
theorem Custody.take (custody : σ.Custody) (shell : SameOpen σ σ') {s m : Nat}
    (fresh : σ'.fresh = σ.fresh) (current : σ'.current = σ.current)
    (omsgq : ∀ c, σ'.omsgq c = σ.omsgq c) (queue : (σ.queue s).Perm (m :: σ'.queue s))
    (others : ∀ s', s' ≠ s → σ'.queue s' = σ.queue s')
    (flags : ∀ x, (σ'.msgs x).owner = (σ.msgs x).owner ∧
      (σ'.msgs x).swallow = (σ.msgs x).swallow ∧ (σ'.msgs x).noreply = (σ.msgs x).noreply)
    (rest : ∀ x, x ≠ m → (σ'.msgs x).done = (σ.msgs x).done)
    (finished : (σ'.msgs m).done = true ∨ (σ.msgs m).swallow = true ∨
      (σ.msgs m).noreply = true) : σ'.Custody := by
  have nodup : (m :: σ'.queue s).Nodup := queue.nodup_iff.mp (custody.server_nodup s)
  have inside : m ∈ σ.queue s := queue.mem_iff.mpr List.mem_cons_self
  have member : ∀ s' x, x ∈ σ'.queue s' ↔ x ∈ σ.queue s' ∧ x ≠ m := by
    intro s' x
    by_cases same : s' = s
    · subst same
      rw [queue.mem_iff, List.mem_cons]
      constructor
      · intro left
        exact ⟨Or.inr left, fun here => (List.nodup_cons.mp nodup).1 (here ▸ left)⟩
      · rintro ⟨here | left, other⟩
        · exact absurd here other
        · exact left
    · rw [others s' same]
      refine ⟨fun left => ⟨left, ?_⟩, And.left⟩
      rintro rfl
      exact same (custody.apart s' s _ left inside)
  refine ⟨custody.toClientQueues.same shell fresh.ge omsgq,
    custody.toServerQueues.shrink fresh.ge (fun s' => ?_)
      fun s' closed => Or.inl ((shell.servers s').symm.trans closed), ?_, ?_, ?_, ?_⟩
  · by_cases same : s' = s
    · subst same
      exact (List.sublist_cons_self _ _).subperm.trans queue.symm.subperm
    · rw [others s' same]
  · simpa only [omsgq, (flags _).1, (flags _).2.1, (flags _).2.2] using custody.owned
  · intro c x listed undone
    rw [omsgq] at listed
    have other : x ≠ m := by
      rintro rfl
      obtain ⟨_, unswallowed, answered⟩ := custody.owned c x listed
      rw [undone, unswallowed, answered] at finished
      simp at finished
    rw [rest x other] at undone
    rw [current]
    refine (custody.waiting c x listed undone).imp_right ?_
    rintro ⟨s', queued⟩
    exact ⟨s', (member s' x).mpr ⟨queued, other⟩⟩
  · intro s' x left
    obtain ⟨queued, other⟩ := (member s' x).mp left
    rw [(flags x).1, (flags x).2.1, (flags x).2.2, rest x other]
    simpa only [omsgq] using custody.listed s' x queued
  · intro x held
    rw [current] at held
    obtain ⟨lt, unqueued, undone, more⟩ := custody.held x held
    have other : x ≠ m := by
      rintro rfl
      exact unqueued s inside
    rw [fresh, (flags x).1, (flags x).2.1, (flags x).2.2, rest x other]
    refine ⟨lt, fun s' left => unqueued s' ((member s' x).mp left).1, undone, ?_⟩
    simpa only [omsgq] using more

/-- Requests that are done leave the queues of their clients. -/
theorem Custody.leave (custody : σ.Custody) (shell : SameOpen σ σ')
    (fresh : σ'.fresh = σ.fresh) (current : σ'.current = σ.current)
    (msgs : σ'.msgs = σ.msgs) (queue : ∀ s, σ'.queue s = σ.queue s)
    (omsgq : ∀ c, (σ'.omsgq c).Sublist (σ.omsgq c))
    (gone : ∀ c, ∀ m ∈ σ.omsgq c, m ∈ σ'.omsgq c ∨ (σ.msgs m).done = true) : σ'.Custody := by
  have stays : ∀ c m, m ∈ σ.omsgq c → (σ.msgs m).done = false → m ∈ σ'.omsgq c := by
    intro c m listed undone
    refine (gone c m listed).resolve_right ?_
    rw [undone]
    exact Bool.false_ne_true
  refine ⟨custody.toClientQueues.shrink fresh.ge omsgq
      fun c closed => Or.inl ((shell.clients c).symm.trans closed),
    custody.toServerQueues.same shell fresh.ge queue, ?_, ?_, ?_, ?_⟩
  · intro c m listed
    rw [msgs]
    exact custody.owned c m ((omsgq c).subset listed)
  · intro c m listed undone
    rw [msgs] at undone
    simpa only [current, queue] using custody.waiting c m ((omsgq c).subset listed) undone
  · intro s m queued
    rw [queue] at queued
    rw [msgs]
    intro wanted answered
    obtain ⟨undone, c, owner, listed⟩ := custody.listed s m queued wanted answered
    exact ⟨undone, c, owner, stays c m listed undone⟩
  · intro m held
    rw [current] at held
    obtain ⟨lt, unqueued, undone, wanted, more⟩ := custody.held m held
    rw [fresh, msgs]
    simp only [queue]
    refine ⟨lt, unqueued, undone, wanted, fun answered => ?_⟩
    obtain ⟨c, owner, listed⟩ := more answered
    exact ⟨c, owner, stays c m listed undone⟩

/-- A client goes away. -/
theorem Custody.abandon (custody : σ.Custody) {c : Nat} (idle : σ.current = none)
    (fresh : σ'.fresh = σ.fresh) (current : σ'.current = σ.current)
    (msgs : ∀ x, σ'.msgs x = if x ∈ σ.omsgq c ∧ (σ.msgs x).done = false then
      { σ.msgs x with swallow := true } else σ.msgs x)
    (queue : ∀ s, σ'.queue s = σ.queue s)
    (omsgq : ∀ c', σ'.omsgq c' = if c' = c then [] else σ.omsgq c')
    (clients : ∀ c', c' ≠ c → (σ'.clients c').isOpen = (σ.clients c').isOpen)
    (servers : ∀ s, (σ'.servers s).isOpen = (σ.servers s).isOpen) : σ'.Custody := by
  have flags : ∀ x, (σ'.msgs x).owner = (σ.msgs x).owner ∧
      (σ'.msgs x).noreply = (σ.msgs x).noreply ∧ (σ'.msgs x).done = (σ.msgs x).done := by
    intro x
    rw [msgs]
    split <;> exact ⟨rfl, rfl, rfl⟩
  have swallow : ∀ x, (σ'.msgs x).swallow = false →
      (σ.msgs x).swallow = false ∧ ¬(x ∈ σ.omsgq c ∧ (σ.msgs x).done = false) := by
    intro x wanted
    rw [msgs] at wanted
    split at wanted
    · cases wanted
    · rename_i here
      exact ⟨wanted, here⟩
  have member : ∀ c' x, x ∈ σ'.omsgq c' ↔ x ∈ σ.omsgq c' ∧ c' ≠ c := by
    intro c' x
    rw [omsgq]
    split
    · rename_i same
      simp [same]
    · rename_i other
      simp [other]
  refine ⟨custody.toClientQueues.shrink fresh.ge (fun c' => ?_) (fun c' closed => ?_),
    custody.toServerQueues.shrink fresh.ge (fun s => queue s ▸ List.Subperm.refl _)
      fun s closed => Or.inl ((servers s).symm.trans closed), ?_, ?_, ?_, ?_⟩
  · rw [omsgq]
    split
    · exact List.nil_sublist _
    · exact List.Sublist.refl _
  · by_cases here : c' = c
    · exact Or.inr ((omsgq c').trans (if_pos here))
    · exact Or.inl ((clients c' here).symm.trans closed)
  · intro c' x listed
    obtain ⟨listed, other⟩ := (member c' x).mp listed
    obtain ⟨owner, unswallowed, answered⟩ := custody.owned c' x listed
    have elsewhere : ¬(x ∈ σ.omsgq c ∧ (σ.msgs x).done = false) := by
      rintro ⟨here, _⟩
      exact other (Option.some.inj (owner.symm.trans (custody.owned c x here).1))
    rw [msgs, if_neg elsewhere]
    exact ⟨owner, unswallowed, answered⟩
  · intro c' x listed undone
    rw [(flags x).2.2] at undone
    simpa only [current, queue] using custody.waiting c' x ((member c' x).mp listed).1 undone
  · intro s x queued wanted answered
    rw [queue] at queued
    rw [(flags x).2.1] at answered
    obtain ⟨wanted, spared⟩ := swallow x wanted
    obtain ⟨undone, c', owner, listed⟩ := custody.listed s x queued wanted answered
    rw [(flags x).2.2, (flags x).1]
    refine ⟨undone, c', owner, (member c' x).mpr ⟨listed, ?_⟩⟩
    rintro rfl
    exact spared ⟨listed, undone⟩
  · intro x held
    rw [current, idle] at held
    cases held

/-! ## Marks and write events -/

theorem Alike.of_marks (fresh : σ'.fresh = σ.fresh) (current : σ'.current = σ.current)
    (clients : ∀ c, (σ'.clients c).omsgq = (σ.clients c).omsgq ∧
      (σ'.clients c).isOpen = (σ.clients c).isOpen)
    (servers : ∀ s, (σ'.servers s).imsgq = (σ.servers s).imsgq ∧
      (σ'.servers s).omsgq = (σ.servers s).omsgq ∧
      (σ'.servers s).isOpen = (σ.servers s).isOpen)
    (msgs : ∀ m, (σ'.msgs m).owner = (σ.msgs m).owner ∧
      (σ'.msgs m).swallow = (σ.msgs m).swallow ∧ (σ'.msgs m).noreply = (σ.msgs m).noreply ∧
      (σ'.msgs m).done = (σ.msgs m).done) : Alike σ σ' where
  fresh := fresh
  current := current
  omsgq c := (clients c).1
  queue s := by
    unfold Proxy.queue
    rw [(servers s).1, (servers s).2.1]
  clients c closed := Or.inl ((clients c).2.symm.trans closed)
  servers s closed := Or.inl ((servers s).2.2.symm.trans closed)
  owner m := (msgs m).1
  swallow m := (msgs m).2.1
  noreply m := (msgs m).2.2.1
  done m := (msgs m).2.2.2

/-- `req_done` sets `fdone` of messages, and may have a request coalesced. -/
theorem markDone_eq (σ : Proxy) (before : List Nat) (m : Nat) (after : List Nat) :
    ∃ msgs log, σ.markDone before m after = { σ with msgs := msgs, log := log } ∧
      ∀ x, msgs x = σ.msgs x ∨ msgs x = { σ.msgs x with fdone := true } := by
  unfold markDone
  split
  · exact ⟨_, _, rfl, fun _ => Or.inl rfl⟩
  · split
    · refine ⟨_, _, rfl, fun x => ?_⟩
      dsimp only
      split
      · exact Or.inr rfl
      · exact Or.inl rfl
    · exact ⟨_, _, rfl, fun _ => Or.inl rfl⟩

/-- `req_error` sets `ferror` of messages. -/
theorem markError_eq (σ : Proxy) (before : List Nat) (m : Nat) (after : List Nat) :
    ∃ msgs, σ.markError before m after = { σ with msgs := msgs } ∧
      ∀ x, msgs x = σ.msgs x ∨ msgs x = { σ.msgs x with ferror := true } := by
  unfold markError
  dsimp only
  split
  · refine ⟨_, rfl, fun x => ?_⟩
    split
    · exact Or.inr rfl
    · exact Or.inl rfl
  · exact ⟨_, rfl, fun _ => Or.inl rfl⟩

/-- A client is woken by `req_done` and the registration of a write event. -/
theorem wake_eq (σ : Proxy) (c : Nat) :
    ∃ msgs log active, σ.wake c =
        ({ σ with msgs := msgs, log := log } : Proxy).modClient c
          (fun conn => { conn with sendActive := active }) ∧
      ∀ x, msgs x = σ.msgs x ∨ msgs x = { σ.msgs x with fdone := true } := by
  have same : σ = σ.modClient c fun conn =>
      { conn with sendActive := (σ.clients c).sendActive } := by
    unfold modClient
    rw [Function.update_eq_self]
  unfold wake
  split
  · exact ⟨σ.msgs, σ.log, (σ.clients c).sendActive, same, fun _ => Or.inl rfl⟩
  · split
    · rename_i m after _ _
      obtain ⟨msgs, log, eq, marks⟩ := markDone_eq σ [] m after
      exact ⟨msgs, log, true, by rw [eq], marks⟩
    · exact ⟨σ.msgs, σ.log, (σ.clients c).sendActive, same, fun _ => Or.inl rfl⟩

section Fields

variable {α : Type} (p : Req → α)

theorem field_markDone (same : ∀ r, p { r with fdone := true } = p r) (before : List Nat) (m : Nat)
    (after : List Nat) (x : Nat) : p ((σ.markDone before m after).msgs x) = p (σ.msgs x) := by
  obtain ⟨msgs, log, eq, marks⟩ := markDone_eq σ before m after
  rw [eq]
  rcases marks x with mark | mark <;> simp only [mark, same]

theorem field_markError (same : ∀ r, p { r with ferror := true } = p r) (before : List Nat)
    (m : Nat) (after : List Nat) (x : Nat) :
    p ((σ.markError before m after).msgs x) = p (σ.msgs x) := by
  obtain ⟨msgs, eq, marks⟩ := markError_eq σ before m after
  rw [eq]
  rcases marks x with mark | mark <;> simp only [mark, same]

theorem field_wakeOwner (same : ∀ r, p { r with fdone := true } = p r) (m x : Nat) :
    p ((σ.wakeOwner m).msgs x) = p (σ.msgs x) := by
  unfold Proxy.wakeOwner
  split
  · rename_i c _
    obtain ⟨msgs, log, active, eq, marks⟩ := wake_eq σ c
    rw [eq, msgs_modClient]
    rcases marks x with mark | mark <;> simp only [mark, same]
  · rfl

end Fields

theorem Alike.wake (c : Nat) : Alike σ (σ.wake c) := by
  obtain ⟨msgs, log, active, eq, marks⟩ := wake_eq σ c
  rw [eq]
  refine Alike.of_marks rfl rfl (fun c' => ?_) (fun _ => ⟨rfl, rfl, rfl⟩) fun x => ?_
  · simp only [clients_modClient, Function.update_apply]
    split
    · rename_i here
      rw [here]
      exact ⟨rfl, rfl⟩
    · exact ⟨rfl, rfl⟩
  · simp only [msgs_modClient]
    rcases marks x with mark | mark <;> rw [mark] <;> exact ⟨rfl, rfl, rfl, rfl⟩

theorem Alike.wakeOwner (m : Nat) : Alike σ (σ.wakeOwner m) := by
  unfold Proxy.wakeOwner
  split
  · exact Alike.wake _
  · exact Alike.of_marks rfl rfl (fun _ => ⟨rfl, rfl⟩) (fun _ => ⟨rfl, rfl, rfl⟩)
      fun _ => ⟨rfl, rfl, rfl, rfl⟩

/-! ## The actions -/

variable {hs : Handshake}

theorem sameOpen_modClient (σ : Proxy) (c : Nat) (g : ClientConn → ClientConn)
    (same : (g (σ.clients c)).isOpen = (σ.clients c).isOpen) : SameOpen σ (σ.modClient c g) where
  clients c' := by
    rw [clients_modClient, Function.update_apply]
    split
    · rename_i here
      rw [here, same]
    · rfl
  servers _ := rfl

theorem sameOpen_modServer (σ : Proxy) (s : Nat) (h : ServerConn → ServerConn)
    (same : (h (σ.servers s)).isOpen = (σ.servers s).isOpen) : SameOpen σ (σ.modServer s h) where
  clients _ := rfl
  servers s' := by
    rw [servers_modServer, Function.update_apply]
    split
    · rename_i here
      rw [here, same]
    · rfl

theorem Custody.addAuth (custody : σ.Custody) {s : Nat} (isOpen : (σ.servers s).isOpen = true)
    (owner : Option Nat) : (σ.addAuth hs s owner).Custody := by
  unfold Proxy.addAuth
  split
  · refine custody.insert (r := { owner := owner, swallow := true }) rfl rfl
      ⟨(sameOpen_modServer _ s _ rfl).clients, (sameOpen_modServer (σ.alloc _) s _ rfl).servers⟩
      isOpen rfl (fun _ => rfl) ?_ ?_ rfl
    · rw [queue_modServer, if_pos rfl]
      simp only [servers_alloc, queue, List.append_assoc, List.singleton_append]
      exact List.perm_middle
    · intro s' other
      rw [queue_modServer, if_neg other]
      rfl
  · exact custody

theorem Custody.postConnect (custody : σ.Custody) {s : Nat}
    (isOpen : (σ.servers s).isOpen = true) : (σ.postConnect hs s).Custody := by
  unfold Proxy.postConnect
  split
  · refine custody.insert (r := { swallow := true }) rfl rfl
      ⟨(sameOpen_modServer _ s _ rfl).clients, (sameOpen_modServer (σ.alloc _) s _ rfl).servers⟩
      isOpen rfl (fun _ => rfl) ?_ ?_ rfl
    · rw [queue_modServer, if_pos rfl]
      exact List.Perm.refl _
    · intro s' other
      rw [queue_modServer, if_neg other]
      rfl
  · exact custody

/-- A client connects, where there was no connection. -/
theorem Alike.accept {c : Nat} (empty : σ.omsgq c = []) :
    Alike σ (σ.modClient c fun _ => { isOpen := true, sendActive := true }) := by
  constructor <;> try exact fun _ => rfl
  · rfl
  · rfl
  · intro c'
    rw [omsgq_modClient]
    split
    · rename_i here
      rw [here, empty]
    · rfl
  · exact fun _ => List.Perm.refl _
  · intro c' closed'
    rw [clients_modClient, Function.update_apply] at closed'
    split at closed'
    · cases closed'
    · exact Or.inl closed'
  · exact fun _ => Or.inl

/-- A server connection is opened or closed while nothing is queued on it. -/
theorem Alike.renew {s : Nat} (conn : ServerConn) (before : σ.queue s = [])
    (after : conn.imsgq = [] ∧ conn.omsgq = []) : Alike σ (σ.modServer s fun _ => conn) := by
  constructor <;> try exact fun _ => rfl
  · rfl
  · rfl
  · intro s'
    rw [queue_modServer]
    split
    · rename_i here
      rw [here, before, after.1, after.2]
      exact List.Perm.refl _
    · exact List.Perm.refl _
  · exact fun _ => Or.inl
  · intro s' closed
    rw [servers_modServer, Function.update_apply] at closed
    split at closed
    · rename_i here
      exact Or.inr (here ▸ before)
    · exact Or.inl closed

/-- The order of the messages on a server connection changes, or its flags do. -/
theorem Alike.shuffle {s : Nat} {h : ServerConn → ServerConn}
    (perm : ((h (σ.servers s)).imsgq ++ (h (σ.servers s)).omsgq).Perm (σ.queue s))
    (same : (h (σ.servers s)).isOpen = (σ.servers s).isOpen) : Alike σ (σ.modServer s h) := by
  constructor <;> try exact fun _ => rfl
  · rfl
  · rfl
  · intro s'
    rw [queue_modServer]
    split
    · rename_i here
      rw [here]
      exact perm
    · exact List.Perm.refl _
  · exact fun _ => Or.inl
  · intro s' closed
    exact Or.inl (((sameOpen_modServer _ s h same).servers s').symm.trans closed)

/-- The write event of a client is registered or removed. -/
theorem Alike.active (c : Nat) (active : Bool) :
    Alike σ (σ.modClient c fun conn => { conn with sendActive := active }) := by
  refine Alike.of_marks rfl rfl (fun c' => ?_) (fun _ => ⟨rfl, rfl, rfl⟩)
    fun _ => ⟨rfl, rfl, rfl, rfl⟩
  rw [clients_modClient, Function.update_apply]
  split
  · rename_i here
    rw [here]
    exact ⟨rfl, rfl⟩
  · exact ⟨rfl, rfl⟩

theorem Custody.joined (custody : σ.Custody) {c : Nat} {r : Req} (idle : σ.current = none)
    (isOpen : (σ.clients c).isOpen = true) (done : r.done = true)
    (wanted : r.owner = some c ∧ r.swallow = false ∧ r.noreply = false) :
    (σ.join c r).Custody :=
  custody.join rfl rfl idle ⟨isOpen_join c r, fun _ => rfl⟩ isOpen wanted (omsgq_join c r)
    (fun _ => rfl) (by rw [done]; exact idle)

theorem Custody.enqueue (custody : σ.Custody) {c : Nat} {noreply : Bool}
    (isOpen : (σ.clients c).isOpen = true) (idle : σ.current = none) :
    (σ.enqueue c noreply).Custody := by
  cases noreply with
  | false =>
    exact custody.join (r := σ.newMsg c false) rfl rfl idle ⟨isOpen_join c _, fun _ => rfl⟩ isOpen
      ⟨rfl, rfl, rfl⟩ (omsgq_join c _) (fun _ => rfl) rfl
  | true =>
    exact custody.hold (r := σ.newMsg c true) rfl rfl idle ⟨fun _ => rfl, fun _ => rfl⟩
      ⟨rfl, rfl, rfl⟩ (fun _ => rfl) (fun _ => rfl) rfl

theorem addAuth_rest (σ : Proxy) (hs : Handshake) (s : Nat) (owner : Option Nat) :
    (σ.addAuth hs s owner).current = σ.current ∧
      ((σ.addAuth hs s owner).servers s).isOpen = (σ.servers s).isOpen := by
  unfold Proxy.addAuth
  split
  · simp
  · exact ⟨rfl, rfl⟩

theorem Custody.forward (custody : σ.Custody) {s m : Nat} (isOpen : (σ.servers s).isOpen = true)
    (held : σ.current = some m) : (σ.forward hs s m).Custody := by
  let active := σ.modServer s fun conn =>
    { conn with sendActive := conn.sendActive || conn.imsgq.isEmpty }
  have opened : (active.servers s).isOpen = true := by
    simp only [active, servers_modServer, Function.update_self]
    exact isOpen
  have awake : active.Custody := custody.alike (Alike.shuffle (List.Perm.refl _) rfl)
  obtain ⟨current, sameOpen⟩ := addAuth_rest active hs s (σ.msgs m).owner
  have authenticated : (active.addAuth hs s (σ.msgs m).owner).Custody := awake.addAuth opened _
  refine authenticated.place (s := s) (m := m) ?_
    (sameOpen.trans opened) (current.trans held) rfl rfl (fun _ => rfl) ?_ ?_ rfl
  · refine ⟨fun _ => rfl, fun s' => ?_⟩
    rw [Proxy.forward, servers_release]
    exact (sameOpen_modServer _ s _ rfl).servers s'
  · rw [Proxy.forward, queue_release, queue_modServer, if_pos rfl]
    simp only [queue, List.append_assoc, List.singleton_append]
    exact List.perm_middle
  · intro s' other
    rw [Proxy.forward, queue_release, queue_modServer, if_neg other]

/-- The fields of the messages that `complete` leaves alone. -/
theorem complete_msgs (σ : Proxy) (m : Nat) {f : Req → Req}
    (same : ∀ r, (f r).owner = r.owner ∧ (f r).swallow = r.swallow ∧
      (f r).noreply = r.noreply ∧ (f r).done = r.done) (x : Nat) :
    ((σ.complete m f).msgs x).owner = (σ.msgs x).owner ∧
      ((σ.complete m f).msgs x).swallow = (σ.msgs x).swallow ∧
      ((σ.complete m f).msgs x).noreply = (σ.msgs x).noreply ∧
      ((σ.complete m f).msgs x).done = ((σ.msgs x).done || decide (x = m)) := by
  obtain ⟨owner, swallow, noreply, done⟩ := same { σ.msgs m with done := true }
  rw [field_complete (·.owner) (fun _ _ => rfl), field_complete (·.swallow) (fun _ _ => rfl),
    field_complete (·.noreply) (fun _ _ => rfl), field_complete (·.done) (fun _ _ => rfl)]
  split
  · rename_i here
    rw [owner, swallow, noreply, done, here]
    simp
  · rename_i other
    simp [other]

theorem complete_rest (σ : Proxy) (m : Nat) (f : Req → Req) :
    (σ.complete m f).fresh = σ.fresh ∧ (σ.complete m f).clients = σ.clients ∧
      (σ.complete m f).servers = σ.servers ∧ (σ.complete m f).current = σ.current ∧
      (σ.complete m f).vector = σ.vector ∧ (σ.complete m f).log = σ.log := by
  unfold Proxy.complete
  dsimp only
  split <;> exact ⟨rfl, rfl, rfl, rfl, rfl, rfl⟩

section Take

variable {s m : Nat} {h : ServerConn → ServerConn}
  (perm : (σ.queue s).Perm (m :: ((h (σ.servers s)).imsgq ++ (h (σ.servers s)).omsgq)))
  (same : (h (σ.servers s)).isOpen = (σ.servers s).isOpen)

include perm same

/-- A message is taken off a server connection, and done. -/
theorem Custody.completed (custody : σ.Custody) {f : Req → Req}
    (keeps : ∀ r, (f r).owner = r.owner ∧ (f r).swallow = r.swallow ∧
      (f r).noreply = r.noreply ∧ (f r).done = r.done) :
    ((σ.modServer s h).complete m f).Custody := by
  obtain ⟨fresh, clients, servers, current, -, -⟩ := complete_rest (σ.modServer s h) m f
  have msgs := complete_msgs (σ.modServer s h) m keeps
  have queue : ∀ s', ((σ.modServer s h).complete m f).queue s' =
      (σ.modServer s h).queue s' := by
    intro s'
    unfold Proxy.queue
    rw [servers]
  refine custody.take (s := s) (m := m) ⟨?_, ?_⟩ fresh current ?_ ?_ ?_ ?_ ?_ ?_
  · intro c
    rw [clients, clients_modServer]
  · intro s'
    rw [servers]
    exact (sameOpen_modServer _ s h same).servers s'
  · intro c
    unfold Proxy.omsgq
    rw [clients, clients_modServer]
  · rw [queue, queue_modServer, if_pos rfl]
    exact perm
  · intro s' other
    rw [queue, queue_modServer, if_neg other]
  · exact fun x => ⟨(msgs x).1, (msgs x).2.1, (msgs x).2.2.1⟩
  · intro x other
    rw [(msgs x).2.2.2]
    simp [other]
  · left
    rw [(msgs m).2.2.2]
    simp

/-- A message that nobody wants a reply for is taken off a server connection. -/
theorem Custody.discarded (custody : σ.Custody) (f : Req → Req)
    (keeps : (f (σ.msgs m)).owner = (σ.msgs m).owner ∧
      (f (σ.msgs m)).swallow = (σ.msgs m).swallow ∧ (f (σ.msgs m)).noreply = (σ.msgs m).noreply)
    (silent : (σ.msgs m).swallow = true ∨ (σ.msgs m).noreply = true) :
    ((σ.modServer s h).modMsg m f).Custody := by
  refine custody.take (s := s) (m := m) ⟨fun _ => rfl, (sameOpen_modServer _ s h same).servers⟩ rfl
    rfl (fun _ => rfl) ?_ ?_ ?_ ?_ (Or.inr silent)
  · rw [queue_modMsg, queue_modServer, if_pos rfl]
    exact perm
  · intro s' other
    rw [queue_modMsg, queue_modServer, if_neg other]
  · intro x
    rw [msgs_modMsg, msgs_modServer, Function.update_apply]
    split
    · rename_i here
      rw [here]
      exact keeps
    · exact ⟨rfl, rfl, rfl⟩
  · intro x other
    rw [msgs_modMsg, msgs_modServer, Function.update_of_ne other]

end Take

theorem modMsg_id (m : Nat) : σ.modMsg m id = σ := by
  unfold modMsg
  rw [id, Function.update_eq_self]

theorem Custody.shutClient (custody : σ.Custody) {c : Nat} (idle : σ.current = none) :
    (σ.shutClient c).Custody := by
  refine custody.abandon (c := c) idle rfl rfl (fun _ => rfl) (fun _ => rfl) ?_ ?_ (fun _ => rfl)
  · exact omsgq_modClient c fun _ => {}
  · intro c' other
    simp only [Proxy.shutClient, Function.update_of_ne other]

theorem Alike.markDone (σ : Proxy) (before : List Nat) (m : Nat) (after : List Nat) :
    Alike σ (σ.markDone before m after) := by
  obtain ⟨msgs, log, eq, marks⟩ := markDone_eq σ before m after
  rw [eq]
  refine Alike.of_marks rfl rfl (fun _ => ⟨rfl, rfl⟩) (fun _ => ⟨rfl, rfl, rfl⟩) fun x => ?_
  rcases marks x with mark | mark <;> simp [mark]

theorem Alike.markError (before : List Nat) (m : Nat) (after : List Nat) :
    Alike σ (σ.markError before m after) := by
  obtain ⟨msgs, eq, marks⟩ := markError_eq σ before m after
  rw [eq]
  refine Alike.of_marks rfl rfl (fun _ => ⟨rfl, rfl⟩) (fun _ => ⟨rfl, rfl, rfl⟩) fun x => ?_
  rcases marks x with mark | mark <;> simp [mark]

theorem Alike.peer (m : Nat) (peer : Option Reply) :
    Alike σ (σ.modMsg m fun r => { r with peer := peer }) := by
  refine Alike.of_marks rfl rfl (fun _ => ⟨rfl, rfl⟩) (fun _ => ⟨rfl, rfl, rfl⟩) fun x => ?_
  exact ⟨field_modMsg (·.owner) rfl x, field_modMsg (·.swallow) rfl x,
    field_modMsg (·.noreply) rfl x, field_modMsg (·.done) rfl x⟩

/-- Requests that are done leave the queue of a client. -/
theorem Custody.left (custody : σ.Custody) {c : Nat} {rest : List Nat}
    (sublist : rest.Sublist (σ.omsgq c))
    (gone : ∀ m ∈ σ.omsgq c, m ∈ rest ∨ (σ.msgs m).done = true) :
    (σ.modClient c fun conn => { conn with omsgq := rest }).Custody := by
  refine custody.leave (sameOpen_modClient _ c _ rfl) rfl rfl rfl (fun _ => rfl) ?_ ?_
  · intro c'
    rw [omsgq_modClient]
    split
    · rename_i here
      rw [here]
      exact sublist
    · exact List.Sublist.refl _
  · intro c' m listed
    rw [omsgq_modClient]
    split
    · rename_i here
      rw [here] at listed
      exact gone m listed
    · exact Or.inl listed

end Nutcracker.Proxy
