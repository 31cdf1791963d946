import Nutcracker.Proxy.Wakeup

/-!
# Completion accounting of vector requests

`nfrag_done` counts the fragments of a vector request that were answered or failed on a
server connection.  A fragment that could not be forwarded at all is done as well, but
`req_forward_error` does not count it.  So the count is short by those, and a request
with such a fragment is never found done.
-/

namespace Nutcracker.Proxy

variable {hs : Handshake} {σ σ' : Proxy}

/-- How many fragments of a vector request could not be forwarded. -/
def nrefused (σ : Proxy) (o : Nat) : Nat :=
  (σ.fragments o).countP fun x => decide (x ∈ σ.refused)

theorem nrefused_eq_zero {o : Nat} : σ.nrefused o = 0 ↔ ∀ x ∈ σ.fragments o, x ∉ σ.refused := by
  simp [nrefused, List.countP_eq_zero]

/-- The books of vector requests. -/
structure Accounts (σ : Proxy) : Prop where
  refused_lt : ∀ m ∈ σ.refused, m < σ.fresh
  refused_done : ∀ m ∈ σ.refused, (σ.msgs m).done = true
  marked : ∀ o, (σ.msgs o).fragOwner = some o → (σ.msgs o).fdone = true →
    (σ.msgs o).nfrag ≤ (σ.msgs o).nfragDone
  swallowed : ∀ m o, (σ.msgs m).fragOwner = some o → (σ.msgs m).swallow = true →
    ∀ c, o ∉ σ.omsgq c
  balance : ∀ c, ∀ o ∈ σ.omsgq c, (σ.msgs o).fragOwner = some o →
    (σ.msgs o).nfragDone + σ.nrefused o = σ.ndone o

/-! ## Changes that concern no fragment -/

theorem Accounts.frame (accounts : σ.Accounts) (fresh : σ'.fresh = σ.fresh)
    (refused : σ'.refused = σ.refused) (omsgq : ∀ c, ∀ m ∈ σ'.omsgq c, m ∈ σ.omsgq c)
    (msgs : ∀ x, (σ'.msgs x).fragOwner = (σ.msgs x).fragOwner ∧
      (σ'.msgs x).swallow = (σ.msgs x).swallow ∧ (σ'.msgs x).done = (σ.msgs x).done ∧
      (σ'.msgs x).nfrag = (σ.msgs x).nfrag ∧ (σ'.msgs x).nfragDone = (σ.msgs x).nfragDone)
    (fdone : ∀ o, (σ.msgs o).fragOwner = some o → (σ'.msgs o).fdone = true →
      (σ.msgs o).fdone = true ∨ (σ.msgs o).nfrag ≤ (σ.msgs o).nfragDone) : σ'.Accounts := by
  have fragments : ∀ o, σ'.fragments o = σ.fragments o := fragments_congr fresh fun x => (msgs x).1
  have nrefused : ∀ o, σ'.nrefused o = σ.nrefused o := by
    intro o
    simp only [Proxy.nrefused, fragments, refused]
  have ndone : ∀ o, σ'.ndone o = σ.ndone o := by
    intro o
    simp only [Proxy.ndone, fragments, (msgs _).2.2.1]
  constructor
  · simpa only [refused, fresh] using accounts.refused_lt
  · simpa only [refused, (msgs _).2.2.1] using accounts.refused_done
  · intro o self marked
    rw [(msgs o).1] at self
    rw [(msgs o).2.2.2.1, (msgs o).2.2.2.2]
    exact (fdone o self marked).elim (accounts.marked o self) id
  · intro m o member swallow c inside
    rw [(msgs m).1] at member
    rw [(msgs m).2.1] at swallow
    exact accounts.swallowed m o member swallow c (omsgq c o inside)
  · intro c o inside self
    rw [(msgs o).1] at self
    rw [(msgs o).2.2.2.2, nrefused, ndone]
    exact accounts.balance c o (omsgq c o inside) self

theorem Accounts.modServer (accounts : σ.Accounts) (s : Nat) (h : ServerConn → ServerConn) :
    (σ.modServer s h).Accounts :=
  accounts.frame rfl rfl (fun _ _ => id) (fun _ => ⟨rfl, rfl, rfl, rfl, rfl⟩) fun _ _ => Or.inl

theorem Accounts.modClient (accounts : σ.Accounts) (c : Nat) {g : ClientConn → ClientConn}
    (sub : ∀ m ∈ (g (σ.clients c)).omsgq, m ∈ σ.omsgq c) : (σ.modClient c g).Accounts := by
  refine accounts.frame rfl rfl (fun c' m inside => ?_) (fun _ => ⟨rfl, rfl, rfl, rfl, rfl⟩)
    fun _ _ => Or.inl
  rw [omsgq_modClient] at inside
  split at inside
  · rename_i here
    rw [here]
    exact sub m inside
  · exact inside

theorem Accounts.coalesce (accounts : σ.Accounts) {o : Nat} (settled : σ.Settled o) :
    (σ.coalesce o).Accounts := by
  refine accounts.frame rfl rfl (fun _ _ => id) (fun x => ?_) fun o' self marked => ?_
  · obtain ⟨fdone, eq⟩ := coalesce_msgs σ o x
    rw [eq]
    exact ⟨rfl, rfl, rfl, rfl, rfl⟩
  · rw [coalesce_fdone, Bool.or_eq_true, decide_eq_true_iff] at marked
    refine marked.imp_right fun member => ?_
    have same : o' = o := Option.some.inj (self.symm.trans member)
    rw [same]
    exact settled.counted

theorem Accounts.markDone (accounts : σ.Accounts) (sound : σ.Sound) {c m : Nat}
    {before after : List Nat} (queue : σ.omsgq c = before ++ m :: after)
    (complete : ∀ x ∈ before, σ.Complete x) : (σ.markDone before.reverse m after).Accounts := by
  rcases markDone_eq_coalesce sound.custody sound.vectors queue complete with
    same | ⟨o, settled, eq⟩
  · rw [same]
    exact accounts
  · rw [eq]
    exact accounts.coalesce settled

theorem Accounts.wakeOwner (accounts : σ.Accounts) (sound : σ.Sound) (m : Nat) :
    (σ.wakeOwner m).Accounts := by
  unfold Proxy.wakeOwner
  split
  · rename_i c _
    unfold Proxy.wake
    split
    · exact accounts
    · rename_i m after queue
      split
      · have queued : σ.omsgq c = [] ++ m :: after := queue
        have marked := accounts.markDone sound queued fun _ inside => by cases inside
        exact marked.modClient c fun _ => id
      · exact accounts
  · exact accounts

theorem Accounts.offered (accounts : σ.Accounts) (sound : σ.Sound) {c m : Nat}
    {before after : List Nat} (queue : σ.omsgq c = before ++ m :: after)
    (complete : ∀ x ∈ before, σ.Complete x) : (σ.offered c before m after).Accounts := by
  have marked := accounts.markDone sound queue complete
  have told : ((σ.markDone before.reverse m after).makeError before.reverse m after).Accounts := by
    have neutral := Neutral.makeError (σ.markDone before.reverse m after) before.reverse m after
    refine marked.frame neutral.fresh ?_ (fun c x inside => ?_) (fun x => ?_) fun o _ fdone => ?_
    · obtain ⟨msgs', eq', -⟩ :=
        markError_eq (σ.markDone before.reverse m after) before.reverse m after
      unfold makeError
      rw [eq']
      rfl
    · rwa [neutral.omsgq] at inside
    · exact ⟨neutral.fragOwner x, neutral.swallow x, neutral.done x, neutral.nfrag x,
        neutral.nfragDone x⟩
    · rw [neutral.fdone] at fdone
      exact Or.inl fdone
  have omsgq :=
    (Neutral.makeError (σ.markDone before.reverse m after) before.reverse m after).omsgq c
  unfold Proxy.offered
  dsimp only
  split
  · split
    · refine told.modClient c fun x inside => ?_
      rw [omsgq, (Alike.markDone σ before.reverse m after).omsgq, queue]
      simp only [List.mem_append, List.mem_cons] at inside ⊢
      exact inside.imp_right (Or.imp_right List.mem_of_mem_drop)
    · exact told
  · exact marked

/-! ## New messages -/

section New

variable {r : Req} (fresh : σ'.fresh = σ.fresh + 1)
  (msgs : σ'.msgs = Function.update σ.msgs σ.fresh r)

include fresh msgs

theorem Accounts.new (accounts : σ.Accounts) (vectors : σ.Vectors)
    (refused : σ'.refused = σ.refused)
    (omsgq : ∀ c, ∀ m ∈ σ'.omsgq c, m ∈ σ.omsgq c ∨ m = σ.fresh)
    (plain : r.fdone = false ∧ r.nfragDone = 0 ∧ (r.swallow = true → r.fragOwner = none))
    (undone : r.done = false ∨ r.fragOwner = none ∨ r.fragOwner = some σ.fresh) :
    σ'.Accounts := by
  obtain ⟨unmarked, none, own⟩ := plain
  have new := msgs_fresh msgs
  have unborn : σ.fresh ∉ σ.refused := fun inside =>
    Nat.lt_irrefl _ (accounts.refused_lt _ inside)
  have stranger : ∀ m, (σ.msgs m).fragOwner ≠ some σ.fresh := by
    intro m member
    exact Nat.lt_irrefl _ (vectors.lt_fresh (vectors.family m _ member).1)
  have old : ∀ m o, (σ.msgs m).fragOwner = some o → σ'.msgs m = σ.msgs m :=
    fun m o member => msgs_of_lt msgs (vectors.lt_fresh member)
  have nrefused : ∀ o, σ'.nrefused o = σ.nrefused o := by
    intro o
    unfold Proxy.nrefused
    rw [fragments_of_new fresh msgs, refused, List.countP_append]
    split
    · simp [unborn]
    · simp
  have ndone : ∀ o, o ≠ σ.fresh → σ'.ndone o = σ.ndone o := by
    intro o other
    unfold Proxy.ndone
    rw [fragments_of_new fresh msgs, List.countP_append]
    have same : (σ.fragments o).countP (fun x => (σ'.msgs x).done) =
        (σ.fragments o).countP fun x => (σ.msgs x).done := by
      refine List.countP_congr fun x inside => ?_
      rw [msgs_of_lt msgs (mem_fragments.mp inside).1]
    rw [same]
    split
    · rename_i fragment
      have open' : r.done = false := by
        refine undone.resolve_right fun single => ?_
        rcases single with single | self
        · rw [single] at fragment
          cases fragment.2
        · rw [self] at fragment
          exact other (Option.some.inj fragment.2).symm
      simp [new, open']
    · simp
  constructor
  · intro m inside
    rw [refused] at inside
    rw [fresh]
    exact Nat.lt_succ_of_lt (accounts.refused_lt m inside)
  · intro m inside
    rw [refused] at inside
    rw [msgs_of_lt msgs (accounts.refused_lt m inside)]
    exact accounts.refused_done m inside
  · intro o self marked
    by_cases here : o = σ.fresh
    · rw [here, new, unmarked] at marked
      cases marked
    · rw [msgs, Function.update_of_ne here] at self marked ⊢
      exact accounts.marked o self marked
  · intro m o member swallow c inside
    by_cases here : m = σ.fresh
    · rw [here, new] at member swallow
      rw [own swallow] at member
      cases member
    · rw [msgs, Function.update_of_ne here] at member swallow
      refine accounts.swallowed m o member swallow c ((omsgq c o inside).resolve_right ?_)
      rintro rfl
      exact stranger m member
  · intro c o inside self
    rw [nrefused]
    by_cases here : o = σ.fresh
    · have empty : σ.fragments o = [] := by
        refine List.eq_nil_iff_forall_not_mem.mpr fun x inside => ?_
        rw [here] at inside
        exact stranger x (mem_fragments.mp inside).2.2
      have empty' : σ'.fragments o = [] := by
        rw [fragments_of_new fresh msgs, empty, if_neg fun both => both.1 here.symm]
        rfl
      unfold Proxy.nrefused Proxy.ndone
      rw [empty, empty', here, new, none]
      rfl
    · rw [msgs, Function.update_of_ne here] at self
      rw [ndone o here, old o o self]
      exact accounts.balance c o ((omsgq c o inside).resolve_right here) self

end New

theorem Accounts.addAuth (accounts : σ.Accounts) (vectors : σ.Vectors) (s : Nat)
    (owner : Option Nat) : (σ.addAuth hs s owner).Accounts := by
  unfold Proxy.addAuth
  split
  · exact accounts.new (r := { owner := owner, swallow := true }) rfl rfl vectors rfl
      (fun _ _ => Or.inl) ⟨rfl, rfl, fun _ => rfl⟩ (Or.inl rfl)
  · exact accounts

theorem Accounts.postConnect (accounts : σ.Accounts) (vectors : σ.Vectors) (s : Nat) :
    (σ.postConnect hs s).Accounts := by
  unfold Proxy.postConnect
  split
  · exact accounts.new (r := { swallow := true }) rfl rfl vectors rfl
      (fun _ _ => Or.inl) ⟨rfl, rfl, fun _ => rfl⟩ (Or.inl rfl)
  · exact accounts

theorem mem_omsgq_join {c c' m : Nat} {r : Req} (inside : m ∈ (σ.join c r).omsgq c') :
    m ∈ σ.omsgq c' ∨ m = σ.fresh := by
  rw [omsgq_join] at inside
  split at inside
  · rename_i here
    rw [here]
    simpa using inside
  · exact Or.inl inside

/-! ## Messages that become done -/

section Done

variable {m : Nat}

/-- A message that becomes done is counted, is recorded as refused, or was given up with its
client. -/
theorem Accounts.finishes (accounts : σ.Accounts) (done : Finishes σ σ' m)
    (lt : m < σ.fresh) (swallow : ∀ x, (σ'.msgs x).swallow = (σ.msgs x).swallow)
    (books : ∀ o, (σ.msgs o).fragOwner = some o → (∃ c, o ∈ σ.omsgq c) →
      (σ'.msgs o).nfragDone + σ'.nrefused o =
        (σ.msgs o).nfragDone + σ.nrefused o +
          if m ∈ σ.fragments o ∧ (σ.msgs m).done = false then 1 else 0)
    (more : ∀ o, (σ.msgs o).nfragDone ≤ (σ'.msgs o).nfragDone)
    (refused : σ'.refused = σ.refused ∨ σ'.refused = m :: σ.refused) : σ'.Accounts := by
  have known : ∀ x ∈ σ'.refused, x ∈ σ.refused ∨ x = m := by
    intro x inside
    rcases refused with same | longer
    · exact Or.inl (same ▸ inside)
    · rw [longer] at inside
      exact (List.mem_cons.mp inside).symm
  constructor
  · intro x inside
    rw [done.fresh]
    rcases known x inside with earlier | rfl
    · exact accounts.refused_lt x earlier
    · exact lt
  · intro x inside
    rw [done.done]
    rcases known x inside with earlier | rfl
    · rw [accounts.refused_done x earlier, Bool.true_or]
    · simp
  · intro o self marked
    rw [done.fragOwner] at self
    rw [done.fdone] at marked
    rw [done.nfrag]
    exact Nat.le_trans (accounts.marked o self marked) (more o)
  · intro x o member swallowed c inside
    rw [done.fragOwner] at member
    rw [swallow] at swallowed
    rw [done.omsgq] at inside
    exact accounts.swallowed x o member swallowed c inside
  · intro c o inside self
    rw [done.fragOwner] at self
    rw [done.omsgq] at inside
    rw [done.ndone, books o self ⟨c, inside⟩, accounts.balance c o inside self]

theorem Accounts.markRefused (accounts : σ.Accounts) (sound : σ.Sound)
    (held : σ.current = some m) : (σ.markRefused m).Accounts := by
  obtain ⟨lt, -, undone, -⟩ := sound.custody.held m held
  have finishes : Finishes σ (σ.markRefused m) m :=
    finishes_of_msgs rfl (fun _ => rfl) rfl ⟨rfl, rfl, rfl, rfl, rfl, rfl⟩
  have count := field_markRefused (σ := σ) (m := m) (·.nfragDone) fun _ => rfl
  refine accounts.finishes finishes lt (field_markRefused (·.swallow) fun _ => rfl)
    (fun o _ _ => ?_) (fun o => Nat.le_of_eq (count o).symm) (Or.inr rfl)
  -- the record is longer by the message, which was not on it
  have new : m ∉ σ.refused := by
    intro inside
    rw [accounts.refused_done m inside] at undone
    cases undone
  have recorded : (σ.markRefused m).nrefused o =
      σ.nrefused o + if m ∈ σ.fragments o ∧ decide (m ∈ σ.refused) = false then 1 else 0 := by
    unfold Proxy.nrefused
    rw [fragments_congr finishes.fresh finishes.fragOwner, ← countP_or (nodup_fragments o) m]
    refine List.countP_congr fun x _ => ?_
    simp [Proxy.markRefused, or_comm]
  rw [count, recorded, Nat.add_assoc]
  simp [new, undone]

section Take

variable {s : Nat} {h : ServerConn → ServerConn}
  (perm : (σ.queue s).Perm (m :: ((h (σ.servers s)).imsgq ++ (h (σ.servers s)).omsgq)))

include perm

theorem Accounts.completed (accounts : σ.Accounts) (sound : σ.Sound)
    (wanted : (σ.msgs m).swallow = false) {f : Req → Req}
    (keeps : ∀ r, (f r).owner = r.owner ∧ (f r).swallow = r.swallow ∧
      (f r).noreply = r.noreply ∧ (f r).done = r.done ∧ (f r).fdone = r.fdone ∧
      (f r).fragOwner = r.fragOwner ∧ (f r).nfrag = r.nfrag ∧ (f r).nfragDone = r.nfragDone) :
    ((σ.modServer s h).complete m f).Accounts := by
  have queued : m ∈ σ.queue s := perm.mem_iff.mpr List.mem_cons_self
  have completes : Completes (σ.modServer s h) ((σ.modServer s h).complete m f) m := by
    refine completes_complete fun r => ?_
    obtain ⟨owner, -, noreply, done, fdone, fragOwner, nfrag, -⟩ := keeps r
    exact ⟨owner, noreply, done, fdone, fragOwner, nfrag⟩
  have nfragDone := nfragDone_complete (σ.modServer s h) m
    fun r => (keeps r).2.2.2.2.2.2.2
  have refused : ((σ.modServer s h).complete m f).refused = σ.refused := by
    unfold Proxy.complete
    dsimp only
    split <;> rfl
  have nrefused : ∀ o, ((σ.modServer s h).complete m f).nrefused o = σ.nrefused o := by
    intro o
    unfold Proxy.nrefused
    rw [refused, fragments_congr completes.fresh completes.fragOwner]
    rfl
  refine (accounts.modServer s h).finishes completes.toFinishes
    (sound.custody.server_lt s m queued) ?_ ?_ ?_
    (Or.inl refused)
  · intro x
    refine (complete_msgs (σ.modServer s h) m (fun r => ?_) x).2.1
    obtain ⟨owner, swallow, noreply, done, -⟩ := keeps r
    exact ⟨owner, swallow, noreply, done⟩
  · intro o self _
    have counted : (m ∈ σ.fragments o ∧ (σ.msgs m).done = false) ↔
        (σ.msgs m).fragOwner = some o := by
      rw [sound.vectors.mem_fragments_iff]
      refine ⟨fun both => both.1.2, fun member => ?_⟩
      have answered := (sound.vectors.family m o member).2.2
      have undone := (sound.custody.listed s m queued wanted answered).1
      refine ⟨⟨?_, member⟩, undone⟩
      rintro rfl
      rw [sound.vectors.owner_done m self] at undone
      cases undone
    rw [nrefused, nfragDone]
    have same : ((m ∈ (σ.modServer s h).fragments o ∧ ((σ.modServer s h).msgs m).done = false) ↔
        ((σ.modServer s h).msgs m).fragOwner = some o) := counted
    rw [if_congr same rfl rfl]
    show _ + _ + _ = _ + σ.nrefused o + _
    omega
  · intro o
    rw [nfragDone]
    exact Nat.le_add_right _ _

theorem Accounts.swallow (accounts : σ.Accounts) (sound : σ.Sound)
    (swallowed : (σ.msgs m).swallow = true) :
    ((σ.modServer s h).modMsg m fun r => { r with done := true }).Accounts := by
  have queued : m ∈ σ.queue s := perm.mem_iff.mpr List.mem_cons_self
  have completes : Completes (σ.modServer s h)
      ((σ.modServer s h).modMsg m fun r => { r with done := true }) m :=
    completes_modMsg ⟨rfl, rfl, rfl, rfl, rfl, rfl⟩
  refine (accounts.modServer s h).finishes completes.toFinishes
    (sound.custody.server_lt s m queued)
    (field_modMsg (·.swallow) rfl) (fun o self listed => ?_) (fun o => ?_) (Or.inl rfl)
  · have gone : ¬(m ∈ (σ.modServer s h).fragments o ∧
        ((σ.modServer s h).msgs m).done = false) := by
      rintro ⟨fragment, -⟩
      obtain ⟨c, inside⟩ := listed
      exact accounts.swallowed m o (mem_fragments.mp fragment).2.2 swallowed c inside
    rw [if_neg gone, field_modMsg (·.nfragDone) rfl]
    unfold Proxy.nrefused
    rw [fragments_congr completes.fresh completes.fragOwner]
    rfl
  · rw [field_modMsg (·.nfragDone) rfl]

theorem Accounts.dropped (accounts : σ.Accounts) (sound : σ.Sound)
    (same : (h (σ.servers s)).isOpen = (σ.servers s).isOpen) {silent : Bool}
    (wanted : silent = false → (σ.msgs m).swallow = false) :
    ((σ.modServer s h).drop m silent).Accounts := by
  unfold Proxy.drop
  split
  · exact accounts.modServer s h
  · rename_i loud
    have loud' := wanted (Bool.not_eq_true _ ▸ loud)
    refine Accounts.wakeOwner ?_ ?_ m
    · refine accounts.completed perm sound loud' ?_
      exact fun _ => ⟨rfl, rfl, rfl, rfl, rfl, rfl, rfl, rfl⟩
    · refine sound.completed perm same loud' ?_
      exact fun _ => ⟨rfl, rfl, rfl, rfl, rfl, rfl, rfl, rfl⟩

end Take

end Done

/-! ## All actions -/

theorem Accounts.shutClient (accounts : σ.Accounts) (sound : σ.Sound) (c : Nat) :
    (σ.shutClient c).Accounts := by
  have omsgq : ∀ c', (σ.shutClient c).omsgq c' = if c' = c then [] else σ.omsgq c' :=
    omsgq_modClient c fun _ => {}
  have listed : ∀ c' m, m ∈ (σ.shutClient c).omsgq c' → m ∈ σ.omsgq c' ∧ c' ≠ c := by
    intro c' m inside
    rw [omsgq] at inside
    split at inside
    · cases inside
    · rename_i other
      exact ⟨inside, other⟩
  have msgs : ∀ x, ∃ swallow, (σ.shutClient c).msgs x = { σ.msgs x with swallow := swallow } ∧
      (swallow = true → (σ.msgs x).swallow = true ∨ x ∈ σ.omsgq c) := by
    intro x
    unfold Proxy.shutClient
    dsimp only
    split
    · rename_i both
      exact ⟨true, rfl, fun _ => Or.inr both.1⟩
    · exact ⟨(σ.msgs x).swallow, rfl, Or.inl⟩
  have fragOwner : ∀ x, ((σ.shutClient c).msgs x).fragOwner = (σ.msgs x).fragOwner := by
    intro x
    obtain ⟨swallow, eq, -⟩ := msgs x
    rw [eq]
  have same : ∀ x, ((σ.shutClient c).msgs x).done = (σ.msgs x).done ∧
      ((σ.shutClient c).msgs x).fdone = (σ.msgs x).fdone ∧
      ((σ.shutClient c).msgs x).nfrag = (σ.msgs x).nfrag ∧
      ((σ.shutClient c).msgs x).nfragDone = (σ.msgs x).nfragDone := by
    intro x
    obtain ⟨swallow, eq, -⟩ := msgs x
    rw [eq]
    exact ⟨rfl, rfl, rfl, rfl⟩
  have fragments : ∀ o, (σ.shutClient c).fragments o = σ.fragments o :=
    fragments_congr rfl fragOwner
  constructor
  · exact accounts.refused_lt
  · intro m inside
    rw [(same m).1]
    exact accounts.refused_done m inside
  · intro o self marked
    rw [fragOwner] at self
    rw [(same o).2.1] at marked
    rw [(same o).2.2.1, (same o).2.2.2]
    exact accounts.marked o self marked
  · intro m o member swallowed c' inside
    rw [fragOwner] at member
    obtain ⟨inside, other⟩ := listed c' o inside
    obtain ⟨swallow, eq, why⟩ := msgs m
    rw [eq] at swallowed
    rcases why swallowed with earlier | here
    · exact accounts.swallowed m o member earlier c' inside
    · -- the owner is a request of the same client
      have owner := (sound.custody.owned c m here).1
      rw [(sound.vectors.family m o member).2.1, (sound.custody.owned c' o inside).1] at owner
      exact other (Option.some.inj owner)
  · intro c' o inside self
    rw [fragOwner] at self
    have balance := accounts.balance c' o (listed c' o inside).1 self
    rw [(same o).2.2.2]
    unfold Proxy.nrefused Proxy.ndone at balance ⊢
    simp only [fragments, (same _).1]
    exact balance

theorem Accounts.act (accounts : σ.Accounts) (sound : σ.Sound) {a : Action}
    (enabled : σ.Enabled a) : (σ.act hs a).Accounts := by
  cases a with
  | accept c =>
    simp only [Proxy.act]
    exact accounts.modClient c fun _ inside => by cases inside
  | answer c =>
    simp only [Proxy.act, Proxy.answer]
    refine Accounts.modClient ?_ c fun _ => id
    exact accounts.new
      (r := { owner := some c, noforward := true, done := true, peer := some .own }) rfl rfl
      sound.vectors rfl (fun _ _ => mem_omsgq_join) ⟨rfl, rfl, fun _ => rfl⟩ (Or.inr (Or.inl rfl))
  | fragment c n =>
    refine accounts.new rfl rfl sound.vectors rfl (fun _ _ => mem_omsgq_join) ⟨rfl, rfl, ?_⟩
      (Or.inr (Or.inr rfl))
    exact fun swallow => by cases swallow
  | enqueue c noreply =>
    cases noreply with
    | true =>
      exact accounts.new (r := σ.newMsg c true) rfl rfl sound.vectors rfl (fun _ _ => Or.inl)
        ⟨rfl, rfl, fun swallow => by cases swallow⟩ (Or.inl rfl)
    | false =>
      exact accounts.new (r := σ.newMsg c false) rfl rfl sound.vectors rfl
        (fun _ _ => mem_omsgq_join) ⟨rfl, rfl, fun swallow => by cases swallow⟩ (Or.inl rfl)
  | connect s immediate =>
    simp only [Proxy.act]
    exact accounts.modServer s _
  | forward s =>
    obtain ⟨m, held, act⟩ := enabled.forward hs
    rw [act]
    have authenticated : ((σ.modServer s fun conn =>
        { conn with sendActive := conn.sendActive || conn.imsgq.isEmpty }).addAuth hs s
          (σ.msgs m).owner).Accounts :=
      (accounts.modServer s _).addAuth (sound.vectors.modServer s _) s _
    exact (authenticated.modServer s fun conn => { conn with imsgq := conn.imsgq ++ [m] }).frame
      rfl rfl (fun _ _ => id) (fun _ => ⟨rfl, rfl, rfl, rfl, rfl⟩) fun _ _ => Or.inl
  | refuse =>
    obtain ⟨m, held, act⟩ := enabled.refuse hs
    rw [act, Proxy.refuse]
    split
    · exact accounts.markRefused sound held
    · exact (accounts.markRefused sound held).wakeOwner (sound.markRefused held) m
  | dropIn s =>
    simp only [Proxy.act, Proxy.dropIn]
    split
    · exact accounts
    · rename_i m ms queued
      refine accounts.dropped (queue_of_imsgq queued) sound rfl fun loud => ?_
      exact (Bool.or_eq_false_iff.mp loud).1
  | dropOut s =>
    simp only [Proxy.act, Proxy.dropOut]
    split
    · exact accounts
    · rename_i m ms queued
      exact accounts.dropped (queue_of_omsgq queued) sound rfl id
  | shut s =>
    simp only [Proxy.act]
    exact accounts.modServer s _
  | connected s => exact (accounts.modServer s _).postConnect (sound.vectors.modServer s _) s
  | sent s =>
    simp only [Proxy.act, Proxy.sent]
    split
    · exact accounts
    · split <;> exact accounts.modServer s _
  | serverIdle s =>
    simp only [Proxy.act]
    exact accounts.modServer s _
  | reply s bad =>
    simp only [Proxy.act, Proxy.reply]
    split
    · rename_i m ms b bs queued _
      unfold linked
      split
      · rename_i swallowed
        exact accounts.swallow (queue_of_omsgq queued) sound swallowed
      · rename_i wanted
        have loud : (σ.msgs m).swallow = false := Bool.not_eq_true _ ▸ wanted
        refine Accounts.wakeOwner ?_ ?_ m
        · refine accounts.completed (queue_of_omsgq queued) sound loud ?_
          exact fun _ => ⟨rfl, rfl, rfl, rfl, rfl, rfl, rfl, rfl⟩
        · refine sound.completed (queue_of_omsgq queued) rfl loud ?_
          exact fun _ => ⟨rfl, rfl, rfl, rfl, rfl, rfl, rfl, rfl⟩
    · exact accounts
  | shutClient c => exact accounts.shutClient sound c
  | offer c i =>
    obtain ⟨m, after, queue, -, act⟩ := enabled.offer hs
    obtain ⟨-, -, -, -, complete, -⟩ := enabled
    rw [act]
    exact accounts.offered sound queue complete
  | finish c m =>
    simp only [Proxy.act]
    exact accounts.modClient c fun _ => List.mem_of_mem_erase
  | clientIdle c =>
    simp only [Proxy.act]
    exact accounts.modClient c fun _ => id

theorem accounts_start : ({} : Proxy).Accounts := by
  constructor <;> simp [Proxy.omsgq]

/-! ## The books whenever the event loop waits -/

/-- The count is right if and only if every fragment could be forwarded, and once all fragments are
done the request is found done if and only if the count is right. -/
theorem run_counts_fragments (hs : Handshake) (es : List Event) (runs : Runs hs es) (c o : Nat)
    (listed : o ∈ (run hs {} es).omsgq c) (owner : ((run hs {} es).msgs o).fragOwner = some o) :
    (((run hs {} es).msgs o).nfragDone = (run hs {} es).ndone o ↔
      ∀ x ∈ (run hs {} es).fragments o, x ∉ (run hs {} es).refused) ∧
    ((∀ x ∈ (run hs {} es).fragments o, ((run hs {} es).msgs x).done = true) →
      ∀ before after, (run hs {} es).omsgq c = before ++ o :: after →
        ((run hs {} es).reqDone before.reverse o after = true ↔
          ∀ x ∈ (run hs {} es).fragments o, x ∉ (run hs {} es).refused)) := by
  obtain ⟨waiting, accounts⟩ :=
    runs.invariant accounts_start fun _ _ sound accounts enabled => accounts.act sound enabled
  generalize run hs {} es = σ at *
  have balance := accounts.balance c o listed owner
  refine ⟨?_, fun all before after queue => ?_⟩
  · rw [← nrefused_eq_zero]
    omega
  · have whole : σ.ndone o = (σ.fragments o).length := List.countP_eq_length.mpr all
    have tally := waiting.sound.vectors.tally o owner
    rw [left_of_none waiting.vector, Nat.add_zero] at tally
    have counts : (σ.msgs o).nfrag ≤ (σ.msgs o).nfragDone ↔
        ∀ x ∈ σ.fragments o, x ∉ σ.refused := by
      rw [← nrefused_eq_zero]
      omega
    rw [← counts]
    unfold reqDone
    simp only [waiting.sound.vectors.owner_done o owner, owner, Option.isNone_some, Bool.true_and,
      Bool.false_or, Bool.or_eq_true, Bool.and_eq_true, decide_eq_true_iff]
    constructor
    · rintro (marked | ⟨counted, -⟩)
      · exact accounts.marked o owner marked
      · exact counted
    · intro counted
      refine Or.inr ⟨counted, List.all_eq_true.mpr fun x inside => ?_⟩
      have member : (σ.msgs x).fragOwner = some o := by
        rw [← owner]
        rcases List.mem_append.mp inside with here | here <;> exact (mem_siblings here).2
      by_cases here : x = o
      · rw [here]
        exact waiting.sound.vectors.owner_done o owner
      · exact all x (waiting.sound.vectors.mem_fragments_iff.mpr ⟨here, member⟩)

/-- One fragment fails with its connection and the other is answered: both are counted. -/
theorem run_counts_fragments_closed :
    let σ := run ⟨false, false⟩ {} [.accept 0, .vector 0 [.on 0 true, .on 1 true], .serverClose 0,
      .serverWritable 1 1 true, .serverReply 1 .good]
    (σ.msgs 0).nfragDone = σ.ndone 0 :=
  (run_counts_fragments _ _ (by decide) 0 0 (by decide) (by decide)).1.mpr (by decide)

/-- One fragment cannot be forwarded, as no server is alive, and the other is answered: both are
done, but only one is counted, and the request is not found done. -/
theorem run_miscounts_refused_fragment :
    let es : List Event := [.accept 0, .vector 0 [.refused, .on 1 true], .serverWritable 1 1 true,
      .serverReply 1 .good]
    let σ := run ⟨false, false⟩ {} es
    Runs ⟨false, false⟩ es ∧ σ.omsgq 0 = [0, 1, 2] ∧
      (∀ x ∈ σ.fragments 0, (σ.msgs x).done = true) ∧
      (σ.msgs 0).nfragDone = 1 ∧ σ.ndone 0 = 2 ∧ σ.reqDone [] 0 [1, 2] = false := by
  dsimp only
  decide

end Nutcracker.Proxy
