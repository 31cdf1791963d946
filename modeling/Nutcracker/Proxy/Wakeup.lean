import Nutcracker.Proxy.Conservation

/-!
# No lost wake-up

A write event is registered for every server connection with something to write, and
for every client whose first request is done.  The interest is dropped by the two
`send_next` functions only, and whatever fills a queue or completes its first request
registers it again.
-/

namespace Nutcracker.Proxy

variable {hs : Handshake} {σ σ' : Proxy}

/-! ## Server connections -/

/-- There is a write event for what the connection has to write, and for its establishment. -/
def ServerAwake (conn : ServerConn) : Prop :=
  conn.imsgq ≠ [] ∨ conn.connecting = true → conn.sendActive = true

theorem awake_modServer (awake : ∀ s, ServerAwake (σ.servers s)) (s : Nat)
    {h : ServerConn → ServerConn} (keep : ServerAwake (h (σ.servers s))) (s' : Nat) :
    ServerAwake ((σ.modServer s h).servers s') := by
  rw [servers_modServer, Function.update_apply]
  split
  · exact keep
  · exact awake s'

theorem servers_refuse (m : Nat) : (σ.refuse m).servers = σ.servers := by
  unfold Proxy.refuse
  split
  · rfl
  · rw [servers_wakeOwner, servers_markRefused]

theorem servers_linked (m b : Nat) (bad : Bool) : (σ.linked m b bad).servers = σ.servers := by
  unfold linked
  split
  · rfl
  · rw [servers_wakeOwner]
    exact (complete_rest σ m _).2.2.1

/-- An offer marks messages, and may shorten the queue of the client. -/
theorem offer_eq (σ : Proxy) (c i : Nat) :
    ∃ msgs log queue, σ.offer c i =
      ({ σ with msgs := msgs, log := log } : Proxy).modClient c
        fun conn => { conn with omsgq := queue } := by
  have same (τ : Proxy) :
      τ = τ.modClient c fun conn => { conn with omsgq := (τ.clients c).omsgq } := by
    unfold modClient
    rw [Function.update_eq_self]
  unfold Proxy.offer
  split
  · exact ⟨_, _, _, same σ⟩
  · rename_i m after _
    obtain ⟨msgs, log, eq, -⟩ := markDone_eq σ ((σ.omsgq c).take i).reverse m after
    obtain ⟨msgs', eq', -⟩ := markError_eq
      (σ.markDone ((σ.omsgq c).take i).reverse m after) ((σ.omsgq c).take i).reverse m after
    have told : (σ.markDone ((σ.omsgq c).take i).reverse m after).makeError
        ((σ.omsgq c).take i).reverse m after =
          { σ with
            msgs := Function.update msgs' m { msgs' m with peer := some .own }
            log := log } := by
      unfold makeError
      rw [eq', eq]
      rfl
    unfold Proxy.offered
    dsimp only
    split
    · split
      · rw [told]
        exact ⟨_, _, _, rfl⟩
      · rw [told]
        exact ⟨_, _, _, same _⟩
    · rw [eq]
      exact ⟨_, _, _, same _⟩

theorem servers_offer (c i : Nat) : (σ.offer c i).servers = σ.servers := by
  obtain ⟨msgs, log, queue, eq⟩ := offer_eq σ c i
  rw [eq]
  rfl

theorem servers_forward (s m : Nat) : (σ.forward hs s m).servers =
    Function.update σ.servers s { σ.servers s with
      sendActive := (σ.servers s).sendActive || (σ.servers s).imsgq.isEmpty
      authenticated := (σ.servers s).authenticated || hs.requireAuth
      imsgq := (σ.servers s).imsgq ++
        (if hs.requireAuth && !(σ.servers s).authenticated then [σ.fresh] else []) ++ [m] } := by
  unfold Proxy.forward Proxy.addAuth
  cases required : hs.requireAuth
  · simp
  · cases known : (σ.servers s).authenticated
    · simp [known]
    · simp [known]

theorem awake_forward (awake : ∀ s, ServerAwake (σ.servers s)) (s m s' : Nat) :
    ServerAwake ((σ.forward hs s m).servers s') := by
  -- an empty queue gets the event now, any other has it
  have active : ServerAwake { σ.servers s with
      sendActive := (σ.servers s).sendActive || (σ.servers s).imsgq.isEmpty } ∧
      ((σ.servers s).sendActive || (σ.servers s).imsgq.isEmpty) = true := by
    have now : ((σ.servers s).sendActive || (σ.servers s).imsgq.isEmpty) = true := by
      cases queued : (σ.servers s).imsgq with
      | nil => simp
      | cons x xs =>
        rw [awake s (Or.inl (by rw [queued]; exact List.cons_ne_nil _ _)), Bool.true_or]
    exact ⟨fun _ => now, now⟩
  have first := awake_modServer awake s (h := fun conn =>
    { conn with sendActive := conn.sendActive || conn.imsgq.isEmpty }) active.1
  unfold Proxy.forward
  rw [servers_release]
  refine awake_modServer (fun s'' => ?_) s ?_ s'
  · unfold Proxy.addAuth
    split
    · refine awake_modServer (fun t => ?_) s (fun _ => ?_) s''
      · exact first t
      · simpa using active.2
    · exact first s''
  · intro _
    unfold Proxy.addAuth
    split
    · simpa using active.2
    · simpa using active.2

/-- Every action keeps the write events of the server connections. -/
theorem awake_servers_act (awake : ∀ s, ServerAwake (σ.servers s)) {a : Action}
    (enabled : σ.Enabled a) (s' : Nat) : ServerAwake ((σ.act hs a).servers s') := by
  cases a with
  | accept c => exact awake s'
  | answer c => exact awake s'
  | fragment c n => exact awake s'
  | enqueue c noreply =>
    cases noreply
    · exact awake s'
    · exact awake s'
  | connect s immediate =>
    exact awake_modServer awake s (h := fun _ =>
      { isOpen := true, connecting := !immediate, sendActive := true }) (fun _ => rfl) s'
  | forward s =>
    obtain ⟨m, held, act⟩ := enabled.forward hs
    rw [act]
    exact awake_forward awake s m s'
  | refuse =>
    obtain ⟨m, held, act⟩ := enabled.refuse hs
    rw [act]
    rw [servers_refuse]
    exact awake s'
  | dropIn s =>
    simp only [Proxy.act, Proxy.dropIn]
    split
    · exact awake s'
    · rename_i m ms queued
      rw [servers_drop]
      refine awake_modServer awake s (fun _ => ?_) s'
      exact awake s (Or.inl (by rw [queued]; exact List.cons_ne_nil _ _))
  | dropOut s =>
    simp only [Proxy.act, Proxy.dropOut]
    split
    · exact awake s'
    · rw [servers_drop]
      exact awake_modServer awake s (awake s) s'
  | shut s =>
    refine awake_modServer awake s (h := fun _ => {}) ?_ s'
    intro busy
    simp at busy
  | connected s =>
    have active := awake s (Or.inr enabled.2)
    simp only [Proxy.act, postConnect]
    split
    · refine awake_modServer (fun t => ?_) s (fun _ => ?_) s'
      · exact awake_modServer awake s (h := fun conn => { conn with connecting := false })
          (fun _ => active) t
      · simpa using active
    · exact awake_modServer awake s (fun _ => active) s'
  | sent s =>
    have active := awake s (Or.inl enabled.1)
    simp only [Proxy.act, Proxy.sent]
    split
    · exact awake s'
    · split
      · exact awake_modServer awake s (fun _ => active) s'
      · exact awake_modServer awake s (fun _ => active) s'
  | serverIdle s =>
    refine awake_modServer awake s (h := fun conn => { conn with sendActive := false }) ?_ s'
    intro busy
    simp [enabled.1, enabled.2] at busy
  | reply s bad =>
    simp only [Proxy.act, Proxy.reply]
    split
    · rw [servers_linked]
      exact awake_modServer awake s (awake s) s'
    · exact awake s'
  | shutClient c => exact awake s'
  | offer c i =>
    simp only [Proxy.act, servers_offer]
    exact awake s'
  | finish c m => exact awake s'
  | clientIdle c => exact awake s'

/-! ## Client connections -/

/-- If the first request of the client is done, there is a write event for its reply. -/
def ClientAwake (σ : Proxy) (c : Nat) : Prop :=
  ∀ m after, σ.omsgq c = m :: after → σ.reqDone [] m after = true →
    (σ.clients c).sendActive = true

/-- The marks of a message that `req_done` looks at. -/
def SameMarks (r r' : Req) : Prop :=
  r'.done = r.done ∧ r'.fdone = r.fdone ∧ r'.fragOwner = r.fragOwner ∧ r'.nfrag = r.nfrag ∧
    r'.nfragDone = r.nfragDone

theorem siblings_congr {m : Nat} {queue : List Nat}
    (owner : (σ'.msgs m).fragOwner = (σ.msgs m).fragOwner)
    (same : ∀ x ∈ queue, (σ'.msgs x).fragOwner = (σ.msgs x).fragOwner) :
    σ'.siblings m queue = σ.siblings m queue := by
  unfold siblings
  rw [owner]
  induction queue with
  | nil => rfl
  | cons x queue ih =>
    rw [List.takeWhile_cons, List.takeWhile_cons, same x List.mem_cons_self,
      ih fun y inside => same y (List.mem_cons_of_mem _ inside)]

theorem reqDone_congr {m : Nat} {after : List Nat}
    (same : ∀ x ∈ m :: after, SameMarks (σ.msgs x) (σ'.msgs x)) :
    σ'.reqDone [] m after = σ.reqDone [] m after := by
  obtain ⟨done, fdone, fragOwner, nfrag, nfragDone⟩ := same m List.mem_cons_self
  have siblings : σ'.siblings m after = σ.siblings m after :=
    siblings_congr fragOwner fun x inside => (same x (List.mem_cons_of_mem _ inside)).2.2.1
  have all : ((σ.siblings m after).all fun x => (σ'.msgs x).done) =
      (σ.siblings m after).all fun x => (σ.msgs x).done := by
    rw [Bool.eq_iff_iff, List.all_eq_true, List.all_eq_true]
    refine forall_congr' fun x => forall_congr' fun inside => ?_
    rw [(same x (List.mem_cons_of_mem _ (mem_siblings inside).1)).1]
  unfold reqDone
  dsimp only
  rw [show σ'.siblings m [] = [] from rfl, show σ.siblings m [] = [] from rfl, List.nil_append,
    List.nil_append, done, fdone, fragOwner, nfrag, nfragDone, siblings, all]

theorem ClientAwake.frame {c : Nat} (awake : σ.ClientAwake c) (omsgq : σ'.omsgq c = σ.omsgq c)
    (active : (σ.clients c).sendActive = true → (σ'.clients c).sendActive = true)
    (same : ∀ x ∈ σ.omsgq c, SameMarks (σ.msgs x) (σ'.msgs x)) : σ'.ClientAwake c := by
  intro m after queue found
  rw [omsgq] at queue
  rw [queue] at same
  rw [reqDone_congr same] at found
  exact active (awake m after queue found)

section Client

variable {c c' : Nat} {g : ClientConn → ClientConn}

theorem ClientAwake.other (awake : σ.ClientAwake c') (other : c' ≠ c) :
    (σ.modClient c g).ClientAwake c' := by
  refine awake.frame ?_ ?_ fun x _ => ⟨rfl, rfl, rfl, rfl, rfl⟩
  · rw [omsgq_modClient, if_neg other]
  · rw [clients_modClient, Function.update_of_ne other]
    exact id

theorem awake_modClient (awake : ∀ c, σ.ClientAwake c) (own : (σ.modClient c g).ClientAwake c) :
    (σ.modClient c g).ClientAwake c' := by
  by_cases here : c' = c
  · rw [here]
    exact own
  · exact (awake c').other here

theorem clientAwake_of_nil (empty : σ.omsgq c = []) : σ.ClientAwake c := by
  intro m after queue
  rw [empty] at queue
  cases queue

theorem awake_shutClient (awake : ∀ c, σ.ClientAwake c) (c' : Nat) :
    (σ.shutClient c).ClientAwake c' := by
  have omsgq : (σ.shutClient c).omsgq c' = if c' = c then [] else σ.omsgq c' :=
    omsgq_modClient c (fun _ => {}) c'
  by_cases here : c' = c
  · rw [if_pos here] at omsgq
    exact clientAwake_of_nil omsgq
  · rw [if_neg here] at omsgq
    refine (awake c').frame omsgq (fun on => ?_) fun x _ => ?_
    · simp only [Proxy.shutClient, Function.update_of_ne here]
      exact on
    · simp only [Proxy.shutClient]
      split <;> exact ⟨rfl, rfl, rfl, rfl, rfl⟩

/-- The interest in a client is dropped when its first request is not done. -/
theorem awake_clientIdle (awake : ∀ c, σ.ClientAwake c)
    (idle : ∀ m after, σ.omsgq c = m :: after → σ.reqDone [] m after = false) (c' : Nat) :
    (σ.modClient c fun conn => { conn with sendActive := false }).ClientAwake c' := by
  refine awake_modClient awake fun m after queue found => ?_
  rw [(Alike.active c false).omsgq c] at queue
  have same : (σ.modClient c fun conn => { conn with sendActive := false }).reqDone [] m after =
      σ.reqDone [] m after := reqDone_congr fun x _ => ⟨rfl, rfl, rfl, rfl, rfl⟩
  rw [same, idle m after queue] at found
  cases found

end Client

/-- Marking a request touches messages of its client only. -/
theorem markDone_msgs {c m : Nat} {before after : List Nat}
    (queue : ∀ x ∈ m :: (before ++ after), x ∈ σ.omsgq c) {x : Nat} (outside : x ∉ σ.omsgq c) :
    (σ.markDone before m after).msgs x = σ.msgs x := by
  unfold markDone
  split
  · rfl
  · split
    · dsimp only
      refine if_neg fun inside => outside (queue x ?_)
      simp only [List.mem_cons, List.mem_append] at inside ⊢
      rcases inside with here | here | here
      · exact Or.inl here
      · exact Or.inr (Or.inl (mem_siblings here).1)
      · exact Or.inr (Or.inr (mem_siblings here).1)
    · rfl

/-- Waking a client does what it is for, and nothing to the others. -/
theorem awake_wake (custody : σ.Custody) {c : Nat} (awake : ∀ c', c' ≠ c → σ.ClientAwake c')
    (c' : Nat) : (σ.wake c).ClientAwake c' := by
  by_cases here : c' = c
  · subst here
    intro m after queue found
    have queue' : σ.omsgq c' = m :: after := by
      rw [← queue, (Alike.wake c').omsgq]
    unfold Proxy.wake at found ⊢
    rw [queue'] at found ⊢
    dsimp only at found ⊢
    split
    · simp
    · rename_i undone
      rw [if_neg undone] at found
      exact absurd found undone
  · refine (awake c' here).frame ((Alike.wake c).omsgq c') (fun active => ?_) fun x inside => ?_
    · obtain ⟨msgs, log, act, eq, -⟩ := wake_eq σ c
      rw [eq, clients_modClient, Function.update_of_ne here]
      exact active
    · have outside : x ∉ σ.omsgq c := by
        intro also
        have owner := (custody.owned c x also).1
        rw [(custody.owned c' x inside).1] at owner
        exact here (Option.some.inj owner)
      have same : (σ.wake c).msgs x = σ.msgs x := by
        unfold Proxy.wake
        split
        · rfl
        · rename_i m after queue
          split
          · rw [msgs_modClient]
            refine markDone_msgs (c := c) (fun y listed => ?_) outside
            rw [queue]
            exact listed
          · rfl
      rw [same]
      exact ⟨rfl, rfl, rfl, rfl, rfl⟩

/-- The first request is not done earlier because more requests follow it. -/
theorem reqDone_of_append {m : Nat} {after more : List Nat}
    (found : σ.reqDone [] m (after ++ more) = true) : σ.reqDone [] m after = true := by
  have sub : ∀ x ∈ σ.siblings m after, x ∈ σ.siblings m (after ++ more) := by
    have sublist : (σ.siblings m after).Sublist (σ.siblings m (after ++ more)) := by
      unfold siblings
      rw [List.takeWhile_append]
      split
      · rename_i whole
        rw [(List.takeWhile_prefix _).eq_of_length whole]
        exact List.sublist_append_left _ _
      · exact List.Sublist.refl _
    exact sublist.subset
  unfold reqDone at found ⊢
  dsimp only at found ⊢
  simp only [Bool.and_eq_true, Bool.or_eq_true, List.all_eq_true, List.mem_append] at found ⊢
  refine ⟨found.1, found.2.imp_right fun parts => ⟨parts.1, fun x inside => parts.2 x ?_⟩⟩
  exact inside.imp_right (sub x)

section New

variable {r : Req} {c : Nat} (msgs : σ'.msgs = Function.update σ.msgs σ.fresh r)

include msgs

theorem ClientAwake.new (awake : σ.ClientAwake c) (lt : ∀ x ∈ σ.omsgq c, x < σ.fresh)
    (omsgq : σ'.omsgq c = σ.omsgq c)
    (active : (σ'.clients c).sendActive = (σ.clients c).sendActive) : σ'.ClientAwake c := by
  refine awake.frame omsgq (fun on => active.trans on) fun x inside => ?_
  rw [msgs_of_lt msgs (lt x inside)]
  exact ⟨rfl, rfl, rfl, rfl, rfl⟩

/-- A new request at the end of the queue is no reason for a write event, unless it is done. -/
theorem ClientAwake.join (awake : σ.ClientAwake c) (lt : ∀ x ∈ σ.omsgq c, x < σ.fresh)
    (omsgq : σ'.omsgq c = σ.omsgq c ++ [σ.fresh])
    (active : (σ'.clients c).sendActive = (σ.clients c).sendActive)
    (undone : r.done = false ∨ (r.fragOwner.isSome = true ∧ r.fdone = false ∧
      r.nfragDone < r.nfrag)) : σ'.ClientAwake c := by
  intro m after queue found
  rw [omsgq] at queue
  rw [active]
  cases earlier : σ.omsgq c with
  | nil =>
    rw [earlier] at queue
    obtain ⟨rfl, rfl⟩ : σ.fresh = m ∧ [] = after := by simpa using queue
    unfold reqDone at found
    rw [msgs_fresh msgs] at found
    rcases undone with undone | ⟨member, unmarked, more⟩
    · simp [undone] at found
    · simp only [unmarked, Bool.or_false, Bool.and_eq_true, Bool.or_eq_true, decide_eq_true_iff,
        Option.isNone_iff_eq_none] at found
      rcases found.2 with none | ⟨all, -⟩
      · rw [none] at member
        cases member
      · omega
  | cons m' rest =>
    rw [earlier] at queue
    obtain ⟨rfl, rfl⟩ : m' = m ∧ rest ++ [σ.fresh] = after := by simpa using queue
    refine awake m' rest earlier ?_
    have same : σ'.reqDone [] m' rest = σ.reqDone [] m' rest := by
      refine reqDone_congr fun x inside => ?_
      rw [msgs_of_lt msgs (lt x (earlier ▸ inside))]
      exact ⟨rfl, rfl, rfl, rfl, rfl⟩
    rw [← same]
    exact reqDone_of_append found

end New

section Join

variable {r : Req} {c : Nat} (sound : σ.Sound) (awake : ∀ c, σ.ClientAwake c)

include sound awake

theorem awake_alloc (c' : Nat) : (σ.alloc r).ClientAwake c' :=
  (awake c').new rfl (sound.custody.client_lt c') rfl rfl

theorem awake_join (undone : r.done = false ∨ (r.fragOwner.isSome = true ∧ r.fdone = false ∧
    r.nfragDone < r.nfrag)) (c' : Nat) : (σ.join c r).ClientAwake c' := by
  refine awake_modClient (awake_alloc sound awake) ?_
  refine (awake c).join rfl (sound.custody.client_lt c) ?_ ?_ undone
  · exact (omsgq_join c r c).trans (if_pos rfl)
  · simp

theorem awake_answer (c' : Nat) : (σ.answer c).ClientAwake c' := by
  by_cases here : c' = c
  · subst here
    intro _ _ _ _
    simp [Proxy.answer]
  · exact ((awake_alloc sound awake c').other here).other here

end Join

/-- A message becomes done, its owner counts it, and its client is told. -/
theorem awake_done {m : Nat} (sound : σ.Sound) (awake : ∀ c, σ.ClientAwake c)
    (custody : σ'.Custody) (omsgq : ∀ c, σ'.omsgq c = σ.omsgq c)
    (active : ∀ c, (σ'.clients c).sendActive = (σ.clients c).sendActive)
    (owner : (σ'.msgs m).owner = (σ.msgs m).owner)
    (same : ∀ x, x ≠ m → (σ.msgs m).fragOwner ≠ some x → SameMarks (σ.msgs x) (σ'.msgs x))
    (c' : Nat) : (σ'.wakeOwner m).ClientAwake c' := by
  have others : ∀ c, (σ.msgs m).owner ≠ some c → σ'.ClientAwake c := by
    intro c other
    refine (awake c).frame (omsgq c) (fun on => (active c).trans on) fun x inside => ?_
    have owned := (sound.custody.owned c x inside).1
    refine same x ?_ fun member => ?_
    · rintro rfl
      exact other owned
    · exact other ((sound.vectors.family m x member).2.1.trans owned)
  unfold Proxy.wakeOwner
  rw [owner]
  cases client : (σ.msgs m).owner with
  | none => exact others c' (by rw [client]; exact Option.some_ne_none c' ∘ Eq.symm)
  | some c =>
    refine awake_wake custody (fun c'' other => others c'' ?_) c'
    rw [client]
    exact fun same => other (Option.some.inj same).symm

theorem complete_other (σ : Proxy) {m x : Nat} {f : Req → Req} (other : x ≠ m)
    (stranger : (σ.msgs m).fragOwner ≠ some x) : (σ.complete m f).msgs x = σ.msgs x := by
  unfold Proxy.complete
  dsimp only
  split
  · rename_i o member
    have elsewhere : x ≠ o := by
      rintro rfl
      exact stranger member
    rw [msgs_modMsg, Function.update_of_ne elsewhere, msgs_modMsg, Function.update_of_ne other]
  · rw [msgs_modMsg, Function.update_of_ne other]

section Take

variable {s m : Nat} {h : ServerConn → ServerConn}
  (perm : (σ.queue s).Perm (m :: ((h (σ.servers s)).imsgq ++ (h (σ.servers s)).omsgq)))
  (same : (h (σ.servers s)).isOpen = (σ.servers s).isOpen)

include perm same

theorem awake_completed (sound : σ.Sound) (awake : ∀ c, σ.ClientAwake c) {f : Req → Req}
    (keeps : ∀ r, (f r).owner = r.owner ∧ (f r).swallow = r.swallow ∧
      (f r).noreply = r.noreply ∧ (f r).done = r.done) (c : Nat) :
    (((σ.modServer s h).complete m f).wakeOwner m).ClientAwake c := by
  obtain ⟨-, clients, -⟩ := complete_rest (σ.modServer s h) m f
  refine awake_done sound awake (sound.custody.completed perm same keeps) ?_ ?_ ?_ ?_ c
  · intro c
    unfold Proxy.omsgq
    rw [clients]
    rfl
  · intro c
    rw [clients]
    rfl
  · exact (complete_msgs (σ.modServer s h) m keeps m).1
  · intro x other stranger
    rw [complete_other (σ.modServer s h) other stranger]
    exact ⟨rfl, rfl, rfl, rfl, rfl⟩

theorem awake_dropped (sound : σ.Sound) (awake : ∀ c, σ.ClientAwake c) (silent : Bool) (c : Nat) :
    ((σ.modServer s h).drop m silent).ClientAwake c := by
  unfold Proxy.drop
  split
  · exact awake c
  · refine awake_completed perm same sound awake ?_ c
    exact fun _ => ⟨rfl, rfl, rfl, rfl⟩

theorem awake_linked (sound : σ.Sound) (awake : ∀ c, σ.ClientAwake c) (b : Nat) (bad : Bool)
    (c : Nat) : ((σ.modServer s h).linked m b bad).ClientAwake c := by
  unfold linked
  split
  · rename_i swallowed
    -- nobody waits for a request whose reply is swallowed
    refine (awake c).frame rfl id fun x inside => ?_
    have other : x ≠ m := by
      rintro rfl
      have unswallowed := (sound.custody.owned c x inside).2.1
      rw [msgs_modServer, unswallowed] at swallowed
      cases swallowed
    rw [msgs_modMsg, Function.update_of_ne other]
    exact ⟨rfl, rfl, rfl, rfl, rfl⟩
  · refine awake_completed perm same sound awake ?_ c
    exact fun _ => ⟨rfl, rfl, rfl, rfl⟩

end Take

theorem awake_refuse (sound : σ.Sound) (awake : ∀ c, σ.ClientAwake c) {m : Nat}
    (held : σ.current = some m) (c : Nat) : (σ.refuse m).ClientAwake c := by
  have marks : ∀ x, x ≠ m → SameMarks (σ.msgs x) ((σ.markRefused m).msgs x) := by
    intro x other
    rw [msgs_markRefused, Function.update_of_ne other]
    exact ⟨rfl, rfl, rfl, rfl, rfl⟩
  unfold Proxy.refuse
  split
  · rename_i quiet
    -- nobody waits for a request without a reply
    refine (awake c).frame rfl id fun x inside => marks x ?_
    rintro rfl
    rw [(sound.custody.owned c x inside).2.2] at quiet
    cases quiet
  · refine awake_done sound awake (sound.markRefused held).custody ?_ ?_ ?_ ?_ c
    · exact fun _ => rfl
    · exact fun _ => rfl
    · rw [msgs_markRefused, Function.update_self]
    · exact fun x other _ => marks x other

theorem awake_offered (sound : σ.Sound) (awake : ∀ c, σ.ClientAwake c) {c m : Nat}
    {before after : List Nat} (active : (σ.clients c).sendActive = true)
    (queue : σ.omsgq c = before ++ m :: after) (complete : ∀ x ∈ before, σ.Complete x)
    (found : σ.reqDone before.reverse m after = true) (c' : Nat) :
    (σ.offered c before m after).ClientAwake c' := by
  by_cases here : c' = c
  · subst here
    intro _ _ _ _
    obtain ⟨-, -, same, -⟩ := offered_spec sound queue complete found
    exact same.trans active
  have neutral := Neutral.makeError (σ.markDone before.reverse m after) before.reverse m after
  have outside : ∀ x ∈ σ.omsgq c', (σ.markDone before.reverse m after).msgs x = σ.msgs x := by
    intro x inside
    refine markDone_msgs (c := c) (fun y listed => ?_) fun also => ?_
    · rw [queue]
      simp only [List.mem_cons, List.mem_append, List.mem_reverse] at listed ⊢
      tauto
    · have owner := (sound.custody.owned c x also).1
      rw [(sound.custody.owned c' x inside).1] at owner
      exact here (Option.some.inj owner)
  obtain ⟨msgs, log, eq, -⟩ := markDone_eq σ before.reverse m after
  have told : ∀ x ∈ σ.omsgq c', SameMarks (σ.msgs x)
      (((σ.markDone before.reverse m after).makeError before.reverse m after).msgs x) := by
    intro x inside
    rw [← outside x inside]
    exact ⟨neutral.done x, neutral.fdone x, neutral.fragOwner x, neutral.nfrag x,
      neutral.nfragDone x⟩
  have clients : ((σ.markDone before.reverse m after).makeError before.reverse m after).clients =
      σ.clients := by
    obtain ⟨msgs', eq', -⟩ :=
      markError_eq (σ.markDone before.reverse m after) before.reverse m after
    unfold makeError
    rw [eq', eq]
    rfl
  unfold Proxy.offered
  dsimp only
  split
  · split
    · refine (awake c').frame ?_ ?_ told
      · rw [omsgq_modClient, if_neg here]
        unfold Proxy.omsgq
        rw [clients]
      · rw [clients_modClient, Function.update_of_ne here, clients]
        exact id
    · refine (awake c').frame ?_ ?_ told
      · unfold Proxy.omsgq
        rw [clients]
      · rw [clients]
        exact id
  · refine (awake c').frame ?_ ?_ fun x inside => ?_
    · rw [eq]
      rfl
    · rw [eq]
      exact id
    · rw [outside x inside]
      exact ⟨rfl, rfl, rfl, rfl, rfl⟩

/-- Every action keeps the write events of the client connections. -/
theorem awake_clients_act (sound : σ.Sound) (awake : ∀ c, σ.ClientAwake c) {a : Action}
    (enabled : σ.Enabled a) (c' : Nat) : (σ.act hs a).ClientAwake c' := by
  cases a with
  | accept c =>
    simp only [Proxy.act]
    refine awake_modClient awake (clientAwake_of_nil ?_)
    rw [omsgq_modClient, if_pos rfl]
  | answer c => exact awake_answer sound awake c'
  | fragment c n => exact awake_join sound awake (Or.inr ⟨rfl, rfl, enabled.2.2.2⟩) c'
  | enqueue c noreply =>
    cases noreply with
    | true => exact awake_alloc sound awake c'
    | false => exact awake_join sound awake (Or.inl rfl) c'
  | connect s immediate => exact awake c'
  | forward s =>
    obtain ⟨m, held, act⟩ := enabled.forward hs
    rw [act]
    unfold Proxy.forward Proxy.addAuth
    split
    · exact awake_alloc sound awake c'
    · exact awake c'
  | refuse =>
    obtain ⟨m, held, act⟩ := enabled.refuse hs
    rw [act]
    exact awake_refuse sound awake held c'
  | dropIn s =>
    simp only [Proxy.act, Proxy.dropIn]
    split
    · exact awake c'
    · rename_i m ms queued
      exact awake_dropped (queue_of_imsgq queued) rfl sound awake _ c'
  | dropOut s =>
    simp only [Proxy.act, Proxy.dropOut]
    split
    · exact awake c'
    · rename_i m ms queued
      exact awake_dropped (queue_of_omsgq queued) rfl sound awake _ c'
  | shut s => exact awake c'
  | connected s =>
    simp only [Proxy.act, postConnect]
    split
    · exact awake_alloc sound awake c'
    · exact awake c'
  | sent s =>
    simp only [Proxy.act, Proxy.sent]
    split
    · exact awake c'
    · split <;> exact awake c'
  | serverIdle s => exact awake c'
  | reply s bad =>
    simp only [Proxy.act, Proxy.reply]
    split
    · rename_i m ms b bs queued _
      exact awake_linked (queue_of_omsgq queued) rfl sound awake b bad c'
    · exact awake c'
  | shutClient c => exact awake_shutClient awake c'
  | offer c i =>
    obtain ⟨m, after, queue, found, act⟩ := enabled.offer hs
    obtain ⟨-, active, -, -, complete, -⟩ := enabled
    rw [act]
    exact awake_offered sound awake active queue complete found c'
  | finish c m =>
    simp only [Proxy.act]
    refine awake_modClient awake fun _ _ _ _ => ?_
    rw [clients_modClient, Function.update_self]
    exact enabled.2.1
  | clientIdle c => exact awake_clientIdle awake enabled c'

/-- There is a write event for all that waits for one. -/
def Awake (σ : Proxy) : Prop :=
  (∀ s, ServerAwake (σ.servers s)) ∧ ∀ c, σ.ClientAwake c

theorem awake_start : ({} : Proxy).Awake := by
  refine ⟨fun s busy => ?_, fun c m after queue => ?_⟩
  · simp at busy
  · cases queue

theorem Awake.act (sound : σ.Sound) (awake : σ.Awake) {a : Action} (enabled : σ.Enabled a) :
    (σ.act hs a).Awake :=
  ⟨awake_servers_act awake.1 enabled, awake_clients_act sound awake.2 enabled⟩

/-- No request that can be sent and no reply that can be delivered waits without a write event. -/
theorem run_keeps_write_events (hs : Handshake) (es : List Event) (runs : Runs hs es) :
    (∀ s, ((run hs {} es).servers s).isOpen = true →
      ((run hs {} es).servers s).imsgq ≠ [] → ((run hs {} es).servers s).sendActive = true) ∧
    (∀ c m after, ((run hs {} es).clients c).isOpen = true →
      (run hs {} es).omsgq c = m :: after → (run hs {} es).reqDone [] m after = true →
        ((run hs {} es).clients c).sendActive = true) := by
  obtain ⟨-, servers, clients⟩ :=
    runs.invariant awake_start fun _ _ sound awake enabled => awake.act sound enabled
  exact ⟨fun s _ busy => servers s (Or.inl busy),
    fun c m after _ queue found => clients c m after queue found⟩

/-- The second request is answered first, which wakes nobody; closing the connection of the first
one does. -/
theorem run_keeps_write_events_close :
    let es : List Event := [.accept 0, .clientWritable 0 [] true, .request 0 false (.on 0 false),
      .request 0 false (.on 1 true), .serverWritable 1 2 true, .serverReply 1 .good,
      .serverReply 1 .good]
    ((run ⟨true, true⟩ {} es).clients 0).sendActive = false ∧
      ((run ⟨true, true⟩ {} (es ++ [.serverClose 0])).clients 0).sendActive = true :=
  ⟨by decide, (run_keeps_write_events _ _ (by decide)).2 0 0 [2] (by decide) (by decide)
    (by decide)⟩

end Nutcracker.Proxy
