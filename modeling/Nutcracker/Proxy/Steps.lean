import Nutcracker.Proxy.Events

/-!
# Handlers are sequences of actions

Whatever an event asks for, the actions its handler takes can be taken.  So what every
action keeps holds in every state the event loop waits in, where no request is halfway
forwarded.
-/

namespace Nutcracker.Proxy

variable {hs : Handshake} {σ σ' σ'' : Proxy}

/-! ## Sequences of actions -/

/-- Actions that can be taken one after the other. -/
def Takes (hs : Handshake) (σ : Proxy) (as : List Action) : Prop :=
  Lib.Along (fun τ a => τ.act hs a) (fun τ a => τ.Enabled a) σ as

/-- The state after a sequence of actions. -/
def outcome (hs : Handshake) (σ : Proxy) (as : List Action) : Proxy :=
  as.foldl (fun τ a => τ.act hs a) σ

/-- One state leads to another by actions that can be taken. -/
def Steps (hs : Handshake) (σ σ' : Proxy) : Prop :=
  ∃ as, Lib.Along (fun τ a => τ.act hs a) (fun τ a => τ.Enabled a) σ as ∧
    as.foldl (fun τ a => τ.act hs a) σ = σ'

theorem Steps.refl (σ : Proxy) : Steps hs σ σ :=
  ⟨[], trivial, rfl⟩

theorem Steps.act (a : Action) (enabled : σ.Enabled a) : Steps hs σ (σ.act hs a) :=
  ⟨[a], ⟨enabled, trivial⟩, rfl⟩

theorem Steps.trans (first : Steps hs σ σ') (second : Steps hs σ' σ'') : Steps hs σ σ'' := by
  obtain ⟨as, along, rfl⟩ := first
  obtain ⟨bs, along', rfl⟩ := second
  exact ⟨as ++ bs, Lib.along_append.mpr ⟨along, along'⟩, List.foldl_append⟩

/-- What every action keeps is kept by sequences of actions. -/
theorem Steps.invariant {inv : Proxy → Prop}
    (keep : ∀ τ a, inv τ → τ.Enabled a → inv (τ.act hs a)) (steps : Steps hs σ σ')
    (start : inv σ) : inv σ' := by
  obtain ⟨as, along, rfl⟩ := steps
  exact along.invariant keep start

theorem Steps.sound (steps : Steps hs σ σ') (sound : σ.Sound) : σ'.Sound :=
  steps.invariant (fun _ _ sound enabled => sound.act enabled) sound

theorem Steps.iterate {a : Action} (n : Nat)
    (enabled : ∀ k < n, ((fun τ : Proxy => τ.act hs a)^[k] σ).Enabled a) :
    Steps hs σ ((fun τ : Proxy => τ.act hs a)^[n] σ) := by
  induction n with
  | zero => exact Steps.refl σ
  | succ n ih =>
    rw [Function.iterate_succ_apply']
    exact (ih fun k lt => enabled k (Nat.lt_succ_of_lt lt)).trans
      (Steps.act _ (enabled n (Nat.lt_succ_self n)))

/-! ## What stays -/

/-- Clients stay connected, and messages keep their clients. -/
structure Calm (σ σ' : Proxy) : Prop where
  fresh : σ.fresh ≤ σ'.fresh
  owner : ∀ m < σ.fresh, (σ'.msgs m).owner = (σ.msgs m).owner
  isOpen : ∀ c, (σ'.clients c).isOpen = (σ.clients c).isOpen

theorem Calm.trans (first : Calm σ σ') (second : Calm σ' σ'') : Calm σ σ'' where
  fresh := Nat.le_trans first.fresh second.fresh
  owner m lt :=
    (second.owner m (Nat.lt_of_lt_of_le lt first.fresh)).trans (first.owner m lt)
  isOpen c := (second.isOpen c).trans (first.isOpen c)

theorem Calm.of_new {r : Req} (fresh : σ'.fresh = σ.fresh + 1)
    (msgs : σ'.msgs = Function.update σ.msgs σ.fresh r)
    (isOpen : ∀ c, (σ'.clients c).isOpen = (σ.clients c).isOpen) : Calm σ σ' where
  fresh := by omega
  owner _ lt := by rw [msgs_of_lt msgs lt]
  isOpen := isOpen

/-- The request that is halfway forwarded stays, too. -/
structure Steady (σ σ' : Proxy) : Prop extends Calm σ σ' where
  current : σ'.current = σ.current
  vector : σ'.vector = σ.vector

theorem Steady.refl (σ : Proxy) : Steady σ σ :=
  ⟨⟨Nat.le_refl _, fun _ _ => rfl, fun _ => rfl⟩, rfl, rfl⟩

theorem Steady.trans (first : Steady σ σ') (second : Steady σ' σ'') : Steady σ σ'' where
  toCalm := first.toCalm.trans second.toCalm
  current := second.current.trans first.current
  vector := second.vector.trans first.vector

theorem Steady.modServer (σ : Proxy) (s : Nat) (h : ServerConn → ServerConn) :
    Steady σ (σ.modServer s h) :=
  ⟨⟨Nat.le_refl _, fun _ _ => rfl, fun _ => rfl⟩, rfl, rfl⟩

theorem Steady.wakeOwner (σ : Proxy) (m : Nat) : Steady σ (σ.wakeOwner m) := by
  have owner := field_wakeOwner (σ := σ) (·.owner) (fun _ => rfl) m
  unfold Proxy.wakeOwner at owner ⊢
  split at owner
  · rename_i c _
    obtain ⟨msgs, log, active, eq, -⟩ := wake_eq σ c
    rw [eq] at owner ⊢
    exact ⟨⟨Nat.le_refl _, fun x _ => owner x, (sameOpen_modClient _ c _ rfl).clients⟩, rfl, rfl⟩
  · exact Steady.refl σ

theorem Steady.complete (σ : Proxy) (m : Nat) {f : Req → Req} (keeps : ∀ r, (f r).owner = r.owner) :
    Steady σ (σ.complete m f) := by
  obtain ⟨fresh, clients, -, current, vector, -⟩ := complete_rest σ m f
  refine ⟨⟨Nat.le_of_eq fresh.symm, fun x _ => ?_, fun c => by rw [clients]⟩, current, vector⟩
  rw [field_complete (·.owner) fun _ _ => rfl]
  split
  · rename_i here
    rw [keeps, here]
  · rfl

theorem Steady.drop (σ : Proxy) (m : Nat) (silent : Bool) : Steady σ (σ.drop m silent) := by
  unfold Proxy.drop
  split
  · exact Steady.refl σ
  · refine Steady.trans ?_ (Steady.wakeOwner _ m)
    exact Steady.complete σ m fun _ => rfl

theorem servers_wakeOwner (σ : Proxy) (m : Nat) : (σ.wakeOwner m).servers = σ.servers := by
  unfold Proxy.wakeOwner
  split
  · rename_i c _
    obtain ⟨msgs, log, active, eq, -⟩ := wake_eq σ c
    rw [eq]
    rfl
  · rfl

theorem servers_drop (σ : Proxy) (m : Nat) (silent : Bool) :
    (σ.drop m silent).servers = σ.servers := by
  unfold Proxy.drop
  split
  · rfl
  · rw [servers_wakeOwner]
    exact (complete_rest σ m _).2.2.1

/-! ## Closing a server connection -/

section Close

variable (σ) (s : Nat)

theorem queues_dropIn : ((σ.act hs (.dropIn s)).servers s).imsgq = (σ.servers s).imsgq.tail ∧
    ((σ.act hs (.dropIn s)).servers s).omsgq = (σ.servers s).omsgq := by
  simp only [Proxy.act, Proxy.dropIn]
  split
  · rename_i empty
    simp [empty]
  · rename_i m ms queued
    rw [servers_drop, servers_modServer, Function.update_self, queued]
    exact ⟨rfl, rfl⟩

theorem queues_dropOut : ((σ.act hs (.dropOut s)).servers s).omsgq = (σ.servers s).omsgq.tail ∧
    ((σ.act hs (.dropOut s)).servers s).imsgq = (σ.servers s).imsgq := by
  simp only [Proxy.act, Proxy.dropOut]
  split
  · rename_i empty
    simp [empty]
  · rename_i m ms queued
    rw [servers_drop, servers_modServer, Function.update_self, queued]
    exact ⟨rfl, rfl⟩

theorem steady_dropIn : Steady σ (σ.act hs (.dropIn s)) := by
  simp only [Proxy.act, Proxy.dropIn]
  split
  · exact Steady.refl σ
  · exact (Steady.modServer σ s _).trans (Steady.drop _ _ _)

theorem steady_dropOut : Steady σ (σ.act hs (.dropOut s)) := by
  simp only [Proxy.act, Proxy.dropOut]
  split
  · exact Steady.refl σ
  · exact (Steady.modServer σ s _).trans (Steady.drop _ _ _)

theorem steady_iterate {a : Action} (steady : ∀ τ : Proxy, Steady τ (τ.act hs a)) (n : Nat) :
    Steady σ ((fun τ : Proxy => τ.act hs a)^[n] σ) := by
  induction n with
  | zero => exact Steady.refl σ
  | succ n ih =>
    rw [Function.iterate_succ_apply']
    exact ih.trans (steady _)

theorem iterate_dropIn (n : Nat) :
    (((fun τ : Proxy => τ.act hs (.dropIn s))^[n] σ).servers s).imsgq =
        (σ.servers s).imsgq.drop n ∧
      (((fun τ : Proxy => τ.act hs (.dropIn s))^[n] σ).servers s).omsgq =
        (σ.servers s).omsgq := by
  induction n with
  | zero => exact ⟨rfl, rfl⟩
  | succ n ih =>
    rw [Function.iterate_succ_apply', (queues_dropIn _ s).1, (queues_dropIn _ s).2, ih.1, ih.2]
    exact ⟨List.tail_drop, rfl⟩

theorem iterate_dropOut (n : Nat) :
    (((fun τ : Proxy => τ.act hs (.dropOut s))^[n] σ).servers s).omsgq =
        (σ.servers s).omsgq.drop n ∧
      (((fun τ : Proxy => τ.act hs (.dropOut s))^[n] σ).servers s).imsgq =
        (σ.servers s).imsgq := by
  induction n with
  | zero => exact ⟨rfl, rfl⟩
  | succ n ih =>
    rw [Function.iterate_succ_apply', (queues_dropOut _ s).1, (queues_dropOut _ s).2, ih.1, ih.2]
    exact ⟨List.tail_drop, rfl⟩

theorem outcome_replicate (a : Action) (n : Nat) (σ : Proxy) :
    outcome hs σ (List.replicate n a) = (fun τ : Proxy => τ.act hs a)^[n] σ := by
  induction n generalizing σ with
  | zero => rfl
  | succ n ih => exact ih (σ.act hs a)

theorem outcome_append (σ : Proxy) (as bs : List Action) :
    outcome hs σ (as ++ bs) = outcome hs (outcome hs σ as) bs :=
  List.foldl_append

/-- The actions of `server_close`. -/
theorem outcome_closeServer :
    outcome hs σ (List.replicate (σ.servers s).imsgq.length (.dropIn s) ++
      List.replicate (σ.servers s).omsgq.length (.dropOut s) ++ [.shut s]) =
        σ.closeServer hs s := by
  unfold closeServer
  dsimp only
  rw [(iterate_dropIn σ s _).2, outcome_append, outcome_append, outcome_replicate,
    outcome_replicate]
  rfl

theorem takes_replicate {a : Action} (n : Nat) {σ : Proxy}
    (enabled : ∀ k < n, ((fun τ : Proxy => τ.act hs a)^[k] σ).Enabled a) :
    Takes hs σ (List.replicate n a) := by
  induction n generalizing σ with
  | zero => trivial
  | succ n ih =>
    refine ⟨enabled 0 (Nat.succ_pos n), ih fun k lt => ?_⟩
    exact enabled (k + 1) (Nat.succ_lt_succ lt)

theorem takes_closeServer : Takes hs σ (List.replicate (σ.servers s).imsgq.length (.dropIn s) ++
    List.replicate (σ.servers s).omsgq.length (.dropOut s) ++ [.shut s]) := by
  have dropsIn : Takes hs σ (List.replicate (σ.servers s).imsgq.length (.dropIn s)) := by
    refine takes_replicate _ fun k lt => ?_
    simp only [Enabled]
    rw [(iterate_dropIn σ s k).1]
    simpa using lt
  have dropsOut : Takes hs (outcome hs σ (List.replicate (σ.servers s).imsgq.length (.dropIn s)))
      (List.replicate (σ.servers s).omsgq.length (.dropOut s)) := by
    refine takes_replicate _ fun k lt => ?_
    simp only [Enabled]
    rw [outcome_replicate, (iterate_dropOut _ s k).1, (iterate_dropIn σ s _).2]
    simpa using lt
  refine Lib.along_append.mpr ⟨Lib.along_append.mpr ⟨dropsIn, dropsOut⟩, ?_, trivial⟩
  change (outcome hs σ _).queue s = []
  rw [outcome_append, outcome_replicate, outcome_replicate, queue, (iterate_dropOut _ s _).1,
    (iterate_dropOut _ s _).2, (iterate_dropIn σ s _).1, (iterate_dropIn σ s _).2]
  simp

theorem steps_closeServer : Steps hs σ (σ.closeServer hs s) :=
  ⟨_, takes_closeServer σ s, outcome_closeServer σ s⟩

theorem steady_shut : Steady σ (σ.act hs (.shut s)) :=
  Steady.modServer σ s fun _ => {}

theorem steady_closeServer (hs : Handshake) : Steady σ (σ.closeServer hs s) := by
  unfold closeServer
  dsimp only
  exact (steady_iterate σ (fun τ => steady_dropIn τ s) _).trans
    ((steady_iterate _ (fun τ => steady_dropOut τ s) _).trans (steady_shut _ s))

end Close

/-! ## Forwarding -/

/-- `req_forward` has come to its end. -/
structure Forwarded (σ σ' : Proxy) : Prop extends Calm σ σ' where
  current : σ'.current = none
  vector : σ'.vector = σ.vector.filter fun v => v.2 != 0

theorem Forwarded.of_steady (steady : Steady σ σ') (forwarded : Forwarded σ' σ'') :
    Forwarded σ σ'' where
  toCalm := steady.toCalm.trans forwarded.toCalm
  current := forwarded.current
  vector := by rw [forwarded.vector, steady.vector]

theorem forwarded_refuse (σ : Proxy) (m : Nat) : Forwarded σ (σ.refuse m) := by
  have marked : Forwarded σ (σ.markRefused m) := by
    refine ⟨⟨Nat.le_refl _, fun x _ => ?_, fun _ => rfl⟩, rfl, rfl⟩
    rw [msgs_markRefused, Function.update_apply]
    split
    · rename_i here
      rw [here]
    · rfl
  unfold Proxy.refuse
  split
  · exact marked
  · have steady := Steady.wakeOwner (σ.markRefused m) m
    exact ⟨marked.toCalm.trans steady.toCalm, steady.current.trans marked.current,
      steady.vector.trans marked.vector⟩

theorem forwarded_forward (σ : Proxy) (s m : Nat) : Forwarded σ (σ.forward hs s m) := by
  have authenticated : ∀ (τ : Proxy) owner, Steady τ (τ.addAuth hs s owner) := by
    intro τ owner
    unfold Proxy.addAuth
    split
    · exact ⟨Calm.of_new rfl rfl fun _ => rfl, rfl, rfl⟩
    · exact Steady.refl τ
  have steady := ((Steady.modServer σ s fun conn =>
    { conn with sendActive := conn.sendActive || conn.imsgq.isEmpty }).trans
      (authenticated _ (σ.msgs m).owner)).trans
        (Steady.modServer _ s fun conn => { conn with imsgq := conn.imsgq ++ [m] })
  refine Forwarded.of_steady steady ?_
  exact ⟨⟨Nat.le_refl _, fun _ _ => rfl, fun _ => rfl⟩, rfl, rfl⟩

theorem forwarded_conclude (hs : Handshake) {m : Nat} (held : σ.current = some m)
    (route : Destination) :
    Steps hs σ (σ.conclude hs route) ∧ Forwarded σ (σ.conclude hs route) := by
  have refused : ∀ τ : Proxy, τ.current = some m →
      Steps hs τ (τ.act hs .refuse) ∧ Forwarded τ (τ.act hs .refuse) := by
    intro τ held
    have enabled : τ.Enabled .refuse := by
      simp [Enabled, held]
    refine ⟨Steps.act _ enabled, ?_⟩
    simp only [Proxy.act, held, Option.elim_some]
    exact forwarded_refuse τ m
  cases route with
  | refused => exact refused σ held
  | broken s =>
    have steady := steady_closeServer σ s hs
    obtain ⟨steps, forwarded⟩ := refused (σ.closeServer hs s) (steady.current.trans held)
    exact ⟨(steps_closeServer σ s).trans steps, Forwarded.of_steady steady forwarded⟩
  | on s immediate =>
    have forwarded : ∀ τ : Proxy, τ.current = some m → (τ.servers s).isOpen = true →
        Steps hs τ (τ.act hs (.forward s)) ∧ Forwarded τ (τ.act hs (.forward s)) := by
      intro τ held isOpen
      have enabled : τ.Enabled (.forward s) := by
        simp [Enabled, held, isOpen]
      refine ⟨Steps.act _ enabled, ?_⟩
      simp only [Proxy.act, held, Option.elim_some]
      exact forwarded_forward τ s m
    simp only [conclude]
    split
    · rename_i isOpen
      exact forwarded σ held isOpen
    · rename_i closed
      have steady : Steady σ (σ.act hs (.connect s immediate)) :=
        Steady.modServer σ s fun _ =>
          { isOpen := true, connecting := !immediate, sendActive := true }
      obtain ⟨steps, done⟩ := forwarded (σ.act hs (.connect s immediate)) held (by simp [Proxy.act])
      refine ⟨Steps.trans (Steps.act _ ?_) steps, Forwarded.of_steady steady done⟩
      simpa [Enabled] using closed

theorem reqForward_spec (hs : Handshake) {c : Nat} (noreply : Bool) (route : Destination)
    (isOpen : (σ.clients c).isOpen = true) (idle : σ.current = none)
    (member : ∀ o n, σ.vector = some (o, n) →
      (σ.msgs o).owner = some c ∧ noreply = false ∧ 0 < n) :
    Steps hs σ (σ.reqForward hs c noreply route) ∧ Calm σ (σ.reqForward hs c noreply route) ∧
      (σ.reqForward hs c noreply route).current = none ∧
      (σ.reqForward hs c noreply route).vector =
        (σ.vector.map fun v => (v.1, v.2 - 1)).filter fun v => v.2 != 0 := by
  have calm : Calm σ (σ.enqueue c noreply) := by
    cases noreply
    · exact Calm.of_new rfl rfl (isOpen_join c _)
    · exact Calm.of_new rfl rfl fun _ => rfl
  have enabled : σ.Enabled (.enqueue c noreply) := ⟨isOpen, idle, member⟩
  have held : (σ.act hs (.enqueue c noreply)).current = some σ.fresh := rfl
  obtain ⟨steps, forwarded⟩ := forwarded_conclude hs held route
  refine ⟨(Steps.act _ enabled).trans steps, calm.trans forwarded.toCalm, forwarded.current, ?_⟩
  exact forwarded.vector

theorem forwardAll_spec (hs : Handshake) {c o : Nat} (routes : List Destination)
    (isOpen : (σ.clients c).isOpen = true) (idle : σ.current = none) (lt : o < σ.fresh)
    (owner : (σ.msgs o).owner = some c)
    (vector : σ.vector = if routes = [] then none else some (o, routes.length)) :
    Steps hs σ (forwardAll hs c routes σ) ∧ (forwardAll hs c routes σ).current = none ∧
      (forwardAll hs c routes σ).vector = none := by
  induction routes generalizing σ with
  | nil => exact ⟨Steps.refl σ, idle, vector⟩
  | cons route routes ih =>
    rw [if_neg (List.cons_ne_nil _ _)] at vector
    have member : ∀ o' n, σ.vector = some (o', n) →
        (σ.msgs o').owner = some c ∧ false = false ∧ 0 < n := by
      intro o' n active
      rw [vector] at active
      simp only [Option.some.injEq, Prod.mk.injEq, List.length_cons] at active
      rw [← active.1]
      exact ⟨owner, rfl, by omega⟩
    obtain ⟨steps, calm, idle', vector'⟩ := reqForward_spec hs false route isOpen idle member
    have rest : (σ.reqForward hs c false route).vector =
        if routes = [] then none else some (o, routes.length) := by
      rw [vector', vector]
      cases routes with
      | nil => rfl
      | cons _ _ => simp
    obtain ⟨steps', boundary⟩ := ih ((calm.isOpen c).trans isOpen) idle'
      (Nat.lt_of_lt_of_le lt calm.fresh) ((calm.owner o lt).trans owner) rest
    exact ⟨steps.trans steps', boundary⟩

/-! ## Server connections -/

theorem queues_sent (σ : Proxy) (s : Nat) :
    ((σ.act hs (.sent s)).servers s).imsgq = (σ.servers s).imsgq.tail ∧
      ((σ.act hs (.sent s)).servers s).connecting = (σ.servers s).connecting := by
  simp only [Proxy.act, Proxy.sent]
  split
  · rename_i empty
    simp [empty]
  · rename_i m ms queued
    split <;> rw [servers_modServer, Function.update_self, queued] <;> exact ⟨rfl, rfl⟩

theorem iterate_sent (hs : Handshake) (σ : Proxy) (s n : Nat) :
    (((fun τ : Proxy => τ.act hs (.sent s))^[n] σ).servers s).imsgq =
        (σ.servers s).imsgq.drop n ∧
      (((fun τ : Proxy => τ.act hs (.sent s))^[n] σ).servers s).connecting =
        (σ.servers s).connecting := by
  induction n with
  | zero => exact ⟨rfl, rfl⟩
  | succ n ih =>
    rw [Function.iterate_succ_apply', (queues_sent _ s).1, (queues_sent _ s).2, ih.1, ih.2]
    exact ⟨List.tail_drop, rfl⟩

theorem steady_sent (hs : Handshake) (σ : Proxy) (s : Nat) : Steady σ (σ.act hs (.sent s)) := by
  simp only [Proxy.act, Proxy.sent]
  split
  · exact Steady.refl σ
  · split
    · exact Steady.modServer σ s _
    · exact Steady.modServer σ s _

theorem steady_connected (σ : Proxy) (s : Nat) : Steady σ (σ.act hs (.connected s)) := by
  refine Steady.trans (Steady.modServer σ s fun conn => { conn with connecting := false }) ?_
  simp only [Proxy.act, postConnect]
  split
  · exact ⟨Calm.of_new rfl rfl fun _ => rfl, rfl, rfl⟩
  · exact Steady.refl _

theorem connecting_connected (σ : Proxy) (s : Nat) :
    ((σ.act hs (.connected s)).servers s).connecting = false := by
  simp only [Proxy.act, postConnect]
  split <;> simp

theorem sendServer_spec {s n : Nat} {idle : Bool}
    (accepts : σ.Accepts hs (.serverWritable s n idle)) :
    Steps hs σ (σ.sendServer hs s n idle) ∧ Steady σ (σ.sendServer hs s n idle) := by
  obtain ⟨isOpen, -, most, all⟩ := accepts
  have connected : Steps hs σ (if (σ.servers s).connecting then σ.act hs (.connected s) else σ) ∧
      Steady σ (if (σ.servers s).connecting then σ.act hs (.connected s) else σ) ∧
      ((if (σ.servers s).connecting then σ.act hs (.connected s) else σ).servers s).connecting =
        false := by
    split
    · rename_i connecting
      exact ⟨Steps.act (.connected s) ⟨isOpen, connecting⟩, steady_connected σ s,
        connecting_connected σ s⟩
    · rename_i established
      exact ⟨Steps.refl σ, Steady.refl σ, Bool.not_eq_true _ ▸ established⟩
  unfold sendServer
  generalize (if (σ.servers s).connecting then σ.act hs (.connected s) else σ) = τ at *
  obtain ⟨steps, steady, established⟩ := connected
  have written : Steps hs τ ((fun τ : Proxy => τ.act hs (.sent s))^[n] τ) := by
    refine Steps.iterate n fun k lt => ?_
    obtain ⟨imsgq, connecting⟩ := iterate_sent hs τ s k
    simp only [Enabled]
    rw [imsgq, connecting]
    refine ⟨?_, established⟩
    rw [Ne, List.drop_eq_nil_iff]
    omega
  have steady' := steady.trans (steady_iterate τ (fun τ => steady_sent hs τ s) n)
  dsimp only
  split
  · rename_i isIdle
    refine ⟨(steps.trans written).trans (Steps.act _ ?_), ?_⟩
    · obtain ⟨imsgq, connecting⟩ := iterate_sent hs τ s n
      simp only [Enabled]
      rw [imsgq, connecting]
      exact ⟨List.drop_eq_nil_iff.mpr (Nat.le_of_eq (all isIdle).symm), established⟩
    · exact steady'.trans (Steady.modServer _ s fun conn => { conn with sendActive := false })
  · exact ⟨steps.trans written, steady'⟩

theorem steady_reply (σ : Proxy) (s : Nat) (bad : Bool) :
    Steady σ (σ.act hs (.reply s bad)) := by
  simp only [Proxy.act, Proxy.reply]
  split
  · rename_i m ms b bs _ _
    refine Steady.trans (Steady.modServer σ s fun conn =>
      { conn with omsgq := ms, backend := bs }) ?_
    unfold linked
    split
    · exact ⟨⟨Nat.le_refl _, fun x _ => field_modMsg (·.owner) rfl x, fun _ => rfl⟩, rfl, rfl⟩
    · refine Steady.trans ?_ (Steady.wakeOwner _ m)
      exact Steady.complete _ m fun _ => rfl
  · exact Steady.refl σ

theorem rspRecvDone_spec {s : Nat} {receipt : Receipt}
    (accepts : σ.Accepts hs (.serverReply s receipt)) :
    Steps hs σ (σ.rspRecvDone hs s receipt) ∧ Steady σ (σ.rspRecvDone hs s receipt) := by
  unfold rspRecvDone
  split
  · exact ⟨steps_closeServer σ s, steady_closeServer σ s hs⟩
  · rename_i fine
    have queued : (σ.servers s).omsgq ≠ [] := fun empty => fine (Or.inl empty)
    exact ⟨Steps.act (.reply s _) ⟨queued, accepts.2⟩, steady_reply σ s _⟩

/-! ## Client connections -/

section Offer

variable {c m : Nat} {before after : List Nat}

/-- What is offered stays offered: requests that are complete stay complete. -/
theorem Complete.markDone {x : Nat} (complete : σ.Complete x) (before : List Nat) (m : Nat)
    (after : List Nat) : (σ.markDone before m after).Complete x := by
  obtain ⟨msgs, log, eq, marks⟩ := markDone_eq σ before m after
  rw [eq]
  unfold Complete at complete ⊢
  rcases marks x with mark | mark
  · simpa only [mark] using complete
  · simp [mark, complete.1]

theorem Complete.neutral {x : Nat} (complete : σ.Complete x) (neutral : Neutral σ σ') :
    σ'.Complete x := by
  unfold Complete at complete ⊢
  rw [neutral.done, neutral.fragOwner, neutral.fdone]
  exact complete

theorem complete_of_reqDone (sound : σ.Sound) (queue : σ.omsgq c = before ++ m :: after)
    (complete : ∀ x ∈ before, σ.Complete x) (found : σ.reqDone before.reverse m after = true) :
    (σ.markDone before.reverse m after).Complete m := by
  have done : (σ.msgs m).done = true := by
    unfold reqDone at found
    exact (Bool.and_eq_true_iff.mp found).1
  cases member : (σ.msgs m).fragOwner with
  | none =>
    exact Complete.markDone ⟨done, Or.inl member⟩ _ _ _
  | some o =>
    cases marked : (σ.msgs m).fdone with
    | true => exact Complete.markDone ⟨done, Or.inr marked⟩ _ _ _
    | false =>
      obtain ⟨rfl, -⟩ :=
        settled_of_reqDone sound.custody sound.vectors queue complete found member marked
      refine ⟨?_, Or.inr (marked_of_reqDone sound queue complete found member)⟩
      rw [(Alike.markDone σ before.reverse m after).done]
      exact done

/-- An offer changes the queue behind the request only, which is complete then. -/
theorem offered_spec (sound : σ.Sound) (queue : σ.omsgq c = before ++ m :: after)
    (complete : ∀ x ∈ before, σ.Complete x) (found : σ.reqDone before.reverse m after = true) :
    (∃ rest, (σ.offered c before m after).omsgq c = before ++ m :: rest) ∧
      (∀ x ∈ before ++ [m], (σ.offered c before m after).Complete x) ∧
      ((σ.offered c before m after).clients c).sendActive = (σ.clients c).sendActive ∧
      (σ.offered c before m after).current = σ.current ∧
      (σ.offered c before m after).vector = σ.vector := by
  have complete' : ∀ x ∈ before ++ [m], (σ.markDone before.reverse m after).Complete x := by
    intro x inside
    rcases List.mem_append.mp inside with earlier | last
    · exact (complete x earlier).markDone _ _ _
    · rw [List.mem_singleton.mp last]
      exact complete_of_reqDone sound queue complete found
  have neutral := Neutral.makeError (σ.markDone before.reverse m after) before.reverse m after
  have omsgq := (Alike.markDone σ before.reverse m after).omsgq c
  obtain ⟨msgs, log, eq, -⟩ := markDone_eq σ before.reverse m after
  have clients : ((σ.markDone before.reverse m after).makeError before.reverse m after).clients =
      σ.clients := by
    obtain ⟨msgs', eq', -⟩ :=
      markError_eq (σ.markDone before.reverse m after) before.reverse m after
    unfold makeError
    rw [eq', eq]
    rfl
  unfold Proxy.offered
  dsimp only
  split
  · split
    · refine ⟨⟨after.drop (σ.siblings m after).length, ?_⟩, fun x inside => ?_, ?_, ?_, ?_⟩
      · rw [omsgq_modClient, if_pos rfl]
      · have told := (complete' x inside).neutral neutral
        exact told
      · rw [clients_modClient, Function.update_self, clients]
      · rw [current_modClient, neutral.current, eq]
      · rw [vector_modClient, neutral.vector, eq]
    · refine ⟨⟨after, ?_⟩, fun x inside => (complete' x inside).neutral neutral, ?_, ?_, ?_⟩
      · rw [neutral.omsgq, omsgq, queue]
      · rw [clients]
      · rw [neutral.current, eq]
      · rw [neutral.vector, eq]
  · refine ⟨⟨after, ?_⟩, complete', ?_, ?_, ?_⟩
    · rw [omsgq, queue]
    all_goals rw [eq]

end Offer

/-- A client connection that is being written to, while no request is halfway forwarded. -/
structure Draining (σ : Proxy) (c : Nat) : Prop where
  sound : σ.Sound
  active : (σ.clients c).sendActive = true
  current : σ.current = none
  vector : σ.vector = none

/-- The request that is offered next. -/
theorem offer_next (hs : Handshake) {c i : Nat} (offerable : σ.offerable c i = true) :
    ∃ m after, (σ.omsgq c).drop i = m :: after ∧
      σ.omsgq c = (σ.omsgq c).take i ++ m :: after ∧ i < (σ.omsgq c).length ∧
      σ.reqDone ((σ.omsgq c).take i).reverse m after = true ∧
      σ.act hs (.offer c i) = σ.offered c ((σ.omsgq c).take i) m after := by
  unfold Proxy.offerable at offerable
  split at offerable
  · cases offerable
  · rename_i m after rest
    refine ⟨m, after, rest, ?_, ?_, offerable, ?_⟩
    · rw [← rest, List.take_append_drop]
    · by_contra long
      rw [List.drop_eq_nil_of_le (Nat.le_of_not_lt long)] at rest
      cases rest
    · simp only [Proxy.act, Proxy.offer, rest]

theorem offers_spec (hs : Handshake) {c : Nat} (draining : σ.Draining c) (n : Nat)
    (offerable : ∀ i < n, (σ.offers hs c i).offerable c i = true) :
    Steps hs σ (σ.offers hs c n) ∧ (σ.offers hs c n).Draining c ∧
      (∀ x ∈ ((σ.offers hs c n).omsgq c).take n, (σ.offers hs c n).Complete x) := by
  induction n with
  | zero => exact ⟨Steps.refl σ, draining, fun x inside => by simp at inside⟩
  | succ n ih =>
    obtain ⟨steps, draining, complete⟩ := ih fun i lt => offerable i (Nat.lt_succ_of_lt lt)
    have next := offerable n (Nat.lt_succ_self n)
    simp only [offers]
    generalize σ.offers hs c n = τ at *
    obtain ⟨m, after, rest, queue, lt, found, result⟩ := offer_next hs next
    have enabled : τ.Enabled (.offer c n) := by
      refine ⟨lt, draining.active, draining.current, draining.vector, complete, ?_⟩
      intro m' after' rest'
      rw [rest] at rest'
      cases rest'
      exact found
    obtain ⟨⟨tail, queue'⟩, complete', active, current, vector⟩ :=
      offered_spec draining.sound queue complete found
    have step : Steps hs τ (τ.act hs (.offer c n)) := Steps.act _ enabled
    refine ⟨steps.trans step, ?_, ?_⟩
    · refine ⟨step.sound draining.sound, ?_, ?_, ?_⟩ <;> rw [result]
      · exact active.trans draining.active
      · exact current.trans draining.current
      · exact vector.trans draining.vector
    · have length : ((τ.omsgq c).take n ++ [m]).length = n + 1 := by
        simp
        omega
      rw [result, queue', List.append_cons, List.take_left' length]
      exact complete'

theorem finishAll_spec (hs : Handshake) {c : Nat} (ms : List Nat) (draining : σ.Draining c)
    (nodup : ms.Nodup) (listed : ∀ m ∈ ms, m ∈ σ.omsgq c) (complete : ∀ m ∈ ms, σ.Complete m) :
    Steps hs σ (finishAll hs c ms σ) ∧ (finishAll hs c ms σ).Draining c := by
  induction ms generalizing σ with
  | nil => exact ⟨Steps.refl σ, draining⟩
  | cons m ms ih =>
    obtain ⟨fresh, nodup⟩ := List.nodup_cons.mp nodup
    have enabled : σ.Enabled (.finish c m) :=
      ⟨listed m List.mem_cons_self, draining.active, complete m List.mem_cons_self,
        draining.current, draining.vector⟩
    have step : Steps hs σ (σ.act hs (.finish c m)) := Steps.act _ enabled
    have draining' : (σ.act hs (.finish c m)).Draining c := by
      refine ⟨step.sound draining.sound, ?_, draining.current, draining.vector⟩
      simp only [Proxy.act, clients_modClient, Function.update_self]
      exact draining.active
    have listed' : ∀ x ∈ ms, x ∈ (σ.act hs (.finish c m)).omsgq c := by
      intro x inside
      have other : x ≠ m := by
        rintro rfl
        exact fresh inside
      simp only [Proxy.act, omsgq_modClient, if_pos]
      exact (List.mem_erase_of_ne other).mpr (listed x (List.mem_cons_of_mem _ inside))
    obtain ⟨steps, final⟩ := ih draining' nodup listed' fun x inside =>
      complete x (List.mem_cons_of_mem _ inside)
    exact ⟨step.trans steps, final⟩

theorem rounds_spec (hs : Handshake) {c : Nat} (rs : List Round) (draining : σ.Draining c)
    (ok : RoundsOk hs c rs σ) :
    Steps hs σ (rounds hs c rs σ) ∧ (rounds hs c rs σ).Draining c := by
  induction rs generalizing σ with
  | nil => exact ⟨Steps.refl σ, draining⟩
  | cons r rs ih =>
    obtain ⟨⟨offerable, finished⟩, rest⟩ := ok
    obtain ⟨steps, draining, complete⟩ := offers_spec hs draining r.offers offerable
    have sublist := finished.trans (List.take_sublist _ _)
    obtain ⟨steps', draining'⟩ := finishAll_spec hs r.finished draining
      (sublist.nodup (draining.sound.custody.client_nodup c))
      (fun m inside => sublist.subset inside)
      (fun m inside => complete m (finished.subset inside))
    obtain ⟨steps'', final⟩ := ih draining' rest
    exact ⟨(steps.trans steps').trans steps'', final⟩

theorem sendClient_spec {c : Nat} {rs : List Round} {idle : Bool} (sound : σ.Sound)
    (current : σ.current = none) (vector : σ.vector = none)
    (accepts : σ.Accepts hs (.clientWritable c rs idle)) :
    Steps hs σ (σ.sendClient hs c rs idle) ∧ (σ.sendClient hs c rs idle).current = none ∧
      (σ.sendClient hs c rs idle).vector = none := by
  obtain ⟨-, active, ok, drained⟩ := accepts
  obtain ⟨steps, draining⟩ := rounds_spec hs rs ⟨sound, active, current, vector⟩ ok
  unfold sendClient
  dsimp only
  split
  · rename_i isIdle
    refine ⟨steps.trans (Steps.act (.clientIdle c) fun m after queue => ?_), draining.current,
      draining.vector⟩
    have none := drained isIdle
    simpa [offerable, queue] using none
  · exact ⟨steps, draining.current, draining.vector⟩

/-! ## Every event -/

/-- The event loop waits: the invariants hold, and no request is halfway forwarded. -/
structure Waiting (σ : Proxy) : Prop where
  sound : σ.Sound
  current : σ.current = none
  vector : σ.vector = none

theorem waiting_start : ({} : Proxy).Waiting :=
  ⟨sound_start, rfl, rfl⟩

/-- A handler takes actions that can be taken, and then waits again. -/
theorem handle_spec (waiting : σ.Waiting) {e : Event} (accepts : σ.Accepts hs e) :
    Steps hs σ (σ.handle hs e) ∧ (σ.handle hs e).Waiting := by
  obtain ⟨sound, current, vector⟩ := waiting
  have wait : ∀ {τ : Proxy}, Steps hs σ τ → Steady σ τ → Steps hs σ τ ∧ τ.Waiting := by
    intro τ steps steady
    exact ⟨steps, steps.sound sound, steady.current.trans current, steady.vector.trans vector⟩
  have boundary : ∀ {τ : Proxy}, Steps hs σ τ ∧ τ.current = none ∧ τ.vector = none →
      Steps hs σ τ ∧ τ.Waiting := by
    rintro τ ⟨steps, current, vector⟩
    exact ⟨steps, steps.sound sound, current, vector⟩
  cases e with
  | preconnect s immediate =>
    exact boundary ⟨Steps.act (.connect s immediate) accepts, current, vector⟩
  | accept c => exact boundary ⟨Steps.act (.accept c) ⟨accepts, current⟩, current, vector⟩
  | answer c => exact boundary ⟨Steps.act (.answer c) ⟨accepts, current, vector⟩, current, vector⟩
  | request c noreply route =>
    have member : ∀ o n, σ.vector = some (o, n) →
        (σ.msgs o).owner = some c ∧ noreply = false ∧ 0 < n := by
      intro o n active
      rw [vector] at active
      cases active
    obtain ⟨steps, -, idle, single⟩ := reqForward_spec hs noreply route accepts current member
    refine boundary ⟨steps, idle, single.trans ?_⟩
    rw [vector]
    rfl
  | vector c routes =>
    obtain ⟨isOpen, nonempty⟩ := accepts
    have positive := List.length_pos_iff.mpr nonempty
    have step : Steps hs σ (σ.act hs (.fragment c routes.length)) :=
      Steps.act (.fragment c _) ⟨isOpen, current, vector, positive⟩
    have owner : ((σ.act hs (.fragment c routes.length)).msgs σ.fresh).owner = some c := by
      simp only [Proxy.act, fragment, msgs_join, Function.update_self]
    have isOpen' : ((σ.act hs (.fragment c routes.length)).clients c).isOpen = true :=
      (isOpen_join c _ c).trans isOpen
    obtain ⟨steps, rest⟩ := forwardAll_spec hs routes isOpen' current (Nat.lt_succ_self σ.fresh)
      owner (if_neg nonempty).symm
    exact boundary ⟨step.trans steps, rest⟩
  | serverWritable s n idle =>
    obtain ⟨steps, steady⟩ := sendServer_spec accepts
    exact wait steps steady
  | serverReply s receipt =>
    obtain ⟨steps, steady⟩ := rspRecvDone_spec accepts
    exact wait steps steady
  | serverClose s => exact wait (steps_closeServer σ s) (steady_closeServer σ s hs)
  | clientClose c =>
    exact boundary ⟨Steps.act (.shutClient c) ⟨accepts, current, vector⟩, current, vector⟩
  | clientWritable c rs idle => exact boundary (sendClient_spec sound current vector accepts)

/-- What every action keeps holds whenever the event loop waits. -/
theorem Runs.invariant {inv : Proxy → Prop} (start : inv {})
    (keep : ∀ τ a, τ.Sound → inv τ → τ.Enabled a → inv (τ.act hs a)) {es : List Event}
    (runs : Runs hs es) : (run hs {} es).Waiting ∧ inv (run hs {} es) := by
  have handles : ∀ τ e, Waiting τ ∧ inv τ → τ.Accepts hs e →
      (τ.handle hs e).Waiting ∧ inv (τ.handle hs e) := by
    rintro τ e ⟨waiting, holds⟩ accepts
    obtain ⟨steps, waiting'⟩ := handle_spec waiting accepts
    have kept : ∀ τ a, τ.Sound ∧ inv τ → τ.Enabled a → (τ.act hs a).Sound ∧ inv (τ.act hs a) :=
      fun τ a both enabled => ⟨both.1.act enabled, keep τ a both.1 both.2 enabled⟩
    exact ⟨waiting', (steps.invariant kept ⟨waiting.sound, holds⟩).2⟩
  exact @Lib.Along.invariant _ _ _ _ (fun τ => τ.Waiting ∧ inv τ) handles _ _ runs
    ⟨waiting_start, start⟩

/-- A run of the event loop is a run of actions. -/
theorem Runs.takes {es : List Event} (runs : Runs hs es) :
    ∃ as, Takes hs {} as ∧ outcome hs {} as = run hs {} es := by
  have handles : ∀ τ e, Waiting τ ∧ Steps hs {} τ → τ.Accepts hs e →
      (τ.handle hs e).Waiting ∧ Steps hs {} (τ.handle hs e) := by
    rintro τ e ⟨waiting, steps⟩ accepts
    obtain ⟨further, waiting'⟩ := handle_spec waiting accepts
    exact ⟨waiting', steps.trans further⟩
  exact (@Lib.Along.invariant _ _ _ _ (fun τ => τ.Waiting ∧ Steps hs {} τ) handles _ _ runs
    ⟨waiting_start, Steps.refl _⟩).2

theorem Runs.waiting {es : List Event} (runs : Runs hs es) : (run hs {} es).Waiting :=
  @Lib.Along.invariant _ _ _ _ Waiting
    (fun _ _ waiting accepts => (handle_spec waiting accepts).2) _ _ runs waiting_start

end Nutcracker.Proxy
