import Nutcracker.Proxy.Steps

/-!
# Conservation of requests

Whenever the event loop waits, a request that a client waits for is done or on exactly
one server connection, and a message on a server connection is waited for unless it
was marked otherwise.  Closing a server connection fails what was on it.  A vector
request is coalesced once, with all its fragments.
-/

namespace Nutcracker.Proxy

variable {hs : Handshake} {σ σ' σ'' : Proxy}

instance instDecidableRuns (hs : Handshake) (es : List Event) : Decidable (Runs hs es) :=
  inferInstanceAs (Decidable (Lib.Along _ _ _ _))

/-! ## Closing a server connection -/

/-- A server connection is being closed: what was done stays done, what becomes done is in
error, and the other queues stay. -/
structure Closing (s : Nat) (σ σ' : Proxy) : Prop where
  omsgq : ∀ c, σ'.omsgq c = σ.omsgq c
  queue : ∀ s', s' ≠ s → σ'.queue s' = σ.queue s'
  error : ∀ m, (σ.msgs m).error = true → (σ'.msgs m).error = true
  done : ∀ m, (σ'.msgs m).done = true → (σ.msgs m).done = true ∨ (σ'.msgs m).error = true

theorem Closing.refl (s : Nat) (σ : Proxy) : Closing s σ σ :=
  ⟨fun _ => rfl, fun _ _ => rfl, fun _ => id, fun _ => Or.inl⟩

theorem Closing.trans {s : Nat} (first : Closing s σ σ') (second : Closing s σ' σ'') :
    Closing s σ σ'' where
  omsgq c := (second.omsgq c).trans (first.omsgq c)
  queue s' other := (second.queue s' other).trans (first.queue s' other)
  error m failed := second.error m (first.error m failed)
  done m done := by
    rcases second.done m done with earlier | failed
    · exact (first.done m earlier).imp_right (second.error m)
    · exact Or.inr failed

theorem Closing.modServer (σ : Proxy) (s : Nat) (h : ServerConn → ServerConn) :
    Closing s σ (σ.modServer s h) where
  omsgq _ := rfl
  queue s' other := by rw [queue_modServer, if_neg other]
  error _ := id
  done _ := Or.inl

theorem Closing.wakeOwner (s : Nat) (σ : Proxy) (m : Nat) : Closing s σ (σ.wakeOwner m) := by
  have alike : Alike σ (σ.wakeOwner m) := Alike.wakeOwner m
  refine ⟨alike.omsgq, fun s' _ => ?_, fun x failed => ?_, fun x done => ?_⟩
  · unfold Proxy.queue
    rw [servers_wakeOwner]
  · exact (field_wakeOwner (·.error) (fun _ => rfl) m x).trans failed
  · exact Or.inl ((alike.done x).symm.trans done)

theorem Closing.complete (s : Nat) (σ : Proxy) (m : Nat) :
    Closing s σ (σ.complete m fun r => { r with error := true }) := by
  obtain ⟨-, clients, servers, -⟩ := complete_rest σ m fun r => { r with error := true }
  have error := field_complete (σ := σ) (m := m) (f := fun r => { r with error := true })
    (·.error) fun _ _ => rfl
  have msgs := complete_msgs σ m (f := fun r => { r with error := true }) fun _ =>
    ⟨rfl, rfl, rfl, rfl⟩
  refine ⟨fun c => ?_, fun s' _ => ?_, fun x failed => ?_, fun x done => ?_⟩
  · unfold Proxy.omsgq
    rw [clients]
  · unfold Proxy.queue
    rw [servers]
  · rw [error, failed, ite_self]
  · rw [(msgs x).2.2.2, Bool.or_eq_true] at done
    exact done.imp_right fun here => by rw [error, if_pos (of_decide_eq_true here)]

theorem Closing.drop (s : Nat) (σ : Proxy) (m : Nat) (silent : Bool) :
    Closing s σ (σ.drop m silent) := by
  unfold Proxy.drop
  split
  · exact Closing.refl s σ
  · exact (Closing.complete s σ m).trans (Closing.wakeOwner s _ m)

theorem closing_dropIn (σ : Proxy) (s : Nat) : Closing s σ (σ.act hs (.dropIn s)) := by
  simp only [Proxy.act, Proxy.dropIn]
  split
  · exact Closing.refl s σ
  · exact (Closing.modServer σ s _).trans (Closing.drop s _ _ _)

theorem closing_dropOut (σ : Proxy) (s : Nat) : Closing s σ (σ.act hs (.dropOut s)) := by
  simp only [Proxy.act, Proxy.dropOut]
  split
  · exact Closing.refl s σ
  · exact (Closing.modServer σ s _).trans (Closing.drop s _ _ _)

theorem closing_iterate {a : Action} {s : Nat} (closing : ∀ τ, Closing s τ (τ.act hs a))
    (σ : Proxy) (n : Nat) : Closing s σ ((fun τ : Proxy => τ.act hs a)^[n] σ) := by
  induction n with
  | zero => exact Closing.refl s σ
  | succ n ih =>
    rw [Function.iterate_succ_apply']
    exact ih.trans (closing _)

theorem closing_shut (σ : Proxy) (s : Nat) : Closing s σ (σ.act hs (.shut s)) :=
  Closing.modServer σ s fun _ => {}

theorem closing_closeServer (hs : Handshake) (σ : Proxy) (s : Nat) :
    Closing s σ (σ.closeServer hs s) := by
  unfold closeServer
  dsimp only
  exact (closing_iterate (fun τ => closing_dropIn τ s) σ _).trans
    ((closing_iterate (fun τ => closing_dropOut τ s) _ _).trans (closing_shut _ s))

/-! ## Forwarding and the queues of the clients -/

theorem omsgq_refuse (m c : Nat) : (σ.refuse m).omsgq c = σ.omsgq c := by
  unfold refuse
  split
  · rfl
  · exact (Alike.wakeOwner m).omsgq c

theorem omsgq_addAuth (hs : Handshake) (s : Nat) (owner : Option Nat) (c : Nat) :
    (σ.addAuth hs s owner).omsgq c = σ.omsgq c := by
  unfold addAuth
  split
  · rfl
  · rfl

theorem omsgq_forward (hs : Handshake) (s m c : Nat) : (σ.forward hs s m).omsgq c = σ.omsgq c := by
  unfold forward
  rw [omsgq_release, omsgq_modServer, omsgq_addAuth, omsgq_modServer]

theorem queue_closeServer (σ : Proxy) (s : Nat) : (σ.closeServer hs s).queue s = [] := by
  unfold closeServer Proxy.queue
  dsimp only [Proxy.act]
  rw [servers_modServer, Function.update_self]
  rfl

/-- Closing a server connection fails the requests that were waiting on it. -/
theorem closeServer_fails (waiting : σ.Waiting) {s m : Nat} (queued : m ∈ σ.queue s)
    (wanted : (σ.msgs m).swallow = false) (answered : (σ.msgs m).noreply = false) :
    ((σ.closeServer hs s).msgs m).done = true ∧ ((σ.closeServer hs s).msgs m).error = true := by
  have closing := closing_closeServer hs σ s
  have steady := steady_closeServer σ s hs
  have sound : (σ.closeServer hs s).Sound := (steps_closeServer σ s).sound waiting.sound
  obtain ⟨undone, c, -, listed⟩ := waiting.sound.custody.listed s m queued wanted answered
  have done : ((σ.closeServer hs s).msgs m).done = true := by
    by_contra open'
    rw [Bool.not_eq_true] at open'
    have listed' : m ∈ (σ.closeServer hs s).omsgq c := by rwa [closing.omsgq]
    rcases sound.custody.waiting c m listed' open' with held | ⟨s', queued'⟩
    · rw [steady.current, waiting.current] at held
      cases held
    · by_cases here : s' = s
      · rw [here, queue_closeServer] at queued'
        cases queued'
      · rw [closing.queue s' here] at queued'
        exact here (waiting.sound.custody.apart s' s m queued' queued)
  refine ⟨done, (closing.done m done).resolve_left ?_⟩
  rw [undone]
  exact Bool.false_ne_true

/-! ## The state whenever the event loop waits -/

theorem owner_precedes (sound : σ.Sound) {c m o : Nat} (listed : m ∈ σ.omsgq c)
    (undone : (σ.msgs m).done = false) (member : (σ.msgs m).fragOwner = some o) :
    [o, m].Sublist (σ.omsgq c) := by
  have self := (sound.vectors.family m o member).1
  have other : m ≠ o := by
    rintro rfl
    rw [sound.vectors.owner_done m self] at undone
    cases undone
  have unmarked : (σ.msgs o).fdone = false := by
    by_contra marked
    rw [sound.vectors.finished m o member (Bool.not_eq_false _ ▸ marked)] at undone
    cases undone
  obtain ⟨before, after, queue, -⟩ := sound.vectors.block c m listed o member unmarked
  rw [queue]
  have fragment : m ∈ σ.fragments o := sound.vectors.mem_fragments_iff.mpr ⟨other, member⟩
  refine List.Sublist.trans ?_ (List.sublist_append_right before _)
  exact (List.singleton_sublist.mpr (List.mem_append_left after fragment)).cons_cons o

/-- Requests are conserved. -/
theorem run_conserves_requests (hs : Handshake) (es : List Event) (runs : Runs hs es) :
    (∀ c, ∀ m ∈ (run hs {} es).omsgq c, ((run hs {} es).msgs m).done = false →
      ∃ s, ((run hs {} es).queue s).count m = 1 ∧
        ∀ s', m ∈ (run hs {} es).queue s' → s' = s) ∧
    (∀ s, ∀ m ∈ (run hs {} es).queue s, ((run hs {} es).msgs m).swallow = false →
      ((run hs {} es).msgs m).noreply = false →
        ((run hs {} es).msgs m).done = false ∧
        ∃ c, ((run hs {} es).msgs m).owner = some c ∧
          ((run hs {} es).omsgq c).count m = 1 ∧
          ∀ o, ((run hs {} es).msgs m).fragOwner = some o →
            [o, m].Sublist ((run hs {} es).omsgq c)) ∧
    (∀ s, ((run hs {} es).queue s).Nodup) ∧
    (∀ s s' m, m ∈ (run hs {} es).queue s → m ∈ (run hs {} es).queue s' → s = s') ∧
    (∀ s, ∀ m ∈ (run hs {} es).queue s, ((run hs {} es).msgs m).swallow = false →
      ((run hs {} es).msgs m).noreply = false →
        (((run hs {} es).handle hs (.serverClose s)).msgs m).done = true ∧
        (((run hs {} es).handle hs (.serverClose s)).msgs m).error = true) := by
  have waiting := runs.waiting
  generalize run hs {} es = σ at waiting
  have custody := waiting.sound.custody
  refine ⟨?_, ?_, custody.server_nodup, custody.apart, ?_⟩
  · intro c m listed undone
    rcases custody.waiting c m listed undone with held | ⟨s, queued⟩
    · rw [waiting.current] at held
      cases held
    · exact ⟨s, List.count_eq_one_of_mem (custody.server_nodup s) queued,
        fun s' queued' => custody.apart s' s m queued' queued⟩
  · intro s m queued wanted answered
    obtain ⟨undone, c, owner, listed⟩ := custody.listed s m queued wanted answered
    exact ⟨undone, c, owner, List.count_eq_one_of_mem (custody.client_nodup c) listed,
      fun o member => owner_precedes waiting.sound listed undone member⟩
  · intro s m queued wanted answered
    exact closeServer_fails waiting queued wanted answered

/-- A vector request of two fragments, the first of which is on a connection that is closed. -/
theorem run_conserves_requests_vector :
    ∃ s, ((run ⟨false, false⟩ {} [.accept 0, .vector 0 [.on 0 true, .on 1 true],
      .serverWritable 1 1 true, .serverClose 0]).queue s).count 2 = 1 := by
  obtain ⟨s, queued, -⟩ := (run_conserves_requests ⟨false, false⟩
    [.accept 0, .vector 0 [.on 0 true, .on 1 true], .serverWritable 1 1 true, .serverClose 0]
    (by decide)).1 0 2 (by decide) (by decide)
  exact ⟨s, queued⟩

/-- A vector request is coalesced once, and with all its fragments in the queue of the client and
done. -/
theorem run_coalesces_once (hs : Handshake) (es : List Event) (runs : Runs hs es) :
    ((run hs {} es).log.map Coalescing.owner).Nodup ∧
      ∀ e ∈ (run hs {} es).log,
        e.nfrag = ((run hs {} es).msgs e.owner).nfrag ∧ e.ready = e.nfrag ∧
          ((run hs {} es).fragments e.owner).length = e.nfrag := by
  have waiting := runs.waiting
  generalize run hs {} es = σ at waiting
  have logged := waiting.sound.logged
  refine ⟨logged.once, fun e inside => ?_⟩
  obtain ⟨nfrag, ready⟩ := logged.whole e inside
  refine ⟨nfrag, ready, ?_⟩
  rw [nfrag, waiting.sound.vectors.tally e.owner (logged.marked e inside).1,
    left_of_none waiting.vector, Nat.add_zero]

/-- The first reply does not complete the request, the second one does. -/
theorem run_coalesces_once_two :
    let es : List Event := [.accept 0, .vector 0 [.on 0 true, .on 1 true],
      .serverWritable 0 1 true, .serverWritable 1 1 true, .serverReply 0 .good]
    let σ := run ⟨false, false⟩ {} (es ++ [.serverReply 1 .good])
    (run ⟨false, false⟩ {} es).log = [] ∧ (σ.log.map Coalescing.owner).Nodup ∧
      σ.log = [⟨0, 2, 2⟩] :=
  ⟨by decide, (run_coalesces_once _ _ (by decide)).1, by decide⟩

end Nutcracker.Proxy
