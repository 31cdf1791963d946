import Nutcracker.Proxy.Vectors

/-!
# Every action keeps the invariants

Custody and the facts about vector requests are kept by each action that can be taken,
and so is the record of the calls of `post_coalesce`: one call for a request at most,
with all its fragments in the queue of the client and done.
-/

namespace Nutcracker.Proxy

variable {σ σ' : Proxy} {hs : Handshake}

/-- What holds of the calls of `post_coalesce` so far. -/
structure Logged (σ : Proxy) : Prop where
  once : (σ.log.map Coalescing.owner).Nodup
  marked : ∀ e ∈ σ.log, (σ.msgs e.owner).fragOwner = some e.owner ∧
    (σ.msgs e.owner).fdone = true
  whole : ∀ e ∈ σ.log, e.nfrag = (σ.msgs e.owner).nfrag ∧ e.ready = e.nfrag

theorem Logged.frame (logged : σ.Logged) (log : σ'.log = σ.log)
    (keeps : ∀ o, (σ.msgs o).fragOwner = some o → (σ'.msgs o).fragOwner = some o ∧
      (σ'.msgs o).fdone = (σ.msgs o).fdone ∧ (σ'.msgs o).nfrag = (σ.msgs o).nfrag) :
    σ'.Logged := by
  constructor
  · rw [log]
    exact logged.once
  · intro e inside
    rw [log] at inside
    obtain ⟨self, marked⟩ := logged.marked e inside
    obtain ⟨self', fdone, -⟩ := keeps e.owner self
    exact ⟨self', fdone.trans marked⟩
  · intro e inside
    rw [log] at inside
    obtain ⟨-, -, nfrag⟩ := keeps e.owner (logged.marked e inside).1
    rw [nfrag]
    exact logged.whole e inside

theorem Logged.new (logged : σ.Logged) (vectors : σ.Vectors) {r : Req} (log : σ'.log = σ.log)
    (msgs : σ'.msgs = Function.update σ.msgs σ.fresh r) : σ'.Logged := by
  refine logged.frame log fun o self => ?_
  rw [msgs_of_lt msgs (vectors.lt_fresh self)]
  exact ⟨self, rfl, rfl⟩

theorem Logged.coalesce (logged : σ.Logged) {o : Nat} (settled : σ.Settled o) :
    (σ.coalesce o).Logged := by
  have log : (σ.coalesce o).log = σ.log ++ [⟨o, (σ.msgs o).nfrag, (σ.msgs o).nfrag⟩] := rfl
  have earlier : ∀ e ∈ σ.log, e.owner ≠ o := by
    rintro e inside rfl
    have marked := (logged.marked e inside).2
    rw [settled.unmarked] at marked
    cases marked
  constructor
  · rw [log, List.map_append, List.nodup_append]
    refine ⟨logged.once, List.nodup_singleton _, ?_⟩
    intro x inside y last same
    obtain ⟨e, member, rfl⟩ := List.mem_map.mp inside
    exact earlier e member (same.trans (List.mem_singleton.mp last))
  · intro e inside
    rw [coalesce_fragOwner, coalesce_fdone]
    rw [log, List.mem_append, List.mem_singleton] at inside
    rcases inside with inside | rfl
    · obtain ⟨self, marked⟩ := logged.marked e inside
      exact ⟨self, by rw [marked, Bool.true_or]⟩
    · refine ⟨settled.self, ?_⟩
      simp [settled.self]
  · intro e inside
    obtain ⟨fdone, eq⟩ := coalesce_msgs σ o e.owner
    rw [eq]
    rw [log, List.mem_append, List.mem_singleton] at inside
    rcases inside with inside | rfl
    · exact logged.whole e inside
    · exact ⟨rfl, rfl⟩

/-- The invariants of the proxy. -/
structure Sound (σ : Proxy) : Prop where
  custody : σ.Custody
  vectors : σ.Vectors
  logged : σ.Logged

/-- Nothing that the invariants depend on differs. -/
structure Neutral (σ σ' : Proxy) : Prop extends Alike σ σ' where
  vector : σ'.vector = σ.vector
  log : σ'.log = σ.log
  fdone : ∀ m, (σ'.msgs m).fdone = (σ.msgs m).fdone
  fragOwner : ∀ m, (σ'.msgs m).fragOwner = (σ.msgs m).fragOwner
  nfrag : ∀ m, (σ'.msgs m).nfrag = (σ.msgs m).nfrag
  nfragDone : ∀ m, (σ'.msgs m).nfragDone = (σ.msgs m).nfragDone

theorem Neutral.kindred (neutral : Neutral σ σ') : Kindred σ σ' where
  fresh := neutral.fresh
  current := neutral.current
  vector := neutral.vector
  omsgq := neutral.omsgq
  owner := neutral.owner
  noreply := neutral.noreply
  done := neutral.done
  fdone := neutral.fdone
  fragOwner := neutral.fragOwner
  nfrag := neutral.nfrag
  nfragDone := neutral.nfragDone

theorem Sound.neutral (sound : σ.Sound) (neutral : Neutral σ σ') : σ'.Sound where
  custody := sound.custody.alike neutral.toAlike
  vectors := sound.vectors.kindred neutral.kindred
  logged := sound.logged.frame neutral.log fun o self =>
    ⟨(neutral.fragOwner o).trans self, neutral.fdone o, neutral.nfrag o⟩

/-- Only connections differ. -/
theorem Neutral.of_conns (alike : Alike σ σ') (vector : σ'.vector = σ.vector)
    (log : σ'.log = σ.log) (msgs : σ'.msgs = σ.msgs) : Neutral σ σ' := by
  refine ⟨alike, vector, log, ?_, ?_, ?_, ?_⟩ <;> intro m <;> rw [msgs]

/-! ## Waking clients -/

theorem alike_coalesce (o : Nat) : Alike σ (σ.coalesce o) := by
  refine Alike.of_marks rfl rfl (fun _ => ⟨rfl, rfl⟩) (fun _ => ⟨rfl, rfl, rfl⟩) fun x => ?_
  obtain ⟨fdone, eq⟩ := coalesce_msgs σ o x
  rw [eq]
  exact ⟨rfl, rfl, rfl, rfl⟩

theorem Sound.coalesce (sound : σ.Sound) {o : Nat} (settled : σ.Settled o) :
    (σ.coalesce o).Sound where
  custody := sound.custody.alike (alike_coalesce o)
  vectors := sound.vectors.coalesce settled
  logged := sound.logged.coalesce settled

theorem Sound.active (sound : σ.Sound) (c : Nat) (active : Bool) :
    (σ.modClient c fun conn => { conn with sendActive := active }).Sound :=
  sound.neutral (Neutral.of_conns (Alike.active c active) rfl rfl rfl)

theorem Sound.markDone (sound : σ.Sound) {c m : Nat} {before after : List Nat}
    (queue : σ.omsgq c = before ++ m :: after) (complete : ∀ x ∈ before, σ.Complete x) :
    (σ.markDone before.reverse m after).Sound := by
  rcases markDone_eq_coalesce sound.custody sound.vectors queue complete with
    same | ⟨o, settled, eq⟩
  · rw [same]
    exact sound
  · rw [eq]
    exact sound.coalesce settled

theorem Sound.wake (sound : σ.Sound) (c : Nat) : (σ.wake c).Sound := by
  unfold Proxy.wake
  split
  · exact sound
  · rename_i m after queue
    split
    · refine Sound.active ?_ c true
      have queued : σ.omsgq c = [] ++ m :: after := queue
      exact sound.markDone queued fun _ inside => by cases inside
    · exact sound

theorem Sound.wakeOwner (sound : σ.Sound) (m : Nat) : (σ.wakeOwner m).Sound := by
  unfold Proxy.wakeOwner
  split
  · exact sound.wake _
  · exact sound

/-! ## Receiving and forwarding -/

theorem Sound.answer (sound : σ.Sound) {c : Nat} (isOpen : (σ.clients c).isOpen = true)
    (idle : σ.current = none) (single : σ.vector = none) : (σ.answer c).Sound := by
  refine Sound.active ?_ c true
  constructor
  · exact sound.custody.joined idle isOpen rfl ⟨rfl, rfl, rfl⟩
  · refine sound.vectors.stranger
      (r := { owner := some c, noforward := true, done := true, peer := some .own }) rfl
      rfl rfl rfl (Or.inr single) fun c' => ?_
    rw [omsgq_join]
    split
    · rename_i here
      rw [here]
      exact Or.inr ⟨single, rfl⟩
    · exact Or.inl rfl
  · exact sound.logged.new sound.vectors rfl rfl

theorem unlisted (custody : σ.Custody) (c : Nat) : σ.fresh ∉ σ.omsgq c :=
  fun inside => Nat.lt_irrefl _ (custody.client_lt c _ inside)

theorem Sound.fragment (sound : σ.Sound) {c n : Nat} (isOpen : (σ.clients c).isOpen = true)
    (idle : σ.current = none) (single : σ.vector = none) (positive : 0 < n) :
    (σ.fragment c n).Sound := by
  constructor
  · exact sound.custody.join rfl rfl idle ⟨isOpen_join c _, fun _ => rfl⟩ isOpen ⟨rfl, rfl, rfl⟩
      (omsgq_join c _) (fun _ => rfl) idle
  · exact Vectors.start rfl rfl sound.vectors (unlisted sound.custody) (omsgq_join c _) rfl positive
      rfl single rfl ⟨rfl, rfl, rfl, rfl, rfl⟩
  · exact sound.logged.new sound.vectors rfl rfl

theorem Sound.enqueue (sound : σ.Sound) {c : Nat} {noreply : Bool}
    (isOpen : (σ.clients c).isOpen = true) (idle : σ.current = none)
    (member : ∀ o n, σ.vector = some (o, n) →
      (σ.msgs o).owner = some c ∧ noreply = false ∧ 0 < n) : (σ.enqueue c noreply).Sound := by
  refine ⟨sound.custody.enqueue isOpen idle, ?_, ?_⟩
  · cases active : σ.vector with
    | none =>
      have single : (σ.newMsg c noreply).fragOwner = none := by
        unfold newMsg
        rw [active]
        rfl
      have vector : (σ.enqueue c noreply).vector = σ.vector := by
        unfold Proxy.enqueue
        rw [active]
        rfl
      refine sound.vectors.stranger (r := σ.newMsg c noreply) ?_ ?_ single vector (Or.inr active) ?_
      · cases noreply <;> rfl
      · cases noreply <;> rfl
      · intro c'
        cases noreply with
        | true => exact Or.inl rfl
        | false =>
          have omsgq : (σ.enqueue c false).omsgq c' = _ := omsgq_join c _ c'
          rw [omsgq]
          split
          · rename_i here
            rw [here]
            exact Or.inr ⟨active, rfl⟩
          · exact Or.inl rfl
    | some v =>
      obtain ⟨o, n⟩ := v
      obtain ⟨owner, rfl, positive⟩ := member o n active
      obtain ⟨k, rfl⟩ := Nat.exists_eq_succ_of_ne_zero (Nat.ne_of_gt positive)
      obtain ⟨self, unmarked, c', listed⟩ := sound.vectors.building o _ active
      have only : ∀ c', o ∈ σ.omsgq c' → c' = c := fun c' inside =>
        Option.some.inj ((sound.custody.owned c' o inside).1.symm.trans owner)
      have here := only c' listed
      subst here
      refine Vectors.extend (r := σ.newMsg c' false) rfl rfl sound.vectors
        (unlisted sound.custody) (omsgq_join c' _) ?_ active listed ?_ ⟨owner.symm, rfl, rfl⟩
        rfl only
      · unfold Proxy.enqueue
        rw [active]
        rfl
      · unfold newMsg
        rw [active]
        rfl
  · cases noreply
    · exact sound.logged.new sound.vectors rfl rfl
    · exact sound.logged.new sound.vectors rfl rfl

theorem Vectors.modServer (vectors : σ.Vectors) (s : Nat) (h : ServerConn → ServerConn) :
    (σ.modServer s h).Vectors :=
  vectors.kindred
    { fresh := rfl, current := rfl, vector := rfl, omsgq := fun _ => rfl, owner := fun _ => rfl,
      noreply := fun _ => rfl, done := fun _ => rfl, fdone := fun _ => rfl,
      fragOwner := fun _ => rfl, nfrag := fun _ => rfl, nfragDone := fun _ => rfl }

theorem Vectors.addAuth (vectors : σ.Vectors) (s : Nat) (owner : Option Nat) :
    (σ.addAuth hs s owner).Vectors := by
  unfold Proxy.addAuth
  split
  · refine Vectors.modServer ?_ s _
    exact vectors.stranger (r := { owner := owner, swallow := true }) rfl rfl rfl rfl (Or.inl rfl)
      fun _ => Or.inl rfl
  · exact vectors

theorem Vectors.postConnect (vectors : σ.Vectors) (s : Nat) : (σ.postConnect hs s).Vectors := by
  unfold Proxy.postConnect
  split
  · refine Vectors.modServer ?_ s _
    exact vectors.stranger (r := { swallow := true }) rfl rfl rfl rfl (Or.inl rfl)
      fun _ => Or.inl rfl
  · exact vectors

theorem Logged.addAuth (logged : σ.Logged) (vectors : σ.Vectors) (s : Nat)
    (owner : Option Nat) : (σ.addAuth hs s owner).Logged := by
  unfold Proxy.addAuth
  split
  · exact logged.new vectors rfl rfl
  · exact logged

theorem Logged.modServer (logged : σ.Logged) (s : Nat) (h : ServerConn → ServerConn) :
    (σ.modServer s h).Logged :=
  logged.frame rfl fun _ self => ⟨self, rfl, rfl⟩

theorem Sound.forward (sound : σ.Sound) {s m : Nat} (isOpen : (σ.servers s).isOpen = true)
    (held : σ.current = some m) : (σ.forward hs s m).Sound where
  custody := sound.custody.forward isOpen held
  vectors := (((sound.vectors.modServer s _).addAuth s _).modServer s _).release
  logged := ((sound.logged.modServer s _).addAuth (sound.vectors.modServer s _) s _).frame rfl
    fun _ self => ⟨self, rfl, rfl⟩

theorem Sound.connected (sound : σ.Sound) {s : Nat} (isOpen : (σ.servers s).isOpen = true) :
    ((σ.modServer s fun conn => { conn with connecting := false }).postConnect hs s).Sound := by
  have opened : ((σ.modServer s fun conn => { conn with connecting := false }).servers s).isOpen =
      true := by
    rw [servers_modServer, Function.update_self]
    exact isOpen
  refine ⟨(sound.custody.alike (Alike.shuffle (List.Perm.refl _) rfl)).postConnect opened,
    (sound.vectors.modServer s _).postConnect s, ?_⟩
  unfold Proxy.postConnect
  split
  · exact (sound.logged.modServer s _).new (sound.vectors.modServer s _) rfl rfl
  · exact sound.logged.modServer s _

/-! ## Messages that become done -/

theorem Logged.completes (logged : σ.Logged) {m : Nat} (completes : Completes σ σ' m)
    (log : σ'.log = σ.log) : σ'.Logged :=
  logged.frame log fun o self =>
    ⟨(completes.fragOwner o).trans self, completes.fdone o, completes.nfrag o⟩

/-- Marking a message as done, apart from its vector request. -/
theorem finishes_of_msgs {m : Nat} {r : Req} (fresh : σ'.fresh = σ.fresh)
    (omsgq : ∀ c, σ'.omsgq c = σ.omsgq c) (msgs : σ'.msgs = Function.update σ.msgs m r)
    (same : r.owner = (σ.msgs m).owner ∧ r.noreply = (σ.msgs m).noreply ∧ r.done = true ∧
      r.fdone = (σ.msgs m).fdone ∧ r.fragOwner = (σ.msgs m).fragOwner ∧
      r.nfrag = (σ.msgs m).nfrag) : Finishes σ σ' m := by
  obtain ⟨owner, noreply, done, fdone, fragOwner, nfrag⟩ := same
  refine ⟨fresh, omsgq, ?_, ?_, ?_, ?_, ?_, ?_⟩ <;> intro x <;>
    rw [msgs, Function.update_apply] <;> split
  all_goals first | rfl | (rename_i here; subst here; simp [*]) | (rename_i other; simp [other])

theorem completes_modMsg {m : Nat} {f : Req → Req}
    (same : (f (σ.msgs m)).owner = (σ.msgs m).owner ∧
      (f (σ.msgs m)).noreply = (σ.msgs m).noreply ∧ (f (σ.msgs m)).done = true ∧
      (f (σ.msgs m)).fdone = (σ.msgs m).fdone ∧
      (f (σ.msgs m)).fragOwner = (σ.msgs m).fragOwner ∧
      (f (σ.msgs m)).nfrag = (σ.msgs m).nfrag) : Completes σ (σ.modMsg m f) m :=
  ⟨finishes_of_msgs rfl (fun _ => rfl) rfl same, rfl, rfl⟩

theorem Sound.markRefused (sound : σ.Sound) {m : Nat} (held : σ.current = some m) :
    (σ.markRefused m).Sound := by
  have completes : Completes σ (σ.modMsg m fun r => { r with done := true, error := true }) m :=
    completes_modMsg ⟨rfl, rfl, rfl, rfl, rfl, rfl⟩
  have vectors : (σ.modMsg m fun r => { r with done := true, error := true }).Vectors := by
    refine sound.vectors.completes completes fun o => ?_
    rw [field_modMsg (·.nfragDone) rfl]
    exact Nat.le_add_right _ _
  constructor
  · exact sound.custody.giveUp ⟨fun _ => rfl, fun _ => rfl⟩ held rfl rfl ⟨rfl, rfl, rfl, rfl⟩
      (fun _ => rfl) (fun _ => rfl) rfl
  · exact vectors.release.kindred
      { fresh := rfl, current := rfl, vector := rfl, omsgq := fun _ => rfl, owner := fun _ => rfl,
        noreply := fun _ => rfl, done := fun _ => rfl, fdone := fun _ => rfl,
        fragOwner := fun _ => rfl, nfrag := fun _ => rfl, nfragDone := fun _ => rfl }
  · exact (sound.logged.completes completes rfl).frame rfl fun _ self => ⟨self, rfl, rfl⟩

theorem Sound.refuse (sound : σ.Sound) {m : Nat} (held : σ.current = some m) :
    (σ.refuse m).Sound := by
  unfold Proxy.refuse
  split
  · exact sound.markRefused held
  · exact (sound.markRefused held).wakeOwner m

theorem Completes.count {m : Nat} (completes : Completes σ σ' m) (o : Nat) :
    Completes σ (σ'.modMsg o fun r => { r with nfragDone := r.nfragDone + 1 }) m := by
  refine ⟨⟨completes.fresh, completes.omsgq, ?_, ?_, ?_, ?_, ?_, ?_⟩, completes.current,
    completes.vector⟩
  · exact fun x => (field_modMsg (·.owner) rfl x).trans (completes.owner x)
  · exact fun x => (field_modMsg (·.noreply) rfl x).trans (completes.noreply x)
  · exact fun x => (field_modMsg (·.done) rfl x).trans (completes.done x)
  · exact fun x => (field_modMsg (·.fdone) rfl x).trans (completes.fdone x)
  · exact fun x => (field_modMsg (·.fragOwner) rfl x).trans (completes.fragOwner x)
  · exact fun x => (field_modMsg (·.nfrag) rfl x).trans (completes.nfrag x)

/-- A request that is answered or fails. -/
theorem completes_complete {m : Nat} {f : Req → Req}
    (same : ∀ r, (f r).owner = r.owner ∧ (f r).noreply = r.noreply ∧ (f r).done = r.done ∧
      (f r).fdone = r.fdone ∧ (f r).fragOwner = r.fragOwner ∧ (f r).nfrag = r.nfrag) :
    Completes σ (σ.complete m f) m := by
  obtain ⟨owner, noreply, done, fdone, fragOwner, nfrag⟩ := same { σ.msgs m with done := true }
  have base : Completes σ (σ.modMsg m fun r => f { r with done := true }) m :=
    completes_modMsg ⟨owner, noreply, done, fdone, fragOwner, nfrag⟩
  unfold Proxy.complete
  dsimp only
  split
  · exact base.count _
  · exact base

theorem nfragDone_complete (σ : Proxy) (m : Nat) {f : Req → Req}
    (same : ∀ r, (f r).nfragDone = r.nfragDone) (x : Nat) :
    ((σ.complete m f).msgs x).nfragDone =
      (σ.msgs x).nfragDone + if (σ.msgs m).fragOwner = some x then 1 else 0 := by
  have base : ∀ y, ((σ.modMsg m fun r => f { r with done := true }).msgs y).nfragDone =
      (σ.msgs y).nfragDone := field_modMsg (·.nfragDone) (same _)
  unfold Proxy.complete
  dsimp only
  split
  · rename_i o member
    rw [msgs_modMsg, Function.update_apply, member]
    split
    · rename_i here
      rw [here, if_pos rfl, ← base o]
    · rename_i other
      rw [if_neg fun same => other (Option.some.inj same).symm, base]
      rfl
  · rename_i member
    rw [member, if_neg (by simp), base]
    rfl

section Take

variable {s m : Nat} {h : ServerConn → ServerConn}
  (perm : (σ.queue s).Perm (m :: ((h (σ.servers s)).imsgq ++ (h (σ.servers s)).omsgq)))
  (same : (h (σ.servers s)).isOpen = (σ.servers s).isOpen)

include perm same

/-- A request whose reply is wanted is taken off a server connection, and done. -/
theorem Sound.completed (sound : σ.Sound) (wanted : (σ.msgs m).swallow = false) {f : Req → Req}
    (keeps : ∀ r, (f r).owner = r.owner ∧ (f r).swallow = r.swallow ∧
      (f r).noreply = r.noreply ∧ (f r).done = r.done ∧ (f r).fdone = r.fdone ∧
      (f r).fragOwner = r.fragOwner ∧ (f r).nfrag = r.nfrag ∧ (f r).nfragDone = r.nfragDone) :
    ((σ.modServer s h).complete m f).Sound := by
  have completes : Completes (σ.modServer s h) ((σ.modServer s h).complete m f) m := by
    refine completes_complete fun r => ?_
    obtain ⟨owner, -, noreply, done, fdone, fragOwner, nfrag, -⟩ := keeps r
    exact ⟨owner, noreply, done, fdone, fragOwner, nfrag⟩
  constructor
  · refine sound.custody.completed perm same fun r => ?_
    obtain ⟨owner, swallow, noreply, done, -⟩ := keeps r
    exact ⟨owner, swallow, noreply, done⟩
  · refine (sound.vectors.modServer s h).completes completes fun o => ?_
    rw [nfragDone_complete _ _ fun r => (keeps r).2.2.2.2.2.2.2]
    by_cases member : (σ.msgs m).fragOwner = some o
    · have undone : (σ.msgs m).done = false := by
        have answered := (sound.vectors.family m o member).2.2
        exact (sound.custody.listed s m (perm.mem_iff.mpr List.mem_cons_self) wanted answered).1
      rw [msgs_modServer, if_pos member, if_pos ⟨member, undone⟩]
    · rw [msgs_modServer, if_neg member]
      exact Nat.le_add_right _ _
  · refine (sound.logged.modServer s h).completes completes ?_
    exact (complete_rest (σ.modServer s h) m f).2.2.2.2.2

/-- A message that nobody wants a reply for is taken off a server connection, and done. -/
theorem Sound.swallowed (sound : σ.Sound) (swallow : (σ.msgs m).swallow = true) :
    ((σ.modServer s h).modMsg m fun r => { r with done := true }).Sound := by
  have completes : Completes (σ.modServer s h)
      ((σ.modServer s h).modMsg m fun r => { r with done := true }) m :=
    completes_modMsg ⟨rfl, rfl, rfl, rfl, rfl, rfl⟩
  constructor
  · exact sound.custody.discarded perm same _ ⟨rfl, rfl, rfl⟩ (Or.inl swallow)
  · refine (sound.vectors.modServer s h).completes completes fun o => ?_
    rw [field_modMsg (·.nfragDone) rfl]
    exact Nat.le_add_right _ _
  · exact (sound.logged.modServer s h).completes completes rfl

/-- A message that nobody wants a reply for is taken off a server connection. -/
theorem Sound.discarded (sound : σ.Sound)
    (silent : (σ.msgs m).swallow = true ∨ (σ.msgs m).noreply = true) :
    (σ.modServer s h).Sound := by
  refine ⟨?_, sound.vectors.modServer s h, sound.logged.modServer s h⟩
  have discarded := sound.custody.discarded perm same id ⟨rfl, rfl, rfl⟩ silent
  rwa [modMsg_id] at discarded

theorem Sound.dropped (sound : σ.Sound) {silent : Bool}
    (unwanted : silent = true → (σ.msgs m).swallow = true ∨ (σ.msgs m).noreply = true)
    (wanted : silent = false → (σ.msgs m).swallow = false) :
    ((σ.modServer s h).drop m silent).Sound := by
  unfold Proxy.drop
  split
  · rename_i quiet
    exact sound.discarded perm same (unwanted quiet)
  · rename_i loud
    refine Sound.wakeOwner ?_ m
    exact sound.completed perm same (wanted (Bool.not_eq_true _ ▸ loud)) fun _ =>
      ⟨rfl, rfl, rfl, rfl, rfl, rfl, rfl, rfl⟩

end Take

theorem queue_of_imsgq {s m : Nat} {ms : List Nat} (queued : (σ.servers s).imsgq = m :: ms) :
    (σ.queue s).Perm (m :: (ms ++ (σ.servers s).omsgq)) := by
  rw [queue, queued]
  exact List.Perm.refl _

theorem queue_of_omsgq {s m : Nat} {ms : List Nat} (queued : (σ.servers s).omsgq = m :: ms) :
    (σ.queue s).Perm (m :: ((σ.servers s).imsgq ++ ms)) := by
  rw [queue, queued]
  exact List.perm_middle

theorem Sound.dropIn (sound : σ.Sound) (s : Nat) : (σ.dropIn s).Sound := by
  unfold Proxy.dropIn
  split
  · exact sound
  · rename_i m ms queued
    refine sound.dropped (queue_of_imsgq queued) rfl Bool.or_eq_true_iff.mp fun loud => ?_
    exact (Bool.or_eq_false_iff.mp loud).1

theorem Sound.dropOut (sound : σ.Sound) (s : Nat) : (σ.dropOut s).Sound := by
  unfold Proxy.dropOut
  split
  · exact sound
  · rename_i m ms queued
    exact sound.dropped (queue_of_omsgq queued) rfl Or.inl id

theorem Sound.sent (sound : σ.Sound) (s : Nat) : (σ.sent s).Sound := by
  unfold Proxy.sent
  split
  · exact sound
  · rename_i m ms queued
    split
    · rename_i quiet
      exact sound.discarded (queue_of_imsgq queued) rfl (Or.inr quiet)
    · refine sound.neutral (Neutral.of_conns (Alike.shuffle ?_ rfl) rfl rfl rfl)
      rw [queue, queued]
      simp only [List.cons_append, ← List.append_assoc]
      exact List.perm_append_singleton m _

theorem Sound.reply (sound : σ.Sound) (s : Nat) (bad : Bool) : (σ.reply s bad).Sound := by
  unfold Proxy.reply
  split
  · rename_i m ms b bs queued _
    unfold linked
    split
    · rename_i swallowed
      exact sound.swallowed (queue_of_omsgq queued) rfl swallowed
    · rename_i wanted
      refine Sound.wakeOwner ?_ m
      exact sound.completed (queue_of_omsgq queued) rfl (Bool.not_eq_true _ ▸ wanted) fun _ =>
        ⟨rfl, rfl, rfl, rfl, rfl, rfl, rfl, rfl⟩
  · exact sound

/-! ## Requests that leave -/

theorem Sound.shutClient (sound : σ.Sound) (c : Nat) (idle : σ.current = none)
    (single : σ.vector = none) : (σ.shutClient c).Sound := by
  have msgs : ∀ x, ∃ swallow, (σ.shutClient c).msgs x = { σ.msgs x with swallow := swallow } := by
    intro x
    unfold Proxy.shutClient
    dsimp only
    split
    · exact ⟨true, rfl⟩
    · exact ⟨(σ.msgs x).swallow, rfl⟩
  refine ⟨sound.custody.shutClient idle, ?_, ?_⟩
  · refine sound.vectors.leave (fun c' _ => decide (c' ≠ c)) single rfl rfl msgs ?_ ?_
    · intro c'
      have omsgq : (σ.shutClient c).omsgq c' = if c' = c then [] else σ.omsgq c' :=
        omsgq_modClient c (fun _ => {}) c'
      rw [omsgq]
      split
      · rename_i here
        simp [here]
      · rename_i other
        simp [other]
    · intro c' x o _ kept _ _
      exact ⟨kept, fun _ _ => kept⟩
  · refine sound.logged.frame rfl fun o self => ?_
    obtain ⟨swallow, eq⟩ := msgs o
    rw [eq]
    exact ⟨self, rfl, rfl⟩

/-- Requests that are done leave the queue of a client, but none of a vector request that is not
found done. -/
theorem Sound.left (sound : σ.Sound) {c : Nat} (keep : Nat → Bool) (single : σ.vector = none)
    (gone : ∀ x ∈ σ.omsgq c, keep x = false → (σ.msgs x).done = true)
    (whole : ∀ x o, keep x = false → x ∈ σ.omsgq c → (σ.msgs x).fragOwner = some o →
      (σ.msgs o).fdone = true) :
    (σ.modClient c fun conn => { conn with omsgq := (σ.omsgq c).filter keep }).Sound := by
  refine ⟨sound.custody.left List.filter_sublist ?_, ?_,
    sound.logged.frame rfl fun _ self => ⟨self, rfl, rfl⟩⟩
  · intro x inside
    cases kept : keep x with
    | true => exact Or.inl (List.mem_filter.mpr ⟨inside, kept⟩)
    | false => exact Or.inr (gone x inside kept)
  · refine sound.vectors.leave (fun c' x => decide (c' ≠ c) || keep x) single rfl rfl
      (fun x => ⟨(σ.msgs x).swallow, rfl⟩) ?_ ?_
    · intro c'
      rw [omsgq_modClient]
      split
      · rename_i here
        simp [here]
      · rename_i other
        simp [other]
    · intro c' x o inside _ member unmarked
      by_cases here : c' = c
      · subst here
        -- everything of the request is in this queue, and so stays
        have stays : ∀ y ∈ σ.omsgq c', (σ.msgs y).fragOwner = some o → keep y = true := by
          intro y listed member'
          by_contra dropped
          have marked := whole y o (Bool.not_eq_true _ ▸ dropped) listed member'
          rw [unmarked] at marked
          cases marked
        obtain ⟨before, after, queue, -⟩ := sound.vectors.block c' x inside o member unmarked
        have owner : o ∈ σ.omsgq c' := by
          rw [queue]
          exact List.mem_append_right _ List.mem_cons_self
        refine ⟨?_, fun y fragment => ?_⟩
        · rw [stays o owner (sound.vectors.family x o member).1, Bool.or_true]
        · have listed : y ∈ σ.omsgq c' := by
            rw [queue]
            exact List.mem_append_right _ (List.mem_cons_of_mem _ (List.mem_append_left _ fragment))
          rw [stays y listed (mem_fragments.mp fragment).2.2, Bool.or_true]
      · simp [here]

theorem Sound.finish (sound : σ.Sound) {c m : Nat} (listed : m ∈ σ.omsgq c)
    (complete : σ.Complete m) (single : σ.vector = none) :
    (σ.modClient c fun conn => { conn with omsgq := conn.omsgq.erase m }).Sound := by
  have filter : (σ.modClient c fun conn => { conn with omsgq := conn.omsgq.erase m }) =
      σ.modClient c fun conn => { conn with omsgq := (σ.omsgq c).filter fun x => x != m } := by
    unfold modClient
    congr 2
    rw [← (sound.custody.client_nodup c).erase_eq_filter]
    rfl
  rw [filter]
  refine sound.left _ single ?_ ?_
  · intro x _ dropped
    have here : x = m := by simpa using dropped
    rw [here]
    exact complete.1
  · intro x o dropped _ member
    have here : x = m := by simpa using dropped
    subst here
    rw [← sound.vectors.coherent c x listed o member]
    refine complete.2.resolve_left ?_
    rw [member]
    exact Option.some_ne_none o

section Offer

variable {c m : Nat} {before after : List Nat}

/-- After `req_done`, the request and its vector request are complete. -/
theorem marked_of_reqDone (sound : σ.Sound) (queue : σ.omsgq c = before ++ m :: after)
    (complete : ∀ x ∈ before, σ.Complete x) (found : σ.reqDone before.reverse m after = true)
    {o : Nat} (member : (σ.msgs m).fragOwner = some o) :
    ((σ.markDone before.reverse m after).msgs o).fdone = true := by
  unfold markDone
  rw [member, found]
  dsimp only
  cases marked : (σ.msgs m).fdone with
  | true =>
    have listed : m ∈ σ.omsgq c := by
      rw [queue]
      exact List.mem_append_right _ List.mem_cons_self
    rw [if_neg (by simp), ← sound.vectors.coherent c m listed o member]
    exact marked
  | false =>
    obtain ⟨rfl, -⟩ :=
      settled_of_reqDone sound.custody sound.vectors queue complete found member marked
    rw [if_pos (by simp)]
    dsimp only
    rw [if_pos List.mem_cons_self]

theorem filter_siblings (nodup : (before ++ m :: after).Nodup) :
    (before ++ m :: after).filter (fun x => decide (x ∉ σ.siblings m after)) =
      before ++ m :: after.drop (σ.siblings m after).length := by
  have parts : after = σ.siblings m after ++ after.drop (σ.siblings m after).length := by
    nth_rewrite 1 [← List.take_append_drop (σ.siblings m after).length after]
    congr 1
    exact (List.prefix_iff_eq_take.mp (List.takeWhile_prefix _)).symm
  generalize σ.siblings m after = gone at parts
  generalize after.drop gone.length = rest at parts
  subst parts
  simp only [List.nodup_append, List.nodup_cons, List.mem_append, List.mem_cons] at nodup
  obtain ⟨-, ⟨alone, -, -, apart⟩, distinct⟩ := nodup
  rw [List.filter_append, List.filter_cons, List.filter_append]
  rw [List.filter_eq_self.mpr, if_pos, List.filter_eq_nil_iff.mpr, List.nil_append,
    List.filter_eq_self.mpr]
  · intro x inside
    simp only [decide_eq_true_iff]
    exact fun dropped => apart x dropped x inside rfl
  · intro x inside
    simp [inside]
  · simp only [decide_eq_true_iff]
    exact fun dropped => alone (Or.inl dropped)
  · intro x inside
    simp only [decide_eq_true_iff]
    exact fun dropped => distinct x inside x (Or.inr (Or.inl dropped)) rfl

theorem Neutral.makeError (σ : Proxy) (before : List Nat) (m : Nat) (after : List Nat) :
    Neutral σ (σ.makeError before m after) := by
  have field : ∀ {α : Type} (p : Req → α), (∀ r, p { r with ferror := true } = p r) →
      (∀ r peer, p { r with peer := peer } = p r) → ∀ x,
      p ((σ.makeError before m after).msgs x) = p (σ.msgs x) := fun p same same' x =>
    (field_modMsg p (same' _ _) x).trans (field_markError p same before m after x)
  obtain ⟨msgs, eq, -⟩ := markError_eq σ before m after
  refine ⟨(Alike.markError before m after).trans (Alike.peer m _), ?_, ?_,
    field _ (fun _ => rfl) fun _ _ => rfl, field _ (fun _ => rfl) fun _ _ => rfl,
    field _ (fun _ => rfl) fun _ _ => rfl, field _ (fun _ => rfl) fun _ _ => rfl⟩ <;>
    unfold Proxy.makeError <;> rw [eq] <;> rfl

theorem Sound.offered (sound : σ.Sound) (queue : σ.omsgq c = before ++ m :: after)
    (complete : ∀ x ∈ before, σ.Complete x) (found : σ.reqDone before.reverse m after = true)
    (single : σ.vector = none) : (σ.offered c before m after).Sound := by
  have marked := sound.markDone queue complete
  have neutral := Neutral.makeError (σ.markDone before.reverse m after) before.reverse m after
  have told := marked.neutral neutral
  obtain ⟨msgs, log, eq, -⟩ := markDone_eq σ before.reverse m after
  unfold Proxy.offered
  dsimp only
  split
  · split
    · rename_i o member
      have finished := (neutral.fdone o).trans
        (marked_of_reqDone sound queue complete found member)
      have fragOwner : ∀ x, (((σ.markDone before.reverse m after).makeError before.reverse m
          after).msgs x).fragOwner = (σ.msgs x).fragOwner := by
        intro x
        rw [neutral.fragOwner, field_markDone (·.fragOwner) fun _ => rfl]
      have omsgq := (neutral.omsgq c).trans ((Alike.markDone σ before.reverse m after).omsgq c)
      have nodup := sound.custody.client_nodup c
      rw [queue] at nodup omsgq
      -- what is dropped belongs to the request, which is marked by now
      have siblings : ∀ x, decide (x ∉ σ.siblings m after) = false →
          (σ.msgs x).fragOwner = some o := by
        intro x dropped
        have inside : x ∈ σ.siblings m after := by simpa using dropped
        exact (mem_siblings inside).2.trans member
      rw [← filter_siblings nodup, ← omsgq]
      refine told.left _ ?_ ?_ ?_
      · rw [neutral.vector, eq]
        exact single
      · intro x _ dropped
        exact told.vectors.finished x o ((fragOwner x).trans (siblings x dropped)) finished
      · intro x o' dropped _ member'
        rw [fragOwner, siblings x dropped] at member'
        rw [← Option.some.inj member']
        exact finished
    · exact told
  · exact marked

end Offer

/-! ## All actions -/

/-- The invariants are kept by every action that can be taken. -/
theorem Sound.act (sound : σ.Sound) {a : Action} (enabled : σ.Enabled a) :
    (σ.act hs a).Sound := by
  cases a with
  | accept c =>
    have empty := sound.custody.client_closed c enabled.1
    exact sound.neutral (Neutral.of_conns (Alike.accept empty) rfl rfl rfl)
  | answer c => exact sound.answer enabled.1 enabled.2.1 enabled.2.2
  | fragment c n => exact sound.fragment enabled.1 enabled.2.1 enabled.2.2.1 enabled.2.2.2
  | enqueue c noreply => exact sound.enqueue enabled.1 enabled.2.1 enabled.2.2
  | connect s immediate =>
    have empty := sound.custody.server_closed s enabled
    exact sound.neutral (Neutral.of_conns (Alike.renew _ empty ⟨rfl, rfl⟩) rfl rfl rfl)
  | forward s =>
    obtain ⟨m, held, act⟩ := enabled.forward hs
    rw [act]
    exact sound.forward enabled.1 held
  | refuse =>
    obtain ⟨m, held, act⟩ := enabled.refuse hs
    rw [act]
    exact sound.refuse held
  | dropIn s => exact sound.dropIn s
  | dropOut s => exact sound.dropOut s
  | shut s => exact sound.neutral (Neutral.of_conns (Alike.renew _ enabled ⟨rfl, rfl⟩) rfl rfl rfl)
  | connected s => exact sound.connected enabled.1
  | sent s => exact sound.sent s
  | serverIdle s =>
    simp only [Proxy.act]
    exact sound.neutral (Neutral.of_conns (Alike.shuffle (List.Perm.refl _) rfl) rfl rfl rfl)
  | reply s bad => exact sound.reply s bad
  | shutClient c => exact sound.shutClient c enabled.2.1 enabled.2.2
  | offer c i =>
    obtain ⟨m, after, queue, found, act⟩ := enabled.offer hs
    obtain ⟨-, -, -, single, complete, -⟩ := enabled
    rw [act]
    exact sound.offered queue complete found single
  | finish c m => exact sound.finish enabled.1 enabled.2.2.1 enabled.2.2.2.2
  | clientIdle c => exact sound.active c false

/-- They hold when the proxy starts. -/
theorem sound_start : ({} : Proxy).Sound := by
  refine ⟨⟨?_, ?_, ?_, ?_, ?_, ?_⟩, ?_, ?_⟩
  · constructor <;> simp [Proxy.omsgq]
  · constructor <;> simp [Proxy.queue]
  · simp [Proxy.omsgq]
  · simp [Proxy.omsgq]
  · simp [Proxy.queue]
  · simp
  · constructor <;> simp [Proxy.omsgq]
  · constructor <;> simp

end Nutcracker.Proxy
