import Nutcracker.Proxy.Accounting

/-!
# Requests and replies

Which reply belongs to which request is a matter of position: the first message of a
server's `omsg_q` is the request that the server answers next.  Replies are offered to
a client from the head of its queue on, in which the requests stand in the order in
which they were received.
-/

namespace Nutcracker

namespace Req

/-- The proxy replies to the request `m` itself: it is not forwarded, it is a vector request, or it
is in error. -/
def Excused (m : Nat) (r : Req) : Prop :=
  r.noforward = true ∨ r.fragOwner = some m ∨ r.error = true ∨ r.ferror = true

/-- A change to the request `m` that neither completes it nor takes back a mark, and that gives it a
reply only if that is one of the proxy's own. -/
structure Keeps (m : Nat) (r r' : Req) : Prop where
  done : r'.done = r.done
  error : r'.error = r.error
  peer : r'.peer = r.peer ∨ r'.peer = some .own ∧ r'.Excused m
  excused : r.Excused m → r'.Excused m

theorem Keeps.refl (m : Nat) (r : Req) : r.Keeps m r :=
  ⟨rfl, rfl, Or.inl rfl, id⟩

end Req

namespace Proxy

variable {hs : Handshake} {σ σ' : Proxy}

/-- Replies and requests belong together. -/
structure Paired (σ : Proxy) : Prop where
  backend : ∀ s, (σ.servers s).backend = (σ.servers s).omsgq
  peers : ∀ m x, (σ.msgs m).peer = some (.server x) → x = m
  own : ∀ m, (σ.msgs m).peer = some .own → (σ.msgs m).Excused m
  replied : ∀ c, ∀ m ∈ σ.omsgq c, (σ.msgs m).done = true → (σ.msgs m).error = false →
    (σ.msgs m).peer ≠ none
  sorted : ∀ c, (σ.omsgq c).Pairwise (· < ·)

theorem Paired.frame (paired : σ.Paired)
    (servers : ∀ s, (σ'.servers s).backend = (σ'.servers s).omsgq)
    (msgs : ∀ x, (σ.msgs x).Keeps x (σ'.msgs x))
    (omsgq : ∀ c, (σ'.omsgq c).Sublist (σ.omsgq c)) : σ'.Paired := by
  refine ⟨servers, fun m x peer => ?_, fun m peer => ?_, fun c m inside done fine => ?_,
    fun c => (paired.sorted c).sublist (omsgq c)⟩
  · rcases (msgs m).peer with same | ⟨own, -⟩
    · exact paired.peers m x (same ▸ peer)
    · rw [own] at peer
      cases peer
  · rcases (msgs m).peer with same | ⟨-, excused⟩
    · exact (msgs m).excused (paired.own m (same ▸ peer))
    · exact excused
  · rw [(msgs m).done] at done
    rw [(msgs m).error] at fine
    rcases (msgs m).peer with same | ⟨own, -⟩
    · rw [same]
      exact paired.replied c m ((omsgq c).subset inside) done fine
    · rw [own]
      exact Option.some_ne_none _

theorem Paired.modServer (paired : σ.Paired) (s : Nat) {h : ServerConn → ServerConn}
    (same : (h (σ.servers s)).backend = (h (σ.servers s)).omsgq) : (σ.modServer s h).Paired := by
  refine paired.frame (fun s' => ?_) (fun x => .refl x _) fun _ => List.Sublist.refl _
  rw [servers_modServer, Function.update_apply]
  split
  · exact same
  · exact paired.backend s'

theorem Paired.modClient (paired : σ.Paired) (c : Nat) {g : ClientConn → ClientConn}
    (sublist : (g (σ.clients c)).omsgq.Sublist (σ.omsgq c)) : (σ.modClient c g).Paired := by
  refine paired.frame paired.backend (fun x => .refl x _) fun c' => ?_
  rw [omsgq_modClient]
  split
  · rename_i here
    rw [here]
    exact sublist
  · exact List.Sublist.refl _

theorem Paired.wakeOwner (paired : σ.Paired) (m : Nat) : (σ.wakeOwner m).Paired := by
  refine paired.frame (fun s => ?_) (fun x => ?_) fun c => ?_
  · rw [servers_wakeOwner]
    exact paired.backend s
  · unfold Proxy.wakeOwner
    split
    · rename_i c _
      obtain ⟨msgs, log, active, eq, marks⟩ := wake_eq σ c
      rw [eq, msgs_modClient]
      rcases marks x with mark | mark <;> dsimp only <;> rw [mark] <;>
        exact ⟨rfl, rfl, Or.inl rfl, id⟩
    · exact .refl x _
  · rw [(Alike.wakeOwner m).omsgq]

/-! ## New messages -/

section New

variable {r : Req} (msgs : σ'.msgs = Function.update σ.msgs σ.fresh r)

include msgs

theorem Paired.new (paired : σ.Paired) (below : ∀ c, ∀ x ∈ σ.omsgq c, x < σ.fresh)
    (servers : σ'.servers = σ.servers)
    (peer : ∀ x, r.peer ≠ some (.server x)) (own : r.peer = some .own → r.Excused σ.fresh)
    (answered : r.done = true → r.peer ≠ none)
    (omsgq : ∀ c, σ'.omsgq c = σ.omsgq c ∨ σ'.omsgq c = σ.omsgq c ++ [σ.fresh]) : σ'.Paired := by
  constructor
  · rw [servers]
    exact paired.backend
  · intro m x linked
    by_cases here : m = σ.fresh
    · rw [here, msgs_fresh msgs] at linked
      exact absurd linked (peer x)
    · rw [msgs, Function.update_of_ne here] at linked
      exact paired.peers m x linked
  · intro m linked
    by_cases here : m = σ.fresh
    · rw [here, msgs_fresh msgs] at linked ⊢
      exact own linked
    · rw [msgs, Function.update_of_ne here] at linked ⊢
      exact paired.own m linked
  · intro c m inside done fine
    by_cases here : m = σ.fresh
    · rw [here, msgs_fresh msgs] at done ⊢
      exact answered done
    · rw [msgs, Function.update_of_ne here] at done fine ⊢
      refine paired.replied c m ?_ done fine
      rcases omsgq c with same | longer
      · rwa [same] at inside
      · rw [longer, List.mem_append, List.mem_singleton] at inside
        exact inside.resolve_right here
  · intro c
    rcases omsgq c with same | longer
    · rw [same]
      exact paired.sorted c
    · rw [longer, List.pairwise_append]
      refine ⟨paired.sorted c, List.pairwise_singleton _ _, fun x inside y last => ?_⟩
      rw [List.mem_singleton.mp last]
      exact below c x inside

end New

theorem omsgq_join_or (c : Nat) (r : Req) (c' : Nat) :
    (σ.join c r).omsgq c' = σ.omsgq c' ∨ (σ.join c r).omsgq c' = σ.omsgq c' ++ [σ.fresh] := by
  rw [omsgq_join]
  split
  · rename_i here
    rw [here]
    exact Or.inr rfl
  · exact Or.inl rfl

theorem Paired.addAuth (paired : σ.Paired) (below : ∀ c, ∀ x ∈ σ.omsgq c, x < σ.fresh)
    (hs : Handshake) (s : Nat) (owner : Option Nat) : (σ.addAuth hs s owner).Paired := by
  unfold Proxy.addAuth
  split
  · refine Paired.modServer ?_ s (paired.backend s)
    exact paired.new (r := { owner := owner, swallow := true }) rfl below rfl
      (fun _ => by simp) (fun own => by cases own) (fun done => by cases done) fun _ => Or.inl rfl
  · exact paired

theorem Paired.postConnect (paired : σ.Paired) (below : ∀ c, ∀ x ∈ σ.omsgq c, x < σ.fresh)
    (hs : Handshake) (s : Nat) : (σ.postConnect hs s).Paired := by
  unfold Proxy.postConnect
  split
  · refine Paired.modServer ?_ s (paired.backend s)
    exact paired.new (r := { swallow := true }) rfl below rfl (fun _ => by simp)
      (fun own => by cases own) (fun done => by cases done) fun _ => Or.inl rfl
  · exact paired

/-! ## Messages that become done -/

/-- A message that fails. -/
theorem Paired.failed (paired : σ.Paired) {m : Nat} (servers : σ'.servers = σ.servers)
    (omsgq : ∀ c, σ'.omsgq c = σ.omsgq c) (failed : (σ'.msgs m).error = true)
    (peers : ∀ x, (σ'.msgs x).peer = (σ.msgs x).peer)
    (rest : ∀ x, x ≠ m → (σ.msgs x).Keeps x (σ'.msgs x)) : σ'.Paired := by
  constructor
  · rw [servers]
    exact paired.backend
  · intro x y linked
    rw [peers] at linked
    exact paired.peers x y linked
  · intro x linked
    by_cases here : x = m
    · rw [here]
      exact Or.inr (Or.inr (Or.inl failed))
    · rw [peers] at linked
      exact (rest x here).excused (paired.own x linked)
  · intro c x inside done fine
    have other : x ≠ m := by
      rintro rfl
      rw [failed] at fine
      cases fine
    rw [(rest x other).done] at done
    rw [(rest x other).error] at fine
    rw [omsgq] at inside
    rw [peers]
    exact paired.replied c x inside done fine
  · intro c
    rw [omsgq]
    exact paired.sorted c

theorem Paired.markRefused (paired : σ.Paired) (m : Nat) : (σ.markRefused m).Paired := by
  refine paired.failed (m := m) rfl (fun _ => rfl) ?_ (fun x => ?_) fun x other => ?_
  · rw [msgs_markRefused, Function.update_self]
  · exact field_markRefused (·.peer) (fun _ => rfl) x
  · rw [msgs_markRefused, Function.update_of_ne other]
    exact .refl x _

/-- What `complete` does to the messages, as far as replies go. -/
theorem complete_peer (σ : Proxy) (m x : Nat) (f : Req → Req) :
    (x ≠ m → ((σ.complete m f).msgs x).peer = (σ.msgs x).peer ∧
      (σ.msgs x).Keeps x ((σ.complete m f).msgs x)) ∧
    ((σ.complete m f).msgs m).peer = (f { σ.msgs m with done := true }).peer ∧
    ((σ.complete m f).msgs m).error = (f { σ.msgs m with done := true }).error := by
  have field : ∀ {α : Type} (p : Req → α), (∀ r n, p { r with nfragDone := n } = p r) →
      ∀ x ≠ m, p ((σ.complete m f).msgs x) = p (σ.msgs x) := fun p same x other =>
    (field_complete p same x).trans (if_neg other)
  refine ⟨fun other => ?_, ?_, ?_⟩
  · have peer := field (·.peer) (fun _ _ => rfl) x other
    have excused := field (Req.Excused x) (fun _ _ => rfl) x other
    exact ⟨peer, field (·.done) (fun _ _ => rfl) x other, field (·.error) (fun _ _ => rfl) x other,
      Or.inl peer, excused.mpr⟩
  · rw [field_complete (·.peer) fun _ _ => rfl, if_pos rfl]
  · rw [field_complete (·.error) fun _ _ => rfl, if_pos rfl]

theorem Paired.drop (paired : σ.Paired) (m : Nat) (silent : Bool) : (σ.drop m silent).Paired := by
  unfold Proxy.drop
  split
  · exact paired
  · refine Paired.wakeOwner ?_ m
    obtain ⟨-, clients, servers, -⟩ := complete_rest σ m fun r => { r with error := true }
    refine paired.failed (m := m) servers (fun c => ?_) ?_ (fun x => ?_) fun x other => ?_
    · unfold Proxy.omsgq
      rw [clients]
    · exact (complete_peer σ m m _).2.2
    · by_cases here : x = m
      · rw [here, (complete_peer σ m m _).2.1]
      · exact ((complete_peer σ m x _).1 here).1
    · exact ((complete_peer σ m x _).1 other).2

/-- A reply of the server is linked to the request that it belongs to. -/
theorem Paired.linked (paired : σ.Paired)
    (wanted : ∀ c, ∀ x ∈ σ.omsgq c, (σ.msgs x).swallow = false) (m : Nat) (bad : Bool) :
    (σ.linked m m bad).Paired := by
  unfold Proxy.linked
  split
  · rename_i swallowed
    have peer := field_modMsg (σ := σ) (m := m) (f := fun r => { r with done := true }) (·.peer) rfl
    have excused : ∀ x, _ = (σ.msgs x).Excused x := fun x =>
      field_modMsg (m := m) (f := fun r => { r with done := true }) (Req.Excused x) rfl x
    refine ⟨paired.backend, fun x y linked => ?_, fun x linked => ?_,
      fun c x inside done fine => ?_, paired.sorted⟩
    · exact paired.peers x y ((peer x).symm.trans linked)
    · exact (excused x).mpr (paired.own x ((peer x).symm.trans linked))
    · have other : x ≠ m := by
        rintro rfl
        rw [wanted c x inside] at swallowed
        cases swallowed
      rw [msgs_modMsg, Function.update_of_ne other] at done fine ⊢
      exact paired.replied c x inside done fine
  · refine Paired.wakeOwner ?_ m
    obtain ⟨-, clients, servers, -⟩ := complete_rest σ m fun r =>
      { r with
        peer := some (.server m)
        error := r.error || (bad && r.fragOwner.isSome) }
    have peer := complete_peer σ m m fun r =>
      { r with
        peer := some (.server m)
        error := r.error || (bad && r.fragOwner.isSome) }
    constructor
    · rw [servers]
      exact paired.backend
    · intro x y linked
      by_cases here : x = m
      · rw [here, peer.2.1] at linked
        simp only [Option.some.injEq, Reply.server.injEq] at linked
        rw [here, linked]
      · rw [((complete_peer σ m x _).1 here).1] at linked
        exact paired.peers x y linked
    · intro x linked
      by_cases here : x = m
      · rw [here, peer.2.1] at linked
        cases linked
      · obtain ⟨same, keeps⟩ := (complete_peer σ m x _).1 here
        exact keeps.excused (paired.own x (same ▸ linked))
    · intro c x inside done fine
      by_cases here : x = m
      · rw [here, peer.2.1]
        exact Option.some_ne_none _
      · obtain ⟨same, keeps⟩ := (complete_peer σ m x fun r =>
          { r with
            peer := some (.server m)
            error := r.error || (bad && r.fragOwner.isSome) }).1 here
        rw [keeps.done] at done
        rw [keeps.error] at fine
        rw [same]
        refine paired.replied c x ?_ done fine
        unfold Proxy.omsgq at inside
        rwa [clients] at inside
    · intro c
      unfold Proxy.omsgq
      rw [clients]
      exact paired.sorted c

/-! ## Every action -/

theorem Paired.forward (paired : σ.Paired) (below : ∀ c, ∀ x ∈ σ.omsgq c, x < σ.fresh)
    (hs : Handshake) (s m : Nat) : (σ.forward hs s m).Paired := by
  have paired' : (σ.modServer s fun conn =>
      { conn with sendActive := conn.sendActive || conn.imsgq.isEmpty }).Paired :=
    paired.modServer s (paired.backend s)
  have told := paired'.addAuth below hs s (σ.msgs m).owner
  have final : ((((σ.modServer s fun conn =>
      { conn with sendActive := conn.sendActive || conn.imsgq.isEmpty }).addAuth hs s
    (σ.msgs m).owner).modServer s fun conn => { conn with imsgq := conn.imsgq ++ [m] })).Paired :=
    told.modServer s (told.backend s)
  exact final.frame final.backend (fun x => .refl x _) fun _ => List.Sublist.refl _

theorem Paired.markDone (paired : σ.Paired) (before : List Nat) (m : Nat) (after : List Nat) :
    (σ.markDone before m after).Paired := by
  obtain ⟨msgs, log, eq, marks⟩ := markDone_eq σ before m after
  rw [eq]
  refine paired.frame paired.backend (fun x => ?_) fun _ => List.Sublist.refl _
  rcases marks x with mark | mark <;> dsimp only <;> rw [mark] <;> exact ⟨rfl, rfl, Or.inl rfl, id⟩

/-- After `req_error` has found a request in error, it is marked. -/
theorem markError_marks {before after : List Nat} {m : Nat}
    (found : σ.reqError before m after = true) :
    ((σ.markError before m after).msgs m).error = true ∨
      ((σ.markError before m after).msgs m).ferror = true := by
  unfold Proxy.markError
  dsimp only
  split
  · exact Or.inr (by simp)
  · rename_i unmarked
    simp only [found, Bool.and_true, Bool.and_eq_true, Bool.not_eq_true'] at unmarked
    simp only [Proxy.reqError, Bool.or_eq_true, Bool.and_eq_true] at found
    grind

theorem Paired.makeError (paired : σ.Paired) {before after : List Nat} {m : Nat}
    (found : σ.reqError before m after = true) : (σ.makeError before m after).Paired := by
  have marked := markError_marks found
  obtain ⟨msgs, eq, marks⟩ := markError_eq σ before m after
  unfold Proxy.makeError
  rw [eq] at marked ⊢
  have keeps : ∀ x, (σ.msgs x).Keeps x (msgs x) := by
    intro x
    rcases marks x with mark | mark <;> rw [mark]
    · exact .refl x _
    · exact ⟨rfl, rfl, Or.inl rfl, fun _ => Or.inr (Or.inr (Or.inr rfl))⟩
  refine paired.frame paired.backend (fun x => ?_) fun _ => List.Sublist.refl _
  rw [msgs_modMsg, Function.update_apply]
  split
  · rename_i here
    rw [here]
    have excused : Req.Excused m { msgs m with peer := some .own } := Or.inr (Or.inr marked)
    exact ⟨(keeps m).done, (keeps m).error, Or.inr ⟨rfl, excused⟩, fun _ => excused⟩
  · exact keeps x

theorem Paired.offered (paired : σ.Paired) {c m : Nat} {before after : List Nat}
    (queue : σ.omsgq c = before ++ m :: after) : (σ.offered c before m after).Paired := by
  have marked := paired.markDone before.reverse m after
  unfold Proxy.offered
  dsimp only
  split
  · rename_i found
    have failed := marked.makeError found
    split
    · refine failed.modClient c ?_
      have same : ((σ.markDone before.reverse m after).makeError before.reverse m after).omsgq c =
          σ.omsgq c := by
        rw [(Neutral.makeError _ before.reverse m after).omsgq, (Alike.markDone σ _ m after).omsgq]
      rw [same, queue]
      exact List.Sublist.append_left ((List.drop_sublist _ _).cons_cons m) before
    · exact failed
  · exact marked

theorem Paired.shutClient (paired : σ.Paired) (c : Nat) : (σ.shutClient c).Paired := by
  refine paired.frame paired.backend (fun x => ?_) fun c' => ?_
  · unfold Proxy.shutClient
    dsimp only
    split <;> exact ⟨rfl, rfl, Or.inl rfl, id⟩
  · unfold Proxy.shutClient Proxy.omsgq
    dsimp only
    rw [Function.update_apply]
    split
    · exact List.nil_sublist _
    · exact List.Sublist.refl _

/-- Every action keeps replies and requests together. -/
theorem Paired.act (paired : σ.Paired) (sound : σ.Sound) {a : Action} (enabled : σ.Enabled a) :
    (σ.act hs a).Paired := by
  have below := sound.custody.client_lt
  cases a with
  | accept c =>
    simp only [Proxy.act]
    apply paired.modClient c
    exact List.nil_sublist _
  | answer c =>
    have joined :
        (σ.join c { owner := some c, noforward := true, done := true, peer := some .own }).Paired :=
      paired.new rfl below rfl (fun _ => by simp) (fun _ => Or.inl rfl) (fun _ => by simp)
        (omsgq_join_or c _)
    simp only [Proxy.act, Proxy.answer]
    apply joined.modClient c
    exact List.Sublist.refl _
  | fragment c n =>
    exact paired.new (msgs_join c _) below rfl (fun _ => by simp) (fun _ => Or.inr (Or.inl rfl))
      (fun _ => by simp) (omsgq_join_or c _)
  | enqueue c noreply =>
    cases noreply with
    | false =>
      exact paired.new (msgs_join c _) below rfl (fun _ => by simp [newMsg])
        (fun own => by cases own) (fun done => by cases done) (omsgq_join_or c _)
    | true =>
      exact paired.new (msgs_alloc _) below rfl (fun _ => by simp [newMsg])
        (fun own => by cases own) (fun done => by cases done) fun _ => Or.inl rfl
  | connect s immediate =>
    simp only [Proxy.act]
    apply paired.modServer s
    rfl
  | forward s =>
    obtain ⟨m, held, act⟩ := enabled.forward hs
    rw [act]
    exact paired.forward below hs s m
  | refuse =>
    obtain ⟨m, held, act⟩ := enabled.refuse hs
    rw [act, Proxy.refuse]
    split
    · exact paired.markRefused m
    · exact (paired.markRefused m).wakeOwner m
  | dropIn s =>
    simp only [Proxy.act, Proxy.dropIn]
    split
    · exact paired
    · exact (paired.modServer s (paired.backend s)).drop _ _
  | dropOut s =>
    simp only [Proxy.act, Proxy.dropOut]
    split
    · exact paired
    · rename_i m ms queue
      refine (paired.modServer s ?_).drop _ _
      rw [paired.backend s, queue]
      rfl
  | shut s =>
    simp only [Proxy.act]
    apply paired.modServer s
    rfl
  | connected s =>
    have settled : (σ.modServer s fun conn => { conn with connecting := false }).Paired :=
      paired.modServer s (paired.backend s)
    exact settled.postConnect below hs s
  | sent s =>
    simp only [Proxy.act, Proxy.sent]
    split
    · exact paired
    · split
      · exact paired.modServer s (paired.backend s)
      · refine paired.modServer s ?_
        rw [paired.backend s]
  | serverIdle s =>
    simp only [Proxy.act]
    apply paired.modServer s
    exact paired.backend s
  | reply s bad =>
    have backend := paired.backend s
    simp only [Proxy.act, Proxy.reply]
    split
    · rename_i m ms b bs omsgq answered
      rw [omsgq, answered, List.cons.injEq] at backend
      rw [backend.1]
      refine Paired.linked (paired.modServer s backend.2) (fun c x inside => ?_) m bad
      exact (sound.custody.owned c x inside).2.1
    · exact paired
  | shutClient c => exact paired.shutClient c
  | offer c i =>
    obtain ⟨m, after, queue, -, act⟩ := enabled.offer hs
    rw [act]
    exact paired.offered queue
  | finish c m =>
    simp only [Proxy.act]
    apply paired.modClient c
    exact List.erase_sublist
  | clientIdle c =>
    simp only [Proxy.act]
    apply paired.modClient c
    exact List.Sublist.refl _

/-! ## Offers -/

/-- An offered request has a reply, and the replies of others stay. -/
theorem peer_offered (paired : σ.Paired) {c m : Nat} {before after : List Nat}
    (queue : σ.omsgq c = before ++ m :: after) (done : (σ.msgs m).done = true) :
    ((σ.offered c before m after).msgs m).peer ≠ none ∧
      ∀ x, (σ.msgs x).peer ≠ none → ((σ.offered c before m after).msgs x).peer ≠ none := by
  have kept : ∀ x, ((σ.markDone before.reverse m after).msgs x).peer = (σ.msgs x).peer := by
    exact field_markDone (·.peer) (fun _ => rfl) before.reverse m after
  have told : ∀ x,
      (((σ.markDone before.reverse m after).makeError before.reverse m after).msgs x).peer =
        if x = m then some .own else (σ.msgs x).peer := by
    intro x
    unfold Proxy.makeError
    rw [msgs_modMsg, Function.update_apply]
    split
    · rfl
    · rw [← kept x, field_markError (·.peer) fun _ => rfl]
  have failed : ∀ x, x = m ∨ (σ.msgs x).peer ≠ none →
      (((σ.markDone before.reverse m after).makeError before.reverse m after).msgs x).peer ≠
        none := by
    intro x which
    rw [told x]
    split
    · exact Option.some_ne_none _
    · rename_i other
      exact which.resolve_left other
  unfold Proxy.offered
  dsimp only
  split
  · split
    · rw [msgs_modClient]
      exact ⟨failed m (Or.inl rfl), fun x peer => failed x (Or.inr peer)⟩
    · exact ⟨failed m (Or.inl rfl), fun x peer => failed x (Or.inr peer)⟩
  · rename_i fine
    refine ⟨?_, fun x peer => (kept x).symm ▸ peer⟩
    have marked := paired.markDone before.reverse m after
    have alike := Alike.markDone σ before.reverse m after
    refine marked.replied c m ?_ ?_ ?_
    · rw [alike.omsgq, queue]
      exact List.mem_append_right _ List.mem_cons_self
    · rw [alike.done]
      exact done
    · simp only [Proxy.reqError, Bool.or_eq_true, not_or, Bool.not_eq_true] at fine
      exact fine.1

/-- The offers of one pass of the loop: the queue is in the order of reception, and those at its
head that are offered are complete, each with its own reply. -/
structure InOrder (σ : Proxy) (c n : Nat) : Prop where
  sorted : (σ.omsgq c).Pairwise (· < ·)
  offered : ((σ.omsgq c).take n).length = n
  complete : ∀ x ∈ (σ.omsgq c).take n, σ.Complete x
  replies : ∀ x ∈ (σ.omsgq c).take n,
    ((σ.msgs x).peer = some .own ∧ (σ.msgs x).Excused x) ∨ (σ.msgs x).peer = some (.server x)

theorem Steps.paired (steps : Steps hs σ σ') (sound : σ.Sound) (paired : σ.Paired) :
    σ'.Paired := by
  have keep : ∀ (τ : Proxy) a, τ.Sound ∧ τ.Paired → τ.Enabled a →
      (τ.act hs a).Sound ∧ (τ.act hs a).Paired := by
    intro τ a told enabled
    exact ⟨told.1.act enabled, told.2.act told.1 enabled⟩
  exact (steps.invariant keep ⟨sound, paired⟩).2

/-- The requests that are offered have replies. -/
theorem offers_replied (hs : Handshake) {c : Nat} (draining : σ.Draining c) (paired : σ.Paired)
    (n : Nat) (offerable : ∀ i < n, (σ.offers hs c i).offerable c i = true) :
    (((σ.offers hs c n).omsgq c).take n).length = n ∧
      ∀ x ∈ ((σ.offers hs c n).omsgq c).take n, ((σ.offers hs c n).msgs x).peer ≠ none := by
  induction n with
  | zero => exact ⟨rfl, fun x inside => by simp at inside⟩
  | succ n ih =>
    have earlier : ∀ i < n, (σ.offers hs c i).offerable c i = true :=
      fun i lt => offerable i (Nat.lt_succ_of_lt lt)
    obtain ⟨length, replied⟩ := ih earlier
    obtain ⟨steps, draining', complete⟩ := offers_spec hs draining n earlier
    have paired' := steps.paired draining.sound paired
    have next := offerable n (Nat.lt_succ_self n)
    simp only [offers]
    generalize σ.offers hs c n = τ at *
    obtain ⟨m, after, -, queue, -, found, result⟩ := offer_next hs next
    obtain ⟨⟨tail, queue'⟩, -⟩ := offered_spec draining'.sound queue complete found
    have done : (τ.msgs m).done = true := by
      simp only [Proxy.reqDone, Bool.and_eq_true] at found
      exact found.1
    obtain ⟨answered, kept⟩ := peer_offered paired' queue done
    have length' : ((τ.omsgq c).take n ++ [m]).length = n + 1 := by
      rw [List.length_append, length, List.length_singleton]
    rw [result, queue', List.append_cons, List.take_left' length']
    refine ⟨length', fun x inside => ?_⟩
    rcases List.mem_append.mp inside with before | last
    · exact kept x (replied x before)
    · rw [List.mem_singleton.mp last]
      exact answered

/-- Every pass of the loop offers in order. -/
def RoundsInOrder (hs : Handshake) (c : Nat) : List Round → Proxy → Prop
  | [], _ => True
  | r :: rs, σ => (σ.offers hs c r.offers).InOrder c r.offers ∧
      RoundsInOrder hs c rs (σ.round hs c r)

theorem rounds_inOrder (hs : Handshake) {c : Nat} (rs : List Round) (draining : σ.Draining c)
    (paired : σ.Paired) (ok : RoundsOk hs c rs σ) : RoundsInOrder hs c rs σ := by
  induction rs generalizing σ with
  | nil => trivial
  | cons r rs ih =>
    obtain ⟨okay, rest⟩ := ok
    obtain ⟨steps, draining', complete⟩ := offers_spec hs draining r.offers okay.1
    obtain ⟨length, replied⟩ := offers_replied hs draining paired r.offers okay.1
    have paired' := steps.paired draining.sound paired
    obtain ⟨steps', draining''⟩ := rounds_spec hs [r] draining ⟨okay, trivial⟩
    refine ⟨⟨paired'.sorted c, length, complete, fun x inside => ?_⟩,
      ih draining'' (steps'.paired draining.sound paired) rest⟩
    obtain ⟨reply, peer⟩ := Option.ne_none_iff_exists'.mp (replied x inside)
    cases reply with
    | own => exact Or.inl ⟨peer, paired'.own x peer⟩
    | server y =>
      rw [paired'.peers x y peer] at peer
      exact Or.inr peer

theorem paired_start : ({} : Proxy).Paired where
  backend _ := rfl
  peers _ _ linked := by cases linked
  own _ linked := by cases linked
  replied _ _ inside := by cases inside
  sorted _ := List.Pairwise.nil

/-- In every run the first message of a server's `omsg_q` is the request that the server answers
next, a request and a reply of a server are linked only if the reply is the one to that request,
the proxy replies itself only to requests that it does not forward, to vector requests and to those
in error, and every pass of `rsp_send_next` over a client connection offers the requests at the
head of its queue, in the order in which they were received, each when all before it are complete
and with the reply to that request. -/
theorem run_pairs_replies {es : List Event} (runs : Runs hs es) :
    (∀ s, ((run hs {} es).servers s).backend = ((run hs {} es).servers s).omsgq) ∧
      (∀ m x, ((run hs {} es).msgs m).peer = some (.server x) → x = m) ∧
      (∀ m, ((run hs {} es).msgs m).peer = some .own → ((run hs {} es).msgs m).Excused m) ∧
      ∀ c rs idle, (run hs {} es).Accepts hs (.clientWritable c rs idle) →
        RoundsInOrder hs c rs (run hs {} es) := by
  obtain ⟨waiting, paired⟩ := runs.invariant paired_start
    fun τ a sound paired enabled => paired.act sound enabled
  refine ⟨paired.backend, paired.peers, paired.own, fun c rs idle accepts => ?_⟩
  obtain ⟨-, active, ok, -⟩ := accepts
  exact rounds_inOrder hs rs ⟨waiting.sound, active, waiting.current, waiting.vector⟩ paired ok

/-- A client closes while its request is at a server that another client has a request at too:
the reply that comes second is the one to the second request. -/
theorem run_pairs_replies_shared :
    RoundsInOrder ⟨false, false⟩ 1 [⟨1, [1]⟩] (run ⟨false, false⟩ {} [.accept 0, .accept 1,
      .request 0 false (.on 0 true), .request 1 false (.on 0 true), .serverWritable 0 2 true,
      .clientClose 0, .serverReply 0 .good, .serverReply 0 .good]) :=
  (run_pairs_replies (by decide)).2.2.2 1 [⟨1, [1]⟩] true (by decide)

end Proxy

end Nutcracker
