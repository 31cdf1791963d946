import Nutcracker.Proxy.Custody
import Mathlib.Data.List.Count
import Mathlib.Data.List.TakeWhile

/-!
# Vector requests

The owner of a vector request stands in the queue of its client, and its fragments
follow it one by one as they are forwarded.  Until the request is found done they all
stay there, next to each other, and `nfrag_done` never runs ahead of the fragments
that are done.  So `req_done` cannot succeed before the last fragment is forwarded
and every fragment is done.
-/

namespace Nutcracker.Proxy

variable {σ σ' : Proxy}

/-! ## Fragments -/

/-- The fragments of a vector request so far, in the order in which they were made. -/
def fragments (σ : Proxy) (o : Nat) : List Nat :=
  (List.range σ.fresh).filter fun x => x != o && (σ.msgs x).fragOwner == some o

/-- How many fragments of a vector request are still to come. -/
def left (σ : Proxy) (o : Nat) : Nat :=
  match σ.vector with
  | some (o', n) => if o' = o then n else 0
  | none => 0

/-- How many fragments of a vector request are done. -/
def ndone (σ : Proxy) (o : Nat) : Nat :=
  (σ.fragments o).countP fun x => (σ.msgs x).done

theorem mem_fragments {o x : Nat} :
    x ∈ σ.fragments o ↔ x < σ.fresh ∧ x ≠ o ∧ (σ.msgs x).fragOwner = some o := by
  simp [fragments]

theorem nodup_fragments (o : Nat) : (σ.fragments o).Nodup :=
  List.nodup_range.filter _

theorem fragments_congr (fresh : σ'.fresh = σ.fresh)
    (fragOwner : ∀ m, (σ'.msgs m).fragOwner = (σ.msgs m).fragOwner) (o : Nat) :
    σ'.fragments o = σ.fragments o := by
  simp only [fragments, fresh, fragOwner]

theorem left_congr (vector : σ'.vector = σ.vector) (o : Nat) : σ'.left o = σ.left o := by
  simp only [left, vector]

theorem left_of_none (vector : σ.vector = none) (o : Nat) : σ.left o = 0 := by
  simp only [left, vector]

theorem fragments_of_new {r : Req} (fresh : σ'.fresh = σ.fresh + 1)
    (msgs : σ'.msgs = Function.update σ.msgs σ.fresh r) (o : Nat) :
    σ'.fragments o =
      σ.fragments o ++ if σ.fresh ≠ o ∧ r.fragOwner = some o then [σ.fresh] else [] := by
  unfold fragments
  rw [fresh, List.range_succ, List.filter_append]
  congr 1
  · refine List.filter_congr fun x inside => ?_
    rw [msgs_of_lt msgs (List.mem_range.mp inside)]
  · simp only [List.filter_cons, List.filter_nil, msgs_fresh msgs]
    simp

/-- One more element is counted if it was not before. -/
theorem countP_or {p : Nat → Bool} {xs : List Nat} (nodup : xs.Nodup) (m : Nat) :
    xs.countP (fun x => p x || decide (x = m)) =
      xs.countP p + if m ∈ xs ∧ p m = false then 1 else 0 := by
  induction xs with
  | nil => simp
  | cons x xs ih =>
    obtain ⟨fresh, nodup⟩ := List.nodup_cons.mp nodup
    rw [List.countP_cons, List.countP_cons, ih nodup]
    by_cases here : x = m
    · subst here
      cases p x <;> simp [fresh]
    · have other : m ≠ x := fun same => here same.symm
      simp only [here, decide_false, Bool.or_false, List.mem_cons, other, false_or]
      omega

/-! ## The invariant -/

/-- What holds of vector requests, their fragments, and the one that is being forwarded. -/
structure Vectors (σ : Proxy) : Prop where
  unborn : ∀ m, σ.fresh ≤ m → (σ.msgs m).fragOwner = none
  family : ∀ m o, (σ.msgs m).fragOwner = some o → (σ.msgs o).fragOwner = some o ∧
    (σ.msgs m).owner = (σ.msgs o).owner ∧ (σ.msgs m).noreply = false
  owner_done : ∀ o, (σ.msgs o).fragOwner = some o → (σ.msgs o).done = true
  finished : ∀ m o, (σ.msgs m).fragOwner = some o → (σ.msgs o).fdone = true →
    (σ.msgs m).done = true
  tally : ∀ o, (σ.msgs o).fragOwner = some o →
    (σ.msgs o).nfrag = (σ.fragments o).length + σ.left o
  counted : ∀ o, (σ.msgs o).fragOwner = some o → (σ.msgs o).nfragDone ≤ σ.ndone o
  pending : ∀ o, σ.vector = some (o, 0) →
    ∃ m, σ.current = some m ∧ (σ.msgs m).fragOwner = some o
  building : ∀ o n, σ.vector = some (o, n) → (σ.msgs o).fragOwner = some o ∧
    (σ.msgs o).fdone = false ∧ ∃ c, o ∈ σ.omsgq c
  coherent : ∀ c, ∀ m ∈ σ.omsgq c, ∀ o, (σ.msgs m).fragOwner = some o →
    (σ.msgs m).fdone = (σ.msgs o).fdone
  block : ∀ c, ∀ m ∈ σ.omsgq c, ∀ o, (σ.msgs m).fragOwner = some o →
    (σ.msgs o).fdone = false → ∃ before after,
      σ.omsgq c = before ++ o :: (σ.fragments o ++ after) ∧
        ((∃ n, σ.vector = some (o, n)) → after = [])

theorem Vectors.lt_fresh (vectors : σ.Vectors) {m o : Nat}
    (member : (σ.msgs m).fragOwner = some o) : m < σ.fresh := by
  by_contra unborn
  rw [vectors.unborn m (Nat.le_of_not_lt unborn)] at member
  cases member

theorem Vectors.mem_fragments_iff (vectors : σ.Vectors) {x o : Nat} :
    x ∈ σ.fragments o ↔ x ≠ o ∧ (σ.msgs x).fragOwner = some o := by
  rw [mem_fragments]
  exact ⟨And.right, fun member => ⟨vectors.lt_fresh member.2, member⟩⟩

/-- The marks that vector requests depend on are the same in two states. -/
structure Kindred (σ σ' : Proxy) : Prop where
  fresh : σ'.fresh = σ.fresh
  current : σ'.current = σ.current
  vector : σ'.vector = σ.vector
  omsgq : ∀ c, σ'.omsgq c = σ.omsgq c
  owner : ∀ m, (σ'.msgs m).owner = (σ.msgs m).owner
  noreply : ∀ m, (σ'.msgs m).noreply = (σ.msgs m).noreply
  done : ∀ m, (σ'.msgs m).done = (σ.msgs m).done
  fdone : ∀ m, (σ'.msgs m).fdone = (σ.msgs m).fdone
  fragOwner : ∀ m, (σ'.msgs m).fragOwner = (σ.msgs m).fragOwner
  nfrag : ∀ m, (σ'.msgs m).nfrag = (σ.msgs m).nfrag
  nfragDone : ∀ m, (σ'.msgs m).nfragDone = (σ.msgs m).nfragDone

theorem Vectors.kindred (vectors : σ.Vectors) (kin : Kindred σ σ') : σ'.Vectors := by
  have fragments := fragments_congr kin.fresh kin.fragOwner
  have left := left_congr kin.vector
  have ndone : ∀ o, σ'.ndone o = σ.ndone o := by
    intro o
    simp only [ndone, fragments, kin.done]
  constructor
  · simpa only [kin.fresh, kin.fragOwner] using vectors.unborn
  · simpa only [kin.fragOwner, kin.owner, kin.noreply] using vectors.family
  · simpa only [kin.fragOwner, kin.done] using vectors.owner_done
  · simpa only [kin.fragOwner, kin.fdone, kin.done] using vectors.finished
  · simpa only [kin.fragOwner, kin.nfrag, fragments, left] using vectors.tally
  · simpa only [kin.fragOwner, kin.nfragDone, ndone] using vectors.counted
  · simpa only [kin.vector, kin.current, kin.fragOwner] using vectors.pending
  · simpa only [kin.vector, kin.fragOwner, kin.fdone, kin.omsgq] using vectors.building
  · simpa only [kin.omsgq, kin.fragOwner, kin.fdone] using vectors.coherent
  · simpa only [kin.omsgq, kin.fragOwner, kin.fdone, fragments, kin.vector] using vectors.block

/-! ## New messages -/

/-- A new message, put at the end of one queue at most.  If it belongs to a vector request, this is
one that is not found done, and its messages are at the end of the queue; and the vector request
that is being forwarded is the one of the new message, or nothing changes for it. -/
structure Joins (σ σ' : Proxy) (r : Req) : Prop where
  fresh : σ'.fresh = σ.fresh + 1
  msgs : σ'.msgs = Function.update σ.msgs σ.fresh r
  omsgq : ∀ c, σ'.omsgq c = σ.omsgq c ∨ σ'.omsgq c = σ.omsgq c ++ [σ.fresh]
  self : r.fragOwner = some σ.fresh → r.done = true ∧ r.nfragDone = 0
  family : ∀ o, r.fragOwner = some o → (σ'.msgs o).fragOwner = some o ∧
    r.owner = (σ'.msgs o).owner ∧ r.noreply = false
  unmarked : ∀ o, r.fragOwner = some o → (σ'.msgs o).fdone = false ∧ r.fdone = false
  tally : ∀ o, r.fragOwner = some o → (σ'.msgs o).nfrag = (σ'.fragments o).length + σ'.left o
  left : ∀ o, r.fragOwner ≠ some o → σ'.left o = σ.left o
  listed : ∀ o, r.fragOwner = some o → ∃ c, o ∈ σ'.omsgq c
  last : ∀ o, r.fragOwner = some o → ∀ c, ∀ m ∈ σ'.omsgq c, (σ'.msgs m).fragOwner = some o →
    ∃ before, σ'.omsgq c = before ++ o :: σ'.fragments o
  vector : ∀ o n, σ'.vector = some (o, n) →
    (r.fragOwner = some o ∧ (n = 0 → σ'.current = some σ.fresh)) ∨
      (r.fragOwner ≠ some o ∧ σ.vector = some (o, n) ∧ σ'.current = σ.current ∧
        ∀ c, σ'.omsgq c = σ.omsgq c)

section New

variable {r : Req}

theorem Joins.fragments_eq (joins : Joins σ σ' r) {o : Nat} (other : r.fragOwner ≠ some o) :
    σ'.fragments o = σ.fragments o := by
  rw [fragments_of_new joins.fresh joins.msgs, if_neg fun both => other both.2, List.append_nil]

theorem Joins.ndone_le (joins : Joins σ σ' r) (o : Nat) : σ.ndone o ≤ σ'.ndone o := by
  unfold ndone
  rw [fragments_of_new joins.fresh joins.msgs, List.countP_append]
  refine Nat.le_add_right_of_le (Nat.le_of_eq (List.countP_congr fun x inside => ?_))
  rw [msgs_of_lt joins.msgs (mem_fragments.mp inside).1]

/-- A message of a vector request is the new one, or an old one of an old vector request. -/
theorem Vectors.known (vectors : σ.Vectors) (msgs : σ'.msgs = Function.update σ.msgs σ.fresh r)
    {m o : Nat} (member : (σ'.msgs m).fragOwner = some o) :
    (m = σ.fresh ∧ r.fragOwner = some o) ∨ (m ≠ σ.fresh ∧ (σ.msgs m).fragOwner = some o ∧
      σ'.msgs m = σ.msgs m ∧ σ'.msgs o = σ.msgs o) := by
  by_cases here : m = σ.fresh
  · rw [here, msgs_fresh msgs] at member
    exact Or.inl ⟨here, member⟩
  · rw [msgs, Function.update_of_ne here] at member
    exact Or.inr ⟨here, member, msgs_of_lt msgs (vectors.lt_fresh member),
      msgs_of_lt msgs (vectors.lt_fresh (vectors.family m o member).1)⟩

theorem Joins.mem_omsgq (joins : Joins σ σ' r) {c m : Nat} (other : m ≠ σ.fresh) :
    m ∈ σ'.omsgq c ↔ m ∈ σ.omsgq c := by
  rcases joins.omsgq c with same | longer
  · rw [same]
  · simp [longer, other]

/-- The messages of another vector request stay where they are. -/
theorem Vectors.block_joins (vectors : σ.Vectors) (joins : Joins σ σ' r) {c m o : Nat}
    (inside : m ∈ σ.omsgq c) (member : (σ.msgs m).fragOwner = some o)
    (unmarked : (σ.msgs o).fdone = false) (other : r.fragOwner ≠ some o) :
    ∃ before after, σ'.omsgq c = before ++ o :: (σ'.fragments o ++ after) ∧
      ((∃ n, σ'.vector = some (o, n)) → after = []) := by
  obtain ⟨before, after, queue, last⟩ := vectors.block c m inside o member unmarked
  rw [joins.fragments_eq other]
  by_cases active : ∃ n, σ'.vector = some (o, n)
  · obtain ⟨n, active⟩ := active
    obtain ⟨-, earlier, -, omsgq⟩ :=
      (joins.vector o n active).resolve_left fun own => other own.1
    exact ⟨before, after, (omsgq c).trans queue, fun _ => last ⟨n, earlier⟩⟩
  · rcases joins.omsgq c with same | longer
    · exact ⟨before, after, same.trans queue, fun found => absurd found active⟩
    · refine ⟨before, after ++ [σ.fresh], ?_, fun found => absurd found active⟩
      rw [longer, queue]
      simp

theorem Vectors.joins (vectors : σ.Vectors) (joins : Joins σ σ' r) : σ'.Vectors := by
  have new := msgs_fresh joins.msgs
  have known : ∀ m o, (σ'.msgs m).fragOwner = some o → _ := fun m o => vectors.known joins.msgs
  constructor
  · intro m unborn
    rw [joins.fresh] at unborn
    rw [joins.msgs, Function.update_of_ne (by omega)]
    exact vectors.unborn m (by omega)
  · intro m o member
    rcases known m o member with ⟨rfl, own⟩ | ⟨-, member, old, old'⟩
    · rw [new]
      exact joins.family o own
    · rw [old, old']
      exact vectors.family m o member
  · intro o self
    rcases known o o self with ⟨rfl, own⟩ | ⟨-, member, old, -⟩
    · rw [new]
      exact (joins.self own).1
    · rw [old]
      exact vectors.owner_done o member
  · intro m o member finished
    rcases known m o member with ⟨rfl, own⟩ | ⟨-, member, old, old'⟩
    · rw [(joins.unmarked o own).1] at finished
      cases finished
    · rw [old'] at finished
      rw [old]
      exact vectors.finished m o member finished
  · intro o self
    by_cases own : r.fragOwner = some o
    · exact joins.tally o own
    · obtain ⟨-, member, old, -⟩ := (known o o self).resolve_left fun here => own here.2
      rw [old, joins.fragments_eq own, joins.left o own]
      exact vectors.tally o member
  · intro o self
    rcases known o o self with ⟨rfl, own⟩ | ⟨-, member, old, -⟩
    · rw [new, (joins.self own).2]
      exact Nat.zero_le _
    · rw [old]
      exact (vectors.counted o member).trans (joins.ndone_le o)
  · intro o active
    rcases joins.vector o 0 active with ⟨own, held⟩ | ⟨-, earlier, current, -⟩
    · exact ⟨σ.fresh, held rfl, by rw [new, own]⟩
    · obtain ⟨m, held, member⟩ := vectors.pending o earlier
      rw [← msgs_of_lt joins.msgs (vectors.lt_fresh member)] at member
      exact ⟨m, current.trans held, member⟩
  · intro o n active
    rcases joins.vector o n active with ⟨own, -⟩ | ⟨-, earlier, -, omsgq⟩
    · exact ⟨(joins.family o own).1, (joins.unmarked o own).1, joins.listed o own⟩
    · obtain ⟨self, unmarked, c, inside⟩ := vectors.building o n earlier
      rw [msgs_of_lt joins.msgs (vectors.lt_fresh self)]
      exact ⟨self, unmarked, c, (omsgq c).symm ▸ inside⟩
  · intro c m inside o member
    rcases known m o member with ⟨rfl, own⟩ | ⟨other, member, old, old'⟩
    · rw [new, (joins.unmarked o own).1, (joins.unmarked o own).2]
    · rw [old, old']
      exact vectors.coherent c m ((joins.mem_omsgq other).mp inside) o member
  · intro c m inside o member unmarked
    by_cases own : r.fragOwner = some o
    · obtain ⟨before, queue⟩ := joins.last o own c m inside member
      exact ⟨before, [], by rw [queue, List.append_nil], fun _ => rfl⟩
    · obtain ⟨other, member, -, old⟩ := (known m o member).resolve_left fun here => own here.2
      rw [old] at unmarked
      exact vectors.block_joins joins ((joins.mem_omsgq other).mp inside) member unmarked own

variable (fresh : σ'.fresh = σ.fresh + 1) (msgs : σ'.msgs = Function.update σ.msgs σ.fresh r)

include fresh msgs

/-- A new message that belongs to no vector request. -/
theorem Vectors.stranger (vectors : σ.Vectors)
    (single : r.fragOwner = none) (vector : σ'.vector = σ.vector)
    (current : σ'.current = σ.current ∨ σ.vector = none)
    (omsgq : ∀ c, σ'.omsgq c = σ.omsgq c ∨
      (σ.vector = none ∧ σ'.omsgq c = σ.omsgq c ++ [σ.fresh])) : σ'.Vectors := by
  have none : ∀ o, r.fragOwner ≠ some o := by simp [single]
  exact vectors.joins
    { fresh
      msgs
      omsgq := fun c => (omsgq c).imp_right And.right
      self := fun own => absurd own (none _)
      family := fun o own => absurd own (none o)
      unmarked := fun o own => absurd own (none o)
      tally := fun o own => absurd own (none o)
      left := fun o _ => left_congr vector o
      listed := fun o own => absurd own (none o)
      last := fun o own => absurd own (none o)
      vector := by
        intro o n active
        rw [vector] at active
        have busy : σ.vector ≠ Option.none := by simp [active]
        exact Or.inr ⟨none o, active, current.resolve_right busy,
          fun c => (omsgq c).resolve_right fun idle => busy idle.1⟩ }

section Member

variable {c o n : Nat} (vectors : σ.Vectors) (unlisted : ∀ c, σ.fresh ∉ σ.omsgq c)
  (omsgq : ∀ c', σ'.omsgq c' = if c' = c then σ.omsgq c ++ [σ.fresh] else σ.omsgq c')
  (vector : σ'.vector = some (o, n))

include omsgq in
omit fresh msgs in
theorem omsgq_joins (c' : Nat) :
    σ'.omsgq c' = σ.omsgq c' ∨ σ'.omsgq c' = σ.omsgq c' ++ [σ.fresh] := by
  rw [omsgq]
  split
  · rename_i here
    rw [here]
    exact Or.inr rfl
  · exact Or.inl rfl

include vectors unlisted omsgq vector

/-- A vector request of `n` fragments, none of which is made yet. -/
theorem Vectors.start (positive : 0 < n) (here : o = σ.fresh) (idle : σ.vector = none)
    (self : r.fragOwner = some σ.fresh)
    (plain : r.noreply = false ∧ r.done = true ∧ r.fdone = false ∧ r.nfrag = n ∧ r.nfragDone = 0) :
    σ'.Vectors := by
  subst here
  obtain ⟨answered, done, undone, nfrag, nfragDone⟩ := plain
  have new := msgs_fresh msgs
  have same : ∀ {o}, r.fragOwner = some o → o = σ.fresh :=
    fun own => Option.some.inj (own.symm.trans self)
  have none : ∀ m, (σ.msgs m).fragOwner ≠ some σ.fresh := by
    intro m member
    exact Nat.lt_irrefl _ (vectors.lt_fresh (vectors.family m _ member).1)
  have empty : σ'.fragments σ.fresh = [] := by
    rw [fragments_of_new fresh msgs, if_neg fun both => both.1 rfl, List.append_nil]
    exact List.eq_nil_iff_forall_not_mem.mpr fun x inside => none x (mem_fragments.mp inside).2.2
  exact vectors.joins
    { fresh
      msgs
      omsgq := omsgq_joins omsgq
      self := fun _ => ⟨done, nfragDone⟩
      family := by
        intro o own
        rw [same own, new]
        exact ⟨self, rfl, answered⟩
      unmarked := by
        intro o own
        rw [same own, new]
        exact ⟨undone, undone⟩
      tally := by
        intro o own
        rw [same own, new, nfrag, empty, Proxy.left, vector]
        simp
      left := by
        intro o other
        have there : σ.fresh ≠ o := fun here => other (here ▸ self)
        rw [left_of_none idle]
        simp only [Proxy.left, vector, if_neg there]
      listed := by
        intro o own
        refine ⟨c, ?_⟩
        rw [same own, omsgq, if_pos rfl]
        exact List.mem_append_right _ List.mem_cons_self
      last := by
        intro o own c' m inside member
        rw [same own] at member ⊢
        have first : m = σ.fresh :=
          (vectors.known msgs member).elim And.left fun old => absurd old.2.1 (none m)
        rw [first, omsgq] at inside
        split at inside
        · rename_i here
          rw [here, omsgq, if_pos rfl, empty]
          exact ⟨_, rfl⟩
        · exact absurd inside (unlisted c')
      vector := by
        intro o n' active
        rw [vector, Option.some.injEq, Prod.mk.injEq] at active
        exact Or.inl ⟨active.1 ▸ self, fun zero => by omega⟩ }

/-- The next fragment of the vector request that is being forwarded. -/
theorem Vectors.extend (active : σ.vector = some (o, n + 1)) (listedOwner : o ∈ σ.omsgq c)
    (member : r.fragOwner = some o)
    (plain : r.owner = (σ.msgs o).owner ∧ r.noreply = false ∧ r.fdone = false)
    (current : σ'.current = some σ.fresh) (only : ∀ c', o ∈ σ.omsgq c' → c' = c) :
    σ'.Vectors := by
  obtain ⟨owner, answered, unmarked⟩ := plain
  obtain ⟨self, unfinished, -⟩ := vectors.building o (n + 1) active
  have lt : o < σ.fresh := vectors.lt_fresh self
  have owned : σ'.msgs o = σ.msgs o := msgs_of_lt msgs lt
  have same : ∀ {o'}, r.fragOwner = some o' → o' = o :=
    fun own => Option.some.inj (own.symm.trans member)
  have fragments : σ'.fragments o = σ.fragments o ++ [σ.fresh] := by
    rw [fragments_of_new fresh msgs, if_pos ⟨(Nat.ne_of_lt lt).symm, member⟩]
  -- the fragments of `o` are at the end of the queue
  obtain ⟨before, after, queue, last⟩ := vectors.block c o listedOwner o self unfinished
  rw [last ⟨n + 1, active⟩, List.append_nil] at queue
  have place : ∀ c', ∀ m ∈ σ'.omsgq c', (σ'.msgs m).fragOwner = some o → c' = c := by
    intro c' m inside member'
    by_contra there
    rw [omsgq, if_neg there] at inside
    rcases vectors.known msgs member' with ⟨rfl, -⟩ | ⟨-, earlier, -, -⟩
    · exact unlisted c' inside
    · obtain ⟨before', after', queue', -⟩ := vectors.block c' m inside o earlier unfinished
      refine there (only c' ?_)
      rw [queue']
      exact List.mem_append_right _ List.mem_cons_self
  exact vectors.joins
    { fresh
      msgs
      omsgq := omsgq_joins omsgq
      self := fun own => absurd (same own) (Nat.ne_of_gt lt)
      family := by
        intro o' own
        rw [same own, owned]
        exact ⟨self, owner, answered⟩
      unmarked := by
        intro o' own
        rw [same own, owned]
        exact ⟨unfinished, unmarked⟩
      tally := by
        intro o' own
        rw [same own, owned, fragments, List.length_append, vectors.tally o self]
        simp only [Proxy.left, vector, active, if_pos, List.length_singleton]
        omega
      left := by
        intro o' other
        have there : o ≠ o' := fun here => other (here ▸ member)
        simp only [Proxy.left, vector, active, if_neg there]
      listed := by
        intro o' own
        refine ⟨c, ?_⟩
        rw [same own, omsgq, if_pos rfl]
        exact List.mem_append_left _ listedOwner
      last := by
        intro o' own c' m inside member'
        rw [same own] at member' ⊢
        rw [place c' m inside member', omsgq, if_pos rfl, fragments, queue]
        exact ⟨before, by simp⟩
      vector := by
        intro o' n' active'
        rw [vector, Option.some.injEq, Prod.mk.injEq] at active'
        exact Or.inl ⟨active'.1 ▸ member, fun _ => current⟩ }

end Member

end New

/-! ## Messages that are done -/

/-- `req_forward` returns: if the vector request has no fragments left, it is not being forwarded
any longer. -/
theorem Vectors.release (vectors : σ.Vectors) : σ.release.Vectors := by
  have vector : ∀ o n, σ.release.vector = some (o, n) ↔ σ.vector = some (o, n) ∧ n ≠ 0 := by
    intro o n
    simp [Proxy.release, Option.filter_eq_some_iff]
  have left : ∀ o, σ.release.left o = σ.left o := by
    intro o
    unfold Proxy.left Proxy.release
    cases active : σ.vector with
    | none => rfl
    | some v =>
      obtain ⟨o', n⟩ := v
      by_cases zero : n = 0
      · simp [Option.filter, zero]
      · simp [Option.filter, zero]
  constructor
  · exact vectors.unborn
  · exact vectors.family
  · exact vectors.owner_done
  · exact vectors.finished
  · intro o self
    rw [left]
    exact vectors.tally o self
  · exact vectors.counted
  · intro o last
    exact absurd rfl ((vector o 0).mp last).2
  · intro o n active
    exact vectors.building o n ((vector o n).mp active).1
  · exact vectors.coherent
  · intro c m inside o member undone
    obtain ⟨before, after, queue, last⟩ := vectors.block c m inside o member undone
    refine ⟨before, after, queue, ?_⟩
    rintro ⟨n, active⟩
    exact last ⟨n, ((vector o n).mp active).1⟩

/-- What a message that becomes done changes. -/
structure Finishes (σ σ' : Proxy) (m : Nat) : Prop where
  fresh : σ'.fresh = σ.fresh
  omsgq : ∀ c, σ'.omsgq c = σ.omsgq c
  owner : ∀ x, (σ'.msgs x).owner = (σ.msgs x).owner
  noreply : ∀ x, (σ'.msgs x).noreply = (σ.msgs x).noreply
  done : ∀ x, (σ'.msgs x).done = ((σ.msgs x).done || decide (x = m))
  fdone : ∀ x, (σ'.msgs x).fdone = (σ.msgs x).fdone
  fragOwner : ∀ x, (σ'.msgs x).fragOwner = (σ.msgs x).fragOwner
  nfrag : ∀ x, (σ'.msgs x).nfrag = (σ.msgs x).nfrag

theorem Finishes.ndone {m : Nat} (finishes : Finishes σ σ' m) (o : Nat) :
    σ'.ndone o = σ.ndone o + if m ∈ σ.fragments o ∧ (σ.msgs m).done = false then 1 else 0 := by
  unfold Proxy.ndone
  rw [fragments_congr finishes.fresh finishes.fragOwner]
  simp only [finishes.done]
  exact countP_or (nodup_fragments o) m

/-- The same while the request that is halfway forwarded stays. -/
structure Completes (σ σ' : Proxy) (m : Nat) : Prop extends Finishes σ σ' m where
  current : σ'.current = σ.current
  vector : σ'.vector = σ.vector

/-- A message becomes done, and is counted at most once. -/
theorem Vectors.completes (vectors : σ.Vectors) {m : Nat} (completes : Completes σ σ' m)
    (nfragDone : ∀ o, (σ'.msgs o).nfragDone ≤ (σ.msgs o).nfragDone +
      if (σ.msgs m).fragOwner = some o ∧ (σ.msgs m).done = false then 1 else 0) : σ'.Vectors := by
  have fragments := fragments_congr completes.fresh completes.fragOwner
  have left := left_congr completes.vector
  constructor
  · simpa only [completes.fresh, completes.fragOwner] using vectors.unborn
  · simpa only [completes.fragOwner, completes.owner, completes.noreply] using vectors.family
  · intro o self
    rw [completes.fragOwner] at self
    rw [completes.done, vectors.owner_done o self, Bool.true_or]
  · intro x o member finished
    rw [completes.fragOwner] at member
    rw [completes.fdone] at finished
    rw [completes.done, vectors.finished x o member finished, Bool.true_or]
  · simpa only [completes.fragOwner, completes.nfrag, fragments, left] using vectors.tally
  · intro o self
    rw [completes.fragOwner] at self
    have counted := vectors.counted o self
    have more := nfragDone o
    rw [completes.ndone]
    by_cases fresh : (σ.msgs m).fragOwner = some o ∧ (σ.msgs m).done = false
    · have other : m ≠ o := by
        rintro rfl
        rw [vectors.owner_done m self] at fresh
        cases fresh.2
      rw [if_pos fresh] at more
      rw [if_pos ⟨vectors.mem_fragments_iff.mpr ⟨other, fresh.1⟩, fresh.2⟩]
      omega
    · rw [if_neg fresh] at more
      omega
  · simpa only [completes.vector, completes.current, completes.fragOwner] using vectors.pending
  · simpa only [completes.vector, completes.fragOwner, completes.fdone, completes.omsgq] using
      vectors.building
  · simpa only [completes.omsgq, completes.fragOwner, completes.fdone] using vectors.coherent
  · simpa only [completes.omsgq, completes.fragOwner, completes.fdone, fragments,
      completes.vector] using vectors.block

/-! ## Coalescing -/

/-- A vector request all of whose fragments are made, are in the queue of the client, and are
done, and that was not found done before. -/
structure Settled (σ : Proxy) (o : Nat) : Prop where
  self : (σ.msgs o).fragOwner = some o
  unmarked : (σ.msgs o).fdone = false
  forwarded : ∀ n, σ.vector ≠ some (o, n)
  total : (σ.fragments o).length = (σ.msgs o).nfrag
  counted : (σ.msgs o).nfrag ≤ (σ.msgs o).nfragDone
  done : ∀ x ∈ σ.fragments o, (σ.msgs x).done = true

/-- The vector request is marked and coalesced. -/
def coalesce (σ : Proxy) (o : Nat) : Proxy :=
  { σ with
    msgs := fun x =>
      if (σ.msgs x).fragOwner = some o then { σ.msgs x with fdone := true } else σ.msgs x
    log := σ.log ++ [⟨o, (σ.msgs o).nfrag, (σ.msgs o).nfrag⟩] }

section Coalesce

variable {o : Nat}

theorem coalesce_fdone (x : Nat) : ((σ.coalesce o).msgs x).fdone =
    ((σ.msgs x).fdone || decide ((σ.msgs x).fragOwner = some o)) := by
  unfold coalesce
  dsimp only
  split
  · rename_i member
    simp [member]
  · rename_i stranger
    simp [stranger]

theorem coalesce_msgs (σ : Proxy) (o x : Nat) :
    ∃ fdone, (σ.coalesce o).msgs x = { σ.msgs x with fdone := fdone } := by
  unfold coalesce
  dsimp only
  split
  · exact ⟨true, rfl⟩
  · exact ⟨(σ.msgs x).fdone, rfl⟩

theorem coalesce_fragOwner (x : Nat) :
    ((σ.coalesce o).msgs x).fragOwner = (σ.msgs x).fragOwner := by
  obtain ⟨fdone, eq⟩ := coalesce_msgs σ o x
  rw [eq]

theorem coalesce_done (x : Nat) : ((σ.coalesce o).msgs x).done = (σ.msgs x).done := by
  obtain ⟨fdone, eq⟩ := coalesce_msgs σ o x
  rw [eq]

theorem Vectors.coalesce (vectors : σ.Vectors) (settled : σ.Settled o) :
    (σ.coalesce o).Vectors := by
  have fragments : ∀ o', (σ.coalesce o).fragments o' = σ.fragments o' :=
    fragments_congr rfl coalesce_fragOwner
  have ndone : ∀ o', (σ.coalesce o).ndone o' = σ.ndone o' := by
    intro o'
    simp only [Proxy.ndone, fragments, coalesce_done]
  have rest : ∀ x, ((σ.coalesce o).msgs x).owner = (σ.msgs x).owner ∧
      ((σ.coalesce o).msgs x).noreply = (σ.msgs x).noreply ∧
      ((σ.coalesce o).msgs x).nfrag = (σ.msgs x).nfrag ∧
      ((σ.coalesce o).msgs x).nfragDone = (σ.msgs x).nfragDone := by
    intro x
    obtain ⟨fdone, eq⟩ := coalesce_msgs σ o x
    rw [eq]
    exact ⟨rfl, rfl, rfl, rfl⟩
  constructor
  · intro m unborn
    rw [coalesce_fragOwner]
    exact vectors.unborn m unborn
  · intro m o' member
    rw [coalesce_fragOwner] at member
    rw [coalesce_fragOwner, (rest m).1, (rest o').1, (rest m).2.1]
    exact vectors.family m o' member
  · intro o' self
    rw [coalesce_fragOwner] at self
    rw [coalesce_done]
    exact vectors.owner_done o' self
  · intro m o' member marked
    rw [coalesce_fragOwner] at member
    rw [coalesce_fdone, Bool.or_eq_true, decide_eq_true_iff] at marked
    rw [coalesce_done]
    rcases marked with earlier | now
    · exact vectors.finished m o' member earlier
    · have same : o' = o :=
        Option.some.inj ((vectors.family m o' member).1.symm.trans now)
      subst same
      by_cases here : m = o'
      · rw [here]
        exact vectors.owner_done o' settled.self
      · exact settled.done m (vectors.mem_fragments_iff.mpr ⟨here, member⟩)
  · intro o' self
    rw [coalesce_fragOwner] at self
    rw [(rest o').2.2.1, fragments]
    exact vectors.tally o' self
  · intro o' self
    rw [coalesce_fragOwner] at self
    rw [(rest o').2.2.2, ndone]
    exact vectors.counted o' self
  · intro o' last
    obtain ⟨m, held, member⟩ := vectors.pending o' last
    exact ⟨m, held, (coalesce_fragOwner m).trans member⟩
  · intro o' n active
    obtain ⟨self, unmarked, listed⟩ := vectors.building o' n active
    rw [coalesce_fragOwner, coalesce_fdone, unmarked]
    refine ⟨self, ?_, listed⟩
    rw [Bool.false_or, decide_eq_false_iff_not]
    intro member
    have same : o' = o := Option.some.inj (self.symm.trans member)
    exact settled.forwarded n (same ▸ active)
  · intro c m inside o' member
    rw [coalesce_fragOwner] at member
    rw [coalesce_fdone, coalesce_fdone, vectors.coherent c m inside o' member, member,
      (vectors.family m o' member).1]
  · intro c m inside o' member unmarked
    rw [coalesce_fragOwner] at member
    rw [coalesce_fdone, Bool.or_eq_false_iff] at unmarked
    rw [fragments]
    exact vectors.block c m inside o' member unmarked.1

end Coalesce

/-! ## Requests that leave -/

/-- Requests leave the queues of clients, but a vector request that is not found done stays or
leaves as a whole. -/
theorem Vectors.leave (vectors : σ.Vectors) (keep : Nat → Nat → Bool) (idle : σ.vector = none)
    (fresh : σ'.fresh = σ.fresh) (vector : σ'.vector = σ.vector)
    (msgs : ∀ x, ∃ swallow, σ'.msgs x = { σ.msgs x with swallow := swallow })
    (omsgq : ∀ c, σ'.omsgq c = (σ.omsgq c).filter (keep c))
    (stays : ∀ c x o, x ∈ σ.omsgq c → keep c x = true → (σ.msgs x).fragOwner = some o →
      (σ.msgs o).fdone = false → keep c o = true ∧ ∀ y ∈ σ.fragments o, keep c y = true) :
    σ'.Vectors := by
  have same : ∀ x, (σ'.msgs x).owner = (σ.msgs x).owner ∧
      (σ'.msgs x).noreply = (σ.msgs x).noreply ∧ (σ'.msgs x).nfrag = (σ.msgs x).nfrag ∧
      (σ'.msgs x).nfragDone = (σ.msgs x).nfragDone := by
    intro x
    obtain ⟨swallow, eq⟩ := msgs x
    rw [eq]
    exact ⟨rfl, rfl, rfl, rfl⟩
  have fragOwner : ∀ x, (σ'.msgs x).fragOwner = (σ.msgs x).fragOwner := by
    intro x
    obtain ⟨swallow, eq⟩ := msgs x
    rw [eq]
  have done : ∀ x, (σ'.msgs x).done = (σ.msgs x).done := by
    intro x
    obtain ⟨swallow, eq⟩ := msgs x
    rw [eq]
  have fdone : ∀ x, (σ'.msgs x).fdone = (σ.msgs x).fdone := by
    intro x
    obtain ⟨swallow, eq⟩ := msgs x
    rw [eq]
  have fragments := fragments_congr fresh fragOwner
  have left := left_congr vector
  have ndone : ∀ o, σ'.ndone o = σ.ndone o := by
    intro o
    simp only [Proxy.ndone, fragments, done]
  have none : ∀ o n, σ'.vector ≠ some (o, n) := by
    intro o n active
    rw [vector, idle] at active
    cases active
  constructor
  · simpa only [fresh, fragOwner] using vectors.unborn
  · simpa only [fragOwner, (same _).1, (same _).2.1] using vectors.family
  · simpa only [fragOwner, done] using vectors.owner_done
  · simpa only [fragOwner, fdone, done] using vectors.finished
  · simpa only [fragOwner, (same _).2.2.1, fragments, left] using vectors.tally
  · simpa only [fragOwner, (same _).2.2.2, ndone] using vectors.counted
  · exact fun o active => absurd active (none o 0)
  · exact fun o n active => absurd active (none o n)
  · intro c m inside o member
    rw [omsgq, List.mem_filter] at inside
    rw [fragOwner] at member
    rw [fdone, fdone]
    exact vectors.coherent c m inside.1 o member
  · intro c m inside o member unmarked
    rw [omsgq, List.mem_filter] at inside
    rw [fragOwner] at member
    rw [fdone] at unmarked
    obtain ⟨before, after, queue, -⟩ := vectors.block c m inside.1 o member unmarked
    obtain ⟨owner, whole⟩ := stays c m o inside.1 inside.2 member unmarked
    refine ⟨before.filter (keep c), after.filter (keep c), ?_, ?_⟩
    · rw [omsgq, queue, List.filter_append, List.filter_cons_of_pos owner, List.filter_append,
        List.filter_eq_self.mpr whole, fragments]
    · rintro ⟨n, active⟩
      exact absurd active (none o n)

/-! ## When a request is found done -/

theorem split_cases {before after before' after' : List Nat} {m o : Nat}
    (eq : before ++ m :: after = before' ++ o :: after') :
    (m = o ∧ before = before' ∧ after = after') ∨ m ∈ before' ∨ o ∈ before := by
  rcases List.append_eq_append_iff.mp eq with ⟨mid, longer, rest⟩ | ⟨mid, longer, rest⟩
  · cases mid with
    | nil =>
      simp only [List.nil_append, List.cons.injEq] at rest
      rw [List.append_nil] at longer
      exact Or.inl ⟨rest.1, longer.symm, rest.2⟩
    | cons x mid =>
      simp only [List.cons_append, List.cons.injEq] at rest
      rw [longer, rest.1]
      exact Or.inr (Or.inl (List.mem_append_right _ List.mem_cons_self))
  · cases mid with
    | nil =>
      simp only [List.nil_append, List.cons.injEq] at rest
      rw [List.append_nil] at longer
      exact Or.inl ⟨rest.1.symm, longer, rest.2.symm⟩
    | cons x mid =>
      simp only [List.cons_append, List.cons.injEq] at rest
      rw [longer, rest.1]
      exact Or.inr (Or.inr (List.mem_append_right _ List.mem_cons_self))

theorem mem_siblings {m x : Nat} {queue : List Nat} (inside : x ∈ σ.siblings m queue) :
    x ∈ queue ∧ (σ.msgs x).fragOwner = (σ.msgs m).fragOwner := by
  have same := List.mem_takeWhile_imp inside
  exact ⟨(List.takeWhile_prefix _).subset inside, by simpa using same⟩

section Found

variable {c m o : Nat} {before after : List Nat}

theorem strangers_of_block (custody : σ.Custody) (vectors : σ.Vectors)
    (queue : σ.omsgq c = before ++ o :: (σ.fragments o ++ after)) :
    (∀ x ∈ before, (σ.msgs x).fragOwner ≠ some o) ∧
      (∀ x ∈ after, (σ.msgs x).fragOwner ≠ some o) := by
  have nodup := custody.client_nodup c
  rw [queue, List.nodup_append, List.nodup_cons, List.nodup_append] at nodup
  obtain ⟨-, ⟨alone, -, -, apart⟩, distinct⟩ := nodup
  constructor
  · intro x inside member
    by_cases here : x = o
    · exact distinct x inside o List.mem_cons_self here
    · refine distinct x inside x (List.mem_cons_of_mem _ (List.mem_append_left _ ?_)) rfl
      exact vectors.mem_fragments_iff.mpr ⟨here, member⟩
  · intro x inside member
    by_cases here : x = o
    · exact alone (here ▸ List.mem_append_right _ inside)
    · exact apart x (vectors.mem_fragments_iff.mpr ⟨here, member⟩) x inside rfl

theorem siblings_before (self : (σ.msgs o).fragOwner = some o)
    (none : ∀ x ∈ before, (σ.msgs x).fragOwner ≠ some o) :
    σ.siblings o before.reverse = [] := by
  refine List.eq_nil_iff_forall_not_mem.mpr fun x inside => ?_
  obtain ⟨listed, same⟩ := mem_siblings inside
  exact none x (List.mem_reverse.mp listed) (same.trans self)

theorem siblings_after (self : (σ.msgs o).fragOwner = some o)
    (none : ∀ x ∈ after, (σ.msgs x).fragOwner ≠ some o) :
    σ.siblings o (σ.fragments o ++ after) = σ.fragments o := by
  have rest : σ.siblings o after = [] := by
    refine List.eq_nil_iff_forall_not_mem.mpr fun x inside => ?_
    obtain ⟨listed, same⟩ := mem_siblings inside
    exact none x listed (same.trans self)
  unfold siblings at rest ⊢
  rw [List.takeWhile_append_of_pos, rest, List.append_nil]
  intro x inside
  rw [(mem_fragments.mp inside).2.2, self]
  exact beq_self_eq_true _

theorem ready_of_block (owned : (σ.msgs o).owner = some c)
    (queue : σ.omsgq c = before ++ o :: (σ.fragments o ++ after))
    (strangers : ∀ x ∈ before, (σ.msgs x).fragOwner ≠ some o)
    (strangers' : ∀ x ∈ after, (σ.msgs x).fragOwner ≠ some o) :
    σ.ready o = σ.ndone o := by
  have none : ∀ {xs : List Nat}, (∀ x ∈ xs, (σ.msgs x).fragOwner ≠ some o) → xs.countP
      (fun x => x != o && (σ.msgs x).fragOwner == some o && (σ.msgs x).done) = 0 := by
    intro xs strangers
    refine List.countP_eq_zero.mpr fun x inside => ?_
    simp [strangers x inside]
  unfold ready ndone
  rw [owned, Option.map_some, Option.getD_some, queue, List.countP_append, List.countP_cons,
    List.countP_append, none strangers, none strangers']
  simp only [bne_self_eq_false, Bool.false_and, Bool.false_eq_true, if_false, Nat.add_zero,
    Nat.zero_add]
  refine List.countP_congr fun x inside => ?_
  obtain ⟨-, other, member⟩ := mem_fragments.mp inside
  simp [other, member]

/-- A request that is found done for the first time, all requests before it being complete, is
the owner of a vector request that is settled. -/
theorem settled_of_reqDone (custody : σ.Custody) (vectors : σ.Vectors)
    (queue : σ.omsgq c = before ++ m :: after) (complete : ∀ x ∈ before, σ.Complete x)
    (found : σ.reqDone before.reverse m after = true) (member : (σ.msgs m).fragOwner = some o)
    (unmarked : (σ.msgs m).fdone = false) :
    m = o ∧ σ.Settled o ∧ ∃ rest, after = σ.fragments o ++ rest ∧
      (∀ x ∈ before, (σ.msgs x).fragOwner ≠ some o) ∧
      (∀ x ∈ rest, (σ.msgs x).fragOwner ≠ some o) := by
  have inside : m ∈ σ.omsgq c := by
    rw [queue]
    exact List.mem_append_right _ List.mem_cons_self
  obtain ⟨self, -, -⟩ := vectors.family m o member
  have unmarked' : (σ.msgs o).fdone = false := by
    rw [← vectors.coherent c m inside o member]
    exact unmarked
  obtain ⟨before', rest, block, -⟩ := vectors.block c m inside o member unmarked'
  obtain ⟨strangers, strangers'⟩ := strangers_of_block custody vectors block
  rcases split_cases (queue.symm.trans block) with ⟨rfl, rfl, rfl⟩ | early | late
  · refine ⟨rfl, ?_, rest, rfl, strangers, strangers'⟩
    unfold reqDone at found
    simp only [member, unmarked, Option.isNone_some, Bool.false_or, Bool.and_eq_true,
      decide_eq_true_iff] at found
    obtain ⟨-, all, -⟩ := found
    have tally := vectors.tally m self
    have counted := vectors.counted m self
    have most : σ.ndone m ≤ (σ.fragments m).length := List.countP_le_length
    have every : ∀ x ∈ σ.fragments m, (σ.msgs x).done = true :=
      List.countP_eq_length.mp (show σ.ndone m = (σ.fragments m).length by omega)
    refine ⟨self, unmarked, ?_, by omega, all, every⟩
    intro n active
    have zero : n = 0 := by
      have none : σ.left m = 0 := by omega
      simpa [left, active] using none
    -- the last fragment is still in the hands of `req_forward`, and so not done
    subst zero
    obtain ⟨x, held, member'⟩ := vectors.pending m active
    have undone := (custody.held x held).2.2.1
    have other : x ≠ m := by
      rintro rfl
      rw [vectors.owner_done x self] at undone
      cases undone
    rw [every x (vectors.mem_fragments_iff.mpr ⟨other, member'⟩)] at undone
    cases undone
  · exact absurd member (strangers m early)
  · have marked := (complete o late).2
    rw [self, unmarked'] at marked
    simp at marked

/-- So marking it marks the request as a whole, and coalesces it with all its fragments in the
queue and done. -/
theorem markDone_eq_coalesce (custody : σ.Custody) (vectors : σ.Vectors)
    (queue : σ.omsgq c = before ++ m :: after) (complete : ∀ x ∈ before, σ.Complete x) :
    σ.markDone before.reverse m after = σ ∨
      ∃ o, σ.Settled o ∧ σ.markDone before.reverse m after = σ.coalesce o := by
  unfold markDone
  split
  · exact Or.inl rfl
  · rename_i o member
    split
    · right
      rename_i found
      simp only [Bool.and_eq_true, Bool.not_eq_true'] at found
      obtain ⟨rfl, settled, rest, rfl, strangers, strangers'⟩ :=
        settled_of_reqDone custody vectors queue complete found.1 member found.2
      refine ⟨m, settled, ?_⟩
      have owned : (σ.msgs m).owner = some c := by
        refine (custody.owned c m ?_).1
        rw [queue]
        exact List.mem_append_right _ List.mem_cons_self
      have ready : σ.ready m = (σ.msgs m).nfrag := by
        rw [ready_of_block owned queue strangers strangers', ← settled.total]
        exact List.countP_eq_length.mpr settled.done
      unfold coalesce
      rw [ready]
      congr 1
      funext x
      rw [siblings_before settled.self strangers, siblings_after settled.self strangers',
        List.nil_append]
      refine if_congr ?_ rfl rfl
      rw [List.mem_cons, vectors.mem_fragments_iff]
      by_cases here : x = m
      · simp [here, settled.self]
      · simp [here]
    · exact Or.inl rfl

end Found

end Nutcracker.Proxy
