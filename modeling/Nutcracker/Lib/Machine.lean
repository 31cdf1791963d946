import Nutcracker.Lib.Cursor

/-!
# Machines that read one symbol at a time

A machine consumes a list symbol by symbol until it accepts or rejects.  It is
the abstract counterpart of a cursor loop: no positions, no jumps and no buffer
end, so running it on a concatenation is running it twice.  `Simulates` states
when a cursor loop over a buffer behaves as a machine run over the buffer's
remaining symbols.
-/

namespace Nutcracker.Lib

universe u v w

/-- What a machine makes of one symbol. -/
inductive Verdict (σ : Type u) where
  | more (s : σ)
  | done (s : σ)
  | fail
  deriving Repr, DecidableEq

/-- What a machine makes of a list: it wants more, it accepted and left a rest
unread, or it rejected. -/
inductive Outcome (σ : Type u) (α : Type v) where
  | pending (s : σ)
  | done (s : σ) (rest : List α)
  | fail
  deriving Repr, DecidableEq

variable {σ : Type u} {α : Type v} {ρ : Type w}

/-- A test that has to hold for the machine to go on. -/
theorem Verdict.of_ite_more {c : Prop} [Decidable c] {s t : σ}
    (fed : (if c then Verdict.more s else .fail) = .more t) : c ∧ t = s := by
  split at fed
  · next holds => exact ⟨holds, (Verdict.more.inj fed).symm⟩
  · cases fed

/-- Feed a list to a machine. -/
def run (feed : σ → α → Verdict σ) : σ → List α → Outcome σ α
  | s, [] => .pending s
  | s, a :: rest =>
      match feed s a with
      | .more t => run feed t rest
      | .done t => .done t rest
      | .fail => .fail

section Run

variable {feed : σ → α → Verdict σ} {s t : σ} {a : α} {xs ys rest : List α}

@[simp]
theorem run_nil : run feed s [] = .pending s :=
  rfl

theorem run_cons_more (fed : feed s a = .more t) : run feed s (a :: xs) = run feed t xs := by
  simp [run, fed]

theorem run_cons_done (fed : feed s a = .done t) : run feed s (a :: xs) = .done t xs := by
  simp [run, fed]

theorem run_cons_fail (fed : feed s a = .fail) : run feed s (a :: xs) = .fail := by
  simp [run, fed]

/-- Two states that make the same of a symbol have the same runs from it. -/
theorem run_cons_congr (same : feed s a = feed t a) :
    run feed s (a :: xs) = run feed t (a :: xs) := by
  simp only [run, same]

/-- After a part that leaves the machine waiting, the rest is read from where
the part ended. -/
theorem run_append_of_pending (first : run feed s xs = .pending t) :
    run feed s (xs ++ ys) = run feed t ys := by
  induction xs generalizing s with
  | nil =>
    cases first
    rfl
  | cons x xs ih =>
    cases fed : feed s x with
    | more next =>
      rw [run_cons_more fed] at first
      rw [List.cons_append, run_cons_more fed]
      exact ih first
    | done next => simp [run, fed] at first
    | fail => simp [run, fed] at first

/-- Induction on an accepting run. -/
theorem run_done_induction {motive : ∀ s xs, run feed s xs = .done t rest → Prop}
    (last : ∀ {s a} (fed : feed s a = .done t), motive s (a :: rest) (run_cons_done fed))
    (more : ∀ {s a next xs} (fed : feed s a = .more next)
      (accepted : run feed next xs = .done t rest), motive next xs accepted →
      motive s (a :: xs) ((run_cons_more fed).trans accepted))
    {s : σ} {xs : List α} (accepted : run feed s xs = .done t rest) : motive s xs accepted := by
  induction xs generalizing s with
  | nil => cases accepted
  | cons x xs ih =>
    cases fed : feed s x with
    | more next => exact more fed ((run_cons_more fed).symm.trans accepted) (ih _)
    | done next =>
      obtain ⟨rfl, rfl⟩ := Outcome.done.inj ((run_cons_done fed).symm.trans accepted)
      exact last fed
    | fail => cases (run_cons_fail fed).symm.trans accepted

/-- An accepting run is not affected by what follows. -/
theorem run_append_of_done (first : run feed s xs = .done t rest) :
    run feed s (xs ++ ys) = .done t (rest ++ ys) := by
  induction first using run_done_induction with
  | last fed => rw [List.cons_append, run_cons_done fed]
  | more fed _ ih => rw [List.cons_append, run_cons_more fed, ih]

theorem run_append_of_fail (first : run feed s xs = .fail) :
    run feed s (xs ++ ys) = .fail := by
  induction xs generalizing s with
  | nil => cases first
  | cons x xs ih =>
    cases fed : feed s x with
    | more next =>
      rw [run_cons_more fed] at first
      rw [List.cons_append, run_cons_more fed]
      exact ih first
    | done next => simp [run, fed] at first
    | fail => rw [List.cons_append, run_cons_fail fed]

/-- A machine that collects the symbols it reads. -/
theorem run_collect (feed : σ → α → Verdict σ) (g : List α → σ) (xs ys : List α)
    (reads : ∀ l x r, xs = l ++ x :: r → feed (g l) x = .more (g (l ++ [x]))) :
    run feed (g []) (xs ++ ys) = run feed (g xs) ys := by
  induction xs generalizing g with
  | nil => rfl
  | cons x xs ih =>
    rw [List.cons_append, run_cons_more (reads [] x xs rfl)]
    refine ih (fun l => g (x :: l)) ?_
    rintro l y r rfl
    exact reads (x :: l) y r rfl

/-- An accepting run reads a non-empty prefix and leaves the rest. -/
theorem run_done_split (accepted : run feed s xs = .done t rest) :
    ∃ used, used ≠ [] ∧ xs = used ++ rest ∧ run feed s used = .done t [] := by
  induction accepted using run_done_induction with
  | last fed => exact ⟨[_], by simp, rfl, run_cons_done fed⟩
  | more fed _ ih =>
    obtain ⟨used, _, rfl, again⟩ := ih
    exact ⟨_ :: used, by simp, rfl, by rw [run_cons_more fed, again]⟩

/-- The last symbol of a run that is still waiting. -/
theorem run_concat_pending (pending : run feed s (xs ++ [a]) = .pending t) :
    ∃ s', run feed s xs = .pending s' ∧ feed s' a = .more t := by
  cases first : run feed s xs with
  | pending s' =>
    rw [run_append_of_pending first] at pending
    cases fed : feed s' a with
    | more next =>
      rw [run_cons_more fed, run_nil] at pending
      cases pending
      exact ⟨s', rfl, fed⟩
    | done next => simp [run, fed] at pending
    | fail => simp [run, fed] at pending
  | done u rest =>
    rw [run_append_of_done first] at pending
    cases pending
  | fail =>
    rw [run_append_of_fail first] at pending
    cases pending

/-- The last symbol of an accepting run that reads everything. -/
theorem run_done_last (accepted : run feed s xs = .done t []) :
    ∃ pre a s', xs = pre ++ [a] ∧ run feed s pre = .pending s' ∧ feed s' a = .done t := by
  induction accepted using run_done_induction with
  | last fed => exact ⟨[], _, _, rfl, run_nil, fed⟩
  | more fed _ ih =>
    obtain ⟨pre, a, s', rfl, before, last⟩ := ih
    exact ⟨_ :: pre, a, s', rfl, by rw [run_cons_more fed, before], last⟩

/-- What every symbol preserves holds in every state that is reached. -/
theorem run_pending_inv {Inv : σ → Prop} (step : ∀ {s a t}, Inv s → feed s a = .more t → Inv t)
    (start : Inv s) (pending : run feed s xs = .pending t) : Inv t := by
  induction xs generalizing s with
  | nil =>
    cases pending
    exact start
  | cons x xs ih =>
    cases fed : feed s x with
    | more next =>
      rw [run_cons_more fed] at pending
      exact ih (step start fed) pending
    | done next => simp [run, fed] at pending
    | fail => simp [run, fed] at pending

/-- A machine that accepts leaves strictly less than it was given. -/
theorem run_done_length_lt (accepted : run feed s xs = .done t rest) :
    rest.length < xs.length := by
  obtain ⟨used, nonempty, rfl, _⟩ := run_done_split accepted
  have := List.length_pos_iff.mpr nonempty
  simp only [List.length_append]
  omega

end Run

/-! ## Cursor loops that implement a machine -/

section Simulation

variable {feed : σ → α → Verdict σ} {b : List α} {Rel : ρ → Nat → σ → Prop}
  {Fin : ρ → σ → Prop} {s t : σ} {a : α} {p q : Nat} {r : ρ}

/-- The result of an iteration that started at position `p` of the buffer `b` does
not change what the machine makes of the symbols from the cursor on. -/
def Tracks (feed : σ → α → Verdict σ) (b : List α) (Rel : ρ → Nat → σ → Prop)
    (Fin : ρ → σ → Prop) (s : σ) (p : Nat) : Flow ρ → Prop
  | .next q r => ∃ t, Rel r q t ∧ run feed s (b.drop p) = run feed t (b.drop q)
  | .stop q r => ∃ t, Fin r t ∧ q < b.length ∧ run feed s (b.drop p) = .done t (b.drop (q + 1))
  | .fail => run feed s (b.drop p) = .fail

theorem Tracks.more (here : b.drop p = a :: b.drop (p + 1)) (fed : feed s a = .more t)
    (rel : Rel r (p + 1) t) : Tracks feed b Rel Fin s p (.next (p + 1) r) := by
  refine ⟨t, rel, ?_⟩
  rw [here, run_cons_more fed]

theorem Tracks.done (inside : p < b.length) (here : b.drop p = a :: b.drop (p + 1))
    (fed : feed s a = .done t) (final : Fin r t) : Tracks feed b Rel Fin s p (.stop p r) := by
  refine ⟨t, final, inside, ?_⟩
  rw [here, run_cons_done fed]

theorem Tracks.failed (here : b.drop p = a :: b.drop (p + 1)) (fed : feed s a = .fail) :
    Tracks feed b Rel Fin s p .fail := by
  show run feed s (b.drop p) = .fail
  rw [here, run_cons_fail fed]

/-- Every iteration of a loop over `b` tracks the machine. -/
def Simulates (feed : σ → α → Verdict σ) (b : List α) (step : ρ → Nat → Flow ρ)
    (Rel : ρ → Nat → σ → Prop) (Fin : ρ → σ → Prop) : Prop :=
  ∀ r p s, Rel r p s → p < b.length → Tracks feed b Rel Fin s p (step r p)

/-- What the iterations of a loop preserve may be added to the relation. -/
theorem Simulates.restrict {step : ρ → Nat → Flow ρ} {Inv : ρ → Nat → Prop} {Inv' : ρ → Prop}
    (sim : Simulates feed b step Rel Fin)
    (next : ∀ {r p s q r'}, Rel r p s → Inv r p → p < b.length → step r p = .next q r' → Inv r' q)
    (stop : ∀ {r p s q r'}, Rel r p s → Inv r p → p < b.length → step r p = .stop q r' → Inv' r') :
    Simulates feed b step (fun r p s => Rel r p s ∧ Inv r p) (fun r s => Fin r s ∧ Inv' r) := by
  rintro r p s ⟨rel, inv⟩ inside
  have tracks := sim r p s rel inside
  cases stepEq : step r p with
  | next q r' =>
    rw [stepEq] at tracks
    obtain ⟨t, rel', same⟩ := tracks
    exact ⟨t, ⟨rel', next rel inv inside stepEq⟩, same⟩
  | stop q r' =>
    rw [stepEq] at tracks
    obtain ⟨t, final, bound, same⟩ := tracks
    exact ⟨t, ⟨final, stop rel inv inside stepEq⟩, bound, same⟩
  | fail =>
    rw [stepEq] at tracks
    exact tracks

/-- The three ways a loop over `b` can end, as the machine sees them. -/
def Agrees (feed : σ → α → Verdict σ) (b : List α) (Rel : ρ → Nat → σ → Prop)
    (Fin : ρ → σ → Prop) (s : σ) (p : Nat) : Flow ρ → Prop
  | .next q r => ∃ t, Rel r q t ∧ run feed s (b.drop p) = .pending t
  | .stop q r => ∃ t, Fin r t ∧ q < b.length ∧ run feed s (b.drop p) = .done t (b.drop (q + 1))
  | .fail => run feed s (b.drop p) = .fail

theorem Simulates.agrees {step : ρ → Nat → Flow ρ} (sim : Simulates feed b step Rel Fin)
    {out : Flow ρ} (rel : Rel r p s) (loops : Runs step b.length r p out) :
    Agrees feed b Rel Fin s p out := by
  induction loops generalizing s with
  | exit atEnd => exact ⟨s, rel, by rw [List.drop_of_length_le atEnd, run_nil]⟩
  | more inside stepEq _ ih =>
    have tracks := sim _ _ _ rel inside
    rw [stepEq] at tracks
    obtain ⟨t, rel', same⟩ := tracks
    have rest := ih rel'
    revert rest
    unfold Agrees
    rw [same]
    exact id
  | stop inside stepEq =>
    have tracks := sim _ _ _ rel inside
    rwa [stepEq] at tracks
  | fail inside stepEq =>
    have tracks := sim _ _ _ rel inside
    rwa [stepEq] at tracks

/-- The loop stops exactly if the machine accepts. -/
theorem Agrees.stop_iff {out : Flow ρ} (agrees : Agrees feed b Rel Fin s p out) :
    (∃ q r, out = .stop q r) ↔ ∃ t rest, run feed s (b.drop p) = .done t rest := by
  cases out with
  | next q r =>
    obtain ⟨t, _, pending⟩ := agrees
    simp [pending]
  | stop q r =>
    obtain ⟨t, _, _, done⟩ := agrees
    simp [done]
  | fail =>
    have failed : run feed s (b.drop p) = .fail := agrees
    simp [failed]

/-- The loop stops right before what an accepting machine leaves unread. -/
theorem Agrees.stop_of_done {out : Flow ρ} {rest : List α} (agrees : Agrees feed b Rel Fin s p out)
    (done : run feed s (b.drop p) = .done t rest) :
    ∃ q r, out = .stop q r ∧ Fin r t ∧ q + 1 + rest.length = b.length := by
  cases out with
  | next q r =>
    obtain ⟨_, _, pending⟩ := agrees
    cases done.symm.trans pending
  | stop q r =>
    obtain ⟨_, finished, inside, done'⟩ := agrees
    obtain ⟨rfl, rfl⟩ := Outcome.done.inj (done.symm.trans done')
    refine ⟨q, r, rfl, finished, ?_⟩
    simp only [List.length_drop]
    omega
  | fail => cases done.symm.trans agrees

end Simulation

end Nutcracker.Lib
