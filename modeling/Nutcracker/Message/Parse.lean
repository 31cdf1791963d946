import Nutcracker.Message.Core

/-!
# Laws of a parser

A parser is lawful if its loop makes progress and can be suspended at the end of
an mbuf.  Progress makes the fuel of `Parser.parse` irrelevant: a call computes
the big-step result of the loop.
-/

namespace Nutcracker

open Lib

section Skip

variable {σ : Type}

/-- The bytes of an argument that may run over several mbufs: what an mbuf holds of
them is subtracted from `rlen`. -/
def skipRlen (after : σ) : Bytes → Scan σ → Nat → Flow (Scan σ) :=
  passOver 0 CR (fun r => r.rlen) (fun n r => { r with rlen := r.rlen - n })
    fun r => { r with rlen := 0, state := after }

theorem skipRlen_resumable (after : σ) {x y : Bytes} {r : Scan σ} {p : Nat}
    (inside : p < x.length) :
    skipRlen after x r p = skipRlen after (x ++ y) r p ∨
      ∃ s, s.state = r.state ∧ skipRlen after x r p = .next x.length s ∧
        skipRlen after (x ++ y) s x.length = skipRlen after (x ++ y) r p := by
  have countdown : Countdown (fun r : Scan σ => r.rlen) (fun n r => { r with rlen := r.rlen - n })
      (fun r => { r with rlen := 0, state := after }) :=
    ⟨by simp, by simp [Nat.sub_sub], by simp⟩
  rcases countdown.resumable 0 CR inside with same | ⟨suspended, again⟩
  · exact .inl same
  · refine .inr ⟨_, ?_, suspended, again⟩
    rfl

/-- A state that does nothing but pass over bytes can be suspended as they can. -/
theorem suspends_of_skips {step skip : Bytes → Scan σ → Nat → Flow (Scan σ)} {x y : Bytes}
    {r : Scan σ} {p : Nat}
    (skips : ∀ b s q, s.state = r.state → step b s q = skip b s q)
    (suspends : skip x r p = skip (x ++ y) r p ∨
      ∃ s, s.state = r.state ∧ skip x r p = .next x.length s ∧
        skip (x ++ y) s x.length = skip (x ++ y) r p) :
    step x r p = step (x ++ y) r p ∨
      ∃ s, step x r p = .next x.length s ∧ step (x ++ y) s x.length = step (x ++ y) r p := by
  rw [skips x r p rfl, skips (x ++ y) r p rfl]
  rcases suspends with same | ⟨s, sameState, suspended, again⟩
  · exact .inl same
  · exact .inr ⟨s, suspended, (skips _ _ _ sameState).trans again⟩

end Skip

namespace Parser

variable {σ : Type} {P : Parser σ} {dataSize : Nat}

/-- What the receive path relies on in a parser.  `Good` is the invariant of the
loop; it may constrain the token marker only. -/
structure Lawful (P : Parser σ) (dataSize : Nat) where
  Good : Scan σ → Nat → Prop
  rank : Bytes → Scan σ → Nat → Nat
  productive : ∀ i b, Productive (P.step dataSize i b) b.length Good (rank b) 3
  resumable : ∀ i, Resumable (P.step dataSize i)
  stops_here : ∀ {i b r p q s}, P.step dataSize i b r p = .stop q s → q = p
  good_of_none : ∀ {r p}, r.token = none → Good r p

/-- The big-step result of the loop of a call. -/
def Loops (P : Parser σ) (dataSize : Nat) (r : Msg σ) (out : Flow (Scan σ)) : Prop :=
  Runs (P.step dataSize (r.mhdr.length - 1) r.lastBuf) r.lastBuf.length r.toScan r.pos out

namespace Lawful

variable (lawful : P.Lawful dataSize) {r : Msg σ}
include lawful

theorem exists_loops (good : lawful.Good r.toScan r.pos) :
    ∃ out, P.Loops dataSize r out ∧ P.parse dataSize r = P.conclude dataSize r out := by
  refine ⟨_, (lawful.productive _ _).runs_loop good ?_, rfl⟩
  have := (lawful.productive (r.mhdr.length - 1) r.lastBuf).rank_le r.toScan r.pos
  omega

theorem parse_eq (good : lawful.Good r.toScan r.pos) {out : Flow (Scan σ)}
    (loops : P.Loops dataSize r out) : P.parse dataSize r = P.conclude dataSize r out := by
  obtain ⟨out', loops', parsed⟩ := lawful.exists_loops good
  rw [parsed, loops'.unique loops]

/-- A call whose loop simulates a machine ends as the machine does. -/
theorem parse_agrees {τ : Type*} {feed : τ → UInt8 → Verdict τ} {Rel : Scan σ → Nat → τ → Prop}
    {Fin : Scan σ → τ → Prop} {s : τ} (good : lawful.Good r.toScan r.pos)
    (sim : Simulates feed r.lastBuf (P.step dataSize (r.mhdr.length - 1) r.lastBuf) Rel Fin)
    (rel : Rel r.toScan r.pos s) :
    ∃ out, P.parse dataSize r = P.conclude dataSize r out ∧
      Agrees feed r.lastBuf Rel Fin s r.pos out := by
  obtain ⟨out, loops, parsed⟩ := lawful.exists_loops good
  exact ⟨out, parsed, sim.agrees rel loops⟩

end Lawful

section Conclude

variable {r : Msg σ} {out : Flow (Scan σ)}

/-- A call accepts exactly if its loop stops. -/
theorem conclude_ok_iff :
    (P.conclude dataSize r out).result = .ok ↔ ∃ p s, out = .stop p s := by
  cases out with
  | next p s =>
    simp only [conclude]
    split
    · split <;> simp
    · simp
  | stop p s => simp [conclude]
  | fail => simp [conclude]

end Conclude

end Parser

namespace Msg

variable {σ : Type} (start : σ) (b : Bytes) (p : Nat)

end Msg

end Nutcracker
