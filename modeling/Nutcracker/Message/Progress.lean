import Nutcracker.Lib.Loads
import Nutcracker.Message.Driver

/-!
# Progress of a call

One call of a parser ends after a number of iterations that is linear in the number of bytes ahead,
loads only bytes of the mbuf it works on, and leaves the cursor there.  With `NC_LITTLE_ENDIAN`,
texts are compared a word at a time; the last word of a text may reach one byte behind the data of
the mbuf, and this byte is masked out.
-/

namespace Nutcracker

open Lib

variable {σ : Type} {P : Parser σ} {dataSize : Nat}

/-- The comparisons `str4cmp` to `str12cmp`, with their loads. -/
def strcmpLoads (littleEndian : Bool) : Nat → List Char → Loads UInt8 Bool :=
  if littleEndian then strcmpWords else strcmpBytes

/-- The offsets that a call may load from an mbuf whose data ends at `last`. -/
def Loadable (littleEndian : Bool) (last k : Nat) : Prop :=
  k < last ∨ (littleEndian = true ∧ k = last)

theorem Loadable.of_lt {littleEndian : Bool} {last k : Nat} (inside : k < last) :
    Loadable littleEndian last k :=
  Or.inl inside

theorem strcmpLoads_gives {mem : Nat → UInt8} {b : Bytes} (littleEndian : Bool)
    (holds : Loads.Holds mem b) {name : List Char} {m : Nat} (fits : m + name.length ≤ b.length)
    (spans : m + wordSpan name.length ≤ b.length + 1) :
    (strcmpLoads littleEndian m name).Gives mem (Loadable littleEndian b.length)
      (strcmp (b.drop m) name) := by
  cases littleEndian with
  | false => exact (strcmpBytes_gives holds fits).mono fun _ => .of_lt
  | true =>
    refine (strcmpWords_gives holds fits).mono fun k within => ?_
    rcases Nat.lt_or_ge k b.length with inside | behind
    · exact .of_lt inside
    · exact Or.inr ⟨rfl, by omega⟩

/-- Load a byte of the mbuf and go on with it. -/
theorem gives_byte {ρ : Type} {littleEndian : Bool} {mem : Nat → UInt8} {b : Bytes} {p : Nat}
    {c : UInt8 → Loads UInt8 ρ} {x : ρ} (holds : Loads.Holds mem b) (here : p < b.length)
    (rest : (c (b.getD p 0)).Gives mem (Loadable littleEndian b.length) x) :
    (Loads.load p >>= c).Gives mem (Loadable littleEndian b.length) x := by
  refine .bind (.load (.of_lt here)) ?_
  rwa [holds.eq_getD here 0]

/-- The token marker stands before the cursor. -/
def TokenBehind (r : Scan σ) (p : Nat) : Prop :=
  ∀ t, r.token = some t → t < p

theorem TokenBehind.of_none {r : Scan σ} {p : Nat} (token : r.token = none) : TokenBehind r p := by
  intro t marked
  rw [token] at marked
  cases marked

/-- A token that was there stays behind a cursor that does not move back, and a new one starts at
the byte that is passed. -/
theorem TokenBehind.step {r s : Scan σ} {p q : Nat} (behind : TokenBehind r p) (forward : p ≤ q)
    (token : ∀ t, s.token = some t → r.token = some t ∨ (t = p ∧ p < q)) : TokenBehind s q := by
  intro t marked
  rcases token t marked with before | ⟨rfl, passed⟩
  · exact (behind t before).trans_le forward
  · exact passed

theorem TokenBehind.getD_le {r : Scan σ} {p : Nat} (behind : TokenBehind r p) :
    r.token.getD p ≤ p := by
  cases token : r.token with
  | none => exact Nat.le_refl p
  | some t => exact (behind t token).le

/-- The body of the loop of a parser, with the bytes that it loads from an mbuf. -/
structure Parser.Loading (lawful : P.Lawful dataSize) where
  /-- One iteration, given the byte order, the index of the mbuf and the end of its data. -/
  step : Bool → Nat → Nat → Scan σ → Nat → Loads UInt8 (Flow (Scan σ))
  gives : ∀ {i b mem r p} (littleEndian : Bool), Loads.Holds mem b → lawful.Good r p →
    TokenBehind r p → p < b.length →
    (step littleEndian i b.length r p).Gives mem (Loadable littleEndian b.length)
      (P.step dataSize i b r p)
  token : ∀ {i b r p q s}, lawful.Good r p → p < b.length → P.step dataSize i b r p = .next q s →
    ∀ t, s.token = some t → r.token = some t ∨ (t = p ∧ p < q)

/-- Where a call that ended with `out` may leave the cursor: between the place where it was and the
end of the data, or at the start of a token that has to be moved to a fresh mbuf. -/
structure Msg.Saved (m : Msg σ) (out : Flow (Scan σ)) (r : Msg σ) : Prop where
  inside : r.result = .ok ∨ r.result = .again → m.pos ≤ r.pos ∧ r.pos ≤ m.lastBuf.length
  token : r.result = .repair → r.pos < m.lastBuf.length ∧
    ∃ p s, out = .next p s ∧ s.token = some r.pos

namespace Parser.Loading

variable {lawful : P.Lawful dataSize} (loading : Parser.Loading lawful)

/-- The loop of a call, with the bytes that it loads and the number of its iterations. -/
def loop (littleEndian : Bool) (m : Msg σ) (fuel : Nat) : Loads UInt8 (Flow (Scan σ) × Nat) :=
  Loads.loop (loading.step littleEndian (m.mhdr.length - 1) m.lastBuf.length) m.lastBuf.length fuel
    m.toScan m.pos

/-- One call ends after at most four iterations for every byte ahead, whatever is in the memory
behind the data, and has loaded and saved what it may. -/
def Proceeds (m : Msg σ) : Prop :=
  ∀ (littleEndian : Bool) (mem : Nat → UInt8), Loads.Holds mem m.lastBuf →
    ∃ out, ∃ n ≤ 4 * (m.lastBuf.length - m.pos),
      (∀ fuel, n < fuel →
        (loading.loop littleEndian m fuel).Gives mem (Loadable littleEndian m.lastBuf.length)
          (out, n)) ∧
      P.parse dataSize m = P.conclude dataSize m out ∧ m.Saved out (P.parse dataSize m)

variable {m : Msg σ}

include loading

/-- The loop keeps the token marker behind the cursor, and the cursor inside. -/
theorem ends (parsable : lawful.Parsable m) (behind : TokenBehind m.toScan m.pos)
    {out : Flow (Scan σ)} (loops : P.Loops dataSize m out) :
    out.Ends (fun s q => lawful.Good s q ∧ TokenBehind s q ∧ m.pos ≤ q ∧ q ≤ m.lastBuf.length)
      fun _ q => m.pos ≤ q ∧ q < m.lastBuf.length := by
  refine (lawful.productive _ _).ends ?_ parsable.good
    ⟨behind, Nat.le_refl _, parsable.inside⟩ loops
  rintro r p good here ⟨behind, later, -⟩
  cases stepEq : P.step dataSize (m.mhdr.length - 1) m.lastBuf r p with
  | next q s =>
    obtain ⟨-, bound, moved⟩ := (lawful.productive _ _).advances good here stepEq
    have forward : p ≤ q := by omega
    exact ⟨behind.step forward (loading.token good here stepEq), later.trans forward, bound⟩
  | stop q s =>
    obtain rfl := lawful.stops_here stepEq
    exact ⟨later, here⟩
  | fail => trivial

theorem saved (parsable : lawful.Parsable m) (behind : TokenBehind m.toScan m.pos)
    {out : Flow (Scan σ)} (loops : P.Loops dataSize m out) :
    m.Saved out (P.conclude dataSize m out) := by
  have ends := loading.ends parsable behind loops
  cases out with
  | next q s =>
    obtain ⟨-, behind', later, bound⟩ := ends
    obtain ⟨rfl, -⟩ := lawful.loops_next parsable loops
    cases token : s.token with
    | none =>
      simp only [conclude, token]
      exact ⟨fun _ => ⟨later, bound⟩, by simp⟩
    | some t =>
      simp only [conclude, token]
      split
      · exact ⟨by simp, fun _ => ⟨behind' t token, _, s, rfl, token⟩⟩
      · exact ⟨fun _ => ⟨later, bound⟩, by simp⟩
  | stop q s =>
    obtain ⟨later, inside⟩ := ends
    exact ⟨fun _ => ⟨later.trans (Nat.le_succ q), inside⟩, by simp [conclude]⟩
  | fail => exact ⟨by simp [conclude], by simp [conclude]⟩

theorem proceeds (parsable : lawful.Parsable m) (behind : TokenBehind m.toScan m.pos) :
    loading.Proceeds m := by
  intro littleEndian mem holds
  obtain ⟨out, loops, parsed⟩ := lawful.exists_loops parsable.good
  have productive := lawful.productive (m.mhdr.length - 1) m.lastBuf
  have keep : ∀ r p, lawful.Good r p → p < m.lastBuf.length → TokenBehind r p →
      (P.step dataSize (m.mhdr.length - 1) m.lastBuf r p).Ends TokenBehind fun _ _ => True := by
    intro r p good here behind
    cases stepEq : P.step dataSize (m.mhdr.length - 1) m.lastBuf r p with
    | next q s =>
      obtain ⟨-, -, moved⟩ := productive.advances good here stepEq
      exact behind.step (by omega) (loading.token good here stepEq)
    | stop q s => trivial
    | fail => trivial
  obtain ⟨n, short, all⟩ := Loads.loop_gives productive
    (fun r p good behind here => loading.gives littleEndian holds good behind here)
    keep parsable.good behind loops
  refine ⟨out, n, short.trans (Loads.budget_le _ _ (productive.rank_le _ _)), all, parsed, ?_⟩
  rw [parsed]
  exact loading.saved parsable behind loops

/-! ## The driver -/

theorem behind_guards :
    lawful.Guards (fun m => TokenBehind m.toScan m.pos) (fun m => TokenBehind m.toScan m.pos)
      fun _ => True where
  start := by
    rw [Msg.prepare_fresh]
    exact .of_none rfl
  behind _ := .of_none rfl
  prepare {m} waiting behind := by
    by_cases full : m.lastBuf.length = dataSize
    · have prepared : m.prepare dataSize = { m with mhdr := m.mhdr ++ [[]], pos := 0 } := by
        simp [Msg.prepare, full]
      rw [prepared]
      exact .of_none (waiting.full full)
    · rwa [Msg.prepare_of_space waiting.chain (Nat.lt_of_le_of_ne waiting.fits full)]
  read _ behind _ _ := behind
  next parsable behind loops _ := (loading.ends parsable behind loops).2.1
  repair _ _ _ _ _ := .of_none rfl
  stop _ _ _ := trivial

end Parser.Loading

/-- The message with other bytes in the mbuf that the parser works on. -/
def Msg.withLastBuf (m : Msg σ) (b : Bytes) : Msg σ :=
  { m with mhdr := m.mhdr.dropLast ++ [b] }

/-- Every message that the driver hands to the parser, with any bytes in the mbuf that the parser
works on. -/
def Parser.Loading.Progress {lawful : P.Lawful dataSize} (loading : Parser.Loading lawful) : Prop :=
  ∀ (reads : List Bytes),
    ∀ m ∈ Receiver.receiveCalls (msgParse P dataSize) P dataSize {} reads,
      ∀ b : Bytes, m.pos ≤ b.length → b.length ≤ dataSize → loading.Proceeds (m.withLastBuf b)

theorem Parser.Loading.progress {lawful : P.Lawful dataSize} (loading : Parser.Loading lawful)
    (positive : 0 < dataSize) : loading.Progress := by
  intro reads m called b inside fits
  obtain ⟨parsable, behind⟩ := (loading.behind_guards.receive positive reads).2 m called
  have last : (m.withLastBuf b).lastBuf = b := by simp [Msg.withLastBuf, Msg.lastBuf]
  refine loading.proceeds ⟨by simp [Msg.withLastBuf], ?_, ?_, parsable.good, parsable.mlen⟩ behind
  · rwa [last]
  · rwa [last]

end Nutcracker
