import Nutcracker.Message.Segmentation

/-!
# Invariants of the receive driver

A property of messages that holds of a new message, that every call of the parser keeps and
that reading bytes keeps holds of every message the driver hands to the parser, and of every
message it completes.  The property may take three forms: of a message that waits for a read,
of one that is handed to the parser, and of a complete one.
-/

namespace Nutcracker

open Lib

variable {σ : Type} {P : Parser σ} {dataSize : Nat}

/-- The message as a call leaves it that cut the token at offset `t` of a full mbuf. -/
def Parser.Lawful.repaired (P : Parser σ) (m : Msg σ) (s : Scan σ) (t : Nat) : Msg σ :=
  { s with
    token := none, state := P.restart s.state, pos := 0,
    mhdr := m.mhdr.dropLast ++ [m.lastBuf.take t] ++ [m.lastBuf.drop t], mlen := m.mlen,
    result := .repair }

/-- What the three forms of the property have to satisfy. -/
structure Parser.Lawful.Guards (lawful : P.Lawful dataSize) (Rest Ready AtEnd : Msg σ → Prop) :
    Prop where
  start : Rest ((Msg.fresh P).prepare dataSize)
  behind : ∀ {nbuf}, nbuf.length ≤ dataSize → Ready (.ofRest P nbuf)
  prepare : ∀ {m}, lawful.Waiting m → Rest m → Rest (m.prepare dataSize)
  read : ∀ {m x}, lawful.Waiting m → Rest m → m.lastBuf.length < dataSize →
    m.lastBuf.length + x.length ≤ dataSize → Ready (m.append x)
  next : ∀ {m s}, lawful.Parsable m → Ready m → P.Loops dataSize m (.next m.lastBuf.length s) →
    (m.lastBuf.length = dataSize → s.token = none) → Rest (suspended m s)
  repair : ∀ {m s t}, lawful.Parsable m → Ready m →
    P.Loops dataSize m (.next m.lastBuf.length s) → m.lastBuf.length = dataSize →
    s.token = some t → Rest (repaired P m s t)
  stop : ∀ {m q s}, lawful.Parsable m → Ready m → P.Loops dataSize m (.stop q s) →
    AtEnd (finished P m q s)

/-- The property on a connection. -/
structure Receiver.Guarded (lawful : P.Lawful dataSize) (Rest AtEnd : Msg σ → Prop)
    (conn : Receiver σ) : Prop where
  completed : ∀ m ∈ conn.completed, AtEnd m
  rmsg : ∀ m ∈ conn.rmsg, lawful.Waiting m ∧ Rest m

namespace Receiver

variable {conn : Receiver σ} {m r : Msg σ} {nmsg : Option (Msg σ)}

theorem mem_recvDone (member : m ∈ (conn.recvDone r nmsg).completed) :
    m ∈ conn.completed ∨ m = r := by
  unfold recvDone at member
  split at member
  · exact Or.inl member
  · split at member <;> simpa using member

/-- A live connection that a message closes has nothing under construction. -/
theorem rmsg_of_closed (live : conn.status = .live)
    (closed : (conn.recvDone r nmsg).status ≠ .live) :
    (conn.recvDone r nmsg).rmsg = none := by
  unfold recvDone at closed ⊢
  split
  · rename_i empty
    simp [if_pos empty, live] at closed
  · rename_i some_
    split
    · rfl
    · rename_i goesOn
      simp [if_neg some_, if_neg goesOn, live] at closed

end Receiver

namespace Parser.Lawful.Guards

variable {lawful : P.Lawful dataSize} {Rest Ready AtEnd : Msg σ → Prop}
  (guards : lawful.Guards Rest Ready AtEnd) {conn : Receiver σ} {m : Msg σ}

theorem waiting_fresh (lawful : P.Lawful dataSize) :
    lawful.Waiting ((Msg.fresh P).prepare dataSize) := by
  rw [Msg.prepare_fresh]
  refine ⟨⟨by simp, Nat.zero_le _, Nat.le_refl _, lawful.good_of_none rfl, ?_⟩, fun _ => rfl⟩
  show 0 < word32
  decide

include guards

/-- What a call leaves behind. -/
theorem pending {r : Msg σ} (parsable : lawful.Parsable m) (ready : Ready m)
    (left : msgParseBytes P dataSize m = .pending r) : Rest r := by
  obtain ⟨out, loops, _⟩ := lawful.exists_loops parsable.good
  cases out with
  | next q s =>
    obtain ⟨rfl, -⟩ := lawful.loops_next parsable loops
    by_cases full : m.lastBuf.length = dataSize
    · cases token : s.token with
      | none =>
        rw [lawful.msgParseBytes_next parsable loops fun _ => token] at left
        cases left
        exact guards.next parsable ready loops fun _ => token
      | some t =>
        rw [lawful.msgParseBytes_repair parsable loops full token] at left
        cases left
        exact guards.repair parsable ready loops full token
    · rw [lawful.msgParseBytes_next parsable loops fun here => absurd here full] at left
      cases left
      exact guards.next parsable ready loops fun here => absurd here full
  | stop q s =>
    rw [lawful.msgParseBytes_stop parsable loops] at left
    cases left
  | fail =>
    rw [lawful.msgParseBytes_fail parsable loops] at left
    cases left

theorem done {r : Msg σ} {nmsg : Option (Msg σ)} (parsable : lawful.Parsable m) (ready : Ready m)
    (completed : msgParseBytes P dataSize m = .completed r nmsg) : AtEnd r := by
  obtain ⟨out, loops, _⟩ := lawful.exists_loops parsable.good
  cases out with
  | next q s =>
    obtain ⟨r', pending, -⟩ := lawful.pending_of_next parsable loops
    rw [pending] at completed
    cases completed
  | stop q s =>
    rw [lawful.msgParseBytes_stop parsable loops] at completed
    cases completed
    exact guards.stop parsable ready loops
  | fail =>
    rw [lawful.msgParseBytes_fail parsable loops] at completed
    cases completed

/-- The loop over the messages in what was read. -/
theorem parseLoop {fuel : Nat} (live : conn.status = .live)
    (earlier : ∀ m ∈ conn.completed, AtEnd m)
    (parsable : lawful.Parsable m) (ready : Ready m) (enough : m.lastBuf.length < fuel) :
    (conn.parseLoop (msgParse P dataSize) fuel m).Guarded lawful Rest AtEnd ∧
      ∀ c ∈ Receiver.loopCalls (msgParse P dataSize) fuel conn m,
        lawful.Parsable c ∧ Ready c := by
  induction fuel generalizing conn m with
  | zero => exact absurd enough (Nat.not_lt_zero _)
  | succ fuel ih =>
    rw [Receiver.parseLoop, Receiver.loopCalls]
    by_cases empty : m.mlen = 0
    · simp only [msgParse, if_pos empty, List.mem_singleton]
      exact ⟨⟨earlier, by simp⟩, fun c here => here ▸ ⟨parsable, ready⟩⟩
    have handed : ∀ r nmsg, AtEnd r → ∀ m' ∈ (conn.recvDone r nmsg).completed, AtEnd m' := by
      intro r nmsg done m' member
      rcases Receiver.mem_recvDone member with before | rfl
      · exact earlier m' before
      · exact done
    simp only [msgParse, if_neg empty]
    rcases lawful.msgParseBytes_cases parsable with
      ⟨r, left, waiting⟩ | ⟨r, completed⟩ | ⟨r, nbuf, completed, shorter⟩ | failed
    · simp only [left, List.mem_singleton]
      refine ⟨⟨earlier, ?_⟩, fun c here => here ▸ ⟨parsable, ready⟩⟩
      rintro m' ⟨⟩
      exact ⟨waiting, guards.pending parsable ready left⟩
    · simp only [completed, List.mem_singleton]
      have done := guards.done parsable ready completed
      refine ⟨⟨handed r none done, ?_⟩, fun c here => here ▸ ⟨parsable, ready⟩⟩
      simp [Receiver.recvDone_rmsg]
    · have done := guards.done parsable ready completed
      have fits := shorter.le.trans parsable.fits
      simp only [completed]
      split
      · rename_i goesOn
        obtain ⟨guarded, calls⟩ := ih goesOn (handed r (some (.ofRest P nbuf)) done)
          (lawful.parsable_ofRest fits) (guards.behind fits) (by change nbuf.length < fuel; omega)
        refine ⟨guarded, fun c member => ?_⟩
        rcases List.mem_cons.mp member with rfl | later
        · exact ⟨parsable, ready⟩
        · exact calls c later
      · rename_i closed
        refine ⟨⟨handed r _ done, ?_⟩, fun c member => ?_⟩
        · simp [Receiver.rmsg_of_closed live closed]
        · rw [List.mem_singleton.mp member]
          exact ⟨parsable, ready⟩
    · simp only [failed, List.mem_singleton]
      exact ⟨⟨earlier, by simp⟩, fun c here => here ▸ ⟨parsable, ready⟩⟩

/-- The message that the next read goes to. -/
theorem current (guarded : conn.Guarded lawful Rest AtEnd) (positive : 0 < dataSize) :
    lawful.Waiting (conn.current P dataSize) ∧ Rest (conn.current P dataSize) ∧
      (conn.current P dataSize).lastBuf.length < dataSize := by
  unfold Receiver.current
  cases under : conn.rmsg with
  | none =>
    refine ⟨waiting_fresh lawful, guards.start, ?_⟩
    rw [Option.getD_none, Msg.prepare_fresh]
    exact positive
  | some m =>
    obtain ⟨waiting, rest⟩ := guarded.rmsg m under
    obtain ⟨parsable, space⟩ := waiting.prepare positive
    exact ⟨⟨parsable, fun full => absurd full space.ne⟩, guards.prepare waiting rest, space⟩

/-- One event: what was read before stays, and every call finds a message that is ready. -/
theorem msgRecv (positive : 0 < dataSize) (fuel : Nat) (avail : Bytes)
    (guarded : conn.Guarded lawful Rest AtEnd) :
    (conn.msgRecv (msgParse P dataSize) P dataSize fuel avail).Guarded lawful Rest AtEnd ∧
      ∀ c ∈ Receiver.recvCalls (msgParse P dataSize) P dataSize fuel conn avail,
        lawful.Parsable c ∧ Ready c := by
  induction fuel generalizing conn avail with
  | zero => exact ⟨guarded, by simp [Receiver.recvCalls]⟩
  | succ fuel ih =>
    rw [Receiver.msgRecv, Receiver.recvCalls]
    by_cases live : conn.status = .live
    · obtain ⟨waiting, rest, space⟩ := guards.current guarded positive
      by_cases none_ : avail = []
      · simp only [if_pos live, if_pos none_]
        refine ⟨⟨guarded.completed, ?_⟩, by simp⟩
        rintro m' ⟨⟩
        exact ⟨waiting, rest⟩
      · have fits : (conn.current P dataSize).lastBuf.length +
            (avail.take ((conn.current P dataSize).space dataSize)).length ≤ dataSize := by
          rw [List.length_take, Msg.space]
          omega
        have chain := guards.parseLoop live guarded.completed (waiting.toParsable.append fits)
          (guards.read waiting rest space fits) (Nat.lt_succ_self _)
        simp only [if_pos live, if_neg none_]
        split
        · exact chain
        · obtain ⟨after, calls⟩ := ih (avail.drop ((conn.current P dataSize).space dataSize))
            chain.1
          refine ⟨after, fun c member => ?_⟩
          rcases List.mem_append.mp member with here | later
          · exact chain.2 c here
          · exact calls c later
    · simp only [if_neg live]
      exact ⟨guarded, by simp⟩

/-- All events of a connection. -/
theorem receive (positive : 0 < dataSize) (reads : List Bytes) :
    (({} : Receiver σ).receive (msgParse P dataSize) P dataSize reads).Guarded lawful Rest AtEnd ∧
      ∀ c ∈ Receiver.receiveCalls (msgParse P dataSize) P dataSize {} reads,
        lawful.Parsable c ∧ Ready c := by
  have start : ({} : Receiver σ).Guarded lawful Rest AtEnd := ⟨by simp, by simp⟩
  generalize ({} : Receiver σ) = conn at start
  induction reads generalizing conn with
  | nil => exact ⟨start, by simp [Receiver.receiveCalls]⟩
  | cons avail reads ih =>
    obtain ⟨first, calls⟩ := guards.msgRecv positive (avail.length + 1) avail start
    obtain ⟨rest, later⟩ := ih _ first
    refine ⟨rest, fun c member => ?_⟩
    rcases List.mem_append.mp member with here | behind
    · exact calls c here
    · exact later c behind

end Parser.Lawful.Guards

/-! ## Mbufs that fit -/

/-- No mbuf of the message holds more than it can. -/
def Msg.Fits (dataSize : Nat) (m : Msg σ) : Prop :=
  ∀ b ∈ m.mhdr, b.length ≤ dataSize

theorem Msg.Fits.dropLast {m : Msg σ} (fits : m.Fits dataSize) {x : Bytes}
    (short : x.length ≤ dataSize) : ∀ b ∈ m.mhdr.dropLast ++ [x], b.length ≤ dataSize := by
  intro b member
  rcases List.mem_append.mp member with front | last
  · exact fits b (List.dropLast_subset _ front)
  · rwa [List.mem_singleton.mp last]

theorem Parser.Lawful.fits_guards (lawful : P.Lawful dataSize) :
    lawful.Guards (Msg.Fits dataSize) (Msg.Fits dataSize) (Msg.Fits dataSize) where
  start := by
    rw [Msg.prepare_fresh]
    simp [Msg.Fits]
  behind short := by simpa [Msg.Fits, Msg.ofRest] using short
  prepare _ fits := by
    unfold Msg.prepare
    split
    · intro b member
      rcases List.mem_append.mp member with front | last
      · exact fits b front
      · rw [List.mem_singleton.mp last]
        exact Nat.zero_le _
    · exact fits
  read _ fits _ short := fits.dropLast (by rwa [List.length_append])
  next _ fits _ _ := fits
  repair parsable fits _ _ _ := by
    intro b member
    rcases List.mem_append.mp member with front | last
    · refine fits.dropLast ?_ b front
      exact (List.length_take_le' _ _).trans parsable.fits
    · rw [List.mem_singleton.mp last, List.length_drop]
      exact (Nat.sub_le _ _).trans parsable.fits
  stop parsable fits _ := fits.dropLast ((List.length_take_le' _ _).trans parsable.fits)

end Nutcracker
