import Nutcracker.Message.Receive

/-!
# What the parsers keep

A property of the parser's fields that every iteration of its loop keeps holds of the
message under construction and, in the form it has at the end of a message, of every
message the receive driver completes.
-/

namespace Nutcracker

open Lib

variable {σ : Type} {P : Parser σ} {dataSize : Nat}

/-- What a loop ends with, given what holds while it runs and when it stops. -/
def Ends {ρ : Type} (during atEnd : ρ → Prop) : Flow ρ → Prop
  | .next _ r => during r
  | .stop _ r => atEnd r
  | .fail => True

theorem ends_loop {ρ : Type} {during atEnd : ρ → Prop} {step : ρ → Nat → Flow ρ}
    (keep : ∀ r p, during r → Ends during atEnd (step r p)) {last fuel : Nat} {r : ρ} {p : Nat}
    (start : during r) : Ends during atEnd (loop step last fuel r p) := by
  induction fuel generalizing r p with
  | zero => exact start
  | succ fuel ih =>
    rw [loop]
    split
    · have kept := keep r p start
      split
      · rename_i q s stepped
        rw [stepped] at kept
        exact ih kept
      · rename_i q s stepped
        rwa [stepped] at kept
      · trivial
    · exact start

/-- Cutting off a complete message changes none of the parser's fields. -/
theorem msgParsed_scan (P : Parser σ) (r : Msg σ) :
    ∃ (r' : Msg σ) (nmsg : Option (Msg σ)), msgParsed P r = .completed r' nmsg ∧
      r'.toScan = r.toScan ∧ ∀ n ∈ nmsg, n.toScan = (Msg.fresh P).toScan := by
  unfold msgParsed
  split
  · exact ⟨_, _, rfl, rfl, by simp⟩
  · refine ⟨_, _, rfl, rfl, ?_⟩
    rintro n ⟨⟩
    rfl

/-- A property of the parser's fields: `during` holds while a message is read, `atEnd` of a
complete one. -/
structure Parser.Keeps (P : Parser σ) (during atEnd : Scan σ → Prop) : Prop where
  start : during { state := P.start }
  step : ∀ dataSize i b s p, during s → Ends during atEnd (P.step dataSize i b s p)
  restart : ∀ s : Scan σ, during s → during { s with token := none, state := P.restart s.state }
  complete : ∀ (s : Scan σ) (token : Option Nat), atEnd s →
    atEnd { s with token := token, state := P.start }

/-- The message under construction and the completed messages have the property. -/
structure Receiver.Keeps (conn : Receiver σ) (during atEnd : Scan σ → Prop) : Prop where
  completed : ∀ m ∈ conn.completed, atEnd m.toScan
  rmsg : ∀ m ∈ conn.rmsg, during m.toScan

theorem Receiver.Keeps.recvDone {conn : Receiver σ} {during atEnd : Scan σ → Prop}
    (here : conn.Keeps during atEnd) {m : Msg σ}
    (done : atEnd m.toScan) {nmsg : Option (Msg σ)} (next : ∀ n ∈ nmsg, during n.toScan) :
    (conn.recvDone m nmsg).Keeps during atEnd := by
  have longer : ∀ m' ∈ conn.completed ++ [m], atEnd m'.toScan := by
    intro m' member
    rcases List.mem_append.mp member with earlier | last
    · exact here.completed m' earlier
    · rwa [List.mem_singleton.mp last]
  unfold Receiver.recvDone
  split
  · exact ⟨here.completed, next⟩
  · split
    · exact ⟨longer, by simp⟩
    · exact ⟨longer, next⟩

namespace Parser.Keeps

variable {during atEnd : Scan σ → Prop} (keeps : P.Keeps during atEnd)

include keeps

/-- What `msg_parse` makes of a message that has the property. -/
theorem msgParseBytes (dataSize : Nat) {m : Msg σ} (here : during m.toScan) :
    (∀ r, msgParseBytes P dataSize m = .pending r → during r.toScan) ∧
      ∀ r nmsg, msgParseBytes P dataSize m = .completed r nmsg →
        atEnd r.toScan ∧ ∀ n ∈ nmsg, during n.toScan := by
  have ends : Ends during atEnd
      (loop (P.step dataSize (m.mhdr.length - 1) m.lastBuf) m.lastBuf.length
        (4 * (m.lastBuf.length - m.pos) + 4) m.toScan m.pos) :=
    ends_loop (keeps.step dataSize (m.mhdr.length - 1) m.lastBuf) here
  unfold Nutcracker.msgParseBytes Parser.parse
  cases out : loop (P.step dataSize (m.mhdr.length - 1) m.lastBuf) m.lastBuf.length
      (4 * (m.lastBuf.length - m.pos) + 4) m.toScan m.pos with
  | next q s =>
    rw [out] at ends
    simp only [conclude]
    cases token : s.token with
    | none => exact ⟨fun r same => by cases same; exact ends, fun r nmsg same => by cases same⟩
    | some t =>
      by_cases full : m.lastBuf.length = dataSize
      · simp only [if_pos full]
        refine ⟨fun r same => ?_, fun r nmsg same => by cases same⟩
        cases same
        exact keeps.restart s ends
      · simp only [if_neg full]
        exact ⟨fun r same => by cases same; exact ends, fun r nmsg same => by cases same⟩
  | stop q s =>
    rw [out] at ends
    simp only [conclude]
    have done := keeps.complete s (if P.keepToken then s.token else none) ends
    obtain ⟨r', next, parsed, scan, rest⟩ := msgParsed_scan P
      { s with
        state := P.start, token := if P.keepToken then s.token else none, pos := q + 1,
        mhdr := m.mhdr, mlen := m.mlen, result := .ok }
    rw [parsed]
    refine ⟨fun r same => (by cases same), fun r nmsg same => ?_⟩
    cases same
    refine ⟨scan ▸ done, fun n member => ?_⟩
    rw [rest n member]
    exact keeps.start
  | fail =>
    simp only [conclude]
    exact ⟨fun r same => (by cases same), fun r nmsg same => (by cases same)⟩

theorem parseLoop {conn : Receiver σ} {fuel : Nat} (here : conn.Keeps during atEnd) {m : Msg σ}
    (under : during m.toScan) :
    (conn.parseLoop (msgParse P dataSize) fuel m).Keeps during atEnd := by
  induction fuel generalizing conn m with
  | zero => exact ⟨here.completed, by simpa [Receiver.parseLoop] using under⟩
  | succ fuel ih =>
    have parsed := keeps.msgParseBytes dataSize under
    rw [Receiver.parseLoop]
    cases out : msgParse P dataSize m with
    | filtered => exact ⟨here.completed, by simp⟩
    | failed => exact ⟨here.completed, by simp⟩
    | pending r =>
      unfold msgParse at out
      split at out
      · cases out
      · exact ⟨here.completed, by simpa using parsed.1 r out⟩
    | completed r nmsg =>
      have ⟨done, next⟩ : atEnd r.toScan ∧ ∀ n ∈ nmsg, during n.toScan := by
        unfold msgParse at out
        split at out
        · cases out
        · exact parsed.2 r nmsg out
      have handed := here.recvDone done next
      cases nmsg with
      | none => exact handed
      | some n =>
        dsimp only
        split
        · exact ih handed (next n rfl)
        · exact handed

theorem msgRecv {conn : Receiver σ} {fuel : Nat} {avail : Bytes}
    (here : conn.Keeps during atEnd) :
    (conn.msgRecv (msgParse P dataSize) P dataSize fuel avail).Keeps during atEnd := by
  induction fuel generalizing conn avail with
  | zero => exact here
  | succ fuel ih =>
    have current : during (conn.current P dataSize).toScan := by
      have under : during (conn.rmsg.getD (.fresh P)).toScan := by
        cases rmsg : conn.rmsg with
        | none => exact keeps.start
        | some m => exact here.rmsg m rmsg
      unfold Receiver.current Msg.prepare
      split <;> exact under
    have chain : ∀ x, (conn.msgRecvChain (msgParse P dataSize) P dataSize x).Keeps during atEnd :=
      fun x => keeps.parseLoop here current
    unfold Receiver.msgRecv
    split
    · dsimp only
      split
      · exact ⟨here.completed, by simpa using current⟩
      · split
        · exact chain _
        · exact ih (chain _)
    · exact here

/-- Every message the driver completes has the property. -/
theorem receive (reads : List Bytes) :
    (({} : Receiver σ).receive (Nutcracker.msgParse P dataSize) P dataSize reads).Keeps
      during atEnd := by
  have start : ({} : Receiver σ).Keeps during atEnd := ⟨by simp, by simp⟩
  generalize ({} : Receiver σ) = conn at start
  induction reads generalizing conn with
  | nil => exact start
  | cons avail reads ih => exact ih _ (keeps.msgRecv start)

end Parser.Keeps

end Nutcracker
