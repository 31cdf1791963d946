import Nutcracker.Redis.Response

/-!
# The loop of the redis response parser

Progress and suspension of one iteration.  A byte that is read again in another
state is read again at most once, because the state it is read again in consumes
it.
-/

namespace Nutcracker

open Lib RspState

/-- The states that may hand their byte on to another state. -/
def rspRank (r : Scan RspState) : Nat :=
  match r.state with
  | swStart | swMultibulkArgnLen => 1
  | _ => 0

theorem redisParseRspStep_productive (i : Nat) (b : Bytes) :
    Productive (redisParseRspStep i b) b.length (fun _ _ => True) (fun r _ => rspRank r) 3 where
  rank_le r _ := by
    unfold rspRank
    split <;> decide
  advances := by
    intro r p q s _ inside stepEq
    refine ⟨trivial, ?_⟩
    unfold redisParseRspStep at stepEq
    cases state : r.state
    case swBulkArg | swMultibulkArgn =>
      simp only [state] at stepEq
      obtain ⟨bound, forward⟩ := passOver_next inside stepEq
      exact ⟨bound, .inl forward⟩
    all_goals
      simp only [state, rspStart, rspError, rspInteger, rspSimple, rspRuntoCrlf, rspBulk,
        rspMultibulk, rspArgnLen, rspLineFeed, rspDone, rspElementLf] at stepEq
      grind [rspRank]

/-! ## Suspension -/

section Suspension

variable {x y : Bytes} {r : Scan RspState} {p : Nat}

theorem redisErrorsOf_length (len : Nat) :
    ∀ entry ∈ redisErrorsOf len, entry.1.length = len := by
  unfold redisErrorsOf
  split
  case h_8 => simp
  all_goals decide

theorem redisErrorType_append (type : MsgType) {m : Bytes} {len : Nat} (fits : len ≤ m.length)
    (rest : Bytes) : redisErrorType type (m ++ rest) len = redisErrorType type m len := by
  unfold redisErrorType
  rw [lookupWith_strcmp_append]
  intro entry member
  rwa [redisErrorsOf_length len entry member]

theorem redisErrorType_zero (type : MsgType) (m : Bytes) : redisErrorType type m 0 = type :=
  rfl

theorem rspError_append (ch : UInt8) (inside : p < x.length) :
    rspError (x ++ y) ch r p = rspError x ch r p := by
  simp only [rspError]
  by_cases before : r.token.getD p ≤ p
  · rw [List.drop_append_of_le_length (by omega),
      redisErrorType_append _ (by simp only [List.length_drop]; omega)]
  · rw [show p - r.token.getD p = 0 by omega, redisErrorType_zero, redisErrorType_zero]

end Suspension

/-- A response parser that ran into the end of an mbuf goes on, when the mbuf has
grown, as if it had been given all the bytes at once. -/
theorem redisParseRspStep_resumable (i : Nat) : Resumable (redisParseRspStep i) := by
  intro x y r p inside _
  have sameByte : (x ++ y).getD p 0 = x.getD p 0 := List.getD_append _ _ _ _ inside
  cases state : r.state
  case swBulkArg =>
    refine suspends_of_skips (fun b s q sameState => ?_) (skipRlen_resumable swBulkArgLf inside)
    simp only [redisParseRspStep, sameState, state]
  case swMultibulkArgn =>
    refine suspends_of_skips (fun b s q sameState => ?_)
      (skipRlen_resumable swMultibulkArgnLf inside)
    simp only [redisParseRspStep, sameState, state]
  case swError =>
    left
    simp only [redisParseRspStep, state, sameByte, rspError_append _ inside]
  all_goals
    left
    simp only [redisParseRspStep, state, sameByte]

theorem redisParseRspStep_stops_here {i : Nat} {b : Bytes} {r s : Scan RspState} {p q : Nat}
    (stepEq : redisParseRspStep i b r p = .stop q s) : q = p := by
  unfold redisParseRspStep at stepEq
  cases state : r.state
  all_goals
    simp only [state, rspStart, rspError, rspInteger, rspSimple, rspRuntoCrlf, rspBulk,
      rspMultibulk, rspArgnLen, rspLineFeed, rspDone, rspElementLf, skipRlen, passOver] at stepEq
    grind

def redisRspLawful (dataSize : Nat) : redisRspParser.Lawful dataSize where
  Good _ _ := True
  rank _ r _ := rspRank r
  productive := redisParseRspStep_productive
  resumable := redisParseRspStep_resumable
  stops_here := redisParseRspStep_stops_here
  good_of_none _ := trivial

end Nutcracker
