import Nutcracker.Memcache.Request
import Nutcracker.Memcache.Response

/-!
# The loops of the memcache parsers

Progress and suspension.  A byte is handed on at most three times in a row; where
a state hands on only some bytes, its rank depends on the byte.
-/

namespace Nutcracker

open Lib

section Request

open McReqState

/-- How often the byte under the cursor may still be handed on. -/
def mcReqRank (b : Bytes) (r : Scan McReqState) (p : Nat) : Nat :=
  match r.state with
  | swSpacesBeforeKey => 2
  | swKey => if b.getD p 0 = CR then 1 else 0
  | swSpacesBeforeKeys => if b.getD p 0 = CR then 0 else 1
  | swReqType | swVlen | swCas | swNum | swNoreply => 1
  | _ => 0

theorem memcacheParseReqStep_productive (i : Nat) (b : Bytes) :
    Productive (memcacheParseReqStep i b) b.length (fun _ _ => True) (mcReqRank b) 3 where
  rank_le r p := by
    unfold mcReqRank
    split <;> first | decide | split <;> decide
  advances := by
    intro r p q s _ inside stepEq
    refine ⟨trivial, ?_⟩
    unfold memcacheParseReqStep at stepEq
    cases state : r.state
    case swVal =>
      simp only [state] at stepEq
      obtain ⟨bound, forward⟩ := passOver_next inside stepEq
      exact ⟨bound, .inl forward⟩
    all_goals
      simp only [state, mcReqStart, mcReqType, mcSpacesBeforeKey, mcKey, mcSpacesBeforeKeys,
        mcBeforeNumber, mcNumber, mcLastNumber, mcSpacesBeforeVlen, mcVlen, mcRuntoVal, mcLineEnd,
        mcRuntoCrlf, mcNoreply, mcAfterNoreply, mcCrlf, mcAlmostDone] at stepEq
      grind [mcReqRank, mcAfterKey]

theorem isNoreply_append {x y : Bytes} {r : Scan McReqState} {p : Nat} (inside : p < x.length) :
    isNoreply (x ++ y) r p = isNoreply x r p := by
  unfold isNoreply
  cases r.token with
  | none => rfl
  | some m =>
    by_cases seven : p - m = 7
    · simp only [Option.any_some]
      rw [List.drop_append_of_le_length (by omega), strcmp_append]
      change 7 ≤ _
      rw [List.length_drop]
      omega
    · simp [seven]

/-- A request parser that ran into the end of an mbuf goes on, when the mbuf has
grown, as if it had been given all the bytes at once. -/
theorem memcacheParseReqStep_resumable (i : Nat) : Resumable (memcacheParseReqStep i) := by
  intro x y r p inside _
  have sameByte : (x ++ y).getD p 0 = x.getD p 0 := List.getD_append _ _ _ _ inside
  cases state : r.state
  case swVal =>
    refine suspends_of_skips (fun b s q sameState => ?_) (skipVlen_resumable swAlmostDone inside)
    simp only [memcacheParseReqStep, sameState, state]
  case swReqType =>
    left
    simp only [memcacheParseReqStep, state, sameByte, mcReqType,
      memcacheWord_append memcacheCommandsOf_short inside]
  case swNoreply =>
    left
    simp only [memcacheParseReqStep, state, sameByte, mcNoreply, isNoreply_append inside]
  all_goals
    left
    simp only [memcacheParseReqStep, state, sameByte]

theorem memcacheParseReqStep_stops_here {i : Nat} {b : Bytes} {r s : Scan McReqState} {p q : Nat}
    (stepEq : memcacheParseReqStep i b r p = .stop q s) : q = p := by
  unfold memcacheParseReqStep at stepEq
  cases state : r.state
  all_goals
    simp only [state, mcReqStart, mcReqType, mcSpacesBeforeKey, mcKey, mcSpacesBeforeKeys,
      mcBeforeNumber, mcNumber, mcLastNumber, mcSpacesBeforeVlen, mcVlen, mcRuntoVal, mcLineEnd,
      mcRuntoCrlf, mcNoreply, mcAfterNoreply, mcCrlf, mcAlmostDone, skipVlen, passOver] at stepEq
    grind

def memcacheReqLawful (dataSize : Nat) : memcacheReqParser.Lawful dataSize where
  Good _ _ := True
  rank := mcReqRank
  productive := memcacheParseReqStep_productive
  resumable := memcacheParseReqStep_resumable
  stops_here := memcacheParseReqStep_stops_here
  good_of_none _ := trivial

end Request

section Response

open McRspState

/-- How often the byte under the cursor may still be handed on. -/
def mcRspRank (r : Scan McRspState) : Nat :=
  match r.state with
  | swStart => 3
  | swRspNum | swRspStr | swSpacesBeforeVlen => 2
  | swSpacesBeforeKey | swSpacesBeforeFlags | swVlen => 1
  | _ => 0

theorem mcAfterWord_some {type : MsgType} {after : McRspState}
    (word : mcAfterWord type = some after) :
    after = swCrlf ∨ after = swSpacesBeforeKey ∨ after = swRuntoCrlf := by
  unfold mcAfterWord at word
  split at word <;> simp_all

theorem memcacheParseRspStep_productive (i : Nat) (b : Bytes) :
    Productive (memcacheParseRspStep i b) b.length (fun _ _ => True) (fun r _ => mcRspRank r)
      3 where
  rank_le r _ := by
    unfold mcRspRank
    split <;> decide
  advances := by
    intro r p q s _ inside stepEq
    refine ⟨trivial, ?_⟩
    unfold memcacheParseRspStep at stepEq
    cases state : r.state
    case swVal =>
      simp only [state] at stepEq
      obtain ⟨bound, forward⟩ := passOver_next inside stepEq
      exact ⟨bound, .inl forward⟩
    all_goals
      simp only [state, mcRspStart, mcRspNum, mcRspStr, mcRspSpacesBeforeKey, mcRspKey,
        mcRspSpacesBeforeFlags, mcRspFlags, mcRspSpacesBeforeVlen, mcRspVlen, mcRspRuntoVal,
        mcRspValLf, mcRspEnd, mcRspRuntoCrlf, mcRspCrlf, mcRspAlmostDone] at stepEq
      grind [mcRspRank, mcAfterWord_some]

theorem mcRspEnd_append {i : Nat} {x y : Bytes} {ch : UInt8} {r : Scan McRspState} {p : Nat}
    (inside : p < x.length) : mcRspEnd i (x ++ y) ch r p = mcRspEnd i x ch r p := by
  unfold mcRspEnd
  cases r.token with
  | none => rfl
  | some m =>
    by_cases three : p - m = 3
    · simp only
      rw [List.drop_append_of_le_length (by omega), strcmp_append]
      change 4 ≤ _
      rw [List.length_drop]
      omega
    · simp [three]

/-- The same for the response parser. -/
theorem memcacheParseRspStep_resumable (i : Nat) : Resumable (memcacheParseRspStep i) := by
  intro x y r p inside _
  have sameByte : (x ++ y).getD p 0 = x.getD p 0 := List.getD_append _ _ _ _ inside
  cases state : r.state
  case swVal =>
    refine suspends_of_skips (fun b s q sameState => ?_) (skipVlen_resumable swValLf inside)
    simp only [memcacheParseRspStep, sameState, state]
  case swRspStr =>
    left
    simp only [memcacheParseRspStep, state, sameByte, mcRspStr,
      memcacheWord_append memcacheRepliesOf_short inside]
  case swEnd =>
    left
    simp only [memcacheParseRspStep, state, sameByte, mcRspEnd_append inside]
  all_goals
    left
    simp only [memcacheParseRspStep, state, sameByte]

theorem memcacheParseRspStep_stops_here {i : Nat} {b : Bytes} {r s : Scan McRspState} {p q : Nat}
    (stepEq : memcacheParseRspStep i b r p = .stop q s) : q = p := by
  unfold memcacheParseRspStep at stepEq
  cases state : r.state
  all_goals
    simp only [state, mcRspStart, mcRspNum, mcRspStr, mcRspSpacesBeforeKey, mcRspKey,
      mcRspSpacesBeforeFlags, mcRspFlags, mcRspSpacesBeforeVlen, mcRspVlen, mcRspRuntoVal,
      mcRspValLf, mcRspEnd, mcRspRuntoCrlf, mcRspCrlf, mcRspAlmostDone, skipVlen,
      passOver] at stepEq
    grind

def memcacheRspLawful (dataSize : Nat) : memcacheRspParser.Lawful dataSize where
  Good _ _ := True
  rank _ r _ := mcRspRank r
  productive := memcacheParseRspStep_productive
  resumable := memcacheParseRspStep_resumable
  stops_here := memcacheParseRspStep_stops_here
  good_of_none _ := trivial

end Response

end Nutcracker
