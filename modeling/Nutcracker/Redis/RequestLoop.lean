import Nutcracker.Redis.Request

/-!
# The loop of the redis request parser

Two facts about one iteration.  It makes progress, which bounds the fuel; for
this the token marker has to stand where the state expects it.  And it can be
suspended at the end of an mbuf: what it does when more bytes have arrived is
what it would have done had they been there.
-/

namespace Nutcracker

open Lib ReqState

/-! ## Progress -/

/-- Where a token may stand, given the state and the cursor. -/
def TokenAt (r : Scan ReqState) (p t : Nat) : Prop :=
  t ≤ p ∧
    match r.state with
    | .narg | .len _ => t < p
    | .body .reqType | .body .key => p ≤ t + r.rlen
    | .body .arg2 => redisArgeval r.type = true
    | _ => False

/-- The token marker is set only in the states that read a token. -/
def TokenOk (r : Scan ReqState) (p : Nat) : Prop :=
  ∀ t, r.token = some t → TokenAt r p t

theorem TokenOk.of_none {r : Scan ReqState} {p : Nat} (token : r.token = none) : TokenOk r p := by
  intro t marked
  rw [token] at marked
  cases marked

theorem TokenOk.eq_none {r : Scan ReqState} {p : Nat} (good : TokenOk r p)
    (never : ∀ t, ¬ TokenAt r p t) : r.token = none := by
  cases token : r.token with
  | none => rfl
  | some t => exact absurd (good t token) (never t)

section Bodies

variable {i : Nat} {b : Bytes} {r s : Scan ReqState} {p q : Nat} {slot : ArgSlot}

/-- The bytes of an argument are passed over, or the cursor goes to the end of the mbuf. -/
theorem slotBody_next (good : TokenOk r p) (state : r.state = .body slot) (inside : p < b.length)
    (stepEq : slotBody i b slot r p = .next q s) : TokenOk s q ∧ q ≤ b.length ∧ p < q := by
  have skip : ∀ after, r.token = none → skipRlen after b r p = .next q s →
      TokenOk s q ∧ q ≤ b.length ∧ p < q := by
    intro after token stepEq
    obtain ⟨bound, forward⟩ := passOver_next inside stepEq
    refine ⟨.of_none ?_, bound, forward⟩
    simp only [skipRlen, passOver] at stepEq
    grind
  have tokened : slot = .reqType ∨ slot = .key →
      r.token.getD p ≤ p ∧ p ≤ r.token.getD p + r.rlen := by
    intro which
    cases token : r.token with
    | none => simp
    | some t =>
      obtain ⟨before, after⟩ := good t token
      rcases which with rfl | rfl
      · simpa [state, before] using after
      · simpa [state, before] using after
  have untokened : slot = .arg1 ∨ slot = .arg3 ∨ slot = .argn → r.token = none := by
    intro which
    cases token : r.token with
    | none => rfl
    | some t =>
      have := (good t token).2
      rcases which with rfl | rfl | rfl <;> simp [state] at this
  cases slot with
  | reqType =>
    obtain ⟨before, after⟩ := tokened (.inl rfl)
    simp only [slotBody, reqTypeBody] at stepEq
    split at stepEq
    · cases stepEq
      refine ⟨?_, Nat.le_refl _, inside⟩
      intro t marked
      cases marked
      exact ⟨by omega, by simpa [state] using ‹_›⟩
    · split at stepEq
      · split at stepEq
        · cases stepEq
        · cases stepEq
          exact ⟨.of_none rfl, by omega, by omega⟩
      · cases stepEq
  | key =>
    obtain ⟨before, after⟩ := tokened (.inr rfl)
    simp only [slotBody, keyBody] at stepEq
    split at stepEq
    · cases stepEq
      refine ⟨?_, Nat.le_refl _, inside⟩
      intro t marked
      cases marked
      exact ⟨by omega, by simpa [state] using ‹_›⟩
    · split at stepEq
      · cases stepEq
        exact ⟨.of_none rfl, by omega, by omega⟩
      · cases stepEq
  | arg1 => exact skip _ (untokened (.inl rfl)) stepEq
  | arg3 => exact skip _ (untokened (.inr (.inl rfl))) stepEq
  | argn => exact skip _ (untokened (.inr (.inr rfl))) stepEq
  | arg2 =>
    have marker : ∀ t,
        arg2Token r p = some t → t ≤ p ∧ redisArgeval r.type = true := by
      intro t marked
      unfold arg2Token at marked
      split at marked
      · cases marked
        exact ⟨Nat.le_refl _, (‹_ ∧ _›).2⟩
      · obtain ⟨before, evals⟩ := good t marked
        exact ⟨before, by simpa [state] using evals⟩
    simp only [slotBody, arg2Body] at stepEq
    split at stepEq
    · cases stepEq
      refine ⟨?_, Nat.le_refl _, inside⟩
      intro t marked
      obtain ⟨before, evals⟩ := marker t marked
      exact ⟨by omega, by simpa [state] using evals⟩
    · split at stepEq
      · split at stepEq
        · split at stepEq
          · cases stepEq
          · cases stepEq
            exact ⟨.of_none rfl, by omega, by omega⟩
        · cases stepEq
          refine ⟨?_, by omega, by omega⟩
          intro t marked
          exact absurd (marker t marked).2 ‹_›
      · cases stepEq
end Bodies

theorem redisParseReqStep_productive (dataSize i : Nat) (b : Bytes) :
    Productive (redisParseReqStep dataSize i b) b.length TokenOk (fun _ _ => 0) 3 where
  rank_le _ _ := Nat.zero_le _
  advances := by
    intro r p q s good inside stepEq
    have oneByte : q = p + 1 → TokenOk s q →
        TokenOk s q ∧ q ≤ b.length ∧ (p < q ∨ p = q ∧ 0 < 0) := by
      rintro rfl good'
      exact ⟨good', inside, .inl (Nat.lt_succ_self p)⟩
    have count : countLine i (b.getD p 0) r p = .next q s → r.state = .start ∨ r.state = .narg →
        TokenOk s q ∧ q ≤ b.length ∧ (p < q ∨ p = q ∧ 0 < 0) := by
      intro stepEq state
      obtain ⟨rfl, moved⟩ := countLine_next stepEq
      refine oneByte rfl ?_
      rcases moved with ⟨_, _, rfl⟩ | ⟨t, token, _, rfl⟩ | ⟨_, _, _, _, _, rfl⟩
      · intro t marked
        cases marked
        simp [TokenAt]
      · intro t' marked
        have := good t' marked
        rcases state with state | state
        · simp [TokenAt, state] at this
        · simp only [TokenAt, state] at this ⊢
          omega
      · exact .of_none rfl
    cases state : r.state with
    | start =>
      rw [step_count (.inl state)] at stepEq
      exact count stepEq (.inl state)
    | narg =>
      rw [step_count (.inr state)] at stepEq
      exact count stepEq (.inr state)
    | nargLf =>
      rw [step_nargLf state] at stepEq
      obtain ⟨rfl, _, rfl⟩ := lineFeed_next stepEq
      exact oneByte rfl (.of_none (good.eq_none (by simp [TokenAt, state])))
    | len slot =>
      rw [step_len state] at stepEq
      obtain ⟨rfl, moved⟩ := lenLine_next stepEq
      refine oneByte rfl ?_
      rcases moved with ⟨_, _, rfl⟩ | ⟨t, token, _, rfl⟩ | ⟨_, _, _, _, _, _, rfl⟩
      · intro t marked
        cases marked
        simp [TokenAt, state]
      · intro t' marked
        have := good t' marked
        simp only [TokenAt, state] at this ⊢
        omega
      · exact .of_none rfl
    | lenLf slot =>
      rw [step_lenLf state] at stepEq
      obtain ⟨rfl, _, rfl⟩ := lineFeed_next stepEq
      exact oneByte rfl (.of_none (good.eq_none (by simp [TokenAt, state])))
    | body slot =>
      rw [step_body state] at stepEq
      obtain ⟨good', bound, forward⟩ := slotBody_next good state inside stepEq
      exact ⟨good', bound, .inl forward⟩
    | bodyLf slot =>
      rw [step_bodyLf state] at stepEq
      obtain ⟨rfl, _, _, _, rfl⟩ := routed_next stepEq
      exact oneByte rfl (.of_none (good.eq_none (by simp [TokenAt, state])))

/-- A token was there before in the same state, or starts at the byte that is passed. -/
theorem redisParseReqStep_token {dataSize i : Nat} {b : Bytes} {r s : Scan ReqState} {p q t : Nat}
    (good : TokenOk r p) (inside : p < b.length)
    (stepEq : redisParseReqStep dataSize i b r p = .next q s) (token : s.token = some t) :
    r.token = some t ∧ s.state = r.state ∨ t = p ∧ p < q := by
  obtain ⟨good', -, moved⟩ :=
    (redisParseReqStep_productive dataSize i b).advances good inside stepEq
  have forward : p < q := by omega
  have at_ := (good' t token).2
  cases state : r.state with
  | start | narg =>
    rw [step_count (by simp [state])] at stepEq
    obtain ⟨-, ⟨_, _, rfl⟩ | ⟨_, _, _, rfl⟩ | ⟨_, _, _, _, _, rfl⟩⟩ := countLine_next stepEq
    · exact Or.inr ⟨(Option.some.inj token).symm, forward⟩
    · exact Or.inl ⟨token, state⟩
    · cases token
  | nargLf =>
    rw [step_nargLf state] at stepEq
    obtain ⟨-, -, rfl⟩ := lineFeed_next stepEq
    have := (good t token).2
    simp [state] at this
  | len slot =>
    rw [step_len state] at stepEq
    obtain ⟨-, ⟨_, _, rfl⟩ | ⟨_, _, _, rfl⟩ | ⟨_, _, _, _, _, _, rfl⟩⟩ := lenLine_next stepEq
    · exact Or.inr ⟨(Option.some.inj token).symm, forward⟩
    · exact Or.inl ⟨token, state⟩
    · cases token
  | lenLf slot =>
    rw [step_lenLf state] at stepEq
    obtain ⟨-, -, rfl⟩ := lineFeed_next stepEq
    have := (good t token).2
    simp [state] at this
  | bodyLf slot =>
    rw [step_bodyLf state] at stepEq
    obtain ⟨-, -, _, _, rfl⟩ := routed_next stepEq
    have := (good t token).2
    simp [state] at this
  | body slot =>
    rw [step_body state] at stepEq
    cases slot <;>
      simp only [slotBody, reqTypeBody, keyBody, arg2Body, skipRlen, passOver, arg2Token]
        at stepEq
    all_goals cases marked : r.token <;> simp only [marked] at stepEq <;> grind

/-! ## Suspension -/

section Suspension

variable {i : Nat} {x y : Bytes} {r : Scan ReqState} {p : Nat}

private theorem not_append_length_le {x y : Bytes} {m : Nat} (inside : ¬ x.length ≤ m) :
    ¬ (x ++ y).length ≤ m := by
  simp only [List.length_append]
  omega

theorem reqTypeBody_resumable :
    reqTypeBody x r p = reqTypeBody (x ++ y) r p ∨
      ∃ s, s.state = r.state ∧ reqTypeBody x r p = .next x.length s ∧
        reqTypeBody (x ++ y) s x.length = reqTypeBody (x ++ y) r p := by
  by_cases short : x.length ≤ r.token.getD p + r.rlen
  · right
    refine ⟨{ r with token := some (r.token.getD p) }, rfl, by simp [reqTypeBody, short], ?_⟩
    simp only [reqTypeBody, Option.getD_some]
  · left
    simp only [reqTypeBody, short, not_append_length_le short, if_false]
    rw [List.getD_append _ _ _ _ (by omega), List.drop_append_of_le_length (by omega),
      redisCommand_append (by simp only [List.length_drop]; omega)]

theorem keyBody_resumable :
    keyBody i x r p = keyBody i (x ++ y) r p ∨
      ∃ s, s.state = r.state ∧ keyBody i x r p = .next x.length s ∧
        keyBody i (x ++ y) s x.length = keyBody i (x ++ y) r p := by
  by_cases short : x.length ≤ r.token.getD p + r.rlen
  · right
    refine ⟨{ r with token := some (r.token.getD p) }, rfl, by simp [keyBody, short], ?_⟩
    simp only [keyBody, Option.getD_some]
  · left
    simp only [keyBody, short, not_append_length_le short, if_false]
    rw [List.getD_append _ _ _ _ (by omega)]

private theorem arg2Token_again (r : Scan ReqState) (p q n : Nat) :
    arg2Token { r with token := arg2Token r p, rlen := n } q = arg2Token r p := by
  by_cases evals : redisArgeval r.type = true
  · cases token : r.token <;> simp [arg2Token, evals, token]
  · simp [arg2Token, evals]

private theorem window_append {t m : Nat} (inside : m ≤ x.length) :
    ((x ++ y).drop t).take (m - t) = (x.drop t).take (m - t) := by
  by_cases before : t ≤ m
  · rw [List.drop_append_of_le_length (by omega),
      List.take_append_of_le_length (by simp only [List.length_drop]; omega)]
  · simp [show m - t = 0 by omega]

theorem arg2Body_resumable (inside : p < x.length) :
    arg2Body x r p = arg2Body (x ++ y) r p ∨
      ∃ s, s.state = r.state ∧ arg2Body x r p = .next x.length s ∧
        arg2Body (x ++ y) s x.length = arg2Body (x ++ y) r p := by
  by_cases short : x.length ≤ p + r.rlen
  · right
    refine ⟨{ r with token := arg2Token r p, rlen := r.rlen - (x.length - p) }, rfl,
      by simp [arg2Body, short], ?_⟩
    simp only [arg2Body, List.length_append, arg2Token_again]
    rw [show x.length + (r.rlen - (x.length - p)) = p + r.rlen by omega]
    rw [show r.rlen - (x.length - p) - (x.length + y.length - x.length) =
      r.rlen - (x.length + y.length - p) by omega]
    by_cases evals : redisArgeval r.type = true
    · -- the marker is set now, so the default for a missing one does not matter
      obtain ⟨t, token⟩ : ∃ t, arg2Token r p = some t := by
        cases token : r.token <;> simp [arg2Token, evals, token]
      simp only [token, Option.getD_some]
    · simp only [evals, Bool.false_eq_true, if_false]
  · left
    simp only [arg2Body, short, not_append_length_le short, if_false]
    rw [List.getD_append _ _ _ _ (by omega), window_append (by omega)]

theorem slotBody_resumable (slot : ArgSlot) (inside : p < x.length) :
    slotBody i x slot r p = slotBody i (x ++ y) slot r p ∨
      ∃ s, s.state = r.state ∧ slotBody i x slot r p = .next x.length s ∧
        slotBody i (x ++ y) slot s x.length = slotBody i (x ++ y) slot r p := by
  cases slot with
  | reqType => exact reqTypeBody_resumable
  | key => exact keyBody_resumable
  | arg1 => exact skipRlen_resumable _ inside
  | arg2 => exact arg2Body_resumable inside
  | arg3 => exact skipRlen_resumable _ inside
  | argn => exact skipRlen_resumable _ inside

end Suspension

/-- A request parser that ran into the end of an mbuf goes on, when the mbuf has
grown, as if it had been given all the bytes at once. -/
theorem redisParseReqStep_resumable (dataSize i : Nat) :
    Resumable (redisParseReqStep dataSize i) := by
  intro x y r p inside _
  have sameByte : (x ++ y).getD p 0 = x.getD p 0 := List.getD_append _ _ _ _ inside
  cases state : r.state with
  | start => exact .inl (by rw [step_count (.inl state), step_count (.inl state), sameByte])
  | narg => exact .inl (by rw [step_count (.inr state), step_count (.inr state), sameByte])
  | nargLf => exact .inl (by rw [step_nargLf state, step_nargLf state, sameByte])
  | len slot => exact .inl (by rw [step_len state, step_len state, sameByte])
  | lenLf slot => exact .inl (by rw [step_lenLf state, step_lenLf state, sameByte])
  | body slot =>
    rw [step_body state, step_body state]
    rcases slotBody_resumable (i := i) slot inside with same | ⟨s, sameState, suspended, again⟩
    · exact .inl same
    · refine .inr ⟨s, suspended, ?_⟩
      rw [step_body (sameState.trans state), again]
  | bodyLf slot => exact .inl (by rw [step_bodyLf state, step_bodyLf state, sameByte])

/-- A request ends at the line feed behind its last argument. -/
theorem redisParseReqStep_stop {dataSize i : Nat} {b : Bytes} {r s : Scan ReqState}
    {p q : Nat} (stepEq : redisParseReqStep dataSize i b r p = .stop q s) :
    q = p ∧ s = r ∧ ∃ slot, r.state = .bodyLf slot ∧
      afterSlot r.type r.narg r.rnarg slot = .done := by
  cases state : r.state with
  | start | narg =>
    rw [step_count (by simp [state]), countLine] at stepEq
    grind
  | nargLf =>
    rw [step_nargLf state, lineFeed] at stepEq
    grind
  | len slot =>
    rw [step_len state, lenLine] at stepEq
    grind
  | lenLf slot =>
    rw [step_lenLf state, lineFeed] at stepEq
    grind
  | body slot =>
    rw [step_body state] at stepEq
    cases slot <;>
      simp only [slotBody, reqTypeBody, keyBody, arg2Body, skipRlen, passOver] at stepEq <;>
      grind
  | bodyLf slot =>
    rw [step_bodyLf state] at stepEq
    unfold routed at stepEq
    grind

end Nutcracker
