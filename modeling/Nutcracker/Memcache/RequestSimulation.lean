import Nutcracker.Memcache.Reader
import Nutcracker.Message.Placement

/-!
# The memcache request parser implements the reader

What the parser has read is determined by its record, once positions are replaced by the
bytes they mark.
-/

namespace Nutcracker

open Lib MsgType McReqState McReading

/-- What the parser has read when it stands at offset `p` of the last mbuf `b` of a chain. -/
def McReading.ofScan (chain : List Bytes) (b : Bytes) (r : Scan McReqState) (p : Nat) :
    McReading where
  state := r.state
  token := r.token.map (textAt b p)
  type := r.type
  keys := r.keys.map (KeyPos.bytesIn chain)
  vlen := r.vlen
  quit := r.quit
  noreply := r.noreply

/-- The states in which the token marker may be set. -/
def McReqState.holdsToken : McReqState → Bool
  | swReqType | swKey | swFlags | swExpiry | swCas | swNum | swNoreply => true
  | _ => false

/-- The parser, at offset `p` of the last mbuf `b` of a chain, has read what `s` says. -/
structure McFollows (chain : List Bytes) (b : Bytes) (r : Scan McReqState) (p : Nat)
    (s : McReading) : Prop where
  inside : p ≤ b.length
  token : ∀ t, r.token = some t → t < p ∧ r.state.holdsToken = true
  reading : s = .ofScan chain b r p

/-- What is left of a finished request. -/
structure McFinished (chain : List Bytes) (r : Scan McReqState) (s : McReading) : Prop where
  type : r.type = s.type
  keys : r.keys.map (KeyPos.bytesIn chain) = s.keys
  quit : r.quit = s.quit
  noreply : r.noreply = s.noreply

section OneIteration

variable {front : List Bytes} {b : Bytes} {r : Scan McReqState} {p : Nat}

theorem tokenStart_le (before : ∀ t, r.token = some t → t < p ∧ r.state.holdsToken = true) :
    r.token.getD p ≤ p := by
  cases marker : r.token with
  | none => exact Nat.le_refl p
  | some t => exact (before t marker).1.le

/-- The result of an iteration on the byte at `p`, as the machine sees it: the byte is
consumed, or it is handed on and read by the next iteration. -/
def McReading.seen (chain : List Bytes) (b : Bytes) (p : Nat) (ch : UInt8) :
    Flow (Scan McReqState) → Verdict McReading
  | .next q r => if q = p then (ofScan chain b r q).feed ch else .more (ofScan chain b r q)
  | .stop q r => .done (ofScan chain b r (q + 1))
  | .fail => .fail

/-- An iteration that hands on the byte at `p` or consumes it, and sets the token marker
nowhere else. -/
def McReadsOne (r : Scan McReqState) (p : Nat) : Flow (Scan McReqState) → Prop
  | .next q r' => (q = p ∨ q = p + 1) ∧ (r'.token = r.token ∨ r'.token = none ∨
      q = p + 1 ∧ r'.token = some p) ∧ (r'.token ≠ none → r'.state.holdsToken = true)
  | .stop q _ => q = p
  | .fail => True

theorem mcTracks_of_seen {chain : List Bytes} {flow : Flow (Scan McReqState)}
    (inside : p < b.length)
    (before : ∀ t, r.token = some t → t < p ∧ r.state.holdsToken = true)
    (fed : (ofScan chain b r p).feed (b.getD p 0) =
      seen chain b p (b.getD p 0) flow)
    (one : McReadsOne r p flow) :
    Tracks feed b (McFollows chain b) (McFinished chain) (.ofScan chain b r p) p flow := by
  have here := drop_eq_cons inside
  cases flow with
  | next q r' =>
    obtain ⟨position, marker, holds⟩ := one
    have marked : ∀ t, r'.token = some t → t < q ∧ r'.state.holdsToken = true := by
      intro t held
      refine ⟨?_, holds (by simp [held])⟩
      rcases marker with same | gone | ⟨rfl, start⟩
      · have := (before t (same ▸ held)).1
        omega
      · rw [gone] at held
        cases held
      · rw [start] at held
        cases held
        exact Nat.lt_succ_self p
    rcases position with rfl | rfl
    · refine ⟨_, ⟨inside.le, marked, rfl⟩, ?_⟩
      rw [here]
      exact run_cons_congr (by simpa [seen] using fed)
    · refine Tracks.more here ?_ ⟨inside, marked, rfl⟩
      simpa [seen] using fed
  | stop q r' =>
    obtain rfl : q = p := one
    exact Tracks.done inside here fed ⟨rfl, rfl, rfl, rfl⟩
  | fail => exact Tracks.failed here fed

/-- The command is looked up in the mbuf, where other bytes follow it. -/
theorem memcacheWord_eq {m : Nat} (before : m ≤ p) (inside : p < b.length) :
    memcacheWord memcacheCommandsOf b m p = memcacheCommand (textAt b p m) (b.getD p 0) := by
  have length := length_textAt (t := m) inside.le
  have split : b.drop m = textAt b p m ++ [b.getD p 0] ++ b.drop (p + 1) := by
    rw [drop_eq_textAt_append before inside.le, drop_eq_cons inside, List.append_assoc,
      List.singleton_append]
  rw [memcacheWord, memcacheCommand, length, split, lookupWith_strcmp_append]
  intro entry member
  have := memcacheCommandsOf_short.2 _ entry member
  rw [List.length_append, length, List.length_singleton]
  exact this

theorem strcmp_noreply_iff {text rest : Bytes} (length : text.length = 7) :
    strcmp (text ++ rest) "noreply".toList = true ↔ text = noreplyWord := by
  rw [strcmp_eq_true_iff, List.prefix_iff_eq_take]
  change noreplyWord = (text ++ rest).take 7 ↔ _
  rw [List.take_left' length, eq_comm]

theorem isNoreply_iff (inside : p < b.length)
    (before : ∀ t, r.token = some t → t < p ∧ r.state.holdsToken = true) :
    isNoreply b r p = true ↔ r.token.map (textAt b p) = some noreplyWord := by
  unfold isNoreply
  cases marker : r.token with
  | none => simp
  | some m =>
    have length := length_textAt (t := m) inside.le
    rw [Option.any_some, Option.map_some, Option.some_inj, Bool.and_eq_true, decide_eq_true_eq,
      drop_eq_textAt_append (before m marker).1.le inside.le]
    constructor
    · rintro ⟨seven, same⟩
      exact (strcmp_noreply_iff (by omega)).mp same
    · intro same
      have seven : (textAt b p m).length = 7 := by rw [same]; rfl
      exact ⟨by omega, (strcmp_noreply_iff seven).mpr same⟩

theorem bytesIn_last (t : Nat) :
    KeyPos.bytesIn (front ++ [b]) ⟨⟨front.length, t⟩, ⟨front.length, p⟩⟩ = textAt b p t := by
  simp [KeyPos.bytesIn, textAt]

theorem mcReqType_seen (inside : p < b.length)
    (before : ∀ t, r.token = some t → t < p ∧ r.state.holdsToken = true)
    (state : r.state = swReqType) :
    (ofScan (front ++ [b]) b r p).feed (b.getD p 0) =
      seen (front ++ [b]) b p (b.getD p 0) (mcReqType b (b.getD p 0) r p) := by
  have word := fun m held => memcacheWord_eq (before m held).1.le inside
  have grown := fun t held => textAt_succ inside (before t held).1.le
  have distinct : byteOf ' ' ≠ CR := by decide
  generalize b.getD p 0 = ch at *
  simp only [feed, ofScan, McReading.named, grow, enter, mcReqType, state]
  cases marker : r.token with
  | none => grind [seen, ofScan, feed]
  | some m =>
    rw [Option.elim_some, Option.map_some, Option.elim_some, word m marker]
    generalize memcacheCommand (textAt b p m) ch = type
    split
    · -- the end of the name
      split
      · rfl
      · grind [seen, ofScan, feed]
      · next known notQuit =>
          split <;> simp_all [seen, ofScan]
    · grind [seen, ofScan]

/-- The carriage return that ends a key and its line. -/
theorem McReading.feed_afterKey {s : McReading} (state : s.state = mcAfterKey s.type)
    (plain : (memcacheStorage s.type || memcacheArithmetic s.type) = false) :
    s.feed CR =
      if mayEndAtKey s.type then .more { s with state := swAlmostDone } else .fail := by
  have distinct : CR ≠ byteOf ' ' ∧ CR ≠ byteOf 'n' ∧ (CR == byteOf '-') = false := by decide
  obtain ⟨noStorage, noArithmetic⟩ := Bool.or_eq_false_iff.mp plain
  simp only [mcAfterKey, noStorage, noArithmetic, Bool.false_or, Bool.false_eq_true,
    if_false] at state
  unfold feed mayEndAtKey
  rw [state]
  by_cases touch : memcacheTouch s.type = true
  · simp [touch, feedBefore, distinct]
  · by_cases keys : memcacheDelete s.type = false ∧ memcacheRetrieval s.type = true
    · simp [touch, keys, noStorage, noArithmetic, distinct]
    · have line : (if memcacheDelete s.type = true then swRuntoCrlf
          else if memcacheRetrieval s.type = true then swSpacesBeforeKeys else swRuntoCrlf) =
            swRuntoCrlf := by
        grind
      simp [touch, line, noStorage, noArithmetic, distinct, endLine]

theorem mcKey_seen (inside : p < b.length)
    (before : ∀ t, r.token = some t → t < p ∧ r.state.holdsToken = true)
    (state : r.state = swKey) :
    (ofScan (front ++ [b]) b r p).feed (b.getD p 0) =
      seen (front ++ [b]) b p (b.getD p 0)
        (mcKey front.length (b.getD p 0) r p) := by
  have text : textAt b p (r.token.getD p) = (r.token.map (textAt b p)).getD [] := by
    cases r.token with
    | none => exact textAt_self
    | some t => rfl
  have start := tokenStart_le before
  have grown := textAt_succ inside start
  have length := length_textAt (t := r.token.getD p) inside.le
  have empty : textAt b p (r.token.getD p) = [] ↔ p - r.token.getD p = 0 := by
    rw [← length, List.length_eq_zero_iff]
  have distinct : byteOf ' ' ≠ CR := by decide
  generalize b.getD p 0 = ch at *
  simp only [feed, ofScan, feedKey, enter, mcKey, state, ← text, length, empty]
  generalize r.token.getD p = t at *
  by_cases ends : ch = byteOf ' ' ∨ ch = CR
  · by_cases refused : memcacheMaxKeyLength < p - t ∨ p - t = 0
    · simp only [ends, refused, if_true, seen]
    · simp only [ends, refused, if_true, if_false]
      rcases ends with rfl | rfl
      · simp [distinct, seen, ofScan, bytesIn_last]
      · simp only [distinct.symm, if_false, if_true]
        by_cases line : (memcacheStorage r.type || memcacheArithmetic r.type) = true
        · simp [line, mayEndAtKey, seen]
        · rw [if_neg line, seen, if_pos rfl, feed_afterKey rfl (Bool.eq_false_of_not_eq_true line)]
          simp [ofScan, bytesIn_last]
  · simp [ends, seen, ofScan, grown]

theorem memcacheParseReqStep_seen (inside : p < b.length)
    (before : ∀ t, r.token = some t → t < p ∧ r.state.holdsToken = true)
    (counted : r.state ≠ swVal) :
    (ofScan (front ++ [b]) b r p).feed (b.getD p 0) =
      seen (front ++ [b]) b p (b.getD p 0)
        (memcacheParseReqStep front.length b r p) := by
  have fresh := textAt_succ inside (Nat.le_refl p)
  rw [textAt_self] at fresh
  have grown := fun t held => textAt_succ inside (before t held).1.le
  have word := isNoreply_iff inside before
  have distinct : byteOf 'n' ≠ CR ∧ byteOf 'n' ≠ byteOf ' ' ∧ byteOf ' ' ≠ CR := by decide
  unfold memcacheParseReqStep
  cases state : r.state
  case swVal => exact absurd state counted
  case swReqType => exact mcReqType_seen inside before state
  case swKey => exact mcKey_seen inside before state
  all_goals
    clear counted
    simp only [state, McReqState.holdsToken, Bool.false_eq_true, and_false, and_true] at before
    generalize b.getD p 0 = ch at *
    simp only [feed, ofScan, feedBefore, feedRest, grow, mark, enter, endLine, mcReqStart, state,
      mcSpacesBeforeKey, mcSpacesBeforeKeys, mcBeforeNumber, mcNumber, mcLastNumber,
      mcSpacesBeforeVlen, mcVlen, mcRuntoVal, mcLineEnd, mcRuntoCrlf, mcNoreply, mcAfterNoreply,
      mcCrlf, mcAlmostDone]
    cases marker : r.token <;> grind [seen, ofScan, feed,
      feedBefore, feedRest, endLine, mark, mayNoreply]

theorem memcacheParseReqStep_readsOne
    (before : ∀ t, r.token = some t → t < p ∧ r.state.holdsToken = true)
    (counted : r.state ≠ swVal) : McReadsOne r p (memcacheParseReqStep front.length b r p) := by
  have after : ∀ type, (mcAfterKey type).holdsToken = false := by
    intro type
    unfold mcAfterKey
    grind [McReqState.holdsToken]
  unfold memcacheParseReqStep
  generalize b.getD p 0 = ch
  cases state : r.state
  case swVal => exact absurd state counted
  all_goals
    simp only [state, McReqState.holdsToken, Bool.false_eq_true, and_false, and_true] at before
    simp only [mcReqStart, mcReqType, mcSpacesBeforeKey, mcKey, mcSpacesBeforeKeys, mcBeforeNumber,
      mcNumber, mcLastNumber, mcSpacesBeforeVlen, mcVlen, mcRuntoVal, mcLineEnd, mcRuntoCrlf,
      mcNoreply, mcAfterNoreply, mcCrlf, mcAlmostDone]
    cases marker : r.token <;> grind [McReadsOne, McReqState.holdsToken]

theorem skipVlen_tracks {chain : List Bytes} (inside : p < b.length) (state : r.state = swVal)
    (free : r.token = none) :
    Tracks feed b (McFollows chain b) (McFinished chain) (.ofScan chain b r p) p
      (skipVlen swAlmostDone b r p) := by
  have counted : (ofScan chain b r p).state = swVal := state
  have marked : ∀ (q : Nat) (s : Scan McReqState), s.token = r.token →
      ∀ t, s.token = some t → t < q ∧ s.state.holdsToken = true := by
    intro q s same t held
    rw [same, free] at held
    cases held
  -- passing over bytes up to some offset is reading them one by one
  have passed : ∀ q, p ≤ q → q ≤ b.length → q ≤ p + r.vlen →
      run feed (.ofScan chain b r p) (b.drop p) =
        run feed (.ofScan chain b { r with vlen := r.vlen - (q - p) } q) (b.drop q) := by
    intro q start bound fits
    rw [drop_eq_textAt_append start bound, run_val counted _ _ (by
      rw [length_textAt bound]
      exact Nat.sub_le_iff_le_add'.mpr fits), length_textAt bound]
    simp only [ofScan, free, Option.map_none]
  simp only [skipVlen, passOver]
  by_cases short : b.length ≤ p + r.vlen
  · rw [if_pos short]
    exact ⟨_, ⟨Nat.le_refl _, marked _ _ rfl, rfl⟩, passed _ inside.le (Nat.le_refl _) short⟩
  · have mark : p + r.vlen < b.length := Nat.lt_of_not_le short
    have whole := passed _ (Nat.le_add_right p r.vlen) mark.le (Nat.le_refl _)
    rw [Nat.add_sub_cancel_left, Nat.sub_self, drop_eq_cons mark] at whole
    rw [if_neg short]
    by_cases ends : b.getD (p + r.vlen) 0 = CR
    · rw [if_pos ends]
      refine ⟨_, ⟨mark, marked _ _ rfl, rfl⟩, ?_⟩
      rw [ends] at whole
      refine whole.trans (run_cons_more ?_)
      simp [feed, ofScan, state, free]
    · rw [if_neg ends]
      refine whole.trans (run_cons_fail ?_)
      simp only [feed, ofScan, state, ends, ne_eq, not_true_eq_false, if_false]

end OneIteration

/-- The loop of the request parser over the last mbuf of a chain reads the request as the
machine does. -/
theorem memcacheParseReqStep_simulates (front : List Bytes) (b : Bytes) :
    Simulates feed b (memcacheParseReqStep front.length b)
      (McFollows (front ++ [b]) b) (McFinished (front ++ [b])) := by
  rintro r p s ⟨_, before, rfl⟩ inside
  by_cases value : r.state = swVal
  · have free : r.token = none := by
      cases marker : r.token with
      | none => rfl
      | some t => simpa [value, McReqState.holdsToken] using before t marker
    simpa only [memcacheParseReqStep, value] using skipVlen_tracks inside value free
  · exact mcTracks_of_seen inside before (memcacheParseReqStep_seen inside before value)
      (memcacheParseReqStep_readsOne before value)

/-! ## A request in one buffer -/

section OneBuffer

variable (dataSize : Nat) (b : Bytes)

private theorem memcacheParseReq_agrees :
    ∃ out, memcacheParseReq dataSize (.ofBuffer swStart b 0) =
        memcacheReqParser.conclude dataSize (.ofBuffer swStart b 0) out ∧
      Agrees feed b (McFollows [b] b) (McFinished [b]) {} 0 out := by
  refine (memcacheReqLawful dataSize).parse_agrees (r := .ofBuffer swStart b 0) trivial
    (memcacheParseReqStep_simulates [] b) ?_
  exact ⟨Nat.zero_le _, (fun t held => nomatch held), rfl⟩

/-- The parser accepts a request in one buffer exactly if the reader does. -/
theorem memcacheParseReq_ok_iff :
    (memcacheParseReq dataSize (.ofBuffer swStart b 0)).result = .ok ↔
      ∃ t rest, run feed {} b = .done t rest := by
  obtain ⟨out, parsed, agrees⟩ := memcacheParseReq_agrees dataSize b
  rw [parsed, Parser.conclude_ok_iff, agrees.stop_iff, List.drop_zero]

/-- Then it has consumed the same bytes and found the same type, keys and flags. -/
theorem memcacheParseReq_of_done {t : McReading} {rest : Bytes}
    (done : run feed {} b = .done t rest) :
    let m := memcacheParseReq dataSize (.ofBuffer swStart b 0)
    m.pos + rest.length = b.length ∧ m.type = t.type ∧ m.keyList = t.keys ∧
      m.quit = t.quit ∧ m.noreply = t.noreply := by
  obtain ⟨out, parsed, agrees⟩ := memcacheParseReq_agrees dataSize b
  obtain ⟨q, r, rfl, finished, length⟩ := agrees.stop_of_done done
  simp only
  rw [parsed]
  exact ⟨length, finished.type, finished.keys, finished.quit, finished.noreply⟩

end OneBuffer

end Nutcracker
