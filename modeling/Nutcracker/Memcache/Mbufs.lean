import Nutcracker.Memcache.Canonical
import Nutcracker.Memcache.Machine
import Nutcracker.Protocol.Streams

/-!
# Memcache requests received in mbufs

The keys of a retrieval may be cut by the end of an mbuf and are read again from the next
one.  All other tokens of a canonical request lie in its first mbuf, because the line of a
command with one key is short.
-/

namespace Nutcracker

open Lib MsgType McReqState

namespace McReading

variable {s t : McReading} {ch : UInt8} {xs : Bytes}

/-! ## What every byte preserves -/

/-- A token is under way in the states that have one; a key has no spaces. -/
structure Tokens (s : McReading) : Prop where
  states : s.token ≠ none → s.state.holdsToken = true
  key : s.state = swKey → ∃ w, s.token = some w ∧ w ≠ [] ∧ ∀ c ∈ w, c ≠ byteOf ' ' ∧ c ≠ CR

theorem holdsToken_mcAfterKey (type : MsgType) :
    (mcAfterKey type).holdsToken = false ∧ mcAfterKey type ≠ swKey := by
  unfold mcAfterKey
  grind [McReqState.holdsToken]

/-- A byte of a key goes on with the token under way or ends it. -/
theorem feedKey_token (fed : s.feedKey ch = .more t) :
    t.token = none ∧ t.state ≠ swKey ∨ t.state = swKey ∧
      t.token = some (s.token.getD [] ++ [ch]) ∧ ch ≠ byteOf ' ' ∧ ch ≠ CR := by
  have after := holdsToken_mcAfterKey s.type
  simp only [feedKey, enter] at fed
  grind

/-- A byte of any other token. -/
theorem feed_token (states : s.token ≠ none → s.state.holdsToken = true)
    (other : s.state ≠ swKey) (fed : s.feed ch = .more t) :
    t.token = none ∧ t.state ≠ swKey ∨
      t.token = some (s.token.getD [] ++ [ch]) ∧ t.state.holdsToken = true ∧
        (t.state = swKey → s.token.getD [] = [] ∧ ch ≠ byteOf ' ' ∧ ch ≠ CR) := by
  unfold feed at fed
  cases state : s.state
  case swKey => exact absurd state other
  case swSpacesBeforeKey | swSpacesBeforeKeys =>
    simp only [state, McReqState.holdsToken, Bool.false_eq_true, imp_false, not_not] at states fed
    have key := @feedKey_token (s.enter swKey) t ch
    simp only [enter, Option.getD_none] at key
    grind [McReqState.holdsToken, enter]
  all_goals
    simp only [state, McReqState.holdsToken, Bool.false_eq_true, imp_false, not_not] at states
    simp only [state, feedBefore, feedRest, endLine, named, grow, mark, enter] at fed
    cases marker : s.token <;> grind [McReqState.holdsToken]

theorem tokens_feed (tokens : Tokens s) (fed : s.feed ch = .more t) :
    Tokens t ∧ (t.token = none ∨ t.token = some (s.token.getD [] ++ [ch])) := by
  by_cases key : s.state = swKey
  · obtain ⟨w, token, _, inner⟩ := tokens.key key
    have fed' : s.feedKey ch = .more t := by simpa only [feed, key] using fed
    rcases feedKey_token fed' with ⟨none_, other⟩ | ⟨same, grown, space, cr⟩
    · exact ⟨⟨fun some_ => absurd none_ some_, fun key' => absurd key' other⟩, .inl none_⟩
    · refine ⟨⟨fun _ => by rw [same]; rfl, fun _ => ⟨_, grown, by simp, ?_⟩⟩, .inr grown⟩
      rw [token, Option.getD_some]
      intro c member
      rcases List.mem_append.mp member with earlier | last
      · exact inner c earlier
      · rw [List.mem_singleton.mp last]
        exact ⟨space, cr⟩
  · rcases feed_token tokens.states key fed with ⟨none_, other⟩ | ⟨grown, holds, first⟩
    · exact ⟨⟨fun some_ => absurd none_ some_, fun key' => absurd key' other⟩, .inl none_⟩
    · refine ⟨⟨fun _ => holds, fun key' => ⟨_, grown, by simp, ?_⟩⟩, .inr grown⟩
      obtain ⟨empty, space, cr⟩ := first key'
      simpa [empty] using ⟨space, cr⟩

theorem tokens_run (pending : run feed {} xs = .pending t) : Tokens t :=
  run_pending_inv (fun tokens fed => (tokens_feed tokens fed).1)
    (⟨by simp, by simp⟩ : Tokens {}) pending

theorem reader_grows : McReading.reader.Grows {} := by
  intro xs s ch s' pending fed
  rcases (tokens_feed (tokens_run pending) fed).2 with none_ | grown
  · exact .inl (by simp [reader, none_])
  · exact .inr (by simp [reader, grown])

/-- The line of a retrieval behind its name. -/
structure Retrieving (s : McReading) : Prop where
  retrieval : memcacheRetrieval s.type = true
  state : s.state = swSpacesBeforeKey ∨ s.state = swKey ∨ s.state = swSpacesBeforeKeys ∨
    s.state = swAlmostDone

theorem retrieving_feed (retrieving : Retrieving s) (fed : s.feed ch = .more t) : Retrieving t := by
  obtain ⟨retrieval, state⟩ := retrieving
  obtain ⟨storage, arithmetic, touch, delete⟩ := retrieval_only retrieval
  have after : mcAfterKey s.type = swSpacesBeforeKeys := by
    simp [mcAfterKey, storage, arithmetic, touch, delete, retrieval]
  unfold feed at fed
  rcases state with state | state | state | state <;>
    simp only [state, feedKey, enter, after] at fed <;> grind [Retrieving]

/-- A key that is longer than allowed is never accepted. -/
theorem run_longKey {w rest : Bytes} (state : s.state = swKey) (token : s.token = some w)
    (long : memcacheMaxKeyLength < w.length) : run feed s xs ≠ .done t rest := by
  induction xs generalizing s w with
  | nil =>
    intro done
    cases done
  | cons x xs ih =>
    by_cases ends : x = byteOf ' ' ∨ x = CR
    · have failed : s.feed x = .fail := by simp [feed, state, feedKey, token, ends, long]
      rw [run_cons_fail failed]
      intro done
      cases done
    · have more : s.feed x = .more { s with state := swKey, token := some (w ++ [x]) } := by
        simp [feed, state, feedKey, token, ends]
      rw [run_cons_more more]
      refine ih rfl rfl ?_
      rw [List.length_append]
      omega

/-- What follows the command line has no tokens. -/
structure BehindLine (s : McReading) : Prop where
  token : s.token = none
  state : s.state = swRuntoVal ∨ s.state = swVal ∨ s.state = swAlmostDone

theorem behindLine_feed (behind : BehindLine s) (fed : s.feed ch = .more t) : BehindLine t := by
  obtain ⟨token, state⟩ := behind
  unfold feed at fed
  rcases state with state | state | state <;> simp only [state] at fed <;> grind [BehindLine]

/-! ## Tokens that are cut -/

/-- A key may be read again. -/
theorem harmless_key {size : Nat} (large : memcacheMaxKeyLength < size) (tokens : Tokens s)
    (key : s.state = swKey) {rest : Bytes} (done : run feed s xs = .done t rest) :
    reader.Harmless size s := by
  obtain ⟨w, token, nonempty, inner⟩ := tokens.key key
  have held : reader.held s = w := by simp [reader, token]
  refine ⟨?_, ?_⟩
  · rw [held]
    by_contra long
    exact run_longKey key token (by omega) done
  · have again := run_key (s := { s with token := none }) (.inr (.inr ⟨key, rfl⟩)) nonempty inner []
    rw [List.append_nil, run_nil] at again
    rw [held]
    refine again.trans ?_
    cases s
    simp_all

end McReading

/-! ## The length of a line -/

theorem length_flatMap_le {ws : List Bytes} {c : UInt8} {n : Nat}
    (short : ∀ w ∈ ws, w.length ≤ n) :
    (ws.flatMap (c :: ·)).length ≤ ws.length * (n + 1) := by
  induction ws with
  | nil => simp
  | cons w ws ih =>
    have first := short w (by simp)
    have rest := ih fun w' member => short w' (by simp [member])
    rw [List.flatMap_cons, List.length_append, List.length_cons, List.length_cons, Nat.succ_mul]
    omega

/-- The line of a command with at most one key fits into the smallest mbuf. -/
theorem McRequest.Canonical.length_line {q : McRequest} (canonical : q.Canonical)
    (other : memcacheRetrieval q.type = false) : q.line.length < 464 := by
  have fields : numFields q.type ≤ 4 := by
    unfold numFields
    grind
  have keys := length_flatMap_le (c := byteOf ' ') (n := 250)
    fun k member => (canonical.keys k member).2.1
  have oneKey := canonical.shape.oneKey other
  have short := length_flatMap_le (c := byteOf ' ') canonical.short
  have casId := length_flatMap_le (c := byteOf ' ') canonical.casId
  have nums := canonical.shape.nums
  have split : q.nums.flatMap (byteOf ' ' :: ·) =
      (q.nums.take 3).flatMap (byteOf ' ' :: ·) ++ (q.nums.drop 3).flatMap (byteOf ' ' :: ·) := by
    rw [← List.flatMap_append, List.take_append_drop]
  have noreply :
      ((if q.noreply then [noreplyWord] else []).flatMap (byteOf ' ' :: ·)).length ≤ 8 := by
    cases q.noreply <;> decide
  have named := length_commandName q.type
  rw [List.length_take] at short
  rw [List.length_drop] at casId
  rw [McRequest.line, McRequest.arguments, List.flatMap_append, List.flatMap_append, split]
  simp only [List.length_append]
  generalize ((q.nums.take 3).flatMap (byteOf ' ' :: ·)).length = a at *
  generalize ((q.nums.drop 3).flatMap (byteOf ' ' :: ·)).length = b at *
  generalize (q.keys.flatMap (byteOf ' ' :: ·)).length = c at *
  have keyBound : c ≤ 251 := keys.trans (by omega)
  have shortBound : a ≤ 33 := short.trans (by omega)
  have casBound : b ≤ 21 := casId.trans (by omega)
  omega

/-! ## Requests that the driver receives -/

section Driver

open McReading

variable {dataSize : Nat} {q : McRequest}

/-- The tokens under way when an mbuf is full are keys. -/
theorem McRequest.Canonical.harmless (canonical : q.Canonical) (large : 464 ≤ dataSize)
    {pre post : Bytes} {s : McReading} (split : q.encode = pre ++ post)
    (pending : run feed {} pre = .pending s) (full : dataSize ≤ pre.length)
    (held : reader.held s ≠ []) : reader.Harmless dataSize s := by
  obtain ⟨t, done, _⟩ := run_encode canonical
  rw [split, run_append_of_pending pending] at done
  have tokens := tokens_run pending
  have marked : s.token ≠ none := by
    intro none_
    simp [reader, none_] at held
  have holds := tokens.states marked
  refine harmless_key (Nat.lt_of_lt_of_le (by decide) large) tokens ?_ done
  by_cases retrieval : memcacheRetrieval q.type = true
  · -- behind the name of a retrieval only keys are tokens
    have takes : takesKey q.type = true := by simp [takesKey, retrieval]
    have named := run_name takes []
    rw [run_nil] at named
    obtain ⟨k, ks, keys⟩ := List.exists_cons_of_ne_nil (canonical.shape.keys takes)
    have name := length_commandName q.type
    have begins : commandName q.type ++ [byteOf ' '] <+: pre := by
      have start : commandName q.type ++ [byteOf ' '] <+: q.encode := by
        simp [McRequest.encode, McRequest.line, McRequest.arguments, keys]
      exact List.prefix_of_prefix_length_le start ⟨post, split.symm⟩ (by simp; omega)
    obtain ⟨rest, rfl⟩ := begins
    rw [run_append_of_pending named] at pending
    have retrieving := run_pending_inv retrieving_feed
      (⟨retrieval, .inl rfl⟩ : Retrieving { state := swSpacesBeforeKey, type := q.type }) pending
    rcases retrieving.state with state | state | state | state
    · simp [state, McReqState.holdsToken] at holds
    · exact state
    · simp [state, McReqState.holdsToken] at holds
    · simp [state, McReqState.holdsToken] at holds
  · -- the line of any other command has ended in the first mbuf
    have short := canonical.length_line (Bool.eq_false_of_not_eq_true retrieval)
    have begins : q.line ++ [CR] <+: pre := by
      have start : q.line ++ [CR] <+: q.encode := by simp [McRequest.encode]
      exact List.prefix_of_prefix_length_le start ⟨post, split.symm⟩ (by simp; omega)
    obtain ⟨rest, rfl⟩ := begins
    rw [List.append_assoc, List.singleton_append, run_line canonical] at pending
    have behind := run_pending_inv behindLine_feed (⟨rfl, ?_⟩ : BehindLine (afterLine q)) pending
    · exact absurd behind.token marked
    · simp only [afterLine]
      split <;> simp

/-- A canonical request on a connection on which no length wraps around: the driver
completes one message of exactly its bytes, with its type, its keys, each inside one mbuf,
and its flags.  What follows is received like the first bytes of a connection, and not at
all after a quit. -/
theorem memcacheReq_reassembles (large : 464 ≤ dataSize) (canonical : q.Canonical)
    (nonzero : q.encode.length % word32 ≠ 0) {rest : Bytes} {reads : List Bytes}
    (stream : reads.flatten = q.encode ++ rest)
    (unwrapped : ParserKind.memcacheReq.Unwrapped dataSize reads) :
    ∃ (m : Msg McReqState) (others : List (Msg McReqState)),
      (ParserKind.memcacheReq.connection dataSize reads).completed = m :: others ∧
      m.bytes = q.encode ∧ m.type = q.type ∧ m.keyList = q.keys ∧
      (∀ k ∈ m.keys, k.Inside m.mhdr) ∧ m.noreply = q.noreply ∧
      (m.quit = true ↔ q.type = reqMcQuit) ∧
      (q.type = reqMcQuit →
        ParserKind.memcacheReq.outcome dataSize reads = ⟨[Receiver.observed m], .eof, []⟩) ∧
      (q.type ≠ reqMcQuit → ∀ reads' : List Bytes, reads'.flatten = rest →
        ParserKind.memcacheReq.Unwrapped dataSize reads' →
        ParserKind.memcacheReq.outcome dataSize reads =
          (ParserKind.memcacheReq.outcome dataSize reads').behind (Receiver.observed m)) := by
  have positive : 0 < dataSize := by omega
  obtain ⟨t, done, type, keys, noreply, quit⟩ := run_encode canonical
  obtain ⟨⟨u, placed⟩, _⟩ := Reader.run_place_of_done reader_grows rfl positive done
    fun pre post s split pending full held => canonical.harmless large split pending full held
  obtain ⟨m, bytes, _, ⟨finished, inside⟩, _, received⟩ :=
    (memcacheReqMachine dataSize).receive_message positive nonzero placed
  obtain ⟨⟨others, completed⟩, ending, following⟩ := received rest reads stream unwrapped
  have quits : m.quit = true ↔ q.type = reqMcQuit := by
    rw [← quit, ← finished.quit]
  refine ⟨m, others, completed, bytes, finished.type.trans type, finished.keys.trans keys, inside,
    finished.noreply.trans noreply, quits, fun isQuit => ending (quits.mpr isQuit), fun other => ?_⟩
  exact following (Bool.eq_false_of_not_eq_true fun isQuit => other (quits.mp isQuit))

end Driver

/-- A request for two keys. -/
def getTwo : McRequest where
  type := reqMcGet
  keys := [[byteOf 'a'], [byteOf 'b', byteOf 'c']]

/-- In two reads, with the beginning of a quit behind it. -/
theorem memcacheReq_reassembles_getTwo :
    let stream := getTwo.encode ++ commandName reqMcQuit
    ∃ (m : Msg McReqState) (others : List (Msg McReqState)),
      (ParserKind.memcacheReq.connection 464 [stream.take 6, stream.drop 6]).completed =
        m :: others ∧ m.bytes = getTwo.encode ∧ m.keyList = getTwo.keys := by
  intro stream
  have canonical : getTwo.Canonical :=
    ⟨⟨by decide, by decide, by decide, by decide, by decide, by decide⟩, by decide +kernel,
      by decide,
      by decide, by decide, by decide⟩
  have whole : [stream.take 6, stream.drop 6].flatten = stream := by decide +kernel
  have unwrapped : ParserKind.memcacheReq.Unwrapped 464 [stream.take 6, stream.drop 6] := by
    decide +kernel
  obtain ⟨m, others, completed, bytes, _, keys, _⟩ := memcacheReq_reassembles (Nat.le_refl 464)
    canonical (by decide +kernel) whole unwrapped
  exact ⟨m, others, completed, bytes, keys⟩

/-- A `set` with a value of `n` bytes. -/
def setBytes (n : Nat) : McRequest where
  type := reqMcSet
  keys := [[byteOf 'k']]
  nums := [[byteOf '0'], [byteOf '0'], decimal n]
  data := List.replicate n (byteOf 'x')

theorem canonical_setBytes {n : Nat} (bound : n < word32) (digits : (decimal n).length ≤ 10) :
    (setBytes n).Canonical := by
  refine ⟨⟨.inl rfl, by simp [setBytes], by simp [setBytes], by simp [setBytes], rfl,
    by simp [setBytes]⟩, ?_, ?_, ?_, by simp [setBytes], fun _ => ⟨?_, ?_⟩⟩
  · simp only [setBytes]
    decide
  · simp only [setBytes, List.forall_mem_cons, List.not_mem_nil, false_implies, implies_true,
      and_true]
    exact ⟨⟨by decide, by decide⟩, ⟨by decide, by decide⟩, decimal_ne_nil n, digits_decimal n⟩
  · simp [setBytes, digits]
  · simp [setBytes, McRequest.lengthField]
  · simpa [setBytes] using bound

theorem length_setBytes (n : Nat) : (setBytes n).encode.length = (decimal n).length + n + 14 := by
  have name : commandName reqMcSet = ['s', 'e', 't'].map byteOf := rfl
  simp [setBytes, McRequest.encode, McRequest.line, McRequest.arguments, McRequest.block, name,
    memcacheStorage]
  omega

/-- A `set` whose bytes are `2 ^ 32` in number is never completed. -/
theorem memcacheReq_huge_set :
    (setBytes (2 ^ 32 - 24)).Canonical ∧
      ∀ reads : List Bytes, reads.flatten = (setBytes (2 ^ 32 - 24)).encode →
        ∀ m ∈ (ParserKind.memcacheReq.connection 464 reads).completed,
          m.bytes ≠ (setBytes (2 ^ 32 - 24)).encode := by
  have digits : (decimal (2 ^ 32 - 24)).length = 10 := by decide +kernel
  have canonical := canonical_setBytes (n := 2 ^ 32 - 24) (by decide) (by omega)
  have length := length_setBytes (2 ^ 32 - 24)
  rw [digits] at length
  generalize setBytes (2 ^ 32 - 24) = q at canonical length ⊢
  refine ⟨canonical, fun reads _ m member same => ?_⟩
  obtain ⟨measured, nonempty⟩ := (Receiver.receive_measured reads).completed m member
  rw [Msg.Measured, same, length] at measured
  exact nonempty (measured.trans (by decide))

end Nutcracker
