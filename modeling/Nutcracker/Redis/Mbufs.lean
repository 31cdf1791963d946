import Nutcracker.Message.Placement
import Nutcracker.Protocol.Streams
import Nutcracker.Redis.Placement

/-!
# Requests received in mbufs

The request parser implements the reader on every chain of mbufs that the receive
driver makes.  What `Placed.run_frame` says about a request that is read across mbufs
therefore holds for the requests that the driver completes.
-/

namespace Nutcracker

open Lib

section Keys

variable {dataSize : Nat} {front : List Bytes} {b : Bytes} {r r' : Scan ReqState} {p q : Nat}
  {s : Reading}

/-- The token of a parser that follows a reading. -/
theorem Follows.tokenText {chain : List Bytes} (follows : Follows chain b r p s) :
    TokenText b r.token p s.tokenText := by
  have atPhase := follows.phase
  unfold Reading.tokenText
  cases phase : s.phase with
  | count opened =>
    cases opened <;> simp only [AtPhase, phase] at atPhase
    · rw [atPhase.2.1]
      rfl
    · exact atPhase.2.1
  | len slot opened =>
    cases opened <;> simp only [AtPhase, phase] at atPhase
    · rw [atPhase.2]
      rfl
    · exact atPhase.2.2
  | body slot =>
    simp only [AtPhase, phase] at atPhase
    have token := atPhase.2.token
    rw [follows.type] at token
    by_cases holds : holdsToken s.type slot = true
    · simpa only [holds, if_true] using token
    · simp only [holds, Bool.false_eq_true, if_false] at token ⊢
      rw [token]
      rfl
  | countLf | lenLf slot | bodyLf slot =>
    simp only [AtPhase, phase] at atPhase
    have token : r.token = none := by simp only [atPhase]
    rw [token]
    rfl

/-- A token has at least one byte. -/
theorem TokenText.eq_none {token : Option Nat} (marked : TokenText b token p []) :
    token = none := by
  cases token with
  | none => rfl
  | some t =>
    obtain ⟨before, inside, text⟩ := marked
    have length := congrArg List.length text
    simp only [List.length_nil, List.length_drop, List.length_take] at length
    omega

theorem Follows.phase_of_body {chain : List Bytes} {slot : ArgSlot}
    (follows : Follows chain b r p s) (state : r.state = .body slot) : s.phase = .body slot := by
  have atPhase := follows.phase
  cases phase : s.phase with
  | count opened => cases opened <;> simp [AtPhase, phase, state] at atPhase
  | len slot opened => cases opened <;> simp [AtPhase, phase, state] at atPhase
  | body slot' =>
    simp only [AtPhase, phase, state, ReqState.body.injEq] at atPhase
    rw [atPhase.1]
  | countLf | lenLf slot | bodyLf slot => simp [AtPhase, phase, state] at atPhase

theorem skipRlen_keysBefore {after : ReqState} (token : r.token = none) (inside : p < b.length)
    (before : r.KeysBefore front b p) (stepEq : skipRlen after b r p = .next q r') :
    r'.KeysBefore front b q := by
  obtain ⟨_, forward⟩ := passOver_next inside stepEq
  have kept : r'.keys = r.keys ∧ r'.token = r.token := by
    simp only [skipRlen, passOver] at stepEq
    grind
  refine before.mono kept.1 ?_
  rw [kept.2, token]
  exact forward.le

/-- A state that passes over an argument records a key before the token or none. -/
theorem slotBody_keysBefore {slot : ArgSlot} (marked : r.token.getD p ≤ p) (inside : p < b.length)
    (before : r.KeysBefore front b p) (free : holdsToken r.type slot = false → r.token = none)
    (stepEq : slotBody front.length b slot r p = .next q r') : r'.KeysBefore front b q := by
  cases slot with
  | reqType =>
    simp only [slotBody, reqTypeBody] at stepEq
    split at stepEq
    · cases stepEq
      exact before.mono rfl (Nat.le_refl _)
    · split at stepEq
      · split at stepEq
        · cases stepEq
        · cases stepEq
          exact before.mono rfl (by simp only [Option.getD_none]; omega)
      · cases stepEq
  | key =>
    simp only [slotBody, keyBody] at stepEq
    split at stepEq
    · cases stepEq
      exact before.mono rfl (Nat.le_refl _)
    · split at stepEq
      · cases stepEq
        refine before.snoc rfl (Nat.le_add_right _ _) (by omega) ?_ ?_ <;>
          simp only [Option.getD_none] <;> omega
      · cases stepEq
  | arg1 => exact skipRlen_keysBefore (free rfl) inside before stepEq
  | arg3 => exact skipRlen_keysBefore (free rfl) inside before stepEq
  | argn => exact skipRlen_keysBefore (free rfl) inside before stepEq
  | arg2 =>
    have token : ∀ n, p ≤ n → r.token.getD p ≤ (arg2Token r p).getD n := by
      intro n later
      unfold arg2Token
      split
      · exact marked
      · cases marker : r.token with
        | none => exact later
        | some t => exact Nat.le_refl t
    simp only [slotBody, arg2Body] at stepEq
    split at stepEq
    · cases stepEq
      exact before.mono rfl (token _ inside.le)
    · split at stepEq
      · split at stepEq
        · split at stepEq
          · cases stepEq
          · cases stepEq
            exact before.mono rfl (by simp only [Option.getD_none]; omega)
        · cases stepEq
          exact before.mono rfl (token _ (by omega))
      · cases stepEq

theorem redisParseReqStep_keysBefore (follows : Follows (front ++ [b]) b r p s)
    (before : r.KeysBefore front b p) (inside : p < b.length)
    (stepEq : redisParseReqStep dataSize front.length b r p = .next q r') :
    r'.KeysBefore front b q := by
  have marked := follows.tokenText.start.1
  have kept : r.token.getD p ≤ r.token.getD (p + 1) := by cases r.token <;> simp
  cases state : r.state with
  | start | narg =>
    rw [step_count (by simp [state])] at stepEq
    obtain ⟨rfl, moved⟩ := countLine_next stepEq
    rcases moved with ⟨token, _, rfl⟩ | ⟨t, token, _, rfl⟩ | ⟨t, token, _, _, _, rfl⟩
    · exact before.mono rfl (by simp [token])
    · exact before.mono rfl (by simp [token])
    · exact before.mono rfl (by simp [token] at *; omega)
  | nargLf =>
    rw [step_nargLf state] at stepEq
    obtain ⟨rfl, _, rfl⟩ := lineFeed_next stepEq
    exact before.mono rfl kept
  | len slot =>
    rw [step_len state] at stepEq
    obtain ⟨rfl, moved⟩ := lenLine_next stepEq
    rcases moved with ⟨token, _, rfl⟩ | ⟨t, token, _, rfl⟩ | ⟨t, token, _, _, _, _, rfl⟩
    · exact before.mono rfl (by simp [token])
    · exact before.mono rfl (by simp [token])
    · exact before.mono rfl (by simp [token] at *; omega)
  | lenLf slot =>
    rw [step_lenLf state] at stepEq
    obtain ⟨rfl, _, rfl⟩ := lineFeed_next stepEq
    exact before.mono rfl kept
  | body slot =>
    rw [step_body state] at stepEq
    refine slotBody_keysBefore marked inside before (fun free => ?_) stepEq
    have text := follows.tokenText
    rw [Reading.tokenText, follows.phase_of_body state, ← follows.type] at text
    simp only [free, Bool.false_eq_true, if_false] at text
    exact text.eq_none
  | bodyLf slot =>
    rw [step_bodyLf state] at stepEq
    obtain ⟨rfl, _, slot', _, rfl⟩ := routed_next stepEq
    exact before.mono rfl kept

end Keys

/-! ## The machine -/

section Machine

variable {dataSize : Nat} {front : List Bytes} {b : Bytes} {r : Scan ReqState} {p t : Nat}
  {s : Reading}

theorem Follows.congr {chain chain' : List Bytes} {b' : Bytes} {r' : Scan ReqState} {p' : Nat}
    {s' : Reading} (follows : Follows chain b r p s)
    (scan : r'.type = r.type ∧ r'.keys = r.keys ∧ r'.narg = r.narg ∧ r'.rnarg = r.rnarg)
    (reading : s'.type = s.type ∧ s'.keys = s.keys ∧ s'.count = s.count ∧ s'.rnarg = s.rnarg)
    (opened : (∀ opened, s'.phase ≠ .count opened) → ∀ opened, s.phase ≠ .count opened)
    (keys : r.keys.map (KeyPos.bytesIn chain') = r.keys.map (KeyPos.bytesIn chain))
    (phase : AtPhase b' r' p' s') : Follows chain' b' r' p' s' := by
  obtain ⟨type, keyList, narg, rnarg⟩ := scan
  obtain ⟨type', keyList', count', rnarg'⟩ := reading
  refine ⟨?_, ?_, fun past => ?_, phase⟩
  · rw [type, type', follows.type]
  · rw [keyList, keyList', keys, follows.keys]
  · rw [narg, rnarg, count', rnarg']
    exact follows.narg (opened past)

theorem TokenText.extend {token : Option Nat} {text : Bytes} (y : Bytes)
    (marked : TokenText b token p text) : TokenText (b ++ y) token p text := by
  cases token with
  | none => exact marked
  | some t =>
    obtain ⟨before, inside, rfl⟩ := marked
    refine ⟨before, ?_, ?_⟩
    · rw [List.length_append]
      omega
    · rw [List.take_append_of_le_length inside]

/-- The buffer matters to a phase through the token only. -/
theorem AtPhase.moved {b' : Bytes} {p' : Nat} (atPhase : AtPhase b r p s) (type : r.type = s.type)
    (marked : TokenText b' r.token p' s.tokenText) : AtPhase b' r p' s := by
  unfold Reading.tokenText at marked
  cases phase : s.phase with
  | count opened =>
    cases opened <;> simp only [AtPhase, phase] at atPhase marked ⊢
    · exact atPhase
    · exact ⟨atPhase.1, marked, atPhase.2.2⟩
  | len slot opened =>
    cases opened <;> simp only [AtPhase, phase] at atPhase marked ⊢
    · exact atPhase
    · exact ⟨atPhase.1, atPhase.2.1, marked⟩
  | body slot =>
    simp only [AtPhase, phase] at atPhase marked ⊢
    obtain ⟨state, fits, rlen, token⟩ := atPhase
    refine ⟨state, fits, rlen, ?_⟩
    by_cases holds : holdsToken r.type slot = true
    · rw [← type] at marked
      simpa only [holds, if_true] using marked
    · simpa only [holds, Bool.false_eq_true, if_false] using token
  | countLf | lenLf slot | bodyLf slot =>
    simp only [AtPhase, phase] at atPhase ⊢
    exact atPhase

/-- The phase of a token that is read again from a fresh mbuf. -/
theorem AtPhase.cut {b' : Bytes} (atPhase : AtPhase b r p s) (token : r.token = some t) :
    AtPhase b' { r with token := none } 0 s.rewound := by
  unfold Reading.rewound
  cases phase : s.phase with
  | count opened =>
    cases opened <;> simp only [AtPhase, phase] at atPhase ⊢
    · simp [token] at atPhase
    · exact ⟨.inr atPhase.1, trivial, atPhase.2.2.2⟩
  | len slot opened =>
    cases opened <;> simp only [AtPhase, phase] at atPhase ⊢
    · simp [token] at atPhase
    · exact ⟨atPhase.1, trivial⟩
  | body slot =>
    simp only [AtPhase, phase] at atPhase
    obtain ⟨state, fits, rlen, marked⟩ := atPhase
    have holds : holdsToken r.type slot = true := by
      by_contra free
      simp [free, token] at marked
    cases slot with
    | reqType | key =>
      simp only [AtPhase]
      refine ⟨state, Nat.zero_le _, ?_, ?_⟩
      · simpa using rlen
      · simp [holds, TokenText]
    | arg2 =>
      have phase' : s.restarted.phase = .body .arg2 := phase
      simp only [AtPhase, phase']
      refine ⟨state, Nat.zero_le _, ?_, ?_⟩
      · rw [Reading.wordVal_restarted]
        simpa [Reading.restarted] using rlen
      · simp [holds, TokenText, Reading.restarted]
    | arg1 | arg3 | argn => simp [holdsToken] at holds
  | countLf | lenLf slot | bodyLf slot =>
    simp only [AtPhase, phase, token] at atPhase
    simp at atPhase

theorem Reading.rewound_same (s : Reading) :
    s.rewound.type = s.type ∧ s.rewound.keys = s.keys ∧ s.rewound.count = s.count ∧
      s.rewound.rnarg = s.rnarg := by
  unfold Reading.rewound
  split <;> simp_all [Reading.rnarg, Reading.restarted]

theorem Reading.rewound_opened (s : Reading)
    (past : ∀ opened, s.rewound.phase ≠ .count opened) : ∀ opened, s.phase ≠ .count opened := by
  intro opened phase
  cases opened <;> simp [Reading.rewound, phase] at past

theorem redisParseReqStep_simulatesKeys (dataSize : Nat) (front : List Bytes) (b : Bytes) :
    Simulates (Reading.reader dataSize).feed b (redisParseReqStep dataSize front.length b)
      (fun r p s => Follows (front ++ [b]) b r p s ∧ r.KeysBefore front b p)
      (fun r s => Finished (front ++ [b]) r s ∧ ∀ k ∈ r.keys, k.Inside (front ++ [b])) := by
  refine (redisParseReqStep_simulates dataSize (front ++ [b]) (by simp)).restrict ?_ ?_
  · exact fun follows before inside stepEq =>
      redisParseReqStep_keysBefore follows before inside stepEq
  · intro r p s q r' _ before _ stepEq k recorded
    rw [(redisParseReqStep_stop stepEq).2.1] at recorded
    exact (before k recorded).1

theorem Follows.start : Follows ([] ++ [[]]) [] { state := redisReqParser.start } 0 {} ∧
    ({ state := redisReqParser.start } : Scan ReqState).KeysBefore [] [] 0 := by
  refine ⟨⟨rfl, rfl, ?_, ⟨.inl rfl, rfl, rfl⟩⟩, ?_⟩
  · simp
  · simp [Scan.KeysBefore]

theorem Follows.extend (y : Bytes) (inside : p ≤ b.length)
    (rel : Follows (front ++ [b]) b r p s ∧ r.KeysBefore front b p) :
    Follows (front ++ [b ++ y]) (b ++ y) r p s ∧ r.KeysBefore front (b ++ y) p := by
  obtain ⟨follows, before⟩ := rel
  have marked := follows.tokenText
  have bound := marked.start.1.trans inside
  have bound' : r.token.getD p ≤ (b ++ y).length := by
    rw [List.length_append]
    omega
  obtain ⟨_, keys⟩ := before.moved [] bound' (List.take_append_of_le_length bound)
  refine ⟨follows.congr ⟨rfl, rfl, rfl, rfl⟩ ⟨rfl, rfl, rfl, rfl⟩ id keys ?_,
    before.extend y bound⟩
  exact follows.phase.moved follows.type (marked.extend y)

theorem Follows.fresh (inside : p ≤ b.length) (token : r.token = none)
    (rel : Follows (front ++ [b]) b r p s ∧ r.KeysBefore front b p) :
    Follows (front ++ [b] ++ [[]]) [] r 0 s ∧ r.KeysBefore (front ++ [b]) [] 0 := by
  obtain ⟨follows, before⟩ := rel
  have marked := follows.tokenText
  have bound := marked.start.1.trans inside
  obtain ⟨_, keys⟩ := before.moved [[]] bound rfl
  refine ⟨follows.congr ⟨rfl, rfl, rfl, rfl⟩ ⟨rfl, rfl, rfl, rfl⟩ id ?_ ?_,
    before.fresh rfl bound rfl⟩
  · rwa [List.append_assoc, List.singleton_append]
  · refine follows.phase.moved follows.type ?_
    rw [token] at marked ⊢
    exact marked

theorem Follows.cut (token : r.token = some t)
    (rel : Follows (front ++ [b]) b r b.length s ∧ r.KeysBefore front b b.length) :
    Follows (front ++ [b.take t] ++ [b.drop t]) (b.drop t)
        { r with token := none, state := redisReqParser.restart r.state } 0
        ((Reading.reader dataSize).rewound s) ∧
      ({ r with token := none, state := redisReqParser.restart r.state } :
        Scan ReqState).KeysBefore (front ++ [b.take t]) (b.drop t) 0 := by
  obtain ⟨follows, before⟩ := rel
  have marked := follows.tokenText
  have limit : r.token.getD b.length = t := by rw [token, Option.getD_some]
  have inside : t ≤ b.length := by
    rw [← limit]
    exact marked.start.1
  have bound : r.token.getD b.length ≤ (b.take t).length := by
    rw [limit, List.length_take]
    omega
  have same : (b.take t).take (r.token.getD b.length) = b.take (r.token.getD b.length) := by
    rw [limit, List.take_take, Nat.min_self]
  obtain ⟨_, keys⟩ := before.moved [b.drop t] bound same
  refine ⟨follows.congr ⟨rfl, rfl, rfl, rfl⟩ s.rewound_same s.rewound_opened ?_ ?_,
    before.fresh rfl bound same⟩
  · rwa [List.append_assoc, List.singleton_append]
  · exact follows.phase.cut token

theorem Follows.held_some (token : r.token = some t)
    (rel : Follows (front ++ [b]) b r b.length s ∧ r.KeysBefore front b b.length) :
    t < b.length ∧ (Reading.reader dataSize).held s = b.drop t := by
  have marked := rel.1.tokenText
  rw [token] at marked
  obtain ⟨before, _, text⟩ := marked
  refine ⟨before, ?_⟩
  rw [List.take_length] at text
  exact text

theorem Follows.held_none (token : r.token = none)
    (rel : Follows (front ++ [b]) b r b.length s ∧ r.KeysBefore front b b.length) :
    (Reading.reader dataSize).held s = [] := by
  have marked := rel.1.tokenText
  rw [token] at marked
  exact marked

theorem Finished.marked {chain : List Bytes} (state : ReqState) (token : Option Nat)
    (fin : Finished chain r s ∧ ∀ k ∈ r.keys, k.Inside chain) :
    Finished chain { r with state := state, token := token } s ∧
      ∀ k ∈ ({ r with state := state, token := token } : Scan ReqState).keys,
        k.Inside chain := by
  obtain ⟨⟨type, keys⟩, inside⟩ := fin
  exact ⟨⟨type, keys⟩, inside⟩

/-- The reader as the machine of the request parser. -/
def redisReqMachine (dataSize : Nat) : redisReqParser.Machine dataSize Reading where
  lawful := redisReqLawful dataSize
  reader := Reading.reader dataSize
  start := {}
  Rel front b r p s := Follows (front ++ [b]) b r p s ∧ r.KeysBefore front b p
  Fin chain r s := Finished chain r s ∧ ∀ k ∈ r.keys, k.Inside chain
  simulates := redisParseReqStep_simulatesKeys dataSize
  rel_start := Follows.start
  rel_extend := Follows.extend
  rel_fresh := Follows.fresh
  rel_cut := Follows.cut
  held_some := Follows.held_some
  held_none := Follows.held_none
  fin_finished := Finished.marked

end Machine

/-! ## The bound on keys -/

namespace Reading

variable {dataSize dataSize' : Nat} {s t : Reading} {ch : UInt8}

/-- A key of at least `n` bytes has been read or announced. -/
def LongKey (n : Nat) (s : Reading) : Prop :=
  (∃ k ∈ s.keys, n ≤ k.length) ∨
    (s.phase = .lenLf .key ∨ s.phase = .body .key) ∧ n ≤ wordVal s.num

theorem Fed.longKey {n : Nat} (fed : Fed dataSize s ch t) (long : LongKey n s) : LongKey n t := by
  unfold LongKey at *
  cases fed with
  | @textEnd slot phase full _ =>
    rcases long with ⟨k, recorded, long⟩ | ⟨key, long⟩
    · refine .inl ⟨k, ?_, long⟩
      simp only [close]
      split
      · exact List.mem_append_left _ recorded
      · exact recorded
    · have slotKey : slot = .key := by simpa [phase] using key
      refine .inl ⟨s.text, ?_, long.trans full⟩
      simp [close, slotKey]
  | _ => grind [push]

theorem LongKey.run_done {n : Nat} {xs rest : Bytes} (long : LongKey n s)
    (done : run (feed dataSize) s xs = .done t rest) : ∃ k ∈ t.keys, n ≤ k.length := by
  induction done using run_done_induction with
  | last fed =>
    obtain ⟨_, rfl, slot, phase, _⟩ := done_of_feed fed
    rcases long with recorded | ⟨key, _⟩
    · exact recorded
    · simp [phase] at key
  | more fed _ ih => exact ih ((fed_of_feed fed).longKey long)

/-- Data sizes matter to the reader where a key is longer than an mbuf. -/
theorem feed_dataSize (dataSize : Nat) (fed : feed dataSize' s ch = .more t) :
    feed dataSize s ch = .more t ∨ LongKey dataSize t := by
  cases fed_of_feed fed with
  | @numEnd slot phase accepted left =>
    by_cases fits : numRefused dataSize slot s.num = false
    · exact .inl (by simp [feed, phase, fits, left])
    · cases slot with
      | key => exact .inr (.inr ⟨.inl rfl, by simpa [numRefused] using fits⟩)
      | _ => exact absurd accepted fits
  | star phase | countLf phase | dollar phase | lenLf phase => exact .inl (by simp [feed, phase])
  | countDigit phase digit | numDigit phase digit => exact .inl (by simp [feed, phase, digit])
  | countEnd phase some_ => exact .inl (by simp [feed, phase, some_])
  | textByte phase room => exact .inl (by simp [feed, phase, room])
  | textEnd phase full valid =>
    exact .inl (by simp [feed, phase, Nat.not_lt.mpr full, valid])
  | bodyLf phase route => exact .inl (by simp [feed, phase, route])

/-- A request that is accepted with one data size is accepted with every other that
exceeds its keys. -/
theorem run_dataSize {xs rest : Bytes} (keys : ∀ k ∈ t.keys, k.length < dataSize)
    (done : run (feed dataSize') s xs = .done t rest) :
    run (feed dataSize) s xs = .done t rest := by
  induction done using run_done_induction with
  | @last s x fed =>
    obtain ⟨_, _, slot, phase, _⟩ := done_of_feed fed
    have same : feed dataSize s x = feed dataSize' s x := by simp only [feed, phase]
    rw [run_cons_done (same.trans fed)]
  | more fed done ih =>
    rcases feed_dataSize dataSize fed with same | long
    · rw [run_cons_more same, ih]
    · obtain ⟨k, recorded, long⟩ := long.run_done done
      exact absurd (keys k recorded) (Nat.not_lt.mpr long)

end Reading

/-! ## Requests that the driver receives -/

/-- The outcome is one completed message with this type, these keys and bytes. -/
def Receiver.Outcome.IsRequest (out : Receiver.Outcome) (type : MsgType) (keys : List Bytes)
    (bytes : Bytes) : Prop :=
  out.status ≠ .error ∧ out.tail = [] ∧
    ∃ o, out.completed = [o] ∧ o.type = type ∧ o.keys = keys ∧ o.bytes = bytes

/-- The lines of a request and its command name are shorter than an mbuf. -/
structure ShortLines (dataSize : Nat) (count : Bytes) (args : List (Bytes × Bytes)) : Prop where
  count : count.length + 1 < dataSize
  nums : ∀ arg ∈ args, arg.1.length + 1 < dataSize
  name : ∀ name ∈ args.head?, name.2.length < dataSize

section Driver

variable {dataSize dataSize' : Nat} {b count : Bytes} {args : List (Bytes × Bytes)} {t : Reading}

/-- A request that is accepted in mbufs is completed by the driver. -/
theorem readBytes_isRequest (positive : 0 < dataSize) {u : Nat} (nonzero : b.length % word32 ≠ 0)
    (done : run (Placed.feed dataSize) ⟨{}, [], 0⟩ b = .done ⟨t, [], u⟩ []) :
    (({} : Receiver ReqState).readBytes redisReqParser dataSize b).outcome.IsRequest t.type
      t.keys b := by
  obtain ⟨m, bytes, _, ⟨⟨type, keys⟩, _⟩, _, completed⟩ :=
    (redisReqMachine dataSize).readBytes_message positive nonzero done
  have read := completed []
  rw [List.append_nil] at read
  rw [read]
  split <;> exact ⟨by simp [Receiver.outcome, Receiver.after, Receiver.readBytes],
    by simp [Receiver.outcome, Receiver.after, Receiver.readBytes], Receiver.observed m,
    by simp [Receiver.outcome, Receiver.after, Receiver.readBytes], type, keys, bytes⟩

/-- A request that is refused in mbufs. -/
theorem readBytes_refused (positive : 0 < dataSize)
    (failed : run (Placed.feed dataSize) ⟨{}, [], 0⟩ b = .fail) :
    (({} : Receiver ReqState).readBytes redisReqParser dataSize b).status = .error := by
  have receives : (redisReqMachine dataSize).Receives {} ⟨{}, [], 0⟩ [] :=
    Parser.Machine.receives_new positive rfl rfl
  exact (receives.readBytes_fail failed).1

/-- The driver receives a request that is accepted in one piece exactly if its numkeys
argument is kept. -/
theorem outcome_isRequest_iff (reads : Reads b count args)
    (done : run (Reading.feed dataSize') {} b = .done t []) (short : ShortLines dataSize count args)
    (keys : ∀ k ∈ t.keys, k.length < dataSize) {pieces : List Bytes} (stream : pieces.flatten = b)
    (unwrapped : ParserKind.redisReq.Unwrapped dataSize pieces) :
    (ParserKind.redisReq.outcome dataSize pieces).IsRequest t.type t.keys b ↔
      Placed.NumKeysKept dataSize count args := by
  have positive : 0 < dataSize := Nat.lt_of_le_of_lt (Nat.zero_le _) short.count
  have outcome : ParserKind.redisReq.outcome dataSize pieces =
      (({} : Receiver ReqState).readBytes redisReqParser dataSize b).outcome := by
    rw [← stream]
    exact Receiver.receive_outcome (redisReqLawful dataSize) positive unwrapped
  rw [outcome]
  have done' := Reading.run_dataSize keys done
  have bytes := reads.bytes_eq
  obtain ⟨kept, cut⟩ := Placed.run_frame reads.digits short.count
    (fun arg member => ⟨reads.args arg member, short.nums arg member⟩) short.name
    (by rwa [← bytes])
  rw [← bytes] at kept cut
  constructor
  · intro request
    by_contra lost
    exact request.1 (readBytes_refused positive (cut lost))
  · intro numkeys
    obtain ⟨t', u, accepted, type, keys'⟩ := kept numkeys
    have nonzero : b.length % word32 ≠ 0 := by
      rw [← stream] at accepted ⊢
      exact (redisReqMachine dataSize).length_of_unwrapped positive unwrapped accepted
    rw [← type, ← keys']
    exact readBytes_isRequest positive nonzero accepted

end Driver

/-- A byte string that is accepted as exactly one request in one buffer has a reading.
Received in mbufs in which its lines, its name and its keys have space, by a connection on
which no length wraps around, it is accepted with the same type, keys and bytes exactly if
its numkeys argument is kept. -/
theorem redisParseReq_in_mbufs {dataSize dataSize' : Nat} {b : Bytes}
    (accepted : (redisParseReq dataSize' (.ofBuffer .start b 0)).result = .ok)
    (whole : (redisParseReq dataSize' (.ofBuffer .start b 0)).pos = b.length) :
    (∃ count args, Reads b count args) ∧
      ∀ count args, Reads b count args → ShortLines dataSize count args →
        (∀ k ∈ (redisParseReq dataSize' (.ofBuffer .start b 0)).keyList, k.length < dataSize) →
        ∀ pieces : List Bytes, pieces.flatten = b →
          ParserKind.redisReq.Unwrapped dataSize pieces →
          ((ParserKind.redisReq.outcome dataSize pieces).IsRequest
              (redisParseReq dataSize' (.ofBuffer .start b 0)).type
              (redisParseReq dataSize' (.ofBuffer .start b 0)).keyList b ↔
            Placed.NumKeysKept dataSize count args) := by
  obtain ⟨t, rest, done⟩ := (redisParseReq_ok_iff dataSize' b).mp accepted
  obtain ⟨_, pos, type, keys⟩ := redisParseReq_of_done dataSize' b done
  rw [whole] at pos
  obtain rfl : rest = [] := List.length_eq_zero_iff.mp (by omega)
  rw [List.drop_zero] at done
  have start : Reading.Sound {} := ⟨by simp, by simp, rfl, rfl⟩
  obtain ⟨used, same, bytes, framed⟩ := start.run_done done
  rw [List.append_nil] at same
  refine ⟨⟨t.count, t.args, ?_, framed.digits, framed.args⟩, ?_⟩
  · rw [bytes, same]
    rfl
  · intro count args reads short shortKeys pieces stream unwrapped
    rw [type, keys] at *
    exact outcome_isRequest_iff reads done short shortKeys stream unwrapped

/-- The arguments of `EVAL` with a script of `n` bytes, numkeys `1` and one key. -/
def evalArgs (n : Nat) : List (Bytes × Bytes) :=
  [([52], "EVAL".toList.map byteOf), (decimal n, List.replicate n (byteOf 'x')),
    ([49], [byteOf '1']), ([49], [byteOf 'k'])]

theorem reads_evalArgs {n : Nat} (bound : n < word32) :
    Reads (frame [52] (evalArgs n)) [52] (evalArgs n) := by
  refine ⟨rfl, by decide, ?_⟩
  simp only [evalArgs, List.forall_mem_cons, List.not_mem_nil, false_implies, implies_true,
    and_true]
  refine ⟨⟨by decide, by decide⟩, ⟨digits_decimal n, ?_⟩, ⟨by decide, by decide⟩,
    by decide, by decide⟩
  rw [wordVal_decimal bound, List.length_replicate]

/-- After a script of 436 bytes numkeys still fits into the first mbuf. -/
theorem redisParseReq_in_mbufs_eval :
    let b := frame [52] (evalArgs 436)
    (ParserKind.redisReq.outcome 464 [b]).IsRequest
      (redisParseReq 4096 (.ofBuffer .start b 0)).type
      (redisParseReq 4096 (.ofBuffer .start b 0)).keyList b := by
  intro b
  have short : ShortLines 464 [52] (evalArgs 436) := ⟨by decide, by decide, by decide⟩
  have accepted : (redisParseReq 4096 (.ofBuffer .start b 0)).result = .ok := by decide +kernel
  have whole : (redisParseReq 4096 (.ofBuffer .start b 0)).pos = b.length := by decide +kernel
  have keys : ∀ k ∈ (redisParseReq 4096 (.ofBuffer .start b 0)).keyList, k.length < 464 := by
    decide +kernel
  have unwrapped : ParserKind.redisReq.Unwrapped 464 [b] := by decide +kernel
  refine ((redisParseReq_in_mbufs accepted whole).2 [52] (evalArgs 436)
    (reads_evalArgs (by decide)) short keys [b] List.flatten_singleton unwrapped).mpr ?_
  rintro name script numkeys rest split eval
  rw [evalArgs, List.cons.injEq, List.cons.injEq, List.cons.injEq] at split
  obtain ⟨rfl, rfl, rfl, rfl⟩ := split
  exact .inl (by decide +kernel)

/-- After a script of 437 bytes the first mbuf ends between numkeys and its carriage
return, and the request is refused. -/
theorem redisParseReq_eval_refused :
    let b := frame [52] (evalArgs 437)
    (redisParseReq 4096 (.ofBuffer .start b 0)).result = .ok ∧
      (redisParseReq 4096 (.ofBuffer .start b 0)).pos = b.length ∧
      (redisParseReq 4096 (.ofBuffer .start b 0)).keyList = [[byteOf 'k']] ∧
      Reads b [52] (evalArgs 437) ∧ ShortLines 464 [52] (evalArgs 437) ∧
      ParserKind.redisReq.Unwrapped 464 [b] ∧
      (ParserKind.redisReq.outcome 464 [b]).status = .error := by
  intro b
  have short : ShortLines 464 [52] (evalArgs 437) := ⟨by decide, by decide, by decide⟩
  exact ⟨by decide +kernel, by decide +kernel, by decide +kernel, reads_evalArgs (by decide), short,
    by decide +kernel, by decide +kernel⟩

end Nutcracker
