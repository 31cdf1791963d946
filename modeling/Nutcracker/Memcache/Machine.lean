import Nutcracker.Memcache.RequestSimulation

/-!
# The memcache request parser on chains of mbufs

The reader with its tokens.  A token that is cut by the end of an mbuf is read again
from the start of the next one in the state it was cut in; only keys and plain numerals
come out the same.
-/

namespace Nutcracker

open Lib MsgType McReqState

section Keys

variable {front : List Bytes} {b : Bytes} {r r' : Scan McReqState} {p q : Nat}

/-- A key is recorded at the token that it ends, and nowhere else. -/
theorem memcacheParseReqStep_keys (stepEq : memcacheParseReqStep front.length b r p = .next q r') :
    r'.keys = r.keys ∨ r'.token = none ∧
      r'.keys = r.keys ++ [⟨⟨front.length, r.token.getD p⟩, ⟨front.length, p⟩⟩] := by
  unfold memcacheParseReqStep at stepEq
  generalize b.getD p 0 = ch at stepEq
  cases state : r.state
  all_goals
    simp only [state, mcReqStart, mcReqType, mcSpacesBeforeKey, mcKey, mcSpacesBeforeKeys,
      mcBeforeNumber, mcNumber, mcLastNumber, mcSpacesBeforeVlen, mcVlen, mcRuntoVal, mcLineEnd,
      mcRuntoCrlf, mcNoreply, mcAfterNoreply, mcCrlf, mcAlmostDone, skipVlen, passOver] at stepEq
    grind

theorem memcacheParseReqStep_keysBefore {s : McReading} (follows : McFollows (front ++ [b]) b r p s)
    (before : r.KeysBefore front b p) (inside : p < b.length)
    (stepEq : memcacheParseReqStep front.length b r p = .next q r') :
    r'.KeysBefore front b q := by
  have start := tokenStart_le follows.token
  have moves : p ≤ q ∧ (r'.token = r.token ∨ r'.token = none ∨ r'.token = some p) := by
    by_cases value : r.state = swVal
    · simp only [memcacheParseReqStep, value, skipVlen, passOver] at stepEq
      grind
    · have one : McReadsOne r p (memcacheParseReqStep front.length b r p) :=
        memcacheParseReqStep_readsOne follows.token value
      rw [stepEq] at one
      obtain ⟨position, marker, _⟩ := one
      exact ⟨by omega, by grind⟩
  have forward : r.token.getD p ≤ r'.token.getD q := by
    obtain ⟨later, same | gone | here⟩ := moves
    · rw [same]
      cases marker : r.token with
      | none => exact later
      | some t => exact Nat.le_refl t
    · rw [gone]
      exact start.trans later
    · rw [here]
      exact start
  rcases memcacheParseReqStep_keys stepEq with same | ⟨gone, recorded⟩
  · exact before.mono same forward
  · refine before.snoc recorded start inside.le ?_ forward
    rw [gone]
    exact moves.1

theorem memcacheParseReqStep_stop (stepEq : memcacheParseReqStep front.length b r p = .stop q r') :
    r' = r := by
  unfold memcacheParseReqStep at stepEq
  cases state : r.state
  all_goals
    simp only [state, mcReqStart, mcReqType, mcSpacesBeforeKey, mcKey, mcSpacesBeforeKeys,
      mcBeforeNumber, mcNumber, mcLastNumber, mcSpacesBeforeVlen, mcVlen, mcRuntoVal, mcLineEnd,
      mcRuntoCrlf, mcNoreply, mcAfterNoreply, mcCrlf, mcAlmostDone, skipVlen, passOver] at stepEq
    grind

end Keys

/-- The reader with the bytes of its token. -/
def McReading.reader : Reader McReading UInt8 where
  feed := McReading.feed
  held s := s.token.getD []
  rewound s := { s with token := none }

section Machine

variable {front : List Bytes} {b : Bytes} {r : Scan McReqState} {p t : Nat} {s : McReading}

theorem memcacheParseReqStep_simulatesKeys (front : List Bytes) (b : Bytes) :
    Simulates McReading.reader.feed b (memcacheParseReqStep front.length b)
      (fun r p s => McFollows (front ++ [b]) b r p s ∧ r.KeysBefore front b p)
      (fun r s => McFinished (front ++ [b]) r s ∧ ∀ k ∈ r.keys, k.Inside (front ++ [b])) := by
  refine (memcacheParseReqStep_simulates front b).restrict ?_ ?_
  · exact fun follows before inside stepEq =>
      memcacheParseReqStep_keysBefore follows before inside stepEq
  · intro r p s q r' _ before _ stepEq k recorded
    rw [memcacheParseReqStep_stop stepEq] at recorded
    exact (before k recorded).1

theorem McFollows.start : McFollows ([] ++ [[]]) [] { state := memcacheReqParser.start } 0 {} ∧
    ({ state := memcacheReqParser.start } : Scan McReqState).KeysBefore [] [] 0 := by
  refine ⟨⟨Nat.le_refl _, ?_, rfl⟩, ?_⟩
  · intro t token
    cases token
  · simp [Scan.KeysBefore]

theorem McFollows.extend (y : Bytes) (_ : p ≤ b.length)
    (rel : McFollows (front ++ [b]) b r p s ∧ r.KeysBefore front b p) :
    McFollows (front ++ [b ++ y]) (b ++ y) r p s ∧ r.KeysBefore front (b ++ y) p := by
  obtain ⟨⟨inside, before, rfl⟩, keysBefore⟩ := rel
  have bound := (tokenStart_le before).trans inside
  have bound' : r.token.getD p ≤ (b ++ y).length := by
    rw [List.length_append]
    omega
  obtain ⟨_, keys⟩ := keysBefore.moved [] bound' (List.take_append_of_le_length bound)
  refine ⟨⟨?_, before, ?_⟩, keysBefore.extend y bound⟩
  · rw [List.length_append]
    omega
  · rw [McReading.ofScan, McReading.ofScan, keys]
    congr 1
    cases r.token with
    | none => rfl
    | some t => simp [textAt_extend inside]

theorem McFollows.fresh (inside : p ≤ b.length) (token : r.token = none)
    (rel : McFollows (front ++ [b]) b r p s ∧ r.KeysBefore front b p) :
    McFollows (front ++ [b] ++ [[]]) [] r 0 s ∧ r.KeysBefore (front ++ [b]) [] 0 := by
  obtain ⟨⟨_, before, rfl⟩, keysBefore⟩ := rel
  have bound := (tokenStart_le before).trans inside
  obtain ⟨_, keys⟩ := keysBefore.moved [[]] bound rfl
  refine ⟨⟨Nat.le_refl _, by simp [token], ?_⟩, keysBefore.fresh rfl bound rfl⟩
  rw [McReading.ofScan, McReading.ofScan, List.append_assoc, List.singleton_append, keys, token]
  rfl

theorem McFollows.cut (token : r.token = some t)
    (rel : McFollows (front ++ [b]) b r b.length s ∧ r.KeysBefore front b b.length) :
    McFollows (front ++ [b.take t] ++ [b.drop t]) (b.drop t)
        { r with token := none, state := memcacheReqParser.restart r.state } 0
        (McReading.reader.rewound s) ∧
      ({ r with token := none, state := memcacheReqParser.restart r.state } :
        Scan McReqState).KeysBefore (front ++ [b.take t]) (b.drop t) 0 := by
  obtain ⟨⟨_, before, rfl⟩, keysBefore⟩ := rel
  have limit : r.token.getD b.length = t := by rw [token, Option.getD_some]
  have inside := (before t token).1
  have bound : r.token.getD b.length ≤ (b.take t).length := by
    rw [limit, List.length_take]
    omega
  have same : (b.take t).take (r.token.getD b.length) = b.take (r.token.getD b.length) := by
    rw [limit, List.take_take, Nat.min_self]
  obtain ⟨_, keys⟩ := keysBefore.moved [b.drop t] bound same
  refine ⟨⟨Nat.zero_le _, by simp, ?_⟩, keysBefore.fresh rfl bound same⟩
  rw [McReading.ofScan, McReading.ofScan, List.append_assoc, List.singleton_append, keys]
  rfl

theorem McFollows.held_some (token : r.token = some t)
    (rel : McFollows (front ++ [b]) b r b.length s ∧ r.KeysBefore front b b.length) :
    t < b.length ∧ McReading.reader.held s = b.drop t := by
  obtain ⟨⟨_, before, rfl⟩, _⟩ := rel
  refine ⟨(before t token).1, ?_⟩
  simp [McReading.reader, McReading.ofScan, token, textAt]

theorem McFollows.held_none (token : r.token = none)
    (rel : McFollows (front ++ [b]) b r b.length s ∧ r.KeysBefore front b b.length) :
    McReading.reader.held s = [] := by
  obtain ⟨⟨_, _, rfl⟩, _⟩ := rel
  simp [McReading.reader, McReading.ofScan, token]

theorem McFinished.marked {chain : List Bytes} (state : McReqState) (token : Option Nat)
    (fin : McFinished chain r s ∧ ∀ k ∈ r.keys, k.Inside chain) :
    McFinished chain { r with state := state, token := token } s ∧
      ∀ k ∈ ({ r with state := state, token := token } : Scan McReqState).keys,
        k.Inside chain := by
  obtain ⟨⟨type, keys, quit, noreply⟩, inside⟩ := fin
  exact ⟨⟨type, keys, quit, noreply⟩, inside⟩

end Machine

/-- The reader as the machine of the request parser. -/
def memcacheReqMachine (dataSize : Nat) : memcacheReqParser.Machine dataSize McReading where
  lawful := memcacheReqLawful dataSize
  reader := McReading.reader
  start := {}
  Rel front b r p s := McFollows (front ++ [b]) b r p s ∧ r.KeysBefore front b p
  Fin chain r s := McFinished chain r s ∧ ∀ k ∈ r.keys, k.Inside chain
  simulates := memcacheParseReqStep_simulatesKeys
  rel_start := McFollows.start
  rel_extend := McFollows.extend
  rel_fresh := McFollows.fresh
  rel_cut := McFollows.cut
  held_some := McFollows.held_some
  held_none := McFollows.held_none
  fin_finished := McFinished.marked

end Nutcracker
