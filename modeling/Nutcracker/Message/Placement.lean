import Nutcracker.Lib.Paging
import Nutcracker.Message.Segmentation

/-!
# Messages in mbufs

A parser that implements a byte machine with tokens is run by the receive driver on a
stream, one byte for each read.  The mbufs are the pages of the machine: the message
under construction follows the machine that reads pages, whatever mbufs have been
filled, tokens moved and bytes read again on the way.
-/

namespace Nutcracker

open Lib

variable {σ : Type} {τ : Type} {P : Parser σ} {dataSize : Nat}

/-! ## Recorded keys -/

/-- The key lies in one mbuf of the chain. -/
structure KeyPos.Inside (chain : List Bytes) (k : KeyPos) : Prop where
  same : k.stop.mbuf = k.start.mbuf
  mbuf : k.start.mbuf < chain.length
  order : k.start.off ≤ k.stop.off
  off : k.stop.off ≤ (chain.getD k.start.mbuf []).length

/-- A change to the last mbuf of a chain beyond the end of a key, and mbufs behind it,
do not affect the key. -/
theorem KeyPos.Inside.moved {front rest : List Bytes} {b b' : Bytes} {k : KeyPos} {limit : Nat}
    (inside : k.Inside (front ++ [b])) (ends : k.start.mbuf = front.length → k.stop.off ≤ limit)
    (bound : limit ≤ b'.length) (same : b'.take limit = b.take limit) :
    k.Inside (front ++ b' :: rest) ∧
      k.bytesIn (front ++ b' :: rest) = k.bytesIn (front ++ [b]) := by
  have mbuf := inside.mbuf
  rw [List.length_append, List.length_singleton] at mbuf
  by_cases earlier : k.start.mbuf < front.length
  · have off := inside.off
    rw [List.getD_append _ _ _ _ earlier] at off
    refine ⟨⟨inside.same, ?_, inside.order, ?_⟩, ?_⟩
    · rw [List.length_append]
      omega
    · rwa [List.getD_append _ _ _ _ earlier]
    · rw [bytesIn, bytesIn, List.getD_append _ _ _ _ earlier, List.getD_append _ _ _ _ earlier]
  · have last : k.start.mbuf = front.length := by omega
    have here : (front ++ b' :: rest).getD k.start.mbuf [] = b' := by simp [last]
    have there : (front ++ [b]).getD k.start.mbuf [] = b := by simp [last]
    have short := ends last
    refine ⟨⟨inside.same, ?_, inside.order, ?_⟩, ?_⟩
    · simp [last]
    · rw [here]
      exact short.trans bound
    · have same' := congrArg (List.take k.stop.off) same
      rw [List.take_take, List.take_take, Nat.min_eq_left short] at same'
      rw [bytesIn, bytesIn, here, there, same']

/-- The recorded keys lie in the chain, in the last mbuf before the token. -/
def Scan.KeysBefore (front : List Bytes) (b : Bytes) (r : Scan σ) (p : Nat) : Prop :=
  ∀ k ∈ r.keys, k.Inside (front ++ [b]) ∧
    (k.start.mbuf = front.length → k.stop.off ≤ r.token.getD p)

section KeysBefore

variable {front : List Bytes} {b : Bytes} {r r' : Scan σ} {p q : Nat}

theorem Scan.KeysBefore.mono (before : r.KeysBefore front b p) (keys : r'.keys = r.keys)
    (forward : r.token.getD p ≤ r'.token.getD q) : r'.KeysBefore front b q := by
  intro k recorded
  rw [keys] at recorded
  obtain ⟨inside, ends⟩ := before k recorded
  exact ⟨inside, fun last => (ends last).trans forward⟩

theorem Scan.KeysBefore.snoc (before : r.KeysBefore front b p) {t m : Nat}
    (keys : r'.keys = r.keys ++ [⟨⟨front.length, t⟩, ⟨front.length, m⟩⟩]) (order : t ≤ m)
    (inside : m ≤ b.length) (after : m ≤ r'.token.getD q)
    (forward : r.token.getD p ≤ r'.token.getD q) : r'.KeysBefore front b q := by
  intro k recorded
  rw [keys, List.mem_append, List.mem_singleton] at recorded
  rcases recorded with earlier | rfl
  · obtain ⟨placed, ends⟩ := before k earlier
    exact ⟨placed, fun last => (ends last).trans forward⟩
  · exact ⟨⟨rfl, by simp, order, by simpa using inside⟩, fun _ => after⟩

/-- The keys of a chain whose last mbuf is changed behind the token. -/
theorem Scan.KeysBefore.moved (before : r.KeysBefore front b p) (rest : List Bytes) {b' : Bytes}
    (bound : r.token.getD p ≤ b'.length)
    (same : b'.take (r.token.getD p) = b.take (r.token.getD p)) :
    (∀ k ∈ r.keys, k.Inside (front ++ b' :: rest)) ∧
      r.keys.map (KeyPos.bytesIn (front ++ b' :: rest)) =
        r.keys.map (KeyPos.bytesIn (front ++ [b])) := by
  constructor
  · intro k recorded
    obtain ⟨inside, ends⟩ := before k recorded
    exact (inside.moved ends bound same).1
  · refine List.map_congr_left fun k recorded => ?_
    obtain ⟨inside, ends⟩ := before k recorded
    exact (inside.moved ends bound same).2

theorem Scan.KeysBefore.extend (before : r.KeysBefore front b p) (y : Bytes)
    (bound : r.token.getD p ≤ b.length) : r.KeysBefore front (b ++ y) p := by
  have same : (b ++ y).take (r.token.getD p) = b.take (r.token.getD p) :=
    List.take_append_of_le_length bound
  have bound' : r.token.getD p ≤ (b ++ y).length := by
    rw [List.length_append]
    omega
  obtain ⟨inside, _⟩ := before.moved [] bound' same
  exact fun k recorded => ⟨inside k recorded, (before k recorded).2⟩

/-- The message goes on in a fresh mbuf, to which the bytes from the token on are moved. -/
theorem Scan.KeysBefore.fresh (before : r.KeysBefore front b p) {b' y : Bytes}
    (keys : r'.keys = r.keys) (bound : r.token.getD p ≤ b'.length)
    (same : b'.take (r.token.getD p) = b.take (r.token.getD p)) :
    r'.KeysBefore (front ++ [b']) y q := by
  obtain ⟨inside, _⟩ := before.moved [y] bound same
  intro k recorded
  rw [keys] at recorded
  rw [List.append_assoc, List.singleton_append]
  refine ⟨inside k recorded, fun last => ?_⟩
  have earlier := (before k recorded).1.mbuf
  simp only [List.length_append, List.length_singleton] at last earlier
  omega

end KeysBefore

/-! ## Machines -/

/-- The byte machine that a parser implements.  `Rel` relates the machine to the parser
at an offset of the last mbuf of a chain, `Fin` to a finished message.  The laws say
what remains true when bytes are added to the mbuf, when a fresh mbuf is appended, and
when a token is moved to a fresh mbuf. -/
structure Parser.Machine (P : Parser σ) (dataSize : Nat) (τ : Type) where
  lawful : P.Lawful dataSize
  reader : Reader τ UInt8
  start : τ
  Rel : List Bytes → Bytes → Scan σ → Nat → τ → Prop
  Fin : List Bytes → Scan σ → τ → Prop
  simulates : ∀ front b, Simulates reader.feed b (P.step dataSize front.length b) (Rel front b)
    (Fin (front ++ [b]))
  rel_start : Rel [] [] { state := P.start } 0 start
  rel_extend : ∀ {front b r p s} (y : Bytes), p ≤ b.length → Rel front b r p s →
    Rel front (b ++ y) r p s
  rel_fresh : ∀ {front b r p s}, p ≤ b.length → r.token = none → Rel front b r p s →
    Rel (front ++ [b]) [] r 0 s
  rel_cut : ∀ {front b r t s}, r.token = some t → Rel front b r b.length s →
    Rel (front ++ [b.take t]) (b.drop t) { r with token := none, state := P.restart r.state } 0
      (reader.rewound s)
  held_some : ∀ {front b r t s}, r.token = some t → Rel front b r b.length s →
    t < b.length ∧ reader.held s = b.drop t
  held_none : ∀ {front b r s}, r.token = none → Rel front b r b.length s → reader.held s = []
  fin_finished : ∀ {chain r t} (state : σ) (token : Option Nat), Fin chain r t →
    Fin chain { r with state := state, token := token } t

namespace Parser.Machine

variable (M : P.Machine dataSize τ)

/-- When some of the bytes had been read, a page of the machine started behind `x`. -/
def Break (fed x : Bytes) : Prop :=
  ∃ y post d, fed = x ++ y ++ post ∧
    run (M.reader.place dataSize) ⟨M.start, [], 0⟩ (x ++ y) = .pending d ∧ y.length = d.used

/-- The message has been received as the machine says; its bytes are `fed`. -/
structure Holds (m : Msg σ) (d : Placed τ UInt8) (fed : Bytes) : Prop where
  reached : run (M.reader.place dataSize) ⟨M.start, [], 0⟩ fed = .pending d
  chain : ∃ front b, m.mhdr = front ++ [b] ∧ b.length = d.used ∧ b.drop m.pos = d.again ∧
    M.Rel front b m.toScan m.pos d.reading ∧
    ∀ front', front' <+: front → M.Break fed front'.flatten
  inside : m.pos ≤ m.lastBuf.length
  space : d.used < dataSize
  bytes : m.bytes = fed
  mlen : m.mlen = fed.length % word32

variable {M} {m : Msg σ} {d : Placed τ UInt8} {fed : Bytes}

theorem lastBuf_of_mhdr {front : List Bytes} {b : Bytes} (chain : m.mhdr = front ++ [b]) :
    m.lastBuf = b := by
  simp [Msg.lastBuf, chain]

theorem bytes_append (nonempty : m.mhdr ≠ []) (x : Bytes) : (m.append x).bytes = m.bytes ++ x := by
  obtain ⟨front, b, chain⟩ := List.eq_nil_or_concat m.mhdr |>.resolve_left nonempty
  rw [List.concat_eq_append] at chain
  simp [Msg.bytes, Msg.append, Msg.lastBuf, chain]

theorem Break.append {x : Bytes} (starts : M.Break fed x) (z : Bytes) : M.Break (fed ++ z) x := by
  obtain ⟨y, post, d, split, reached, length⟩ := starts
  exact ⟨y, post ++ z, d, by rw [split, List.append_assoc], reached, length⟩

/-- The pages of a chain to which a page is added. -/
theorem breaks_concat {front : List Bytes} {b : Bytes}
    (breaks : ∀ front', front' <+: front → M.Break fed front'.flatten)
    (last : M.Break fed (front ++ [b]).flatten) :
    ∀ front', front' <+: front ++ [b] → M.Break fed front'.flatten := by
  intro front' begins
  rcases List.prefix_concat_iff.mp begins with rfl | begins
  · exact last
  · exact breaks front' begins

/-- A message that waits for the next byte, with space for it. -/
theorem holds_prepare (positive : 0 < dataSize) {r : Msg σ} {front : List Bytes} {b : Bytes}
    {s : τ} (chain : r.mhdr = front ++ [b]) (inside : r.pos ≤ b.length)
    (rel : M.Rel front b r.toScan r.pos s) (fits : b.length ≤ dataSize)
    (free : b.length = dataSize → r.token = none) (bytes : r.bytes = fed)
    (mlen : r.mlen = fed.length % word32)
    (breaks : ∀ front', front' <+: front → M.Break fed front'.flatten)
    (reached : run (M.reader.place dataSize) ⟨M.start, [], 0⟩ fed = .pending
      (if b.length < dataSize then ⟨s, b.drop r.pos, b.length⟩ else ⟨s, [], 0⟩)) :
    M.Holds (r.prepare dataSize)
      (if b.length < dataSize then ⟨s, b.drop r.pos, b.length⟩ else ⟨s, [], 0⟩) fed := by
  have lastBuf := lastBuf_of_mhdr chain
  by_cases space : b.length < dataSize
  · rw [if_pos space, Msg.prepare_of_space (by simp [chain]) (by rwa [lastBuf])]
    rw [if_pos space] at reached
    exact ⟨reached, ⟨front, b, chain, rfl, rfl, rel, breaks⟩, by rwa [lastBuf], space, bytes, mlen⟩
  · have full : b.length = dataSize := by omega
    have prepared : r.prepare dataSize = { r with mhdr := r.mhdr ++ [[]], pos := 0 } := by
      simp [Msg.prepare, lastBuf, full]
    rw [if_neg space] at reached ⊢
    rw [prepared]
    have whole : (front ++ [b]).flatten = fed := by
      rw [← bytes, Msg.bytes, chain]
    refine ⟨reached, ⟨front ++ [b], [], by simp [chain], rfl, rfl, ?_, ?_⟩, Nat.zero_le _, positive,
      ?_, mlen⟩
    · exact M.rel_fresh inside (free full) rel
    · exact breaks_concat breaks ⟨[], [], _, by simp [whole], by rwa [whole, List.append_nil], rfl⟩
    · rw [← bytes]
      simp [Msg.bytes]

variable (M) in
/-- The connection receives a message as the machine says. -/
structure Receives (conn : Receiver σ) (d : Placed τ UInt8) (fed : Bytes) : Prop where
  live : conn.status = .live
  sound : conn.Sound M.lawful
  holds : M.Holds (conn.current P dataSize) d fed

variable {conn : Receiver σ} {ch : UInt8}

theorem receives_new (positive : 0 < dataSize) (fresh : conn.rmsg = none)
    (live : conn.status = .live) : M.Receives conn ⟨M.start, [], 0⟩ [] := by
  have sound : conn.Sound M.lawful := by
    intro m under
    rw [fresh] at under
    cases under
  refine ⟨live, sound, ?_⟩
  rw [Receiver.current, fresh, Option.getD_none, Msg.prepare_fresh]
  refine ⟨run_nil, ⟨[], [], rfl, rfl, rfl, M.rel_start, ?_⟩, Nat.zero_le _, positive, rfl, rfl⟩
  intro front' begins
  obtain rfl := List.prefix_nil.mp begins
  exact ⟨[], [], _, rfl, run_nil, rfl⟩

/-- The loop of the parser over the message with one more byte. -/
theorem Receives.loops (receives : M.Receives conn d fed) (ch : UInt8) :
    ∃ front b out, (conn.current P dataSize).mhdr = front ++ [b] ∧ b.length = d.used ∧
      (b ++ [ch]).drop (conn.current P dataSize).pos = d.again ++ [ch] ∧
      M.lawful.Parsable ((conn.current P dataSize).append [ch]) ∧
      P.Loops dataSize ((conn.current P dataSize).append [ch]) out ∧
      Agrees M.reader.feed (b ++ [ch]) (M.Rel front (b ++ [ch])) (M.Fin (front ++ [b ++ [ch]]))
        d.reading (conn.current P dataSize).pos out ∧
      ∀ front', front' <+: front → M.Break (fed ++ [ch]) front'.flatten := by
  obtain ⟨front, b, chain, used, again, rel, breaks⟩ := receives.holds.chain
  have lastBuf := lastBuf_of_mhdr chain
  have inside := receives.holds.inside
  rw [lastBuf] at inside
  have unread : (b ++ [ch]).drop (conn.current P dataSize).pos = d.again ++ [ch] := by
    rw [List.drop_append_of_le_length inside, again]
  have space := receives.holds.space
  have positive : 0 < dataSize := by omega
  have parsable := (Receiver.current_parsable positive receives.sound).1.append (x := [ch]) (by
    rw [lastBuf, used]
    exact space)
  obtain ⟨out, loops, _⟩ := M.lawful.exists_loops parsable.good
  refine ⟨front, b, out, chain, used, unread, parsable, loops, ?_,
    fun front' begins => (breaks front' begins).append [ch]⟩
  have index : ((conn.current P dataSize).append [ch]).mhdr.length - 1 = front.length := by
    rw [Msg.length_mhdr_append (by simp [chain]), chain]
    simp
  unfold Loops at loops
  rw [index, Msg.lastBuf_append, lastBuf] at loops
  exact (M.simulates front (b ++ [ch])).agrees (M.rel_extend [ch] inside rel) loops

theorem mlen_append (holds : M.Holds m d fed) (ch : UInt8) :
    (m.append [ch]).mlen = (fed ++ [ch]).length % word32 := by
  change add32 m.mlen 1 = _
  rw [holds.mlen, add32, Nat.mod_add_mod, List.length_append, List.length_singleton]

/-- The byte leaves the message under construction. -/
theorem Receives.read_more {d' : Placed τ UInt8} (receives : M.Receives conn d fed)
    (placed : M.reader.place dataSize d ch = .more d') :
    M.Receives (conn.read P dataSize [ch]) d' (fed ++ [ch]) ∧
      (conn.read P dataSize [ch]).completed = conn.completed := by
  obtain ⟨front, b, out, chain, used, unread, parsable, loops, agrees, breaks⟩ := receives.loops ch
  have live := receives.live
  have reached : run (M.reader.place dataSize) ⟨M.start, [], 0⟩ (fed ++ [ch]) = .pending d' := by
    rw [run_append_of_pending receives.holds.reached, run_cons_more placed, run_nil]
  have space := receives.holds.space
  have positive : 0 < dataSize := by omega
  have bytes : ((conn.current P dataSize).append [ch]).bytes = fed ++ [ch] := by
    rw [bytes_append (by simp [chain]), receives.holds.bytes]
  have mlen := mlen_append receives.holds ch
  have mhdr : ((conn.current P dataSize).append [ch]).mhdr = front ++ [b ++ [ch]] := by
    simp [Msg.append, chain, lastBuf_of_mhdr chain]
  have sound : (conn.read P dataSize [ch]).Sound M.lawful := by
    refine Receiver.read_sound positive receives.sound ?_
    rw [lastBuf_of_mhdr chain, used]
    exact space
  rw [Receiver.read, if_pos live] at sound ⊢
  generalize (conn.current P dataSize).append [ch] = m' at *
  have lastBuf : m'.lastBuf = b ++ [ch] := lastBuf_of_mhdr mhdr
  cases out with
  | next q s =>
    obtain ⟨t, rel, pending⟩ := agrees
    obtain ⟨rfl, _⟩ := M.lawful.loops_next parsable loops
    rw [lastBuf] at rel
    rw [unread] at pending
    rw [Reader.place_of_pending pending] at placed
    obtain rfl := Verdict.more.inj placed
    have size : (b ++ [ch]).length = d.used + 1 := by simp [used]
    by_cases cut : (b ++ [ch]).length = dataSize ∧ s.token ≠ none
    · obtain ⟨full, held⟩ := cut
      obtain ⟨t0, token⟩ := Option.ne_none_iff_exists'.mp held
      obtain ⟨before, text⟩ := M.held_some token rel
      have repaired := M.lawful.msgParseBytes_repair parsable loops (by rw [lastBuf, full]) token
      rw [conn.parseAll_pending repaired] at sound ⊢
      refine ⟨⟨live, sound, ?_⟩, rfl⟩
      have nonempty : (b ++ [ch]).drop t0 ≠ [] := by
        rw [ne_eq, List.drop_eq_nil_iff]
        omega
      have flat : (front ++ [(b ++ [ch]).take t0] ++ [(b ++ [ch]).drop t0]).flatten =
          (front ++ [b ++ [ch]]).flatten := by
        simp only [List.flatten_append, List.flatten_singleton, List.append_assoc,
          List.take_append_drop]
      rw [Reader.settle_cut (by omega) text nonempty rfl]
      have moved : m'.mhdr.dropLast ++ [m'.lastBuf.take t0] ++ [m'.lastBuf.drop t0] =
          front ++ [(b ++ [ch]).take t0] ++ [(b ++ [ch]).drop t0] := by
        rw [mhdr, lastBuf, List.dropLast_concat]
      rw [Reader.settle_cut (by omega) text nonempty rfl] at reached
      refine holds_prepare positive moved (Nat.zero_le _) (M.rel_cut token rel) ?_
        (fun _ => rfl) ?_ mlen ?_ reached
      · rw [List.length_drop]
        omega
      · have whole : m'.bytes =
            (m'.mhdr.dropLast ++ [m'.lastBuf.take t0] ++ [m'.lastBuf.drop t0]).flatten := by
          rw [moved, flat, Msg.bytes, mhdr]
        exact whole.symm.trans bytes
      · refine breaks_concat breaks ?_
        by_cases fits : ((b ++ [ch]).drop t0).length < dataSize
        · rw [if_pos fits] at reached
          have split : fed ++ [ch] =
              (front ++ [(b ++ [ch]).take t0]).flatten ++ (b ++ [ch]).drop t0 := by
            rw [← bytes, Msg.bytes, mhdr, ← flat, List.flatten_append, List.flatten_singleton]
          rw [split] at reached ⊢
          exact ⟨_, [], _, (List.append_nil _).symm, reached, rfl⟩
        · -- the token fills the mbuf, which is moved as a whole
          have start : t0 = 0 := by
            rw [List.length_drop] at fits
            omega
          have same : (front ++ [(b ++ [ch]).take t0]).flatten = front.flatten := by
            simp [start]
          rw [same]
          exact breaks front (List.prefix_refl front)
    · have free : (b ++ [ch]).length = dataSize → s.token = none := by
        intro full
        by_contra held
        exact cut ⟨full, held⟩
      have suspended := M.lawful.msgParseBytes_next parsable loops (by rwa [lastBuf])
      rw [conn.parseAll_pending suspended] at sound ⊢
      refine ⟨⟨live, sound, ?_⟩, rfl⟩
      have settled : M.reader.settle dataSize t (d.used + 1) =
          if (b ++ [ch]).length < dataSize then
            ⟨t, (b ++ [ch]).drop m'.lastBuf.length, (b ++ [ch]).length⟩
          else ⟨t, [], 0⟩ := by
        rw [lastBuf, List.drop_length, size]
        split
        · rename_i room
          exact Reader.settle_space t room
        · have none_ := M.held_none (free (by omega)) rel
          rw [Reader.settle_free none_ (by omega) positive]
          congr 1
          have full : d.used + 1 = dataSize := by omega
          rw [full, Nat.mod_self]
      rw [settled] at reached ⊢
      refine holds_prepare (r := Parser.Lawful.suspended m' s) positive mhdr ?_ ?_ ?_ free bytes
        mlen breaks reached
      · exact (congrArg List.length lastBuf).le
      · rw [← lastBuf] at rel ⊢
        exact rel
      · omega
  | stop q s =>
    obtain ⟨t, _, _, done⟩ := agrees
    rw [unread] at done
    simp [Reader.place, done] at placed
  | fail =>
    change run _ _ _ = .fail at agrees
    rw [unread] at agrees
    simp [Reader.place, agrees] at placed

/-- The byte completes the message. -/
theorem Receives.read_done {t : τ} {u : Nat} (receives : M.Receives conn d fed)
    (placed : M.reader.place dataSize d ch = .done ⟨t, [], u⟩) :
    ∃ m, conn.read P dataSize [ch] = conn.recvDone m none ∧ m.bytes = fed ++ [ch] ∧
      m.mlen = (fed ++ [ch]).length % word32 ∧ M.Fin m.mhdr m.toScan t ∧
      ∀ front', front' <+: m.mhdr.dropLast → M.Break (fed ++ [ch]) front'.flatten := by
  obtain ⟨front, b, out, chain, used, unread, parsable, loops, agrees, breaks⟩ := receives.loops ch
  have bytes : ((conn.current P dataSize).append [ch]).bytes = fed ++ [ch] := by
    rw [bytes_append (by simp [chain]), receives.holds.bytes]
  have mlen := mlen_append receives.holds ch
  have mhdr : ((conn.current P dataSize).append [ch]).mhdr = front ++ [b ++ [ch]] := by
    simp [Msg.append, chain, lastBuf_of_mhdr chain]
  rw [Receiver.read, if_pos receives.live]
  generalize (conn.current P dataSize).append [ch] = m' at *
  have lastBuf : m'.lastBuf = b ++ [ch] := lastBuf_of_mhdr mhdr
  cases out with
  | next q s =>
    obtain ⟨t, rel, pending⟩ := agrees
    rw [unread] at pending
    simp [Reader.place, pending] at placed
  | stop q s =>
    obtain ⟨t', fin, inside, done⟩ := agrees
    rw [unread] at done
    simp only [Reader.place, done, Verdict.done.injEq, Placed.mk.injEq] at placed
    obtain ⟨rfl, rest, _⟩ := placed
    have last : q + 1 = m'.lastBuf.length := by
      rw [lastBuf]
      rw [List.drop_eq_nil_iff] at rest
      omega
    have completed := M.lawful.msgParseBytes_stop parsable loops
    rw [Parser.Lawful.rest, if_pos (by rw [lastBuf]; exact rest)] at completed
    have whole : (Parser.Lawful.finished P m' q s).mhdr = m'.mhdr := by
      change m'.mhdr.dropLast ++ [m'.lastBuf.take (q + 1)] = m'.mhdr
      rw [last, List.take_length, lastBuf, mhdr, List.dropLast_concat]
    refine ⟨_, conn.parseAll_exact completed, ?_, ?_, ?_, ?_⟩
    · rw [Msg.bytes, whole]
      exact bytes
    · change sub32 m'.mlen (m'.lastBuf.drop (q + 1)).length = _
      rw [last, List.drop_length, List.length_nil, sub32_zero parsable.mlen, mlen]
    · rw [whole, mhdr]
      exact M.fin_finished _ _ fin
    · rwa [whole, mhdr, List.dropLast_concat]
  | fail =>
    change run _ _ _ = .fail at agrees
    rw [unread] at agrees
    simp [Reader.place, agrees] at placed

/-- The byte is refused. -/
theorem Receives.read_fail (receives : M.Receives conn d fed)
    (placed : M.reader.place dataSize d ch = .fail) :
    conn.read P dataSize [ch] = { conn with rmsg := none, status := .error } := by
  obtain ⟨front, b, out, chain, used, unread, parsable, loops, agrees, breaks⟩ := receives.loops ch
  rw [Receiver.read, if_pos receives.live]
  cases out with
  | next q s =>
    obtain ⟨t, rel, pending⟩ := agrees
    rw [unread] at pending
    simp [Reader.place, pending] at placed
  | stop q s =>
    obtain ⟨t', fin, inside, done⟩ := agrees
    rw [unread] at done
    simp [Reader.place, done] at placed
  | fail => exact conn.parseAll_failed (M.lawful.msgParseBytes_fail parsable loops)

/-! ## Runs -/

variable {xs : Bytes}

/-- The last of the bytes completes the message. -/
theorem Receives.readBytes_done {t : τ} {u : Nat} (receives : M.Receives conn d fed)
    (placed : run (M.reader.place dataSize) d xs = .done ⟨t, [], u⟩ []) :
    ∃ (conn' : Receiver σ) (m : Msg σ), conn'.completed = conn.completed ∧ conn'.status = .live ∧
      conn.readBytes P dataSize xs = conn'.recvDone m none ∧ m.bytes = fed ++ xs ∧
      m.mlen = (fed ++ xs).length % word32 ∧ M.Fin m.mhdr m.toScan t ∧
      ∀ front', front' <+: m.mhdr.dropLast → M.Break (fed ++ xs) front'.flatten := by
  induction xs generalizing conn d fed with
  | nil => cases placed
  | cons x xs ih =>
    cases fedOne : M.reader.place dataSize d x with
    | more next =>
      rw [run_cons_more fedOne] at placed
      obtain ⟨receives', same⟩ := receives.read_more fedOne
      obtain ⟨conn', m, completed, live, read, bytes, mlen, fin, breaks⟩ := ih receives' placed
      rw [List.append_assoc, List.singleton_append] at bytes mlen breaks
      exact ⟨conn', m, completed.trans same, live, read, bytes, mlen, fin, breaks⟩
    | done next =>
      rw [run_cons_done fedOne] at placed
      obtain ⟨rfl, rfl⟩ := Outcome.done.inj placed
      obtain ⟨m, read, rest⟩ := receives.read_done fedOne
      exact ⟨conn, m, rfl, receives.live, read, rest⟩
    | fail => simp [run, fedOne] at placed

/-- Some of the bytes are refused. -/
theorem Receives.readBytes_fail (receives : M.Receives conn d fed)
    (placed : run (M.reader.place dataSize) d xs = .fail) :
    (conn.readBytes P dataSize xs).status = .error ∧
      (conn.readBytes P dataSize xs).completed = conn.completed := by
  induction xs generalizing conn d fed with
  | nil => cases placed
  | cons x xs ih =>
    cases fedOne : M.reader.place dataSize d x with
    | more next =>
      rw [run_cons_more fedOne] at placed
      obtain ⟨receives', same⟩ := receives.read_more fedOne
      obtain ⟨status, completed⟩ := ih receives' placed
      exact ⟨status, completed.trans same⟩
    | done next => simp [run, fedOne] at placed
    | fail =>
      have refused := receives.read_fail fedOne
      have closed : ({ conn with rmsg := none, status := .error } : Receiver σ).status ≠
          .live := by simp
      rw [Receiver.readBytes, List.foldl_cons, refused]
      change (Receiver.readBytes P dataSize _ xs).status = _ ∧
        (Receiver.readBytes P dataSize _ xs).completed = _
      rw [Receiver.readBytes_of_not_live closed]
      exact ⟨rfl, rfl⟩

end Parser.Machine

/-! ## Completed messages -/

namespace Receiver

variable {conn : Receiver σ} {c : List (Msg σ)}

/-- The receiver that had completed other messages before. -/
def after (c : List (Msg σ)) (conn : Receiver σ) : Receiver σ :=
  { conn with completed := c ++ conn.completed }

theorem recvDone_after (m : Msg σ) (nmsg : Option (Msg σ)) :
    (conn.after c).recvDone m nmsg = (conn.recvDone m nmsg).after c := by
  unfold recvDone after
  split
  · rfl
  · split <;> simp

theorem parseLoop_after {parse : Msg σ → Progress σ} {fuel : Nat} {m : Msg σ} :
    (conn.after c).parseLoop parse fuel m = (conn.parseLoop parse fuel m).after c := by
  induction fuel generalizing conn m with
  | zero => rfl
  | succ fuel ih =>
    rw [parseLoop, parseLoop]
    cases parse m with
    | filtered | pending _ | failed => rfl
    | completed r nmsg =>
      cases nmsg with
      | none => exact recvDone_after r none
      | some nmsg =>
        simp only [recvDone_after, ih]
        change (if (conn.recvDone r (some nmsg)).status = .live then _ else _) = _
        split <;> rfl

theorem readBytes_after (xs : Bytes) :
    (conn.after c).readBytes P dataSize xs = (conn.readBytes P dataSize xs).after c := by
  induction xs generalizing conn with
  | nil => rfl
  | cons x xs ih =>
    have first : (conn.after c).read P dataSize [x] = (conn.read P dataSize [x]).after c := by
      rw [read, read]
      change (if conn.status = .live then _ else _) = _
      split
      · exact parseLoop_after
      · rfl
    rw [readBytes, readBytes, List.foldl_cons, List.foldl_cons, first]
    exact ih

end Receiver

/-- A message that the machine accepts is completed at its last byte, and what follows is
received like the first bytes of a connection, unless the message ends the connection. -/
theorem Parser.Machine.readBytes_message (M : P.Machine dataSize τ) (positive : 0 < dataSize)
    {xs : Bytes} {t : τ} {u : Nat} (nonzero : xs.length % word32 ≠ 0)
    (done : run (M.reader.place dataSize) ⟨M.start, [], 0⟩ xs = .done ⟨t, [], u⟩ []) :
    ∃ m : Msg σ, m.bytes = xs ∧ m.mlen = xs.length % word32 ∧ M.Fin m.mhdr m.toScan t ∧
      (∀ front, front <+: m.mhdr.dropLast → M.Break xs front.flatten) ∧
      ∀ ys, ({} : Receiver σ).readBytes P dataSize (xs ++ ys) =
        if m.quit then { completed := [m], status := .eof }
        else (({} : Receiver σ).readBytes P dataSize ys).after [m] := by
  have receives : M.Receives {} ⟨M.start, [], 0⟩ [] := receives_new positive rfl rfl
  obtain ⟨conn, m, completed, live, read, bytes, mlen, fin, breaks⟩ := receives.readBytes_done done
  rw [List.nil_append] at bytes mlen breaks
  refine ⟨m, bytes, mlen, fin, breaks, fun ys => ?_⟩
  rw [Receiver.readBytes_append, read, Receiver.recvDone, if_neg (by rwa [mlen]), completed]
  by_cases quit : m.quit = true
  · rw [if_pos quit, if_pos quit, Receiver.readBytes_of_not_live (by simp)]
    rfl
  · rw [if_neg quit, if_neg quit, ← Receiver.readBytes_after]
    simp [Receiver.after, live]

/-- A complete message of a multiple of `2 ^ 32` bytes is dropped, so it is not the stream
of a connection on which no length wraps around. -/
theorem Parser.Machine.length_of_unwrapped (M : P.Machine dataSize τ) (positive : 0 < dataSize)
    {reads : List Bytes} (unwrapped : ({} : Receiver σ).Unwrapped P dataSize reads)
    {t : τ} {u : Nat}
    (done : run (M.reader.place dataSize) ⟨M.start, [], 0⟩ reads.flatten = .done ⟨t, [], u⟩ []) :
    reads.flatten.length % word32 ≠ 0 := by
  intro zero
  have nonempty : reads.flatten ≠ [] := by
    intro empty
    rw [empty] at done
    cases done
  have receives : M.Receives {} ⟨M.start, [], 0⟩ [] := receives_new positive rfl rfl
  obtain ⟨conn, m, completed, live, read, _, mlen, _⟩ := receives.readBytes_done done
  have dropped : ({} : Receiver σ).readBytes P dataSize reads.flatten = {} := by
    rw [List.nil_append, zero] at mlen
    rw [read, Receiver.recvDone, if_pos mlen]
    cases conn
    simp_all
  have holding : (Receiver.settled P dataSize _).Holding :=
    (Receiver.receive_holding unwrapped (.inr nonempty)).settled
  rw [Receiver.receive_unwrapped unwrapped,
    Receiver.receive_settled positive (Receiver.sound_new M.lawful), dropped] at holding
  rcases holding with some_ | closed | ⟨m', under, mlen'⟩
  · exact some_ rfl
  · exact closed rfl
  · cases under
    exact mlen' (by rw [Receiver.current, Msg.mlen_prepare]; rfl)

/-- The outcome with one more message completed before all others. -/
def Receiver.Outcome.behind (first : Receiver.Observed) (out : Receiver.Outcome) :
    Receiver.Outcome :=
  { out with completed := first :: out.completed }

theorem Receiver.completed_settled (conn : Receiver σ) :
    (conn.settled P dataSize).completed = conn.completed := by
  unfold Receiver.settled
  split <;> rfl

/-- A message that the machine accepts is the first that a new connection completes, however
the stream is cut into reads.  What follows it is received as by another connection, or not
at all if the message is a quit. -/
theorem Parser.Machine.receive_message (M : P.Machine dataSize τ) (positive : 0 < dataSize)
    {xs : Bytes} {t : τ} {u : Nat} (nonzero : xs.length % word32 ≠ 0)
    (done : run (M.reader.place dataSize) ⟨M.start, [], 0⟩ xs = .done ⟨t, [], u⟩ []) :
    ∃ m : Msg σ, m.bytes = xs ∧ m.mlen = xs.length % word32 ∧ M.Fin m.mhdr m.toScan t ∧
      (∀ front, front <+: m.mhdr.dropLast → M.Break xs front.flatten) ∧
      ∀ rest reads, reads.flatten = xs ++ rest →
        ({} : Receiver σ).Unwrapped P dataSize reads →
        (∃ others, (({} : Receiver σ).receive (msgParse P dataSize) P dataSize reads).completed =
          m :: others) ∧
        (m.quit = true →
          (({} : Receiver σ).receive (msgParse P dataSize) P dataSize reads).outcome =
            ⟨[Receiver.observed m], .eof, []⟩) ∧
        (m.quit = false → ∀ reads', reads'.flatten = rest →
          ({} : Receiver σ).Unwrapped P dataSize reads' →
          (({} : Receiver σ).receive (msgParse P dataSize) P dataSize reads).outcome =
            (({} : Receiver σ).receive (msgParse P dataSize) P dataSize reads').outcome.behind
              (Receiver.observed m)) := by
  obtain ⟨m, bytes, mlen, fin, breaks, read⟩ := M.readBytes_message positive nonzero done
  refine ⟨m, bytes, mlen, fin, breaks, fun rest reads stream unwrapped => ?_⟩
  have outcome := Receiver.receive_outcome M.lawful positive unwrapped
  have completed := congrArg Receiver.completed
    (Receiver.receive_settled positive (Receiver.sound_new M.lawful) :
      (Receiver.receive _ P dataSize {} reads).settled P dataSize = _)
  rw [Receiver.completed_settled, Receiver.completed_settled,
    ← Receiver.receive_unwrapped unwrapped, stream, read rest] at completed
  rw [stream, read rest] at outcome
  refine ⟨?_, ?_, ?_⟩
  · rw [completed]
    split
    · exact ⟨[], rfl⟩
    · exact ⟨_, rfl⟩
  · intro quit
    rw [outcome, if_pos quit]
    rfl
  · intro other reads' stream' unwrapped'
    have outcome' := Receiver.receive_outcome M.lawful positive unwrapped'
    rw [outcome, if_neg (by simp [other]), outcome', stream']
    rfl

end Nutcracker
