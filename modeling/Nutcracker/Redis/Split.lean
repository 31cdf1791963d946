import Nutcracker.Message.Gather
import Nutcracker.Message.Scatter
import Nutcracker.Redis.ArrayFraming
import Nutcracker.Redis.Copying
import Nutcracker.Redis.RoundTrip

/-!
# Splitting requests and joining replies

The fragment of an `mget` or a `del` for a server is the request that a client would send for the
keys of that server.  The reply to an `mget` is put together in the order of the keys, whatever the
mbufs in which the values of the servers lie.
-/

namespace Nutcracker

open Lib

theorem printInt_eq {n : Nat} (small : n < 2 ^ 31) : printInt n = decimal n := by
  have word : n % word32 = n := Nat.mod_eq_of_lt (small.trans (by decide))
  rw [printInt, word, if_pos small]

/-! ## Fragments -/

section Fragments

variable {dataSize : Nat}

/-- The fragment holds the keys that were filed. -/
def FiledKeys (filed : List KeyRef) (sub : Request) : Prop :=
  sub.bytes = (filed.map KeyRef.text).flatMap Reading.bulk ∧ sub.narg = filed.length

theorem redisAppendKey_bytes {key : Bytes} (short : key.length < 2 ^ 31) (m : Request)
    (w : Buffers) :
    (redisAppendKey dataSize key m w).1.bytes = m.bytes ++ Reading.bulk key := by
  simp [redisAppendKey, printInt_eq short, Reading.bulk, frameArg]

theorem files_keys :
    Files id (redisFileKey dataSize) FiledKeys fun keys _ =>
      ∀ k ∈ keys, k.text.length < 2 ^ 31 where
  start := ⟨rfl, rfl⟩
  step {filed sub k keys r} w := by
    rintro ⟨bytes, narg⟩ short
    refine ⟨_, _, _, rfl, ⟨?_, ?_⟩, fun k' member => short k' (List.mem_cons_of_mem k member)⟩
    · refine (redisAppendKey_bytes (short k List.mem_cons_self) _ w).trans ?_
      change sub.bytes ++ _ = _
      rw [bytes, List.map_append, List.flatMap_append]
      simp
    · change sub.narg + 1 = _
      rw [narg, List.length_append, List.length_singleton]

/-- The command name in a fragment. -/
def fragmentName (type : MsgType) : Bytes :=
  if type = .reqRedisDel then ['d', 'e', 'l'].map byteOf else "mget".toList.map byteOf

theorem redisFragmentHeader_eq {type : MsgType}
    (vector : type = .reqRedisMget ∨ type = .reqRedisDel)
    {texts : List Bytes} (few : texts.length + 1 < 2 ^ 31) :
    redisFragmentHeader type (texts.length + 1) ++ texts.flatMap Reading.bulk =
      encodeRequest (fragmentName type :: texts) := by
  have lines (n : Nat) : redisFragmentHeader type n =
      byteOf '*' :: printInt n ++ CRLF ++ Reading.bulk (fragmentName type) := by
    rcases vector with rfl | rfl <;>
      simp [redisFragmentHeader, fragmentName, Reading.bulk, frameArg] <;> decide
  rw [lines, encodeRequest, List.length_cons, printInt_eq few, List.flatMap_cons]
  simp only [List.append_assoc]

/-- An `mget` or a `del` as the parser leaves it: the keys fit an mbuf, and the first three lines
lie at the start of the first one. -/
structure Splittable (dataSize : Nat) (r : Request) : Prop where
  type : r.type = .reqRedisMget ∨ r.type = .reqRedisDel
  several : r.keys.length ≠ 1
  few : r.keys.length + 1 < 2 ^ 31
  short : ∀ k ∈ r.keys, k.text.length < min dataSize (2 ^ 31)
  head : ∃ b chain, r.mhdr = b :: chain ∧ b.off = 0 ∧ 3 ≤ b.data.count LF

/-- If every key has a slot, every slot that has keys gets a fragment, which is the request for
these keys, in their order. -/
theorem redisFragment_splits {ncontinuum : Nat} {idx : Bytes → Nat} {r : Request}
    (ready : Splittable dataSize r) (inside : ∀ k ∈ r.keys, idx k.text < ncontinuum) (w : Buffers) :
    ∃ f, redisFragment dataSize ncontinuum idx r w = some f ∧
      f.fragSeq = r.keys.map (fun k => idx k.text) ∧
      f.frags.map Prod.fst = (List.range ncontinuum).filter
        (fun slot => (r.keys.filter fun k => idx k.text = slot) ≠ []) ∧
      ∀ slot q, (slot, q) ∈ f.frags → q.type = r.type ∧ q.bytes = encodeRequest
        (fragmentName r.type :: (r.keys.filter fun k => idx k.text = slot).map KeyRef.text) := by
  have fragments : redisFragment dataSize ncontinuum idx r w =
      redisFragmentArgx dataSize ncontinuum 1 idx r w := by
    rw [redisFragment, if_neg ready.several]
    rcases ready.type with type | type <;> rw [type]
  obtain ⟨b, chain, mhdr, unread, lines⟩ := ready.head
  rw [fragments, redisFragmentArgx, mhdr, if_pos rfl]
  simp only [if_pos (show b.off = 0 ∧ 3 ≤ b.data.count LF from ⟨unread, lines⟩)]
  obtain ⟨f, done, -, fragSeq, slots, frags⟩ := @fragmentKeysBy_files _ _ idx _ _ _ files_keys
    (redisFinish r.type) ncontinuum _
    { r with mhdr := skipFirst (linesLength 3 b.data) (b :: chain) } w (List.map_id _).symm
    (fun k member => (Nat.lt_min.mp (ready.short k member)).2) inside
  refine ⟨f, done, fragSeq, slots, fun slot q member => ⟨?_, ?_⟩⟩ <;>
    obtain ⟨sub, w', ⟨bytes, narg⟩, rfl⟩ := frags slot q member
  · rfl
  · have fewer : ((keysOf id idx r.keys slot).map KeyRef.text).length + 1 < 2 ^ 31 := by
      rw [List.length_map]
      exact Nat.lt_of_le_of_lt (Nat.succ_le_succ (List.length_filter_le _ _)) ready.few
    refine Eq.trans ?_ (redisFragmentHeader_eq ready.type fewer)
    change redisFragmentHeader r.type (sub.narg + 1) ++ sub.bytes = _
    rw [bytes, narg, List.length_map]
    rfl

/-- A `del` of three keys on two servers. -/
theorem redisFragment_splits_del :
    let r : Request :=
      { mhdr := [{ id := 0, data := encodeRequest [['d', 'e', 'l'].map byteOf, [97], [98], [97]] }]
        type := .reqRedisDel
        keys := [⟨0, [97]⟩, ⟨0, [98]⟩, ⟨0, [97]⟩] }
    ∃ f, redisFragment 464 2 (fun k => if k = [97] then 0 else 1) r {} = some f ∧
      f.fragSeq = [0, 1, 0] ∧ f.frags.map Prod.fst = [0, 1] ∧
      ∀ q, (0, q) ∈ f.frags → q.bytes = encodeRequest [['d', 'e', 'l'].map byteOf, [97], [97]] := by
  intro r
  have ready : Splittable 464 r :=
    ⟨Or.inr rfl, by decide, by decide, by decide, _, _, rfl, rfl, by decide⟩
  obtain ⟨f, done, fragSeq, slots, frags⟩ := @redisFragment_splits 464 2
    (fun k => if k = [97] then 0 else 1) r ready (by decide) {}
  exact ⟨f, done, fragSeq, slots.trans (by decide), fun q member => (frags 0 q member).2⟩

end Fragments

/-! ## Replies -/

/-- Items that lie in one mbuf. -/
theorem laid_singleton {items : List Item} {b : Mbuf} (data : b.data = Item.bytes items)
    (lines : ∀ item ∈ items, item.line ≠ []) : Laid items [b] := by
  refine ⟨by simp [data], fun pre item post split => ⟨lines item (by simp [split]), ?_⟩⟩
  refine ⟨[], Item.bytes pre, item.rest ++ Item.bytes post, [], ?_, rfl⟩
  simp [data, split, Item.whole]

section Replies

variable {dataSize : Nat}

/-- The length of a bulk that is not too long is computed without overflow. -/
theorem redisItem_bulkItem {data : Bytes} (short : data.length < 2 ^ 31) :
    RedisItem (bulkItem data) := by
  refine Or.inr ⟨data, rfl, ?_⟩
  have digits : (decimal data.length).length ≤ 10 :=
    length_decimal_le (by decide) (short.trans (by decide))
  have value : word32 = 4294967296 := by decide
  rw [length_whole_bulkItem, value]
  omega

theorem copiesNext_redisCopy :
    CopiesNext (redisCopy dataSize) fun items =>
      ∃ first rest, items = first :: rest ∧ RedisItem first where
  next {items src} dst w := by
    rintro ⟨first, rest, rfl, good⟩ laid
    obtain ⟨status, ⟨m, moved, bytes⟩, laid', mlen⟩ :=
      @redisCopyBulk_item dataSize _ _ _ laid good dst w
    refine ⟨status, ⟨m, moved, by simpa using bytes⟩, laid', fun measured => ?_⟩
    apply measured.sub _ mlen
    rw [Packet.bytes, laid.bytes, Packet.bytes, laid'.bytes, Item.bytes_cons, List.length_append,
      Nat.add_comm]

/-- The value of a key, which a server may not have. -/
def valueOf (v : Option Bytes) : Scalar :=
  v.elim .nullBulk .bulk

/-- The value as an item of a reply. -/
def valueItem (v : Option Bytes) : Item :=
  v.elim nullItem bulkItem

theorem bytes_valueItems (values : List (Option Bytes)) :
    Item.bytes (values.map valueItem) =
      Resp.encodeAll (values.map fun v => .scalar (valueOf v)) := by
  induction values with
  | nil => rfl
  | cons v values ih =>
    rw [List.map_cons, List.map_cons, Item.bytes_cons, ih, Resp.encodeAll, Resp.encode]
    cases v <;> simp [valueItem, valueOf, Item.whole, nullItem, bulkItem, Scalar.encode,
      Scalar.body]

/-- The reply to an `mget`: if the reply of every server, without its count line, holds the values
of its keys in their order, then the values of all keys come in the order of the keys, the
connection of the client is not in error, and the replies are used up. -/
theorem redisPostCoalesce_mget {r : Request} {keys : List (Nat × Option Bytes)} {g : Gathering}
    (type : r.type = .reqRedisMget) (clean : r.error = false ∧ r.ferror = false)
    (narg : r.narg = keys.length + 1) (few : keys.length + 1 < 2 ^ 31)
    (short : ∀ k ∈ keys, ∀ data ∈ k.2, data.length < 2 ^ 31)
    (start : g.response = {} ∧ g.returned = false ∧ g.err = false)
    (supplies : ∀ k ∈ keys, Supplies g k.1 (dealt Prod.fst (fun k => valueItem k.2) keys k.1)) :
    let g' := redisPostCoalesce dataSize r (keys.map Prod.fst) g
    g'.err = false ∧
      g'.response.bytes = (Resp.array (keys.map fun k => .scalar (valueOf k.2))).encode ∧
      ∀ k ∈ keys, ∃ p, g'.replies k.1 = some p ∧ p.bytes = [] ∧ p.mlen = 0 := by
  intro g'
  let item (k : Nat × Option Bytes) : Item := valueItem k.2
  have loop : g' =
      gatherKeys (redisCopy dataSize) (keys.map Prod.fst) (redisCountLine r.narg g) := by
    simp only [g', redisPostCoalesce, clean, type]
    rfl
  -- the loop starts behind the count line
  have count : (redisCountLine r.narg g).response.bytes = Resp.header keys.length := by
    have word : keys.length + 1 < word32 := few.trans (by decide)
    have less : sub32 r.narg 1 = keys.length := by
      rw [narg, ← Nat.mod_eq_of_lt word, sub32_mod, Nat.mod_eq_of_lt (Nat.lt_of_succ_lt word)]
    simp only [redisCountLine, start, Packet.bytes_prepend, less,
      printInt_eq (Nat.lt_of_succ_lt few)]
    exact List.append_nil _
  have good : ∀ k ∈ keys, RedisItem (item k) := by
    rintro ⟨slot, _ | data⟩ member
    · exact Or.inl rfl
    · exact redisItem_bulkItem (short _ member data rfl)
  have supplied : ∀ slot ∈ keys.map Prod.fst,
      Supplies (redisCountLine r.narg g) slot (dealt Prod.fst item keys slot) := by
    intro slot member
    obtain ⟨k, listed, rfl⟩ := List.mem_map.mp member
    exact supplies k listed
  obtain ⟨-, err, response, left⟩ := gatherKeys_items copiesNext_redisCopy
    (allReady_dealt Prod.fst item keys good) supplied start.2
  rw [loop]
  refine ⟨err, ?_, fun k member => ?_⟩
  · have values : keys.map item = (keys.map Prod.snd).map valueItem := by
      rw [List.map_map]
      rfl
    rw [response, count, interleave_dealt, values, bytes_valueItems, List.map_map, Resp.encode,
      List.length_map]
    rfl
  · obtain ⟨p, here, laid, measured⟩ := left k.1 (supplied k.1 (List.mem_map_of_mem member))
    have none : (dealt Prod.fst item keys k.1).drop ((keys.map Prod.fst).count k.1) = [] := by
      rw [List.drop_eq_nil_iff, dealt, List.length_map, ← List.countP_eq_length_filter, List.count,
        List.countP_map]
      exact Nat.le_of_eq (List.countP_congr fun k _ => by simp)
    rw [none] at laid
    have empty : p.bytes = [] := laid.bytes
    rw [Packet.Measured, empty] at measured
    exact ⟨p, here, empty, measured⟩

/-- Three keys on two servers, one of which is missing. -/
theorem redisPostCoalesce_mget_missing :
    let first : Packet := ⟨[{ id := 0, data := Item.bytes [bulkItem [97], bulkItem []] }], 13⟩
    let second : Packet := ⟨[{ id := 1, data := Item.bytes [nullItem] }], 5⟩
    let g' := redisPostCoalesce 464 { type := .reqRedisMget, narg := 4 } [0, 1, 0]
      { replies := fun slot => if slot = 0 then some first else some second }
    g'.err = false ∧ g'.response.bytes = (Resp.array [.scalar (.bulk [97]), .scalar .nullBulk,
      .scalar (.bulk [])]).encode := by
  intro first second g'
  have joined := @redisPostCoalesce_mget 464 { type := .reqRedisMget, narg := 4 }
    [(0, some [97]), (1, none), (0, some [])]
    { replies := fun slot => if slot = 0 then some first else some second } rfl ⟨rfl, rfl⟩ rfl
    (by decide) (by decide) ⟨rfl, rfl, rfl⟩ ?_
  · exact ⟨joined.1, joined.2.1⟩
  · intro k member
    have here : k.1 = 0 ∨ k.1 = 1 := by revert k; decide
    rcases here with here | here <;> rw [here]
    · exact ⟨first, rfl, laid_singleton rfl (by decide), rfl⟩
    · exact ⟨second, rfl, laid_singleton rfl (by decide), rfl⟩

end Replies

end Nutcracker
