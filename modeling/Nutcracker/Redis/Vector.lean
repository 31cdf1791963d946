import Nutcracker.Message.Coalesce
import Nutcracker.Redis.Response

/-!
# Vector requests of redis

`mget`, `del` and `mset` are split by the backends of their keys.  `redis_copy_bulk` moves one
bulk from a message to another; it takes over the mbufs that hold nothing else and copies what
is left.  The keys of an `mset` are eaten in the same way, without a message to move them to.
-/

namespace Nutcracker

open Lib

/-- `%d` of a `uint32_t`. -/
def printInt (n : Nat) : Bytes :=
  if n % word32 < 2 ^ 31 then decimal (n % word32)
  else byteOf '-' :: decimal (word32 - n % word32)

/-! ## Copying -/

/-- The number of bytes that `redis_copy_bulk` takes for the bulk at the front of an mbuf. -/
def redisBulkLen (data : Bytes) : Nat :=
  if data.getD 1 0 = byteOf '-' ∧ data.getD 2 0 = byteOf '1' then 5
  else
    let num := (data.drop 1).takeWhile isdigit
    (wordVal num + 4 + (num.length + 1)) % word32

/-- What `redis_copy_bulk` adds to the destination: mbufs that are taken over, and bytes that are
copied from the mbuf at which it stops. -/
def redisReceive (dataSize : Nat) (cut : List Mbuf × Nat × List Mbuf) (m : Packet) (w : Buffers) :
    Packet × Buffers :=
  match cut.2.2 with
  | [] => ({ m with mhdr := m.mhdr ++ cut.1 }, w)
  | b :: _ => Packet.append dataSize (b.data.take cut.2.1) { m with mhdr := m.mhdr ++ cut.1 } w

/-- `redis_copy_bulk`. -/
def redisCopyBulk (dataSize : Nat) (dst : Option Packet) (src : Packet) (w : Buffers) : Copied :=
  match dropEmpty src.mhdr w with
  | ([], w) => { status := .error, dst := dst, src := { src with mhdr := [] }, bufs := w }
  | (b :: chain, w) =>
    let bytes := redisBulkLen b.data
    let cut := takeMbufs bytes (b :: chain)
    let src' : Packet := ⟨remaining cut, sub32 src.mlen bytes⟩
    match dst with
    | none => { dst := none, src := src', bufs := w }
    | some m =>
      let received := redisReceive dataSize cut m w
      { dst := some { received.1 with mlen := add32 received.1.mlen bytes }
        src := src'
        bufs := received.2 }

/-! ## Fragments -/

/-- `redis_append_key`. -/
def redisAppendKey (dataSize : Nat) (key : Bytes) (m : Request) (w : Buffers) :
    Request × Buffers :=
  let header := m.toPacket.append dataSize (byteOf '$' :: printInt key.length ++ CRLF) w
  let text := header.1.append dataSize key header.2
  let mbuf := text.1.mhdr.getLast?.elim 0 Mbuf.id
  let line := text.1.append dataSize CRLF text.2
  ({ m with
      toPacket := line.1
      keys := m.keys ++ [⟨mbuf, key⟩] }, line.2)

/-- The number of bytes in the first `n` lines. -/
def linesLength : Nat → Bytes → Nat
  | 0, _ => 0
  | n + 1, x =>
    (x.takeWhile (· ≠ LF)).length + 1 + linesLength n (x.drop ((x.takeWhile (· ≠ LF)).length + 1))

/-- The body of the loop over the keys for `mget` and `del`. -/
def redisFileKey (dataSize : Nat) (k : KeyRef) (sub : Request) (r : Packet) (w : Buffers) :
    Option (Request × Packet × Buffers) :=
  let keyed := redisAppendKey dataSize k.text { sub with narg := sub.narg + 1 } w
  some (keyed.1, r, keyed.2)

/-- The body of the loop over the keys for `mset`: the key in the request is eaten, and the value
is moved to the fragment. -/
def redisFilePair (dataSize : Nat) (k : KeyRef) (sub : Request) (r : Packet) (w : Buffers) :
    Option (Request × Packet × Buffers) :=
  let keyed := redisAppendKey dataSize k.text { sub with narg := sub.narg + 1 } w
  let eaten := redisCopyBulk dataSize none r keyed.2
  let copied := redisCopyBulk dataSize (some keyed.1.toPacket) eaten.src eaten.bufs
  if eaten.status = .ok ∧ copied.status = .ok then
    some
      ({ keyed.1 with
          toPacket := copied.dst.getD keyed.1.toPacket
          narg := keyed.1.narg + 1 },
        copied.src, copied.bufs)
  else none

/-- The first lines of a fragment. -/
def redisFragmentHeader (type : MsgType) (narg : Nat) : Bytes :=
  byteOf '*' :: printInt narg ++ CRLF ++
    match type with
    | .reqRedisMget => "$4\r\nmget\r\n".toList.map byteOf
    | .reqRedisDel => "$3\r\ndel\r\n".toList.map byteOf
    | .reqRedisMset => "$4\r\nmset\r\n".toList.map byteOf
    | _ => []

/-- The body of the loop over the slots. -/
def redisFinish (type : MsgType) (sub : Request) (w : Buffers) : Request × Buffers :=
  let headed := sub.toPacket.prepend (redisFragmentHeader type (sub.narg + 1)) w
  ({ sub with toPacket := headed.1, type := type }, headed.2)

/-- `redis_fragment_argx`.  It goes back to the start of the first mbuf and skips three lines.  What
has been read of an mbuf is not kept here, and what lies behind it is not defined, so that there is
no result unless the first mbuf is unread and holds the three lines. -/
def redisFragmentArgx (dataSize ncontinuum keyStep : Nat) (idx : Bytes → Nat) (r : Request)
    (w : Buffers) : Option Fragmented :=
  match r.mhdr with
  | [] => none
  | b :: chain =>
    if b.off = 0 ∧ 3 ≤ b.data.count LF then
      fragmentKeysBy idx (if keyStep = 1 then redisFileKey dataSize else redisFilePair dataSize)
        (redisFinish r.type) ncontinuum
        { r with mhdr := skipFirst (linesLength 3 b.data) (b :: chain) } w
    else none

/-- `redis_fragment`.  There are no fragments if the request is not split. -/
def redisFragment (dataSize ncontinuum : Nat) (idx : Bytes → Nat) (r : Request) (w : Buffers) :
    Option Fragmented :=
  if r.keys.length = 1 then some { owner := r, bufs := w }
  else
    match r.type with
    | .reqRedisMget | .reqRedisDel => redisFragmentArgx dataSize ncontinuum 1 idx r w
    | .reqRedisMset => redisFragmentArgx dataSize ncontinuum 2 idx r w
    | _ => some { owner := r, bufs := w }

/-! ## Replies -/

/-- `redis_post_coalesce_mset`. -/
def redisPostCoalesceMset (dataSize : Nat) (g : Gathering) : Gathering :=
  let answered := g.response.append dataSize ("+OK\r\n".toList.map byteOf) g.bufs
  { g with response := answered.1, bufs := answered.2 }

/-- `redis_post_coalesce_del`. -/
def redisPostCoalesceDel (integer : Nat) (g : Gathering) : Gathering :=
  let answered := g.response.prepend (byteOf ':' :: printInt integer ++ CRLF) g.bufs
  { g with response := answered.1, bufs := answered.2 }

/-- The copying of `redis_post_coalesce_mget`. -/
abbrev redisCopy (dataSize : Nat) : Packet → Packet → Buffers → Copied :=
  fun dst src w => redisCopyBulk dataSize (some dst) src w

/-- `redis_post_coalesce_mget` up to its loop. -/
def redisCountLine (narg : Nat) (g : Gathering) : Gathering :=
  let headed := g.response.prepend (byteOf '*' :: printInt (sub32 narg 1) ++ CRLF) g.bufs
  { g with response := headed.1, bufs := headed.2 }

/-- `redis_post_coalesce_mget`. -/
def redisPostCoalesceMget (dataSize : Nat) (r : Request) (fragSeq : List Nat) (g : Gathering) :
    Gathering :=
  gatherKeys (redisCopy dataSize) fragSeq (redisCountLine r.narg g)

/-- `redis_post_coalesce`. -/
def redisPostCoalesce (dataSize : Nat) (r : Request) (fragSeq : List Nat) (g : Gathering) :
    Gathering :=
  if r.error || r.ferror then g
  else
    match r.type with
    | .reqRedisMget => redisPostCoalesceMget dataSize r fragSeq g
    | .reqRedisDel => redisPostCoalesceDel r.integer g
    | .reqRedisMset => redisPostCoalesceMset dataSize g
    | _ => g

end Nutcracker
