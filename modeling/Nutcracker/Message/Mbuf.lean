import Nutcracker.Lib.Cut
import Nutcracker.Message.Core

/-!
# Messages that are taken apart and put together

Vector requests are split into fragments, and the replies to the fragments are put together
again, by moving mbufs from one message to another and by copying bytes between them.  So
mbufs have numbers here: `mbuf_get` hands them out and `mbuf_put` takes them back.  An mbuf
belongs to the chain that it is in; its bytes go with it.

A key position is a pointer into an mbuf, which need not stay in the chain of the message
that the key belongs to.
-/

namespace Nutcracker

open Lib

/-- `struct mbuf`: `off` bytes lie between `start` and `pos`, and `data` between `pos` and
`last`. -/
structure Mbuf where
  id : Nat
  off : Nat := 0
  data : Bytes := []
  deriving DecidableEq, Repr

namespace Mbuf

/-- `mbuf_length`. -/
def length (b : Mbuf) : Nat :=
  b.data.length

/-- `mbuf_size`: the space behind `last`. -/
def room (dataSize : Nat) (b : Mbuf) : Nat :=
  dataSize - (b.off + b.data.length)

/-- Move `pos` by `n` bytes. -/
def skip (n : Nat) (b : Mbuf) : Mbuf :=
  { b with off := b.off + n, data := b.data.drop n }

/-- `mbuf_copy`. -/
def copy (x : Bytes) (b : Mbuf) : Mbuf :=
  { b with data := b.data ++ x }

@[simp] theorem data_skip (n : Nat) (b : Mbuf) : (b.skip n).data = b.data.drop n := rfl
@[simp] theorem data_copy (x : Bytes) (b : Mbuf) : (b.copy x).data = b.data ++ x := rfl

end Mbuf

/-- The free list, and the number of mbufs that were ever made. -/
structure Buffers where
  free : List Nat := []
  next : Nat := 0

namespace Buffers

/-- The number of the mbuf that `mbuf_get` returns. -/
def top (w : Buffers) : Nat :=
  w.free.headD w.next

/-- `mbuf_get`. -/
def get (w : Buffers) : Buffers :=
  match w.free with
  | [] => { w with next := w.next + 1 }
  | _ :: free => { w with free := free }

/-- `mbuf_put`. -/
def put (b : Mbuf) (w : Buffers) : Buffers :=
  { w with free := b.id :: w.free }

end Buffers

/-- A message as a chain of mbufs with a length. -/
structure Packet where
  mhdr : List Mbuf := []
  mlen : Nat := 0
  deriving DecidableEq, Repr

/-- The bytes of a chain. -/
def chainBytes (chain : List Mbuf) : Bytes :=
  chain.flatMap Mbuf.data

@[simp] theorem chainBytes_nil : chainBytes [] = [] := rfl

@[simp] theorem chainBytes_cons (b : Mbuf) (chain : List Mbuf) :
    chainBytes (b :: chain) = b.data ++ chainBytes chain :=
  List.flatMap_cons

@[simp] theorem chainBytes_append (chain chain' : List Mbuf) :
    chainBytes (chain ++ chain') = chainBytes chain ++ chainBytes chain' :=
  List.flatMap_append

/-- Move the `pos` of the first mbuf of a chain. -/
def skipFirst (n : Nat) : List Mbuf → List Mbuf
  | [] => []
  | b :: chain => b.skip n :: chain

/-- What taking `n` bytes from the front of a chain comes to: the mbufs that are taken over, the
number of bytes that are taken from the next one, and the mbufs from there on. -/
abbrev takeMbufs (n : Nat) (chain : List Mbuf) : List Mbuf × Nat × List Mbuf :=
  takeWhole Mbuf.length n chain

/-- The chain that is left when bytes are taken from its front. -/
def remaining (cut : List Mbuf × Nat × List Mbuf) : List Mbuf :=
  skipFirst cut.2.1 cut.2.2

/-- Remove the empty mbufs at the front of a chain, and return them to the free list. -/
def dropEmpty : List Mbuf → Buffers → List Mbuf × Buffers
  | [], w => ([], w)
  | b :: chain, w => if b.data = [] then dropEmpty chain (w.put b) else (b :: chain, w)

namespace Packet

def bytes (m : Packet) : Bytes :=
  chainBytes m.mhdr

/-- `msg_ensure_mbuf`. -/
def ensureMbuf (dataSize n : Nat) (m : Packet) (w : Buffers) : Packet × Buffers :=
  if (m.mhdr.getLast?.elim 0 (Mbuf.room dataSize) < n) ∨ m.mhdr = [] then
    ({ m with mhdr := m.mhdr ++ [{ id := w.top }] }, w.get)
  else (m, w)

/-- `mbuf_copy` to the last mbuf of a message. -/
def copyLast (x : Bytes) (m : Packet) : Packet :=
  { mhdr := m.mhdr.dropLast ++ (m.mhdr.getLast?.map (Mbuf.copy x)).toList
    mlen := add32 m.mlen x.length }

/-- `msg_append`. -/
def append (dataSize : Nat) (x : Bytes) (m : Packet) (w : Buffers) : Packet × Buffers :=
  ((m.ensureMbuf dataSize x.length w).1.copyLast x, (m.ensureMbuf dataSize x.length w).2)

/-- `msg_prepend`. -/
def prepend (x : Bytes) (m : Packet) (w : Buffers) : Packet × Buffers :=
  ({ mhdr := { id := w.top, data := x } :: m.mhdr, mlen := add32 m.mlen x.length }, w.get)

end Packet

/-- A key position: the mbuf it points into, and the key. -/
structure KeyRef where
  mbuf : Nat
  text : Bytes
  deriving DecidableEq, Repr

/-! ## The bytes of a message -/

section Bytes

variable {dataSize : Nat} {m : Packet} {w : Buffers}

theorem chainBytes_skipFirst {n : Nat} {b : Mbuf} (chain : List Mbuf) (inside : n ≤ b.data.length) :
    chainBytes (skipFirst n (b :: chain)) = (chainBytes (b :: chain)).drop n := by
  rw [skipFirst, chainBytes_cons, chainBytes_cons, Mbuf.data_skip,
    List.drop_append_of_le_length inside]

/-- The data of what is left of a chain. -/
theorem map_remaining (n : Nat) (chain : List Mbuf) :
    (remaining (takeMbufs n chain)).map Mbuf.data = chop n (chain.map Mbuf.data) := by
  induction chain generalizing n with
  | nil => rfl
  | cons b chain ih =>
    by_cases fits : b.length ≤ n
    · rw [takeMbufs, takeWhole_cons_le fits, List.map_cons, chop_cons_le fits]
      exact ih _
    · have longer := Nat.lt_of_not_le fits
      rw [takeMbufs, takeWhole_cons_lt longer, List.map_cons, chop_cons_lt longer]
      rfl

theorem chainBytes_remaining (n : Nat) (chain : List Mbuf) :
    chainBytes (remaining (takeMbufs n chain)) = (chainBytes chain).drop n := by
  have left : (chainBytes (takeMbufs n chain).2.2).drop (takeMbufs n chain).2.1 =
      (chainBytes chain).drop n :=
    takeWhole_drop Mbuf.data n chain
  rw [← left, remaining]
  cases rest : (takeMbufs n chain).2.2 with
  | nil => simp [skipFirst]
  | cons b back =>
    have longer : (takeMbufs n chain).2.1 < b.data.length := takeWhole_lt rest
    exact chainBytes_skipFirst back longer.le

/-- What is taken over, and the bytes that are taken from the next mbuf. -/
theorem chainBytes_taken (n : Nat) (chain : List Mbuf) :
    chainBytes (takeMbufs n chain).1 ++
        (chainBytes (takeMbufs n chain).2.2).take (takeMbufs n chain).2.1 =
      (chainBytes chain).take n :=
  takeWhole_take Mbuf.data n chain

/-- The first mbuf that is left has bytes. -/
theorem dropEmpty_head {chain rest : List Mbuf} {w : Buffers} {b : Mbuf}
    (left : (dropEmpty chain w).1 = b :: rest) : b.data ≠ [] := by
  induction chain generalizing w with
  | nil => cases left
  | cons first chain ih =>
    rw [dropEmpty] at left
    split at left
    · exact ih left
    · rename_i nonempty
      cases left
      exact nonempty

theorem Packet.mhdr_ensureMbuf_ne_nil (n : Nat) : (m.ensureMbuf dataSize n w).1.mhdr ≠ [] := by
  unfold Packet.ensureMbuf
  split
  · simp
  · rename_i enough
    exact fun empty => enough (Or.inr empty)

@[simp] theorem Packet.bytes_ensureMbuf (n : Nat) :
    (m.ensureMbuf dataSize n w).1.bytes = m.bytes := by
  unfold Packet.ensureMbuf
  split
  · simp [Packet.bytes]
  · rfl

theorem Packet.bytes_copyLast (nonempty : m.mhdr ≠ []) (x : Bytes) :
    (m.copyLast x).bytes = m.bytes ++ x := by
  obtain ⟨front, b, chain⟩ := List.eq_nil_or_concat m.mhdr |>.resolve_left nonempty
  rw [List.concat_eq_append] at chain
  simp [Packet.bytes, Packet.copyLast, chain]

@[simp] theorem Packet.bytes_append (x : Bytes) :
    (m.append dataSize x w).1.bytes = m.bytes ++ x := by
  rw [append, bytes_copyLast (mhdr_ensureMbuf_ne_nil _), bytes_ensureMbuf]

@[simp] theorem Packet.bytes_prepend (x : Bytes) : (m.prepend x w).1.bytes = x ++ m.bytes := rfl

end Bytes

end Nutcracker
