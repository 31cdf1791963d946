import Nutcracker.Message.Layout
import Nutcracker.Redis.Vector

/-!
# Copying bulks

`redis_copy_bulk` takes exactly one bulk from a chain in which bulks are laid out.
-/

namespace Nutcracker

open Lib

/-- A bulk as an item: its length line up to the carriage return has to lie in one mbuf. -/
def bulkItem (data : Bytes) : Item :=
  ⟨byteOf '$' :: decimal data.length ++ [CR], LF :: data ++ CRLF⟩

/-- The null bulk. -/
def nullItem : Item :=
  ⟨[byteOf '$', byteOf '-', byteOf '1', CR], [LF]⟩

/-- What `redis_copy_bulk` can move: a null bulk, or a bulk whose length, with its lines, fits a
word. -/
def RedisItem (item : Item) : Prop :=
  item = nullItem ∨ ∃ data, item = bulkItem data ∧ item.whole.length < word32

theorem length_whole_bulkItem (data : Bytes) :
    (bulkItem data).whole.length = data.length + 4 + ((decimal data.length).length + 1) := by
  simp [bulkItem, Item.whole]
  omega

theorem takeWhile_digits {num : Bytes} (digits : Digits num) (y : Bytes) :
    (num ++ CR :: y).takeWhile isdigit = num := by
  rw [List.takeWhile_append_of_pos digits, List.takeWhile_cons_of_neg (by decide), List.append_nil]

/-- The length that is computed from a length line is that of the bulk. -/
theorem redisBulkLen_of_line {item : Item} (good : RedisItem item) (y : Bytes) :
    redisBulkLen (item.line ++ y) = item.whole.length := by
  rcases good with rfl | ⟨data, rfl, fits⟩
  · rfl
  · rw [length_whole_bulkItem] at fits ⊢
    have digits := digits_decimal data.length
    have line : (bulkItem data).line ++ y = byteOf '$' :: (decimal data.length ++ CR :: y) := by
      simp [bulkItem]
    have unsigned : (byteOf '$' :: (decimal data.length ++ CR :: y)).getD 1 0 ≠ byteOf '-' := by
      obtain ⟨c, cs, decimal⟩ := List.exists_cons_of_ne_nil (decimal_ne_nil data.length)
      rw [decimal, List.cons_append, List.getD_cons_succ, List.getD_cons_zero]
      rintro rfl
      rw [decimal, digits_cons] at digits
      exact absurd digits.1 (by decide)
    rw [line, redisBulkLen, if_neg fun both => unsigned both.1]
    simp only [List.drop_succ_cons, List.drop_zero, takeWhile_digits digits]
    rw [wordVal_decimal (by omega), Nat.mod_eq_of_lt fits]

/-! ## One call -/

section Call

variable {dataSize : Nat} {src : Packet} {w : Buffers}

theorem redisReceive_bytes (n : Nat) (chain : List Mbuf) (m : Packet) (w : Buffers) :
    (redisReceive dataSize (takeMbufs n chain) m w).1.bytes =
      m.bytes ++ (chainBytes chain).take n := by
  rw [← chainBytes_taken]
  unfold redisReceive
  cases rest : (takeMbufs n chain).2.2 with
  | nil => simp [Packet.bytes]
  | cons b back =>
    have longer : (takeMbufs n chain).2.1 < b.data.length := takeWhole_lt rest
    rw [chainBytes_cons, List.take_append_of_le_length longer.le]
    refine (Packet.bytes_append _).trans ?_
    simp [Packet.bytes]

/-- What a call does when the reply is not empty. -/
theorem redisCopyBulk_of_dropEmpty {b : Mbuf} {chain : List Mbuf} {w' : Buffers}
    (first : dropEmpty src.mhdr w = (b :: chain, w')) (dst : Option Packet) :
    redisCopyBulk dataSize dst src w =
      { dst := dst.map fun m =>
          let received := redisReceive dataSize (takeMbufs (redisBulkLen b.data) (b :: chain)) m w'
          { received.1 with mlen := add32 received.1.mlen (redisBulkLen b.data) }
        src := ⟨remaining (takeMbufs (redisBulkLen b.data) (b :: chain)),
          sub32 src.mlen (redisBulkLen b.data)⟩
        bufs := dst.elim w' fun m =>
          (redisReceive dataSize (takeMbufs (redisBulkLen b.data) (b :: chain)) m w').2 } := by
  unfold redisCopyBulk
  rw [first]
  cases dst <;> rfl

variable {item : Item} {items : List Item}

/-- One bulk is moved. -/
theorem redisCopyBulk_item (laid : Laid (item :: items) src.mhdr) (good : RedisItem item)
    (dst : Packet) (w : Buffers) :
    (redisCopyBulk dataSize (some dst) src w).status = .ok ∧
      (∃ m, (redisCopyBulk dataSize (some dst) src w).dst = some m ∧
        m.bytes = dst.bytes ++ item.whole) ∧
      Laid items (redisCopyBulk dataSize (some dst) src w).src.mhdr ∧
      (redisCopyBulk dataSize (some dst) src w).src.mlen = sub32 src.mlen item.whole.length := by
  obtain ⟨b, chain, w', first, laid', y, data⟩ := laid.exists_first w
  have length : redisBulkLen b.data = item.whole.length := by
    rw [← data]
    exact redisBulkLen_of_line good y
  rw [redisCopyBulk_of_dropEmpty first, length]
  refine ⟨rfl, ⟨_, rfl, ?_⟩, laid'.remaining, rfl⟩
  refine (redisReceive_bytes _ _ dst w').trans ?_
  rw [laid'.bytes, Item.bytes_cons, List.take_left]

end Call

end Nutcracker
