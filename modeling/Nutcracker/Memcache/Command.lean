import Nutcracker.Message.Parse

/-!
# Memcache commands and replies

The words that `nc_memcache.c` recognises, by their length, and the classes of
commands that the request parser asks for.  Three-letter words are compared
together with the byte that ends them.  Both parsers pass over the bytes of a value
in the same way.
-/

namespace Nutcracker

open Lib MsgType

/-- `islower` of the C locale. -/
def islower (ch : UInt8) : Bool :=
  byteOf 'a' ≤ ch && ch ≤ byteOf 'z'

def memcacheMaxKeyLength : Nat := 250

def memcacheStorage : MsgType → Bool
  | reqMcSet | reqMcCas | reqMcAdd | reqMcReplace | reqMcAppend | reqMcPrepend => true
  | _ => false

def memcacheCas : MsgType → Bool
  | reqMcCas => true
  | _ => false

def memcacheRetrieval : MsgType → Bool
  | reqMcGet | reqMcGets => true
  | _ => false

def memcacheArithmetic : MsgType → Bool
  | reqMcIncr | reqMcDecr => true
  | _ => false

def memcacheDelete : MsgType → Bool
  | reqMcDelete => true
  | _ => false

def memcacheTouch : MsgType → Bool
  | reqMcTouch => true
  | _ => false

/-- The command names of `SW_REQ_TYPE`, by their length. -/
def memcacheCommandsOf : Nat → List (List Char × MsgType)
  | 3 => [
      ("get ".toList, reqMcGet), ("set ".toList, reqMcSet), ("add ".toList, reqMcAdd),
      ("cas ".toList, reqMcCas)]
  | 4 => [
      ("gets".toList, reqMcGets), ("incr".toList, reqMcIncr), ("decr".toList, reqMcDecr),
      ("quit".toList, reqMcQuit)]
  | 5 => [("touch".toList, reqMcTouch)]
  | 6 => [("append".toList, reqMcAppend), ("delete".toList, reqMcDelete)]
  | 7 => [("prepend".toList, reqMcPrepend), ("replace".toList, reqMcReplace)]
  | _ => []

/-- The first words of a reply in `SW_RSP_STR`, by their length. -/
def memcacheRepliesOf : Nat → List (List Char × MsgType)
  | 3 => [("END\r".toList, rspMcEnd)]
  | 5 => [("VALUE".toList, rspMcValue), ("ERROR".toList, rspMcError)]
  | 6 => [("STORED".toList, rspMcStored), ("EXISTS".toList, rspMcExists)]
  | 7 => [("DELETED".toList, rspMcDeleted), ("TOUCHED".toList, rspMcTouched)]
  | 9 => [("NOT_FOUND".toList, rspMcNotFound)]
  | 10 => [("NOT_STORED".toList, rspMcNotStored)]
  | 12 => [("CLIENT_ERROR".toList, rspMcClientError), ("SERVER_ERROR".toList, rspMcServerError)]
  | _ => []

/-- The type of a word from offset `m` up to the cursor `p`. -/
def memcacheWord (wordsOf : Nat → List (List Char × MsgType)) (b : Bytes) (m p : Nat) : MsgType :=
  (lookupWith strcmp (wordsOf (p - m)) (b.drop m)).getD unknown

/-- No word is longer than its bytes and the one after them. -/
def ShortWords (wordsOf : Nat → List (List Char × MsgType)) : Prop :=
  wordsOf 0 = [] ∧ ∀ len, ∀ entry ∈ wordsOf len, entry.1.length ≤ len + 1

theorem memcacheCommandsOf_short : ShortWords memcacheCommandsOf := by
  refine ⟨rfl, fun len => ?_⟩
  unfold memcacheCommandsOf
  split
  case h_6 => simp
  all_goals decide

theorem memcacheRepliesOf_short : ShortWords memcacheRepliesOf := by
  refine ⟨rfl, fun len => ?_⟩
  unfold memcacheRepliesOf
  split
  case h_8 => simp
  all_goals decide

/-- Bytes behind the cursor do not change the word before it. -/
theorem memcacheWord_append {wordsOf : Nat → List (List Char × MsgType)}
    (short : ShortWords wordsOf) {x y : Bytes} {m p : Nat} (inside : p < x.length) :
    memcacheWord wordsOf (x ++ y) m p = memcacheWord wordsOf x m p := by
  unfold memcacheWord
  by_cases before : m ≤ p
  · rw [List.drop_append_of_le_length (by omega), lookupWith_strcmp_append]
    intro entry member
    have := short.2 _ entry member
    simp only [List.length_drop]
    omega
  · rw [show p - m = 0 by omega, short.1]
    rfl

/-! ## Values -/

section Values

variable {σ : Type}

/-- The bytes of a value, counted down in `vlen`.  The source leaves the spent length
in `vlen`; nothing reads it before it is set again, so the model clears it. -/
def skipVlen (after : σ) : Bytes → Scan σ → Nat → Flow (Scan σ) :=
  passOver 0 CR (fun r => r.vlen) (fun n r => { r with vlen := r.vlen - n })
    fun r => { r with vlen := 0, state := after }

theorem skipVlen_resumable (after : σ) {x y : Bytes} {r : Scan σ} {p : Nat}
    (inside : p < x.length) :
    skipVlen after x r p = skipVlen after (x ++ y) r p ∨
      ∃ s, s.state = r.state ∧ skipVlen after x r p = .next x.length s ∧
        skipVlen after (x ++ y) s x.length = skipVlen after (x ++ y) r p := by
  have countdown : Countdown (fun r : Scan σ => r.vlen) (fun n r => { r with vlen := r.vlen - n })
      (fun r => { r with vlen := 0, state := after }) :=
    ⟨by simp, by simp [Nat.sub_sub], by simp⟩
  rcases countdown.resumable 0 CR inside with same | ⟨suspended, again⟩
  · exact .inl same
  · refine .inr ⟨_, ?_, suspended, again⟩
    rfl

end Values

end Nutcracker
