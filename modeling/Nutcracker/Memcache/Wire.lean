import Nutcracker.Memcache.Reader

/-!
# Memcache requests on the wire

What a backend reads: a command line of words that are separated by spaces, and for the
storage commands a data block of the announced length.  The classes of commands that the
parser asks for say how many words of each kind a line has.
-/

namespace Nutcracker

open Lib MsgType

/-- The first word of a command line. -/
def commandName : MsgType → Bytes
  | reqMcGet => "get".toList.map byteOf
  | reqMcGets => "gets".toList.map byteOf
  | reqMcSet => "set".toList.map byteOf
  | reqMcAdd => "add".toList.map byteOf
  | reqMcCas => "cas".toList.map byteOf
  | reqMcReplace => "replace".toList.map byteOf
  | reqMcAppend => "append".toList.map byteOf
  | reqMcPrepend => "prepend".toList.map byteOf
  | reqMcIncr => "incr".toList.map byteOf
  | reqMcDecr => "decr".toList.map byteOf
  | reqMcDelete => "delete".toList.map byteOf
  | reqMcTouch => "touch".toList.map byteOf
  | reqMcQuit => "quit".toList.map byteOf
  | _ => []

theorem length_commandName (type : MsgType) : (commandName type).length ≤ 7 := by
  unfold commandName
  split <;> decide

/-- The commands with keys. -/
def takesKey (type : MsgType) : Bool :=
  memcacheStorage type || memcacheArithmetic type || memcacheTouch type || memcacheDelete type ||
    memcacheRetrieval type

/-- The number of numeric fields of a command line. -/
def numFields (type : MsgType) : Nat :=
  if memcacheStorage type then if memcacheCas type then 4 else 3
  else if memcacheArithmetic type || memcacheTouch type then 1
  else 0

/-- A memcached request. -/
structure McRequest where
  type : MsgType
  keys : List Bytes := []
  nums : List Bytes := []
  noreply : Bool := false
  data : Bytes := []
  deriving DecidableEq, Repr

namespace McRequest

/-- The words of the command line. -/
def words (q : McRequest) : List Bytes :=
  commandName q.type :: q.keys ++ q.nums ++ if q.noreply then [noreplyWord] else []

/-- The announced length of the data block. -/
def lengthField (q : McRequest) : Bytes :=
  q.nums.getD 2 []

/-- What follows the command line. -/
def block (q : McRequest) : Bytes :=
  if memcacheStorage q.type then q.data ++ CRLF else []

/-- The line has the words that its command demands. -/
structure Shape (q : McRequest) : Prop where
  command : takesKey q.type = true ∨ q.type = reqMcQuit
  quit : q.type = reqMcQuit → q.keys = []
  keys : takesKey q.type = true → q.keys ≠ []
  oneKey : memcacheRetrieval q.type = false → q.keys.length ≤ 1
  nums : q.nums.length = numFields q.type
  noreply : q.noreply = true → mayNoreply q.type = true

end McRequest

section Classes

/-- The classes of commands do not overlap. -/
theorem classes (type : MsgType) :
    (memcacheStorage type = true → memcacheArithmetic type = false ∧ memcacheTouch type = false ∧
      memcacheDelete type = false ∧ memcacheRetrieval type = false) ∧
    (memcacheArithmetic type = true → memcacheTouch type = false ∧ memcacheDelete type = false ∧
      memcacheRetrieval type = false) ∧
    (memcacheTouch type = true → memcacheDelete type = false ∧ memcacheRetrieval type = false) ∧
    (memcacheDelete type = true → memcacheRetrieval type = false) ∧
    (memcacheCas type = true → memcacheStorage type = true) ∧
    (type = reqMcQuit → takesKey type = false) ∧ (type = unknown → takesKey type = false) := by
  cases type <;> decide

/-- A word that names a command is its name. -/
theorem memcacheCommand_known {text : Bytes} {ch : UInt8} {type : MsgType}
    (named : memcacheCommand text ch = type) (known : type ≠ unknown) :
    text = commandName type ∧ (takesKey type = true ∨ type = reqMcQuit) := by
  obtain ⟨name, member, equal⟩ :
      ∃ name, (name, type) ∈ memcacheCommandsOf text.length ∧
        strcmp (text ++ [ch]) name = true := by
    cases found : lookupWith strcmp (memcacheCommandsOf text.length) (text ++ [ch]) with
    | none =>
      rw [memcacheCommand, found] at named
      exact absurd named.symm known
    | some value =>
      rw [memcacheCommand, found, Option.getD_some] at named
      exact mem_of_lookupWith (named ▸ found)
  have entries : ∀ len, ∀ entry ∈ memcacheCommandsOf len, len ≤ entry.1.length ∧
      (entry.1.map byteOf).take len = commandName entry.2 ∧
      (takesKey entry.2 = true ∨ entry.2 = reqMcQuit) := by
    intro len
    unfold memcacheCommandsOf
    split
    case h_6 => simp
    all_goals decide
  obtain ⟨long, first, command⟩ := entries _ _ member
  refine ⟨?_, command⟩
  obtain ⟨rest, split⟩ := strcmp_eq_true_iff.mp equal
  have taken := congrArg (List.take text.length) split
  rw [List.take_append_of_le_length (by simpa using long), first, List.take_left] at taken
  exact taken.symm

end Classes

/-! ## Requests as a backend reads them -/

/-- Neither a control byte nor white space. -/
def isgraph (c : UInt8) : Bool :=
  32 < c && c != 127

/-- The rule for keys that the source quotes. -/
structure KeyRule (k : Bytes) : Prop where
  nonempty : k ≠ []
  short : k.length ≤ memcacheMaxKeyLength
  bytes : ∀ c ∈ k, isgraph c = true

/-- A non-empty numeral. -/
def Numeral (w : Bytes) : Prop :=
  w ≠ [] ∧ Digits w

instance (w : Bytes) : Decidable (Numeral w) :=
  inferInstanceAs (Decidable (_ ∧ _))

/-- A decimal numeral.  The number of an arithmetic command or a touch may be negative. -/
def IsNumber (type : MsgType) (w : Bytes) : Prop :=
  Numeral w ∨
    memcacheStorage type = false ∧ ∃ d, w = byteOf '-' :: d ∧ Numeral d

/-- The bytes are exactly this request: one line, which is split at its spaces, and the
data block of the announced length. -/
structure McRequest.IsRequest (q : McRequest) (bytes : Bytes) : Prop where
  shape : q.Shape
  line : ∃ line, bytes = line ++ CRLF ++ q.block ∧ CR ∉ line ∧ LF ∉ line ∧
    Lib.words (byteOf ' ') line = q.words
  keys : ∀ k ∈ q.keys, KeyRule k
  nums : ∀ n ∈ q.nums, IsNumber q.type n
  data : memcacheStorage q.type = true → q.data.length = decVal q.lengthField

section Requests

variable {q : McRequest}

theorem isgraph_of_isdigit {c : UInt8} (digit : isdigit c = true) : isgraph c = true := by
  simp only [isdigit, Bool.and_eq_true, decide_eq_true_eq] at digit
  simp only [isgraph, Bool.and_eq_true, decide_eq_true_eq, bne_iff_ne, ne_eq]
  have low : (32 : UInt8).toNat = 32 := rfl
  exact ⟨UInt8.lt_iff_toNat_lt.mpr (by omega), by rintro rfl; exact absurd digit (by decide)⟩

theorem isgraph_commandName (type : MsgType) : ∀ c ∈ commandName type, isgraph c = true := by
  unfold commandName
  split <;> decide

theorem IsNumber.graph {type : MsgType} {w : Bytes} (number : IsNumber type w) :
    ∀ c ∈ w, isgraph c = true := by
  intro c member
  rcases number with ⟨_, digits⟩ | ⟨_, d, rfl, _, digits⟩
  · exact isgraph_of_isdigit (digits c member)
  · rcases List.mem_cons.mp member with rfl | later
    · decide
    · exact isgraph_of_isdigit (digits c later)

/-- A command other than a retrieval has one key. -/
theorem McRequest.Shape.one_key (shape : q.Shape) (takes : takesKey q.type = true)
    (other : memcacheRetrieval q.type = false) : ∃ k, q.keys = [k] := by
  have some_ := List.length_pos_iff.mpr (shape.keys takes)
  have one := shape.oneKey other
  exact List.length_eq_one_iff.mp (by omega)

/-- The numeric fields stand behind the name and the key. -/
theorem McRequest.Shape.getD_words (shape : q.Shape) (takes : takesKey q.type = true)
    (other : memcacheRetrieval q.type = false) {n : Nat} (field : n < numFields q.type) :
    q.words.getD (n + 2) [] = q.nums.getD n [] := by
  obtain ⟨k, key⟩ := shape.one_key takes other
  have length := shape.nums
  simp only [McRequest.words, key, List.cons_append, List.nil_append, List.getD_cons_succ]
  rw [List.getD_append _ _ _ _ (by omega)]

theorem McRequest.Shape.number_mem (shape : q.Shape) {n : Nat} (field : n < numFields q.type) :
    q.nums.getD n [] ∈ q.nums := by
  have length := shape.nums
  rw [List.getD_eq_getElem _ _ (by omega)]
  exact List.getElem_mem _

end Requests

end Nutcracker
