import Nutcracker.Memcache.Prefixes

/-!
# What the memcache request parser accepts

An accepted request is a command line and its data block as a backend reads them, except
that the parser does not look at the bytes of a key, takes a minus sign for a number and
counts the length of a value in 32 bits.
-/

namespace Nutcracker

open Lib MsgType McReqState

/-- The command that the first word of a line names. -/
def lineType (ws : List Bytes) : MsgType :=
  memcacheCommand (ws.headD []) (byteOf ' ')

/-- The words of a command line have no control bytes, the number of an arithmetic command
or a touch is not just a minus sign, and a value is announced with a length that fits into
32 bits. -/
structure PlainWords (ws : List Bytes) : Prop where
  bytes : ∀ w ∈ ws, ∀ c ∈ w, isgraph c = true
  number : (memcacheArithmetic (lineType ws) || memcacheTouch (lineType ws)) = true →
    ws.getD 2 [] ≠ [byteOf '-']
  length : memcacheStorage (lineType ws) = true → decVal (ws.getD 4 []) < word32

/-- The first word tells which numbers a command has. -/
theorem lineType_words (q : McRequest) :
    memcacheStorage (lineType q.words) = memcacheStorage q.type ∧
      (memcacheArithmetic (lineType q.words) || memcacheTouch (lineType q.words)) =
        (memcacheArithmetic q.type || memcacheTouch q.type) := by
  have named : lineType q.words = memcacheCommand (commandName q.type) (byteOf ' ') := rfl
  rw [named]
  cases q.type <;> exact ⟨rfl, rfl⟩

section Accepted

variable {line bytes rest : Bytes} {q : McRequest}

theorem takeWhile_line (clean : CR ∉ line) (rest : Bytes) :
    (line ++ CRLF ++ rest).takeWhile (· ≠ CR) = line := by
  rw [List.append_assoc, List.takeWhile_append_of_pos]
  · simp
  · intro c member
    simpa using fun same : c = CR => clean (same ▸ member)

/-- A request has plain words, unless its length field is too large. -/
theorem McRequest.IsRequest.plainWords (request : q.IsRequest bytes)
    (length : memcacheStorage q.type = true → q.data.length < word32) :
    PlainWords (Lib.words (byteOf ' ') (bytes.takeWhile (· ≠ CR))) := by
  have exclusive := classes q.type
  obtain ⟨line, rfl, clean, _, words⟩ := request.line
  rw [takeWhile_line clean, words]
  obtain ⟨stores, counts⟩ := lineType_words q
  refine ⟨fun w member c inside => ?_, counts ▸ fun number same => ?_, stores ▸ fun storage => ?_⟩
  · simp only [McRequest.words, List.cons_append, List.mem_cons, List.mem_append] at member
    rcases member with rfl | (key | number) | noreply
    · exact isgraph_commandName q.type c inside
    · exact (request.keys w key).bytes c inside
    · exact (request.nums w number).graph c inside
    · split at noreply
      · rw [List.mem_singleton.mp noreply] at inside
        revert c
        decide
      · cases noreply
  · have plain : memcacheStorage q.type = false ∧ memcacheRetrieval q.type = false := by grind
    have takes : takesKey q.type = true := by grind [takesKey]
    have field : 0 < numFields q.type := by simp [numFields, plain.1, number]
    rw [request.shape.getD_words takes plain.2 field] at same
    have isNumber := request.nums _ (request.shape.number_mem field)
    rw [same] at isNumber
    rcases isNumber with ⟨_, digits⟩ | ⟨_, d, minus, nonempty, _⟩
    · exact absurd digits (by decide)
    · exact nonempty (List.cons.inj minus).2.symm
  · have field : 2 < numFields q.type := by
      rw [numFields, if_pos storage]
      split <;> decide
    rw [request.shape.getD_words (by simp [takesKey, storage]) (exclusive.1 storage).2.2.2 field]
    exact request.data storage ▸ length storage

/-- The number that the parser accepts, unless it is just a minus sign. -/
theorem FieldText.isNumber {type : MsgType} {w : Bytes} (field : FieldText type w)
    (number : memcacheStorage type = false → w ≠ [byteOf '-']) : IsNumber type w := by
  obtain ⟨nonempty, digits | ⟨plain, d, rfl, digits⟩⟩ := field
  · exact .inl ⟨nonempty, digits⟩
  · refine .inr ⟨plain, d, rfl, ?_, digits⟩
    rintro rfl
    exact number plain rfl

/-- A command line with plain words is a request, together with its data block. -/
theorem IsLine.isRequest (isLine : IsLine line q)
    (plain : PlainWords (Lib.words (byteOf ' ') line))
    (length : memcacheStorage q.type = true → q.data.length = wordVal q.lengthField) :
    q.IsRequest (line ++ CRLF ++ q.block) := by
  have exclusive := classes q.type
  have words := isLine.words
  have shape := isLine.shape
  rw [words] at plain
  obtain ⟨stores, counts⟩ := lineType_words q
  refine ⟨shape, ⟨line, rfl, isLine.line, fun lineFeed => ?_, words⟩, fun k member => ?_,
    fun n member => ?_, fun storage => ?_⟩
  · rcases mem_words_of_mem (byteOf ' ') lineFeed with space | ⟨w, member, inside⟩
    · exact absurd space (by decide)
    · rw [words] at member
      exact absurd (plain.bytes w member LF inside) (by decide)
  · obtain ⟨nonempty, short⟩ := isLine.keys k member
    exact ⟨nonempty, short, plain.bytes k (by simp [McRequest.words, member])⟩
  · refine (isLine.nums n member).isNumber fun other same => ?_
    -- a command with a number and without a value is arithmetic or a touch
    have some_ : 0 < q.nums.length := List.length_pos_of_mem member
    rw [shape.nums, numFields, if_neg (by simp [other])] at some_
    have number : (memcacheArithmetic q.type || memcacheTouch q.type) = true := by grind
    have one : q.nums.length = 1 := by rw [shape.nums, numFields]; simp [other, number]
    obtain ⟨n', only⟩ := List.length_eq_one_iff.mp one
    have takes : takesKey q.type = true := by grind [takesKey]
    have field : 0 < numFields q.type := by simp [numFields, other, number]
    refine plain.number (counts.trans number) ?_
    rw [shape.getD_words takes (by grind) field, only]
    rw [only, List.mem_singleton] at member
    rw [← same, member]
    rfl
  · have field : 2 < numFields q.type := by
      rw [numFields, if_pos storage]
      split <;> decide
    have bound := plain.length (stores.trans storage)
    rw [shape.getD_words (by simp [takesKey, storage]) (exclusive.1 storage).2.2.2 field] at bound
    rw [length storage]
    exact Nat.mod_eq_of_lt bound

end Accepted

/-- A request that is accepted in one buffer is exactly one request as a backend reads it,
with the type and the keys that the parser found, if and only if the words of its line are
plain. -/
theorem memcacheParseReq_isRequest_iff {dataSize : Nat} {b : Bytes}
    (accepted : (memcacheParseReq dataSize (.ofBuffer swStart b 0)).result = .ok) :
    let m := memcacheParseReq dataSize (.ofBuffer swStart b 0)
    (∃ q : McRequest, q.type = m.type ∧ q.keys = m.keyList ∧ q.IsRequest (b.take m.pos)) ↔
      PlainWords (Lib.words (byteOf ' ') (b.takeWhile (· ≠ CR))) := by
  obtain ⟨t, rest, done⟩ := (memcacheParseReq_ok_iff dataSize b).mp accepted
  obtain ⟨pos, type, keys, _, _⟩ := memcacheParseReq_of_done dataSize b done
  obtain ⟨q, line, sameType, sameKeys, isLine, rfl, length⟩ := McReading.run_isLine done
  simp only [type, keys]
  generalize (memcacheParseReq dataSize _).pos = used at pos ⊢
  have taken : (line ++ CRLF ++ q.block ++ rest).take used = line ++ CRLF ++ q.block := by
    rw [List.length_append] at pos
    rw [show used = (line ++ CRLF ++ q.block).length by omega, List.take_left]
  have first : (line ++ CRLF ++ q.block ++ rest).takeWhile (· ≠ CR) = line := by
    rw [List.append_assoc, takeWhile_line isLine.line]
  rw [taken, first, ← sameType, ← sameKeys]
  constructor
  · rintro ⟨q', type', _, request⟩
    have plain := request.plainWords fun storage => ?_
    · rwa [takeWhile_line isLine.line] at plain
    · -- both readings have the same line, so the same data block
      obtain ⟨line', same, clean, _⟩ := request.line
      obtain rfl : line = line' := by
        rw [← takeWhile_line isLine.line, same, takeWhile_line clean]
      rw [type'] at storage
      rw [List.append_cancel_left_eq] at same
      simp only [McRequest.block, type', storage, if_true, List.append_cancel_right_eq] at same
      rw [← same, length storage]
      exact wordVal_lt _
  · intro plain
    exact ⟨q, rfl, rfl, isLine.isRequest plain length⟩

/-- `incr n 5` is exactly one request. -/
theorem memcacheParseReq_isRequest_incr :
    let b := "incr n 5\r\n".toList.map byteOf
    ∃ q : McRequest, q.type = .reqMcIncr ∧ q.keys = [[byteOf 'n']] ∧ q.IsRequest b := by
  intro b
  have accepted : (memcacheParseReq 464 (.ofBuffer swStart b 0)).result = .ok := by decide
  have plain : PlainWords (Lib.words (byteOf ' ') (b.takeWhile (· ≠ CR))) :=
    ⟨by decide, by decide, by decide⟩
  exact (memcacheParseReq_isRequest_iff accepted).mpr plain

/-- A short request has plain words. -/
theorem McRequest.IsRequest.plainWords_of_short {q : McRequest} {bytes : Bytes}
    (request : q.IsRequest bytes) (short : bytes.length < word32) :
    PlainWords (Lib.words (byteOf ' ') (bytes.takeWhile (· ≠ CR))) := by
  refine request.plainWords fun storage => Nat.lt_of_le_of_lt ?_ short
  obtain ⟨line, rfl, _⟩ := request.line
  simp only [McRequest.block, storage, if_true, List.length_append]
  omega

/-- The parser accepts exactly `bytes`, and no request of the grammar with the type and the keys
it reports is written so. -/
def Smuggled (bytes : Bytes) : Prop :=
  let m := memcacheParseReq 464 (.ofBuffer swStart bytes 0)
  m.result = .ok ∧ m.pos = bytes.length ∧
    ¬ ∃ q : McRequest, q.type = m.type ∧ q.keys = m.keyList ∧ q.IsRequest bytes

/-- A line feed in a key, a minus sign as a number, and a length of `2 ^ 32` with an empty
data block are accepted. -/
theorem memcacheParseReq_smuggled :
    Smuggled ("get a\nb\r\n".toList.map byteOf) ∧
      Smuggled ("incr n -\r\n".toList.map byteOf) ∧
      Smuggled ("set k 0 0 ".toList.map byteOf ++
        decimal (2 ^ 32) ++ CRLF ++ CRLF) := by
  refine ⟨⟨by decide, by decide, ?_⟩, ⟨by decide, by decide, ?_⟩, by decide +kernel,
    by decide +kernel, ?_⟩
  · rintro ⟨q, _, _, request⟩
    exact absurd (request.plainWords_of_short (by decide)).bytes (by decide)
  · rintro ⟨q, _, _, request⟩
    exact absurd (request.plainWords_of_short (by decide)).number (by decide)
  · rintro ⟨q, _, _, request⟩
    exact absurd (request.plainWords_of_short (by decide +kernel)).length (by decide +kernel)

end Nutcracker
