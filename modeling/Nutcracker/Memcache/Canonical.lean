import Nutcracker.Memcache.Prefixes

/-!
# Canonical memcache requests

A canonical request has its words separated by single spaces.  The reader accepts it and
finds its type, keys and flags: each word is read from the state before it, and the byte
behind it decides which state comes next.
-/

namespace Nutcracker

open Lib MsgType McReqState

namespace McRequest

/-- The words behind the name of the command. -/
def arguments (q : McRequest) : List Bytes :=
  q.keys ++ q.nums ++ if q.noreply then [noreplyWord] else []

/-- The command line. -/
def line (q : McRequest) : Bytes :=
  commandName q.type ++ q.arguments.flatMap (byteOf ' ' :: ·)

/-- The bytes of a request. -/
def encode (q : McRequest) : Bytes :=
  q.line ++ CRLF ++ q.block

/-- What a canonical request is made of. -/
structure Canonical (q : McRequest) : Prop where
  shape : q.Shape
  keys : ∀ k ∈ q.keys, k ≠ [] ∧ k.length ≤ memcacheMaxKeyLength ∧
    ∀ c ∈ k, c ≠ byteOf ' ' ∧ c ≠ CR ∧ c ≠ LF
  nums : ∀ n ∈ q.nums, Numeral n
  short : ∀ n ∈ q.nums.take 3, n.length ≤ 10
  casId : ∀ n ∈ q.nums.drop 3, n.length ≤ 20
  data : memcacheStorage q.type = true →
    q.data.length = decVal q.lengthField ∧ q.data.length < word32

end McRequest

/-- The commands with keys. -/
def keyCommands : List MsgType :=
  [reqMcGet, reqMcGets, reqMcSet, reqMcAdd, reqMcCas, reqMcReplace, reqMcAppend, reqMcPrepend,
    reqMcIncr, reqMcDecr, reqMcDelete, reqMcTouch]

theorem mem_keyCommands {type : MsgType} (takes : takesKey type = true) : type ∈ keyCommands := by
  simp only [takesKey, memcacheStorage, memcacheArithmetic, memcacheTouch, memcacheDelete,
    memcacheRetrieval, Bool.or_eq_true] at takes
  rcases takes with (((h | h) | h) | h) | h <;> split at h <;> first | decide | cases h

namespace McReading

variable {s t : McReading} {ys : Bytes}

/-- The name of a command with keys. -/
theorem run_name {type : MsgType} (takes : takesKey type = true) (ys : Bytes) :
    run feed {} (commandName type ++ byteOf ' ' :: ys) =
      run feed { state := swSpacesBeforeKey, type := type } ys := by
  have named : run feed {} (commandName type ++ [byteOf ' ']) =
      .pending { state := swSpacesBeforeKey, type := type } := by
    have all : ∀ type ∈ keyCommands, run feed {} (commandName type ++ [byteOf ' ']) =
        .pending { state := swSpacesBeforeKey, type := type } := by decide
    exact all type (mem_keyCommands takes)
  rw [← run_append_of_pending named, List.append_assoc, List.singleton_append]

/-- The line of a quit. -/
theorem run_quit (ys : Bytes) :
    run feed {} (commandName reqMcQuit ++ CR :: ys) =
      run feed { state := swAlmostDone, type := reqMcQuit, quit := true } ys := by
  have named : run feed {} (commandName reqMcQuit ++ [CR]) =
      .pending { state := swAlmostDone, type := reqMcQuit, quit := true } := by
    decide
  rw [← run_append_of_pending named, List.append_assoc, List.singleton_append]

/-- The bytes of a key. -/
theorem run_key {k : Bytes}
    (state : s.state = swSpacesBeforeKey ∨ s.state = swSpacesBeforeKeys ∨
      s.state = swKey ∧ s.token = none)
    (nonempty : k ≠ []) (bytes : ∀ c ∈ k, c ≠ byteOf ' ' ∧ c ≠ CR) (ys : Bytes) :
    run feed s (k ++ ys) = run feed { s with state := swKey, token := some k } ys := by
  cases k with
  | nil => exact absurd rfl nonempty
  | cons c k =>
    obtain ⟨space, cr⟩ := bytes c (by simp)
    have first : s.feed c = .more { s with state := swKey, token := some [c] } := by
      rcases state with state | state | ⟨state, token⟩
      · simp [feed, state, feedKey, enter, space, cr]
      · simp [feed, state, feedKey, enter, space, cr]
      · simp [feed, state, token, feedKey, space, cr]
    rw [List.cons_append, run_cons_more first]
    refine run_collect feed (fun l => { s with state := swKey, token := some (c :: l) }) k ys ?_
    rintro l x r rfl
    obtain ⟨space, cr⟩ := bytes x (by simp)
    simp [feed, feedKey, space, cr]

/-- The state of a number that is kept as a token. -/
def numberOf : McReqState → McReqState
  | swSpacesBeforeFlags => swFlags
  | swSpacesBeforeExpiry => swExpiry
  | swSpacesBeforeCas => swCas
  | _ => swNum

/-- The bytes of such a number. -/
theorem run_number {before : McReqState} {n : Bytes}
    (kind : before = swSpacesBeforeFlags ∨ before = swSpacesBeforeExpiry ∨
      before = swSpacesBeforeCas ∨ before = swSpacesBeforeNum)
    (numeral : Numeral n) (ys : Bytes) :
    run feed { s with state := before } (n ++ ys) =
      run feed { s with state := numberOf before, token := some n } ys := by
  obtain ⟨nonempty, digits⟩ := numeral
  cases n with
  | nil => exact absurd rfl nonempty
  | cons c n =>
    rw [digits_cons] at digits
    obtain ⟨space, _⟩ := isdigit_inner digits.1
    have first : ({ s with state := before } : McReading).feed c =
        .more { s with state := numberOf before, token := some [c] } := by
      rcases kind with rfl | rfl | rfl | rfl <;>
        simp [feed, feedBefore, mark, numberOf, space, digits.1]
    rw [List.cons_append, run_cons_more first]
    refine run_collect feed
      (fun l => { s with state := numberOf before, token := some (c :: l) }) n ys ?_
    rintro l x r rfl
    have digit := digits.2 x (by simp)
    rcases kind with rfl | rfl | rfl | rfl <;> simp [feed, grow, numberOf, digit]

/-- The length of the value. -/
theorem run_vlen {n : Bytes} (numeral : Numeral n) (ys : Bytes) :
    run feed { s with state := swSpacesBeforeVlen } (n ++ ys) =
      run feed { s with state := swVlen, vlen := wordVal n } ys := by
  obtain ⟨nonempty, digits⟩ := numeral
  cases n with
  | nil => exact absurd rfl nonempty
  | cons c n =>
    rw [digits_cons] at digits
    obtain ⟨space, _⟩ := isdigit_inner digits.1
    have first : ({ s with state := swSpacesBeforeVlen } : McReading).feed c =
        .more { s with state := swVlen, vlen := wordVal [c] } := by
      simp [feed, space, digits.1, wordVal_digit digits.1]
    rw [List.cons_append, run_cons_more first]
    refine run_collect feed (fun l => { s with state := swVlen, vlen := wordVal (c :: l) }) n ys ?_
    rintro l x r rfl
    have digit := digits.2 x (by simp)
    simp [feed, digit, accum_wordVal]

/-- The word `noreply`. -/
theorem run_noreplyWord (may : mayNoreply s.type = true) (ys : Bytes) :
    run feed { s with state := swRuntoCrlf } (noreplyWord ++ ys) =
      run feed { s with state := swNoreply, token := some noreplyWord } ys := by
  have first : ({ s with state := swRuntoCrlf } : McReading).feed (byteOf 'n') =
      .more { s with state := swNoreply, token := some [byteOf 'n'] } := by
    simp [feed, mark, may, show byteOf 'n' ≠ byteOf ' ' by decide]
  have split : noreplyWord = byteOf 'n' :: "oreply".toList.map byteOf := rfl
  rw [split, List.cons_append, run_cons_more first]
  refine run_collect feed
    (fun l => { s with state := swNoreply, token := some (byteOf 'n' :: l) }) _ ys ?_
  intro l x r parts
  have member : x ∈ "oreply".toList.map byteOf := by rw [parts]; simp
  have inner : ∀ c ∈ "oreply".toList.map byteOf, c ≠ byteOf ' ' ∧ c ≠ CR := by
    decide
  simp [feed, grow, inner x member]

/-- The end of the line after its keys and numbers, with or without `noreply`. -/
theorem run_rest {noreply : Bool} (may : noreply = true → mayNoreply s.type = true)
    (silent : s.noreply = false) (free : s.token = none)
    (space : t.feed (byteOf ' ') = .more { s with state := swRuntoCrlf })
    (cr : t.feed CR = .more s.endLine) (ys : Bytes) :
    run feed t ((if noreply then [noreplyWord] else []).flatMap (byteOf ' ' :: ·) ++ CR :: ys) =
      run feed { s with noreply := noreply }.endLine ys := by
  cases noreply with
  | false =>
    rw [if_neg (by decide), List.flatMap_nil, List.nil_append, run_cons_more cr, ← silent]
  | true =>
    have ends : ({ s with state := swNoreply, token := some noreplyWord } : McReading).feed CR =
        .more { s with noreply := true }.endLine := by
      simp [feed, feedRest, endLine, free, show CR ≠ byteOf ' ' by decide]
    rw [if_pos rfl, List.flatMap_singleton, List.cons_append, run_cons_more space,
      run_noreplyWord (may rfl), run_cons_more ends]

/-- The state after the command line. -/
def afterLine (q : McRequest) : McReading where
  state := if memcacheStorage q.type then swRuntoVal else swAlmostDone
  type := q.type
  keys := q.keys
  vlen := if memcacheStorage q.type then wordVal q.lengthField else 0
  quit := q.type = reqMcQuit
  noreply := q.noreply

/-- A key and the space behind it. -/
theorem feed_key_space {k : Bytes} (state : s.state = swKey) (token : s.token = some k)
    (nonempty : k ≠ []) (short : k.length ≤ memcacheMaxKeyLength) :
    s.feed (byteOf ' ') = .more ({ s with keys := s.keys ++ [k] }.enter (mcAfterKey s.type)) := by
  simp [feed, state, feedKey, token, nonempty, Nat.not_lt.mpr short]

theorem retrieval_only {type : MsgType} (retrieval : memcacheRetrieval type = true) :
    memcacheStorage type = false ∧ memcacheArithmetic type = false ∧ memcacheTouch type = false ∧
      memcacheDelete type = false := by
  have exclusive := classes type
  grind

/-- The keys of a retrieval. -/
theorem run_keys {ks : List Bytes} {k : Bytes} (retrieval : memcacheRetrieval s.type = true)
    (state : s.state = swKey) (token : s.token = some k)
    (keys : ∀ k' ∈ k :: ks, k' ≠ [] ∧ k'.length ≤ memcacheMaxKeyLength ∧
      ∀ c ∈ k', c ≠ byteOf ' ' ∧ c ≠ CR) (ys : Bytes) :
    run feed s (ks.flatMap (byteOf ' ' :: ·) ++ CR :: ys) =
      run feed { s with state := swAlmostDone, token := none, keys := s.keys ++ k :: ks } ys := by
  induction ks generalizing s k with
  | nil =>
    obtain ⟨nonempty, short, _⟩ := keys k (by simp)
    obtain ⟨storage, arithmetic, touch, _⟩ := retrieval_only retrieval
    have ends : s.feed CR =
        .more { s with state := swAlmostDone, token := none, keys := s.keys ++ [k] } := by
      simp [feed, state, feedKey, token, nonempty, Nat.not_lt.mpr short, mayEndAtKey, storage,
        arithmetic, touch, enter, show CR ≠ byteOf ' ' by decide]
    rw [List.flatMap_nil, List.nil_append, run_cons_more ends]
  | cons k' ks ih =>
    obtain ⟨nonempty, short, _⟩ := keys k (by simp)
    obtain ⟨nonempty', _, bytes⟩ := keys k' (by simp)
    obtain ⟨storage, arithmetic, touch, delete⟩ := retrieval_only retrieval
    have after : mcAfterKey s.type = swSpacesBeforeKeys := by
      simp [mcAfterKey, storage, arithmetic, touch, delete, retrieval]
    have rest := @ih { s with state := swKey, token := some k', keys := s.keys ++ [k] } k' retrieval
      rfl rfl fun k'' member => keys k'' (List.mem_cons_of_mem k member)
    rw [List.flatMap_cons, List.cons_append, List.cons_append, List.append_assoc,
      run_cons_more (feed_key_space state token nonempty short), after,
      run_key (.inr (.inl rfl)) nonempty' bytes]
    refine Eq.trans rest ?_
    rw [List.append_assoc, List.singleton_append]

/-! ## The command line -/

section Line

variable {q : McRequest} (canonical : q.Canonical)
include canonical

/-- The name and the key of a command with one key. -/
theorem run_name_key (takes : takesKey q.type = true) (other : memcacheRetrieval q.type = false)
    (ys : Bytes) :
    ∃ k, q.keys = [k] ∧ k ≠ [] ∧ k.length ≤ memcacheMaxKeyLength ∧
      run feed {} (q.line ++ CR :: ys) =
        run feed { state := swKey, token := some k, type := q.type }
          ((q.nums ++ if q.noreply then [noreplyWord] else []).flatMap (byteOf ' ' :: ·) ++
            CR :: ys) := by
  obtain ⟨k, key⟩ := canonical.shape.one_key takes other
  obtain ⟨nonempty, short, bytes⟩ := canonical.keys k (by simp [key])
  refine ⟨k, key, nonempty, short, ?_⟩
  have inner : ∀ c ∈ k, c ≠ byteOf ' ' ∧ c ≠ CR := fun c member =>
    ⟨(bytes c member).1, (bytes c member).2.1⟩
  rw [McRequest.line, McRequest.arguments, key, List.append_assoc [k], List.singleton_append,
    List.flatMap_cons, List.append_assoc, List.append_assoc, List.cons_append, run_name takes,
    run_key (.inl rfl) nonempty inner]

theorem run_line_retrieval (retrieval : memcacheRetrieval q.type = true) (ys : Bytes) :
    run feed {} (q.line ++ CR :: ys) = run feed (afterLine q) ys := by
  obtain ⟨storage, arithmetic, touch, delete⟩ := retrieval_only retrieval
  have takes : takesKey q.type = true := by simp [takesKey, retrieval]
  have silent : q.noreply = false := by
    by_contra replied
    have may := canonical.shape.noreply (by simpa using replied)
    simp [mayNoreply, storage, arithmetic, touch, delete] at may
  have none_ : q.nums = [] := by
    have length := canonical.shape.nums
    rw [numFields, storage, arithmetic, touch] at length
    exact List.eq_nil_of_length_eq_zero length
  have notQuit : q.type ≠ reqMcQuit := fun quit => by simp [quit, memcacheRetrieval] at retrieval
  obtain ⟨k, ks, keys⟩ := List.exists_cons_of_ne_nil (canonical.shape.keys takes)
  have inner : ∀ k' ∈ k :: ks, k' ≠ [] ∧ k'.length ≤ memcacheMaxKeyLength ∧
      ∀ c ∈ k', c ≠ byteOf ' ' ∧ c ≠ CR := by
    intro k' member
    obtain ⟨nonempty, short, bytes⟩ := canonical.keys k' (by rwa [keys])
    exact ⟨nonempty, short, fun c member => ⟨(bytes c member).1, (bytes c member).2.1⟩⟩
  obtain ⟨nonempty, _, bytes⟩ := inner k (by simp)
  have listed := run_keys (s := { state := swKey, token := some k, type := q.type }) retrieval
    rfl rfl
    inner ys
  rw [McRequest.line, McRequest.arguments, keys, none_, silent, if_neg (by decide), List.append_nil,
    List.append_nil, List.flatMap_cons, List.append_assoc, List.cons_append, List.cons_append,
    List.append_assoc, run_name takes, run_key (.inl rfl) nonempty bytes]
  refine listed.trans ?_
  simp [afterLine, storage, notQuit, keys, silent]

/-- A line whose key is followed by nothing but `noreply`. -/
theorem run_line_delete (delete : memcacheDelete q.type = true) (ys : Bytes) :
    run feed {} (q.line ++ CR :: ys) = run feed (afterLine q) ys := by
  have exclusive := classes q.type
  have storage : memcacheStorage q.type = false := by grind
  have number : (memcacheArithmetic q.type || memcacheTouch q.type) = false := by grind
  have notQuit : q.type ≠ reqMcQuit := fun quit => by simp [quit, memcacheDelete] at delete
  have none_ : q.nums = [] := by
    have length := canonical.shape.nums
    rw [numFields, storage, number] at length
    exact List.eq_nil_of_length_eq_zero length
  obtain ⟨k, key, nonempty, short, read⟩ := run_name_key canonical (by simp [takesKey, delete])
    (by grind) ys
  rw [read, none_, List.nil_append]
  refine (run_rest (s := { type := q.type, keys := [k] }) canonical.shape.noreply rfl rfl
    ?_ ?_ ys).trans
    ?_
  · rw [feed_key_space rfl rfl nonempty short]
    simp [mcAfterKey, enter, storage, number, delete]
  · simp [feed, feedKey, nonempty, Nat.not_lt.mpr short, mayEndAtKey, storage, number, enter,
      endLine,
      show CR ≠ byteOf ' ' by decide]
  · simp [afterLine, endLine, storage, notQuit, key]

/-- A line whose key is followed by one number. -/
theorem run_line_number (number : (memcacheArithmetic q.type || memcacheTouch q.type) = true)
    (ys : Bytes) : run feed {} (q.line ++ CR :: ys) = run feed (afterLine q) ys := by
  have exclusive := classes q.type
  have storage : memcacheStorage q.type = false := by grind
  have notQuit : q.type ≠ reqMcQuit := fun quit => by
    simp [quit, memcacheArithmetic, memcacheTouch] at number
  obtain ⟨n, one⟩ : ∃ n, q.nums = [n] := by
    have length := canonical.shape.nums
    rw [numFields, storage, number] at length
    exact List.length_eq_one_iff.mp length
  have numeral := canonical.nums n (by simp [one])
  obtain ⟨k, key, nonempty, short, read⟩ := run_name_key canonical (by grind [takesKey])
    (by grind) ys
  have space := feed_key_space (s := { state := swKey, token := some k, type := q.type }) rfl rfl
    nonempty short
  have after : mcAfterKey q.type = swSpacesBeforeNum := by simp [mcAfterKey, storage, number]
  have counted := run_number (s := { type := q.type, keys := [k] }) (.inr (.inr (.inr rfl))) numeral
      ((if q.noreply then [noreplyWord] else []).flatMap (byteOf ' ' :: ·) ++ CR :: ys)
  rw [read, one, List.singleton_append, List.flatMap_cons, List.append_assoc, List.cons_append,
    run_cons_more space, after]
  refine counted.trans ((run_rest (s := { type := q.type, keys := [k] }) canonical.shape.noreply rfl
    rfl ?_ ?_ ys).trans ?_)
  · simp [feed, numberOf, feedRest, show isdigit (byteOf ' ') = false by decide]
  · simp [feed, numberOf, feedRest, endLine, show CR ≠ byteOf ' ' by decide]
  · simp [afterLine, endLine, storage, notQuit, key]

/-- Key, flags, expiry and length of a storage command. -/
theorem run_storage (storage : memcacheStorage q.type = true) (ys : Bytes) :
    ∃ k n₁ n₂ n₃ more, q.keys = [k] ∧ q.nums = n₁ :: n₂ :: n₃ :: more ∧
      run feed {} (q.line ++ CR :: ys) =
        run feed { state := swVlen, type := q.type, keys := [k], vlen := wordVal n₃ }
          ((more ++ if q.noreply then [noreplyWord] else []).flatMap (byteOf ' ' :: ·) ++
            CR :: ys) := by
  have exclusive := classes q.type
  obtain ⟨n₁, n₂, n₃, more, fields⟩ : ∃ n₁ n₂ n₃ more, q.nums = n₁ :: n₂ :: n₃ :: more := by
    have length := canonical.shape.nums
    rw [numFields, storage, if_pos rfl] at length
    have long : 2 < q.nums.length := by
      split at length <;> omega
    rcases fields : q.nums with _ | ⟨n₁, _ | ⟨n₂, _ | ⟨n₃, more⟩⟩⟩
    · simp [fields] at long
    · simp [fields] at long
    · simp [fields] at long
    · exact ⟨n₁, n₂, n₃, more, rfl⟩
  have numeral : ∀ n ∈ [n₁, n₂, n₃], Numeral n := fun n member =>
    canonical.nums n (by rw [fields]; exact List.mem_append_left more member)
  obtain ⟨k, key, nonempty, short, read⟩ := run_name_key canonical (by simp [takesKey, storage])
    (exclusive.1 storage).2.2.2 ys
  refine ⟨k, n₁, n₂, n₃, more, key, fields, ?_⟩
  let s : McReading := { type := q.type, keys := [k] }
  have notDigit : isdigit (byteOf ' ') = false := by decide
  have afterKey :
      ({ state := swKey, token := some k, type := q.type } : McReading).feed (byteOf ' ') =
      .more { s with state := swSpacesBeforeFlags } := by
    rw [feed_key_space rfl rfl nonempty short, mcAfterKey, if_pos storage]
    rfl
  have afterFlags : ({ s with state := numberOf swSpacesBeforeFlags, token := some n₁ } :
      McReading).feed (byteOf ' ') = .more { s with state := swSpacesBeforeExpiry } := by
    simp [feed, numberOf, enter, notDigit, s]
  have afterExpiry : ({ s with state := numberOf swSpacesBeforeExpiry, token := some n₂ } :
      McReading).feed (byteOf ' ') = .more { s with state := swSpacesBeforeVlen } := by
    simp [feed, numberOf, enter, notDigit, s]
  rw [read, fields, List.cons_append, List.cons_append, List.cons_append, List.flatMap_cons,
    List.flatMap_cons, List.flatMap_cons]
  simp only [List.append_assoc, List.cons_append]
  rw [run_cons_more afterKey, run_number (.inl rfl) (numeral n₁ (by simp)),
    run_cons_more afterFlags,
    run_number (.inr (.inl rfl)) (numeral n₂ (by simp)), run_cons_more afterExpiry,
    run_vlen (numeral n₃ (by simp))]

theorem run_line_storage (storage : memcacheStorage q.type = true) (ys : Bytes) :
    run feed {} (q.line ++ CR :: ys) = run feed (afterLine q) ys := by
  have notQuit : q.type ≠ reqMcQuit := fun quit => by simp [quit, memcacheStorage] at storage
  have notDigit : isdigit (byteOf ' ') = false := by decide
  have distinct : CR ≠ byteOf ' ' := by decide
  obtain ⟨k, n₁, n₂, n₃, more, key, fields, read⟩ := run_storage canonical storage ys
  let s : McReading := { type := q.type, keys := [k], vlen := wordVal n₃ }
  have whole : { s with noreply := q.noreply }.endLine = afterLine q := by
    simp [afterLine, endLine, storage, notQuit, key, s, McRequest.lengthField, fields]
  have length := canonical.shape.nums
  rw [numFields, if_pos storage, fields] at length
  rw [read, ← whole]
  by_cases cas : memcacheCas q.type = true
  · obtain ⟨n₄, rfl⟩ : ∃ n₄, more = [n₄] := by
      rw [if_pos cas] at length
      exact List.length_eq_one_iff.mp (by simpa using length)
    have numeral := canonical.nums n₄ (by simp [fields])
    have afterLength : ({ s with state := swVlen } : McReading).feed (byteOf ' ') =
        .more { s with state := swSpacesBeforeCas } := by
      simp [feed, cas, enter, notDigit, s]
    rw [List.singleton_append, List.flatMap_cons, List.append_assoc, List.cons_append,
      run_cons_more afterLength, run_number (.inr (.inr (.inl rfl))) numeral]
    refine run_rest canonical.shape.noreply rfl rfl ?_ ?_ ys
    · simp [feed, numberOf, feedRest, notDigit, s]
    · simp [feed, numberOf, feedRest, endLine, distinct, s]
  · obtain rfl : more = [] := by
      rw [if_neg cas] at length
      exact List.eq_nil_of_length_eq_zero (by simpa using length)
    rw [List.nil_append]
    refine run_rest (s := s) canonical.shape.noreply rfl rfl ?_ ?_ ys
    · simp [feed, feedRest, cas, notDigit, s]
    · simp [feed, feedRest, cas, endLine, distinct, s]

/-- The command line leads to the state in which the data block is read or the request
ends. -/
theorem run_line (ys : Bytes) : run feed {} (q.line ++ CR :: ys) = run feed (afterLine q) ys := by
  rcases canonical.shape.command with takes | quit
  · simp only [takesKey, Bool.or_eq_true] at takes
    rcases takes with (((storage | arithmetic) | touch) | delete) | retrieval
    · exact run_line_storage canonical storage ys
    · exact run_line_number canonical (by simp [arithmetic]) ys
    · exact run_line_number canonical (by simp [touch]) ys
    · exact run_line_delete canonical delete ys
    · exact run_line_retrieval canonical retrieval ys
  · have silent : q.noreply = false := by
      by_contra replied
      have may := canonical.shape.noreply (by simpa using replied)
      rw [quit] at may
      exact absurd may (by decide)
    have none_ : q.nums = [] := by
      have length := canonical.shape.nums
      rw [quit] at length
      exact List.eq_nil_of_length_eq_zero length
    rw [McRequest.line, McRequest.arguments, canonical.shape.quit quit, none_, silent, quit]
    simp only [Bool.false_eq_true, if_false, List.append_nil, List.flatMap_nil]
    rw [run_quit]
    simp [afterLine, quit, silent, canonical.shape.quit quit, memcacheStorage]

/-- A canonical request is accepted, with its type, keys and flags. -/
theorem run_encode : ∃ t, run feed {} q.encode = .done t [] ∧ t.type = q.type ∧ t.keys = q.keys ∧
    t.noreply = q.noreply ∧ (t.quit = true ↔ q.type = reqMcQuit) := by
  have lines : q.encode = q.line ++ CR :: (LF :: q.block) := by simp [McRequest.encode]
  rw [lines, run_line canonical]
  by_cases storage : memcacheStorage q.type = true
  · obtain ⟨announced, bound⟩ := canonical.data storage
    have value : wordVal q.lengthField = q.data.length := by
      rw [wordVal, ← announced, Nat.mod_eq_of_lt bound]
    have opens : (afterLine q).feed LF = .more { afterLine q with state := swVal } := by
      simp [feed, afterLine, storage]
    have length : ({ afterLine q with state := swVal } : McReading).vlen = q.data.length := by
      simp [afterLine, storage, value]
    refine ⟨{ afterLine q with state := swAlmostDone, vlen := 0 }, ?_, rfl, rfl, rfl,
      by simp [afterLine]⟩
    rw [run_cons_more opens, McRequest.block, if_pos storage, run_val rfl _ _ length.ge, length,
      Nat.sub_self]
    simp [run, feed]
  · refine ⟨afterLine q, ?_, rfl, rfl, rfl, by simp [afterLine]⟩
    simp [McRequest.block, storage, run, feed, afterLine]

end Line

end McReading

end Nutcracker
