import Nutcracker.Memcache.RequestSimulation
import Nutcracker.Memcache.Wire

/-!
# Partly read memcache requests

The bytes read so far are a prefix of a request: `Sound` says for every state of the
parser which words have been read and which one is under way.  Every byte preserves it,
so that the bytes of an accepted request are a command line and its data block.
-/

namespace Nutcracker

open Lib MsgType McReqState

/-- A numeric field as the parser accepts it. -/
def FieldText (type : MsgType) (w : Bytes) : Prop :=
  w ≠ [] ∧ (Digits w ∨ memcacheStorage type = false ∧ ∃ d, w = byteOf '-' :: d ∧ Digits d)

/-- The words of the request have been read, and `w` is under way. -/
structure OnLine (x : Bytes) (q : McRequest) (w : Bytes) : Prop where
  split : splitWords (byteOf ' ') x = (q.words, w)
  line : CR ∉ x
  keys : ∀ k ∈ q.keys, k ≠ [] ∧ k.length ≤ memcacheMaxKeyLength
  nums : ∀ n ∈ q.nums, FieldText q.type n

/-- The line is a complete command line of the request. -/
structure IsLine (line : Bytes) (q : McRequest) : Prop where
  words : Lib.words (byteOf ' ') line = q.words
  line : CR ∉ line
  keys : ∀ k ∈ q.keys, k ≠ [] ∧ k.length ≤ memcacheMaxKeyLength
  nums : ∀ n ∈ q.nums, FieldText q.type n
  shape : q.Shape

section Line

variable {x w : Bytes} {q : McRequest} {ch : UInt8}

theorem OnLine.space (on : OnLine x q []) : OnLine (x ++ [byteOf ' ']) q [] := by
  refine ⟨?_, ?_, on.keys, on.nums⟩
  · rw [splitWords_concat, on.split]
    rfl
  · have := on.line
    simp_all [show CR ≠ byteOf ' ' by decide]

theorem OnLine.grow (on : OnLine x q w) (inner : ch ≠ byteOf ' ') (more : ch ≠ CR) :
    OnLine (x ++ [ch]) q (w ++ [ch]) := by
  refine ⟨?_, ?_, on.keys, on.nums⟩
  · rw [splitWords_concat, on.split, splitStep, if_neg inner]
  · have := on.line
    simp_all [Ne.symm more]

theorem split_space {ws : List Bytes} (split : splitWords (byteOf ' ') x = (ws, w))
    (nonempty : w ≠ []) : splitWords (byteOf ' ') (x ++ [byteOf ' ']) = (ws ++ [w], []) := by
  rw [splitWords_concat, split, splitStep, if_pos rfl, if_neg nonempty]

theorem OnLine.endKey (on : OnLine x q w) (nonempty : w ≠ [])
    (short : w.length ≤ memcacheMaxKeyLength) (first : q.nums = []) (silent : q.noreply = false) :
    OnLine (x ++ [byteOf ' ']) { q with keys := q.keys ++ [w] } [] := by
  refine ⟨?_, ?_, ?_, on.nums⟩
  · rw [split_space on.split nonempty]
    simp [McRequest.words, first, silent]
  · have := on.line
    simp_all [show CR ≠ byteOf ' ' by decide]
  · intro k member
    rcases List.mem_append.mp member with earlier | last
    · exact on.keys k earlier
    · rw [List.mem_singleton.mp last]
      exact ⟨nonempty, short⟩

theorem OnLine.endNum (on : OnLine x q w) (field : FieldText q.type w)
    (silent : q.noreply = false) :
    OnLine (x ++ [byteOf ' ']) { q with nums := q.nums ++ [w] } [] := by
  refine ⟨?_, ?_, on.keys, ?_⟩
  · rw [split_space on.split field.1]
    simp [McRequest.words, silent]
  · have := on.line
    simp_all [show CR ≠ byteOf ' ' by decide]
  · intro n member
    rcases List.mem_append.mp member with earlier | last
    · exact on.nums n earlier
    · rwa [List.mem_singleton.mp last]

theorem OnLine.endNoreply (on : OnLine x q noreplyWord) (silent : q.noreply = false) :
    OnLine (x ++ [byteOf ' ']) { q with noreply := true } [] := by
  refine ⟨?_, ?_, on.keys, on.nums⟩
  · rw [split_space on.split (by decide)]
    simp [McRequest.words, silent]
  · have := on.line
    simp_all [show CR ≠ byteOf ' ' by decide]

/-- A line that ends where a space could stand. -/
theorem OnLine.ends {q' : McRequest} (on : OnLine x q w)
    (next : OnLine (x ++ [byteOf ' ']) q' []) (shape : q'.Shape) : IsLine x q' := by
  refine ⟨?_, on.line, next.keys, next.nums, shape⟩
  have split := next.split
  rw [splitWords_concat, on.split, splitStep, if_pos rfl] at split
  rw [words_of_split on.split]
  grind

theorem isdigit_inner (digit : isdigit ch = true) : ch ≠ byteOf ' ' ∧ ch ≠ CR := by
  constructor <;> rintro rfl <;> exact absurd digit (by decide)

theorem wordVal_digit (digit : isdigit ch = true) : wordVal [ch] = digitVal ch := by
  have small : digitVal ch < word32 := by
    simp only [isdigit, Bool.and_eq_true, decide_eq_true_eq] at digit
    have value : word32 = 4294967296 := by decide
    rw [value]
    unfold digitVal
    omega
  rw [← List.nil_append [ch], ← accum_wordVal, wordVal_nil, accum, accumMod, Nat.zero_mul,
    Nat.zero_add, Nat.mod_eq_of_lt small]

theorem FieldText.snoc {type : MsgType} (field : FieldText type w) (digit : isdigit ch = true) :
    FieldText type (w ++ [ch]) := by
  refine ⟨by simp, ?_⟩
  rcases field.2 with digits | ⟨plain, d, rfl, digits⟩
  · exact .inl (by simp [digits, digit])
  · exact .inr ⟨plain, d ++ [ch], rfl, by simp [digits, digit]⟩

/-- A byte before or in a field that is neither a space nor a carriage return. -/
theorem split_byte {ws : List Bytes} (line : CR ∉ x) (split : splitWords (byteOf ' ') x = (ws, w))
    (inner : ch ≠ byteOf ' ') (more : ch ≠ CR) :
    CR ∉ x ++ [ch] ∧ splitWords (byteOf ' ') (x ++ [ch]) = (ws, w ++ [ch]) := by
  constructor
  · simp [line, Ne.symm more]
  · rw [splitWords_concat, split, splitStep, if_neg inner]

theorem islower_inner (lower : islower ch = true) : ch ≠ byteOf ' ' ∧ ch ≠ CR := by
  constructor <;> rintro rfl <;> exact absurd lower (by decide)

end Line

namespace McReading

/-- The request whose words have been read, with the numeric fields that the parser does
not keep. -/
def request (s : McReading) (nums : List Bytes) : McRequest where
  type := s.type
  keys := s.keys
  nums := nums
  noreply := s.noreply

/-- The length of the data block has been read into `vlen`. -/
def Announced (s : McReading) (nums : List Bytes) : Prop :=
  memcacheStorage s.type = true → s.vlen = wordVal (nums.getD 2 [])

/-- Before or in a numeric field of a storage command. -/
structure InField (x : Bytes) (s : McReading) (count : Nat) (w : Bytes) : Prop where
  storage : memcacheStorage s.type = true
  oneKey : s.keys.length = 1
  silent : s.noreply = false
  fields : ∃ nums, nums.length = count ∧ OnLine x (s.request nums) w ∧
    (3 ≤ count → s.vlen = wordVal (nums.getD 2 []))

/-- The bytes `x` lead to the reading `s`. -/
def Sound (x : Bytes) (s : McReading) : Prop :=
  match s.state with
  | swStart => s = {} ∧ CR ∉ x ∧ splitWords (byteOf ' ') x = ([], [])
  | swReqType =>
      ∃ w, s = { state := swReqType, token := some w } ∧ w ≠ [] ∧ CR ∉ x ∧
        splitWords (byteOf ' ') x = ([], w)
  | swSpacesBeforeKey =>
      OnLine x (s.request []) [] ∧ takesKey s.type = true ∧ s.keys = [] ∧ s.noreply = false
  | swKey =>
      ∃ w, s.token = some w ∧ OnLine x (s.request []) w ∧ takesKey s.type = true ∧
        (s.keys = [] ∨ memcacheRetrieval s.type = true) ∧ s.noreply = false
  | swSpacesBeforeKeys =>
      OnLine x (s.request []) [] ∧ memcacheRetrieval s.type = true ∧ s.keys ≠ [] ∧
        s.noreply = false
  | swSpacesBeforeFlags => InField x s 0 []
  | swFlags => ∃ w, s.token = some w ∧ Numeral w ∧ InField x s 0 w
  | swSpacesBeforeExpiry => InField x s 1 []
  | swExpiry => ∃ w, s.token = some w ∧ Numeral w ∧ InField x s 1 w
  | swSpacesBeforeVlen => InField x s 2 []
  | swVlen => ∃ w, s.vlen = wordVal w ∧ Numeral w ∧ InField x s 2 w
  | swSpacesBeforeCas => InField x s 3 [] ∧ memcacheCas s.type = true
  | swCas => ∃ w, s.token = some w ∧ Numeral w ∧ InField x s 3 w ∧ memcacheCas s.type = true
  | swSpacesBeforeNum =>
      OnLine x (s.request []) [] ∧ (memcacheArithmetic s.type || memcacheTouch s.type) = true ∧
        s.keys.length = 1 ∧ s.noreply = false
  | swNum =>
      ∃ w, s.token = some w ∧ FieldText s.type w ∧ OnLine x (s.request []) w ∧
        (memcacheArithmetic s.type || memcacheTouch s.type) = true ∧ s.keys.length = 1 ∧
        s.noreply = false
  | swRuntoCrlf =>
      ∃ nums, OnLine x (s.request nums) [] ∧ (s.request nums).Shape ∧ s.Announced nums ∧
        s.noreply = false
  | swNoreply =>
      ∃ nums w, s.token = some w ∧ OnLine x (s.request nums) w ∧ (s.request nums).Shape ∧
        s.Announced nums ∧ s.noreply = false ∧ mayNoreply s.type = true
  | swAfterNoreply =>
      ∃ nums, OnLine x (s.request nums) [] ∧ (s.request nums).Shape ∧ s.Announced nums
  | swCrlf => OnLine x (s.request []) [] ∧ (s.request []).Shape ∧ memcacheStorage s.type = false
  | swRuntoVal =>
      ∃ line nums, x = line ++ [CR] ∧ IsLine line (s.request nums) ∧ s.Announced nums ∧
        memcacheStorage s.type = true
  | swVal =>
      ∃ line nums d, x = line ++ CRLF ++ d ∧ IsLine line (s.request nums) ∧
        memcacheStorage s.type = true ∧ d.length + s.vlen = wordVal (nums.getD 2 [])
  | swAlmostDone =>
      ∃ line nums, IsLine line (s.request nums) ∧
        (memcacheStorage s.type = false ∧ x = line ++ [CR] ∨
          memcacheStorage s.type = true ∧ ∃ d, x = line ++ CRLF ++ d ++ [CR] ∧
            d.length = wordVal (nums.getD 2 []))

section Step

variable {x w : Bytes} {s t : McReading} {ch : UInt8} {count : Nat} {nums : List Bytes}

theorem numeral_snoc (numeral : Digits w) (digit : isdigit ch = true) : Numeral (w ++ [ch]) :=
  ⟨by simp, by simp [numeral, digit]⟩

/-! ### Storage fields -/

theorem InField.space (field : InField x s count []) : InField (x ++ [byteOf ' ']) s count [] := by
  obtain ⟨storage, oneKey, silent, nums, length, on, announced⟩ := field
  exact ⟨storage, oneKey, silent, nums, length, on.space, announced⟩

theorem InField.byte (field : InField x s count w) (digit : isdigit ch = true) :
    InField (x ++ [ch]) s count (w ++ [ch]) := by
  obtain ⟨storage, oneKey, silent, nums, length, on, announced⟩ := field
  obtain ⟨inner, more⟩ := isdigit_inner digit
  exact ⟨storage, oneKey, silent, nums, length, on.grow inner more, announced⟩

/-- What the fields of a storage command depend on. -/
theorem InField.congr (field : InField x s count w)
    (same : t.type = s.type ∧ t.keys = s.keys ∧ t.noreply = s.noreply)
    (vlen : t.vlen = s.vlen ∨ count < 3) : InField x t count w := by
  obtain ⟨storage, oneKey, silent, nums, length, on, announced⟩ := field
  obtain ⟨type, keys, noreply⟩ := same
  refine ⟨by rwa [type], by rwa [keys], by rwa [noreply], nums, length, ?_, fun three => ?_⟩
  · rwa [request, type, keys, noreply]
  · rw [← announced three]
    exact vlen.resolve_right (by omega)

/-- A numeral has ended. -/
theorem InField.ended (field : InField x s count w) (numeral : Numeral w)
    (vlen : count = 2 → s.vlen = wordVal w) :
    InField (x ++ [byteOf ' ']) s (count + 1) [] := by
  obtain ⟨storage, oneKey, silent, nums, length, on, announced⟩ := field
  refine ⟨storage, oneKey, silent, nums ++ [w], by simp [length],
    on.endNum ⟨numeral.1, .inl numeral.2⟩ silent, fun three => ?_⟩
  by_cases last : count = 2
  · rw [vlen last, List.getD_append_right _ _ _ _ (by omega), length, last]
    rfl
  · rw [announced (by omega), List.getD_append _ _ _ _ (by omega)]

/-- All fields have been read. -/
theorem InField.complete (field : InField x s count []) (all : count = numFields s.type) :
    ∃ nums, OnLine x (s.request nums) [] ∧ (s.request nums).Shape ∧ s.Announced nums ∧
      s.noreply = false := by
  obtain ⟨storage, oneKey, silent, nums, length, on, announced⟩ := field
  refine ⟨nums, on, ?_, fun _ => announced ?_, silent⟩
  · have exclusive := classes s.type
    refine ⟨.inl (by simp [takesKey, request, storage]), fun quit => ?_, fun _ => ?_, fun _ => ?_,
      length.trans all, fun replied => ?_⟩
    · have quit' : s.type = reqMcQuit := quit
      rw [quit'] at storage
      cases storage
    · exact List.ne_nil_of_length_pos (by simp [request, oneKey])
    · exact oneKey.le
    · exact absurd replied (by simp [request, silent])
  · rw [all, numFields, if_pos storage]
    split <;> decide

/-! ### The end of the line -/

theorem endLine_sound (line : IsLine x (s.request nums)) (announced : s.Announced nums) :
    Sound (x ++ [CR]) s.endLine := by
  unfold endLine
  by_cases storage : memcacheStorage s.type = true
  · rw [if_pos storage]
    exact ⟨x, nums, rfl, line, announced, storage⟩
  · rw [if_neg storage]
    exact ⟨x, nums, line, .inl ⟨Bool.eq_false_of_not_eq_true storage, rfl⟩⟩

theorem feedRest_sound {q : McRequest} {state : McReqState} (on : OnLine x q w)
    (next : OnLine (x ++ [byteOf ' ']) (s.request nums) []) (shape : (s.request nums).Shape)
    (announced : s.Announced nums)
    (target : state = swRuntoCrlf ∧ s.noreply = false ∨ state = swAfterNoreply)
    (fed : s.feedRest ch state = .more t) : Sound (x ++ [ch]) t := by
  unfold feedRest at fed
  split at fed
  · subst ch
    cases fed
    rcases target with ⟨rfl, silent⟩ | rfl
    · exact ⟨nums, next, shape, announced, silent⟩
    · exact ⟨nums, next, shape, announced⟩
  · obtain ⟨rfl, rfl⟩ := Verdict.of_ite_more fed
    exact endLine_sound (on.ends next shape) announced

/-! ### One byte -/

theorem named_sound {text : Bytes} (nonempty : text ≠ []) (line : CR ∉ x)
    (split : splitWords (byteOf ' ') x = ([], text)) (ends : ch = byteOf ' ' ∨ ch = CR)
    (fed : ({ state := swReqType, token := some text } : McReading).named ch = .more t) :
    Sound (x ++ [ch]) t := by
  have next : memcacheCommand text ch ≠ unknown →
      OnLine (x ++ [byteOf ' ']) { type := memcacheCommand text ch } [] := by
    intro known
    obtain ⟨name, _⟩ := memcacheCommand_known rfl known
    refine ⟨?_, ?_, by simp, by simp⟩
    · rw [split_space split nonempty, McRequest.words, ← name]
      rfl
    · simp [line, show CR ≠ byteOf ' ' by decide]
  simp only [named, Option.elim_some] at fed
  split at fed
  · cases fed
  · next command =>
      -- the line of a quit has no other words
      have quit : ({ type := reqMcQuit } : McRequest).Shape :=
        ⟨.inr rfl, fun _ => rfl, by decide, by decide, by decide, by decide⟩
      simp only [command] at fed next
      cases fed
      rcases ends with rfl | rfl
      · exact ⟨next (by decide), quit, rfl⟩
      · refine ⟨x, [], ⟨?_, line, by simp [request, enter], by simp [request], quit⟩,
          .inl ⟨rfl, rfl⟩⟩
        obtain ⟨name, _⟩ := memcacheCommand_known command (by decide)
        rw [words_of_split split, if_neg nonempty, name]
        rfl
  · next known notQuit =>
      split at fed
      · cases fed
      · cases fed
        obtain rfl := ends.resolve_right ‹_›
        obtain ⟨_, command⟩ := 
          memcacheCommand_known (rfl : memcacheCommand text (byteOf ' ') = _) known
        exact ⟨next known, command.resolve_right notQuit, rfl, rfl⟩

theorem feedKey_sound (on : OnLine x (s.request []) w) (token : s.token.getD [] = w)
    (takes : takesKey s.type = true) (one : s.keys = [] ∨ memcacheRetrieval s.type = true)
    (silent : s.noreply = false) (fed : s.feedKey ch = .more t) : Sound (x ++ [ch]) t := by
  have exclusive := classes s.type
  simp only [feedKey, token] at fed
  split at fed
  · next ends =>
    split at fed
    · cases fed
    · next accepted =>
      obtain ⟨short, nonempty⟩ := not_or.mp accepted
      have next := on.endKey nonempty (Nat.le_of_not_lt short) rfl silent
      have oneKey : memcacheRetrieval s.type = false → (s.keys ++ [w]).length = 1 := by
        intro other
        rw [one.resolve_right (by simp [other])]
        rfl
      have shape : numFields s.type = 0 →
          ({ s with keys := s.keys ++ [w] }.request []).Shape := by
        intro none_
        refine ⟨.inl takes, fun quit => ?_, fun _ => by simp [request],
          fun other => (oneKey other).le,
          none_.symm, fun replied => absurd replied (by simp [request, silent])⟩
        have quit' : s.type = reqMcQuit := quit
        simp [exclusive.2.2.2.2.2.1 quit'] at takes
      split at fed
      · subst ch
        cases fed
        unfold mcAfterKey
        by_cases storage : memcacheStorage s.type = true
        · rw [if_pos storage]
          exact ⟨storage, oneKey (exclusive.1 storage).2.2.2, silent, [], rfl, next, by simp⟩
        · rw [if_neg storage]
          by_cases number : (memcacheArithmetic s.type || memcacheTouch s.type) = true
          · rw [if_pos number]
            exact ⟨next, number, oneKey (by grind), silent⟩
          · rw [if_neg number]
            have none_ : numFields s.type = 0 := by simp [numFields, storage, number]
            have rest : Sound (x ++ [byteOf ' '])
                ({ s with keys := s.keys ++ [w] }.enter swRuntoCrlf) :=
              ⟨[], next, shape none_, fun storage' => absurd storage' storage, silent⟩
            by_cases delete : memcacheDelete s.type = true
            · rwa [if_pos delete]
            · rw [if_neg delete]
              by_cases retrieval : memcacheRetrieval s.type = true
              · rw [if_pos retrieval]
                exact ⟨next, retrieval, by simp [enter], silent⟩
              · rwa [if_neg retrieval]
      · obtain ⟨last, rfl⟩ := Verdict.of_ite_more fed
        obtain rfl := ends.resolve_left ‹_›
        simp only [mayEndAtKey, Bool.not_eq_true', Bool.or_eq_false_iff] at last
        have none_ : numFields s.type = 0 := by simp [numFields, last]
        exact ⟨x, [], on.ends next (shape none_), .inl ⟨last.1.1, rfl⟩⟩
  · next inner =>
    cases fed
    obtain ⟨inner, more⟩ := not_or.mp inner
    exact ⟨w ++ [ch], rfl, on.grow inner more, takes, one, silent⟩

/-- Spaces before a storage field and its first digit. -/
theorem InField.before {number : McReqState} (field : InField x s count [])
    (fed : s.feedBefore ch isdigit number = .more t) :
    t = s ∧ InField (x ++ [ch]) s count [] ∨
      t = s.mark ch number ∧ Numeral [ch] ∧ InField (x ++ [ch]) s count [ch] := by
  unfold feedBefore at fed
  split at fed
  · cases fed
    subst ch
    exact .inl ⟨rfl, field.space⟩
  · obtain ⟨digit, rfl⟩ := Verdict.of_ite_more fed
    exact .inr ⟨rfl, numeral_snoc digits_nil digit, field.byte digit⟩

/-- The bytes up to the name of the command. -/
theorem sound_name (state : s.state = swStart ∨ s.state = swReqType) (sound : Sound x s)
    (fed : s.feed ch = .more t) : Sound (x ++ [ch]) t := by
  unfold Sound at sound
  unfold feed at fed
  rcases state with state | state <;> simp only [state] at sound fed
  · obtain ⟨rfl, line, split⟩ := sound
    split at fed
    · cases fed
      subst ch
      refine ⟨rfl, by simp [line, show CR ≠ byteOf ' ' by decide], ?_⟩
      rw [splitWords_concat, split]
      rfl
    · obtain ⟨lower, rfl⟩ := Verdict.of_ite_more fed
      obtain ⟨inner, more⟩ := islower_inner lower
      exact ⟨[ch], rfl, by simp, split_byte line split inner more⟩
  · obtain ⟨w, rfl, nonempty, line, split⟩ := sound
    split at fed
    · exact named_sound nonempty line split ‹_› fed
    · obtain ⟨lower, rfl⟩ := Verdict.of_ite_more fed
      obtain ⟨inner, more⟩ := islower_inner lower
      exact ⟨w ++ [ch], rfl, by simp, split_byte line split inner more⟩

/-- The keys. -/
theorem sound_keys
    (state : s.state = swSpacesBeforeKey ∨ s.state = swKey ∨ s.state = swSpacesBeforeKeys)
    (sound : Sound x s) (fed : s.feed ch = .more t) : Sound (x ++ [ch]) t := by
  unfold Sound at sound
  unfold feed at fed
  rcases state with state | state | state <;> simp only [state] at sound fed
  · obtain ⟨on, takes, first, silent⟩ := sound
    split at fed
    · cases fed
      subst ch
      unfold Sound
      simp only [state]
      exact ⟨on.space, takes, first, silent⟩
    · exact feedKey_sound (s := s.enter swKey) on rfl takes (.inl first) silent fed
  · obtain ⟨w, token, on, takes, one, silent⟩ := sound
    exact feedKey_sound on (by simp [token]) takes one silent fed
  · obtain ⟨on, retrieval, some_, silent⟩ := sound
    have takes : takesKey s.type = true := by simp [takesKey, retrieval]
    split at fed
    · cases fed
      subst ch
      unfold Sound
      simp only [state]
      exact ⟨on.space, retrieval, some_, silent⟩
    · split at fed
      · cases fed
        subst ch
        have exclusive := classes s.type
        have plain : memcacheStorage s.type = false ∧ numFields s.type = 0 := by
          grind [numFields]
        refine ⟨x, [], on.ends on.space ?_, .inl ⟨plain.1, rfl⟩⟩
        refine ⟨.inl takes, fun quit => ?_, fun _ => some_, fun other => ?_, plain.2.symm,
          fun replied => absurd replied (by simp [request, silent])⟩
        · have quit' : s.type = reqMcQuit := quit
          simp [exclusive.2.2.2.2.2.1 quit'] at takes
        · have other' : memcacheRetrieval s.type = false := other
          simp [other'] at retrieval
      · exact feedKey_sound (s := s.enter swKey) on rfl takes (.inr retrieval) silent fed

/-- Flags and expiry. -/
theorem sound_numbers
    (state : (s.state = swSpacesBeforeFlags ∨ s.state = swSpacesBeforeExpiry) ∨
      (s.state = swFlags ∨ s.state = swExpiry) ∨ s.state = swSpacesBeforeCas)
    (sound : Sound x s) (fed : s.feed ch = .more t) : Sound (x ++ [ch]) t := by
  unfold Sound at sound
  unfold feed at fed
  -- a digit of the numeral or the space that ends it
  have digits : ∀ {count w after}, s.token = some w → Numeral w → InField x s count w → count < 2 →
      (if isdigit ch then .more (s.grow ch)
        else if ch = byteOf ' ' then .more (s.enter after) else .fail) = Verdict.more t →
      t.token = some (w ++ [ch]) ∧ t.state = s.state ∧ Numeral (w ++ [ch]) ∧
          InField (x ++ [ch]) t count (w ++ [ch]) ∨
        t.state = after ∧ InField (x ++ [ch]) t (count + 1) [] := by
    intro count w after token numeral field early fed
    split at fed
    · next digit =>
      cases fed
      exact .inl ⟨by simp [grow, token], rfl, numeral_snoc numeral.2 digit,
        (field.byte digit).congr ⟨rfl, rfl, rfl⟩ (.inl rfl)⟩
    · obtain ⟨rfl, rfl⟩ := Verdict.of_ite_more fed
      exact .inr ⟨rfl, (field.ended numeral (by omega)).congr ⟨rfl, rfl, rfl⟩ (.inl rfl)⟩
  rcases state with (state | state) | (state | state) | state <;> simp only [state] at sound fed
  iterate 2
    · rcases sound.before fed with ⟨rfl, field⟩ | ⟨rfl, numeral, field⟩
      · unfold Sound
        simpa only [state] using field
      · exact ⟨[ch], rfl, numeral, field.congr ⟨rfl, rfl, rfl⟩ (.inl rfl)⟩
  iterate 2
    · obtain ⟨w, token, numeral, field⟩ := sound
      unfold Sound
      rcases digits token numeral field (by decide) fed with ⟨token', same, more⟩ | ⟨next, field'⟩
      · simp only [same, state]
        exact ⟨_, token', more⟩
      · simpa only [next] using field'
  · rcases sound.1.before fed with ⟨rfl, field⟩ | ⟨rfl, numeral, field⟩
    · unfold Sound
      simpa only [state] using ⟨field, sound.2⟩
    · exact ⟨[ch], rfl, numeral, field.congr ⟨rfl, rfl, rfl⟩ (.inl rfl), sound.2⟩

/-- The last numeral of a storage command has ended. -/
theorem InField.rest (field : InField x s count w) (numeral : Numeral w)
    (vlen : count = 2 → s.vlen = wordVal w) (all : count + 1 = numFields s.type)
    (fed : { s with token := none }.feedRest ch swRuntoCrlf = .more t) : Sound (x ++ [ch]) t := by
  obtain ⟨nums, next, shape, announced, silent⟩ := (field.ended numeral vlen).complete all
  obtain ⟨nums', _, on, _⟩ := field.fields
  exact feedRest_sound (s := { s with token := none }) on next shape announced (.inl ⟨rfl, silent⟩)
    fed

/-- The length of the value and the last numeral of each command. -/
theorem sound_lastNumber
    (state : s.state = swSpacesBeforeVlen ∨ s.state = swVlen ∨ s.state = swCas ∨
      s.state = swSpacesBeforeNum ∨ s.state = swNum)
    (sound : Sound x s) (fed : s.feed ch = .more t) : Sound (x ++ [ch]) t := by
  unfold Sound at sound
  unfold feed at fed
  rcases state with state | state | state | state | state <;> simp only [state] at sound fed
  · split at fed
    · cases fed
      subst ch
      unfold Sound
      simpa only [state] using sound.space
    · obtain ⟨digit, rfl⟩ := Verdict.of_ite_more fed
      refine ⟨[ch], ?_, numeral_snoc digits_nil digit,
        (sound.byte digit).congr ⟨rfl, rfl, rfl⟩ (.inr (by decide))⟩
      exact (wordVal_digit digit).symm
  · obtain ⟨w, vlen, numeral, field⟩ := sound
    split at fed
    · next digit =>
      cases fed
      unfold Sound
      simp only
      exact ⟨w ++ [ch], by rw [vlen, accum_wordVal], numeral_snoc numeral.2 digit,
        (field.byte digit).congr ⟨rfl, rfl, rfl⟩ (.inr (by decide))⟩
    · split at fed
      · next cas =>
        obtain ⟨rfl, rfl⟩ := Verdict.of_ite_more fed
        exact ⟨(field.ended numeral fun _ => vlen).congr ⟨rfl, rfl, rfl⟩ (.inl rfl), cas⟩
      · next other =>
        exact field.rest numeral (fun _ => vlen) (by simp [numFields, field.storage, other]) fed
  · obtain ⟨w, token, numeral, field, cas⟩ := sound
    split at fed
    · next digit =>
      cases fed
      unfold Sound
      simp only [state, grow]
      exact ⟨w ++ [ch], by simp [token], numeral_snoc numeral.2 digit,
        (field.byte digit).congr ⟨rfl, rfl, rfl⟩ (.inl rfl), cas⟩
    · exact field.rest numeral (by omega) (by simp [numFields, field.storage, cas]) fed
  · obtain ⟨on, number, oneKey, silent⟩ := sound
    unfold feedBefore at fed
    split at fed
    · cases fed
      subst ch
      unfold Sound
      simp only [state]
      exact ⟨on.space, number, oneKey, silent⟩
    · next inner =>
      obtain ⟨accepted, rfl⟩ := Verdict.of_ite_more fed
      have field : FieldText s.type [ch] ∧ ch ≠ CR := by
        rcases Bool.or_eq_true_iff.mp accepted with digit | minus
        · exact ⟨⟨by simp, .inl (by simpa using digit)⟩, (isdigit_inner digit).2⟩
        · obtain rfl := beq_iff_eq.mp minus
          have exclusive := classes s.type
          exact ⟨⟨by simp, .inr ⟨by grind, [], rfl, digits_nil⟩⟩, by decide⟩
      exact ⟨[ch], rfl, field.1, on.grow inner field.2, number, oneKey, silent⟩
  · obtain ⟨w, token, field, on, number, oneKey, silent⟩ := sound
    split at fed
    · next digit =>
      cases fed
      obtain ⟨inner, more⟩ := isdigit_inner digit
      unfold Sound
      simp only [grow, state]
      exact ⟨w ++ [ch], by simp [token], field.snoc digit, on.grow inner more, number, oneKey,
        silent⟩
    · have exclusive := classes s.type
      have plain : memcacheStorage s.type = false := by grind
      have next : OnLine (x ++ [byteOf ' ']) ({ s with token := none }.request [w]) [] :=
        on.endNum field silent
      refine feedRest_sound (s := { s with token := none }) on next ?_
        (fun storage => ?_) (.inl ⟨rfl, silent⟩) fed
      · refine ⟨.inl ?_, fun quit => ?_,
          fun _ => List.ne_nil_of_length_pos (by simp [request, oneKey]),
          fun _ => oneKey.le, ?_, fun replied => absurd replied (by simp [request, silent])⟩
        · simp only [request, takesKey]
          grind
        · have quit' : s.type = reqMcQuit := quit
          simp [quit', memcacheArithmetic, memcacheTouch] at number
        · simp [request, numFields, plain, number]
      · have storage' : memcacheStorage s.type = true := storage
        simp [plain] at storage'

/-- The rest of the command line. -/
theorem sound_rest
    (state : s.state = swRuntoCrlf ∨ s.state = swNoreply ∨ s.state = swAfterNoreply ∨
      s.state = swCrlf)
    (sound : Sound x s) (fed : s.feed ch = .more t) : Sound (x ++ [ch]) t := by
  unfold Sound at sound
  unfold feed at fed
  rcases state with state | state | state | state <;> simp only [state] at sound fed
  · obtain ⟨nums, on, shape, announced, silent⟩ := sound
    split at fed
    · cases fed
      subst ch
      unfold Sound
      simp only [state]
      exact ⟨nums, on.space, shape, announced, silent⟩
    · split at fed
      · next inner start =>
        obtain ⟨may, rfl⟩ := Verdict.of_ite_more fed
        subst ch
        exact ⟨nums, [byteOf 'n'], rfl, on.grow inner (by decide), shape, announced, silent, may⟩
      · obtain ⟨rfl, rfl⟩ := Verdict.of_ite_more fed
        exact endLine_sound (on.ends on.space shape) announced
  · obtain ⟨nums, w, token, on, shape, announced, silent, may⟩ := sound
    split at fed
    · split at fed
      · next word =>
        obtain rfl : w = noreplyWord := Option.some.inj (token.symm.trans word)
        exact feedRest_sound (s := { s with token := none, noreply := true }) on
          (on.endNoreply silent)
          ⟨shape.command, shape.quit, shape.keys, shape.oneKey, shape.nums, fun _ => may⟩ announced
          (.inr rfl) fed
      · cases fed
    · next inner =>
      cases fed
      obtain ⟨inner, more⟩ := not_or.mp inner
      unfold Sound
      simp only [grow, state]
      exact ⟨nums, w ++ [ch], by simp [token], on.grow inner more, shape, announced, silent, may⟩
  · obtain ⟨nums, on, shape, announced⟩ := sound
    exact feedRest_sound on on.space shape announced (.inr rfl) fed
  · obtain ⟨on, shape, plain⟩ := sound
    split at fed
    · cases fed
      subst ch
      unfold Sound
      simp only [state]
      exact ⟨on.space, shape, plain⟩
    · obtain ⟨rfl, rfl⟩ := Verdict.of_ite_more fed
      exact ⟨x, [], on.ends on.space shape, .inl ⟨plain, rfl⟩⟩

/-- The data block. -/
theorem sound_block (state : s.state = swRuntoVal ∨ s.state = swVal)
    (sound : Sound x s) (fed : s.feed ch = .more t) : Sound (x ++ [ch]) t := by
  unfold Sound at sound
  unfold feed at fed
  rcases state with state | state <;> simp only [state] at sound fed
  · obtain ⟨line, nums, rfl, isLine, announced, storage⟩ := sound
    obtain ⟨rfl, rfl⟩ := Verdict.of_ite_more fed
    exact ⟨line, nums, [], by simp, isLine, storage, by simpa using announced storage⟩
  · obtain ⟨line, nums, d, rfl, isLine, storage, length⟩ := sound
    split at fed
    · next more =>
      cases fed
      unfold Sound
      simp only
      refine ⟨line, nums, d ++ [ch], by simp, isLine, storage, ?_⟩
      rw [List.length_append, List.length_singleton]
      omega
    · next last =>
      obtain ⟨rfl, rfl⟩ := Verdict.of_ite_more fed
      refine ⟨line, nums, isLine, .inr ⟨storage, d, rfl, ?_⟩⟩
      omega

/-- Every byte preserves what is known of the bytes before it. -/
theorem sound_feed (sound : Sound x s) (fed : s.feed ch = .more t) : Sound (x ++ [ch]) t := by
  cases state : s.state
  case swStart | swReqType => exact sound_name (by simp [state]) sound fed
  case swSpacesBeforeKey | swKey | swSpacesBeforeKeys =>
    exact sound_keys (by simp [state]) sound fed
  case swSpacesBeforeFlags | swFlags | swSpacesBeforeExpiry | swExpiry | swSpacesBeforeCas =>
    exact sound_numbers (by simp [state]) sound fed
  case swSpacesBeforeVlen | swVlen | swCas | swSpacesBeforeNum | swNum =>
    exact sound_lastNumber (by simp [state]) sound fed
  case swRuntoCrlf | swNoreply | swAfterNoreply | swCrlf =>
    exact sound_rest (by simp [state]) sound fed
  case swRuntoVal | swVal => exact sound_block (by simp [state]) sound fed
  case swAlmostDone =>
    unfold feed at fed
    simp only [state] at fed
    split at fed <;> cases fed

/-- The bytes of an accepted request. -/
theorem sound_run {xs rest : Bytes} (sound : Sound x s) (done : run feed s xs = .done t rest) :
    ∃ used line nums, xs = used ++ rest ∧ IsLine line (t.request nums) ∧
      (memcacheStorage t.type = false ∧ x ++ used = line ++ CRLF ∨
        memcacheStorage t.type = true ∧ ∃ d, x ++ used = line ++ CRLF ++ d ++ CRLF ∧
          d.length = wordVal (nums.getD 2 [])) := by
  induction done using run_done_induction generalizing x with
  | @last s c fed =>
    obtain ⟨state, rfl, rfl⟩ : s.state = swAlmostDone ∧ c = LF ∧ t = s := by
      unfold feed named feedKey feedBefore feedRest at fed
      grind
    unfold Sound at sound
    simp only [state] at sound
    obtain ⟨line, nums, isLine, ⟨plain, rfl⟩ | ⟨storage, d, rfl, length⟩⟩ := sound
    · exact ⟨[LF], line, nums, rfl, isLine, .inl ⟨plain, by simp⟩⟩
    · exact ⟨[LF], line, nums, rfl, isLine, .inr ⟨storage, d, by simp, length⟩⟩
  | more fed _ ih =>
    obtain ⟨used, line, nums, rfl, isLine, whole⟩ := ih (sound_feed sound fed)
    rw [List.append_assoc, List.singleton_append] at whole
    exact ⟨_ :: used, line, nums, rfl, isLine, whole⟩

/-- An accepted request is a command line and its data block, with the announced length
counted in 32 bits. -/
theorem run_isLine {b rest : Bytes} (done : run feed {} b = .done t rest) :
    ∃ (q : McRequest) (line : Bytes), q.type = t.type ∧ q.keys = t.keys ∧ IsLine line q ∧
      b = line ++ CRLF ++ q.block ++ rest ∧
      (memcacheStorage q.type = true → q.data.length = wordVal q.lengthField) := by
  have start : Sound [] {} := ⟨rfl, by simp, rfl⟩
  obtain ⟨used, line, nums, rfl, isLine, whole⟩ := sound_run start done
  rw [List.nil_append] at whole
  have same : ∀ d, IsLine line { t.request nums with data := d } := fun d =>
    ⟨isLine.words, isLine.line, isLine.keys, isLine.nums, isLine.shape.command, isLine.shape.quit,
      isLine.shape.keys, isLine.shape.oneKey, isLine.shape.nums, isLine.shape.noreply⟩
  rcases whole with ⟨plain, rfl⟩ | ⟨storage, d, rfl, length⟩
  · exact ⟨_, line, rfl, rfl, same [], by simp [McRequest.block, request, plain],
      fun storage => absurd storage (by simp [request, plain])⟩
  · exact ⟨_, line, rfl, rfl, same d, by simp [McRequest.block, request, storage], fun _ => length⟩

end Step

end McReading

end Nutcracker
