import Nutcracker.Redis.ReplyFraming

/-!
# Array replies

The response parser counts the elements of an array down in one counter.  An array
inside an array overwrites it, so nothing of the outer array is taken behind the first
inner one.  That is right if the inner array is the last element, as in the replies of
the scan commands, and cuts the reply short otherwise.
-/

namespace Nutcracker

open Lib RspState RspReading

/-- Bulks are shorter than `2 ^ 31` bytes. -/
def Scalar.Short : Scalar → Prop
  | .bulk data => data.length < 2 ^ 31
  | _ => True

/-- A reply of any kind. -/
inductive Resp where
  | scalar (v : Scalar)
  | nullArray
  | array (elements : List Resp)

namespace Resp

def isArray : Resp → Bool
  | scalar _ => false
  | nullArray | array _ => true

/-- The count line of an array. -/
def header (count : Nat) : Bytes :=
  byteOf '*' :: decimal count ++ CRLF

mutual

/-- The bytes a backend sends for a reply. -/
def encode : Resp → Bytes
  | scalar v => v.encode
  | nullArray => [byteOf '*', byteOf '-', byteOf '1', CR, LF]
  | array elements => header elements.length ++ encodeAll elements

def encodeAll : List Resp → Bytes
  | [] => []
  | v :: elements => v.encode ++ encodeAll elements

end

mutual

/-- The bytes that the proxy takes for the reply: the first array among the elements
of an array is the last one that it takes, as far as it takes that one. -/
def taken : Resp → Bytes
  | scalar v => v.encode
  | nullArray => [byteOf '*', byteOf '-', byteOf '1', CR, LF]
  | array elements => header elements.length ++ takenAll elements

def takenAll : List Resp → Bytes
  | [] => []
  | v :: elements => v.taken ++ if v.isArray then [] else takenAll elements

end

mutual

/-- Inside an array only the last element is an array. -/
def TailNested : Resp → Prop
  | scalar _ | nullArray => True
  | array elements => TailNestedAll elements

def TailNestedAll : List Resp → Prop
  | [] => True
  | v :: elements => v.TailNested ∧ (v.isArray → elements = []) ∧ TailNestedAll elements

end

mutual

/-- Every length and every count is below `2 ^ 31`. -/
def Short : Resp → Prop
  | scalar v => v.Short
  | nullArray => True
  | array elements => elements.length < 2 ^ 31 ∧ ShortAll elements

def ShortAll : List Resp → Prop
  | [] => True
  | v :: elements => v.Short ∧ ShortAll elements

end

theorem encode_ne_nil (v : Resp) : v.encode ≠ [] := by
  cases v <;> simp [encode, Scalar.encode, header]

theorem eq_nil_of_encodeAll {elements : List Resp} (empty : encodeAll elements = []) :
    elements = [] := by
  cases elements with
  | nil => rfl
  | cons v elements => exact absurd (List.append_eq_nil_iff.mp empty).1 v.encode_ne_nil

theorem taken_of_not_isArray {v : Resp} (scalar : v.isArray = false) : v.taken = v.encode := by
  cases v with
  | scalar v => rfl
  | nullArray => cases scalar
  | array elements => cases scalar

mutual

theorem taken_begins : ∀ v : Resp, v.taken <+: v.encode
  | .scalar v => List.prefix_refl _
  | .nullArray => List.prefix_refl _
  | .array elements => by
    simpa only [taken, encode] using
      (List.prefix_append_right_inj _).mpr (takenAll_begins elements)

theorem takenAll_begins : ∀ elements : List Resp, takenAll elements <+: encodeAll elements
  | [] => List.prefix_refl _
  | v :: elements => by
    simp only [takenAll, encodeAll]
    cases nested : v.isArray with
    | true => simpa using (taken_begins v).trans (List.prefix_append _ _)
    | false =>
      simpa [taken_of_not_isArray nested] using takenAll_begins elements

end

mutual

/-- The whole reply is taken exactly if arrays are nested at the end only. -/
theorem taken_eq_iff : ∀ v : Resp, v.taken = v.encode ↔ v.TailNested
  | .scalar v => by simp [taken, encode, TailNested]
  | .nullArray => by simp [taken, encode, TailNested]
  | .array elements => by
    simpa [taken, encode, TailNested] using takenAll_eq_iff elements

theorem takenAll_eq_iff : ∀ elements : List Resp,
    takenAll elements = encodeAll elements ↔ TailNestedAll elements
  | [] => by simp [takenAll, encodeAll, TailNestedAll]
  | v :: elements => by
    simp only [takenAll, encodeAll, TailNestedAll, ← taken_eq_iff v,
      ← takenAll_eq_iff elements]
    cases nested : v.isArray with
    | true =>
      constructor
      · intro same
        have shorter := (taken_begins v).length_le
        have lengths := congrArg List.length same
        simp only [if_true, List.append_nil, List.length_append] at same lengths
        have empty : encodeAll elements = [] := List.length_eq_zero_iff.mp (by omega)
        obtain rfl := eq_nil_of_encodeAll empty
        exact ⟨by simpa [empty] using same, fun _ => rfl, rfl⟩
      · rintro ⟨same, last, _⟩
        simp [same, last rfl, encodeAll]
    | false => simp [taken_of_not_isArray nested]

end

theorem taken_isArray {v : Resp} (isArray : v.isArray = true) :
    ∃ tail, v.taken = byteOf '*' :: tail := by
  cases v with
  | scalar v => cases isArray
  | nullArray => exact ⟨_, rfl⟩
  | array elements => exact ⟨_, rfl⟩

end Resp

open Resp

/-! ## Runs over elements -/

section Elements

variable {s : RspReading}

/-- The reader has read an element up to its line feed. -/
structure ElementRead (s t : RspReading) : Prop where
  state : t.state = swMultibulkArgnLf
  token : t.token = none
  rnarg : t.rnarg = s.rnarg - 1
  type : t.type = s.type

/-- A reader at the start of an element. -/
structure AtElement (s : RspReading) : Prop where
  state : s.state = swMultibulkArgnLen
  token : s.token = none
  some_ : s.rnarg ≠ 0
  bound : s.rnarg < word32

theorem run_simple {text : Bytes} (noCR : CR ∉ text) (state : s.state = swSimple)
    (token : s.token = none) :
    run feed s (text ++ [CR]) =
      .pending { s with state := swMultibulkArgnLf, rnarg := pred32 s.rnarg } := by
  induction text with
  | nil => simp [run, feed, handOn, feedIn, grow, state, token]
  | cons ch text ih =>
    rw [List.mem_cons, not_or] at noCR
    rw [List.cons_append, run_cons_more (t := s), ih noCR.2]
    simp only [feed, handOn, feedIn, grow, state, token, Ne.symm noCR.1, if_false, Option.map_none]
    congr 1
    cases s
    simp_all

theorem run_lineElement {mark : UInt8} {text : Bytes} (ready : AtElement s) (noCR : CR ∉ text)
    (line : mark = byteOf ':' ∨ mark = byteOf '+' ∨ mark = byteOf '-') :
    ∃ t, run feed s (mark :: text ++ [CR]) = .pending t ∧ ElementRead s t := by
  have star : mark ≠ byteOf '*' := by
    rcases line with rfl | rfl | rfl <;> decide
  refine ⟨{ s with state := swMultibulkArgnLf, rnarg := pred32 s.rnarg }, ?_, ?_⟩
  · rw [List.cons_append, run_cons_more (t := { s with state := swSimple })]
    · exact run_simple noCR rfl ready.token
    simp [feed, handOn, feedIn, ready.state, ready.token, star, line]
  · exact ⟨rfl, ready.token, pred32_of_pos (Nat.pos_of_ne_zero ready.some_) ready.bound, rfl⟩

theorem CR_not_mem_numeral (value : Int) : CR ∉ numeral value := by
  have digits : CR ∉ decimal value.natAbs := by
    intro member
    exact absurd (digits_decimal _ CR member) (by decide)
  unfold numeral
  split
  · simpa [digits] using by decide
  · exact digits

/-- An element that is not an array is read up to its line feed. -/
theorem Scalar.Short.run_element {v : Scalar} (short : v.Short) (ready : AtElement s) :
    ∃ t, run feed s v.body = .pending t ∧ ElementRead s t := by
  cases v with
  | status line => exact run_lineElement ready line.noCR (.inr (.inl rfl))
  | error line => exact run_lineElement ready line.noCR (.inr (.inr rfl))
  | integer value => exact run_lineElement ready (CR_not_mem_numeral value) (.inl rfl)
  | bulk data =>
    have bound : data.length < word32 := Nat.lt_trans short (by decide)
    have value := wordVal_decimal bound
    have header := run_elementHeader (digits_decimal data.length) (decimal_ne_nil _)
      ready.state ready.token ready.some_ (by
        rintro ⟨one, two⟩
        rw [value] at one
        rw [one] at two
        exact absurd two (by decide))
    rw [value] at header
    have bytes := run_bulkBytes data
      (s := { s with state := swMultibulkArgn, rlen := data.length, rnarg := s.rnarg - 1 })
      (fun t ch same => feed_multibulkArgn same ch) ready.token rfl
    refine ⟨{ s with state := swMultibulkArgnLf, rlen := 0, rnarg := s.rnarg - 1 }, ?_, ?_⟩
    · rw [Scalar.body, List.append_assoc, run_append_of_pending header, bytes]
    · exact ⟨rfl, ready.token, rfl, rfl⟩
  | nullBulk =>
    refine ⟨{ s with state := swMultibulkArgnLf, rlen := 0, rnarg := s.rnarg - 1 }, ?_, ?_⟩
    · simp +decide [Scalar.body, run, feed, handOn, feedIn, grow, ready.state, ready.token,
        ready.some_]
    · exact ⟨rfl, ready.token, rfl, rfl⟩

/-- The line feed of an element or of a count line. -/
theorem feed_elementLf (state : s.state = swMultibulkArgnLf ∨ s.state = swMultibulkNargLf)
    (token : s.token = none) :
    s.feed LF = if s.rnarg = 0 then .done s else .more { s with state := swMultibulkArgnLen } := by
  have same : s.grow LF = s := by
    rw [grow, token]
    cases s
    cases token
    rfl
  rcases state with state | state <;>
    simp [feed, handOn, feedIn, RspReading.lineFeed, state, same]

mutual

/-- The bytes taken for an array are accepted, from the start of the array. -/
theorem array_accepts : ∀ {v : Resp} {s : RspReading}, v.isArray = true → v.Short →
    s.state = swMultibulk → s.token = none → s.Accepts v.taken fun t => t.type = s.type
  | .scalar _, _, isArray, _, _, _ => nomatch isArray
  | .nullArray, s, _, _, state, token => by
    have opened : run feed s [byteOf '*', byteOf '-'] =
        .pending { s with
          state := swRuntoCrlf, token := some [byteOf '*', byteOf '-'], rnarg := 0 } := by
      simp +decide [run, feed, handOn, feedIn, grow, state, token]
    have noCR : CR ∉ [byteOf '1'] := by decide
    obtain ⟨t, done, ends⟩ := accepts_line noCR
      (s := { s with state := swRuntoCrlf, token := some [byteOf '*', byteOf '-'], rnarg := 0 })
      rfl
    exact .after opened ⟨t, done, ends.type⟩
  | .array elements, s, _, short, state, token => by
    have value := wordVal_decimal (Nat.lt_trans short.1 (by decide : 2 ^ 31 < word32))
    have counted := run_countHeader (digits_decimal elements.length) (decimal_ne_nil _)
      state token
    rw [value] at counted
    have lf := feed_elementLf
      (s := { s with state := swMultibulkNargLf, rnarg := elements.length }) (.inr rfl) token
    have whole : (Resp.array elements).taken =
        (byteOf '*' :: decimal elements.length ++ [CR]) ++ LF :: takenAll elements := by
      simp [taken, header]
    rw [whole]
    refine .after counted ?_
    cases elements with
    | nil => exact ⟨_, run_cons_done lf, rfl⟩
    | cons v elements =>
      refine .cons lf ?_
      exact elements_accept (by simp) short.2 ⟨rfl, token, by simp,
        Nat.lt_trans short.1 (by decide)⟩ rfl

theorem elements_accept : ∀ {elements : List Resp} {s : RspReading}, elements ≠ [] →
    ShortAll elements → AtElement s → s.rnarg = elements.length →
    s.Accepts (takenAll elements) fun t => t.type = s.type
  | [], _, nonempty, _, _, _ => absurd rfl nonempty
  | v :: elements, s, _, short, ready, length => by
    simp only [takenAll]
    cases nested : v.isArray with
    | true =>
      -- the count of the outer array is lost
      obtain ⟨tail, opens⟩ := taken_isArray nested
      obtain ⟨t, done, type⟩ := array_accepts (s := { s with state := swMultibulk }) nested
        short.1 rfl ready.token
      refine ⟨t, ?_, type⟩
      have restarts : s.handOn (byteOf '*') = { s with state := swMultibulk } := by
        simp [handOn, ready.state, ready.token]
      rw [opens] at done
      rw [if_pos rfl, List.append_nil, opens, ← done, ← restarts]
      exact run_cons_congr feed_handOn.symm
    | false =>
      cases v with
      | nullArray => cases nested
      | array elements => cases nested
      | scalar w =>
        obtain ⟨t, read, after⟩ := Scalar.Short.run_element short.1 ready
        have lf := feed_elementLf (.inl after.state) after.token
        rw [after.rnarg, length, List.length_cons, Nat.add_sub_cancel] at lf
        rw [if_neg Bool.false_ne_true, taken, Scalar.encode, List.append_assoc]
        refine .after read ?_
        rw [← after.type]
        cases elements with
        | nil => exact ⟨_, run_cons_done lf, rfl⟩
        | cons u elements =>
          have bound := ready.bound
          rw [length, List.length_cons] at bound
          exact .cons lf (elements_accept (by simp) short.2
            ⟨rfl, after.token, by simp, Nat.lt_of_succ_lt bound⟩ rfl)

end

end Elements

/-! ## The end of an array -/

/-- An array reply is accepted with the bytes that are taken for it.  They are the whole
reply exactly if inside arrays only last elements are arrays. -/
theorem redisParseRsp_array_iff (dataSize : Nat) (v : Resp) (rest : Bytes)
    (isArray : v.isArray = true) (short : v.Short) :
    (redisParseRsp dataSize (.ofBuffer swStart (v.encode ++ rest) 0)).result = .ok ∧
      (redisParseRsp dataSize (.ofBuffer swStart (v.encode ++ rest) 0)).pos = v.taken.length ∧
      ((redisParseRsp dataSize (.ofBuffer swStart (v.encode ++ rest) 0)).pos = v.encode.length ↔
        v.TailNested) := by
  obtain ⟨tail, opens⟩ := taken_isArray isArray
  obtain ⟨t, done, _⟩ := array_accepts
    (s := { state := swMultibulk, type := .rspRedisMultibulk }) isArray short rfl rfl
  obtain ⟨unread, split⟩ := taken_begins v
  have accepted : run feed {} (v.encode ++ rest) = .done t (unread ++ rest) := by
    rw [← split, List.append_assoc, ← List.nil_append (unread ++ rest),
      ← run_append_of_done done, opens]
    exact run_cons_congr (by rfl)
  obtain ⟨ok, consumed, _⟩ := redisParseRsp_of_done dataSize (v.encode ++ rest) (p := 0)
    (Nat.zero_le _) accepted
  have lengths : v.encode.length = v.taken.length + unread.length := by
    rw [← split, List.length_append]
  simp only [List.length_append] at consumed
  refine ⟨ok, by omega, ?_⟩
  rw [← taken_eq_iff]
  constructor
  · intro pos
    exact (taken_begins v).eq_of_length (by omega)
  · intro same
    rw [same] at lengths
    omega

/-- The reply of a scan: a cursor and an array. -/
def scanReply : Resp :=
  .array [.scalar (.bulk [byteOf '0']), .array [.scalar (.bulk [byteOf 'a'])]]

theorem redisParseRsp_array_iff_scan :
    (redisParseRsp 464 (.ofBuffer swStart (scanReply.encode ++ [byteOf '+']) 0)).pos =
      scanReply.encode.length :=
  (redisParseRsp_array_iff 464 scanReply [byteOf '+'] rfl
    (by simp [scanReply, Short, ShortAll, Scalar.Short])).2.2.mpr
    (by simp [scanReply, TailNested, TailNestedAll, Resp.isArray])

/-- An array whose first element is an array. -/
def pairReply : Resp :=
  .array [.array [.scalar (.integer 1)], .scalar (.integer 2)]

/-- The parser stops after the inner array and leaves `:2 CR LF` for the next reply. -/
theorem redisParseRsp_array_cut :
    pairReply.isArray = true ∧ pairReply.Short ∧
      (redisParseRsp 464 (.ofBuffer swStart pairReply.encode 0)).result = .ok ∧
      (redisParseRsp 464 (.ofBuffer swStart pairReply.encode 0)).pos + 4 =
        pairReply.encode.length := by
  refine ⟨rfl, ?_, ?_, ?_⟩
  · simp [pairReply, Short, ShortAll, Scalar.Short]
  · decide +kernel
  · decide +kernel

end Nutcracker
