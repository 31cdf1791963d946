import Nutcracker.Lib.Text
import Nutcracker.Lib.Machine

/-!
# Messages as the parsers see them

A message is a chain of mbufs together with the fields that the four protocol
parsers read and write.  A pointer into the chain is a pair of an mbuf index and
an offset; the parser works on the last mbuf of the chain, so its cursor and its
token marker are plain offsets.  Machine words are natural numbers kept below
`2 ^ 32`.

The parsers keep their automaton state in one `int`.  Each parser has its own
enumeration for it, so the message is parametric in the type of that state.
-/

namespace Nutcracker

open Lib

abbrev Bytes := List UInt8

/-- Number of values of a `uint32_t`. -/
abbrev word32 : Nat := 2 ^ 32

abbrev CR : UInt8 := 13
abbrev LF : UInt8 := 10

/-- The two-byte line terminator. -/
abbrev CRLF : Bytes := [CR, LF]

/-- `MSG_TYPE_CODEC` of the message header. -/
inductive MsgType where
  | unknown | reqMcGet | reqMcGets | reqMcDelete | reqMcCas | reqMcSet | reqMcAdd
  | reqMcReplace | reqMcAppend | reqMcPrepend | reqMcIncr | reqMcDecr | reqMcTouch | reqMcQuit
  | rspMcNum | rspMcStored | rspMcNotStored | rspMcExists | rspMcNotFound | rspMcEnd
  | rspMcValue | rspMcDeleted | rspMcTouched | rspMcError | rspMcClientError | rspMcServerError
  | reqRedisDel | reqRedisExists | reqRedisExpire | reqRedisExpireat | reqRedisPexpire
  | reqRedisPexpireat | reqRedisPersist | reqRedisPttl | reqRedisSort | reqRedisTtl
  | reqRedisType | reqRedisAppend | reqRedisBitcount | reqRedisBitpos | reqRedisDecr
  | reqRedisDecrby | reqRedisDump | reqRedisGet | reqRedisGetbit | reqRedisGetrange
  | reqRedisGetset | reqRedisIncr | reqRedisIncrby | reqRedisIncrbyfloat | reqRedisMget
  | reqRedisMset | reqRedisPsetex | reqRedisRestore | reqRedisSet | reqRedisSetbit
  | reqRedisSetex | reqRedisSetnx | reqRedisSetrange | reqRedisStrlen | reqRedisHdel
  | reqRedisHexists | reqRedisHget | reqRedisHgetall | reqRedisHincrby | reqRedisHincrbyfloat
  | reqRedisHkeys | reqRedisHlen | reqRedisHmget | reqRedisHmset | reqRedisHset
  | reqRedisHsetnx | reqRedisHscan | reqRedisHvals | reqRedisLindex | reqRedisLinsert
  | reqRedisLlen | reqRedisLpop | reqRedisLpush | reqRedisLpushx | reqRedisLrange
  | reqRedisLrem | reqRedisLset | reqRedisLtrim | reqRedisPfadd | reqRedisPfcount
  | reqRedisPfmerge | reqRedisRpop | reqRedisRpoplpush | reqRedisRpush | reqRedisRpushx
  | reqRedisSadd | reqRedisScard | reqRedisSdiff | reqRedisSdiffstore | reqRedisSinter
  | reqRedisSinterstore | reqRedisSismember | reqRedisSmembers | reqRedisSmove | reqRedisSpop
  | reqRedisSrandmember | reqRedisSrem | reqRedisSunion | reqRedisSunionstore | reqRedisSscan
  | reqRedisZadd | reqRedisZcard | reqRedisZcount | reqRedisZincrby | reqRedisZinterstore
  | reqRedisZlexcount | reqRedisZrange | reqRedisZrangebylex | reqRedisZrangebyscore
  | reqRedisZrank | reqRedisZrem | reqRedisZremrangebyrank | reqRedisZremrangebylex
  | reqRedisZremrangebyscore | reqRedisZrevrange | reqRedisZrevrangebyscore | reqRedisZrevrank
  | reqRedisZscore | reqRedisZunionstore | reqRedisZscan | reqRedisEval | reqRedisEvalsha
  | reqRedisPing | reqRedisQuit | reqRedisAuth | reqRedisSelect | rspRedisStatus
  | rspRedisError | rspRedisErrorErr | rspRedisErrorOom | rspRedisErrorBusy
  | rspRedisErrorNoauth | rspRedisErrorLoading | rspRedisErrorBusykey | rspRedisErrorMisconf
  | rspRedisErrorNoscript | rspRedisErrorReadonly | rspRedisErrorWrongtype
  | rspRedisErrorExecabort | rspRedisErrorMasterdown | rspRedisErrorNoreplicas
  | rspRedisInteger | rspRedisBulk | rspRedisMultibulk
  deriving DecidableEq, Repr

/-- `msg_parse_result_t`. -/
inductive ParseResult where
  | ok
  | error
  | repair
  | again
  deriving DecidableEq, Repr

/-- A pointer into the mbuf chain of a message. -/
structure Ptr where
  mbuf : Nat
  off : Nat
  deriving DecidableEq, Repr

/-- `struct keypos`: the first byte of a key and the byte after its last. -/
structure KeyPos where
  start : Ptr
  stop : Ptr
  deriving DecidableEq, Repr

/-- The bytes of a key that lies in one mbuf of a chain. -/
def KeyPos.bytesIn (chain : List Bytes) (k : KeyPos) : Bytes :=
  ((chain.getD k.start.mbuf []).take k.stop.off).drop k.start.off

/-- The fields of `struct msg` that a parser reads and writes while it runs over
one mbuf.  The token marker is an offset into that mbuf. -/
structure Scan (σ : Type) where
  state : σ
  token : Option Nat := none
  type : MsgType := .unknown
  keys : List KeyPos := []
  vlen : Nat := 0
  end_ : Option Ptr := none
  narg_start : Option Ptr := none
  narg_end : Option Ptr := none
  narg : Nat := 0
  rnarg : Nat := 0
  rlen : Nat := 0
  integer : Nat := 0
  quit : Bool := false
  noreply : Bool := false
  noforward : Bool := false
  deriving DecidableEq, Repr

/-- The part of `struct msg` that receiving and parsing use.  Every mbuf of
`mhdr` is the list of its bytes from `start` to `last`; `pos` is an offset into
the last one. -/
structure Msg (σ : Type) extends Scan σ where
  pos : Nat := 0
  mhdr : List Bytes := []
  mlen : Nat := 0
  result : ParseResult := .ok
  deriving DecidableEq, Repr

namespace Msg

variable {σ : Type}

/-- `STAILQ_LAST`: the mbuf the parser works on. -/
def lastBuf (r : Msg σ) : Bytes :=
  r.mhdr.getLastD []

/-- All bytes of the message. -/
def bytes (r : Msg σ) : Bytes :=
  r.mhdr.flatten

/-- The recorded keys as byte strings. -/
def keyList (r : Msg σ) : List Bytes :=
  r.keys.map (KeyPos.bytesIn r.mhdr)

/-- A new message whose only mbuf holds `b`, with the parser at offset `p`. -/
def ofBuffer (start : σ) (b : Bytes) (p : Nat) : Msg σ :=
  { state := start, pos := p, mhdr := [b], mlen := b.length % word32 }

end Msg

/-! ## What the four parsers share -/

/-- A protocol parser: its initial state and the body of its loop, which is given
the data size of an mbuf, the index and the bytes of the mbuf it works on.  The
state in which a token is read again from a fresh mbuf is usually the state it
was cut in. -/
structure Parser (σ : Type) where
  start : σ
  step : Nat → Nat → Bytes → Scan σ → Nat → Flow (Scan σ)
  restart : σ → σ := id
  keepToken : Bool := false

namespace Parser

variable {σ : Type}

/-- What follows the loop in a parser: `r->result` is set and the cursor is saved,
at the token if the mbuf is full and a token is cut.  A message in error is
dropped with its connection, so only its result is kept. -/
def conclude (P : Parser σ) (dataSize : Nat) (r : Msg σ) : Flow (Scan σ) → Msg σ
  | .next p s =>
      match s.token with
      | some t =>
          if r.lastBuf.length = dataSize then
            { s with
              token := none, state := P.restart s.state, pos := t, mhdr := r.mhdr,
              mlen := r.mlen, result := .repair }
          else { s with pos := p, mhdr := r.mhdr, mlen := r.mlen, result := .again }
      | none => { s with pos := p, mhdr := r.mhdr, mlen := r.mlen, result := .again }
  | .stop p s =>
      { s with
        state := P.start, token := if P.keepToken then s.token else none, pos := p + 1,
        mhdr := r.mhdr, mlen := r.mlen, result := .ok }
  | .fail => { r with result := .error }

/-- One call of a parser on the last mbuf of a message. -/
def parse (P : Parser σ) (dataSize : Nat) (r : Msg σ) : Msg σ :=
  P.conclude dataSize r
    (loop (P.step dataSize (r.mhdr.length - 1) r.lastBuf) r.lastBuf.length
      (4 * (r.lastBuf.length - r.pos) + 4) r.toScan r.pos)

theorem mlen_parse (P : Parser σ) (dataSize : Nat) (m : Msg σ) :
    (P.parse dataSize m).mlen = m.mlen := by
  unfold parse conclude
  split
  · split
    · split <;> rfl
    · rfl
  · rfl
  · rfl

theorem mhdr_parse (P : Parser σ) (dataSize : Nat) (m : Msg σ) :
    (P.parse dataSize m).mhdr = m.mhdr := by
  unfold parse conclude
  split
  · split
    · split <;> rfl
    · rfl
  · rfl
  · rfl

end Parser

@[simp]
theorem isdigit_CR : isdigit CR = false := by
  decide

/-- `r->n = r->n * 10 + (ch - '0')` on a `uint32_t`. -/
def accum (n : Nat) (ch : UInt8) : Nat :=
  accumMod word32 n ch

/-- The value of a numeral in a `uint32_t`. -/
def wordVal (num : Bytes) : Nat :=
  decVal num % word32

theorem wordVal_lt (num : Bytes) : wordVal num < word32 :=
  Nat.mod_lt _ (by decide)

theorem accum_wordVal (num : Bytes) (ch : UInt8) :
    accum (wordVal num) ch = wordVal (num ++ [ch]) := by
  rw [accum, wordVal, wordVal, accumMod_mod, decVal_append_singleton]

@[simp]
theorem wordVal_nil : wordVal [] = 0 :=
  rfl

theorem wordVal_decimal {n : Nat} (bound : n < word32) : wordVal (decimal n) = n := by
  rw [wordVal, decVal_decimal, Nat.mod_eq_of_lt bound]

/-- Decrement of a `uint32_t`. -/
def pred32 (n : Nat) : Nat :=
  (n + word32 - 1) % word32

theorem pred32_of_pos {n : Nat} (positive : 0 < n) (bound : n < word32) : pred32 n = n - 1 := by
  unfold pred32
  rw [show n + word32 - 1 = n - 1 + word32 by omega, Nat.add_mod_right]
  exact Nat.mod_eq_of_lt (by omega)

/-- Sum of two `uint32_t`. -/
def add32 (a b : Nat) : Nat :=
  (a + b) % word32

/-- Difference of two `uint32_t`. -/
def sub32 (a b : Nat) : Nat :=
  (a + word32 - b % word32) % word32

theorem add32_lt (a b : Nat) : add32 a b < word32 :=
  Nat.mod_lt _ (by decide)

theorem add32_add32 (a b c : Nat) : add32 (add32 a b) c = add32 a (b + c) := by
  rw [add32, add32, add32, Nat.mod_add_mod, Nat.add_assoc]

theorem sub32_zero {a : Nat} (bound : a < word32) : sub32 a 0 = a := by
  rw [sub32, Nat.zero_mod, Nat.sub_zero, Nat.add_mod_right, Nat.mod_eq_of_lt bound]

/-- What is added to both sides does not change a difference. -/
theorem sub32_add32 (a b c : Nat) : sub32 (add32 a c) (b + c) = sub32 a b := by
  have value : word32 = 4294967296 := by decide
  unfold sub32 add32
  rw [value]
  omega

/-- The difference of two lengths. -/
theorem sub32_mod (a b : Nat) : sub32 ((a + b) % word32) b = a % word32 := by
  have value : word32 = 4294967296 := by decide
  unfold sub32
  rw [value]
  omega

/-- A difference of 0 means that the second operand is the first. -/
theorem add32_of_sub32_eq_zero {a b : Nat} (zero : sub32 a b = 0) : add32 0 b = a % word32 := by
  have value : word32 = 4294967296 := by decide
  unfold sub32 at zero
  unfold add32
  rw [value] at zero ⊢
  omega

end Nutcracker
