import Nutcracker.Message.Core
import Mathlib.Data.List.Forall2

/-!
# Redis commands and their argument classes

The request parser recognises a command by its length and its letters, in any
mix of case, and then routes the request by the class of the command: how many
arguments it takes and which of them are keys.
-/

namespace Nutcracker

open Lib

/-! ## Argument classes -/

/-- The command takes no key. -/
def redisArgz : MsgType → Bool
  | .reqRedisPing | .reqRedisQuit => true
  | _ => false

/-- The command accepts a key and no arguments. -/
def redisArg0 : MsgType → Bool
  | .reqRedisExists | .reqRedisPersist | .reqRedisPttl | .reqRedisTtl | .reqRedisType
  | .reqRedisDump | .reqRedisDecr | .reqRedisGet | .reqRedisIncr | .reqRedisStrlen
  | .reqRedisHgetall | .reqRedisHkeys | .reqRedisHlen | .reqRedisHvals | .reqRedisLlen
  | .reqRedisLpop | .reqRedisRpop | .reqRedisScard | .reqRedisSmembers | .reqRedisSpop
  | .reqRedisZcard | .reqRedisPfcount | .reqRedisAuth => true
  | _ => false

/-- The command accepts exactly 1 argument after its key. -/
def redisArg1 : MsgType → Bool
  | .reqRedisExpire | .reqRedisExpireat | .reqRedisPexpire | .reqRedisPexpireat
  | .reqRedisAppend | .reqRedisDecrby | .reqRedisGetbit | .reqRedisGetset | .reqRedisIncrby
  | .reqRedisIncrbyfloat | .reqRedisSetnx | .reqRedisHexists | .reqRedisHget
  | .reqRedisLindex | .reqRedisLpushx | .reqRedisRpoplpush | .reqRedisRpushx
  | .reqRedisSismember | .reqRedisZrank | .reqRedisZrevrank | .reqRedisZscore => true
  | _ => false

/-- The command accepts exactly 2 arguments after its key. -/
def redisArg2 : MsgType → Bool
  | .reqRedisGetrange | .reqRedisPsetex | .reqRedisSetbit | .reqRedisSetex
  | .reqRedisSetrange | .reqRedisHincrby | .reqRedisHincrbyfloat | .reqRedisHset
  | .reqRedisHsetnx | .reqRedisLrange | .reqRedisLrem | .reqRedisLset | .reqRedisLtrim
  | .reqRedisSmove | .reqRedisZcount | .reqRedisZlexcount | .reqRedisZincrby
  | .reqRedisZremrangebylex | .reqRedisZremrangebyrank | .reqRedisZremrangebyscore
  | .reqRedisRestore => true
  | _ => false

/-- The command accepts exactly 3 arguments after its key. -/
def redisArg3 : MsgType → Bool
  | .reqRedisLinsert => true
  | _ => false

/-- The command accepts 0 or more arguments after its key. -/
def redisArgn : MsgType → Bool
  | .reqRedisSort | .reqRedisBitcount | .reqRedisBitpos | .reqRedisSet | .reqRedisHdel
  | .reqRedisHmget | .reqRedisHmset | .reqRedisHscan | .reqRedisLpush | .reqRedisRpush
  | .reqRedisSadd | .reqRedisSdiff | .reqRedisSdiffstore | .reqRedisSinter
  | .reqRedisSinterstore | .reqRedisSrem | .reqRedisSunion | .reqRedisSunionstore
  | .reqRedisSrandmember | .reqRedisSscan | .reqRedisPfadd | .reqRedisPfmerge
  | .reqRedisZadd | .reqRedisZinterstore | .reqRedisZrange | .reqRedisZrangebyscore
  | .reqRedisZrem | .reqRedisZrevrange | .reqRedisZrangebylex | .reqRedisZrevrangebyscore
  | .reqRedisZunionstore | .reqRedisZscan => true
  | _ => false

/-- A vector command accepting one or more keys. -/
def redisArgx : MsgType → Bool
  | .reqRedisMget | .reqRedisDel => true
  | _ => false

/-- A vector command accepting one or more key-value pairs. -/
def redisArgkvx : MsgType → Bool
  | .reqRedisMset => true
  | _ => false

/-- `EVAL` and `EVALSHA`: exactly 2 arguments, one or more keys, then arguments. -/
def redisArgeval : MsgType → Bool
  | .reqRedisEval | .reqRedisEvalsha => true
  | _ => false

/-! ## Command names -/

def redisCommands3 : List (String × MsgType) := [
  ("get", .reqRedisGet), ("set", .reqRedisSet), ("ttl", .reqRedisTtl), ("del", .reqRedisDel)]

def redisCommands4 : List (String × MsgType) := [
  ("pttl", .reqRedisPttl), ("decr", .reqRedisDecr), ("dump", .reqRedisDump),
  ("hdel", .reqRedisHdel), ("hget", .reqRedisHget), ("hlen", .reqRedisHlen),
  ("hset", .reqRedisHset), ("incr", .reqRedisIncr), ("llen", .reqRedisLlen),
  ("lpop", .reqRedisLpop), ("lrem", .reqRedisLrem), ("lset", .reqRedisLset),
  ("rpop", .reqRedisRpop), ("sadd", .reqRedisSadd), ("spop", .reqRedisSpop),
  ("srem", .reqRedisSrem), ("type", .reqRedisType), ("mget", .reqRedisMget),
  ("mset", .reqRedisMset), ("zadd", .reqRedisZadd), ("zrem", .reqRedisZrem),
  ("eval", .reqRedisEval), ("sort", .reqRedisSort), ("ping", .reqRedisPing),
  ("quit", .reqRedisQuit), ("auth", .reqRedisAuth)]

def redisCommands5 : List (String × MsgType) := [
  ("hkeys", .reqRedisHkeys), ("hmget", .reqRedisHmget), ("hmset", .reqRedisHmset),
  ("hvals", .reqRedisHvals), ("hscan", .reqRedisHscan), ("lpush", .reqRedisLpush),
  ("ltrim", .reqRedisLtrim), ("rpush", .reqRedisRpush), ("scard", .reqRedisScard),
  ("sdiff", .reqRedisSdiff), ("setex", .reqRedisSetex), ("setnx", .reqRedisSetnx),
  ("smove", .reqRedisSmove), ("sscan", .reqRedisSscan), ("zcard", .reqRedisZcard),
  ("zrank", .reqRedisZrank), ("zscan", .reqRedisZscan), ("pfadd", .reqRedisPfadd)]

def redisCommands6 : List (String × MsgType) := [
  ("append", .reqRedisAppend), ("bitpos", .reqRedisBitpos), ("decrby", .reqRedisDecrby),
  ("exists", .reqRedisExists), ("expire", .reqRedisExpire), ("getbit", .reqRedisGetbit),
  ("getset", .reqRedisGetset), ("psetex", .reqRedisPsetex), ("hsetnx", .reqRedisHsetnx),
  ("incrby", .reqRedisIncrby), ("lindex", .reqRedisLindex), ("lpushx", .reqRedisLpushx),
  ("lrange", .reqRedisLrange), ("rpushx", .reqRedisRpushx), ("setbit", .reqRedisSetbit),
  ("sinter", .reqRedisSinter), ("strlen", .reqRedisStrlen), ("sunion", .reqRedisSunion),
  ("zcount", .reqRedisZcount), ("zrange", .reqRedisZrange), ("zscore", .reqRedisZscore)]

def redisCommands7 : List (String × MsgType) := [
  ("persist", .reqRedisPersist), ("pexpire", .reqRedisPexpire), ("hexists", .reqRedisHexists),
  ("hgetall", .reqRedisHgetall), ("hincrby", .reqRedisHincrby), ("linsert", .reqRedisLinsert),
  ("zincrby", .reqRedisZincrby), ("evalsha", .reqRedisEvalsha), ("restore", .reqRedisRestore),
  ("pfcount", .reqRedisPfcount), ("pfmerge", .reqRedisPfmerge)]

def redisCommands8 : List (String × MsgType) := [
  ("expireat", .reqRedisExpireat), ("bitcount", .reqRedisBitcount), ("getrange", .reqRedisGetrange),
  ("setrange", .reqRedisSetrange), ("smembers", .reqRedisSmembers), ("zrevrank", .reqRedisZrevrank)]

def redisCommands9 : List (String × MsgType) := [
  ("pexpireat", .reqRedisPexpireat), ("rpoplpush", .reqRedisRpoplpush),
  ("sismember", .reqRedisSismember), ("zrevrange", .reqRedisZrevrange),
  ("zlexcount", .reqRedisZlexcount)]

def redisCommands10 : List (String × MsgType) := [
  ("sdiffstore", .reqRedisSdiffstore)]

def redisCommands11 : List (String × MsgType) := [
  ("incrbyfloat", .reqRedisIncrbyfloat), ("sinterstore", .reqRedisSinterstore),
  ("srandmember", .reqRedisSrandmember), ("sunionstore", .reqRedisSunionstore),
  ("zinterstore", .reqRedisZinterstore), ("zunionstore", .reqRedisZunionstore),
  ("zrangebylex", .reqRedisZrangebylex)]

def redisCommands12 : List (String × MsgType) := [
  ("hincrbyfloat", .reqRedisHincrbyfloat)]

def redisCommands13 : List (String × MsgType) := [
  ("zrangebyscore", .reqRedisZrangebyscore)]

def redisCommands14 : List (String × MsgType) := [
  ("zremrangebylex", .reqRedisZremrangebylex)]

def redisCommands15 : List (String × MsgType) := [
  ("zremrangebyrank", .reqRedisZremrangebyrank)]

def redisCommands16 : List (String × MsgType) := [
  ("zremrangebyscore", .reqRedisZremrangebyscore), ("zrevrangebyscore", .reqRedisZrevrangebyscore)]

/-- The `switch (p - m)` of `SW_REQ_TYPE`: the names of a given length.  The case
for ten letters has no `break` and runs on into the one for eleven. -/
def redisNames : Nat → List (String × MsgType)
  | 3 => redisCommands3
  | 4 => redisCommands4
  | 5 => redisCommands5
  | 6 => redisCommands6
  | 7 => redisCommands7
  | 8 => redisCommands8
  | 9 => redisCommands9
  | 10 => redisCommands10 ++ redisCommands11
  | 11 => redisCommands11
  | 12 => redisCommands12
  | 13 => redisCommands13
  | 14 => redisCommands14
  | 15 => redisCommands15
  | 16 => redisCommands16
  | _ => []

def redisCommandsOf (len : Nat) : List (List Char × MsgType) :=
  (redisNames len).map (Prod.map String.toList id)

/-- The type of the command whose name takes the first `len` bytes at `m`. -/
def redisCommand (m : Bytes) (len : Nat) : MsgType :=
  (lookupWith stricmp (redisCommandsOf len) m).getD .unknown

/-! ## The text that decides the lookup -/

/-- The letters of command names. -/
def letters : List Char :=
  ['a', 'b', 'c', 'd', 'e', 'f', 'g', 'h', 'i', 'j', 'k', 'l', 'm', 'n', 'o', 'p', 'q', 'r', 's',
    't', 'u', 'v', 'w', 'x', 'y', 'z']

theorem redisCommandsOf_names (len : Nat) :
    ∀ entry ∈ redisCommandsOf len,
      len ≤ entry.1.length ∧ entry.1.length ≤ len + 1 ∧ ∀ c ∈ entry.1, c ∈ letters := by
  unfold redisCommandsOf redisNames
  split
  case h_15 => simp
  all_goals decide +kernel

theorem letters_ne_CR : ∀ c ∈ letters, (CR == byteOf c || CR == byteOf c ^^^ 0x20) = false := by
  decide

theorem stricmp_append_CR {m : Bytes} {name : List Char} (lower : ∀ c ∈ name, c ∈ letters)
    (rest : Bytes) : stricmp (m ++ CR :: rest) name = stricmp m name := by
  induction name generalizing m with
  | nil => simp [stricmp]
  | cons c name ih =>
    cases m with
    | nil => simp [stricmp, letters_ne_CR c (lower c (by simp))]
    | cons b m =>
      simp only [List.cons_append, stricmp]
      rw [ih fun c member => lower c (by simp [member])]

theorem redisCommand_append {m : Bytes} {len : Nat} (longer : len < m.length) (rest : Bytes) :
    redisCommand (m ++ rest) len = redisCommand m len := by
  unfold redisCommand
  rw [lookupWith_stricmp_append]
  intro entry member
  have := (redisCommandsOf_names len entry member).2.1
  omega

/-- The byte after the name is a carriage return, so that the names of eleven
letters never match after a name of ten. -/
theorem redisCommand_append_CR (name rest : Bytes) :
    redisCommand (name ++ CR :: rest) name.length = redisCommand name name.length := by
  unfold redisCommand
  rw [lookupWith_congr]
  intro entry member
  exact stricmp_append_CR (redisCommandsOf_names _ entry member).2.2 rest

/-! ## Letter case -/

/-- The names that `SW_REQ_TYPE` compares a command with, of all lengths. -/
def redisCommandTable : List (List Char × MsgType) :=
  (redisCommands3 ++ redisCommands4 ++ redisCommands5 ++ redisCommands6 ++ redisCommands7 ++
    redisCommands8 ++ redisCommands9 ++ redisCommands10 ++ redisCommands11 ++ redisCommands12 ++
    redisCommands13 ++ redisCommands14 ++ redisCommands15 ++ redisCommands16).map
    (Prod.map String.toList id)

/-- The bytes spell the name in any mix of letter case. -/
def Spells (text : Bytes) (name : List Char) : Prop :=
  List.Forall₂ (fun b c => b = byteOf c ∨ b = byteOf c.toUpper) text name

theorem redisCommandTable_lookup :
    ∀ entry ∈ redisCommandTable, entry ∈ redisCommandsOf entry.1.length ∧ entry.2 ≠ .unknown := by
  decide +kernel

theorem redisCommandsOf_functional (len : Nat) :
    ∀ entry ∈ redisCommandsOf len, ∀ entry' ∈ redisCommandsOf len,
      entry.1.map byteOf = entry'.1.map byteOf → entry.2 = entry'.2 := by
  unfold redisCommandsOf redisNames
  split
  case h_15 => simp
  all_goals decide +kernel

/-- The byte with its case bit set. -/
def lower (b : UInt8) : UInt8 :=
  b ||| 0x20

theorem letters_case : ∀ c ∈ letters, byteOf c.toUpper = byteOf c ^^^ 0x20 ∧
    lower (byteOf c) = byteOf c ∧ lower (byteOf c ^^^ 0x20) = byteOf c := by
  decide

theorem Spells.stricmp {text : Bytes} {name : List Char} (spells : Spells text name)
    (lettered : ∀ c ∈ name, c ∈ letters) : stricmp text name = true := by
  unfold Spells at spells
  induction spells with
  | nil => rfl
  | @cons b c text name first _ ih =>
    have upper := (letters_case c (lettered c (by simp))).1
    simp only [Lib.stricmp, ih fun c member => lettered c (by simp [member]),
      Bool.and_true, Bool.or_eq_true, beq_iff_eq]
    rwa [upper] at first

theorem Spells.length_eq {text : Bytes} {name : List Char} (spells : Spells text name) :
    text.length = name.length :=
  List.Forall₂.length_eq spells

/-- The text decides the name it is compared equal to. -/
theorem lower_of_stricmp {text : Bytes} {name : List Char} (matched : stricmp text name = true)
    (lettered : ∀ c ∈ name, c ∈ letters) :
    (text.take name.length).map lower = name.map byteOf := by
  induction name generalizing text with
  | nil => rfl
  | cons c name ih =>
    cases text with
    | nil => simp [stricmp] at matched
    | cons b text =>
      simp only [stricmp, Bool.and_eq_true, Bool.or_eq_true, beq_iff_eq] at matched
      obtain ⟨first, matched⟩ := matched
      obtain ⟨_, lower₁, lower₂⟩ := letters_case c (lettered c (by simp))
      simp only [List.length_cons, List.take_succ_cons, List.map_cons]
      rw [ih matched fun c member => lettered c (by simp [member])]
      rcases first with rfl | rfl
      · rw [lower₁]
      · rw [lower₂]

theorem length_le_of_stricmp {text : Bytes} {name : List Char}
    (matched : stricmp text name = true) : name.length ≤ text.length := by
  induction name generalizing text with
  | nil => simp
  | cons c name ih =>
    cases text with
    | nil => simp [stricmp] at matched
    | cons b text =>
      simp only [stricmp, Bool.and_eq_true] at matched
      simpa using ih matched.2

/-- A command is recognised in any mix of letter case. -/
theorem redisCommand_of_spells {name : List Char} {type : MsgType} {text : Bytes}
    (entry : (name, type) ∈ redisCommandTable) (spells : Spells text name) :
    redisCommand text text.length = type := by
  have member := (redisCommandTable_lookup _ entry).1
  rw [← spells.length_eq] at member
  have lettered := (redisCommandsOf_names _ _ member).2.2
  have matched := spells.stricmp lettered
  obtain ⟨found, foundEq⟩ : ∃ found,
      (redisCommandsOf text.length).find? (fun e => stricmp text e.1) = some found := by
    rw [← Option.isSome_iff_exists, List.find?_isSome]
    exact ⟨_, member, matched⟩
  have foundMember := List.mem_of_find?_eq_some foundEq
  have foundMatched : stricmp text found.1 = true := by
    simpa using List.find?_some foundEq
  obtain ⟨long, _, foundLettered⟩ := redisCommandsOf_names _ _ foundMember
  have foundLength : found.1.length = text.length :=
    Nat.le_antisymm (length_le_of_stricmp foundMatched) long
  have same : found.1.map byteOf = name.map byteOf := by
    rw [← lower_of_stricmp foundMatched foundLettered, ← lower_of_stricmp matched lettered,
      foundLength, spells.length_eq]
  rw [redisCommand, lookupWith, foundEq]
  exact redisCommandsOf_functional _ _ foundMember _ member same

end Nutcracker
