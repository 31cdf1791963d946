import Nutcracker.Memcache.Loads
import Nutcracker.Redis.Loads

/-!
# Progress of the four parsers

Every call that the receive driver makes ends, whatever bytes the client or the server sent.
-/

namespace Nutcracker

open Lib

/-- For every message that the driver hands to one of the parsers, and any bytes in the mbuf that
the parser works on, the call ends after at most four iterations for every byte ahead, loads only
bytes of the mbuf and saves a position in it.  With `NC_LITTLE_ENDIAN` it may also load the byte
behind the data, as a part of a word, and nothing depends on this byte. -/
theorem parsers_progress {dataSize : Nat} (positive : 0 < dataSize) :
    (redisReqLoading dataSize).Progress ∧ (redisRspLoading dataSize).Progress ∧
      (memcacheReqLoading dataSize).Progress ∧ (memcacheRspLoading dataSize).Progress :=
  ⟨(redisReqLoading dataSize).progress positive, (redisRspLoading dataSize).progress positive,
    (memcacheReqLoading dataSize).progress positive,
    (memcacheRspLoading dataSize).progress positive⟩

/-- The start of a request, up to the byte behind the command name. -/
def appendRead : Bytes :=
  "append ".toList.map byteOf

/-- The call for it. -/
def appendCall : Msg McReqState :=
  .ofRest memcacheReqParser appendRead

theorem parsers_progress_append :
    appendCall ∈ Receiver.receiveCalls (msgParse memcacheReqParser 464) memcacheReqParser 464 {}
        [appendRead] ∧
      (memcacheReqLoading 464).Proceeds (appendCall.withLastBuf appendRead) := by
  have called : appendCall ∈ Receiver.receiveCalls (msgParse memcacheReqParser 464)
      memcacheReqParser 464 {} [appendRead] := by
    decide +kernel
  refine ⟨called, ?_⟩
  exact (parsers_progress (by decide)).2.2.1 [appendRead] appendCall called appendRead
    (Nat.zero_le _) (by decide)

/-- With little-endian words, `str6cmp` loads eight bytes: those of the name, the one behind it,
and the one behind the data. -/
theorem append_loads_behind_data :
    appendCall ∈ Receiver.receiveCalls (msgParse memcacheReqParser 464) memcacheReqParser 464 {}
        [appendRead] ∧
      appendCall.lastBuf.length ∈
        ((memcacheReqLoading 464).loop true appendCall 8 fun k => appendRead.getD k 0).2 := by
  decide +kernel

end Nutcracker
