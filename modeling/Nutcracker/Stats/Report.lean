import Mathlib.Data.List.TakeWhile
import Nutcracker.Conf.Number
import Nutcracker.Lib.Json

/-!
# The statistics report

`stats_create_buf` sizes the output buffer once, from the names and twenty digits for
each number.  `stats_make_rsp` prints every item with a trailing comma, and overwrites the
last bytes where a nesting ends.  The room that is left is compared as an `int`.
-/

namespace Nutcracker

open Lib

/-! ## What is reported -/

/-- The bytes of a text constant. -/
def statsText (s : String) : Bytes :=
  s.toList.map byteOf

/-- The names of `STATS_POOL_CODEC`. -/
def statsPoolNames : List Bytes :=
  ["client_eof", "client_err", "client_connections", "server_ejects", "forward_error",
    "fragments"].map statsText

/-- The names of `STATS_SERVER_CODEC`. -/
def statsServerNames : List Bytes :=
  ["server_eof", "server_err", "server_timedout", "server_connections", "server_ejected_at",
    "requests", "request_bytes", "responses", "response_bytes", "in_queue", "in_queue_bytes",
    "out_queue", "out_queue_bytes"].map statsText

/-- A metric with its name. -/
structure NamedMetric where
  name : Bytes
  value : BitVec 64
  deriving DecidableEq, Repr

/-- An array of metrics, one for each name of a codec. -/
structure MetricRow (codec : List Bytes) where
  metric : List NamedMetric
  named : metric.map (·.name) = codec

structure ServerReport where
  name : Bytes
  row : MetricRow statsServerNames

structure PoolReport where
  name : Bytes
  row : MetricRow statsPoolNames
  server : List ServerReport

/-- What `stats_make_rsp` reads: the strings of `struct stats`, the clock, the counters of
connections and the array `sum`. -/
structure StatsReport where
  service : Bytes
  source : Bytes
  version : Bytes
  startTs : BitVec 64
  curTs : BitVec 64
  ntotalConn : BitVec 64
  ncurrConn : BitVec 32
  sum : List PoolReport

def serviceStr : Bytes := statsText "service"

def sourceStr : Bytes := statsText "source"

def versionStr : Bytes := statsText "version"

def uptimeStr : Bytes := statsText "uptime"

def timestampStr : Bytes := statsText "timestamp"

def ntotalConnStr : Bytes := statsText "total_connections"

def ncurrConnStr : Bytes := statsText "curr_connections"

/-! ## The size of the buffer -/

def int64MaxDigits : Nat := 20

def keyValueExtra : Nat := 8

def poolExtra : Nat := 8

def serverExtra : Nat := 8

def NamedMetric.estimate (stm : NamedMetric) : Nat :=
  stm.name.length + int64MaxDigits + keyValueExtra

def ServerReport.estimate (sts : ServerReport) : Nat :=
  sts.name.length + serverExtra + (sts.row.metric.map NamedMetric.estimate).sum

def PoolReport.estimate (stp : PoolReport) : Nat :=
  stp.name.length + poolExtra + (stp.row.metric.map NamedMetric.estimate).sum +
    (stp.server.map ServerReport.estimate).sum

/-- The size that `stats_create_buf` adds up. -/
def StatsReport.estimate (st : StatsReport) : Nat :=
  1 + (serviceStr.length + st.service.length + keyValueExtra) +
    (sourceStr.length + st.source.length + keyValueExtra) +
    (versionStr.length + st.version.length + keyValueExtra) +
    (uptimeStr.length + int64MaxDigits + keyValueExtra) +
    (timestampStr.length + int64MaxDigits + keyValueExtra) +
    (ntotalConnStr.length + int64MaxDigits + keyValueExtra) +
    (ncurrConnStr.length + int64MaxDigits + keyValueExtra) +
    (st.sum.map PoolReport.estimate).sum + 2

/-- `NC_ALIGN`. -/
def ncAlign (d n : Nat) : Nat :=
  d + (n - 1) - (d + (n - 1)) % n

/-- `stats_create_buf`: the size of the buffer, a `size_t` aligned to a word. -/
def statsCreateBuf (st : StatsReport) : Nat :=
  ncAlign st.estimate 8 % 2 ^ 64

/-! ## Printing -/

/-- The buffer: the `len` bytes written so far, its size, and one more than the highest offset
that has been written to. -/
structure StatsBuffer where
  data : Bytes
  size : Nat
  extent : Nat
  deriving DecidableEq, Repr

/-- What the conversion `%.*s` prints of a string. -/
def cstr (s : Bytes) : Bytes :=
  s.takeWhile (· ≠ 0)

/-- The formats of `stats_add_string`, `stats_add_num` and `stats_begin_nesting`. -/
def stringItem (key val : Bytes) : Bytes :=
  quoted (cstr key) ++ 58 :: (quoted (cstr val) ++ [44, 32])

def numItem (key : Bytes) (val : BitVec 64) : Bytes :=
  quoted (cstr key) ++ 58 :: (intDecimal val.toInt ++ [44, 32])

def nestItem (key : Bytes) : Bytes :=
  quoted (cstr key) ++ [58, 32, 123]

namespace StatsBuffer

variable (buf : StatsBuffer)

/-- `size - len - 1`, as a `size_t`. -/
def room : Int :=
  ((buf.size : Int) - buf.data.length - 1) % 2 ^ 64

/-- `snprintf` at the end of the buffer and the test of its result. -/
def print (text : Bytes) : Option StatsBuffer :=
  let extent := max buf.extent (buf.data.length + min (text.length + 1) buf.room.toNat)
  if cInt buf.room ≤ text.length then none
  else some { buf with data := buf.data ++ text, extent }

end StatsBuffer

def statsAddString (buf : StatsBuffer) (key val : Bytes) : Option StatsBuffer :=
  buf.print (stringItem key val)

def statsAddNum (buf : StatsBuffer) (key : Bytes) (val : BitVec 64) : Option StatsBuffer :=
  buf.print (numItem key val)

def statsBeginNesting (buf : StatsBuffer) (key : Bytes) : Option StatsBuffer :=
  buf.print (nestItem key)

def statsEndNesting (buf : StatsBuffer) : Option StatsBuffer :=
  let len := buf.data.length
  match buf.data[len - 2]? with
  | some 44 =>
    -- the last two bytes are overwritten
    some { buf with data := buf.data.take (len - 2) ++ [125, 44], extent := max buf.extent len }
  | some 125 =>
    if len = buf.size then none
    else
      -- the last byte is overwritten and a new one is added
      some { buf with
        data := buf.data.take (len - 1) ++ [125, 44], extent := max buf.extent (len + 1) }
  | _ => some buf

def statsCopyMetric (buf : StatsBuffer) (metric : List NamedMetric) : Option StatsBuffer :=
  metric.foldlM (fun buf stm => statsAddNum buf stm.name stm.value) buf

def statsAddHeader (st : StatsReport) (buf : StatsBuffer) : Option StatsBuffer := do
  let buf := { buf with data := [123], extent := max buf.extent 1 }
  let uptime := st.curTs - st.startTs
  let buf ← statsAddString buf serviceStr st.service
  let buf ← statsAddString buf sourceStr st.source
  let buf ← statsAddString buf versionStr st.version
  let buf ← statsAddNum buf uptimeStr uptime
  let buf ← statsAddNum buf timestampStr st.curTs
  let buf ← statsAddNum buf ntotalConnStr st.ntotalConn
  statsAddNum buf ncurrConnStr (st.ncurrConn.setWidth 64)

def statsAddFooter (buf : StatsBuffer) : Option StatsBuffer :=
  let len := buf.data.length
  if len = buf.size then none
  else
    some { buf with
      data := buf.data.take (len - 1) ++ [125, 10], extent := max buf.extent (len + 1) }

/-- The part of `stats_make_rsp` for one server. -/
def statsAddServer (buf : StatsBuffer) (sts : ServerReport) : Option StatsBuffer := do
  let buf ← statsBeginNesting buf sts.name
  let buf ← statsCopyMetric buf sts.row.metric
  statsEndNesting buf

/-- The part of `stats_make_rsp` for one pool. -/
def statsAddPool (buf : StatsBuffer) (stp : PoolReport) : Option StatsBuffer := do
  let buf ← statsBeginNesting buf stp.name
  let buf ← statsCopyMetric buf stp.row.metric
  let buf ← stp.server.foldlM statsAddServer buf
  statsEndNesting buf

/-- `stats_make_rsp` on the buffer of `stats_create_buf`. -/
def statsMakeRsp (st : StatsReport) : Option StatsBuffer := do
  let buf ← statsAddHeader st ⟨[], statsCreateBuf st, 0⟩
  let buf ← st.sum.foldlM statsAddPool buf
  statsAddFooter buf

/-! ## The text of a report -/

/-- The metrics as they are printed, each with a comma and a blank after it. -/
def metricsText (metric : List NamedMetric) : Bytes :=
  metric.flatMap fun stm => numItem stm.name stm.value

/-- The metrics without the last comma and blank. -/
def metricsBody (metric : List NamedMetric) : Bytes :=
  (metricsText metric).dropLast.dropLast

namespace ServerReport

def text (sts : ServerReport) : Bytes :=
  nestItem sts.name ++ metricsBody sts.row.metric ++ [125, 44]

end ServerReport

namespace PoolReport

variable (stp : PoolReport)

def serversText : Bytes :=
  stp.server.flatMap ServerReport.text

/-- How many bytes the calls of `snprintf` for a pool print. -/
def printed : Nat :=
  (nestItem stp.name).length + (metricsText stp.row.metric).length + stp.serversText.length

def text : Bytes :=
  nestItem stp.name ++
    (if stp.server = [] then metricsBody stp.row.metric
    else metricsText stp.row.metric ++ stp.serversText.dropLast) ++ [125, 44]

end PoolReport

/-- The length of the buffer when the last `snprintf` for the pools has returned, from a given
length on. -/
def poolsPrinted : Nat → List PoolReport → Nat
  | len, [] => len
  | len, [stp] => len + stp.printed
  | len, stp :: next :: pools => poolsPrinted (len + stp.text.length) (next :: pools)

namespace StatsReport

variable (st : StatsReport)

/-- What is printed for the fields of the header. -/
def headerItems : List Bytes :=
  [stringItem serviceStr st.service, stringItem sourceStr st.source,
    stringItem versionStr st.version, numItem uptimeStr (st.curTs - st.startTs),
    numItem timestampStr st.curTs, numItem ntotalConnStr st.ntotalConn,
    numItem ncurrConnStr (st.ncurrConn.setWidth 64)]

/-- The length of the buffer when the last `snprintf` has returned. -/
def printed : Nat :=
  poolsPrinted (1 + st.headerItems.flatten.length) st.sum

end StatsReport

/-! ## How far printing goes -/

/-- The room of the empty buffer as an `int`, one byte being taken by the opening brace. -/
def statsLimit (size : Nat) : Int :=
  cInt (size - 2)

theorem statsLimit_eq (size : Nat) :
    statsLimit size = if ((size : Int) - 2) % 4294967296 < 2147483648
      then ((size : Int) - 2) % 4294967296
      else ((size : Int) - 2) % 4294967296 - 4294967296 := by
  rw [statsLimit, cInt, Int.bmod_def]
  rfl

/-- The limit leaves two bytes of the buffer. -/
theorem statsLimit_le {size : Nat} (pos : 0 ≤ statsLimit size) : statsLimit size ≤ size - 2 := by
  rw [statsLimit_eq] at pos ⊢
  omega

namespace StatsBuffer

variable {buf : StatsBuffer}

/-- Where the next `snprintf` goes: at the opening brace, or not farther than one byte behind the
limit. -/
structure Ready (buf : StatsBuffer) : Prop where
  pos : 1 ≤ buf.data.length
  length_le : buf.data.length = 1 ∨ (buf.data.length : Int) ≤ statsLimit buf.size + 1
  extent_le : buf.extent ≤ buf.data.length + 1

/-- What a call that adds a text leaves. -/
structure Added (buf : StatsBuffer) (text : Bytes) (buf' : StatsBuffer) : Prop where
  data : buf'.data = buf.data ++ text
  size : buf'.size = buf.size
  extent_le : buf'.extent ≤ buf'.data.length + 1

/-- So many more bytes can be printed. -/
def HasRoom (buf : StatsBuffer) (n : Nat) : Prop :=
  (buf.data.length + n : Int) ≤ statsLimit buf.size

/-- A call that prints `n` bytes adds a text if they can be printed, and fails otherwise. -/
def Adds (buf : StatsBuffer) (n : Nat) (text : Bytes) (result : Option StatsBuffer) : Prop :=
  (buf.HasRoom n → ∃ buf', result = some buf' ∧ buf.Added text buf') ∧
    (¬ buf.HasRoom n → result = none)

/-- The room that is left as an `int`. -/
theorem Ready.cInt_room (ready : buf.Ready) :
    cInt buf.room = statsLimit buf.size - (buf.data.length - 1) := by
  have pos := ready.pos
  have bound := ready.length_le
  rw [cInt, room, Int.bmod_def]
  rw [statsLimit_eq] at bound ⊢
  simp only [Int.reducePow]
  omega

/-- A call of `snprintf` succeeds up to the limit. -/
theorem Ready.print (ready : buf.Ready) (text : Bytes) :
    buf.Adds text.length text (buf.print text) := by
  constructor
  · intro fits
    rw [HasRoom] at fits
    have enough : ¬ cInt buf.room ≤ text.length := by
      rw [ready.cInt_room]
      omega
    refine ⟨_, if_neg enough, rfl, rfl, ?_⟩
    have extent := ready.extent_le
    simp only [List.length_append]
    omega
  · intro beyond
    rw [HasRoom] at beyond
    have tight : cInt buf.room ≤ text.length := by
      rw [ready.cInt_room]
      omega
    rw [StatsBuffer.print, if_pos tight]

variable {text text' : Bytes} {buf' : StatsBuffer} {n n' : Nat} {result : Option StatsBuffer}

theorem Added.length (added : buf.Added text buf') :
    buf'.data.length = buf.data.length + text.length := by
  rw [added.data, List.length_append]

theorem Added.trans {buf'' : StatsBuffer} (added : buf.Added text buf')
    (more : buf'.Added text' buf'') : buf.Added (text ++ text') buf'' where
  data := by rw [more.data, added.data, List.append_assoc]
  size := more.size.trans added.size
  extent_le := more.extent_le

theorem Added.within_iff (added : buf.Added text buf') :
    buf'.HasRoom n ↔ buf.HasRoom (text.length + n) := by
  rw [HasRoom, HasRoom, added.length, added.size]
  omega

theorem HasRoom.mono (within : buf.HasRoom n) (le : n' ≤ n) : buf.HasRoom n' := by
  rw [HasRoom] at within ⊢
  omega

/-- Where a text ends that goes at most one byte beyond the limit. -/
theorem Added.ready (added : buf.Added text buf') (ready : buf.Ready)
    (within : buf.HasRoom n) (le : text.length ≤ n + 1) : buf'.Ready := by
  have pos := ready.pos
  rw [HasRoom] at within
  refine ⟨?_, Or.inr ?_, added.extent_le⟩
  · rw [added.length]
    omega
  · rw [added.length, added.size]
    omega

/-- One call after the other. -/
theorem Adds.bind {next : StatsBuffer → Option StatsBuffer} (adds : buf.Adds n text result)
    (le : n ≤ text.length + n')
    (more : buf.HasRoom n → ∀ buf', buf.Added text buf' → buf'.Adds n' text' (next buf')) :
    buf.Adds (text.length + n') (text ++ text') (result >>= next) := by
  constructor
  · intro within
    obtain ⟨mid, rfl, added⟩ := adds.1 (within.mono le)
    obtain ⟨last, done, added'⟩ :=
      (more (within.mono le) mid added).1 (added.within_iff.mpr within)
    exact ⟨last, done, added.trans added'⟩
  · intro beyond
    by_cases fits : buf.HasRoom n
    · obtain ⟨mid, rfl, added⟩ := adds.1 fits
      exact (more fits mid added).2 fun within => beyond (added.within_iff.mp within)
    · rw [adds.2 fits]
      rfl

/-- Calls that print what they add succeed up to the limit, one after the other; for none, the
buffer has to be within it already. -/
theorem Ready.foldlM {α : Type} {call : StatsBuffer → α → Option StatsBuffer} {text : α → Bytes}
    (adds : ∀ {buf : StatsBuffer}, buf.Ready → ∀ a, buf.Adds (text a).length (text a) (call buf a))
    (ready : buf.Ready) {l : List α} (some_ : l = [] → buf.HasRoom 0) :
    buf.Adds (l.flatMap text).length (l.flatMap text) (l.foldlM call buf) := by
  induction l generalizing buf with
  | nil =>
    exact ⟨fun _ => ⟨buf, rfl, by simp, rfl, ready.extent_le⟩,
      fun beyond => absurd (some_ rfl) beyond⟩
  | cons a l ih =>
    rw [List.foldlM_cons, List.flatMap_cons, List.length_append]
    refine (adds ready a).bind (Nat.le_add_right _ _) fun within mid added => ?_
    exact ih (added.ready ready within (Nat.le_succ _)) fun _ => added.within_iff.mpr within

/-- The end of a nesting after a comma and a blank. -/
theorem statsEndNesting_comma {front : Bytes} (data : buf.data = front ++ [44, 32]) :
    statsEndNesting buf = some { buf with
      data := front ++ [125, 44], extent := max buf.extent (front.length + 2) } := by
  have length : buf.data.length = front.length + 2 := by simp [data]
  have comma : buf.data[front.length]? = some 44 := by simp [data]
  have before : buf.data.take front.length = front := by simp [data]
  simp only [statsEndNesting, length, Nat.add_sub_cancel, comma, before]

/-- The end of a nesting after another one. -/
theorem statsEndNesting_brace {front : Bytes} (data : buf.data = front ++ [125, 44])
    (room : front.length + 2 ≠ buf.size) :
    statsEndNesting buf = some { buf with
      data := front ++ [125] ++ [125, 44], extent := max buf.extent (front.length + 3) } := by
  have length : buf.data.length = front.length + 2 := by simp [data]
  have brace : buf.data[front.length]? = some 125 := by simp [data]
  have before : buf.data.take (front.length + 1) = front ++ [125] := by
    rw [data, List.take_length_add_append]
    rfl
  simp only [statsEndNesting, length, Nat.add_sub_cancel, brace, if_neg room]
  rw [show front.length + 2 - 1 = front.length + 1 from rfl, before]

theorem Adds.endNesting_comma (adds : buf.Adds n (text ++ [44, 32]) result) :
    buf.Adds n (text ++ [125, 44]) (result >>= statsEndNesting) := by
  refine ⟨fun within => ?_, fun beyond => by rw [adds.2 beyond]; rfl⟩
  obtain ⟨mid, rfl, added⟩ := adds.1 within
  have data : mid.data = buf.data ++ text ++ [44, 32] := by rw [added.data, List.append_assoc]
  have extent := added.extent_le
  rw [data, List.length_append, List.length_cons, List.length_singleton] at extent
  refine ⟨_, statsEndNesting_comma data, List.append_assoc _ _ _, added.size, ?_⟩
  simp only [List.length_append, List.length_cons, List.length_nil] at extent ⊢
  omega

theorem Adds.endNesting_brace (adds : buf.Adds n (text ++ [125, 44]) result)
    (le : text.length + 2 ≤ n) :
    buf.Adds n (text ++ [125] ++ [125, 44]) (result >>= statsEndNesting) := by
  refine ⟨fun within => ?_, fun beyond => by rw [adds.2 beyond]; rfl⟩
  obtain ⟨mid, rfl, added⟩ := adds.1 within
  have data : mid.data = buf.data ++ text ++ [125, 44] := by rw [added.data, List.append_assoc]
  have extent := added.extent_le
  rw [data, List.length_append, List.length_cons, List.length_singleton] at extent
  have room : (buf.data ++ text).length + 2 ≠ mid.size := by
    rw [HasRoom] at within
    have limit : statsLimit buf.size ≤ buf.size - 2 := statsLimit_le (by omega)
    rw [added.size, List.length_append]
    omega
  refine ⟨_, statsEndNesting_brace data room, by simp, added.size, ?_⟩
  simp only [List.length_append, List.length_cons, List.length_nil] at extent ⊢
  omega

end StatsBuffer

/-! ## Metrics, servers and pools -/

theorem metricsText_eq {metric : List NamedMetric} (some_ : metric ≠ []) :
    metricsText metric = metricsBody metric ++ [44, 32] := by
  obtain rfl | ⟨front, last, rfl⟩ := List.eq_nil_or_concat metric
  · exact absurd rfl some_
  · have ends : metricsText (front ++ [last]) =
        metricsText front ++ (quoted (cstr last.name) ++ 58 :: intDecimal last.value.toInt) ++
          [44] ++ [32] := by
      simp [metricsText, numItem]
    rw [List.concat_eq_append, metricsBody, ends, List.dropLast_concat, List.dropLast_concat,
      List.append_assoc]
    rfl

theorem MetricRow.metric_ne_nil {codec : List Bytes} (row : MetricRow codec)
    (some_ : codec ≠ []) : row.metric ≠ [] := by
  intro none
  apply some_
  rw [← row.named, none]
  rfl

theorem length_metricsText {metric : List NamedMetric} (some_ : metric ≠ []) :
    (metricsText metric).length = (metricsBody metric).length + 2 := by
  rw [metricsText_eq some_, List.length_append]
  rfl

theorem serversText_eq {stp : PoolReport} (some_ : stp.server ≠ []) :
    ∃ front, stp.serversText = front ++ [125, 44] := by
  obtain none | ⟨servers, last, server⟩ := List.eq_nil_or_concat stp.server
  · exact absurd none some_
  · refine ⟨servers.flatMap ServerReport.text ++
      (nestItem last.name ++ metricsBody last.row.metric), ?_⟩
    rw [PoolReport.serversText, server, List.concat_eq_append, List.flatMap_append,
      List.append_assoc]
    simp [ServerReport.text]

namespace StatsBuffer

variable {buf : StatsBuffer}

/-- The name of a nesting and its metrics. -/
theorem Ready.nesting (ready : buf.Ready) (name : Bytes) {metric : List NamedMetric}
    (some_ : metric ≠ []) :
    buf.Adds ((nestItem name).length + (metricsText metric).length)
      (nestItem name ++ metricsBody metric ++ [44, 32])
      (statsBeginNesting buf name >>= (statsCopyMetric · metric)) := by
  rw [List.append_assoc, ← metricsText_eq some_]
  refine (ready.print _).bind (Nat.le_add_right _ _) fun within mid added => ?_
  exact Ready.foldlM (fun ready stm => ready.print _)
    (added.ready ready within (Nat.le_succ _)) fun none => absurd none some_

theorem Ready.server (ready : buf.Ready) (sts : ServerReport) :
    buf.Adds sts.text.length sts.text (statsAddServer buf sts) := by
  have some_ := sts.row.metric_ne_nil (by decide)
  have closed := (ready.nesting sts.name some_).endNesting_comma
  have length : sts.text.length =
      (nestItem sts.name).length + (metricsText sts.row.metric).length := by
    rw [length_metricsText some_, ServerReport.text, List.length_append, List.length_append,
      Nat.add_assoc]
    rfl
  have steps : statsAddServer buf sts =
      (statsBeginNesting buf sts.name >>= (statsCopyMetric · sts.row.metric)) >>=
        statsEndNesting := (bind_assoc _ _ _).symm
  rw [length, steps]
  exact closed

/-- What the calls for a pool print, they add up to its closing brace, or one byte farther. -/
theorem Ready.pool (ready : buf.Ready) (stp : PoolReport) :
    buf.Adds stp.printed stp.text (statsAddPool buf stp) := by
  have some_ := stp.row.metric_ne_nil (by decide)
  have steps : statsAddPool buf stp =
      (statsBeginNesting buf stp.name >>= (statsCopyMetric · stp.row.metric) >>=
        (stp.server.foldlM statsAddServer ·)) >>= statsEndNesting := by
    simp only [statsAddPool, bind_assoc]
  have nesting := ready.nesting stp.name some_
  rw [steps, PoolReport.printed]
  by_cases none : stp.server = []
  · have same : stp.text = nestItem stp.name ++ metricsBody stp.row.metric ++ [125, 44] := by
      rw [PoolReport.text, if_pos none]
    have empty : stp.serversText.length = 0 := by simp [PoolReport.serversText, none]
    rw [same, none, empty]
    simp only [List.foldlM_nil, bind_pure]
    exact nesting.endNesting_comma
  · obtain ⟨front, servers⟩ := serversText_eq none
    have length : (nestItem stp.name ++ metricsBody stp.row.metric ++ [44, 32]).length =
        (nestItem stp.name).length + (metricsText stp.row.metric).length := by
      rw [List.append_assoc, ← metricsText_eq some_, List.length_append]
    have added : buf.Adds _ (_ ++ stp.serversText) _ :=
      nesting.bind (by omega) fun within mid added =>
        Ready.foldlM (fun ready sts => ready.server sts)
          (added.ready ready within (by omega)) fun none' => absurd none' none
    rw [length, ← PoolReport.serversText, servers, ← List.append_assoc] at added
    have closed := added.endNesting_brace (by
      simp only [List.length_append, List.length_cons, List.length_nil] at length ⊢
      omega)
    have same : stp.text = nestItem stp.name ++ metricsBody stp.row.metric ++ [44, 32] ++ front ++
        [125] ++ [125, 44] := by
      rw [PoolReport.text, if_neg none, servers, metricsText_eq some_]
      simp
    rw [same, servers]
    exact closed

theorem poolsPrinted_add (n len : Nat) (pools : List PoolReport) :
    poolsPrinted (n + len) pools = n + poolsPrinted len pools := by
  induction pools generalizing len with
  | nil => rfl
  | cons stp pools ih =>
    cases pools with
    | nil => exact Nat.add_assoc _ _ _
    | cons next pools => rw [poolsPrinted, poolsPrinted, Nat.add_assoc, ih]

theorem printed_le_length_text (stp : PoolReport) :
    stp.printed ≤ stp.text.length ∧ stp.text.length ≤ stp.printed + 1 := by
  have some_ := stp.row.metric_ne_nil (by decide)
  have length := length_metricsText some_
  rw [PoolReport.printed, PoolReport.text]
  by_cases none : stp.server = []
  · have empty : stp.serversText.length = 0 := by simp [PoolReport.serversText, none]
    simp only [if_pos none, List.length_append, List.length_cons, List.length_nil]
    omega
  · obtain ⟨front, servers⟩ := serversText_eq none
    simp only [if_neg none, List.length_append, List.length_cons, List.length_nil, servers,
      List.length_dropLast]
    omega

/-- The pools succeed up to the limit. -/
theorem Ready.pools (ready : buf.Ready) {pools : List PoolReport}
    (some_ : pools = [] → buf.HasRoom 0) :
    buf.Adds (poolsPrinted 0 pools) (pools.flatMap PoolReport.text)
      (pools.foldlM statsAddPool buf) := by
  induction pools generalizing buf with
  | nil =>
    exact ⟨fun _ => ⟨buf, rfl, by simp, rfl, ready.extent_le⟩,
      fun beyond => absurd (some_ rfl) beyond⟩
  | cons stp pools ih =>
    obtain ⟨low, high⟩ := printed_le_length_text stp
    rw [List.foldlM_cons, List.flatMap_cons]
    cases pools with
    | nil =>
      simp only [List.foldlM_nil, bind_pure, List.flatMap_nil, List.append_nil, poolsPrinted,
        Nat.zero_add]
      exact ready.pool stp
    | cons next pools =>
      rw [poolsPrinted, Nat.zero_add, ← Nat.add_zero stp.text.length, poolsPrinted_add]
      refine (ready.pool stp).bind (by omega) fun within mid added => ?_
      exact ih (added.ready ready within high) fun none => by cases none

theorem length_pools_le (pools : List PoolReport) :
    (pools.flatMap PoolReport.text).length ≤ poolsPrinted 0 pools + 1 := by
  induction pools with
  | nil => simp
  | cons stp pools ih =>
    obtain ⟨low, high⟩ := printed_le_length_text stp
    rw [List.flatMap_cons, List.length_append]
    cases pools with
    | nil =>
      simp only [poolsPrinted, List.flatMap_nil, List.length_nil]
      omega
    | cons next pools =>
      rw [poolsPrinted, Nat.zero_add, ← Nat.add_zero stp.text.length, poolsPrinted_add]
      omega

end StatsBuffer

/-! ## The whole report -/

namespace StatsReport

variable (st : StatsReport)

/-- The text before the footer. -/
def body : Bytes :=
  st.headerItems.flatten ++ st.sum.flatMap PoolReport.text

open StatsBuffer

theorem statsAddHeader_eq (size : Nat) :
    statsAddHeader st ⟨[], size, 0⟩ = st.headerItems.foldlM StatsBuffer.print ⟨[123], size, 1⟩ := by
  simp only [headerItems, List.foldlM_cons, List.foldlM_nil, bind_pure]
  rfl

theorem adds_body (size : Nat) :
    (⟨[123], size, 1⟩ : StatsBuffer).Adds (st.headerItems.flatten.length + poolsPrinted 0 st.sum)
      st.body (statsAddHeader st ⟨[], size, 0⟩ >>= (st.sum.foldlM statsAddPool ·)) := by
  have ready : (⟨[123], size, 1⟩ : StatsBuffer).Ready := ⟨Nat.le_refl _, Or.inl rfl, Nat.le_succ 1⟩
  have header := Ready.foldlM (fun ready item => ready.print item) ready (l := st.headerItems)
    fun none => by cases none
  rw [List.flatMap_id'] at header
  rw [statsAddHeader_eq]
  refine header.bind (Nat.le_add_right _ _) fun within mid added => ?_
  exact (added.ready ready within (Nat.le_succ _)).pools fun _ => added.within_iff.mpr within

theorem printed_eq :
    st.printed = 1 + (st.headerItems.flatten.length + poolsPrinted 0 st.sum) := by
  rw [printed, ← Nat.add_zero (1 + _), poolsPrinted_add, Nat.add_assoc]

theorem length_body_le : 1 + st.body.length ≤ st.printed + 1 := by
  have pools := length_pools_le st.sum
  rw [printed_eq, body, List.length_append]
  omega

/-- The report is made if what is printed stays within the limit; its text then ends where the
last comma or blank was. -/
theorem statsMakeRsp_spec :
    ((st.printed : Int) ≤ statsLimit (statsCreateBuf st) →
      ∃ buf, statsMakeRsp st = some buf ∧ buf.data = (123 :: st.body).dropLast ++ [125, 10] ∧
        buf.size = statsCreateBuf st ∧ buf.extent ≤ buf.size) ∧
    (¬ (st.printed : Int) ≤ statsLimit (statsCreateBuf st) → statsMakeRsp st = none) := by
  have steps : statsMakeRsp st =
      (statsAddHeader st ⟨[], statsCreateBuf st, 0⟩ >>= (st.sum.foldlM statsAddPool ·)) >>=
        statsAddFooter := (bind_assoc _ _ _).symm
  have adds := st.adds_body (statsCreateBuf st)
  have within_iff : (⟨[123], statsCreateBuf st, 1⟩ : StatsBuffer).HasRoom
      (st.headerItems.flatten.length + poolsPrinted 0 st.sum) ↔
        (st.printed : Int) ≤ statsLimit (statsCreateBuf st) := by
    rw [printed_eq, HasRoom]
    simp
  rw [steps]
  constructor
  · intro fits
    obtain ⟨mid, made, added⟩ := adds.1 (within_iff.mpr fits)
    have length := added.length
    have extent := added.extent_le
    have body := st.length_body_le
    have limit : statsLimit (statsCreateBuf st) ≤ statsCreateBuf st - 2 := statsLimit_le (by omega)
    have size : mid.size = statsCreateBuf st := added.size
    have room : mid.data.length ≠ mid.size := by
      simp only [List.length_singleton] at length
      omega
    rw [made]
    refine ⟨_, if_neg room, ?_, size, ?_⟩
    · rw [added.data, List.dropLast_eq_take]
      rfl
    · simp only [List.length_singleton] at length ⊢
      omega
  · intro beyond
    rw [adds.2 (within_iff.not.mpr beyond)]
    rfl

end StatsReport

/-! ## The estimate is enough -/

theorem length_cstr_le (s : Bytes) : (cstr s).length ≤ s.length :=
  (List.takeWhile_prefix _).length_le

theorem length_quoted (s : Bytes) : (quoted s).length = s.length + 2 := by
  simp [quoted]

theorem length_stringItem_le (key val : Bytes) :
    (stringItem key val).length ≤ key.length + val.length + keyValueExtra := by
  have key_le := length_cstr_le key
  have val_le := length_cstr_le val
  simp only [stringItem, List.length_append, List.length_cons, List.length_nil, length_quoted,
    keyValueExtra]
  omega

/-- An `int64_t` prints in at most twenty bytes. -/
theorem length_numItem_le (key : Bytes) (val : BitVec 64) :
    (numItem key val).length ≤ key.length + int64MaxDigits + keyValueExtra := by
  have key_le := length_cstr_le key
  have low : -2 ^ 63 ≤ val.toInt := val.le_toInt
  have high : val.toInt < 2 ^ 63 := val.toInt_lt
  have digits : (intDecimal val.toInt).length ≤ 19 + 1 :=
    length_intDecimal_le (by decide) (by omega)
  simp only [numItem, List.length_append, List.length_cons, List.length_nil, length_quoted,
    keyValueExtra, int64MaxDigits]
  omega

theorem length_nestItem_le (name : Bytes) : (nestItem name).length ≤ name.length + 5 := by
  have name_le := length_cstr_le name
  simp only [nestItem, List.length_append, List.length_cons, List.length_nil, length_quoted]
  omega

/-- What is added for the elements of a list is at most the sum of their estimates. -/
theorem length_flatMap_le_sum {α : Type} {text : α → Bytes} {estimate : α → Nat}
    (each : ∀ a, (text a).length ≤ estimate a) (l : List α) :
    (l.flatMap text).length ≤ (l.map estimate).sum := by
  induction l with
  | nil => simp
  | cons a l ih =>
    rw [List.flatMap_cons, List.length_append, List.map_cons, List.sum_cons]
    exact Nat.add_le_add (each a) ih

theorem length_metricsText_le (metric : List NamedMetric) :
    (metricsText metric).length ≤ (metric.map NamedMetric.estimate).sum := by
  have each (stm : NamedMetric) : (numItem stm.name stm.value).length ≤ stm.estimate :=
    length_numItem_le stm.name stm.value
  exact length_flatMap_le_sum each metric

theorem length_serverText_le (sts : ServerReport) : sts.text.length ≤ sts.estimate := by
  have nest := length_nestItem_le sts.name
  have metrics := length_metricsText_le sts.row.metric
  rw [length_metricsText (sts.row.metric_ne_nil (by decide))] at metrics
  simp only [ServerReport.text, ServerReport.estimate, List.length_append, List.length_cons,
    List.length_nil, serverExtra]
  omega

theorem length_poolText_le (stp : PoolReport) : stp.text.length ≤ stp.estimate := by
  have text := (StatsBuffer.printed_le_length_text stp).2
  have nest := length_nestItem_le stp.name
  have metrics := length_metricsText_le stp.row.metric
  have servers := length_flatMap_le_sum length_serverText_le stp.server
  rw [← PoolReport.serversText] at servers
  rw [PoolReport.printed] at text
  rw [PoolReport.estimate, poolExtra]
  omega

theorem poolsPrinted_le (pools : List PoolReport) :
    poolsPrinted 0 pools ≤ (pools.flatMap PoolReport.text).length := by
  induction pools with
  | nil => simp [poolsPrinted]
  | cons stp pools ih =>
    rw [List.flatMap_cons, List.length_append]
    cases pools with
    | nil =>
      have low := (StatsBuffer.printed_le_length_text stp).1
      simp only [poolsPrinted, List.flatMap_nil, List.length_nil]
      omega
    | cons next pools =>
      rw [poolsPrinted, Nat.zero_add, ← Nat.add_zero stp.text.length, StatsBuffer.poolsPrinted_add]
      omega

namespace StatsReport

variable (st : StatsReport)

theorem printed_le_estimate : st.printed + 2 ≤ st.estimate := by
  have pools := (poolsPrinted_le st.sum).trans (length_flatMap_le_sum length_poolText_le st.sum)
  have service := length_stringItem_le serviceStr st.service
  have source := length_stringItem_le sourceStr st.source
  have version := length_stringItem_le versionStr st.version
  have uptime := length_numItem_le uptimeStr (st.curTs - st.startTs)
  have timestamp := length_numItem_le timestampStr st.curTs
  have ntotal := length_numItem_le ntotalConnStr st.ntotalConn
  have ncurr := length_numItem_le ncurrConnStr (st.ncurrConn.setWidth 64)
  rw [printed_eq, estimate]
  simp only [headerItems, List.flatten_cons, List.flatten_nil, List.append_nil, List.length_append]
  omega

/-- Below two gigabytes the estimate is enough. -/
theorem printed_le_statsLimit (small : st.estimate < 2 ^ 31) :
    (st.printed : Int) ≤ statsLimit (statsCreateBuf st) := by
  have enough := st.printed_le_estimate
  have aligned : statsCreateBuf st = ncAlign st.estimate 8 := by
    rw [statsCreateBuf, Nat.mod_eq_of_lt]
    rw [ncAlign]
    omega
  rw [aligned, statsLimit_eq, ncAlign]
  omega

end StatsReport

/-! ## The report as a value -/

def NamedMetric.member (stm : NamedMetric) : Bytes × Json :=
  (stm.name, .num stm.value.toInt)

def ServerReport.member (sts : ServerReport) : Bytes × Json :=
  (sts.name, .obj (sts.row.metric.map NamedMetric.member))

def PoolReport.member (stp : PoolReport) : Bytes × Json :=
  (stp.name, .obj (stp.row.metric.map NamedMetric.member ++ stp.server.map ServerReport.member))

namespace StatsReport

variable (st : StatsReport)

def headerMembers : List (Bytes × Json) :=
  [(serviceStr, .str st.service), (sourceStr, .str st.source), (versionStr, .str st.version),
    (uptimeStr, .num (st.curTs - st.startTs).toInt), (timestampStr, .num st.curTs.toInt),
    (ntotalConnStr, .num st.ntotalConn.toInt),
    (ncurrConnStr, .num (st.ncurrConn.setWidth 64).toInt)]

/-- The object that is reported: the fields of the header, and the pools with their metrics and
servers. -/
def json : Json :=
  .obj (st.headerMembers ++ st.sum.map PoolReport.member)

/-- No name or string has a quote, a backslash or a control character. -/
def Plain : Prop :=
  (Unescaped st.service ∧ Unescaped st.source ∧ Unescaped st.version) ∧
    ∀ stp ∈ st.sum, Unescaped stp.name ∧ ∀ sts ∈ stp.server, Unescaped sts.name

end StatsReport

theorem cstr_of_unescaped {s : Bytes} (plain : Unescaped s) : cstr s = s := by
  rw [cstr, List.takeWhile_eq_self_iff]
  intro c member
  simp only [ne_eq, decide_eq_true_eq]
  rintro rfl
  exact absurd (plain 0 member).1 (by decide)

theorem spaces_nil : Spaces [] := by
  simp [Spaces]

theorem spaces_singleton : Spaces [32] := by
  simp [Spaces]

/-- A number as it is printed is a member of an object, with a comma and a blank after it. -/
theorem members_numItem {key : Bytes} (plain : Unescaped key) (val : BitVec 64) :
    ∃ w, numItem key val = w ++ 44 :: [32] ∧ Json.Members [(key, .num val.toInt)] w := by
  refine ⟨_, ?_, .one plain spaces_nil (.num (Json.integerText_intDecimal val.toInt))⟩
  simp [numItem, cstr_of_unescaped plain]

theorem members_stringItem {key val : Bytes} (plainKey : Unescaped key) (plain : Unescaped val) :
    ∃ w, stringItem key val = w ++ 44 :: [32] ∧ Json.Members [(key, .str val)] w := by
  refine ⟨_, ?_, .one plainKey spaces_nil (.str plain)⟩
  simp [stringItem, cstr_of_unescaped plainKey, cstr_of_unescaped plain]

theorem MetricRow.members {codec : List Bytes} (row : MetricRow codec) (some_ : codec ≠ [])
    (plain : ∀ name ∈ codec, Unescaped name) :
    Json.Members (row.metric.map NamedMetric.member) (metricsBody row.metric) := by
  have nonempty := row.metric_ne_nil some_
  have each : ∀ stm ∈ row.metric,
      ∃ w, numItem stm.name stm.value = w ++ 44 :: [32] ∧ Json.Members [stm.member] w := by
    intro stm listed
    refine members_numItem (plain stm.name ?_) stm.value
    rw [← row.named]
    exact List.mem_map_of_mem listed
  obtain ⟨w, joined, members⟩ := Json.Members.join spaces_singleton nonempty each
  have same : metricsBody row.metric = w :=
    List.append_cancel_right ((metricsText_eq nonempty).symm.trans joined)
  rw [same]
  exact members

/-- A nesting with its closing brace is a member, with a comma after it. -/
theorem members_nestItem {name w : Bytes} {members : List (Bytes × Json)} (plain : Unescaped name)
    (inner : Json.Members members w) :
    ∃ w', nestItem name ++ w ++ [125, 44] = w' ++ 44 :: [] ∧
      Json.Members [(name, .obj members)] w' := by
  refine ⟨_, ?_, .one plain spaces_singleton (.obj inner)⟩
  simp [nestItem, cstr_of_unescaped plain]

theorem members_server {sts : ServerReport} (plain : Unescaped sts.name) :
    ∃ w, sts.text = w ++ 44 :: [] ∧ Json.Members [sts.member] w :=
  members_nestItem plain (sts.row.members (by decide) (by decide))

theorem members_pool {stp : PoolReport} (plain : Unescaped stp.name)
    (servers : ∀ sts ∈ stp.server, Unescaped sts.name) :
    ∃ w, stp.text = w ++ 44 :: [] ∧ Json.Members [stp.member] w := by
  have metrics := stp.row.members (by decide) (by decide)
  apply members_nestItem plain
  by_cases none : stp.server = []
  · rw [if_pos none, none]
    simpa using metrics
  · obtain ⟨w, joined, members⟩ := Json.Members.join spaces_nil none
      fun sts listed => members_server (servers sts listed)
    rw [if_neg none, metricsText_eq (stp.row.metric_ne_nil (by decide)), PoolReport.serversText,
      joined, List.dropLast_concat]
    have both := metrics.append members spaces_singleton
    simpa using both

namespace StatsReport

variable {st : StatsReport}

theorem members_header (plain : st.Plain) :
    ∃ w, st.headerItems.flatten = w ++ 44 :: [32] ∧ Json.Members st.headerMembers w := by
  have each : ∀ field ∈ st.headerMembers.zip st.headerItems,
      ∃ w, field.2 = w ++ 44 :: [32] ∧ Json.Members [field.1] w := by
    simp only [headerMembers, headerItems, List.zip_cons_cons, List.zip_nil_left,
      List.forall_mem_cons]
    exact ⟨members_stringItem (by decide) plain.1.1, members_stringItem (by decide) plain.1.2.1,
      members_stringItem (by decide) plain.1.2.2, members_numItem (by decide) _,
      members_numItem (by decide) _, members_numItem (by decide) _, members_numItem (by decide) _,
      by simp⟩
  exact Json.Members.join spaces_singleton (by simp [headerMembers, headerItems]) each

/-- With a pool, and without anything to be escaped, the text is that of the value. -/
theorem text_json (plain : st.Plain) (some_ : st.sum ≠ []) :
    ∃ w, (123 :: st.body).dropLast ++ [125, 10] = w ++ [10] ∧ Json.Text st.json w := by
  obtain ⟨header, printed, headerMembers⟩ := members_header plain
  obtain ⟨pools, joined, poolMembers⟩ := Json.Members.join spaces_nil some_
    fun stp listed => members_pool (plain.2 stp listed).1 (plain.2 stp listed).2
  refine ⟨_, ?_, .obj (headerMembers.append poolMembers spaces_singleton)⟩
  have ends : 123 :: st.body = 123 :: (header ++ 44 :: ([32] ++ pools)) ++ [44] := by
    rw [body, printed, joined]
    simp
  rw [ends, List.dropLast_concat]
  simp

end StatsReport

/-- A report is made, inside its buffer and as one JSON object with a newline after it, exactly if
what is printed stays within the room of the buffer as an `int`; a buffer below two gigabytes is
always large enough. -/
theorem stats_report_iff (st : StatsReport) :
    ((∃ buf, statsMakeRsp st = some buf ∧ buf.size = statsCreateBuf st ∧ buf.extent ≤ buf.size ∧
        (st.Plain → st.sum ≠ [] → ∃ w, buf.data = w ++ [10] ∧ Json.Text st.json w)) ↔
      (st.printed : Int) ≤ cInt (statsCreateBuf st - 2)) ∧
    (st.estimate < 2 ^ 31 → (st.printed : Int) ≤ cInt (statsCreateBuf st - 2)) := by
  obtain ⟨made, fails⟩ := st.statsMakeRsp_spec
  refine ⟨⟨?_, fun fits => ?_⟩, st.printed_le_statsLimit⟩
  · rintro ⟨buf, success, -⟩
    by_contra beyond
    rw [fails beyond] at success
    cases success
  · obtain ⟨buf, success, data, size, extent⟩ := made fits
    refine ⟨buf, success, size, extent, fun plain some_ => ?_⟩
    rw [data]
    exact StatsReport.text_json plain some_

/-- Metrics that are all zero. -/
def zeroRow (codec : List Bytes) : MetricRow codec where
  metric := codec.map fun name => ⟨name, 0⟩
  named := by simp [Function.comp_def]

/-- A report on one pool with one server, whose name has so many bytes. -/
def longNameReport (n : Nat) : StatsReport where
  service := statsText "nutcracker"
  source := statsText "localhost"
  version := statsText "0.4.1"
  startTs := 0
  curTs := 25
  ntotalConn := 1
  ncurrConn := 1
  sum := [⟨List.replicate n 97, zeroRow _, [⟨statsText "127.0.0.1", zeroRow _⟩]⟩]

theorem estimate_longNameReport (n : Nat) : (longNameReport n).estimate = n + 1021 := by
  have metrics : ((zeroRow statsPoolNames).metric.map NamedMetric.estimate).sum = 241 := by decide
  have server : ServerReport.estimate ⟨statsText "127.0.0.1", zeroRow _⟩ = 541 := by decide
  have header : 1 + (serviceStr.length + (statsText "nutcracker").length + keyValueExtra) +
      (sourceStr.length + (statsText "localhost").length + keyValueExtra) +
      (versionStr.length + (statsText "0.4.1").length + keyValueExtra) +
      (uptimeStr.length + int64MaxDigits + keyValueExtra) +
      (timestampStr.length + int64MaxDigits + keyValueExtra) +
      (ntotalConnStr.length + int64MaxDigits + keyValueExtra) +
      (ncurrConnStr.length + int64MaxDigits + keyValueExtra) = 229 := by decide
  simp only [StatsReport.estimate, longNameReport, header, List.map_cons, List.map_nil,
    List.sum_cons, List.sum_nil, PoolReport.estimate, List.length_replicate, metrics, server,
    poolExtra]
  omega

/-- With a name of 2³¹ bytes the room is negative as an `int`, and no report is made. -/
theorem stats_report_long_name : statsMakeRsp (longNameReport (2 ^ 31)) = none := by
  apply (longNameReport (2 ^ 31)).statsMakeRsp_spec.2
  rw [statsCreateBuf, estimate_longNameReport, statsLimit_eq]
  simp only [ncAlign]
  omega

end Nutcracker
