import Nutcracker.Lib.Run
import Mathlib.Data.BitVec

/-!
# Statistics

The event loop updates the metrics in `current`.  `stats_swap` exchanges `current`
with `shadow` and hands it over by setting `aggregate`; the aggregator thread adds
`shadow` to `sum` and clears the flag.  The three arrays have one shape: a list of
pools, each with its own metrics and those of its servers.

A metric is an `int64_t`.  Its additions wrap around in the model, so that a sum is
the exact number modulo `2 ^ 64`.
-/

namespace Nutcracker

/-- `stats_type_t`, without its two sentinels. -/
inductive StatsType where
  | counter
  | gauge
  | timestamp
  deriving DecidableEq, Repr

/-- The types of `STATS_POOL_CODEC`: `client_eof`, `client_err`, `client_connections`,
`server_ejects`, `forward_error`, `fragments`. -/
def statsPoolCodec : List StatsType :=
  [.counter, .counter, .gauge, .counter, .counter, .counter]

/-- The types of `STATS_SERVER_CODEC`: `server_eof`, `server_err`, `server_timedout`,
`server_connections`, `server_ejected_at`, `requests`, `request_bytes`, `responses`,
`response_bytes`, `in_queue`, `in_queue_bytes`, `out_queue`, `out_queue_bytes`. -/
def statsServerCodec : List StatsType :=
  [.counter, .counter, .counter, .gauge, .timestamp, .counter, .counter, .counter, .counter,
    .gauge, .gauge, .gauge, .gauge]

/-- `struct stats_metric`; the two members of its union are one word. -/
structure StatsMetric where
  type : StatsType
  value : BitVec 64
  deriving DecidableEq, Repr

/-- `struct stats_pool`: the metrics of a pool and of each of its servers. -/
structure StatsPool where
  metric : List StatsMetric
  server : List (List StatsMetric)
  deriving DecidableEq, Repr

/-- The fields of `struct stats` that the hand-over uses. -/
structure Stats where
  current : List StatsPool
  shadow : List StatsPool
  sum : List StatsPool
  aggregate : Bool := false
  updated : Bool := false
  deriving DecidableEq, Repr

/-- A metric of a pool, or of the server at a position in it. -/
structure StatsSlot where
  pool : Nat
  server : Option Nat
  field : Nat
  deriving DecidableEq, Repr

/-! ## Access -/

/-- The metrics of a pool or of one of its servers. -/
def StatsPool.row (stp : StatsPool) : Option Nat → Option (List StatsMetric)
  | none => some stp.metric
  | some i => stp.server[i]?

/-- `stats_pool_to_metric` and `stats_server_to_metric`. -/
def statsMetric (pools : List StatsPool) (slot : StatsSlot) : Option StatsMetric :=
  (pools[slot.pool]?.bind (·.row slot.server)).bind (·[slot.field]?)

/-- The value of a metric. -/
def statsValue (pools : List StatsPool) (slot : StatsSlot) : BitVec 64 :=
  ((statsMetric pools slot).map (·.value)).getD 0

/-- Change the metrics of a pool or of one of its servers. -/
def StatsPool.modifyRow (stp : StatsPool) (f : List StatsMetric → List StatsMetric) :
    Option Nat → StatsPool
  | none => { stp with metric := f stp.metric }
  | some i => { stp with server := stp.server.modify i f }

/-- Change one metric. -/
def modifyMetric (pools : List StatsPool) (slot : StatsSlot) (f : StatsMetric → StatsMetric) :
    List StatsPool :=
  pools.modify slot.pool fun stp => stp.modifyRow (·.modify slot.field f) slot.server

theorem row_modifyRow (stp : StatsPool) (f : List StatsMetric → List StatsMetric)
    (i j : Option Nat) :
    (stp.modifyRow f i).row j = (stp.row j).map fun row => if i = j then f row else row := by
  cases i with
  | none => cases j <;> simp [StatsPool.modifyRow, StatsPool.row]
  | some i =>
    cases j with
    | none => simp [StatsPool.modifyRow, StatsPool.row]
    | some j =>
      simp only [StatsPool.modifyRow, StatsPool.row, List.getElem?_modify,
        Option.some.injEq]
      rfl

theorem statsMetric_modifyMetric (pools : List StatsPool) (slot other : StatsSlot)
    (f : StatsMetric → StatsMetric) :
    statsMetric (modifyMetric pools slot f) other =
      (statsMetric pools other).map fun m => if slot = other then f m else m := by
  obtain ⟨p, i, n⟩ := slot
  obtain ⟨q, j, k⟩ := other
  simp only [statsMetric, modifyMetric, List.getElem?_modify, StatsSlot.mk.injEq]
  cases pools[q]? with
  | none => rfl
  | some stp =>
    by_cases pool : p = q
    · simp only [pool, if_true, Option.map_eq_map, Option.map_some, Option.bind_some,
        row_modifyRow, true_and]
      cases stp.row j with
      | none => rfl
      | some row =>
        by_cases server : i = j
        · simp only [server, if_true, Option.map_some, Option.bind_some,
            List.getElem?_modify, true_and, Option.map_eq_map]
        · simp [server]
    · simp [pool]

/-- Apply a function to every metric. -/
def mapMetrics (f : StatsMetric → StatsMetric) (pools : List StatsPool) : List StatsPool :=
  pools.map fun stp => ⟨stp.metric.map f, stp.server.map (·.map f)⟩

theorem statsMetric_mapMetrics (f : StatsMetric → StatsMetric) (pools : List StatsPool)
    (slot : StatsSlot) :
    statsMetric (mapMetrics f pools) slot = (statsMetric pools slot).map f := by
  obtain ⟨p, i, n⟩ := slot
  simp only [statsMetric, mapMetrics, List.getElem?_map]
  cases pools[p]? with
  | none => rfl
  | some stp =>
    cases i with
    | none => simp [StatsPool.row]
    | some i =>
      simp only [Option.map_some, Option.bind_some, StatsPool.row, List.getElem?_map]
      cases stp.server[i]? with
      | none => rfl
      | some row => simp

/-- Combine two arrays metric by metric. -/
def zipMetrics (f : StatsMetric → StatsMetric → StatsMetric) (dst src : List StatsPool) :
    List StatsPool :=
  List.zipWith (fun p q =>
    ⟨List.zipWith f p.metric q.metric, List.zipWith (List.zipWith f) p.server q.server⟩) dst src

theorem statsMetric_zipMetrics (f : StatsMetric → StatsMetric → StatsMetric)
    (dst src : List StatsPool) (slot : StatsSlot) :
    statsMetric (zipMetrics f dst src) slot =
      (statsMetric dst slot).bind fun m => (statsMetric src slot).map (f m) := by
  obtain ⟨p, i, n⟩ := slot
  have rows : ∀ x y : List StatsMetric,
      (List.zipWith f x y)[n]? = x[n]?.bind fun m => y[n]?.map (f m) := by
    intro x y
    rw [List.getElem?_zipWith]
    cases x[n]? <;> cases y[n]? <;> rfl
  simp only [statsMetric, zipMetrics, List.getElem?_zipWith]
  cases dst[p]? with
  | none => rfl
  | some stp =>
    cases src[p]? with
    | none => simp
    | some stq =>
      cases i with
      | none => simp [StatsPool.row, rows]
      | some i =>
        simp only [Option.bind_some, StatsPool.row, List.getElem?_zipWith]
        cases stp.server[i]? with
        | none => rfl
        | some x =>
          cases stq.server[i]? with
          | none => simp
          | some y => simp [rows]

/-! ## Updates, swap and aggregation -/

/-- `_stats_pool_incr` and the other update functions; the values are `int64_t`. -/
inductive StatsOp where
  | incr
  | decr
  | incrBy (val : BitVec 64)
  | decrBy (val : BitVec 64)
  | setTs (val : BitVec 64)
  deriving DecidableEq, Repr

/-- What an update makes of a value. -/
def StatsOp.apply : StatsOp → BitVec 64 → BitVec 64
  | .incr, value => value + 1
  | .decr, value => value - 1
  | .incrBy val, value => value + val
  | .decrBy val, value => value - val
  | .setTs val, _ => val

/-- `stats_metric_reset`. -/
def StatsMetric.reset (m : StatsMetric) : StatsMetric :=
  { m with value := 0 }

/-- The body of the loop of `stats_aggregate_metric`. -/
def StatsMetric.aggregate (stm2 stm1 : StatsMetric) : StatsMetric :=
  match stm1.type with
  | .counter => { stm2 with value := stm2.value + stm1.value }
  | .gauge => { stm2 with value := stm2.value + stm1.value }
  | .timestamp => if stm1.value ≠ 0 then { stm2 with value := stm1.value } else stm2

/-- An update of the event loop, `stats_swap`, or `stats_aggregate` in the other thread. -/
inductive StatsEvent where
  | update (slot : StatsSlot) (op : StatsOp)
  | swap
  | aggregate
  deriving DecidableEq, Repr

def statsUpdate (st : Stats) (slot : StatsSlot) (op : StatsOp) : Stats :=
  { st with
    current := modifyMetric st.current slot fun m => { m with value := op.apply m.value }
    updated := true }

def statsSwap (st : Stats) : Stats :=
  if st.aggregate then st
  else if !st.updated then st
  else
    { st with
      current := mapMetrics .reset st.shadow
      shadow := st.current
      updated := false
      aggregate := true }

def statsAggregate (st : Stats) : Stats :=
  if !st.aggregate then st
  else { st with sum := zipMetrics .aggregate st.sum st.shadow, aggregate := false }

def Stats.step (st : Stats) : StatsEvent → Stats
  | .update slot op => statsUpdate st slot op
  | .swap => statsSwap st
  | .aggregate => statsAggregate st

/-- `stats_pool_map` for pools with the given numbers of servers. -/
def statsPoolMap (nserver : List Nat) : List StatsPool :=
  nserver.map fun n =>
    ⟨statsPoolCodec.map (⟨·, 0⟩), List.replicate n (statsServerCodec.map (⟨·, 0⟩))⟩

/-- `stats_create`. -/
def statsCreate (nserver : List Nat) : Stats where
  current := statsPoolMap nserver
  shadow := statsPoolMap nserver
  sum := statsPoolMap nserver

/-! ## The ledger -/

/-- The type of a metric, if there is one. -/
def statsCodec (nserver : List Nat) (slot : StatsSlot) : Option StatsType :=
  (statsMetric (statsPoolMap nserver) slot).map (·.type)

/-- Numbers are added to counters and gauges, and timestamps, which are not zero, are set.  The
assertions of the update functions allow this, but for taking from a counter. -/
def StatsOp.Fits : StatsOp → StatsType → Prop
  | .setTs val, type => type = .timestamp ∧ val ≠ 0
  | _, type => type ≠ .timestamp

instance StatsOp.decidableFits : (op : StatsOp) → (type : StatsType) → Decidable (op.Fits type)
  | .setTs val, type => inferInstanceAs (Decidable (type = .timestamp ∧ val ≠ 0))
  | .incr, type | .decr, type | .incrBy _, type | .decrBy _, type =>
    inferInstanceAs (Decidable (type ≠ .timestamp))

/-- An event that updates an existing metric in a way that fits its type. -/
def StatsEvent.WellTyped (nserver : List Nat) : StatsEvent → Prop
  | .update slot op => ∃ type, statsCodec nserver slot = some type ∧ op.Fits type
  | .swap => True
  | .aggregate => True

/-- What an update adds to a counter or gauge. -/
def StatsOp.delta : StatsOp → Int
  | .incr => 1
  | .decr => -1
  | .incrBy val => val.toInt
  | .decrBy val => -val.toInt
  | .setTs _ => 0

/-- What an event adds to a metric. -/
def StatsEvent.delta (slot : StatsSlot) : StatsEvent → Int
  | .update other op => if other = slot then op.delta else 0
  | .swap => 0
  | .aggregate => 0

/-- The timestamp of a metric after an event. -/
def StatsEvent.stamp (slot : StatsSlot) (latest : BitVec 64) : StatsEvent → BitVec 64
  | .update other (.setTs val) => if other = slot then val else latest
  | _ => latest

/-- The total of all updates of a metric. -/
def applied (events : List StatsEvent) (slot : StatsSlot) : Int :=
  (events.map (StatsEvent.delta slot)).sum

/-- The timestamp set last, zero if there is none. -/
def latest (events : List StatsEvent) (slot : StatsSlot) : BitVec 64 :=
  events.foldl (StatsEvent.stamp slot) 0

/-- What `shadow` still has to give to `sum`. -/
def Stats.pending (st : Stats) (slot : StatsSlot) : BitVec 64 :=
  if st.aggregate then statsValue st.shadow slot else 0

/-- The first of three values that is not zero. -/
def firstSet (a b c : BitVec 64) : BitVec 64 :=
  if a ≠ 0 then a else if b ≠ 0 then b else c

/-- A metric with its type in each of the three arrays. -/
structure Stats.Holds (st : Stats) (slot : StatsSlot) (type : StatsType)
    (current shadow sum : BitVec 64) : Prop where
  current : statsMetric st.current slot = some ⟨type, current⟩
  shadow : statsMetric st.shadow slot = some ⟨type, shadow⟩
  sum : statsMetric st.sum slot = some ⟨type, sum⟩

theorem Stats.Holds.pending {st : Stats} {slot : StatsSlot} {type : StatsType}
    {c s u : BitVec 64} (holds : st.Holds slot type c s u) :
    st.pending slot = if st.aggregate then s else 0 := by
  simp [Stats.pending, statsValue, holds.shadow]

/-- One metric is accounted for: `total` is what was added to it, `stamp` the time set last. -/
structure Stats.Accounted (st : Stats) (slot : StatsSlot) (type : StatsType) (total : Int)
    (stamp : BitVec 64) (c s u : BitVec 64) : Prop extends st.Holds slot type c s u where
  idle : st.updated = false → c = 0
  balance : type ≠ .timestamp → u + (if st.aggregate then s else 0) + c = .ofInt 64 total
  recent : type = .timestamp → firstSet c (if st.aggregate then s else 0) u = stamp

/-- An update that fits a counter or gauge adds its delta. -/
theorem StatsOp.apply_eq {op : StatsOp} {type : StatsType} (fits : op.Fits type)
    (number : type ≠ .timestamp) (value : BitVec 64) :
    op.apply value = value + .ofInt 64 op.delta := by
  cases op with
  | incr => rfl
  | decr => exact BitVec.sub_eq_add_neg value 1
  | incrBy val => rw [StatsOp.delta, BitVec.ofInt_toInt, StatsOp.apply]
  | decrBy val =>
    rw [StatsOp.delta, BitVec.ofInt_neg, BitVec.ofInt_toInt, StatsOp.apply,
      BitVec.sub_eq_add_neg]
  | setTs val => exact absurd fits.1 number

theorem Stats.Accounted.update {st : Stats} {slot : StatsSlot} {type : StatsType} {total : Int}
    {stamp c s u : BitVec 64} (accounted : st.Accounted slot type total stamp c s u)
    (other : StatsSlot) (op : StatsOp) (fits : other = slot → op.Fits type) :
    ∃ c', (statsUpdate st other op).Accounted slot type
      (total + StatsEvent.delta slot (.update other op))
      (StatsEvent.stamp slot stamp (.update other op)) c' s u := by
  have changed : statsMetric (statsUpdate st other op).current slot =
      some ⟨type, if other = slot then op.apply c else c⟩ := by
    simp only [statsUpdate, statsMetric_modifyMetric, accounted.current, Option.map_some]
    split <;> rfl
  refine ⟨_, ⟨changed, accounted.shadow, accounted.sum⟩, (fun quiet => nomatch quiet), ?_, ?_⟩
  · intro number
    have balance := accounted.balance number
    by_cases same : other = slot
    · simp only [same, if_true, StatsEvent.delta]
      rw [StatsOp.apply_eq (fits same) number, BitVec.ofInt_add, ← balance]
      exact (add_assoc _ _ _).symm
    · simp only [same, if_false, StatsEvent.delta, add_zero]
      exact balance
  · intro time
    have recent := accounted.recent time
    by_cases same : other = slot
    · have fits := fits same
      subst time
      cases op with
      | setTs val =>
        simp only [StatsEvent.stamp, StatsOp.apply, same, if_true]
        exact if_pos fits.2
      | incr => exact absurd rfl fits
      | incrBy val => exact absurd rfl fits
      | decr => exact absurd rfl fits
      | decrBy val => exact absurd rfl fits
    · have kept : StatsEvent.stamp slot stamp (.update other op) = stamp := by
        cases op <;> simp [StatsEvent.stamp, same]
      rw [kept]
      simp only [same, if_false]
      exact recent

theorem Stats.Accounted.swap {st : Stats} {slot : StatsSlot} {type : StatsType} {total : Int}
    {stamp c s u : BitVec 64} (accounted : st.Accounted slot type total stamp c s u) :
    ∃ c' s', (statsSwap st).Accounted slot type total stamp c' s' u := by
  unfold statsSwap
  split
  · exact ⟨c, s, accounted⟩
  · rename_i free
    split
    · exact ⟨c, s, accounted⟩
    · -- the metric moves from `current` to `shadow`, where it is pending
      have cleared : statsMetric (mapMetrics .reset st.shadow) slot = some ⟨type, 0⟩ := by
        rw [statsMetric_mapMetrics, accounted.shadow]
        rfl
      refine ⟨0, c, ⟨cleared, accounted.current, accounted.sum⟩, fun _ => rfl, ?_, ?_⟩
      · intro number
        have balance := accounted.balance number
        simp only [free, if_false, add_zero, Bool.false_eq_true] at balance
        simpa using balance
      · intro time
        have recent := accounted.recent time
        simp only [free, if_false, Bool.false_eq_true] at recent
        simpa [firstSet] using recent

theorem Stats.Accounted.aggregate {st : Stats} {slot : StatsSlot} {type : StatsType}
    {total : Int} {stamp c s u : BitVec 64}
    (accounted : st.Accounted slot type total stamp c s u) :
    ∃ u', (statsAggregate st).Accounted slot type total stamp c s u' := by
  unfold statsAggregate
  split
  · exact ⟨u, accounted⟩
  · rename_i busy
    have busy : st.aggregate = true := by simpa using busy
    have merged : statsMetric (zipMetrics .aggregate st.sum st.shadow) slot =
        some ⟨type, if type = .timestamp then if s ≠ 0 then s else u else u + s⟩ := by
      rw [statsMetric_zipMetrics, accounted.sum, accounted.shadow]
      cases type with
      | counter => rfl
      | gauge => rfl
      | timestamp =>
        by_cases zero : s = 0
        · simp [StatsMetric.aggregate, zero]
        · simp only [StatsMetric.aggregate, Option.bind_some, Option.map_some, ne_eq, zero,
            not_false_eq_true, if_true]
    refine ⟨_, ⟨accounted.current, accounted.shadow, merged⟩, accounted.idle, ?_, ?_⟩
    · intro number
      have balance := accounted.balance number
      simp only [busy, if_true] at balance
      simpa [number] using balance
    · intro time
      have recent := accounted.recent time
      simp only [busy, if_true, firstSet] at recent
      simp only [time, if_true, firstSet, ne_eq, not_true_eq_false, if_false,
        Bool.false_eq_true]
      exact recent

/-- Every event keeps every metric accounted for. -/
theorem Stats.Accounted.step {st : Stats} {slot : StatsSlot} {type : StatsType} {total : Int}
    {stamp c s u : BitVec 64} (accounted : st.Accounted slot type total stamp c s u)
    {nserver : List Nat} (codec : statsCodec nserver slot = some type) {e : StatsEvent}
    (typed : e.WellTyped nserver) :
    ∃ c' s' u', (st.step e).Accounted slot type (total + e.delta slot) (e.stamp slot stamp)
      c' s' u' := by
  cases e with
  | update other op =>
    obtain ⟨type', found, fits⟩ := typed
    obtain ⟨c', next⟩ := accounted.update other op (by
      intro same
      rw [same, codec] at found
      cases found
      exact fits)
    exact ⟨c', s, u, next⟩
  | swap =>
    obtain ⟨c', s', next⟩ := accounted.swap
    rw [StatsEvent.delta, add_zero]
    exact ⟨c', s', u, next⟩
  | aggregate =>
    obtain ⟨u', next⟩ := accounted.aggregate
    rw [StatsEvent.delta, add_zero]
    exact ⟨c, s, u', next⟩

theorem mapMetrics_reset_statsPoolMap (nserver : List Nat) :
    mapMetrics .reset (statsPoolMap nserver) = statsPoolMap nserver := by
  simp [mapMetrics, statsPoolMap, StatsMetric.reset, Function.comp_def]

theorem statsCreate_accounted {nserver : List Nat} {slot : StatsSlot} {type : StatsType}
    (codec : statsCodec nserver slot = some type) :
    (statsCreate nserver).Accounted slot type 0 0 0 0 0 := by
  have fresh : statsMetric (statsPoolMap nserver) slot = some ⟨type, 0⟩ := by
    obtain ⟨m, found, rfl⟩ := Option.map_eq_some_iff.mp codec
    rw [← mapMetrics_reset_statsPoolMap, statsMetric_mapMetrics, found]
    rfl
  exact ⟨⟨fresh, fresh, fresh⟩, fun _ => rfl, fun _ => rfl, fun _ => rfl⟩

theorem applied_concat (events : List StatsEvent) (e : StatsEvent) (slot : StatsSlot) :
    applied (events ++ [e]) slot = applied events slot + e.delta slot := by
  simp [applied]

theorem latest_concat (events : List StatsEvent) (e : StatsEvent) (slot : StatsSlot) :
    latest (events ++ [e]) slot = e.stamp slot (latest events slot) := by
  simp [latest]

theorem run_accounted {nserver : List Nat} {slot : StatsSlot} {type : StatsType}
    (codec : statsCodec nserver slot = some type) {events : List StatsEvent}
    (typed : ∀ e ∈ events, e.WellTyped nserver) :
    ∃ c s u, (events.foldl Stats.step (statsCreate nserver)).Accounted slot type
      (applied events slot) (latest events slot) c s u := by
  induction events using List.reverseRecOn with
  | nil => exact ⟨0, 0, 0, statsCreate_accounted codec⟩
  | append_singleton events e ih =>
    obtain ⟨c, s, u, before⟩ := ih fun e member => typed e (List.mem_append_left _ member)
    rw [applied_concat, latest_concat, List.foldl_append]
    exact before.step codec (typed e (List.mem_append_right _ List.mem_cons_self))

/-! ## Exact sums -/

/-- An event of the hand-over, not an update. -/
def StatsEvent.Quiet (e : StatsEvent) : Prop :=
  e = .swap ∨ e = .aggregate

theorem applied_append_quiet {quiet : List StatsEvent} (all : ∀ e ∈ quiet, e.Quiet)
    (events : List StatsEvent) (slot : StatsSlot) :
    applied (events ++ quiet) slot = applied events slot ∧
      latest (events ++ quiet) slot = latest events slot := by
  induction quiet using List.reverseRecOn with
  | nil => simp
  | append_singleton quiet e ih =>
    obtain ⟨total, stamp⟩ := ih fun e member => all e (List.mem_append_left _ member)
    have last := all e (List.mem_append_right _ List.mem_cons_self)
    rw [← List.append_assoc, applied_concat, latest_concat, total, stamp]
    rcases last with rfl | rfl
    · exact ⟨add_zero _, rfl⟩
    · exact ⟨add_zero _, rfl⟩

/-- Two rounds of the hand-over. -/
def twoRounds : List StatsEvent :=
  [.swap, .aggregate, .swap, .aggregate]

/-- What is known of the flags when the events `rest` of two rounds are still to come. -/
def Stats.Awaits (st : Stats) : List StatsEvent → Prop
  | [] => st.aggregate = false ∧ st.updated = false
  | [.aggregate] => st.updated = false
  | [.swap, .aggregate] => ¬ (st.aggregate = true ∧ st.updated = true)
  | _ => True

/-- The flags after an event of the hand-over. -/
theorem Stats.step_quiet_flags (st : Stats) {e : StatsEvent} (quiet : e.Quiet) :
    e = .swap ∧ (st.aggregate = false ∧ st.updated = true ∧
        (st.step e).aggregate = true ∧ (st.step e).updated = false ∨
        (st.aggregate = true ∨ st.updated = false) ∧ st.step e = st) ∨
      e = .aggregate ∧ (st.step e).aggregate = false ∧ (st.step e).updated = st.updated := by
  rcases quiet with rfl | rfl
  · left
    refine ⟨rfl, ?_⟩
    simp only [Stats.step, statsSwap]
    cases busy : st.aggregate <;> cases fresh : st.updated <;> simp
  · right
    refine ⟨rfl, ?_⟩
    simp only [Stats.step, statsAggregate]
    cases busy : st.aggregate <;> simp [busy]

theorem Stats.Awaits.keep {st : Stats} {rest : List StatsEvent} (awaits : st.Awaits rest)
    {e : StatsEvent} (quiet : e.Quiet) : (st.step e).Awaits rest := by
  have flags := st.step_quiet_flags quiet
  unfold Stats.Awaits at awaits ⊢
  split at awaits
  · grind
  · grind
  · grind
  · trivial

/-- The next event of the two rounds brings the flags one stage on. -/
theorem Stats.Awaits.advance {st : Stats} {e : StatsEvent} {rest : List StatsEvent}
    (suffix : e :: rest <:+ twoRounds) (awaits : st.Awaits (e :: rest)) :
    (st.step e).Awaits rest := by
  have stages : e :: rest = twoRounds ∨ e :: rest = [.aggregate, .swap, .aggregate] ∨
      e :: rest = [.swap, .aggregate] ∨ e :: rest = [.aggregate] := by
    simpa [twoRounds, List.suffix_cons_iff] using suffix
  rcases stages with stage | stage | stage | stage <;> cases stage
  · trivial
  · have flags := st.step_quiet_flags (.inr rfl)
    unfold Stats.Awaits
    grind
  · have flags := st.step_quiet_flags (.inl rfl)
    unfold Stats.Awaits at awaits ⊢
    grind
  · have flags := st.step_quiet_flags (.inr rfl)
    unfold Stats.Awaits at awaits ⊢
    grind

/-- After the events that are awaited, with any others of the hand-over in between, everything
has been handed over. -/
theorem Stats.Awaits.run {rest quiet : List StatsEvent} (contained : rest.Sublist quiet)
    (all : ∀ e ∈ quiet, e.Quiet) (suffix : rest <:+ twoRounds) {st : Stats}
    (awaits : st.Awaits rest) :
    (quiet.foldl Stats.step st).aggregate = false ∧
      (quiet.foldl Stats.step st).updated = false := by
  induction contained generalizing st with
  | slnil => exact awaits
  | cons e _ ih =>
    refine ih (fun e member => all e (List.mem_cons_of_mem _ member)) suffix ?_
    exact awaits.keep (all e List.mem_cons_self)
  | cons_cons e _ ih =>
    refine ih (fun e member => all e (List.mem_cons_of_mem _ member)) ?_ ?_
    · exact (List.suffix_cons e _).trans suffix
    · exact awaits.advance suffix

/-- For every metric and every interleaving of fitting updates with swaps and aggregations: the
three arrays together hold the total of the updates, or the time set last; and once two rounds of
the hand-over have followed the last update, the sum alone does. -/
theorem stats_conserved (nserver : List Nat) (events : List StatsEvent)
    (typed : ∀ e ∈ events, e.WellTyped nserver) (slot : StatsSlot) (type : StatsType)
    (codec : statsCodec nserver slot = some type) :
    let st := events.foldl Stats.step (statsCreate nserver)
    (type ≠ .timestamp → statsValue st.sum slot + st.pending slot + statsValue st.current slot =
        .ofInt 64 (applied events slot)) ∧
      (type = .timestamp → firstSet (statsValue st.current slot) (st.pending slot)
        (statsValue st.sum slot) = latest events slot) ∧
      ∀ quiet : List StatsEvent, (∀ e ∈ quiet, e.Quiet) → twoRounds.Sublist quiet →
        statsValue (quiet.foldl Stats.step st).sum slot =
          if type = .timestamp then latest events slot else .ofInt 64 (applied events slot) := by
  intro st
  have value : ∀ {pools : List StatsPool} {v : BitVec 64},
      statsMetric pools slot = some ⟨type, v⟩ → statsValue pools slot = v := by
    intro pools v found
    simp [statsValue, found]
  obtain ⟨c, s, u, accounted⟩ := run_accounted codec typed
  have pending := accounted.toHolds.pending
  rw [pending, value accounted.current, value accounted.sum]
  refine ⟨accounted.balance, accounted.recent, ?_⟩
  intro quiet all rounds
  have typed' : ∀ e ∈ events ++ quiet, e.WellTyped nserver := by
    intro e member
    rcases List.mem_append.mp member with before | after
    · exact typed e before
    · rcases all e after with rfl | rfl <;> trivial
  obtain ⟨c', s', u', final⟩ := run_accounted codec typed'
  obtain ⟨total, stamp⟩ := applied_append_quiet all events slot
  rw [total, stamp, List.foldl_append] at final
  obtain ⟨free, fresh⟩ := Stats.Awaits.run rounds all (List.suffix_refl _)
    (show st.Awaits twoRounds from trivial)
  have empty : c' = 0 := final.idle fresh
  rw [value final.sum]
  split
  · rename_i time
    have recent := final.recent time
    rw [free, empty] at recent
    simpa [firstSet] using recent
  · rename_i number
    have balance := final.balance number
    rw [free, empty] at balance
    simpa using balance

/-- Two servers; requests are counted while a round is under way. -/
theorem stats_conserved_requests :
    let slot : StatsSlot := ⟨0, some 1, 6⟩
    let events : List StatsEvent :=
      [.update slot (.incrBy 5), .swap, .update slot (.incrBy 7), .aggregate]
    statsValue ((twoRounds.foldl Stats.step
      (events.foldl Stats.step (statsCreate [2]))).sum) slot = .ofInt 64 12 :=
  (stats_conserved [2]
    [.update ⟨0, some 1, 6⟩ (.incrBy 5), .swap, .update ⟨0, some 1, 6⟩ (.incrBy 7), .aggregate]
    (by
      simp only [List.forall_mem_cons, List.not_mem_nil, false_implies, implies_true, and_true]
      exact ⟨⟨.counter, by decide, by decide⟩, trivial, ⟨.counter, by decide, by decide⟩, trivial⟩)
    ⟨0, some 1, 6⟩ .counter (by decide)).2.2 twoRounds
    (by
      simp only [twoRounds, List.forall_mem_cons, List.not_mem_nil, false_implies, implies_true,
        and_true]
      exact ⟨.inl rfl, .inr rfl, .inl rfl, .inr rfl⟩)
    (List.Sublist.refl _)

end Nutcracker
