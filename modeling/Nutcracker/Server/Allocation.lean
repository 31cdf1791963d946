import Nutcracker.Server.Slots

/-!
# The array of a continuum

The three updates write the points of the live servers into an array that is enlarged only
when the number of live servers, or under `modula` their weight, exceeds a remembered number.
So whether a rebuild stays within the array depends on the rebuilds before it.  Under ketama
a live server has up to 160 places, and the points of all live servers together need no more,
because the shares are rounded down.
-/

namespace Nutcracker

open Lib

/-! ## Shares in exact arithmetic -/

/-- `pointer_per_server` of `ketama_update` over the rationals. -/
def ketamaPointsRational (weight totalWeight nlive : Nat) : Nat :=
  ⌊(weight / totalWeight * 160 / 4 * nlive + 1 / 10000000000 : ℚ)⌋₊ * 4

/-- The summand that makes up for rounding does not change a share. -/
theorem ketamaPointsRational_eq {weight totalWeight nlive : Nat} (positive : 0 < totalWeight)
    (word : totalWeight < word32) :
    ketamaPointsRational weight totalWeight nlive =
      ketamaPointsExact weight totalWeight nlive := by
  have W : (0 : ℚ) < totalWeight := by exact_mod_cast positive
  have small : (totalWeight : ℚ) < 10000000000 := by
    have value : word32 < 10000000000 := by decide
    exact_mod_cast word.trans value
  -- the quotient with remainder
  have split : ((totalWeight * (weight * 40 * nlive / totalWeight) +
      weight * 40 * nlive % totalWeight : ℕ) : ℚ) = ((weight * 40 * nlive : ℕ) : ℚ) := by
    rw [Nat.div_add_mod]
  have below : ((weight * 40 * nlive % totalWeight + 1 : ℕ) : ℚ) ≤ totalWeight := by
    exact_mod_cast Nat.mod_lt (weight * 40 * nlive) positive
  have share : (weight / totalWeight * 160 / 4 * nlive : ℚ) =
      ((weight * 40 * nlive : ℕ) : ℚ) / totalWeight := by
    push_cast
    ring
  rw [ketamaPointsRational, ketamaPointsExact, share, ← split]
  congr 1
  push_cast at below ⊢
  generalize weight * 40 * nlive / totalWeight = q at *
  generalize weight * 40 * nlive % totalWeight = r at *
  rw [add_div, mul_div_cancel_left₀ _ W.ne', Nat.floor_eq_iff (by positivity)]
  have fraction : (r / totalWeight : ℚ) ≤ 1 - 1 / totalWeight := by
    rw [le_sub_iff_add_le, ← add_div, div_le_one W]
    exact below
  have gap : (1 / 10000000000 : ℚ) < 1 / totalWeight := one_div_lt_one_div_of_lt W small
  constructor
  · have nonneg : (0 : ℚ) ≤ r / totalWeight := by positivity
    linarith
  · linarith

/-- Shares that are rounded down do not add up to more than there is. -/
theorem sum_shares_le (weights : List Nat) (factor : Nat) (total : Nat) :
    (weights.map fun w => w * factor / total).sum ≤ weights.sum * factor / total := by
  induction weights with
  | nil => simp
  | cons w weights ih =>
    rw [List.map_cons, List.sum_cons, List.sum_cons, Nat.add_mul]
    exact (Nat.add_le_add_left ih _).trans Nat.div_add_div_le_add_div

/-- One of some weights is at least their average. -/
theorem exists_average_le {weights : List Nat} (nonempty : weights ≠ []) :
    ∃ w ∈ weights, weights.sum ≤ w * weights.length := by
  by_contra none_
  have small : ∀ x ∈ weights.map (fun w => w * weights.length + 1), x ≤ weights.sum := by
    intro x member
    obtain ⟨w, found, rfl⟩ := List.mem_map.mp member
    exact Nat.lt_of_not_le fun large => none_ ⟨w, found, large⟩
  have sum := List.sum_le_card_nsmul _ _ small
  simp only [List.sum_map_add, List.sum_map_mul_right, List.map_id', List.map_const',
    List.sum_replicate_nat, List.length_map, nsmul_eq_mul, Nat.cast_id, Nat.mul_one] at sum
  have positive := List.length_pos_iff.mpr nonempty
  rw [Nat.mul_comm] at sum
  omega

/-! ## Rebuilds -/

/-- The places that are allocated for each unit of `nserver_continuum`. -/
def DistType.pointsPerServer : DistType → Nat
  | .ketama => 160
  | .modula => 1
  | .random => 1

theorem DistType.pointsPerServer_pos (d : DistType) : 0 < d.pointsPerServer := by
  cases d <;> decide

/-- A rebuild: the retry times that it finds, and the time. -/
structure Rebuild where
  retries : Nat → Int
  now : Int

/-- A pool, the number of places of its array, and the positions of the servers that were live at
the last rebuild with a live server. -/
structure Allocation where
  pool : ServerPool
  capacity : Nat := 0
  chosen : List Nat := []

/-- The servers get other retry times. -/
def ServerPool.withRetries (pool : ServerPool) (retries : Nat → Int) : ServerPool :=
  { pool with servers := pool.servers.mapIdx fun i s => { s with nextRetry := retries i } }

/-- The positions of the live servers. -/
def ServerPool.livePositions (pool : ServerPool) (now : Int) : List Nat :=
  (pool.servers.zipIdx.filter fun entry => entry.1.live pool.autoEjectHosts now).map (·.2)

/-- The rebuild finds a live server. -/
def ServerPool.Effective (pool : ServerPool) (now : Int) : Prop :=
  0 ≤ now ∧ (census pool.autoEjectHosts now pool.servers).nlive ≠ 0

instance (pool : ServerPool) (now : Int) : Decidable (pool.Effective now) :=
  inferInstanceAs (Decidable (_ ∧ _))

/-- The number of places of the array after a rebuild that finds a live server.  The number that
is passed to `nc_realloc` is computed in 32 bits. -/
def ServerPool.allocated (kit : Hashkit) (pool : ServerPool) (now : Int) (capacity : Nat) : Nat :=
  let l := pool.layout kit (census pool.autoEjectHosts now pool.servers)
  if pool.nserverContinuum < l.need then
    add32 l.need l.addition * pool.dist.pointsPerServer % word32
  else
    capacity

/-- The number of points that a rebuild writes, from the first place on. -/
def ServerPool.written (kit : Hashkit) (pool : ServerPool) (now : Int) : Nat :=
  let c := census pool.autoEjectHosts now pool.servers
  if pool.Effective now then
    ((pool.layout kit c).fill (Server.live pool.autoEjectHosts now) c.servers).1.length
  else
    0

/-- A rebuild in which the allocation, if any, succeeds. -/
def Allocation.step (kit : Hashkit) (a : Allocation) (e : Rebuild) : Allocation :=
  let pool := a.pool.withRetries e.retries
  let rebuilt := (serverPoolRun kit pool ⟨e.now, true⟩).1
  if pool.Effective e.now then
    { pool := rebuilt
      capacity := pool.allocated kit e.now a.capacity
      chosen := pool.livePositions e.now }
  else
    { a with pool := rebuilt }

/-- Under ketama, when the array is enlarged, the number of places fits a word. -/
def Allocation.FewLive (a : Allocation) (e : Rebuild) : Prop :=
  let pool := a.pool.withRetries e.retries
  let nlive := (census pool.autoEjectHosts e.now pool.servers).nlive
  pool.dist = .ketama → pool.Effective e.now → pool.nserverContinuum < nlive →
    (nlive + 10) * 160 < word32

instance (a : Allocation) (e : Rebuild) : Decidable (a.FewLive e) := by
  unfold Allocation.FewLive
  infer_instance

/-! ## What a rebuild needs -/

section Need

variable {kit : Hashkit} {pool : ServerPool} {now : Int}

/-- The weights of the live servers. -/
def ServerPool.liveWeights (pool : ServerPool) (now : Int) : List Nat :=
  (pool.servers.filter (Server.live pool.autoEjectHosts now)).map (·.weight)

theorem ServerPool.sum_liveWeights_le (pool : ServerPool) (now : Int) :
    (pool.liveWeights now).sum ≤ (pool.servers.map (·.weight)).sum :=
  (List.filter_sublist.map _).sum_le_sum fun _ _ => Nat.zero_le _

/-- What a rebuild counts, and the layout that it follows. -/
abbrev ServerPool.tally (pool : ServerPool) (now : Int) : Census :=
  census pool.autoEjectHosts now pool.servers

abbrev ServerPool.plan (kit : Hashkit) (pool : ServerPool) (now : Int) : Layout :=
  pool.layout kit (pool.tally now)

/-- What a rebuild counts, when it finds a live server. -/
structure ServerPool.Counted (pool : ServerPool) (now : Int) : Prop where
  nlive : (pool.tally now).nlive = (pool.liveWeights now).length
  totalWeight : (pool.tally now).totalWeight = (pool.liveWeights now).sum
  nonempty : pool.liveWeights now ≠ []
  length_le : (pool.liveWeights now).length ≤ (pool.liveWeights now).sum
  word : (pool.liveWeights now).sum < word32

theorem ServerPool.counted_of_effective (effective : pool.Effective now)
    (positive : ∀ s ∈ pool.servers, 0 < s.weight)
    (word : (pool.servers.map (·.weight)).sum < word32) : pool.Counted now := by
  obtain ⟨clock, live⟩ := effective
  have sum_lt := (pool.sum_liveWeights_le now).trans_lt word
  have count : (pool.tally now).nlive = (pool.liveWeights now).length := by
    rw [census_nlive, List.countP_eq_length_filter, ServerPool.liveWeights, List.length_map]
  refine ⟨count, ?_, ?_, ?_, sum_lt⟩
  · rw [census_totalWeight clock, ServerPool.liveWeights, Nat.mod_eq_of_lt]
    exact sum_lt
  · intro empty
    rw [count, empty] at live
    exact live rfl
  · apply List.length_le_sum_of_one_le
    intro w member
    obtain ⟨s, found, rfl⟩ := List.mem_map.mp member
    exact positive s (List.mem_filter.mp found).1

/-- The live servers have points, which fit into the places for the need of the layout. -/
structure Layout.Demand (l : Layout) (perServer : Nat) (pool : ServerPool) (now : Int) :
    Prop where
  some : 0 < l.total (Server.live pool.autoEjectHosts now) pool.servers
  enough : l.total (Server.live pool.autoEjectHosts now) pool.servers ≤ l.need * perServer
  need_le : l.need ≤ (pool.liveWeights now).sum

/-- The points under ketama, by the weights of the live servers. -/
theorem ketamaLayout_total (exact : kit.points = ketamaPointsRational)
    (counted : pool.Counted now) :
    (ketamaLayout kit (pool.tally now)).total
        (Server.live pool.autoEjectHosts now) pool.servers =
      ((pool.liveWeights now).map fun w =>
        w * (40 * (pool.liveWeights now).length) / (pool.liveWeights now).sum).sum * 4 := by
  have sum_pos := (List.length_pos_iff.mpr counted.nonempty).trans_le counted.length_le
  rw [Layout.total, ServerPool.liveWeights, List.map_map, ← List.sum_map_mul_right]
  apply congrArg List.sum
  apply List.map_congr_left
  intro s _
  simp only [ketamaLayout, exact, counted.totalWeight, counted.nlive]
  rw [ketamaPointsRational_eq sum_pos counted.word, ketamaPointsExact, Nat.mul_assoc]
  rfl

theorem ketamaLayout_demand (exact : kit.points = ketamaPointsRational)
    (counted : pool.Counted now) :
    (ketamaLayout kit (pool.tally now)).Demand 160 pool now := by
  have sum_pos := (List.length_pos_iff.mpr counted.nonempty).trans_le counted.length_le
  have total := ketamaLayout_total exact counted
  constructor
  · -- a server with at least the average weight has points
    obtain ⟨w, member, average⟩ := exists_average_le counted.nonempty
    have share : 1 ≤ w * (40 * (pool.liveWeights now).length) / (pool.liveWeights now).sum := by
      rw [Nat.le_div_iff_mul_le sum_pos, Nat.one_mul]
      calc (pool.liveWeights now).sum
          ≤ w * (pool.liveWeights now).length := average
        _ ≤ w * (40 * (pool.liveWeights now).length) :=
          Nat.mul_le_mul_left w (Nat.le_mul_of_pos_left _ (by decide))
    have le_sum := List.le_sum_of_mem (List.mem_map_of_mem (f := fun w =>
      w * (40 * (pool.liveWeights now).length) / (pool.liveWeights now).sum) member)
    rw [total]
    omega
  · have shares := sum_shares_le (pool.liveWeights now) (40 * (pool.liveWeights now).length)
      (pool.liveWeights now).sum
    rw [Nat.mul_div_cancel_left _ sum_pos] at shares
    rw [total]
    simp only [ketamaLayout, counted.nlive]
    omega
  · simp only [ketamaLayout, counted.nlive]
    exact counted.length_le

theorem modulaLayout_demand (counted : pool.Counted now) :
    (modulaLayout (pool.tally now)).Demand 1 pool now := by
  have total : (modulaLayout (pool.tally now)).total
      (Server.live pool.autoEjectHosts now) pool.servers = (pool.liveWeights now).sum := rfl
  have need : (modulaLayout (pool.tally now)).need = (pool.liveWeights now).sum :=
    counted.totalWeight
  have length_pos := List.length_pos_iff.mpr counted.nonempty
  constructor
  · rw [total]
    exact length_pos.trans_le counted.length_le
  · rw [total, need, Nat.mul_one]
  · exact need.le

theorem randomLayout_demand (counted : pool.Counted now) :
    (randomLayout (pool.tally now)).Demand 1 pool now := by
  have total : (randomLayout (pool.tally now)).total
      (Server.live pool.autoEjectHosts now) pool.servers = (pool.liveWeights now).length := by
    simp [Layout.total, randomLayout, ServerPool.liveWeights]
  have need : (randomLayout (pool.tally now)).need = (pool.liveWeights now).length :=
    counted.nlive
  constructor
  · rw [total]
    exact List.length_pos_iff.mpr counted.nonempty
  · rw [total, need, Nat.mul_one]
  · rw [need]
    exact counted.length_le

theorem ServerPool.layout_demand (exact : kit.points = ketamaPointsRational)
    (counted : pool.Counted now) :
    (pool.plan kit now).Demand pool.dist.pointsPerServer pool now := by
  unfold ServerPool.plan ServerPool.layout
  cases pool.dist with
  | ketama => exact ketamaLayout_demand exact counted
  | modula => exact modulaLayout_demand counted
  | random => exact randomLayout_demand counted

theorem ServerPool.layout_pointers_revive (c : Census) (s : Server) :
    (pool.layout kit c).pointers (s.revive pool.autoEjectHosts now) =
      (pool.layout kit c).pointers s := by
  unfold ServerPool.layout
  cases pool.dist with
  | ketama => simp only [ketamaLayout, Server.weight_revive]
  | modula => simp only [modulaLayout, Server.weight_revive]
  | random => rfl

/-- A rebuild writes the points of the live servers. -/
theorem ServerPool.length_fill (kit : Hashkit) (pool : ServerPool) (clock : 0 ≤ now) :
    let c := pool.tally now
    ((pool.layout kit c).fill (Server.live pool.autoEjectHosts now) c.servers).1.length =
      (pool.layout kit c).total (Server.live pool.autoEjectHosts now) pool.servers := by
  have live : (Server.live pool.autoEjectHosts now ∘ Server.revive pool.autoEjectHosts now) =
      Server.live pool.autoEjectHosts now :=
    funext fun s => Server.live_revive clock s
  dsimp only
  rw [(pool.layout_lawful kit _).length_fill, census_servers, Layout.total, Layout.total,
    List.filter_map, List.map_map, live]
  apply congrArg List.sum
  apply List.map_congr_left
  intro s _
  exact pool.layout_pointers_revive _ s

/-- The ring after a rebuild that finds a live server. -/
theorem serverPoolRun_effective (kit : Hashkit) (effective : pool.Effective now) :
    serverPoolRun kit pool ⟨now, true⟩ =
      ((pool.counted (pool.tally now)).rebuilt
        (pool.plan kit now) now, true) := by
  rw [serverPoolRun_eq, ServerPool.update]
  simp only [if_neg (Int.not_lt.mpr effective.1), if_neg effective.2, Bool.not_true,
    Bool.false_eq_true, and_false, if_false]

/-- Any other rebuild leaves the ring and the array alone. -/
theorem serverPoolRun_idle (kit : Hashkit) (idle : ¬pool.Effective now) :
    let rebuilt := (serverPoolRun kit pool ⟨now, true⟩).1
    rebuilt.dist = pool.dist ∧ rebuilt.continuum = pool.continuum ∧
      rebuilt.ncontinuum = pool.ncontinuum ∧
      rebuilt.nserverContinuum = pool.nserverContinuum ∧
      rebuilt.servers.map (·.weight) = pool.servers.map (·.weight) := by
  dsimp only
  rw [serverPoolRun_eq, ServerPool.update]
  by_cases clock : now < 0
  · simp only [if_pos clock, and_self]
  · have none_ : (pool.tally now).nlive = 0 := by
      by_contra live
      exact idle ⟨Int.not_lt.mp clock, live⟩
    simp [if_neg clock, if_pos none_, ServerPool.counted, census_servers, Function.comp_def]

/-- Each server of `modula` has as many points as its weight. -/
theorem countP_modula {entries : List (Server × Nat)} (nodup : (entries.map (·.2)).Nodup)
    {s : Server} {i : Nat} (member : (s, i) ∈ entries) :
    (entries.flatMap fun entry => List.replicate entry.1.weight (⟨entry.2, 0⟩ : Continuum)).countP
      (fun c => c.index = i) = s.weight := by
  induction entries with
  | nil => cases member
  | cons entry entries ih =>
    rw [List.map_cons, List.nodup_cons] at nodup
    rw [List.flatMap_cons, List.countP_append, List.countP_replicate]
    rcases List.mem_cons.mp member with rfl | later
    · have others : (entries.flatMap fun entry =>
          List.replicate entry.1.weight (⟨entry.2, 0⟩ : Continuum)).countP
            (fun c => c.index = i) = 0 := by
        rw [List.countP_eq_zero]
        intro c point same
        obtain ⟨other, found, here⟩ := List.mem_flatMap.mp point
        rw [List.eq_of_mem_replicate here, decide_eq_true_eq] at same
        exact nodup.1 (List.mem_map.mpr ⟨other, found, same⟩)
      rw [others, if_pos (decide_eq_true rfl), Nat.add_zero]
    · have other : entry.2 ≠ i := by
        rintro rfl
        exact nodup.1 (List.mem_map.mpr ⟨_, later, rfl⟩)
      rw [ih nodup.2 later, if_neg (by simpa using other), Nat.zero_add]

/-- The points of the ring carry the positions of live servers. -/
theorem ServerPool.index_fill (kit : Hashkit) (clock : 0 ≤ now) {point : Continuum}
    (member : point ∈ ((pool.plan kit now).fill
      (Server.live pool.autoEjectHosts now)
      (pool.tally now).servers).1) :
    point.index ∈ pool.livePositions now := by
  obtain ⟨s, found, alive, -⟩ := (pool.layout_lawful kit _).mem_fill member
  rw [census_servers, List.getElem?_map, Option.map_eq_some_iff] at found
  obtain ⟨original, found, rfl⟩ := found
  rw [Server.live_revive clock] at alive
  apply List.mem_map.mpr
  exact ⟨(original, point.index),
    List.mem_filter.mpr ⟨List.mem_zipIdx_iff_getElem?.mpr found, alive⟩, rfl⟩

/-- Under `modula`, the points of a live server. -/
theorem ServerPool.countP_fill (kit : Hashkit) (clock : 0 ≤ now)
    (modula : pool.dist = .modula) {i : Nat} (member : i ∈ pool.livePositions now) :
    (pool.servers.map (·.weight))[i]? = some
      (((pool.plan kit now).fill
        (Server.live pool.autoEjectHosts now)
        (pool.tally now).servers).1.countP fun c => c.index = i) := by
  obtain ⟨⟨s, position⟩, entry, rfl⟩ := List.mem_map.mp member
  have found := List.mem_zipIdx_iff_getElem?.mp (List.mem_filter.mp entry).1
  have nodup : ((pool.servers.zipIdx.filter fun entry =>
      entry.1.live pool.autoEjectHosts now).map (·.2)).Nodup := by
    apply List.Nodup.sublist (List.filter_sublist.map _)
    rw [List.zipIdx_map_snd]
    exact List.nodup_range'
  have count := countP_modula nodup entry
  have layout : pool.plan kit now = modulaLayout (pool.tally now) := by
    simp only [ServerPool.plan, ServerPool.layout, modula]
  rw [List.getElem?_map, found, Option.map_some, layout, Layout.fill, census_servers,
    chosen_revived clock, List.flatMap_map, ← count]
  simp only [modulaLayout, Server.weight_revive]

/-- What a rebuild that finds a live server leaves behind. -/
structure ServerPool.Rewritten (kit : Hashkit) (pool : ServerPool) (now : Int)
    (rebuilt : ServerPool) : Prop where
  count : rebuilt.ncontinuum = pool.written kit now
  pos : 0 < rebuilt.ncontinuum
  length : rebuilt.continuum.length = rebuilt.ncontinuum
  index : ∀ c ∈ rebuilt.continuum, c.index ∈ pool.livePositions now
  weight : pool.dist = .modula → ∀ i ∈ pool.livePositions now,
    (pool.servers.map (·.weight))[i]? = some (rebuilt.continuum.countP fun c => c.index = i)

theorem ServerPool.Effective.rewritten (effective : pool.Effective now)
    (demand : (pool.plan kit now).Demand pool.dist.pointsPerServer pool now)
    (word : (pool.plan kit now).need * pool.dist.pointsPerServer < word32) :
    pool.Rewritten kit now (serverPoolRun kit pool ⟨now, true⟩).1 := by
  have lawful := pool.layout_lawful kit (pool.tally now)
  have length := pool.length_fill kit effective.1
  -- the 32-bit counter does not wrap
  have count : ((pool.plan kit now).fill
      (Server.live pool.autoEjectHosts now)
      (pool.tally now).servers).2 =
        (pool.plan kit now).total
          (Server.live pool.autoEjectHosts now) pool.servers := by
    rw [Layout.fill_count, ← lawful.length_fill, length, Nat.mod_eq_of_lt]
    exact demand.enough.trans_lt word
  have ncontinuum : (serverPoolRun kit pool ⟨now, true⟩).1.ncontinuum =
      (pool.plan kit now).total
        (Server.live pool.autoEjectHosts now) pool.servers := by
    rw [serverPoolRun_effective kit effective]
    exact count
  have continuum : (serverPoolRun kit pool ⟨now, true⟩).1.continuum.Perm
      ((pool.plan kit now).fill
        (Server.live pool.autoEjectHosts now)
        (pool.tally now).servers).1 := by
    rw [serverPoolRun_effective kit effective]
    exact lawful.arrange_perm _
  constructor
  · rw [ncontinuum, ServerPool.written, if_pos effective, length]
  · rw [ncontinuum]
    exact demand.some
  · rw [continuum.length_eq, length, ncontinuum]
  · intro c member
    exact pool.index_fill kit effective.1 (continuum.subset member)
  · intro modula i member
    rw [continuum.countP_eq]
    exact pool.countP_fill kit effective.1 modula member

/-- The places that are allocated are those for `nserver_continuum`, and enough for the points. -/
theorem ServerPool.Effective.allocated (effective : pool.Effective now) {capacity : Nat}
    (array : capacity = pool.nserverContinuum * pool.dist.pointsPerServer)
    (below : capacity < word32)
    (word : pool.nserverContinuum < (pool.plan kit now).need →
      ((pool.plan kit now).need + (pool.plan kit now).addition) *
        pool.dist.pointsPerServer < word32) :
    pool.allocated kit now capacity =
        (serverPoolRun kit pool ⟨now, true⟩).1.nserverContinuum * pool.dist.pointsPerServer ∧
      pool.allocated kit now capacity < word32 ∧
      (pool.plan kit now).need * pool.dist.pointsPerServer ≤ pool.allocated kit now capacity := by
  rw [serverPoolRun_effective kit effective, ServerPool.allocated]
  simp only [ServerPool.rebuilt, ServerPool.counted]
  by_cases small : pool.nserverContinuum < (pool.plan kit now).need
  · have product := word small
    have sum := (Nat.le_mul_of_pos_right _ pool.dist.pointsPerServer_pos).trans_lt product
    simp only [small, if_true, add32, Nat.mod_eq_of_lt sum, Nat.mod_eq_of_lt product]
    exact ⟨trivial, product, Nat.mul_le_mul_right _ (Nat.le_add_right _ _)⟩
  · simp only [small, if_false]
    rw [array] at below ⊢
    exact ⟨rfl, below, Nat.mul_le_mul_right _ (Nat.le_of_not_lt small)⟩

/-- The points that a rebuild writes. -/
theorem ServerPool.Effective.written_le (effective : pool.Effective now)
    (demand : (pool.plan kit now).Demand pool.dist.pointsPerServer pool now) :
    pool.written kit now ≤ (pool.plan kit now).need * pool.dist.pointsPerServer := by
  rw [ServerPool.written, if_pos effective, pool.length_fill kit effective.1]
  exact demand.enough

end Need

/-! ## Runs -/

section Runs

variable {kit : Hashkit} {config : PoolConfig} {a : Allocation} {e : Rebuild}

/-- The continuum that the last rebuild with a live server has written. -/
structure Allocation.Written (config : PoolConfig) (a : Allocation) : Prop where
  pos : 0 < a.pool.ncontinuum
  length : a.pool.continuum.length = a.pool.ncontinuum
  index : ∀ c ∈ a.pool.continuum, c.index ∈ a.chosen
  weight : config.dist = .modula → ∀ i ∈ a.chosen,
    config.servers[i]?.map (·.2) = some (a.pool.continuum.countP fun c => c.index = i)

/-- What every rebuild keeps. -/
structure Allocation.Sound (config : PoolConfig) (a : Allocation) : Prop where
  dist : a.pool.dist = config.dist
  weights : a.pool.servers.map (·.weight) = config.servers.map (·.2)
  capacity : a.capacity = a.pool.nserverContinuum * config.dist.pointsPerServer
  below : a.capacity < word32
  blank : a.chosen = [] → a.pool.continuum = [] ∧ a.pool.ncontinuum = 0
  written : a.chosen ≠ [] → a.Written config

theorem ServerPool.weights_withRetries (pool : ServerPool) (retries : Nat → Int) :
    (pool.withRetries retries).servers.map (·.weight) = pool.servers.map (·.weight) := by
  apply List.ext_getElem
  · simp [ServerPool.withRetries]
  · intro i _ _
    simp [ServerPool.withRetries]

/-- The servers that a rebuild finds, as the configuration lists them. -/
theorem Allocation.Sound.servers (sound : a.Sound config) (retries : Nat → Int) :
    (a.pool.withRetries retries).servers.map (·.weight) = config.servers.map (·.2) :=
  (a.pool.weights_withRetries retries).trans sound.weights

theorem Allocation.Sound.counted (sound : a.Sound config)
    (weights : (config.servers.map (·.2)).sum < word32)
    (effective : (a.pool.withRetries e.retries).Effective e.now) :
    (a.pool.withRetries e.retries).Counted e.now := by
  apply ServerPool.counted_of_effective effective
  · intro s member
    have listed : s.weight ∈ config.servers.map (·.2) := by
      rw [← sound.servers e.retries]
      exact List.mem_map_of_mem member
    obtain ⟨entry, found, same⟩ := List.mem_map.mp listed
    rw [← same]
    exact config.weight_pos entry found
  · rw [sound.servers]
    exact weights

/-- The product that is passed to `nc_realloc` does not wrap. -/
theorem Allocation.Sound.places_lt (sound : a.Sound config)
    (exact : kit.points = ketamaPointsRational)
    (weights : (config.servers.map (·.2)).sum + 10 < word32) (few : a.FewLive e)
    (effective : (a.pool.withRetries e.retries).Effective e.now) :
    let pool := a.pool.withRetries e.retries
    let l := pool.plan kit e.now
    pool.nserverContinuum < l.need →
      (l.need + l.addition) * pool.dist.pointsPerServer < word32 := by
  have counted := sound.counted (by omega) effective
  have need := (ServerPool.layout_demand exact counted).need_le
  have sum := (a.pool.withRetries e.retries).sum_liveWeights_le e.now
  rw [sound.servers] at sum
  unfold Allocation.FewLive at few
  unfold ServerPool.plan ServerPool.layout at need ⊢
  dsimp only at few ⊢
  intro small
  cases kind : (a.pool.withRetries e.retries).dist with
  | ketama =>
    rw [kind] at few small
    exact few rfl effective small
  | modula =>
    simp only [kind, modulaLayout, DistType.pointsPerServer] at need ⊢
    omega
  | random =>
    simp only [kind, randomLayout, DistType.pointsPerServer] at need ⊢
    omega

/-- Every rebuild keeps the invariant, stays within the array, and leaves in `ncontinuum` the
number of points that it has written. -/
theorem Allocation.Sound.step (sound : a.Sound config) (exact : kit.points = ketamaPointsRational)
    (weights : (config.servers.map (·.2)).sum + 10 < word32) (few : a.FewLive e) :
    (a.step kit e).Sound config ∧
      (a.pool.withRetries e.retries).written kit e.now ≤ (a.step kit e).capacity ∧
      ((a.pool.withRetries e.retries).Effective e.now →
        (a.step kit e).pool.ncontinuum = (a.pool.withRetries e.retries).written kit e.now) := by
  have servers := sound.servers e.retries
  have dist : (a.pool.withRetries e.retries).dist = config.dist := sound.dist
  by_cases effective : (a.pool.withRetries e.retries).Effective e.now
  · have demand := ServerPool.layout_demand exact (sound.counted (by omega) effective)
    have array : a.capacity = (a.pool.withRetries e.retries).nserverContinuum *
        (a.pool.withRetries e.retries).dist.pointsPerServer := by
      rw [dist]
      exact sound.capacity
    obtain ⟨capacity, below, enough⟩ := effective.allocated array sound.below
      (sound.places_lt exact weights few effective)
    have rewritten := effective.rewritten demand (enough.trans_lt below)
    rw [Allocation.step, if_pos effective]
    refine ⟨⟨?_, ?_, ?_, below, ?_, ?_⟩, (effective.written_le demand).trans enough,
      fun _ => rewritten.count⟩
    · rw [serverPoolRun_effective kit effective]
      exact dist
    · rw [serverPoolRun_effective kit effective]
      simpa [ServerPool.rebuilt, ServerPool.counted, census_servers, Function.comp_def] using
        servers
    · rw [capacity, dist]
    · intro none_
      have point := List.getElem_mem (rewritten.length ▸ rewritten.pos)
      exact absurd none_ (List.ne_nil_of_mem (rewritten.index _ point))
    · intro _
      refine ⟨rewritten.pos, rewritten.length, rewritten.index, fun modula i member => ?_⟩
      have weight := rewritten.weight (dist.trans modula) i member
      rwa [servers, List.getElem?_map] at weight
  · obtain ⟨sameDist, continuum, ncontinuum, nserver, same⟩ := serverPoolRun_idle kit effective
    rw [Allocation.step, if_neg effective]
    refine ⟨⟨sameDist.trans dist, same.trans servers, ?_, sound.below, ?_, ?_⟩, ?_,
      fun live => absurd live effective⟩
    · rw [nserver]
      exact sound.capacity
    · rw [continuum, ncontinuum]
      exact sound.blank
    · intro some_
      obtain ⟨pos, length, index, weight⟩ := sound.written some_
      refine ⟨?_, ?_, ?_, ?_⟩
      · rwa [ncontinuum]
      · rwa [continuum, ncontinuum]
      · rwa [continuum]
      · rwa [continuum]
    · rw [ServerPool.written, if_neg effective]
      exact Nat.zero_le _

/-- The pool before its first rebuild. -/
def Allocation.start (config : PoolConfig) : Allocation :=
  { pool := config.pool }

theorem Allocation.start_sound (config : PoolConfig) : (start config).Sound config where
  dist := rfl
  weights := by simp [start, PoolConfig.pool, Function.comp_def]
  capacity := (Nat.zero_mul _).symm
  below := Nat.zero_lt_succ _
  blank _ := ⟨rfl, rfl⟩
  written some_ := absurd rfl some_

end Runs

/-- However the servers come and go, as long as the places for the live servers of a ketama pool
can be counted in 32 bits whenever its array is enlarged: every rebuild writes within the array,
`ncontinuum` is the number of points it has written, there are points once a server was live, they
carry the positions of servers that were live at the last rebuild with a live server, and under
`modula` each of these has as many points as its weight. -/
theorem rebuilds_within_allocation (kit : Hashkit) (exact : kit.points = ketamaPointsRational)
    (config : PoolConfig) (weights : (config.servers.map (·.2)).sum + 10 < word32)
    (rebuilds : List Rebuild)
    (few : Along (Allocation.step kit) Allocation.FewLive (.start config) rebuilds) :
    let a := rebuilds.foldl (Allocation.step kit) (.start config)
    (∀ e, a.FewLive e →
      (a.pool.withRetries e.retries).written kit e.now ≤ (a.step kit e).capacity ∧
        ((a.pool.withRetries e.retries).Effective e.now →
          (a.step kit e).pool.ncontinuum = (a.pool.withRetries e.retries).written kit e.now)) ∧
      (a.chosen ≠ [] → 0 < a.pool.ncontinuum) ∧
      (∀ k < a.pool.ncontinuum, ∃ c, a.pool.continuum[k]? = some c ∧ c.index ∈ a.chosen) ∧
      (config.dist = .modula → ∀ i ∈ a.chosen,
        config.servers[i]?.map (·.2) = some (a.pool.continuum.countP fun c => c.index = i)) := by
  have sound := few.invariant (fun _ _ sound few => (sound.step exact weights few).1)
    (Allocation.start_sound config)
  refine ⟨fun e few => (sound.step exact weights few).2, fun some_ => (sound.written some_).pos,
    fun k inside => ?_, fun modula i member => ?_⟩
  · have some_ : (rebuilds.foldl (Allocation.step kit) (.start config)).chosen ≠ [] := by
      intro none_
      rw [(sound.blank none_).2] at inside
      exact Nat.not_lt_zero k inside
    have written := sound.written some_
    rw [← written.length] at inside
    exact ⟨_, List.getElem?_eq_getElem inside, written.index _ (List.getElem_mem inside)⟩
  · exact (sound.written (List.ne_nil_of_mem member)).weight modula i member

/-- The shares in exact arithmetic, with a constant hash. -/
def exactKit : Hashkit where
  keyHash := hashFnv1a64
  ketamaHash _ _ := 0
  beyond _ := 0
  points := ketamaPointsRational
  four_dvd_points _ _ _ := Nat.dvd_mul_left ..

/-- A `modula` pool with weights 2 and 1, of which the first is out at the second rebuild. -/
theorem rebuilds_within_allocation_modula :
    let config : PoolConfig :=
      { dist := .modula, autoEjectHosts := true, serverFailureLimit := 1,
        serverRetryTimeout := 0, servers := [([byteOf 'a'], 2), ([byteOf 'b'], 1)],
        servers_ne_nil := by decide, weight_pos := by decide }
    let a := [⟨fun _ => 0, 0⟩, ⟨fun i => if i = 0 then 9 else 0, 5⟩].foldl
      (Allocation.step exactKit) (.start config)
    a.chosen = [1] ∧ a.capacity = 13 ∧
      config.servers[1]?.map (·.2) = some (a.pool.continuum.countP fun c => c.index = 1) := by
  intro config a
  have law := rebuilds_within_allocation exactKit rfl config (by decide)
    [⟨fun _ => 0, 0⟩, ⟨fun i => if i = 0 then 9 else 0, 5⟩] (by decide +kernel)
  have chosen : a.chosen = [1] := by decide +kernel
  exact ⟨chosen, by decide +kernel,
    law.2.2.2 rfl 1 (by rw [show _ = [1] from chosen]; exact List.mem_singleton_self 1)⟩

/-! ## Too many servers -/

/-- A ketama pool of `n` servers of weight one. -/
def evenPool (n : Nat) (positive : 0 < n) : PoolConfig where
  dist := .ketama
  autoEjectHosts := false
  serverFailureLimit := 2
  serverRetryTimeout := 0
  servers := List.replicate n ([byteOf 'a'], 1)
  servers_ne_nil := by
    intro empty
    rw [List.replicate_eq_nil_iff] at empty
    omega
  weight_pos s member := by
    rw [List.eq_of_mem_replicate member]
    decide

theorem liveWeights_evenPool {n : Nat} (positive : 0 < n) (retries : Nat → Int) :
    ((Allocation.start (evenPool n positive)).pool.withRetries retries).liveWeights 0 =
      List.replicate n 1 := by
  have weights : ((Allocation.start (evenPool n positive)).pool.withRetries retries).servers.map
      (·.weight) = List.replicate n 1 := by
    rw [ServerPool.weights_withRetries, (Allocation.start_sound (evenPool n positive)).weights]
    simp [evenPool]
  rw [ServerPool.liveWeights, List.filter_eq_self.mpr, weights]
  intro s _
  rfl

/-- The first rebuild of such a pool. -/
theorem evenPool_rebuild {n : Nat} (positive : 0 < n) (word : n < word32) :
    let a := Allocation.start (evenPool n positive)
    let e : Rebuild := ⟨fun _ => 0, 0⟩
    (a.step exactKit e).capacity = (n + 10) * 160 % word32 ∧
      (a.pool.withRetries e.retries).written exactKit e.now = n * 160 := by
  intro a e
  have live : (a.pool.withRetries e.retries).liveWeights e.now = List.replicate n 1 :=
    liveWeights_evenPool positive _
  have nlive : (census (a.pool.withRetries e.retries).autoEjectHosts e.now
      (a.pool.withRetries e.retries).servers).nlive = n := by
    rw [census_nlive, List.countP_eq_length_filter]
    have length := congrArg List.length live
    rwa [ServerPool.liveWeights, List.length_map, List.length_replicate] at length
  have effective : (a.pool.withRetries e.retries).Effective e.now :=
    ⟨Int.le_refl 0, by rw [nlive]; exact positive.ne'⟩
  have counted := (Allocation.start_sound (evenPool n positive)).counted
    (by simpa [evenPool] using word) effective
  have total := ketamaLayout_total (rfl : exactKit.points = ketamaPointsRational) counted
  rw [live, List.map_replicate, List.sum_replicate_nat, List.sum_replicate_nat,
    List.length_replicate, Nat.one_mul, Nat.mul_one, Nat.mul_div_cancel _ positive] at total
  constructor
  · rw [Allocation.step, if_pos effective]
    have layout : (a.pool.withRetries e.retries).layout exactKit
        (census (a.pool.withRetries e.retries).autoEjectHosts e.now
          (a.pool.withRetries e.retries).servers) =
        ketamaLayout exactKit (census (a.pool.withRetries e.retries).autoEjectHosts e.now
          (a.pool.withRetries e.retries).servers) := rfl
    show ServerPool.allocated exactKit (a.pool.withRetries e.retries) e.now a.capacity = _
    rw [ServerPool.allocated, layout]
    simp only [ketamaLayout, nlive, add32]
    exact (if_pos positive).trans (Nat.mod_mul_mod ..)
  · rw [ServerPool.written, if_pos effective, ServerPool.length_fill _ _ effective.1]
    refine Eq.trans total ?_
    omega

theorem evenPool_wraps {n : Nat} (positive : 0 < n) (many : n = 26843536) :
    let config := evenPool n positive
    let e : Rebuild := ⟨fun _ => 0, 0⟩
    (config.servers.map (·.2)).sum + 10 < word32 ∧
      ((Allocation.start config).step exactKit e).capacity = 64 ∧
      ((Allocation.start config).pool.withRetries e.retries).written exactKit e.now =
        4294965760 := by
  have word : n + 10 < word32 := by
    rw [many]
    decide
  obtain ⟨capacity, written⟩ := evenPool_rebuild positive (by omega)
  refine ⟨?_, capacity.trans ?_, written.trans ?_⟩
  · simpa [evenPool] using word
  · rw [many]
    decide
  · rw [many]

/-- With 26843536 servers the product of the places wraps: 64 places are allocated, and some four
thousand million points are written. -/
theorem rebuild_past_allocation :
    let config := evenPool 26843536 (by decide)
    let e : Rebuild := ⟨fun _ => 0, 0⟩
    (config.servers.map (·.2)).sum + 10 < word32 ∧
      ((Allocation.start config).step exactKit e).capacity = 64 ∧
      ((Allocation.start config).pool.withRetries e.retries).written exactKit e.now =
        4294965760 :=
  evenPool_wraps (by decide) rfl

end Nutcracker
