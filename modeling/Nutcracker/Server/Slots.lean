import Nutcracker.Lib.Slots
import Nutcracker.Server.Pool
import Nutcracker.Server.Points

/-!
# The slots of a fragmented request

`req_recv_done` passes `ncontinuum` to the fragment functions.  They allocate that
many slots and index them by the position of a server in the server array.  The two
numbers are related only by what the last rebuild wrote: the positions of the live
servers against the number of their points.  `ServerPool.Fits` says that a rebuild
leaves enough points; along a run whose rebuilds all fit, every key has a slot, and
a rebuild in which every server is live fits.
-/

namespace Nutcracker

/-! ## The key loop of the fragment functions -/

/-- `sub_msgs` after the key loop of `redis_fragment_argx` and `memcache_fragment_retrieval`, with
the keys of each fragment; `none` when the loop leaves the array.  A key comes with the value of
`random()` at its turn. -/
def subMsgs (kit : Hashkit) (pool : ServerPool) (keys : List (Bytes × Nat)) :
    Option (List (Option (List Bytes))) :=
  Lib.fileAll [] (fun ks k => ks ++ [k]) (List.replicate pool.ncontinuum none)
    (keys.map fun key => (serverPoolIdx kit pool key.1 key.2, key.1))

/-- The fragments in the order of the loop that forwards them. -/
def fragmentKeys (kit : Hashkit) (pool : ServerPool) (keys : List (Bytes × Nat)) :
    Option (List (List Bytes)) :=
  (subMsgs kit pool keys).map Lib.collected

/-- Where every position returned is a slot, every key is in exactly one forwarded fragment. -/
theorem fragmentKeys_perm {kit : Hashkit} {pool : ServerPool}
    (bound : ∀ key draw, serverPoolIdx kit pool key draw < pool.ncontinuum)
    (keys : List (Bytes × Nat)) :
    ∃ fragments, fragmentKeys kit pool keys = some fragments ∧
      fragments.flatten.Perm (keys.map (·.1)) := by
  have inside : (subMsgs kit pool keys).isSome := by
    apply Lib.fileAll_isSome_iff.mpr
    intro item member
    obtain ⟨key, _, rfl⟩ := List.mem_map.mp member
    rw [List.length_replicate]
    exact bound key.1 key.2
  obtain ⟨slots, filed⟩ := Option.isSome_iff_exists.mp inside
  refine ⟨Lib.collected slots, by rw [fragmentKeys, filed]; rfl, ?_⟩
  have perm := Lib.flatten_collected_perm filed
  rwa [List.map_map] at perm

/-! ## What a rebuild writes -/

theorem census_foldl_servers (autoEject : Bool) (now : Int) (servers : List Server)
    (c : Census) :
    (servers.foldl (Census.visit autoEject now) c).servers =
      c.servers ++ servers.map (Server.revive autoEject now) := by
  induction servers generalizing c with
  | nil => simp
  | cons s servers ih =>
    rw [List.foldl_cons, ih]
    simp [Census.visit]

theorem census_servers (autoEject : Bool) (now : Int) (servers : List Server) :
    (census autoEject now servers).servers = servers.map (Server.revive autoEject now) := by
  rw [census, census_foldl_servers]
  rfl

theorem census_foldl_nlive (autoEject : Bool) (now : Int) (servers : List Server)
    (c : Census) :
    (servers.foldl (Census.visit autoEject now) c).nlive =
      c.nlive + servers.countP (Server.live autoEject now) := by
  induction servers generalizing c with
  | nil => simp
  | cons s servers ih =>
    rw [List.foldl_cons, ih, List.countP_cons]
    simp only [Census.visit]
    split <;> omega

theorem census_nlive (autoEject : Bool) (now : Int) (servers : List Server) :
    (census autoEject now servers).nlive = servers.countP (Server.live autoEject now) := by
  rw [census, census_foldl_nlive]
  exact Nat.zero_add _

/-- A layout whose points are as many as its pointers and carry the server's position. -/
structure Layout.Lawful (l : Layout) : Prop where
  length_points : ∀ i s, (l.points i s).length = l.pointers s
  index_points : ∀ i s, ∀ c ∈ l.points i s, c.index = i
  arrange_perm : ∀ points, (l.arrange points).Perm points

theorem ketamaLayout_lawful (kit : Hashkit) (c : Census) : (ketamaLayout kit c).Lawful where
  length_points i s := by
    simp only [ketamaLayout, ketamaServerPoints, List.length_flatMap, List.length_map,
      List.length_range, List.map_const', List.sum_replicate_nat]
    exact Nat.div_mul_cancel (kit.four_dvd_points ..)
  index_points i s point member := by
    simp only [ketamaLayout, ketamaServerPoints, List.mem_flatMap, List.mem_map] at member
    obtain ⟨_, _, _, _, rfl⟩ := member
    rfl
  arrange_perm points := List.perm_insertionSort _ points

theorem modulaLayout_lawful (c : Census) : (modulaLayout c).Lawful where
  length_points _ _ := List.length_replicate
  index_points i s point member := by
    rw [List.eq_of_mem_replicate member]
  arrange_perm _ := .refl _

theorem randomLayout_lawful (c : Census) : (randomLayout c).Lawful where
  length_points _ _ := rfl
  index_points i s point member := by
    rw [List.mem_singleton.mp member]
  arrange_perm _ := .refl _

theorem ServerPool.layout_lawful (kit : Hashkit) (pool : ServerPool) (c : Census) :
    (pool.layout kit c).Lawful := by
  unfold ServerPool.layout
  cases pool.dist with
  | ketama => exact ketamaLayout_lawful kit c
  | modula => exact modulaLayout_lawful c
  | random => exact randomLayout_lawful c

/-- The number of points of the live servers. -/
def Layout.total (l : Layout) (live : Server → Bool) (servers : List Server) : Nat :=
  ((servers.filter live).map l.pointers).sum

/-- The live servers, without their positions. -/
theorem map_fst_chosen (live : Server → Bool) (servers : List Server) (n : Nat) :
    ((servers.zipIdx n).filter fun entry => live entry.1).map (·.1) = servers.filter live := by
  have filtered := List.filter_map (p := live) (f := Prod.fst) (l := servers.zipIdx n)
  rw [List.zipIdx_map_fst] at filtered
  exact filtered.symm

theorem Layout.sum_chosen (l : Layout) (live : Server → Bool) (servers : List Server) (n : Nat) :
    (((servers.zipIdx n).filter fun entry => live entry.1).map
      fun entry => l.pointers entry.1).sum = l.total live servers := by
  rw [Layout.total, ← map_fst_chosen live servers n, List.map_map]
  rfl

theorem Layout.Lawful.length_fill {l : Layout} (lawful : l.Lawful) (live : Server → Bool)
    (servers : List Server) : (l.fill live servers).1.length = l.total live servers := by
  rw [← l.sum_chosen live servers 0, Layout.fill, List.length_flatMap]
  simp only [lawful.length_points]

theorem Layout.fill_count (l : Layout) (live : Server → Bool) (servers : List Server) :
    (l.fill live servers).2 = l.total live servers % word32 := by
  have counted : ∀ (entries : List (Server × Nat)) (n : Nat),
      entries.foldl (fun n entry => add32 n (l.pointers entry.1)) (n % word32) =
        (n + (entries.map fun entry => l.pointers entry.1).sum) % word32 := by
    intro entries
    induction entries with
    | nil => simp
    | cons entry entries ih =>
      intro n
      rw [List.foldl_cons, add32, Nat.mod_add_mod, ih, List.map_cons, List.sum_cons,
        Nat.add_assoc]
  rw [← l.sum_chosen live servers 0, Layout.fill]
  simpa using counted (servers.zipIdx.filter fun entry => live entry.1) 0

/-- A point belongs to a live server that has points. -/
theorem Layout.Lawful.mem_fill {l : Layout} (lawful : l.Lawful) {live : Server → Bool}
    {servers : List Server} {c : Continuum} (member : c ∈ (l.fill live servers).1) :
    ∃ s, servers[c.index]? = some s ∧ live s = true ∧ 0 < l.pointers s := by
  simp only [Layout.fill, List.mem_flatMap, List.mem_filter] at member
  obtain ⟨⟨s, i⟩, ⟨entry, alive⟩, point⟩ := member
  have position : c.index = i := lawful.index_points i s c point
  refine ⟨s, ?_, alive, ?_⟩
  · rw [position]
    exact List.mem_zipIdx_iff_getElem?.mp entry
  · rw [← lawful.length_points i s]
    exact List.length_pos_of_mem point

/-! ## Rebuilds that leave enough slots -/

/-- If the rebuild writes a continuum at all, it has at least one and fewer than `2 ^ 32` points,
and more points than the position of every live server that has one. -/
def ServerPool.Fits (kit : Hashkit) (pool : ServerPool) (t : Moment) : Prop :=
  let c := census pool.autoEjectHosts t.now pool.servers
  let l := pool.layout kit c
  let live := Server.live pool.autoEjectHosts t.now
  let total := l.total live c.servers
  0 ≤ t.now → c.nlive ≠ 0 →
    0 < total ∧ total < word32 ∧
      ∀ entry ∈ c.servers.zipIdx, live entry.1 = true → 0 < l.pointers entry.1 → entry.2 < total

instance ServerPool.decidableFits (kit : Hashkit) (pool : ServerPool) (t : Moment) :
    Decidable (pool.Fits kit t) := by
  unfold ServerPool.Fits
  infer_instance

/-- The rebuild an event makes, if any, leaves enough slots. -/
def ServerPool.EventFits (kit : Hashkit) (pool : ServerPool) (e : PoolEvent) : Prop :=
  ∀ rebuild ∈ (pool.rebuilds e).toList, rebuild.1.Fits kit rebuild.2

instance (kit : Hashkit) (pool : ServerPool) (e : PoolEvent) : Decidable (pool.EventFits kit e) :=
  inferInstanceAs (Decidable (∀ rebuild ∈ (pool.rebuilds e).toList, rebuild.1.Fits kit rebuild.2))

/-- Every point of the continuum carries a slot number. -/
structure ServerPool.InSlots (pool : ServerPool) : Prop where
  pos : 0 < pool.ncontinuum
  length : pool.continuum.length = pool.ncontinuum
  index_lt : ∀ c ∈ pool.continuum, c.index < pool.ncontinuum

theorem ServerPool.SameRing.inSlots {p q : ServerPool} (same : p.SameRing q)
    (slots : p.InSlots) : q.InSlots where
  pos := by
    rw [same.ncontinuum]
    exact slots.pos
  length := by
    rw [same.continuum, same.ncontinuum]
    exact slots.length
  index_lt := by
    rw [same.continuum, same.ncontinuum]
    exact slots.index_lt

/-- A rebuild that fits either writes slot numbers only or leaves the ring as it was; with a live
server it does the latter only if it fails. -/
theorem ServerPool.Fits.run {kit : Hashkit} {pool : ServerPool} {t : Moment}
    (fits : pool.Fits kit t) :
    (serverPoolRun kit pool t).1.InSlots ∨
      pool.SameRing (serverPoolRun kit pool t).1 ∧
        ((serverPoolRun kit pool t).2 = false ∨
          (census pool.autoEjectHosts t.now pool.servers).nlive = 0) := by
  have lawful := pool.layout_lawful kit (census pool.autoEjectHosts t.now pool.servers)
  have lengths : pool.servers.length =
      (census pool.autoEjectHosts t.now pool.servers).servers.length := by
    rw [census_servers, List.length_map]
  have counted : pool.SameRing
      (pool.counted (census pool.autoEjectHosts t.now pool.servers)) :=
    ⟨rfl, rfl, lengths.symm, rfl, rfl⟩
  rw [serverPoolRun_eq]
  unfold ServerPool.update
  simp only
  split
  · exact .inr ⟨.refl pool, .inl rfl⟩
  · rename_i clock
    split
    · rename_i none
      exact .inr ⟨counted, .inr none⟩
    · rename_i some
      split
      · exact .inr ⟨counted, .inl rfl⟩
      · obtain ⟨positive, small, room⟩ := fits (Int.not_lt.mp clock) some
        -- the 32-bit counter has not wrapped, so it is the number of points
        have count := Layout.fill_count
          (pool.layout kit (census pool.autoEjectHosts t.now pool.servers))
          (Server.live pool.autoEjectHosts t.now)
          (census pool.autoEjectHosts t.now pool.servers).servers
        rw [Nat.mod_eq_of_lt small] at count
        left
        refine ⟨?_, ?_, ?_⟩
        · simp only [ServerPool.rebuilt, ServerPool.counted, count]
          exact positive
        · simp only [ServerPool.rebuilt, ServerPool.counted, count,
            (lawful.arrange_perm _).length_eq, lawful.length_fill]
        · intro c member
          simp only [ServerPool.rebuilt, ServerPool.counted, count] at member ⊢
          obtain ⟨s, found, alive, points⟩ :=
            lawful.mem_fill ((lawful.arrange_perm _).mem_iff.mp member)
          exact room (s, c.index) (List.mem_zipIdx_iff_getElem?.mpr found) alive points

theorem ServerPool.InSlots.step {kit : Hashkit} {pool : ServerPool} {e : PoolEvent}
    (slots : pool.InSlots) (fits : pool.EventFits kit e) : (pool.step kit e).InSlots := by
  cases rebuild : pool.rebuilds e with
  | none => exact (ServerPool.step_of_not_rebuilds kit rebuild).inSlots slots
  | some target =>
    obtain ⟨target, t⟩ := target
    obtain ⟨stepped, same, _⟩ := ServerPool.step_of_rebuilds kit rebuild
    rw [stepped]
    have fits : target.Fits kit t := fits (target, t) (by simp [rebuild])
    rcases fits.run with written | ⟨kept, _⟩
    · exact written
    · exact kept.inSlots (same.inSlots slots)

/-! ## Dispatching to a slot -/

theorem ketamaSearch_le (continuum : List Continuum) (hash fuel left right : Nat) :
    ketamaSearch continuum hash fuel left right ≤ right := by
  induction fuel generalizing left right with
  | zero => exact Nat.le_refl right
  | succ fuel ih =>
    unfold ketamaSearch
    simp only
    split
    · split
      · exact ih _ _
      · refine Nat.le_trans (ih _ _) ?_
        omega
    · exact Nat.le_refl right

/-- Each dispatch function returns the position of a point of the continuum. -/
theorem serverPoolIdx_mem (kit : Hashkit) {pool : ServerPool} (positive : 0 < pool.ncontinuum)
    (length : pool.ncontinuum ≤ pool.continuum.length) (key : Bytes) (draw : Nat) :
    ∃ c ∈ pool.continuum, serverPoolIdx kit pool key draw = c.index := by
  have entry : ∀ i < pool.ncontinuum,
      ∃ c ∈ pool.continuum, (pool.continuum.getD i ⟨0, 0⟩).index = c.index := by
    intro i inside
    have inside := Nat.lt_of_lt_of_le inside length
    rw [List.getD_eq_getElem _ _ inside]
    exact ⟨_, List.getElem_mem inside, rfl⟩
  unfold serverPoolIdx
  cases pool.dist with
  | ketama =>
    apply entry
    have bound := ketamaSearch_le pool.continuum
      (serverPoolHash kit pool (hashedPart pool.hashTag key)) pool.ncontinuum 0 pool.ncontinuum
    split
    · exact positive
    · omega
  | modula => exact entry _ (Nat.mod_lt _ positive)
  | random => exact entry _ (Nat.mod_lt _ positive)

theorem ServerPool.InSlots.serverPoolIdx_lt {pool : ServerPool} (slots : pool.InSlots)
    (kit : Hashkit) (key : Bytes) (draw : Nat) :
    serverPoolIdx kit pool key draw < pool.ncontinuum := by
  obtain ⟨c, member, position⟩ := serverPoolIdx_mem kit slots.pos slots.length.ge key draw
  rw [position]
  exact slots.index_lt c member

/-- Every server of a pool that starts is live. -/
theorem PoolConfig.nlive_pos (config : PoolConfig) {now : Int} (clock : 0 ≤ now) :
    (census config.pool.autoEjectHosts now config.pool.servers).nlive ≠ 0 := by
  rw [census_nlive, Nat.ne_zero_iff_zero_lt, List.countP_pos_iff]
  obtain ⟨s, member⟩ := List.exists_mem_of_ne_nil _ config.servers_ne_nil
  exact ⟨{ name := s.1, weight := s.2 }, List.mem_map.mpr ⟨s, member, rfl⟩,
    by simp [Server.live, clock]⟩

theorem PoolConfig.start_inSlots {kit : Hashkit} {config : PoolConfig} {t : Moment}
    (fits : config.pool.Fits kit t) (started : (serverPoolRun kit config.pool t).2 = true) :
    (serverPoolRun kit config.pool t).1.InSlots := by
  rcases fits.run with written | ⟨_, failed | none⟩
  · exact written
  · rw [started] at failed
    cases failed
  · have clock : 0 ≤ t.now := by
      by_contra negative
      rw [serverPoolRun_eq, ServerPool.update, if_pos (Int.not_le.mp negative)] at started
      cases started
    exact absurd none (config.nlive_pos clock)

/-! ## Rebuilds with every server live -/

/-- Taking a server back does not change whether it is live. -/
theorem Server.live_revive {autoEject : Bool} {now : Int} (clock : 0 ≤ now) (s : Server) :
    (s.revive autoEject now).live autoEject now = s.live autoEject now := by
  unfold Server.revive
  split
  · rename_i due
    simp [Server.live, clock, due.2]
  · rfl

theorem census_foldl_totalWeight {autoEject : Bool} {now : Int} (clock : 0 ≤ now)
    (servers : List Server) {c : Census} (word : c.totalWeight < word32) :
    (servers.foldl (Census.visit autoEject now) c).totalWeight =
      (c.totalWeight + ((servers.filter (Server.live autoEject now)).map (·.weight)).sum) %
        word32 := by
  induction servers generalizing c with
  | nil => exact (Nat.mod_eq_of_lt word).symm
  | cons s servers ih =>
    rw [List.foldl_cons, List.filter_cons]
    by_cases alive : s.live autoEject now = true
    · have visited : (c.visit autoEject now s).totalWeight = add32 c.totalWeight s.weight := by
        simp only [Census.visit, Server.live_revive clock, alive, if_true]
      rw [ih (by rw [visited]; exact add32_lt ..), visited, if_pos alive, add32,
        Nat.mod_add_mod, List.map_cons, List.sum_cons, Nat.add_assoc]
    · have visited : (c.visit autoEject now s).totalWeight = c.totalWeight := by
        simp only [Census.visit, Server.live_revive clock, alive, if_false, Bool.false_eq_true]
      rw [ih (by rwa [visited]), visited, if_neg alive]

/-- The total weight is that of the live servers. -/
theorem census_totalWeight {autoEject : Bool} {now : Int} (clock : 0 ≤ now)
    (servers : List Server) :
    (census autoEject now servers).totalWeight =
      ((servers.filter (Server.live autoEject now)).map (·.weight)).sum % word32 := by
  rw [census, census_foldl_totalWeight clock servers (by decide), Nat.zero_add]

@[simp]
theorem Server.name_revive (autoEject : Bool) (now : Int) (s : Server) :
    (s.revive autoEject now).name = s.name := by
  unfold Server.revive
  split <;> rfl

@[simp]
theorem Server.weight_revive (autoEject : Bool) (now : Int) (s : Server) :
    (s.revive autoEject now).weight = s.weight := by
  unfold Server.revive
  split <;> rfl

/-- The servers that a rebuild visits, with their positions. -/
theorem chosen_revived {autoEject : Bool} {now : Int} (clock : 0 ≤ now) (servers : List Server) :
    ((servers.map (Server.revive autoEject now)).zipIdx.filter fun entry =>
        entry.1.live autoEject now) =
      (servers.zipIdx.filter fun entry => entry.1.live autoEject now).map fun entry =>
        (entry.1.revive autoEject now, entry.2) := by
  rw [List.zipIdx_map, List.filter_map]
  simp only [Function.comp_def, Prod.map_fst, Server.live_revive clock]
  rfl

/-- What a rebuild counts when no server is excluded. -/
theorem census_of_all_live {autoEject : Bool} {now : Int} (clock : 0 ≤ now)
    {servers : List Server} (live : ∀ s ∈ servers, s.live autoEject now = true)
    (weights : (servers.map (·.weight)).sum < word32) :
    (census autoEject now servers).nlive = servers.length ∧
      (census autoEject now servers).totalWeight = (servers.map (·.weight)).sum := by
  constructor
  · rw [census_nlive]
    exact List.countP_eq_length.mpr live
  · rw [census_totalWeight clock, List.filter_eq_self.mpr live, Nat.mod_eq_of_lt weights]

/-- With every server live there is a point for each of them, whatever the distribution, as long
as there are at least as many points as servers and the counters do not wrap. -/
theorem ServerPool.fits_of_all_live {kit : Hashkit} {pool : ServerPool} {t : Moment}
    (live : ∀ s ∈ pool.servers, s.live pool.autoEjectHosts t.now = true)
    (points : let c := census pool.autoEjectHosts t.now pool.servers
      let total := ((c.servers.map (pool.layout kit c).pointers)).sum
      pool.servers.length ≤ total ∧ total < word32) :
    pool.Fits kit t := by
  intro clock some
  set c := census pool.autoEjectHosts t.now pool.servers
  set l := pool.layout kit c
  set alive := Server.live pool.autoEjectHosts t.now
  have revived : c.servers.filter alive = c.servers := by
    rw [List.filter_eq_self, census_servers]
    intro revived member
    obtain ⟨s, original, rfl⟩ := List.mem_map.mp member
    exact (Server.live_revive clock s).trans (live s original)
  have length : c.servers.length = pool.servers.length := by
    rw [census_servers, List.length_map]
  have count : l.total alive c.servers = (c.servers.map l.pointers).sum := by
    rw [Layout.total, revived]
  have servers : 0 < pool.servers.length := by
    rw [census_nlive] at some
    exact Nat.lt_of_lt_of_le (Nat.pos_of_ne_zero some) List.countP_le_length
  rw [count]
  refine ⟨Nat.lt_of_lt_of_le servers points.1, points.2, ?_⟩
  intro entry member _ _
  calc entry.2 < c.servers.length := List.snd_lt_of_mem_zipIdx member
    _ = pool.servers.length := length
    _ ≤ (c.servers.map l.pointers).sum := points.1

/-- The points of all servers together, when each gets its share of the points. -/
theorem sum_ketamaPoints_bounds {total : Nat} (nlive : Nat) (positive : 0 < total)
    (weights : List Nat) :
    (152 * (weights.sum * nlive / total) - 4 * weights.length : ℚ) ≤
        (weights.map fun w => ketamaPoints w total nlive).sum ∧
      ((weights.map fun w => ketamaPoints w total nlive).sum : ℚ) ≤
        168 * (weights.sum * nlive / total) + 8 * weights.length := by
  induction weights with
  | nil => simp
  | cons w weights ih =>
    obtain ⟨low, high⟩ := ketamaPoints_bounds w nlive positive
    have shares : ((w + weights.sum : ℚ) * nlive / total) =
        w * nlive / total + weights.sum * nlive / total := by ring
    simp only [List.map_cons, List.sum_cons, List.length_cons, Nat.cast_add, Nat.cast_one, shares]
    constructor <;> linarith [ih.1, ih.2]

/-- In a pool of fewer than `2 ^ 24` servers, a rebuild at which every server is live fits. -/
theorem ServerPool.fits_of_no_exclusion {kit : Hashkit} {pool : ServerPool} {t : Moment}
    (float : kit.points = ketamaPoints)
    (live : ∀ s ∈ pool.servers, s.live pool.autoEjectHosts t.now = true)
    (few : pool.servers.length < 2 ^ 24) (weight_pos : ∀ s ∈ pool.servers, 0 < s.weight)
    (weights : (pool.servers.map (·.weight)).sum < word32) : pool.Fits kit t := by
  intro clock some
  refine ServerPool.fits_of_all_live live ?_ clock some
  obtain ⟨nlive, totalWeight⟩ := census_of_all_live clock live weights
  have length_le : pool.servers.length ≤ (pool.servers.map (·.weight)).sum := by
    have least := List.length_le_sum_of_one_le (pool.servers.map (·.weight)) ?_
    · rwa [List.length_map] at least
    · intro w member
      obtain ⟨s, original, rfl⟩ := List.mem_map.mp member
      exact weight_pos s original
  have revive_weight : ∀ s : Server,
      (s.revive pool.autoEjectHosts t.now).weight = s.weight := by
    intro s
    unfold Server.revive
    split <;> rfl
  have small : pool.servers.length < word32 := Nat.lt_of_le_of_lt length_le weights
  simp only [census_servers, List.map_map]
  unfold ServerPool.layout
  cases pool.dist with
  | ketama =>
    simp only [ketamaLayout, float, nlive, totalWeight, Function.comp_def, revive_weight]
    have nonempty : 0 < pool.servers.length := by
      rw [nlive] at some
      exact Nat.pos_of_ne_zero some
    obtain ⟨low, high⟩ := sum_ketamaPoints_bounds pool.servers.length
      (Nat.lt_of_lt_of_le nonempty length_le) (pool.servers.map (·.weight))
    have positive : (0 : ℚ) < (pool.servers.map (·.weight)).sum := by
      exact_mod_cast Nat.lt_of_lt_of_le nonempty length_le
    rw [mul_div_cancel_left₀ _ positive.ne', List.length_map, List.map_map] at low high
    simp only [Function.comp_def] at low high
    constructor
    · have cast : (pool.servers.length : ℚ) ≤ ((pool.servers.map fun s =>
          ketamaPoints s.weight (pool.servers.map (·.weight)).sum
            pool.servers.length).sum : Nat) := by
        have nonneg : (0 : ℚ) ≤ pool.servers.length := Nat.cast_nonneg _
        linarith
      exact_mod_cast cast
    · have cast : (((pool.servers.map fun s =>
          ketamaPoints s.weight (pool.servers.map (·.weight)).sum
            pool.servers.length).sum : Nat) : ℚ) < (2 ^ 32 : Nat) := by
        have bound : (pool.servers.length : ℚ) < (2 ^ 24 : Nat) := by exact_mod_cast few
        rw [show ((2 ^ 24 : Nat) : ℚ) = 16777216 by norm_num] at bound
        rw [show ((2 ^ 32 : Nat) : ℚ) = 4294967296 by norm_num]
        linarith
      exact_mod_cast cast
  | modula =>
    simp only [modulaLayout, Function.comp_def, revive_weight]
    exact ⟨length_le, weights⟩
  | random =>
    simp only [randomLayout, Function.comp_def, List.map_const', List.sum_replicate_nat,
      Nat.mul_one]
    exact ⟨Nat.le_refl _, small⟩

/-- In a run whose rebuilds all leave enough slots, the position of every key is a slot of the
array the fragment functions allocate, and every fragment they create is forwarded. -/
theorem serverPoolIdx_lt_ncontinuum (kit : Hashkit) (config : PoolConfig) (t : Moment)
    (events : List PoolEvent) (started : (serverPoolRun kit config.pool t).2 = true)
    (first : config.pool.Fits kit t)
    (fits : Lib.Along (ServerPool.step kit) (ServerPool.EventFits kit)
      (serverPoolRun kit config.pool t).1 events) :
    let pool := events.foldl (ServerPool.step kit) (serverPoolRun kit config.pool t).1
    (∀ key draw, serverPoolIdx kit pool key draw < pool.ncontinuum) ∧
      ∀ keys, ∃ fragments, fragmentKeys kit pool keys = some fragments ∧
        fragments.flatten.Perm (keys.map (·.1)) := by
  have slots := fits.invariant (fun _ _ slots fits => slots.step fits)
    (PoolConfig.start_inSlots first started)
  have bound := slots.serverPoolIdx_lt kit
  exact ⟨bound, fragmentKeys_perm bound⟩

/-- Two servers of weight one under `modula`, ejected at their first failure for two seconds. -/
def twoServers : PoolConfig where
  dist := .modula
  autoEjectHosts := true
  serverFailureLimit := 1
  serverRetryTimeout := 2000000
  servers := [([Lib.byteOf 'a'], 1), ([Lib.byteOf 'b'], 1)]
  servers_ne_nil := by decide
  weight_pos := by decide

/-- Ejecting the second server leaves one point, which is the first server's. -/
theorem serverPoolIdx_lt_ncontinuum_second :
    let kit := Hashkit.fnv1a64 (fun _ _ => 0) (fun _ => 0)
    let pool := [PoolEvent.failure 1 1000 ⟨1001, true⟩].foldl (ServerPool.step kit)
      (serverPoolRun kit twoServers.pool ⟨0, true⟩).1
    pool.ncontinuum = 1 ∧ ∀ key draw, serverPoolIdx kit pool key draw < pool.ncontinuum :=
  ⟨by decide +kernel, (serverPoolIdx_lt_ncontinuum (Hashkit.fnv1a64 (fun _ _ => 0) (fun _ => 0))
    twoServers ⟨0, true⟩ [.failure 1 1000 ⟨1001, true⟩] (by decide +kernel) (by decide +kernel)
    (by decide +kernel)).1⟩

/-- Ejecting the first server leaves one slot, and every key is sent to slot one. -/
theorem serverPoolIdx_past_slots :
    let kit := Hashkit.fnv1a64 (fun _ _ => 0) (fun _ => 0)
    let pool := [PoolEvent.failure 0 1000 ⟨1001, true⟩].foldl (ServerPool.step kit)
      (serverPoolRun kit twoServers.pool ⟨0, true⟩).1
    pool.ncontinuum = 1 ∧ serverPoolIdx kit pool [Lib.byteOf 'k'] 0 = 1 ∧
      fragmentKeys kit pool [([Lib.byteOf 'k'], 0), ([Lib.byteOf 'l'], 0)] = none := by
  decide +kernel

end Nutcracker
