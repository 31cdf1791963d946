import Nutcracker.Server.Routing

/-!
# Pools without ejection

Without `auto_eject_hosts` the continuum is built once, with every server in it.  Then a request
is always split completely, its fragments go to the servers of their keys, and no key changes its
server.
-/

namespace Nutcracker

/-- A pool with the ring of `start`, in which no server is ejected. -/
structure ServerPool.Static (start pool : ServerPool) : Prop extends start.SameRing pool where
  fixed : pool.autoEjectHosts = false

section Static

variable {kit : Hashkit} {start pool : ServerPool}

theorem ServerPool.rebuilds_of_fixed (fixed : pool.autoEjectHosts = false) (e : PoolEvent) :
    pool.rebuilds e = none := by
  cases e with
  | failure i now t =>
    simp only [rebuilds, fixed]
    split <;> rfl
  | ok i => rfl
  | update now t => simp [rebuilds, fixed]

theorem ServerPool.Static.step (static : start.Static pool) (e : PoolEvent) :
    start.Static (pool.step kit e) where
  toSameRing := static.toSameRing.trans
    (step_of_not_rebuilds kit (rebuilds_of_fixed static.fixed e))
  fixed := by
    rcases step_quiet kit (rebuilds_of_fixed static.fixed e) with same | ⟨_, _, _, _, _, changed⟩
    · rw [same, static.fixed]
    · rw [changed]
      exact static.fixed

theorem ServerPool.Static.run (static : start.Static pool) (events : List PoolEvent) :
    start.Static (events.foldl (ServerPool.step kit) pool) := by
  induction events generalizing pool with
  | nil => exact static
  | cons e events ih => exact ih (static.step e)

/-- A forward leaves the pool as it is, whatever comes of it. -/
theorem forwardFragment_of_fixed (fixed : pool.autoEjectHosts = false) (keys : List Bytes)
    (f : ForwardTry) : (forwardFragment kit pool keys f).1 = pool := by
  have update : serverPoolUpdate kit pool f.now f.t = (pool, true) := by
    simp [serverPoolUpdate, fixed]
  have failure (i : Nat) (now : Int) (t : Moment) : serverFailure kit pool i now t = pool := by
    unfold serverFailure
    split <;> simp [fixed]
  rw [forwardFragment, update]
  cases outcome : f.outcome <;> simp [failure]

theorem ServerPool.undisturbed_of_fixed (fixed : pool.autoEjectHosts = false)
    (items : List (List Bytes × ForwardTry)) : pool.Undisturbed kit items := by
  induction items with
  | nil => trivial
  | cons item items ih =>
    obtain ⟨keys, f⟩ := item
    refine .inr ⟨⟨rebuilds_of_fixed fixed _, fun _ e _ => rebuilds_of_fixed fixed e⟩, ?_⟩
    rwa [forwardFragment_of_fixed fixed]

end Static

/-- In a pool of fewer than `2 ^ 24` servers without `auto_eject_hosts`, whatever has happened: no
key has changed its server, every request is split completely, and, unless servers are drawn at
random, every fragment that is enqueued goes to the server of all its keys. -/
theorem static_pool_routes (kit : Hashkit) (config : PoolConfig) (t : Moment)
    (float : kit.points = ketamaPoints) (fixed : config.autoEjectHosts = false)
    (few : config.servers.length < 2 ^ 24) (weights : (config.servers.map (·.2)).sum < word32)
    (started : (serverPoolRun kit config.pool t).2 = true) (events : List PoolEvent) :
    let start := (serverPoolRun kit config.pool t).1
    let pool := events.foldl (ServerPool.step kit) start
    (∀ key draw, serverPoolIdx kit pool key draw = serverPoolIdx kit start key draw) ∧
      ∀ keys, ∃ fragments, fragmentKeys kit pool keys = some fragments ∧
        fragments.flatten.Perm (keys.map (·.1)) ∧
        (config.dist ≠ .random → ∀ tries,
          ∀ e ∈ forwardFragments kit pool (fragments.zip tries), e.Consistent kit) := by
  intro start pool
  have fits : config.pool.Fits kit t := by
    apply ServerPool.fits_of_no_exclusion float
    · intro s _
      simp [Server.live, PoolConfig.pool, fixed]
    · simpa [PoolConfig.pool] using few
    · intro s member
      obtain ⟨entry, listed, rfl⟩ := List.mem_map.mp member
      exact config.weight_pos entry listed
    · simpa [PoolConfig.pool, Function.comp_def] using weights
  have slots : start.InSlots := config.start_inSlots fits started
  have settings : start.autoEjectHosts = false ∧ start.dist = config.dist := by
    simp only [start, serverPoolRun_eq, ServerPool.update]
    split
    · exact ⟨fixed, rfl⟩
    · split
      · exact ⟨fixed, rfl⟩
      · split <;> exact ⟨fixed, rfl⟩
  have static : start.Static pool :=
    ServerPool.Static.run ⟨.refl start, settings.1⟩ events
  refine ⟨static.serverPoolIdx_eq kit, fun keys => ?_⟩
  obtain ⟨fragments, fragmented, all⟩ :=
    fragmentKeys_perm ((static.inSlots slots).serverPoolIdx_lt kit) keys
  refine ⟨fragments, fragmented, all, fun hashed tries => ?_⟩
  apply forwardFragments_consistent _ (ServerPool.undisturbed_of_fixed static.fixed _)
  rintro ⟨fragment, f⟩ member
  refine fragmentKeys_alike ?_ fragmented (List.of_mem_zip member).1
  rw [static.dist, settings.2]
  exact hashed

/-- The second of two servers keeps its keys when it fails. -/
theorem static_pool_routes_failure :
    let kit := Hashkit.fnv1a64 (fun _ _ => 0) (fun _ => 0)
    let start := (serverPoolRun kit { twoServers with autoEjectHosts := false }.pool ⟨0, true⟩).1
    let pool := [PoolEvent.failure 1 1000 ⟨1001, true⟩, .update 2000 ⟨2001, true⟩].foldl
      (ServerPool.step kit) start
    serverPoolIdx kit start [Lib.byteOf 'b'] 0 = 1 ∧
      serverPoolIdx kit pool [Lib.byteOf 'b'] 0 = 1 := by
  intro kit start pool
  have second : serverPoolIdx kit start [Lib.byteOf 'b'] 0 = 1 := by decide +kernel
  exact ⟨second, ((static_pool_routes kit { twoServers with autoEjectHosts := false } ⟨0, true⟩
    rfl rfl
    (by decide) (by decide) (by decide +kernel) _).1 _ 0).trans second⟩

end Nutcracker
