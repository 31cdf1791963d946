import Nutcracker.Lib.Run
import Nutcracker.Server.Hashkit

/-!
# Server pools over time

A failing server is counted and, at the failure limit of a pool with
`auto_eject_hosts`, left out of the continuum until its retry time; routing a
request rebuilds the continuum once the earliest retry time has passed.  The
functions of `nc_server.c` that do this act on the pool alone, so a history of a
pool is a list of their calls with the clock readings and allocation outcomes they
met.
-/

namespace Nutcracker

/-! ## Routing a key -/

/-- `nc_strchr` from offset `start` on. -/
def ncStrchr (key : Bytes) (start : Nat) (c : UInt8) : Option Nat :=
  ((key.drop start).idxOf? c).map (start + ·)

/-- The part of the key that is hashed: the text between the two characters of the hash tag, if
both are there and it is not empty. -/
def hashedPart (hashTag : Option (UInt8 × UInt8)) (key : Bytes) : Bytes :=
  match hashTag with
  | none => key
  | some (opening, closing) =>
    match ncStrchr key 0 opening with
    | none => key
    | some tagStart =>
      match ncStrchr key (tagStart + 1) closing with
      | none => key
      | some tagEnd =>
        if tagEnd - tagStart > 1 then
          (key.drop (tagStart + 1)).take (tagEnd - (tagStart + 1))
        else
          key

def serverPoolHash (kit : Hashkit) (pool : ServerPool) (key : Bytes) : Nat :=
  if pool.servers.length = 1 then 0
  else if key.length = 0 then 0
  else kit.keyHash key

/-- The position of the server for a key; `draw` is the value of `random()`. -/
def serverPoolIdx (kit : Hashkit) (pool : ServerPool) (key : Bytes) (draw : Nat) : Nat :=
  let key := hashedPart pool.hashTag key
  match pool.dist with
  | .ketama =>
    ketamaDispatch pool.continuum pool.ncontinuum (serverPoolHash kit pool key)
  | .modula =>
    modulaDispatch pool.continuum pool.ncontinuum (serverPoolHash kit pool key)
  | .random =>
    randomDispatch pool.continuum pool.ncontinuum draw

/-! ## Rebuilding -/

/-- How the pool's distribution lays out the continuum. -/
def ServerPool.layout (kit : Hashkit) (pool : ServerPool) : Census → Layout :=
  match pool.dist with
  | .ketama => ketamaLayout kit
  | .modula => modulaLayout
  | .random => randomLayout

def serverPoolRun (kit : Hashkit) (pool : ServerPool) (t : Moment) : ServerPool × Bool :=
  match pool.dist with
  | .ketama => ketamaUpdate kit pool t
  | .modula => modulaUpdate pool t
  | .random => randomUpdate pool t

theorem serverPoolRun_eq (kit : Hashkit) (pool : ServerPool) (t : Moment) :
    serverPoolRun kit pool t = pool.update (pool.layout kit) t := by
  unfold serverPoolRun ServerPool.layout
  cases pool.dist <;> rfl

/-- The counter of a failing server. -/
def ServerPool.countFailure (pool : ServerPool) (i : Nat) (s : Server) : ServerPool :=
  { pool with servers := pool.servers.set i { s with failureCount := add32 s.failureCount 1 } }

/-- A server that reached the failure limit is out until its retry time. -/
def ServerPool.eject (pool : ServerPool) (i : Nat) (s : Server) (now : Int) : ServerPool :=
  { pool with
    servers := pool.servers.set i
      { s with failureCount := 0, nextRetry := now + pool.serverRetryTimeout } }

/-- `server_failure` for the server at position `i`.  The clock is read a second time by the
rebuild. -/
def serverFailure (kit : Hashkit) (pool : ServerPool) (i : Nat) (now : Int) (t : Moment) :
    ServerPool :=
  match pool.servers[i]? with
  | none => pool
  | some s =>
    if !pool.autoEjectHosts then
      pool
    else if add32 s.failureCount 1 < pool.serverFailureLimit ∨ now < 0 then
      pool.countFailure i s
    else
      (serverPoolRun kit (pool.eject i s now) t).1

/-- `server_ok`: a reply from the server at position `i`. -/
def serverOk (pool : ServerPool) (i : Nat) : ServerPool :=
  match pool.servers[i]? with
  | none => pool
  | some s =>
    if s.failureCount ≠ 0 then
      { pool with servers := pool.servers.set i { s with failureCount := 0, nextRetry := 0 } }
    else
      pool

/-- `server_pool_update`: the result is false when no request can be routed. -/
def serverPoolUpdate (kit : Hashkit) (pool : ServerPool) (now : Int) (t : Moment) :
    ServerPool × Bool :=
  if !pool.autoEjectHosts then
    (pool, true)
  else if pool.nextRebuild = 0 then
    (pool, true)
  else if now < 0 then
    (pool, false)
  else if now ≤ pool.nextRebuild then
    (pool, decide (pool.nliveServer ≠ 0))
  else
    serverPoolRun kit pool t

/-! ## Histories of a pool -/

/-- A pool as `conf_add_server` and `conf_validate_pool` leave it: at least one server and no
weight of zero. -/
structure PoolConfig where
  dist : DistType
  autoEjectHosts : Bool
  serverFailureLimit : Nat
  serverRetryTimeout : Int
  hashTag : Option (UInt8 × UInt8) := none
  servers : List (Bytes × Nat)
  servers_ne_nil : servers ≠ []
  weight_pos : ∀ s ∈ servers, 0 < s.2

/-- `conf_pool_each_transform`. -/
def PoolConfig.pool (config : PoolConfig) : ServerPool where
  dist := config.dist
  autoEjectHosts := config.autoEjectHosts
  serverFailureLimit := config.serverFailureLimit
  serverRetryTimeout := config.serverRetryTimeout
  hashTag := config.hashTag
  servers := config.servers.map fun s => { name := s.1, weight := s.2 }

/-- What can happen to a pool once it runs. -/
inductive PoolEvent where
  | failure (i : Nat) (now : Int) (t : Moment)
  | ok (i : Nat)
  | update (now : Int) (t : Moment)
  deriving DecidableEq, Repr

def ServerPool.step (kit : Hashkit) (pool : ServerPool) : PoolEvent → ServerPool
  | .failure i now t => serverFailure kit pool i now t
  | .ok i => serverOk pool i
  | .update now t => (serverPoolUpdate kit pool now t).1

/-- The pool on which an event calls `server_pool_run`, if it does. -/
def ServerPool.rebuilds (pool : ServerPool) : PoolEvent → Option (ServerPool × Moment)
  | .failure i now t =>
    match pool.servers[i]? with
    | none => none
    | some s =>
      if !pool.autoEjectHosts then none
      else if add32 s.failureCount 1 < pool.serverFailureLimit ∨ now < 0 then none
      else some (pool.eject i s now, t)
  | .ok _ => none
  | .update now t =>
    if !pool.autoEjectHosts ∨ pool.nextRebuild = 0 ∨ now < 0 ∨ now ≤ pool.nextRebuild then none
    else some (pool, t)

/-- The parts of a pool that only a rebuild changes. -/
structure ServerPool.SameRing (p q : ServerPool) : Prop where
  dist : q.dist = p.dist
  hashTag : q.hashTag = p.hashTag
  length : q.servers.length = p.servers.length
  continuum : q.continuum = p.continuum
  ncontinuum : q.ncontinuum = p.ncontinuum

theorem ServerPool.SameRing.refl (p : ServerPool) : p.SameRing p :=
  ⟨rfl, rfl, rfl, rfl, rfl⟩

theorem ServerPool.SameRing.trans {p q r : ServerPool} (first : p.SameRing q)
    (second : q.SameRing r) : p.SameRing r where
  dist := second.dist.trans first.dist
  hashTag := second.hashTag.trans first.hashTag
  length := second.length.trans first.length
  continuum := second.continuum.trans first.continuum
  ncontinuum := second.ncontinuum.trans first.ncontinuum

/-- Two pools with the same ring send a key to the same server. -/
theorem ServerPool.SameRing.serverPoolIdx_eq {p q : ServerPool} (same : p.SameRing q)
    (kit : Hashkit) (key : Bytes) (draw : Nat) :
    serverPoolIdx kit q key draw = serverPoolIdx kit p key draw := by
  unfold serverPoolIdx serverPoolHash
  rw [same.dist, same.hashTag, same.length, same.continuum, same.ncontinuum]

theorem ServerPool.eject_sameRing (pool : ServerPool) (i : Nat) (s : Server) (now : Int) :
    pool.SameRing (pool.eject i s now) :=
  ⟨rfl, rfl, List.length_set, rfl, rfl⟩

/-- A step that rebuilds is the rebuild of a pool with the same settings and the same ring. -/
theorem ServerPool.step_of_rebuilds (kit : Hashkit) {pool target : ServerPool} {e : PoolEvent}
    {t : Moment} (rebuild : pool.rebuilds e = some (target, t)) :
    pool.step kit e = (serverPoolRun kit target t).1 ∧ pool.SameRing target ∧
      target.autoEjectHosts = pool.autoEjectHosts := by
  cases e with
  | failure i now t' =>
    simp only [ServerPool.rebuilds] at rebuild
    simp only [ServerPool.step, serverFailure]
    split at rebuild
    · cases rebuild
    · split at rebuild
      · cases rebuild
      · rename_i eject
        split at rebuild
        · cases rebuild
        · rename_i limit
          cases rebuild
          rw [if_neg eject, if_neg limit]
          exact ⟨rfl, pool.eject_sameRing .., rfl⟩
  | ok i => cases rebuild
  | update now t' =>
    simp only [ServerPool.rebuilds] at rebuild
    split at rebuild
    · cases rebuild
    · rename_i due
      cases rebuild
      simp only [not_or] at due
      obtain ⟨eject, next, clock, late⟩ := due
      refine ⟨?_, .refl pool, rfl⟩
      simp only [ServerPool.step, serverPoolUpdate, if_neg eject, if_neg next, if_neg clock,
        if_neg late]

/-- `server_pool_update` rebuilds the pool or leaves it alone. -/
theorem ServerPool.update_of_not_rebuilds (kit : Hashkit) {pool : ServerPool} {now : Int}
    {t : Moment}
    (rebuild : pool.rebuilds (.update now t) = none) :
    (serverPoolUpdate kit pool now t).1 = pool := by
  simp only [ServerPool.rebuilds] at rebuild
  unfold serverPoolUpdate
  split
  · rfl
  · split
    · rfl
    · split
      · rfl
      · split
        · rfl
        · rename_i eject next clock late
          simp only [eject, next, clock, late, or_false] at rebuild
          cases rebuild

/-- A step without a rebuild touches at most one server, and of its retry time at most the fact
that there is one. -/
theorem ServerPool.step_quiet (kit : Hashkit) {pool : ServerPool} {e : PoolEvent}
    (rebuild : pool.rebuilds e = none) :
    pool.step kit e = pool ∨ ∃ i s new, pool.servers[i]? = some s ∧
      (new.nextRetry = s.nextRetry ∨ new.nextRetry = 0) ∧
      pool.step kit e = { pool with servers := pool.servers.set i new } := by
  cases e with
  | failure i now t =>
    simp only [ServerPool.rebuilds] at rebuild
    simp only [ServerPool.step, serverFailure]
    split
    · exact .inl rfl
    · rename_i s found
      simp only [found] at rebuild
      split
      · exact .inl rfl
      · rename_i eject
        rw [if_neg eject] at rebuild
        split
        · exact .inr ⟨i, s, { s with failureCount := add32 s.failureCount 1 }, found, .inl rfl,
            rfl⟩
        · rename_i limit
          rw [if_neg limit] at rebuild
          cases rebuild
  | ok i =>
    simp only [ServerPool.step, serverOk]
    split
    · exact .inl rfl
    · rename_i s found
      split
      · exact .inr ⟨i, s, { s with failureCount := 0, nextRetry := 0 }, found, .inr rfl, rfl⟩
      · exact .inl rfl
  | update now t => exact .inl (update_of_not_rebuilds kit rebuild)

/-- A step without a rebuild leaves the ring alone. -/
theorem ServerPool.step_of_not_rebuilds (kit : Hashkit) {pool : ServerPool} {e : PoolEvent}
    (rebuild : pool.rebuilds e = none) : pool.SameRing (pool.step kit e) := by
  rcases ServerPool.step_quiet kit rebuild with same | ⟨i, s, new, _, _, changed⟩
  · rw [same]
    exact .refl pool
  · rw [changed]
    exact ⟨rfl, rfl, List.length_set, rfl, rfl⟩

end Nutcracker
