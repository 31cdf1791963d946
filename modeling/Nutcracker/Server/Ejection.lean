import Nutcracker.Server.Slots

/-!
# Ejection and re-admission

A pool with `auto_eject_hosts` leaves a failing server out until its retry time.  A
history records, beside the pool, the last clock reading and what the last rebuild
found: its time and the servers with their retry times.  Everything the routing
relies on is a relation between the pool and that record; it is kept by every event
whose clock readings do not go back.
-/

namespace Nutcracker

/-! ## The next rebuild -/

/-- The servers that a rebuild at time `now` leaves out. -/
def excluded (now : Int) (servers : List Server) : List Server :=
  servers.filter fun s => decide (now < s.nextRetry)

/-- The retry times of the servers that a rebuild leaves out. -/
def retryTimes (now : Int) (servers : List Server) : Set Int :=
  { r | ∃ s ∈ excluded now servers, s.nextRetry = r }

theorem mem_retryTimes {now : Int} {servers : List Server} {r : Int} :
    r ∈ retryTimes now servers ↔ ∃ s ∈ excluded now servers, s.nextRetry = r :=
  Iff.rfl

theorem mem_excluded {now : Int} {servers : List Server} {s : Server} :
    s ∈ excluded now servers ↔ s ∈ servers ∧ now < s.nextRetry := by
  simp [excluded]

/-- The next rebuild over a list of servers: none while no server is left out, the earliest of
their retry times afterwards. -/
def Schedules (now : Int) (servers : List Server) (next : Int) : Prop :=
  (excluded now servers = [] ∧ next = 0) ∨ IsLeast (retryTimes now servers) next

theorem Schedules.visit {now : Int} (clock : 0 ≤ now) {servers : List Server} {c : Census}
    (scheduled : Schedules now servers c.nextRebuild) (s : Server) :
    Schedules now (servers ++ [s]) (c.visit true now s).nextRebuild := by
  have members : ∀ r, r ∈ retryTimes now (servers ++ [s]) ↔
      r ∈ retryTimes now servers ∨ now < s.nextRetry ∧ s.nextRetry = r := by
    intro r
    simp only [mem_retryTimes, excluded, List.filter_append, List.mem_append,
      List.filter_singleton]
    by_cases out : now < s.nextRetry <;> simp [out, or_and_right, exists_or]
  by_cases out : now < s.nextRetry
  · -- the server is left out: it joins the candidates for the earliest time
    right
    rcases scheduled with ⟨none, zero⟩ | least
    · have next : (c.visit true now s).nextRebuild = s.nextRetry := by
        simp [Census.visit, out, zero]
      rw [next]
      refine ⟨(members _).mpr (.inr ⟨out, rfl⟩), ?_⟩
      intro r member
      rcases (members r).mp member with ⟨other, inside, _⟩ | ⟨_, same⟩
      · rw [none] at inside
        cases inside
      · exact same.le
    · have nonzero : c.nextRebuild ≠ 0 := by
        obtain ⟨other, inside, same⟩ := least.1
        have late := (mem_excluded.mp inside).2
        omega
      by_cases earlier : s.nextRetry < c.nextRebuild
      · have next : (c.visit true now s).nextRebuild = s.nextRetry := by
          simp [Census.visit, out, earlier]
        rw [next]
        refine ⟨(members _).mpr (.inr ⟨out, rfl⟩), ?_⟩
        intro r member
        rcases (members r).mp member with before | ⟨_, same⟩
        · exact earlier.le.trans (least.2 before)
        · exact same.le
      · have next : (c.visit true now s).nextRebuild = c.nextRebuild := by
          simp [Census.visit, earlier, nonzero]
        rw [next]
        refine ⟨(members _).mpr (.inl least.1), ?_⟩
        intro r member
        rcases (members r).mp member with before | ⟨_, same⟩
        · exact least.2 before
        · exact (Int.not_lt.mp earlier).trans same.le
  · have next : (c.visit true now s).nextRebuild = c.nextRebuild := by
      simp [Census.visit, out]
    rw [next]
    rcases scheduled with ⟨none, zero⟩ | least
    · left
      refine ⟨?_, zero⟩
      rw [excluded, List.filter_append, ← excluded, none]
      simp [out]
    · right
      refine ⟨(members _).mpr (.inl least.1), ?_⟩
      intro r member
      rcases (members r).mp member with before | ⟨late, _⟩
      · exact least.2 before
      · exact absurd late out

theorem census_schedules {now : Int} (clock : 0 ≤ now) (servers : List Server) :
    Schedules now servers (census true now servers).nextRebuild := by
  have fold : ∀ (rest done : List Server) (c : Census), Schedules now done c.nextRebuild →
      Schedules now (done ++ rest) (rest.foldl (Census.visit true now) c).nextRebuild := by
    intro rest
    induction rest with
    | nil =>
      intro done c scheduled
      rwa [List.append_nil]
    | cons s rest ih =>
      intro done c scheduled
      have next := ih (done ++ [s]) _ (scheduled.visit clock s)
      rwa [List.append_assoc, List.singleton_append] at next
  exact fold servers [] {} (.inl ⟨rfl, rfl⟩)

/-! ## Histories with a record of the last rebuild -/

/-- A pool with the last clock reading and what the last rebuild found. -/
structure PoolHistory where
  pool : ServerPool
  clock : Int
  rebuiltAt : Int
  found : List Server

/-- The history that starts with `server_pool_init`. -/
def PoolHistory.start (kit : Hashkit) (config : PoolConfig) (t : Moment) : PoolHistory where
  pool := (serverPoolRun kit config.pool t).1
  clock := t.now
  rebuiltAt := t.now
  found := config.pool.servers

/-- The clock after an event: the reading of the rebuild, or the one before it. -/
def PoolEvent.reading (clock : Int) : PoolEvent → Int
  | .failure _ now _ => now
  | .ok _ => clock
  | .update now _ => now

def PoolHistory.step (kit : Hashkit) (h : PoolHistory) (e : PoolEvent) : PoolHistory :=
  match h.pool.rebuilds e with
  | none => { h with pool := h.pool.step kit e, clock := e.reading h.clock }
  | some (target, t) =>
    { pool := h.pool.step kit e, clock := t.now, rebuiltAt := t.now, found := target.servers }

/-- Clock and allocation succeed and the clock does not go back. -/
def PoolHistory.Timely (h : PoolHistory) : PoolEvent → Prop
  | .failure _ now t => h.clock ≤ now ∧ now ≤ t.now ∧ t.alloc = true
  | .ok _ => True
  | .update now t => h.clock ≤ now ∧ now ≤ t.now ∧ t.alloc = true

instance (h : PoolHistory) : (e : PoolEvent) → Decidable (h.Timely e)
  | .failure _ now t => inferInstanceAs (Decidable (h.clock ≤ now ∧ now ≤ t.now ∧ t.alloc = true))
  | .ok _ => inferInstanceAs (Decidable True)
  | .update now t => inferInstanceAs (Decidable (h.clock ≤ now ∧ now ≤ t.now ∧ t.alloc = true))

/-- What ties the pool to its last rebuild. -/
structure PoolHistory.Sound (h : PoolHistory) : Prop where
  eject : h.pool.autoEjectHosts = true
  nonempty : h.found ≠ []
  order : 0 ≤ h.rebuiltAt ∧ h.rebuiltAt ≤ h.clock
  nlive : h.pool.nliveServer = h.found.countP fun s => decide (s.nextRetry ≤ h.rebuiltAt)
  scheduled : Schedules h.rebuiltAt h.found h.pool.nextRebuild
  length : h.pool.servers.length = h.found.length
  /-- A server is back, or its retry time is the one the rebuild left out. -/
  retry : ∀ (i : Nat) (s : Server), h.pool.servers[i]? = some s → s.nextRetry = 0 ∨
    ∃ f, h.found[i]? = some f ∧ h.rebuiltAt < f.nextRetry ∧ s.nextRetry = f.nextRetry
  count_le : h.pool.ncontinuum ≤ h.pool.continuum.length
  /-- The points belong to servers, and to servers that are back if any was live. -/
  points : ∀ c ∈ h.pool.continuum, ∃ s, h.pool.servers[c.index]? = some s ∧
    (h.pool.nliveServer ≠ 0 → s.nextRetry = 0)

theorem revive_of_live {now : Int} {s : Server} (live : s.nextRetry ≤ now) :
    (s.revive true now).nextRetry = 0 := by
  simp [Server.revive, live]

theorem revive_of_late {now : Int} {s : Server} (late : now < s.nextRetry) :
    s.revive true now = s := by
  simp [Server.revive, Int.not_le.mpr late]

/-- A rebuild makes a sound record, from any pool whose points belong to servers. -/
theorem PoolHistory.Sound.of_rebuild {kit : Hashkit} {pool : ServerPool} {t : Moment}
    (eject : pool.autoEjectHosts = true) (nonempty : pool.servers ≠ []) (clock : 0 ≤ t.now)
    (alloc : t.alloc = true) (count_le : pool.ncontinuum ≤ pool.continuum.length)
    (points : ∀ c ∈ pool.continuum, c.index < pool.servers.length) :
    PoolHistory.Sound ⟨(serverPoolRun kit pool t).1, t.now, t.now, pool.servers⟩ := by
  have servers := census_servers true t.now pool.servers
  have live : Server.live true t.now = fun s => decide (s.nextRetry ≤ t.now) := by
    funext s
    simp [Server.live]
  have nlive := census_nlive true t.now pool.servers
  rw [live] at nlive
  have retry : ∀ (i : Nat) (s : Server), (census true t.now pool.servers).servers[i]? = some s →
      s.nextRetry = 0 ∨ ∃ f, pool.servers[i]? = some f ∧ t.now < f.nextRetry ∧
        s.nextRetry = f.nextRetry := by
    intro i s found
    rw [servers, List.getElem?_map, Option.map_eq_some_iff] at found
    obtain ⟨f, original, rfl⟩ := found
    rcases lt_or_ge t.now f.nextRetry with late | back
    · exact .inr ⟨f, original, late, by rw [revive_of_late late]⟩
    · exact .inl (revive_of_live back)
  have length : (census true t.now pool.servers).servers.length = pool.servers.length := by
    rw [servers, List.length_map]
  have scheduled := census_schedules clock pool.servers
  rw [serverPoolRun_eq]
  unfold ServerPool.update
  simp only [eject, Int.not_lt.mpr clock, if_false, alloc, Bool.not_true, Bool.false_eq_true,
    and_false]
  split
  · rename_i none
    refine ⟨eject, nonempty, ⟨clock, le_rfl⟩, nlive, scheduled, length, retry, count_le, ?_⟩
    intro c member
    have inside : c.index < (census true t.now pool.servers).servers.length := by
      rw [length]
      exact points c member
    exact ⟨_, List.getElem?_eq_getElem inside, fun some => absurd none some⟩
  · have lawful := pool.layout_lawful kit (census true t.now pool.servers)
    refine ⟨eject, nonempty, ⟨clock, le_rfl⟩, nlive, scheduled, length, retry, ?_, ?_⟩
    · simp only [ServerPool.rebuilt, ServerPool.counted]
      rw [(lawful.arrange_perm _).length_eq, lawful.length_fill, Layout.fill_count]
      exact Nat.mod_le _ _
    · intro c member
      obtain ⟨s, found, alive, _⟩ :=
        lawful.mem_fill ((lawful.arrange_perm _).mem_iff.mp member)
      refine ⟨s, found, fun _ => ?_⟩
      rcases retry c.index s found with back | ⟨f, _, late, same⟩
      · exact back
      · simp only [ServerPool.counted, eject, Server.live, Bool.not_true, Bool.false_or,
          decide_eq_true_eq] at alive
        omega

/-- A server that is back or keeps its retry time still fits the record. -/
theorem PoolHistory.Sound.set {h : PoolHistory} (sound : h.Sound) {i : Nat} {s new : Server}
    (found : h.pool.servers[i]? = some s)
    (retry : new.nextRetry = s.nextRetry ∨ new.nextRetry = 0) (clock : Int)
    (later : h.clock ≤ clock) :
    PoolHistory.Sound
      { h with pool := { h.pool with servers := h.pool.servers.set i new }, clock := clock } := by
  have inside : i < h.pool.servers.length := (List.getElem?_eq_some_iff.mp found).1
  have entry : ∀ (j : Nat) (r : Server), (h.pool.servers.set i new)[j]? = some r →
      ∃ old, h.pool.servers[j]? = some old ∧
        (r.nextRetry = old.nextRetry ∨ r.nextRetry = 0) := by
    intro j r changed
    rw [List.getElem?_set] at changed
    by_cases same : i = j
    · subst same
      simp only [if_true, inside] at changed
      cases changed
      exact ⟨s, found, retry⟩
    · rw [if_neg same] at changed
      exact ⟨r, changed, .inl rfl⟩
  refine ⟨sound.eject, sound.nonempty, ⟨sound.order.1, sound.order.2.trans later⟩, sound.nlive,
    sound.scheduled, ?_, ?_, sound.count_le, ?_⟩
  · simp only [List.length_set]
    exact sound.length
  · intro j r changed
    obtain ⟨old, before, kept | zero⟩ := entry j r changed
    · rw [kept]
      exact sound.retry j old before
    · exact .inl zero
  · intro c member
    obtain ⟨old, before, back⟩ := sound.points c member
    have size : c.index < (h.pool.servers.set i new).length := by
      rw [List.length_set]
      exact (List.getElem?_eq_some_iff.mp before).1
    obtain ⟨old', before', kept⟩ := entry c.index _ (List.getElem?_eq_getElem size)
    rw [before] at before'
    cases before'
    refine ⟨_, List.getElem?_eq_getElem size, fun some => ?_⟩
    rcases kept with kept | zero
    · rw [kept]
      exact back some
    · exact zero

theorem PoolHistory.Sound.tick {h : PoolHistory} (sound : h.Sound) {clock : Int}
    (later : h.clock ≤ clock) : PoolHistory.Sound { h with clock := clock } :=
  ⟨sound.eject, sound.nonempty, ⟨sound.order.1, sound.order.2.trans later⟩, sound.nlive,
    sound.scheduled, sound.length, sound.retry, sound.count_le, sound.points⟩

/-- The rebuild of a timely event does not go back and has its memory. -/
theorem PoolHistory.Timely.rebuild {h : PoolHistory} {e : PoolEvent} {target : ServerPool}
    {t : Moment} (timely : h.Timely e) (rebuild : h.pool.rebuilds e = some (target, t)) :
    h.clock ≤ t.now ∧ t.alloc = true := by
  cases e with
  | failure i now t' =>
    simp only [ServerPool.rebuilds] at rebuild
    split at rebuild
    · cases rebuild
    · split at rebuild
      · cases rebuild
      · split at rebuild
        · cases rebuild
        · cases rebuild
          exact ⟨timely.1.trans timely.2.1, timely.2.2⟩
  | ok i => cases rebuild
  | update now t' =>
    simp only [ServerPool.rebuilds] at rebuild
    split at rebuild
    · cases rebuild
    · cases rebuild
      exact ⟨timely.1.trans timely.2.1, timely.2.2⟩

theorem PoolHistory.Timely.reading {h : PoolHistory} {e : PoolEvent} (timely : h.Timely e) :
    h.clock ≤ e.reading h.clock := by
  cases e with
  | failure i now t => exact timely.1
  | ok i => exact le_rfl
  | update now t => exact timely.1

/-- Every timely event keeps the record sound. -/
theorem PoolHistory.Sound.step (kit : Hashkit) {h : PoolHistory} {e : PoolEvent}
    (sound : h.Sound) (timely : h.Timely e) : (h.step kit e).Sound := by
  unfold PoolHistory.step
  cases rebuild : h.pool.rebuilds e with
  | none =>
    simp only
    rcases ServerPool.step_quiet kit rebuild with
      same | ⟨i, s, new, found, retry, changed⟩
    · rw [same]
      exact sound.tick timely.reading
    · rw [changed]
      exact sound.set found retry _ timely.reading
  | some target =>
    obtain ⟨target, t⟩ := target
    obtain ⟨stepped, same, eject⟩ := ServerPool.step_of_rebuilds kit rebuild
    obtain ⟨later, alloc⟩ := timely.rebuild rebuild
    have clock : 0 ≤ t.now := sound.order.1.trans (sound.order.2.trans later)
    simp only [stepped]
    have length : target.servers.length = h.found.length := same.length.trans sound.length
    refine .of_rebuild (eject.trans sound.eject) ?_ clock alloc ?_ ?_
    · intro empty
      rw [empty] at length
      exact sound.nonempty (List.length_eq_zero_iff.mp length.symm)
    · rw [same.continuum, same.ncontinuum]
      exact sound.count_le
    · rw [same.continuum, same.length]
      intro c member
      obtain ⟨s, found, _⟩ := sound.points c member
      exact (List.getElem?_eq_some_iff.mp found).1

theorem PoolHistory.start_sound {kit : Hashkit} {config : PoolConfig} {t : Moment}
    (eject : config.autoEjectHosts = true) (clock : 0 ≤ t.now) (alloc : t.alloc = true) :
    (PoolHistory.start kit config t).Sound := by
  refine .of_rebuild eject ?_ clock alloc le_rfl ?_
  · simpa [PoolConfig.pool] using config.servers_ne_nil
  · intro c member
    cases member

/-! ## Routing -/

/-- The server that `server_pool_conn` picks once `server_pool_update` has succeeded.  The dispatch
functions divide by the number of points or read the first one, so there has to be one. -/
def serverPoolServer (kit : Hashkit) (pool : ServerPool) (key : Bytes) (draw : Nat) :
    Option Server :=
  if pool.ncontinuum = 0 then none else pool.servers[serverPoolIdx kit pool key draw]?

/-- A rebuild that comes after the next retry time finds a live server. -/
theorem PoolHistory.Sound.live_after {h : PoolHistory} (sound : h.Sound) {now : Int}
    (due : h.pool.nextRebuild ≠ 0) (late : h.pool.nextRebuild < now) :
    h.pool.servers.countP (fun s => decide (s.nextRetry ≤ now)) ≠ 0 := by
  have clock := sound.order.1
  rcases sound.scheduled with ⟨_, zero⟩ | least
  · exact absurd zero due
  · obtain ⟨f, inside, same⟩ := mem_retryTimes.mp least.1
    obtain ⟨member, out⟩ := mem_excluded.mp inside
    obtain ⟨i, position⟩ := List.mem_iff_getElem?.mp member
    have size : i < h.pool.servers.length := by
      rw [sound.length]
      exact (List.getElem?_eq_some_iff.mp position).1
    have current := List.getElem?_eq_getElem size
    rw [Nat.ne_zero_iff_zero_lt, List.countP_pos_iff]
    refine ⟨_, List.getElem_mem size, ?_⟩
    rcases sound.retry i _ current with back | ⟨f', original, _, kept⟩
    · simp only [back, decide_eq_true_eq]
      omega
    · rw [position] at original
      cases original
      simp only [kept, decide_eq_true_eq]
      omega

/-- A sound pool with a live server picks servers that are back only. -/
theorem PoolHistory.Sound.picks_back {h : PoolHistory} (sound : h.Sound)
    (live : h.pool.nliveServer ≠ 0) {kit : Hashkit} {key : Bytes} {draw : Nat} {s : Server}
    (picked : serverPoolServer kit h.pool key draw = some s) : s.nextRetry = 0 := by
  unfold serverPoolServer at picked
  split at picked
  · cases picked
  · rename_i some
    obtain ⟨c, member, position⟩ :=
      serverPoolIdx_mem kit (Nat.pos_of_ne_zero some) sound.count_le key draw
    obtain ⟨r, found, back⟩ := sound.points c member
    rw [position, found] at picked
    cases picked
    exact back live

/-- What `server_pool_update` does to a sound pool at a timely moment. -/
theorem PoolHistory.Sound.update_cases (kit : Hashkit) {h : PoolHistory} (sound : h.Sound)
    {now : Int} {t : Moment} (timely : h.Timely (.update now t)) :
    (h.pool.nextRebuild = 0 ∨ now ≤ h.pool.nextRebuild) ∧
        h.pool.rebuilds (.update now t) = none ∧
        (serverPoolUpdate kit h.pool now t).1 = h.pool ∧
        ((serverPoolUpdate kit h.pool now t).2 = false ↔
          h.pool.nextRebuild ≠ 0 ∧ h.pool.nliveServer = 0) ∨
      h.pool.nextRebuild ≠ 0 ∧ h.pool.nextRebuild < now ∧
        h.pool.rebuilds (.update now t) = some (h.pool, t) ∧
        serverPoolUpdate kit h.pool now t = serverPoolRun kit h.pool t := by
  have clock : ¬ now < 0 := by
    have := sound.order
    have := timely.1
    omega
  unfold serverPoolUpdate ServerPool.rebuilds
  simp only [sound.eject, Bool.not_true, Bool.false_eq_true, if_false, clock, false_or]
  by_cases none : h.pool.nextRebuild = 0
  · left
    simp [none]
  · by_cases early : now ≤ h.pool.nextRebuild
    · left
      simp [none, early]
    · right
      simp [none, early, Int.not_le.mp early]

/-- With clock and memory, a rebuild succeeds. -/
theorem serverPoolRun_succeeds {kit : Hashkit} {pool : ServerPool} {t : Moment}
    (clock : 0 ≤ t.now) (alloc : t.alloc = true) : (serverPoolRun kit pool t).2 = true := by
  rw [serverPoolRun_eq]
  unfold ServerPool.update
  simp only [Int.not_lt.mpr clock, if_false, alloc, Bool.not_true, Bool.false_eq_true, and_false]
  split <;> rfl

/-- In a pool that ejects servers, at any time of a history whose clock does not go back:
a request is routed to a server that is not ejected; it is refused only when no server was live at
the last rebuild and the time is not past the next one; and the next rebuild is due at the
earliest retry time of the servers left out, so that a request after the retry time of such a
server brings it back. -/
theorem serverPool_ejection (kit : Hashkit) (config : PoolConfig) (first : Moment)
    (events : List PoolEvent) (now : Int) (t : Moment)
    (eject : config.autoEjectHosts = true) (clock : 0 ≤ first.now)
    (alloc : first.alloc = true)
    (timely : Lib.Along (PoolHistory.step kit) PoolHistory.Timely
      (PoolHistory.start kit config first) (events ++ [.update now t])) :
    let h := events.foldl (PoolHistory.step kit) (PoolHistory.start kit config first)
    let routed := serverPoolUpdate kit h.pool now t
    (routed.2 = true → ∀ key draw s, serverPoolServer kit routed.1 key draw = some s →
        s.nextRetry = 0) ∧
      (routed.2 = false →
        (∀ s ∈ h.found, h.rebuiltAt < s.nextRetry) ∧ now ≤ h.pool.nextRebuild) ∧
      (excluded h.rebuiltAt h.found ≠ [] → h.pool.nextRebuild ≠ 0 ∧
        IsLeast (retryTimes h.rebuiltAt h.found) h.pool.nextRebuild) ∧
      ∀ (i : Nat) (f : Server), h.found[i]? = some f → h.rebuiltAt < f.nextRetry →
        f.nextRetry < now → ∃ s : Server, routed.1.servers[i]? = some s ∧ s.nextRetry = 0 := by
  intro h routed
  obtain ⟨before, last, _⟩ := Lib.along_append.mp timely
  have sound : h.Sound := before.invariant (fun _ _ sound timely => sound.step kit timely)
    (PoolHistory.start_sound eject clock alloc)
  have scheduled : excluded h.rebuiltAt h.found ≠ [] → h.pool.nextRebuild ≠ 0 ∧
      IsLeast (retryTimes h.rebuiltAt h.found) h.pool.nextRebuild := by
    intro some
    rcases sound.scheduled with ⟨none, _⟩ | least
    · exact absurd none some
    · obtain ⟨f, inside, same⟩ := mem_retryTimes.mp least.1
      have late := (mem_excluded.mp inside).2
      have start := sound.order.1
      exact ⟨by omega, least⟩
  rcases sound.update_cases kit last with
    ⟨early, _, same, refused⟩ | ⟨due, late, rebuild, run⟩
  · -- the continuum in force is used
    refine ⟨?_, ?_, scheduled, ?_⟩
    · intro ok key draw s picked
      rw [same] at picked
      refine sound.picks_back ?_ picked
      intro dead
      by_cases none : h.pool.nextRebuild = 0
      · -- no server was left out, so all were live
        rcases sound.scheduled with ⟨all, _⟩ | least
        · obtain ⟨f, member⟩ := List.exists_mem_of_ne_nil _ sound.nonempty
          rw [sound.nlive, List.countP_eq_zero] at dead
          have out : f ∈ excluded h.rebuiltAt h.found :=
            mem_excluded.mpr ⟨member, by simpa using dead f member⟩
          rw [all] at out
          cases out
        · exact (scheduled (List.ne_nil_of_mem (mem_retryTimes.mp least.1).choose_spec.1)).1 none
      · have refused := refused.mpr ⟨none, dead⟩
        rw [ok] at refused
        cases refused
    · intro no
      obtain ⟨due, dead⟩ := refused.mp no
      refine ⟨?_, early.resolve_left due⟩
      rw [sound.nlive, List.countP_eq_zero] at dead
      intro s member
      simpa using dead s member
    · intro i f found out after
      have member : f ∈ excluded h.rebuiltAt h.found :=
        mem_excluded.mpr ⟨List.mem_of_getElem? found, out⟩
      obtain ⟨due, least⟩ := scheduled (List.ne_nil_of_mem member)
      have bound := least.2 (mem_retryTimes.mpr ⟨f, member, rfl⟩)
      have early := early.resolve_left due
      omega
  · -- the continuum is rebuilt
    have next := sound.step kit last
    have later : now ≤ t.now := last.2.1
    have readable : 0 ≤ t.now :=
      sound.order.1.trans (sound.order.2.trans (last.1.trans later))
    have stepped : h.step kit (.update now t) =
        ⟨(serverPoolRun kit h.pool t).1, t.now, t.now, h.pool.servers⟩ := by
      unfold PoolHistory.step
      rw [rebuild]
      simp only [ServerPool.step, run]
    rw [stepped] at next
    have live : (serverPoolRun kit h.pool t).1.nliveServer ≠ 0 := by
      rw [next.nlive]
      exact sound.live_after due (late.trans_le later)
    have result : routed = serverPoolRun kit h.pool t := run
    rw [result]
    refine ⟨fun _ key draw s picked => next.picks_back live picked, ?_, scheduled, ?_⟩
    · intro no
      rw [serverPoolRun_succeeds readable last.2.2] at no
      cases no
    · intro i f found out after
      have size : i < (serverPoolRun kit h.pool t).1.servers.length := by
        rw [next.length, sound.length]
        exact (List.getElem?_eq_some_iff.mp found).1
      refine ⟨_, List.getElem?_eq_getElem size, ?_⟩
      rcases next.retry i _ (List.getElem?_eq_getElem size) with back | ⟨s, current, still, _⟩
      · exact back
      · -- the server would be left out again, but its retry time has passed
        rcases sound.retry i s current with zero | ⟨f', found', _, kept⟩
        · simp only at still
          omega
        · rw [found] at found'
          cases found'
          simp only at still
          omega

/-- The second server is ejected at time 1000 and asked for again after its retry time. -/
theorem serverPool_ejection_second :
    let kit := Hashkit.fnv1a64 (fun _ _ => 0) (fun _ => 0)
    let h := [PoolEvent.failure 1 1000 ⟨1001, true⟩].foldl (PoolHistory.step kit)
      (PoolHistory.start kit twoServers ⟨0, true⟩)
    let routed := serverPoolUpdate kit h.pool 2001001 ⟨2001001, true⟩
    h.pool.nextRebuild = 2001000 ∧
      (serverPoolServer kit routed.1 [Lib.byteOf 'b'] 0).isSome = true ∧
      ∃ s : Server, routed.1.servers[1]? = some s ∧ s.nextRetry = 0 := by
  refine ⟨by decide +kernel, by decide +kernel, ?_⟩
  exact (serverPool_ejection (.fnv1a64 (fun _ _ => 0) (fun _ => 0)) twoServers ⟨0, true⟩
    [.failure 1 1000 ⟨1001, true⟩] 2001001 ⟨2001001, true⟩ rfl (by decide) rfl
    (by decide +kernel)).2.2.2 1 ⟨[Lib.byteOf 'b'], 1, 2001000, 0⟩ (by decide +kernel)
    (by decide +kernel) (by decide)

end Nutcracker
