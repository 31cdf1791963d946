import Nutcracker.Server.Slots

/-!
# Routing the fragments of a request

The keys of a vector request are grouped under the continuum in force when the
request arrives.  The fragments are then forwarded one by one, each by its first
key, through `server_pool_conn`: that may rebuild the continuum when a retry time
has passed, and a connection that cannot be opened may eject its server.  A fragment
keeps the grouping it was made with.
-/

namespace Nutcracker

open Lib

/-- How a forward ends once a server is chosen: the message is enqueued; there is no connection
structure, write event or authentication message for it; or the connection cannot be opened and
is closed, which counts as a failure of the server. -/
inductive ForwardOutcome where
  | enqueued
  | dropped
  | unreachable (now : Int) (t : Moment)
  deriving DecidableEq, Repr

/-- The clock readings of one call of `req_forward`, the value of `random()` and the outcome. -/
structure ForwardTry where
  now : Int
  t : Moment
  draw : Nat := 0
  outcome : ForwardOutcome
  deriving DecidableEq, Repr

/-- The routing of `req_forward`: the pool afterwards and the server on whose connection the
message is enqueued, if it is. -/
def forwardFragment (kit : Hashkit) (pool : ServerPool) (keys : List Bytes) (f : ForwardTry) :
    ServerPool × Option Nat :=
  let updated := serverPoolUpdate kit pool f.now f.t
  if updated.2 then
    let server := serverPoolIdx kit updated.1 (keys.headD []) f.draw
    match f.outcome with
    | .enqueued => (updated.1, some server)
    | .dropped => (updated.1, none)
    | .unreachable now t => (serverFailure kit updated.1 server now t, none)
  else
    (updated.1, none)

/-- A message enqueued on a connection of a server, with the pool at that moment. -/
structure Enqueued where
  pool : ServerPool
  server : Nat
  keys : List Bytes

/-- The loop of `req_recv_done` that forwards the fragments. -/
def forwardFragments (kit : Hashkit) : ServerPool → List (List Bytes × ForwardTry) → List Enqueued
  | _, [] => []
  | pool, (keys, f) :: rest =>
    let forwarded := forwardFragment kit pool keys f
    forwarded.2.toList.map (⟨forwarded.1, ·, keys⟩) ++ forwardFragments kit forwarded.1 rest

/-- Every key of the message belongs to the server it is sent to. -/
def Enqueued.Consistent (kit : Hashkit) (e : Enqueued) : Prop :=
  ∀ key ∈ e.keys, ∀ draw, serverPoolIdx kit e.pool key draw = e.server

/-- The failure that a forward counts against its server. -/
def ForwardTry.failure (f : ForwardTry) (server : Nat) : Option PoolEvent :=
  match f.outcome with
  | .unreachable now t => some (.failure server now t)
  | _ => none

/-- A forward that brings no rebuild: no retry time has passed when the message is routed, and if
the connection to the server of its first key cannot be opened, the server does not reach its
failure limit. -/
def ServerPool.Quiet (kit : Hashkit) (pool : ServerPool) (keys : List Bytes) (f : ForwardTry) :
    Prop :=
  pool.rebuilds (.update f.now f.t) = none ∧
    ((serverPoolUpdate kit pool f.now f.t).2 = true →
      ∀ e ∈ f.failure (serverPoolIdx kit pool (keys.headD []) f.draw), pool.rebuilds e = none)

instance (kit : Hashkit) (pool : ServerPool) (keys : List Bytes) (f : ForwardTry) :
    Decidable (pool.Quiet kit keys f) :=
  inferInstanceAs (Decidable (_ ∧ (_ → _)))

/-- The forwards bring no rebuild before the last message is enqueued.  What comes after it does
not matter. -/
def ServerPool.Undisturbed (kit : Hashkit) : ServerPool → List (List Bytes × ForwardTry) → Prop
  | _, [] => True
  | pool, (keys, f) :: rest =>
    forwardFragments kit pool ((keys, f) :: rest) = [] ∨
      pool.Quiet kit keys f ∧ Undisturbed kit (forwardFragment kit pool keys f).1 rest

/-! ## Grouping -/

theorem serverPoolIdx_draw {kit : Hashkit} {pool : ServerPool} (hashed : pool.dist ≠ .random)
    (key : Bytes) (draw other : Nat) :
    serverPoolIdx kit pool key draw = serverPoolIdx kit pool key other := by
  unfold serverPoolIdx
  cases dist : pool.dist with
  | ketama => rfl
  | modula => rfl
  | random => exact absurd dist hashed

/-- The keys of a fragment share their server, and a fragment has a key. -/
theorem fragmentKeys_alike {kit : Hashkit} {pool : ServerPool} {keys : List (Bytes × Nat)}
    {fragments : List (List Bytes)} (hashed : pool.dist ≠ .random)
    (fragmented : fragmentKeys kit pool keys = some fragments) {fragment : List Bytes}
    (member : fragment ∈ fragments) :
    fragment ≠ [] ∧ ∃ i, ∀ key ∈ fragment, ∀ draw, serverPoolIdx kit pool key draw = i := by
  obtain ⟨slots, filed, rfl⟩ := Option.map_eq_some_iff.mp fragmented
  rw [collected_fileAll filed] at member
  simp only [ne_eq, decide_not, List.mem_filter, List.mem_map, List.mem_range,
    Bool.not_eq_true', decide_eq_false_iff_not] at member
  obtain ⟨⟨i, _, rfl⟩, nonempty⟩ := member
  refine ⟨nonempty, i, ?_⟩
  intro key inside draw
  have entry := mem_filedUnder.mp inside
  simp only [List.mem_map, Prod.mk.injEq] at entry
  obtain ⟨item, _, position, rfl⟩ := entry
  rw [serverPoolIdx_draw hashed item.1 draw item.2, position]

/-! ## Forwarding -/

/-- An enqueued message goes to the server of its first key, in the pool that results. -/
theorem forwardFragment_server {kit : Hashkit} {pool : ServerPool} {keys : List Bytes}
    {f : ForwardTry} {server : Nat}
    (enqueued : (forwardFragment kit pool keys f).2 = some server) :
    server = serverPoolIdx kit (forwardFragment kit pool keys f).1 (keys.headD []) f.draw := by
  unfold forwardFragment at enqueued ⊢
  simp only at enqueued ⊢
  split at enqueued
  · rename_i routed
    rw [if_pos routed]
    cases outcome : f.outcome with
    | enqueued =>
      simp only [outcome] at enqueued ⊢
      exact (Option.some.inj enqueued).symm
    | dropped =>
      simp only [outcome] at enqueued
      cases enqueued
    | unreachable now t =>
      simp only [outcome] at enqueued
      cases enqueued
  · cases enqueued

/-- A quiet forward leaves the ring as it was. -/
theorem ServerPool.Quiet.sameRing {kit : Hashkit} {pool : ServerPool} {keys : List Bytes}
    {f : ForwardTry} (quiet : pool.Quiet kit keys f) :
    pool.SameRing (forwardFragment kit pool keys f).1 := by
  obtain ⟨notDue, spared⟩ := quiet
  have updated : (serverPoolUpdate kit pool f.now f.t).1 = pool := update_of_not_rebuilds kit notDue
  unfold forwardFragment
  simp only [updated]
  split
  · rename_i routed
    cases outcome : f.outcome with
    | enqueued => exact .refl pool
    | dropped => exact .refl pool
    | unreachable now t =>
      have failed : f.failure (serverPoolIdx kit pool (keys.headD []) f.draw) =
          some (.failure (serverPoolIdx kit pool (keys.headD []) f.draw) now t) := by
        simp only [ForwardTry.failure, outcome]
      exact step_of_not_rebuilds kit (spared routed _ failed)
  · exact .refl pool

/-- Fragments that each have one server are sent to it, as long as nothing disturbs. -/
theorem forwardFragments_consistent {kit : Hashkit} {pool : ServerPool}
    {items : List (List Bytes × ForwardTry)}
    (alike : ∀ item ∈ items, item.1 ≠ [] ∧
      ∃ i, ∀ key ∈ item.1, ∀ draw, serverPoolIdx kit pool key draw = i)
    (undisturbed : pool.Undisturbed kit items) :
    ∀ e ∈ forwardFragments kit pool items, e.Consistent kit := by
  induction items generalizing pool with
  | nil => simp [forwardFragments]
  | cons item items ih =>
    obtain ⟨keys, f⟩ := item
    intro e member
    rcases undisturbed with none | ⟨quiet, rest⟩
    · rw [none] at member
      cases member
    have moved := quiet.sameRing.serverPoolIdx_eq kit
    rcases List.mem_append.mp member with here | later
    · obtain ⟨server, enqueued, rfl⟩ := List.mem_map.mp here
      have chosen := forwardFragment_server (Option.mem_toList.mp enqueued)
      obtain ⟨nonempty, i, all⟩ := alike _ List.mem_cons_self
      obtain ⟨first, others, rfl⟩ := List.exists_cons_of_ne_nil nonempty
      intro key inside draw
      calc serverPoolIdx kit (forwardFragment kit pool (first :: others) f).1 key draw
          = serverPoolIdx kit pool key draw := moved key draw
        _ = i := all key inside draw
        _ = serverPoolIdx kit pool first f.draw := (all first List.mem_cons_self f.draw).symm
        _ = server := by rw [chosen]; exact (moved first f.draw).symm
    · refine ih ?_ rest e later
      intro item inside
      obtain ⟨nonempty, i, all⟩ := alike item (List.mem_cons_of_mem _ inside)
      refine ⟨nonempty, i, fun key member draw => ?_⟩
      rw [moved]
      exact all key member draw

/-- Unless a forward before the last enqueued fragment finds that a retry time has passed, or ejects
the server of its first key, every key of a fragment that is enqueued belongs to the server the
fragment is sent to. -/
theorem fragments_routed_by_every_key (kit : Hashkit) (pool : ServerPool)
    (keys : List (Bytes × Nat)) (fragments : List (List Bytes)) (tries : List ForwardTry)
    (hashed : pool.dist ≠ .random) (fragmented : fragmentKeys kit pool keys = some fragments)
    (undisturbed : pool.Undisturbed kit (fragments.zip tries)) :
    ∀ e ∈ forwardFragments kit pool (fragments.zip tries), e.Consistent kit := by
  apply forwardFragments_consistent _ undisturbed
  intro item member
  obtain ⟨fragment, f⟩ := item
  exact fragmentKeys_alike hashed fragmented (List.of_mem_zip member).1

/-- The second of two servers has just been ejected. -/
def ejectedPool : ServerPool :=
  let kit := Hashkit.fnv1a64 (fun _ _ => 0) (fun _ => 0)
  (serverPoolRun kit twoServers.pool ⟨0, true⟩).1.step kit (.failure 1 1000 ⟨1001, true⟩)

/-- Before the retry time, both keys of a request are in one fragment and are sent to the
server that is left. -/
theorem fragments_routed_by_every_key_early :
    fragmentKeys (.fnv1a64 (fun _ _ => 0) (fun _ => 0)) ejectedPool
        [([byteOf 'a'], 0), ([byteOf 'b'], 0)] =
      some [[[byteOf 'a'], [byteOf 'b']]] ∧
    ∀ e ∈ forwardFragments (.fnv1a64 (fun _ _ => 0) (fun _ => 0)) ejectedPool
      ([[[byteOf 'a'], [byteOf 'b']]].zip
        [{ now := 1500, t := ⟨1500, true⟩, outcome := .enqueued }]),
      e.Consistent (.fnv1a64 (fun _ _ => 0) (fun _ => 0)) := by
  have fragmented : fragmentKeys (.fnv1a64 (fun _ _ => 0) (fun _ => 0)) ejectedPool
      [([byteOf 'a'], 0), ([byteOf 'b'], 0)] =
        some [[[byteOf 'a'], [byteOf 'b']]] := by
    decide +kernel
  exact ⟨fragmented, fragments_routed_by_every_key _ _ _ _ _ (by decide +kernel) fragmented
    (.inr ⟨by decide +kernel, trivial⟩)⟩

/-- After the retry time, the forward of the fragment brings the second server back: the
fragment goes to the first server, while its second key belongs to the second one. -/
theorem fragment_routed_by_stale_grouping :
    let kit := Hashkit.fnv1a64 (fun _ _ => 0) (fun _ => 0)
    fragmentKeys kit ejectedPool [([byteOf 'a'], 0), ([byteOf 'b'], 0)] =
        some [[[byteOf 'a'], [byteOf 'b']]] ∧
      (forwardFragments kit ejectedPool
        [([[byteOf 'a'], [byteOf 'b']],
          { now := 2001001, t := ⟨2001001, true⟩, outcome := .enqueued })]).map
        (fun e => (e.server, e.keys.map (serverPoolIdx kit e.pool · 0))) = [(0, [0, 1])] := by
  decide +kernel

end Nutcracker
