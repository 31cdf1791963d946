import Nutcracker.Lib.Rounding
import Nutcracker.Message.Core
import Mathlib.Data.List.Sort

/-!
# Distributions of a server pool

A pool spreads keys over its servers through a continuum: an array of points, each
carrying the position of a server in the server array.  `ketama_update`,
`modula_update` and `random_update` count the servers that are live, make sure the
array is large enough and write the points of the live servers; the dispatch
functions pick a point.  The three updates differ in the number that decides about
the allocation, in the points of one server and in the final sort.

Times are microseconds.  The hash functions and the memory behind a local array are
parameters.
-/

namespace Nutcracker

/-- `dist_type_t`. -/
inductive DistType where
  | ketama
  | modula
  | random
  deriving DecidableEq, Repr

/-- The fields of `struct server` the pool logic uses. -/
structure Server where
  name : Bytes
  weight : Nat
  nextRetry : Int := 0
  failureCount : Nat := 0
  deriving DecidableEq, Repr

/-- `struct continuum`: a point and the server it belongs to. -/
structure Continuum where
  index : Nat
  value : Nat
  deriving DecidableEq, Repr

/-- What the distributions take from outside: the hash of a key, the words of the MD5
signature, the bytes behind the array `host` on the stack, and the arithmetic that gives a
server its number of ketama points, always a multiple of four. -/
structure Hashkit where
  keyHash : Bytes → Nat
  ketamaHash : Bytes → Nat → Nat
  beyond : Nat → UInt8
  points : Nat → Nat → Nat → Nat
  four_dvd_points : ∀ weight totalWeight nlive, 4 ∣ points weight totalWeight nlive

/-- `(uint32_t)key[x]`: a `char` is signed. -/
def charVal (c : UInt8) : UInt32 :=
  if c < 128 then c.toUInt32 else c.toUInt32 - 256

/-- `hash_fnv1a_64`, the default hash of a key; it works on 32 bits in spite of its name. -/
def hashFnv1a64 (key : Bytes) : Nat :=
  (key.foldl (fun hash c => (hash ^^^ charVal c) * 0x1b3) (0x84222325 : UInt32)).toNat

/-! ## The number of ketama points of a server -/

/-- A `float` has a significand of 24 bits. -/
abbrev float32 : ℚ → ℚ :=
  Lib.roundTo 24

/-- A `double` has a significand of 53 bits. -/
abbrev float64 : ℚ → ℚ :=
  Lib.roundTo 53

/-- The product in `ketama_update`, taken in `float`: a quarter of the server's share of the
points. -/
def ketamaQuarter (weight totalWeight nlive : Nat) : ℚ :=
  let pct := float32 (float32 weight / float32 totalWeight)
  float32 (float32 (float32 (pct * 160) / 4) * float32 nlive)

/-- The argument of `floorf`; the sum is taken in `double`. -/
def ketamaShare (weight totalWeight nlive : Nat) : ℚ :=
  float32 (float64 (ketamaQuarter weight totalWeight nlive + float64 (1 / 10000000000)))

/-- `pointer_per_server` of `ketama_update`. -/
def ketamaPoints (weight totalWeight nlive : Nat) : Nat :=
  ⌊float32 (⌊ketamaShare weight totalWeight nlive⌋₊ * 4)⌋₊

/-- The same number in exact arithmetic. -/
def ketamaPointsExact (weight totalWeight nlive : Nat) : Nat :=
  weight * 40 * nlive / totalWeight * 4

/-! ## Counting the live servers -/

/-- The accumulators of the first loop of an update. -/
structure Census where
  servers : List Server := []
  nlive : Nat := 0
  totalWeight : Nat := 0
  nextRebuild : Int := 0

/-- A server past its retry time is taken back. -/
def Server.revive (autoEject : Bool) (now : Int) (s : Server) : Server :=
  if autoEject ∧ s.nextRetry ≤ now then { s with nextRetry := 0 } else s

/-- A server takes part in the continuum built at time `now`. -/
def Server.live (autoEject : Bool) (now : Int) (s : Server) : Bool :=
  !autoEject || decide (s.nextRetry ≤ now)

/-- The body of the first loop. -/
def Census.visit (autoEject : Bool) (now : Int) (c : Census) (s : Server) : Census :=
  let nextRebuild :=
    if autoEject ∧ now < s.nextRetry ∧
        (c.nextRebuild = 0 ∨ s.nextRetry < c.nextRebuild) then
      s.nextRetry
    else
      c.nextRebuild
  let revived := s.revive autoEject now
  { servers := c.servers ++ [revived]
    nlive := if s.live autoEject now then c.nlive + 1 else c.nlive
    totalWeight :=
      if revived.live autoEject now then add32 c.totalWeight s.weight else c.totalWeight
    nextRebuild }

/-- The first loop over the servers. -/
def census (autoEject : Bool) (now : Int) (servers : List Server) : Census :=
  servers.foldl (Census.visit autoEject now) {}

/-! ## Points of a server -/

/-- Size of the array `host`. -/
abbrev KETAMA_MAX_HOSTLEN : Nat := 86

/-- What `"%.*s-%u"` prints for a group of points: a name ends at its first zero byte. -/
def hostText (name : Bytes) (j : Nat) : Bytes :=
  name.takeWhile (· ≠ 0) ++ Lib.byteOf '-' :: Lib.decimal j

/-- The bytes hashed for one group of points: `hostlen` bytes from the start of `host`, which
holds the text cut to the array and a terminating zero. -/
def hostBytes (kit : Hashkit) (text : Bytes) : Bytes :=
  if text.length < KETAMA_MAX_HOSTLEN then
    text
  else
    text.take (KETAMA_MAX_HOSTLEN - 1) ++ 0 ::
      (List.range (text.length - KETAMA_MAX_HOSTLEN)).map kit.beyond

/-- The points `ketama_update` writes for the server at `index`. -/
def ketamaServerPoints (kit : Hashkit) (pointers index : Nat) (s : Server) : List Continuum :=
  (List.range (pointers / 4)).flatMap fun j =>
    let host := hostBytes kit (hostText s.name j)
    (List.range 4).map fun x => ⟨index, kit.ketamaHash host x⟩

/-- The fields of `struct server_pool` the routing uses. -/
structure ServerPool where
  dist : DistType
  autoEjectHosts : Bool
  serverFailureLimit : Nat
  serverRetryTimeout : Int
  hashTag : Option (UInt8 × UInt8) := none
  servers : List Server
  continuum : List Continuum := []
  ncontinuum : Nat := 0
  nserverContinuum : Nat := 0
  nliveServer : Nat := 0
  nextRebuild : Int := 0
  deriving DecidableEq, Repr

/-- One reading of the clock, negative when `gettimeofday` fails, and the outcome of
`nc_realloc`. -/
structure Moment where
  now : Int
  alloc : Bool := true
  deriving DecidableEq, Repr

/-- What distinguishes the three updates, given the census: the number compared with
`nserver_continuum`, the number of pointers of a server and its points, and the order of the
finished array. -/
structure Layout where
  need : Nat
  addition : Nat
  pointers : Server → Nat
  points : Nat → Server → List Continuum
  arrange : List Continuum → List Continuum

/-- The second loop: the points of the live servers in server order, and their number as the
32-bit counter has it. -/
def Layout.fill (l : Layout) (live : Server → Bool) (servers : List Server) :
    List Continuum × Nat :=
  let chosen := servers.zipIdx.filter fun entry => live entry.1
  (chosen.flatMap fun entry => l.points entry.2 entry.1,
    chosen.foldl (fun n entry => add32 n (l.pointers entry.1)) 0)

/-- The pool after the first loop. -/
def ServerPool.counted (pool : ServerPool) (c : Census) : ServerPool :=
  { pool with servers := c.servers, nextRebuild := c.nextRebuild, nliveServer := c.nlive }

/-- The pool after the second loop: the array is enlarged when it is too small for the need. -/
def ServerPool.rebuilt (pool : ServerPool) (l : Layout) (now : Int) : ServerPool :=
  let built := l.fill (Server.live pool.autoEjectHosts now) pool.servers
  { pool with
    nserverContinuum :=
      if pool.nserverContinuum < l.need then add32 l.need l.addition else pool.nserverContinuum
    continuum := l.arrange built.1
    ncontinuum := built.2 }

/-- The common course of the three updates. -/
def ServerPool.update (pool : ServerPool) (layout : Census → Layout) (t : Moment) :
    ServerPool × Bool :=
  let c := census pool.autoEjectHosts t.now pool.servers
  if t.now < 0 then
    (pool, false)
  else if c.nlive = 0 then
    (pool.counted c, true)
  else if pool.nserverContinuum < (layout c).need ∧ !t.alloc then
    (pool.counted c, false)
  else
    ((pool.counted c).rebuilt (layout c) t.now, true)

/-- Points per server, sorted by value. -/
def ketamaLayout (kit : Hashkit) (c : Census) : Layout where
  need := c.nlive
  addition := 10
  pointers s := kit.points s.weight c.totalWeight c.nlive
  points index s := ketamaServerPoints kit (kit.points s.weight c.totalWeight c.nlive) index s
  arrange := List.insertionSort fun a b => a.value ≤ b.value

/-- One point for each unit of weight. -/
def modulaLayout (c : Census) : Layout where
  need := c.totalWeight
  addition := 10
  pointers s := s.weight
  points index s := List.replicate s.weight ⟨index, 0⟩
  arrange := id

/-- One point for each live server. -/
def randomLayout (c : Census) : Layout where
  need := c.nlive
  addition := 10
  pointers _ := 1
  points index _ := [⟨index, 0⟩]
  arrange := id

def ketamaUpdate (kit : Hashkit) (pool : ServerPool) (t : Moment) : ServerPool × Bool :=
  pool.update (ketamaLayout kit) t

def modulaUpdate (pool : ServerPool) (t : Moment) : ServerPool × Bool :=
  pool.update modulaLayout t

def randomUpdate (pool : ServerPool) (t : Moment) : ServerPool × Bool :=
  pool.update randomLayout t

/-! ## Dispatch -/

/-- The loop of `ketama_dispatch`: the first position from `left` on, below `right`, whose value
is not below `hash`.  The interval halves, so `right - left` rounds suffice. -/
def ketamaSearch (continuum : List Continuum) (hash : Nat) : Nat → Nat → Nat → Nat
  | 0, _, right => right
  | fuel + 1, left, right =>
    if left < right then
      let middle := left + (right - left) / 2
      if (continuum.getD middle ⟨0, 0⟩).value < hash then
        ketamaSearch continuum hash fuel (middle + 1) right
      else
        ketamaSearch continuum hash fuel left middle
    else
      right

def ketamaDispatch (continuum : List Continuum) (ncontinuum hash : Nat) : Nat :=
  let right := ketamaSearch continuum hash ncontinuum 0 ncontinuum
  (continuum.getD (if right = ncontinuum then 0 else right) ⟨0, 0⟩).index

def modulaDispatch (continuum : List Continuum) (ncontinuum hash : Nat) : Nat :=
  (continuum.getD (hash % ncontinuum) ⟨0, 0⟩).index

/-- `draw` is the value of `random()`. -/
def randomDispatch (continuum : List Continuum) (ncontinuum draw : Nat) : Nat :=
  (continuum.getD (draw % ncontinuum) ⟨0, 0⟩).index

end Nutcracker
