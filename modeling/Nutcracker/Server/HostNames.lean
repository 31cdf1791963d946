import Mathlib.Data.List.TakeWhile
import Nutcracker.Server.Slots

/-!
# The bytes behind a ring point

`ketama_update` prints the name of a server and the number of a group of points into an array
of 86 bytes and hashes as many bytes as `snprintf` returns.  That is the length of the text
before it is cut, so a longer text is hashed cut off, with its terminating zero and whatever
lies behind the array.  Where no text is cut, the ring is a function of names and weights.
-/

namespace Nutcracker

open Lib

/-- The text that a group of points stands for. -/
def pointText (name : Bytes) (j : Nat) : Bytes :=
  name ++ byteOf '-' :: decimal j

/-- The number of bytes that `snprintf` writes into `host`. -/
def hostWritten (text : Bytes) : Nat :=
  min text.length (KETAMA_MAX_HOSTLEN - 1) + 1

/-- A group of points is the hash of its text, which is read from what was written. -/
def ExactHost (kit : Hashkit) (name : Bytes) (j : Nat) : Prop :=
  hostBytes kit (hostText name j) = pointText name j ∧
    (hostText name j).length ≤ hostWritten (hostText name j)

/-- The text of a group of points is printed completely. -/
def FitsHost (name : Bytes) (j : Nat) : Prop :=
  (pointText name j).length < KETAMA_MAX_HOSTLEN ∧ 0 ∉ name

instance (name : Bytes) (j : Nat) : Decidable (FitsHost name j) :=
  inferInstanceAs (Decidable (_ ∧ _))

section Host

variable {kit : Hashkit} {name : Bytes} {j : Nat}

theorem length_hostBytes (text : Bytes) : (hostBytes kit text).length = text.length := by
  unfold hostBytes
  split
  · rfl
  · rename_i long
    have size : KETAMA_MAX_HOSTLEN ≤ text.length := Nat.le_of_not_lt long
    simp only [KETAMA_MAX_HOSTLEN, List.length_append, List.length_take, List.length_cons,
      List.length_map, List.length_range] at size ⊢
    omega

theorem hostText_of_no_zero (plain : 0 ∉ name) : hostText name j = pointText name j := by
  rw [hostText, pointText, List.takeWhile_eq_self_iff.mpr]
  intro c member
  simpa using ne_of_mem_of_not_mem member plain

/-- A text of the full length shows that no zero byte has ended the name. -/
theorem no_zero_of_length (same : (hostText name j).length = (pointText name j).length) :
    0 ∉ name := by
  intro zero
  simp only [hostText, pointText, List.length_append, Nat.add_right_cancel_iff] at same
  have whole := (List.takeWhile_prefix (fun c : UInt8 => decide (c ≠ 0))).eq_of_length same
  have plain := List.takeWhile_eq_self_iff.mp whole 0 zero
  simp at plain

/-- The last byte of a text is a digit. -/
theorem pointText_getLast (name : Bytes) (j : Nat) : (pointText name j).getLast? ≠ some 0 := by
  have digits := digits_decimal j
  have nonempty := decimal_ne_nil j
  rw [pointText, List.getLast?_append_of_ne_nil _ (List.cons_ne_nil _ _),
    List.getLast?_cons, List.getLast?_eq_some_getLast nonempty]
  intro last
  have digit := digits _ (List.getLast_mem nonempty)
  rw [Option.getD_some, Option.some.injEq] at last
  rw [last] at digit
  exact absurd digit (by decide)

/-- Exactly the texts that are printed completely are hashed as they are. -/
theorem exactHost_iff : ExactHost kit name j ↔ FitsHost name j := by
  constructor
  · rintro ⟨same, written⟩
    have length := congrArg List.length same
    rw [length_hostBytes] at length
    have plain := no_zero_of_length length
    refine ⟨Nat.lt_of_not_le fun long => ?_, plain⟩
    rw [hostText_of_no_zero plain] at same written
    -- a text of just the size of the array is hashed with a zero in place of its last digit
    have full : (pointText name j).length = KETAMA_MAX_HOSTLEN := by
      simp only [hostWritten, KETAMA_MAX_HOSTLEN] at written long ⊢
      omega
    rw [hostBytes, if_neg (Nat.not_lt.mpr long), full, Nat.sub_self, List.range_zero,
      List.map_nil] at same
    apply pointText_getLast name j
    rw [← same, List.getLast?_append_of_ne_nil _ (List.cons_ne_nil _ _)]
    rfl
  · rintro ⟨short, plain⟩
    rw [ExactHost, hostText_of_no_zero plain, hostBytes, if_pos short]
    refine ⟨rfl, ?_⟩
    unfold hostWritten
    omega

end Host

/-! ## The ring -/

/-- What the ring may depend on: the name and the weight of a server, and whether it is live. -/
structure Listed where
  name : Bytes
  weight : Nat
  live : Bool
  deriving DecidableEq, Repr

/-- The points that a name calls for. -/
def configPoints (ketamaHash : Bytes → Nat → Nat) (pointers index : Nat) (name : Bytes) :
    List Continuum :=
  (List.range (pointers / 4)).flatMap fun j =>
    (List.range 4).map fun x => ⟨index, ketamaHash (pointText name j) x⟩

/-- The ring that a list of servers calls for. -/
def configRing (ketamaHash : Bytes → Nat → Nat) (points : Nat → Nat → Nat → Nat)
    (servers : List Listed) : List Continuum :=
  let live := servers.zipIdx.filter fun entry => entry.1.live
  let totalWeight := (live.map fun entry => entry.1.weight).sum % word32
  List.insertionSort (fun a b => a.value ≤ b.value)
    (live.flatMap fun entry =>
      configPoints ketamaHash (points entry.1.weight totalWeight live.length) entry.2 entry.1.name)

/-- The servers of a pool as the rebuild at time `now` sees them. -/
def ServerPool.listed (pool : ServerPool) (now : Int) : List Listed :=
  pool.servers.map fun s => ⟨s.name, s.weight, s.live pool.autoEjectHosts now⟩

/-- A property of every group of points that the rebuild at time `now` makes. -/
def ServerPool.EachGroup (kit : Hashkit) (pool : ServerPool) (now : Int)
    (P : Bytes → Nat → Prop) : Prop :=
  let c := census pool.autoEjectHosts now pool.servers
  ∀ s ∈ pool.servers, s.live pool.autoEjectHosts now = true →
    ∀ j < kit.points s.weight c.totalWeight c.nlive / 4, P s.name j

instance (kit : Hashkit) (pool : ServerPool) (now : Int) (P : Bytes → Nat → Prop)
    [∀ name j, Decidable (P name j)] : Decidable (pool.EachGroup kit now P) := by
  unfold ServerPool.EachGroup
  infer_instance

section Ring

variable {kit : Hashkit} {pool : ServerPool} {t : Moment}

theorem ketamaServerPoints_eq {pointers : Nat} {s : Server} (index : Nat)
    (fits : ∀ j < pointers / 4, FitsHost s.name j) :
    ketamaServerPoints kit pointers index s =
      configPoints kit.ketamaHash pointers index s.name := by
  unfold ketamaServerPoints configPoints
  apply List.flatMap_congr
  intro j member
  have exact : ExactHost kit s.name j := exactHost_iff.mpr (fits j (List.mem_range.mp member))
  simp only [exact.1]

/-- The rebuild of a ketama pool that has a live server. -/
theorem ketamaUpdate_continuum (clock : 0 ≤ t.now) (alloc : t.alloc = true)
    (live : ∃ s ∈ pool.servers, s.live pool.autoEjectHosts t.now = true) :
    let c := census pool.autoEjectHosts t.now pool.servers
    (ketamaUpdate kit pool t).1.continuum =
      List.insertionSort (fun a b => a.value ≤ b.value)
        ((pool.servers.zipIdx.filter fun entry => entry.1.live pool.autoEjectHosts t.now).flatMap
          fun entry => ketamaServerPoints kit
            (kit.points entry.1.weight c.totalWeight c.nlive) entry.2
            (entry.1.revive pool.autoEjectHosts t.now)) := by
  have some_ : (census pool.autoEjectHosts t.now pool.servers).nlive ≠ 0 := by
    rw [census_nlive]
    exact (List.countP_pos_iff.mpr live).ne'
  simp only [ketamaUpdate, ServerPool.update, if_neg (Int.not_lt.mpr clock), if_neg some_, alloc,
    Bool.not_true, Bool.false_eq_true, and_false, if_false, ServerPool.rebuilt, ServerPool.counted,
    Layout.fill, census_servers, chosen_revived clock, List.flatMap_map, ketamaLayout,
    Server.weight_revive]

/-- Where no text is cut, a rebuild makes the ring that the configuration calls for. -/
theorem ketamaUpdate_configRing (clock : 0 ≤ t.now) (alloc : t.alloc = true)
    (live : ∃ s ∈ pool.servers, s.live pool.autoEjectHosts t.now = true)
    (fits : pool.EachGroup kit t.now FitsHost) :
    (ketamaUpdate kit pool t).1.continuum =
      configRing kit.ketamaHash kit.points (pool.listed t.now) := by
  have chosen : ((pool.listed t.now).zipIdx.filter fun entry => entry.1.live) =
      (pool.servers.zipIdx.filter fun entry => entry.1.live pool.autoEjectHosts t.now).map
        fun entry => (⟨entry.1.name, entry.1.weight,
          entry.1.live pool.autoEjectHosts t.now⟩, entry.2) := by
    rw [ServerPool.listed, List.zipIdx_map, List.filter_map]
    rfl
  have count : (pool.servers.zipIdx.filter fun entry =>
      entry.1.live pool.autoEjectHosts t.now).length =
        (census pool.autoEjectHosts t.now pool.servers).nlive := by
    rw [census_nlive, List.countP_eq_length_filter,
      ← map_fst_chosen (Server.live pool.autoEjectHosts t.now) pool.servers 0, List.length_map]
  have weight : ((pool.servers.zipIdx.filter fun entry =>
      entry.1.live pool.autoEjectHosts t.now).map fun entry => entry.1.weight).sum % word32 =
        (census pool.autoEjectHosts t.now pool.servers).totalWeight := by
    rw [census_totalWeight clock,
      ← map_fst_chosen (Server.live pool.autoEjectHosts t.now) pool.servers 0, List.map_map]
    rfl
  rw [ketamaUpdate_continuum clock alloc live, configRing, chosen]
  simp only [List.length_map, List.map_map, List.flatMap_map, Function.comp_def, count, weight]
  congr 1
  apply List.flatMap_congr
  rintro ⟨s, i⟩ member
  obtain ⟨entry, alive⟩ := List.mem_filter.mp member
  have found : s ∈ pool.servers :=
    List.mem_of_getElem? (List.mem_zipIdx_iff_getElem?.mp entry)
  rw [ketamaServerPoints_eq, Server.name_revive]
  intro j group
  rw [Server.name_revive]
  exact fits s found alive j group

/-- The number and the weight of the live servers can be read off the list. -/
theorem census_listed (clock : 0 ≤ t.now) :
    (census pool.autoEjectHosts t.now pool.servers).nlive =
        ((pool.listed t.now).filter (·.live)).length ∧
      (census pool.autoEjectHosts t.now pool.servers).totalWeight =
        (((pool.listed t.now).filter (·.live)).map (·.weight)).sum % word32 := by
  rw [census_nlive, census_totalWeight clock, List.countP_eq_length_filter, ServerPool.listed,
    List.filter_map, List.length_map, List.map_map]
  exact ⟨rfl, rfl⟩

theorem eachGroup_iff (clock : 0 ≤ t.now) {P : Bytes → Nat → Prop} :
    pool.EachGroup kit t.now P ↔
      ∀ e ∈ pool.listed t.now, e.live = true →
        ∀ j < kit.points e.weight
            ((((pool.listed t.now).filter (·.live)).map (·.weight)).sum % word32)
            ((pool.listed t.now).filter (·.live)).length / 4,
          P e.name j := by
  rw [ServerPool.EachGroup, (census_listed clock).1, (census_listed clock).2]
  simp only [ServerPool.listed, List.forall_mem_map]

theorem exists_live_iff :
    (∃ s ∈ pool.servers, s.live pool.autoEjectHosts t.now = true) ↔
      ∃ e ∈ pool.listed t.now, e.live = true := by
  simp [ServerPool.listed]

end Ring

/-- Every group of points is the hash of `<name>-<j>`, read from what was written, exactly if no
text is cut and no name has a zero byte.  A rebuild then makes the ring that names and weights
call for, and so does any other proxy, whatever lies on its stack. -/
theorem ketamaRing_exact_iff (kit : Hashkit) (pool : ServerPool) (t : Moment) :
    (pool.EachGroup kit t.now (ExactHost kit) ↔ pool.EachGroup kit t.now FitsHost) ∧
      (pool.EachGroup kit t.now FitsHost → 0 ≤ t.now → t.alloc = true →
        (∃ s ∈ pool.servers, s.live pool.autoEjectHosts t.now = true) →
        (ketamaUpdate kit pool t).1.continuum =
            configRing kit.ketamaHash kit.points (pool.listed t.now) ∧
          ∀ kit' pool' t', kit'.ketamaHash = kit.ketamaHash → kit'.points = kit.points →
            pool'.listed t'.now = pool.listed t.now → 0 ≤ t'.now → t'.alloc = true →
            (ketamaUpdate kit' pool' t').1.continuum = (ketamaUpdate kit pool t).1.continuum) := by
  constructor
  · unfold ServerPool.EachGroup
    simp only [exactHost_iff]
  · intro fits clock alloc live
    have ring := ketamaUpdate_configRing clock alloc live fits
    refine ⟨ring, fun kit' pool' t' hash points same clock' alloc' => ?_⟩
    have live' : ∃ s ∈ pool'.servers, s.live pool'.autoEjectHosts t'.now = true := by
      rw [exists_live_iff, same, ← exists_live_iff]
      exact live
    have fits' : pool'.EachGroup kit' t'.now FitsHost := by
      rw [eachGroup_iff clock', same, points, ← eachGroup_iff clock]
      exact fits
    rw [ketamaUpdate_configRing clock' alloc' live' fits', hash, points, same, ring]

/-- A pool with one server of weight one. -/
def namedPool (name : Bytes) : ServerPool where
  dist := .ketama
  autoEjectHosts := false
  serverFailureLimit := 2
  serverRetryTimeout := 0
  servers := [{ name, weight := 1 }]

/-- A hash that looks at the last byte, with the same byte everywhere behind the array. -/
def lastByteKit (behind : UInt8) : Hashkit where
  keyHash := hashFnv1a64
  ketamaHash host _ := (host.getLastD 0).toNat
  beyond _ := behind
  points := ketamaPointsExact
  four_dvd_points _ _ _ := Nat.dvd_mul_left ..

/-- The server `ab` on two proxies. -/
theorem ketamaRing_exact_short :
    (namedPool [byteOf 'a', byteOf 'b']).EachGroup (lastByteKit 1) 0 FitsHost ∧
      (ketamaUpdate (lastByteKit 2) (namedPool [byteOf 'a', byteOf 'b']) ⟨5, true⟩).1.continuum =
        (ketamaUpdate (lastByteKit 1) (namedPool [byteOf 'a', byteOf 'b'])
          ⟨0, true⟩).1.continuum := by
  have fits : (namedPool [byteOf 'a', byteOf 'b']).EachGroup (lastByteKit 1) 0 FitsHost := by
    decide +kernel
  exact ⟨fits, ((ketamaRing_exact_iff (lastByteKit 1) (namedPool [byteOf 'a', byteOf 'b'])
    ⟨0, true⟩).2 fits (by decide) rfl (by decide)).2 (lastByteKit 2) _ ⟨5, true⟩ rfl rfl rfl
    (by decide) rfl⟩

/-- The hash of a name of 90 bytes reads behind the array, so the ring depends on what lies
there. -/
theorem ketamaRing_reads_stack :
    let pool := namedPool (List.replicate 90 (byteOf 'a'))
    hostWritten (hostText (List.replicate 90 (byteOf 'a')) 0) = 86 ∧
      (hostText (List.replicate 90 (byteOf 'a')) 0).length = 92 ∧
      hostBytes (lastByteKit 1) (hostText (List.replicate 90 (byteOf 'a')) 0) ≠
        pointText (List.replicate 90 (byteOf 'a')) 0 ∧
      (ketamaUpdate (lastByteKit 1) pool ⟨0, true⟩).1.continuum ≠
        (ketamaUpdate (lastByteKit 2) pool ⟨0, true⟩).1.continuum := by
  decide +kernel

end Nutcracker
