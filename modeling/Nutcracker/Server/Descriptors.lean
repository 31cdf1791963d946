import Mathlib.Algebra.Order.Ring.Nat
import Mathlib.Data.List.Count

/-!
# The budget of file descriptors

`core_calc_connections` takes the descriptors of the server connections, of the
listening sockets and a fixed reserve away from the descriptor limit of the process,
in 32-bit words; what is left is the limit on client connections.  It is compared, at
every `accept`, with the counter that `conn_get` and `conn_put` keep.
-/

namespace Nutcracker

/-! ## The limits -/

def RESERVED_FDS : UInt32 := 32

/-- The limits of `struct context`. -/
structure Limits where
  maxNfd : UInt32 := 0
  maxNcconn : UInt32 := 0
  maxNsconn : UInt32 := 0
  deriving DecidableEq, Repr

/-- What the budget reads of a pool: `server_connections` and the length of the server array. -/
structure PoolSize where
  serverConnections : UInt32
  nserver : UInt32
  deriving DecidableEq, Repr

def serverPoolEachCalcConnections (ctx : Limits) (sp : PoolSize) : Limits :=
  let ctx := { ctx with maxNsconn := ctx.maxNsconn + sp.serverConnections * sp.nserver }
  { ctx with maxNsconn := ctx.maxNsconn + 1 }

/-- The part of `server_pool_init` that computes the number of server connections. -/
def serverPoolCalcConnections (ctx : Limits) (pools : List PoolSize) : Limits :=
  pools.foldl serverPoolEachCalcConnections { ctx with maxNsconn := 0 }

/-- `core_calc_connections`, for the limit that `getrlimit` gives. -/
def coreCalcConnections (ctx : Limits) (rlimCur : UInt64) : Limits :=
  let ctx := { ctx with maxNfd := rlimCur.toUInt32 }
  { ctx with maxNcconn := ctx.maxNfd - ctx.maxNsconn - RESERVED_FDS }

/-- The limits that `core_ctx_create` sets. -/
def contextLimits (rlimCur : UInt64) (pools : List PoolSize) : Limits :=
  coreCalcConnections (serverPoolCalcConnections {} pools) rlimCur

/-! ## Connections -/

/-- The `client` and `proxy` flags of a connection: neither is set towards a server. -/
inductive ConnRole where
  | client
  | server
  | proxy
  deriving DecidableEq, Repr

structure ConnRecord where
  ident : Nat
  role : ConnRole
  deriving DecidableEq, Repr

/-- The connections in use and those that wait for reuse, with the counters of
`nc_connection.c`. -/
structure ConnTable where
  used : List ConnRecord := []
  freeConnq : List Nat := []
  /-- How many connections `nc_alloc` has made so far: the next one's number. -/
  allocated : Nat := 0
  nfreeConnq : UInt32 := 0
  ntotalConn : UInt64 := 0
  ncurrConn : UInt32 := 0
  ncurrCconn : UInt32 := 0
  deriving DecidableEq, Repr

namespace ConnTable

variable (table : ConnTable)

/-- `_conn_get`; `memory` is the outcome of `nc_alloc`. -/
def connAlloc (memory : Bool) : Option (Nat × ConnTable) :=
  let counted (table : ConnTable) : ConnTable :=
    { table with ntotalConn := table.ntotalConn + 1, ncurrConn := table.ncurrConn + 1 }
  match table.freeConnq with
  | ident :: rest =>
    some (ident, counted { table with freeConnq := rest, nfreeConnq := table.nfreeConnq - 1 })
  | [] =>
    if memory then
      some (table.allocated, counted { table with allocated := table.allocated + 1 })
    else none

/-- `conn_get`, and `conn_get_proxy` for the role `proxy`. -/
def connGet (role : ConnRole) (memory : Bool) : Option (ConnRecord × ConnTable) :=
  match table.connAlloc memory with
  | none => none
  | some (ident, table) =>
    let c : ConnRecord := ⟨ident, role⟩
    let table := { table with used := c :: table.used }
    some (c, if role = .client then { table with ncurrCconn := table.ncurrCconn + 1 } else table)

def connPut (c : ConnRecord) : ConnTable :=
  let table := { table with
    used := table.used.erase c
    freeConnq := c.ident :: table.freeConnq
    nfreeConnq := table.nfreeConnq + 1 }
  let table :=
    if c.role = .client then { table with ncurrCconn := table.ncurrCconn - 1 } else table
  { table with ncurrConn := table.ncurrConn - 1 }

/-- The client connections that are open. -/
def openClients : Nat :=
  table.used.countP fun c => c.role = .client

end ConnTable

/-! ## Accepting -/

/-- What `accept` returns: `EINTR`, one of `EAGAIN`, `EWOULDBLOCK` and `ECONNABORTED`, one of
`EMFILE` and `ENFILE`, another error, or a descriptor. -/
inductive AcceptResult where
  | interrupted
  | notReady
  | outOfFiles
  | failed
  | accepted
  deriving DecidableEq, Repr

/-- Whether `nc_alloc`, `nc_set_nonblocking` and `event_add_conn` succeed. -/
structure AcceptOutcome where
  memory : Bool := true
  nonblocking : Bool := true
  added : Bool := true
  deriving DecidableEq, Repr

inductive AcceptStatus where
  | ok
  | error
  | enomem
  deriving DecidableEq, Repr

/-- The loop around `accept`: interrupted calls are made again. -/
def acceptLoop : List AcceptResult → AcceptResult
  | [] => .notReady
  | .interrupted :: results => acceptLoop results
  | result :: _ => result

/-- `proxy_accept`: its status, whether `recv_ready` stays set, and the connections afterwards.
A connection that cannot be set up is closed, which puts it back. -/
def proxyAccept (ctx : Limits) (table : ConnTable) (results : List AcceptResult)
    (outcome : AcceptOutcome) : AcceptStatus × Bool × ConnTable :=
  match acceptLoop results with
  | .interrupted | .notReady | .outOfFiles => (.ok, false, table)
  | .failed => (.error, true, table)
  | .accepted =>
    if table.ncurrCconn ≥ ctx.maxNcconn then (.ok, true, table)
    else
      match table.connGet .client outcome.memory with
      | none => (.enomem, true, table)
      | some (c, table) =>
        if !outcome.nonblocking then (.error, true, table.connPut c)
        else if !outcome.added then (.error, true, table.connPut c)
        else (.ok, true, table)

/-- What happens to the connections: a call of `proxy_accept`, a connection to a server, a
listening socket, and the close of a connection of any kind. -/
inductive ConnEvent where
  | accept (results : List AcceptResult) (outcome : AcceptOutcome)
  | connect (memory : Bool)
  | listen (memory : Bool)
  | close (c : ConnRecord)
  deriving DecidableEq, Repr

def connStep (ctx : Limits) (table : ConnTable) : ConnEvent → ConnTable
  | .accept results outcome => (proxyAccept ctx table results outcome).2.2
  | .connect memory => ((table.connGet .server memory).map (·.2)).getD table
  | .listen memory => ((table.connGet .proxy memory).map (·.2)).getD table
  | .close c => if c ∈ table.used then table.connPut c else table

/-- The connections after a history of the process. -/
def connRun (ctx : Limits) (history : List ConnEvent) : ConnTable :=
  history.foldl (connStep ctx) {}

/-! ## The limits as numbers -/

/-- The descriptors that the pools need: one for each server connection and one for each
listening socket. -/
def serverDescriptors (pools : List PoolSize) : Nat :=
  (pools.map fun sp => sp.serverConnections.toNat * sp.nserver.toNat + 1).sum

theorem toNat_maxNsconn_each (ctx : Limits) (sp : PoolSize) :
    (serverPoolEachCalcConnections ctx sp).maxNsconn.toNat =
      (ctx.maxNsconn.toNat + (sp.serverConnections.toNat * sp.nserver.toNat + 1)) % 2 ^ 32 := by
  simp only [serverPoolEachCalcConnections, UInt32.toNat_add, UInt32.toNat_mul, UInt32.reduceToNat]
  omega

theorem toNat_maxNsconn_foldl (ctx : Limits) (pools : List PoolSize) :
    (pools.foldl serverPoolEachCalcConnections ctx).maxNsconn.toNat =
      (ctx.maxNsconn.toNat + serverDescriptors pools) % 2 ^ 32 := by
  induction pools generalizing ctx with
  | nil => exact (Nat.mod_eq_of_lt ctx.maxNsconn.toNat_lt).symm
  | cons sp pools ih =>
    rw [List.foldl_cons, ih, toNat_maxNsconn_each, Nat.mod_add_mod, serverDescriptors,
      serverDescriptors, List.map_cons, List.sum_cons, Nat.add_assoc]

@[simp]
theorem toNat_maxNsconn (rlimCur : UInt64) (pools : List PoolSize) :
    (contextLimits rlimCur pools).maxNsconn.toNat = serverDescriptors pools % 2 ^ 32 := by
  rw [contextLimits, coreCalcConnections, serverPoolCalcConnections, toNat_maxNsconn_foldl]
  exact congrArg (· % 2 ^ 32) (Nat.zero_add _)

@[simp]
theorem toNat_maxNfd (rlimCur : UInt64) (pools : List PoolSize) :
    (contextLimits rlimCur pools).maxNfd.toNat = rlimCur.toNat % 2 ^ 32 :=
  rlimCur.toNat_toUInt32

theorem maxNcconn_eq (rlimCur : UInt64) (pools : List PoolSize) :
    (contextLimits rlimCur pools).maxNcconn =
      (contextLimits rlimCur pools).maxNfd - (contextLimits rlimCur pools).maxNsconn -
        RESERVED_FDS :=
  rfl

/-- Where the limit on clients is the difference it stands for. -/
theorem toNat_maxNcconn_iff {rlimCur : UInt64} {pools : List PoolSize}
    (files : rlimCur.toNat < 2 ^ 32) (servers : serverDescriptors pools < 2 ^ 32) :
    (contextLimits rlimCur pools).maxNcconn.toNat =
        rlimCur.toNat - serverDescriptors pools - RESERVED_FDS.toNat ↔
      serverDescriptors pools + RESERVED_FDS.toNat ≤ rlimCur.toNat ∨
        serverDescriptors pools + RESERVED_FDS.toNat = rlimCur.toNat + 2 ^ 32 := by
  rw [maxNcconn_eq, UInt32.toNat_sub, UInt32.toNat_sub, toNat_maxNsconn, toNat_maxNfd,
    Nat.mod_eq_of_lt files, Nat.mod_eq_of_lt servers]
  have reserve : RESERVED_FDS.toNat = 32 := rfl
  omega

/-! ## The counter of clients -/

namespace ConnTable

variable {table table' : ConnTable} {c : ConnRecord} {role : ConnRole} {memory : Bool}

/-- The counter that `accept` reads counts the open client connections. -/
def Counted (table : ConnTable) : Prop :=
  table.ncurrCconn.toNat = table.openClients

theorem connAlloc_eq_some {ident : Nat} (got : table.connAlloc memory = some (ident, table')) :
    table'.used = table.used ∧ table'.ncurrCconn = table.ncurrCconn := by
  unfold connAlloc at got
  split at got
  · cases got
    exact ⟨rfl, rfl⟩
  · split at got
    · cases got
      exact ⟨rfl, rfl⟩
    · cases got

theorem connGet_eq_some (got : table.connGet role memory = some (c, table')) :
    c.role = role ∧ table'.used = c :: table.used ∧
      table'.ncurrCconn =
        if role = .client then table.ncurrCconn + 1 else table.ncurrCconn := by
  unfold connGet at got
  split at got
  · cases got
  · rename_i ident inner allocated
    obtain ⟨used, counter⟩ := connAlloc_eq_some allocated
    cases got
    split
    · exact ⟨rfl, by rw [used], by rw [counter]⟩
    · exact ⟨rfl, by rw [used], by rw [counter]⟩

theorem openClients_of_connGet (got : table.connGet role memory = some (c, table')) :
    table'.openClients = table.openClients + if role = .client then 1 else 0 := by
  obtain ⟨same, used, -⟩ := connGet_eq_some got
  simp [openClients, used, List.countP_cons, same]

theorem openClients_connPut (member : c ∈ table.used) :
    (table.connPut c).openClients =
      table.openClients - if c.role = .client then 1 else 0 := by
  have used : (table.connPut c).used = table.used.erase c := by
    unfold connPut
    split <;> rfl
  simp [openClients, used, List.countP_erase, member]

theorem ncurrCconn_connPut : (table.connPut c).ncurrCconn =
    if c.role = .client then table.ncurrCconn - 1 else table.ncurrCconn := by
  unfold connPut
  split <;> rfl

theorem one_le_openClients (member : c ∈ table.used) (client : c.role = .client) :
    1 ≤ table.openClients :=
  List.countP_pos_iff.mpr ⟨c, member, by simp [client]⟩

/-- A connection is added, and counted if the counter has room. -/
theorem Counted.connGet (counted : table.Counted)
    (room : role = .client → table.ncurrCconn.toNat + 1 < 2 ^ 32)
    (got : table.connGet role memory = some (c, table')) : table'.Counted := by
  obtain ⟨-, -, counter⟩ := connGet_eq_some got
  rw [Counted, openClients_of_connGet got, counter, ← counted]
  by_cases client : role = .client
  · rw [if_pos client, if_pos client, UInt32.toNat_add]
    exact Nat.mod_eq_of_lt (room client)
  · rw [if_neg client, if_neg client, Nat.add_zero]

theorem Counted.connPut (counted : table.Counted) (member : c ∈ table.used) :
    (table.connPut c).Counted := by
  rw [Counted, openClients_connPut member, ncurrCconn_connPut, ← counted]
  by_cases client : c.role = .client
  · have pos : 1 ≤ table.ncurrCconn.toNat := counted ▸ one_le_openClients member client
    rw [if_pos client, if_pos client, UInt32.toNat_sub_of_le]
    · rfl
    · exact pos
  · rw [if_neg client, if_neg client, Nat.sub_zero]

end ConnTable

/-! ## Histories -/

/-- What every step keeps: the clients are counted, and no more than the limit are open. -/
structure WithinLimit (ctx : Limits) (table : ConnTable) : Prop where
  counted : table.Counted
  openClients_le : table.openClients ≤ ctx.maxNcconn.toNat

namespace WithinLimit

variable {ctx : Limits} {table : ConnTable}

theorem init : WithinLimit ctx {} :=
  ⟨rfl, Nat.zero_le _⟩

theorem connPut (within : WithinLimit ctx table) {c : ConnRecord} (member : c ∈ table.used) :
    WithinLimit ctx (table.connPut c) where
  counted := within.counted.connPut member
  openClients_le := by
    rw [ConnTable.openClients_connPut member]
    exact Nat.le_trans (Nat.sub_le _ _) within.openClients_le

/-- A client is added below the limit, another connection at any time. -/
theorem connGet (within : WithinLimit ctx table) {role : ConnRole} {memory : Bool}
    {c : ConnRecord} {table' : ConnTable}
    (below : role = .client → table.ncurrCconn < ctx.maxNcconn)
    (got : table.connGet role memory = some (c, table')) : WithinLimit ctx table' := by
  have limit := ctx.maxNcconn.toNat_lt
  refine ⟨within.counted.connGet (fun client => ?_) got, ?_⟩
  · have lt := UInt32.lt_iff_toNat_lt.mp (below client)
    omega
  · rw [ConnTable.openClients_of_connGet got]
    by_cases client : role = .client
    · have lt := UInt32.lt_iff_toNat_lt.mp (below client)
      rw [within.counted] at lt
      rwa [if_pos client]
    · rw [if_neg client]
      exact within.openClients_le

theorem proxyAccept (within : WithinLimit ctx table) (results : List AcceptResult)
    (outcome : AcceptOutcome) :
    WithinLimit ctx (proxyAccept ctx table results outcome).2.2 := by
  unfold Nutcracker.proxyAccept
  split
  · exact within
  · exact within
  · exact within
  · exact within
  · split
    · exact within
    rename_i room
    split
    · exact within
    rename_i c table' got
    have added := within.connGet (fun _ => UInt32.not_le.mp room) got
    have member : c ∈ table'.used := by
      rw [(ConnTable.connGet_eq_some got).2.1]
      exact List.mem_cons_self
    split
    · exact added.connPut member
    · split
      · exact added.connPut member
      · exact added

theorem step (within : WithinLimit ctx table) (event : ConnEvent) :
    WithinLimit ctx (connStep ctx table event) := by
  have other {role : ConnRole} (client : role ≠ .client) (memory : Bool) :
      WithinLimit ctx (((table.connGet role memory).map (·.2)).getD table) := by
    cases got : table.connGet role memory with
    | none => exact within
    | some result => exact within.connGet (fun h => absurd h client) got
  cases event with
  | accept results outcome => exact within.proxyAccept results outcome
  | connect memory => exact other (by decide) memory
  | listen memory => exact other (by decide) memory
  | close c =>
    rw [connStep]
    split
    · exact within.connPut ‹_›
    · exact within

end WithinLimit

/-- Along every history the clients are counted and within the limit. -/
theorem withinLimit_connRun (ctx : Limits) (history : List ConnEvent) :
    WithinLimit ctx (connRun ctx history) := by
  suffices run : ∀ table, WithinLimit ctx table →
      WithinLimit ctx (history.foldl (connStep ctx) table) from run {} .init
  induction history with
  | nil => exact fun _ within => within
  | cons event history ih => exact fun _ within => ih _ (within.step event)

/-- The limits are the numbers they stand for and bound the clients along every history, exactly
where no word of the computation wraps around to another value. -/
theorem descriptor_budget_iff (rlimCur : UInt64) (pools : List PoolSize) :
    ((contextLimits rlimCur pools).maxNfd.toNat = rlimCur.toNat ∧
      (contextLimits rlimCur pools).maxNsconn.toNat = serverDescriptors pools ∧
      (contextLimits rlimCur pools).maxNcconn.toNat =
        rlimCur.toNat - serverDescriptors pools - RESERVED_FDS.toNat ∧
      ∀ history, (connRun (contextLimits rlimCur pools) history).openClients ≤
        rlimCur.toNat - serverDescriptors pools - RESERVED_FDS.toNat) ↔
    rlimCur.toNat < 2 ^ 32 ∧ serverDescriptors pools < 2 ^ 32 ∧
      (serverDescriptors pools + RESERVED_FDS.toNat ≤ rlimCur.toNat ∨
        serverDescriptors pools + RESERVED_FDS.toNat = rlimCur.toNat + 2 ^ 32) := by
  constructor
  · rintro ⟨files, servers, clients, -⟩
    rw [toNat_maxNfd] at files
    rw [toNat_maxNsconn] at servers
    have filesWord : rlimCur.toNat < 2 ^ 32 := by omega
    have serversWord : serverDescriptors pools < 2 ^ 32 := by omega
    exact ⟨filesWord, serversWord, (toNat_maxNcconn_iff filesWord serversWord).mp clients⟩
  · rintro ⟨filesWord, serversWord, fits⟩
    have clients := (toNat_maxNcconn_iff filesWord serversWord).mpr fits
    refine ⟨?_, ?_, clients, fun history => ?_⟩
    · rw [toNat_maxNfd, Nat.mod_eq_of_lt filesWord]
    · rw [toNat_maxNsconn, Nat.mod_eq_of_lt serversWord]
    · rw [← clients]
      exact (withinLimit_connRun _ history).openClients_le

/-- With 32 descriptors and one server nothing is left for clients, and yet one is accepted: the
limit has wrapped around. -/
theorem descriptor_budget_wraps :
    32 - serverDescriptors [⟨1, 1⟩] - RESERVED_FDS.toNat = 0 ∧
      (contextLimits 32 [⟨1, 1⟩]).maxNcconn = 4294967294 ∧
      (connRun (contextLimits 32 [⟨1, 1⟩]) [.accept [.accepted] {}]).openClients = 1 := by
  decide

end Nutcracker
