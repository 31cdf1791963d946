import Nutcracker.Redis.Frame
import Mathlib.Data.Nat.Log
import Mathlib.Data.List.Infix

/-!
# Setting up a session with a redis server

A pool can have a password (`redis_auth`) and a database (`redis_db`).  The AUTH
message is queued behind whatever waits on a connection, by the first request that
is forwarded on it.  The SELECT message is put at the head of the queue by
`redis_post_connect`, which `server_connected` calls when a connect that was in
progress is found complete; a connect that succeeds at once does not come by there.
-/

namespace Nutcracker

open Lib

/-- The two session settings of a pool, and the room in an empty mbuf; `require_auth` holds when
there is a password. -/
structure SessionPool where
  redisAuth : Option Bytes
  redisDb : Int
  room : Nat
  deriving DecidableEq, Repr

/-- A message on a server connection. -/
inductive SessionMsg where
  | auth (text : Bytes)
  | select (text : Bytes)
  | request (id : Nat)
  deriving DecidableEq, Repr

/-- The text that `redis_add_auth` formats: `%s` ends at a zero byte. -/
def authText (password : Bytes) : Bytes :=
  frame (decimal 2)
    [(decimal 4, "AUTH".toList.map byteOf),
      (decimal password.length, password.takeWhile (· ≠ 0))]

/-- No AUTH message can be built for the password of the pool. -/
def SessionPool.Mute (pool : SessionPool) : Prop :=
  ∃ password, pool.redisAuth = some password ∧ pool.room ≤ (authText password).length

/-- The text that `redis_post_connect` formats. -/
def selectText (db : Nat) : Bytes :=
  let digits := if db ≥ 10 then Nat.log 10 db + 1 else 1
  frame (decimal 2) [(decimal 6, "SELECT".toList.map byteOf), (decimal digits, decimal db)]

/-- A server connection: its `imsg_q`, its flags, the messages written on it and the requests
forwarded on it. -/
structure Session where
  imsgq : List SessionMsg := []
  connecting : Bool
  authenticated : Bool := false
  written : List SessionMsg := []
  forwarded : List Nat := []
  deriving DecidableEq, Repr

/-- A request is forwarded on the connection, or the connection is writable and the first
`count` messages of its queue are written. -/
inductive SessionEvent where
  | forward (id : Nat)
  | writable (count : Nat)
  deriving DecidableEq, Repr

namespace Session

variable (pool : SessionPool)

/-- `server_connect`: the connect succeeds at once or is in progress. -/
def start (immediate : Bool) : Session :=
  { connecting := !immediate }

/-- `redis_add_auth`, which fails if the text does not fit an mbuf. -/
def addAuth (s : Session) (password : Bytes) : Option Session :=
  if (authText password).length < pool.room then
    some { s with imsgq := s.imsgq ++ [.auth (authText password)], authenticated := true }
  else none

/-- `conn_authenticated` and the call of `add_auth` in `req_forward`. -/
def authenticate (s : Session) : Option Session :=
  match pool.redisAuth with
  | some password => if s.authenticated then some s else s.addAuth pool password
  | none => some s

/-- The enqueueing part of `req_forward`. -/
def forward (s : Session) (id : Nat) : Session :=
  match s.authenticate pool with
  | some s => { s with imsgq := s.imsgq ++ [.request id], forwarded := s.forwarded ++ [id] }
  -- req_forward_error
  | none => s

/-- `redis_post_connect`. -/
def postConnect (s : Session) : Session :=
  if pool.redisDb ≤ 0 then s
  else { s with imsgq := .select (selectText pool.redisDb.toNat) :: s.imsgq }

/-- `server_connected`, which `req_send_next` calls on a connection in progress. -/
def connected (s : Session) : Session :=
  if s.connecting then postConnect pool { s with connecting := false } else s

/-- `msg_send` writes messages from the head of the queue. -/
def send (s : Session) (count : Nat) : Session :=
  { s with imsgq := s.imsgq.drop count, written := s.written ++ s.imsgq.take count }

/-- One event on the connection. -/
def step (s : Session) : SessionEvent → Session
  | .forward id => s.forward pool id
  | .writable count => (s.connected pool).send count

/-- The messages that set up a session: AUTH, then SELECT. -/
def setup : List SessionMsg :=
  (match pool.redisAuth with
    | some password => [.auth (authText password)]
    | none => []) ++
  if pool.redisDb ≤ 0 then [] else [.select (selectText pool.redisDb.toNat)]

/-- The messages written are the set-up and then the requests in the order they were forwarded,
and all of them once the queue of a complete connection that was used is empty. -/
def InOrder (s : Session) : Prop :=
  s.written <+: setup pool ++ s.forwarded.map .request ∧
    (s.imsgq = [] → s.connecting = false → s.forwarded ≠ [] →
      s.written = setup pool ++ s.forwarded.map .request)

instance (s : Session) : Decidable (s.InOrder pool) :=
  inferInstanceAs (Decidable (_ ∧ _))

end Session

/-- The announced length of the database number is its number of digits. -/
theorem selectText_eq (db : Nat) :
    selectText db = frame (decimal 2)
      [(decimal 6, "SELECT".toList.map byteOf), (decimal (decimal db).length, decimal db)] := by
  have small : (if db ≥ 10 then Nat.log 10 db + 1 else 1) = Nat.log 10 db + 1 := by
    split
    · rfl
    · rw [Nat.log_of_lt (by omega)]
  have digits : Nat.log 10 db + 1 = (decimal db).length := by
    apply Nat.le_antisymm
    · rcases Nat.eq_zero_or_pos db with rfl | positive
      · decide
      · have nonempty := List.length_pos_of_ne_nil (decimal_ne_nil db)
        rw [decimal, List.length_map] at nonempty ⊢
        exact Nat.log_lt_of_lt_pow positive.ne'
          ((Nat.length_toDigits_le_iff (by decide) nonempty).mp le_rfl)
    · exact length_decimal_le (Nat.succ_pos _) (Nat.lt_pow_succ_log_self (by decide) db)
  rw [selectText, small, digits]

namespace Session

variable {pool : SessionPool}

theorem send_stream (s : Session) (count : Nat) :
    (s.send count).written ++ (s.send count).imsgq = s.written ++ s.imsgq := by
  simp [send, List.append_assoc]

theorem InOrder.of_stream {s : Session}
    (stream : s.written ++ s.imsgq = setup pool ++ s.forwarded.map .request) :
    s.InOrder pool := by
  refine ⟨⟨s.imsgq, stream⟩, fun empty _ _ => ?_⟩
  rwa [empty, List.append_nil] at stream

/-! ### No database -/

/-- What is written and queued is nothing before the first request is forwarded, and then AUTH,
if there is a password, and the requests. -/
structure Lazy (pool : SessionPool) (s : Session) : Prop where
  unused : s.forwarded = [] → s.written ++ s.imsgq = []
  used : s.forwarded ≠ [] → s.written ++ s.imsgq = setup pool ++ s.forwarded.map .request
  authenticated : pool.redisAuth ≠ none → (s.authenticated = true ↔ s.forwarded ≠ [])

/-- What `add_auth` leaves where it succeeds. -/
theorem authenticate_eq {s s' : Session} (success : s.authenticate pool = some s') :
    s'.forwarded = s.forwarded ∧ (pool.redisAuth ≠ none → s'.authenticated = true) ∧
      (s' = s ∧ (pool.redisAuth = none ∨ s.authenticated = true) ∨
        s.authenticated = false ∧ ∃ password, pool.redisAuth = some password ∧
          s' = { s with
            imsgq := s.imsgq ++ [.auth (authText password)], authenticated := true }) := by
  unfold Session.authenticate at success
  split at success
  · rename_i password text
    split at success
    · rename_i set
      cases success
      exact ⟨rfl, fun _ => set, Or.inl ⟨rfl, Or.inr set⟩⟩
    · rename_i unset
      unfold addAuth at success
      split at success
      · cases success
        exact ⟨rfl, fun _ => rfl, Or.inr ⟨by simpa using unset, password, text, rfl⟩⟩
      · cases success
  · rename_i absent
    cases success
    exact ⟨rfl, fun some => absurd absent some, Or.inl ⟨rfl, Or.inl absent⟩⟩

theorem Lazy.authenticate {s s' : Session} (lazy_ : s.Lazy pool) (none : pool.redisDb ≤ 0)
    (success : s.authenticate pool = some s') :
    s'.written ++ s'.imsgq = setup pool ++ s.forwarded.map .request := by
  rcases (authenticate_eq success).2.2 with ⟨rfl, case_⟩ | ⟨unset, password, text, rfl⟩
  · by_cases unused : s'.forwarded = []
    · have absent : pool.redisAuth = .none := by
        by_contra password
        have flag := lazy_.authenticated password
        rw [case_.resolve_left password] at flag
        exact flag.mp rfl unused
      rw [lazy_.unused unused, unused]
      simp [setup, absent, none]
    · exact lazy_.used unused
  · have flag := lazy_.authenticated (by simp [text])
    have unused : s.forwarded = [] := by simpa [unset] using flag
    have empty := lazy_.unused unused
    simp only [← List.append_assoc, empty, unused]
    simp [setup, text, none]

theorem Lazy.step {s : Session} (lazy_ : s.Lazy pool) (none : pool.redisDb ≤ 0)
    (e : SessionEvent) : (s.step pool e).Lazy pool := by
  cases e with
  | forward id =>
    cases success : s.authenticate pool with
    | none => simpa only [Session.step, forward, success] using lazy_
    | some s' =>
      have stream := lazy_.authenticate none success
      obtain ⟨same, set, -⟩ := authenticate_eq success
      simp only [Session.step, forward, success]
      refine ⟨fun empty => ?_, fun _ => ?_, fun password => ?_⟩
      · simp at empty
      · simp only [same, List.map_append, ← List.append_assoc, stream]
        rfl
      · simp [set password]
  | writable count =>
    have idle : (s.connected pool).written = s.written ∧ (s.connected pool).imsgq = s.imsgq ∧
        (s.connected pool).forwarded = s.forwarded ∧
        (s.connected pool).authenticated = s.authenticated := by
      simp only [connected, postConnect, if_pos none]
      split <;> exact ⟨rfl, rfl, rfl, rfl⟩
    have stream := (s.connected pool).send_stream count
    rw [idle.1, idle.2.1] at stream
    have forwarded : (s.step pool (.writable count)).forwarded = s.forwarded := idle.2.2.1
    have flag : (s.step pool (.writable count)).authenticated = s.authenticated := idle.2.2.2
    refine ⟨fun empty => ?_, fun some => ?_, fun password => ?_⟩
    · exact stream.trans (lazy_.unused (forwarded ▸ empty))
    · rw [forwarded] at some ⊢
      exact stream.trans (lazy_.used some)
    · rw [flag, forwarded]
      exact lazy_.authenticated password

theorem inOrder_of_no_database (none : pool.redisDb ≤ 0) (immediate : Bool)
    (events : List SessionEvent) :
    (events.foldl (Session.step pool) (start immediate)).InOrder pool := by
  have lazy_ : (events.foldl (Session.step pool) (start immediate)).Lazy pool := by
    induction events using List.reverseRecOn with
    | nil => exact ⟨fun _ => rfl, fun some => absurd rfl some, by simp [start]⟩
    | append_singleton events e ih =>
      rw [List.foldl_append]
      exact ih.step none e
  by_cases used : (events.foldl (Session.step pool) (start immediate)).forwarded = []
  · have empty := List.append_eq_nil_iff.mp (lazy_.unused used)
    exact ⟨empty.1 ▸ List.nil_prefix, fun _ _ some => absurd used some⟩
  · exact .of_stream (lazy_.used used)

/-! ### A database, no password, and a connect in progress -/

/-- Requests wait while the connect is in progress; SELECT goes in front of them. -/
def Selecting (pool : SessionPool) (s : Session) : Prop :=
  if s.connecting then s.written = [] ∧ s.imsgq = s.forwarded.map .request
  else s.written ++ s.imsgq = setup pool ++ s.forwarded.map .request

theorem Selecting.step {s : Session} (selecting : s.Selecting pool)
    (password : pool.redisAuth = none) (database : 0 < pool.redisDb) (e : SessionEvent) :
    (s.step pool e).Selecting pool := by
  have setup_eq : setup pool = [.select (selectText pool.redisDb.toNat)] := by
    simp [setup, password, Int.not_le.mpr database]
  cases e with
  | forward id =>
    have same : s.authenticate pool = some s := by simp [Session.authenticate, password]
    simp only [Session.step, forward, same, Selecting] at selecting ⊢
    split
    · rename_i waiting
      rw [if_pos waiting] at selecting
      exact ⟨selecting.1, by rw [selecting.2, List.map_append]; rfl⟩
    · rename_i complete
      rw [if_neg complete] at selecting
      rw [← List.append_assoc, selecting, List.map_append, List.append_assoc]
      rfl
  | writable count =>
    have stream : (s.connected pool).written ++ (s.connected pool).imsgq =
        setup pool ++ s.forwarded.map .request := by
      unfold connected
      unfold Selecting at selecting
      split
      · rename_i waiting
        rw [if_pos waiting] at selecting
        simp [postConnect, Int.not_le.mpr database, selecting, setup_eq]
      · rename_i complete
        rwa [if_neg complete] at selecting
    have complete : (s.connected pool).connecting = false ∧
        (s.connected pool).forwarded = s.forwarded := by
      unfold connected postConnect
      split
      · split <;> exact ⟨rfl, rfl⟩
      · rename_i complete
        exact ⟨by simpa using complete, rfl⟩
    have sent := (s.connected pool).send_stream count
    have off : ¬(s.step pool (.writable count)).connecting = true := by
      rw [show (s.step pool (.writable count)).connecting = false from complete.1]
      decide
    have forwarded : (s.step pool (.writable count)).forwarded = s.forwarded := complete.2
    rw [Selecting, if_neg off, forwarded]
    exact sent.trans stream

theorem inOrder_of_connect_in_progress (password : pool.redisAuth = none)
    (database : 0 < pool.redisDb) (events : List SessionEvent) :
    (events.foldl (Session.step pool) (start false)).InOrder pool := by
  have selecting : (events.foldl (Session.step pool) (start false)).Selecting pool := by
    induction events using List.reverseRecOn with
    | nil => exact ⟨rfl, rfl⟩
    | append_singleton events e ih =>
      rw [List.foldl_append]
      exact ih.step password database e
  unfold Selecting at selecting
  split at selecting
  · rename_i waiting
    exact ⟨selecting.1 ▸ List.nil_prefix, fun _ complete _ => by simp [waiting] at complete⟩
  · exact .of_stream selecting

/-! ### The other cases -/

/-- One request that is forwarded and written with everything before it. -/
theorem not_inOrder (database : 0 < pool.redisDb) {immediate : Bool}
    (case_ : pool.redisAuth ≠ none ∨ immediate = true) (loud : immediate = true → ¬pool.Mute) :
    ¬(([.forward 0, .writable 3].foldl (Session.step pool) (start immediate)).InOrder pool) := by
  have due := Int.not_le.mpr database
  intro inOrder
  have front := inOrder.1
  cases password : pool.redisAuth with
  | none =>
    have now : immediate = true := case_.resolve_left (by simp [password])
    subst now
    simp [Session.step, forward, Session.authenticate, password, start, connected, send, setup,
      due] at front
  | some text =>
    by_cases fits : (authText text).length < pool.room
    · cases immediate with
      | true =>
        simp [Session.step, forward, Session.authenticate, password, start, connected, send,
          setup, due, addAuth, fits] at front
      | false =>
        simp [Session.step, forward, Session.authenticate, password, start, connected, send,
          setup, due, addAuth, fits, postConnect] at front
    · cases immediate with
      | true => exact loud rfl ⟨text, password, Nat.le_of_not_lt fits⟩
      | false =>
        simp [Session.step, forward, Session.authenticate, password, start, connected, send,
          setup, due, addAuth, fits, postConnect] at front

/-- Where no AUTH message can be built, every request is refused. -/
theorem inOrder_of_mute (mute : pool.Mute) (events : List SessionEvent) :
    (events.foldl (Session.step pool) (start true)).InOrder pool := by
  obtain ⟨password, text, long⟩ := mute
  have idle : events.foldl (Session.step pool) (start true) = start true := by
    induction events with
    | nil => rfl
    | cons e events ih =>
      rw [List.foldl_cons]
      cases e with
      | forward id =>
        have refused : (start true).authenticate pool = none := by
          simp [Session.authenticate, text, start, addAuth, Nat.not_lt.mpr long]
        rwa [Session.step, forward, refused]
      | writable count =>
        have same : (start true).step pool (.writable count) = start true := by
          simp [Session.step, connected, start, send]
        rwa [same]
  rw [idle]
  exact ⟨List.nil_prefix, fun _ _ used => absurd rfl used⟩

end Session

/-- A session is set up in order, whatever the interleaving, exactly when no database is to be
selected, or there is no password and the connect does not succeed at once, or the connect does and
every request is refused. -/
theorem session_inOrder_iff (pool : SessionPool) (immediate : Bool) :
    (∀ events : List SessionEvent,
        (events.foldl (Session.step pool) (Session.start immediate)).InOrder pool) ↔
      pool.redisDb ≤ 0 ∨ (pool.redisAuth = none ∧ immediate = false) ∨
        (immediate = true ∧ pool.Mute) := by
  constructor
  · intro inOrder
    by_contra other
    push Not at other
    obtain ⟨database, other, loud⟩ := other
    refine Session.not_inOrder database ?_ loud (inOrder _)
    by_cases password : pool.redisAuth = none
    · exact Or.inr (by simpa using other password)
    · exact Or.inl password
  · rintro (none | ⟨password, rfl⟩ | ⟨rfl, mute⟩) events
    · exact Session.inOrder_of_no_database none immediate events
    · by_cases none : pool.redisDb ≤ 0
      · exact Session.inOrder_of_no_database none false events
      · exact Session.inOrder_of_connect_in_progress password (Int.not_le.mp none) events
    · exact Session.inOrder_of_mute mute events

/-- With a password and a database, SELECT is written before AUTH. -/
theorem session_select_before_auth :
    ¬(([.forward 7, .writable 3].foldl (Session.step ⟨some [112, 119], 3, 464⟩)
      (Session.start false)).InOrder ⟨some [112, 119], 3, 464⟩) := by
  decide

/-! ## Every interleaving -/

namespace Session

variable {pool : SessionPool} {immediate : Bool} {s : Session}

/-- What is written and queued: AUTH, with the first request and if there is a password, and the
requests in their order, and somewhere between them one SELECT, if a database is to be selected
and a connect that was in progress is complete. -/
structure Streams (pool : SessionPool) (immediate : Bool) (s : Session) : Prop where
  others : (s.written ++ s.imsgq).filter (· ≠ .select (selectText pool.redisDb.toNat)) =
    if s.forwarded = [] then [] else
      pool.redisAuth.toList.map (fun password => .auth (authText password)) ++
        s.forwarded.map .request
  selects : (s.written ++ s.imsgq).count (.select (selectText pool.redisDb.toNat)) =
    if 0 < pool.redisDb ∧ immediate = false ∧ s.connecting = false then 1 else 0
  authenticated : s.authenticated = (pool.redisAuth.isSome && s.forwarded ≠ [])
  connecting : s.connecting = true → immediate = false

theorem Streams.forward (streams : s.Streams pool immediate) (id : Nat) :
    (s.forward pool id).Streams pool immediate := by
  cases success : s.authenticate pool with
  | none => simpa only [Session.forward, success] using streams
  | some s' =>
    obtain ⟨others, selects, authenticated, connecting⟩ := streams
    simp only [Session.forward, success]
    rcases (authenticate_eq success).2.2 with ⟨rfl, case_⟩ | ⟨unset, password, text, rfl⟩
    · rcases case_ with absent | set
      · constructor <;> simp_all [← List.append_assoc]
      · constructor <;> simp_all [← List.append_assoc]
    · -- AUTH is queued with the first request only
      constructor <;> simp_all [← List.append_assoc, -List.filter_eq_nil_iff]

theorem Streams.connected (streams : s.Streams pool immediate) :
    (s.connected pool).Streams pool immediate := by
  obtain ⟨others, selects, authenticated, connecting⟩ := streams
  rw [Session.connected]
  split
  · rw [postConnect]
    split <;> constructor <;> simp_all
  · exact ⟨others, selects, authenticated, connecting⟩

theorem Streams.send (streams : s.Streams pool immediate) (count : Nat) :
    (s.send count).Streams pool immediate := by
  obtain ⟨others, selects, authenticated, connecting⟩ := streams
  rw [← s.send_stream count] at others selects
  exact ⟨others, selects, authenticated, connecting⟩

end Session

/-- Whatever the interleaving, no message on a server connection is lost, doubled or overtaken, but
for SELECT, which has the length that it announces. -/
theorem session_streams (pool : SessionPool) (immediate : Bool) (events : List SessionEvent) :
    (events.foldl (Session.step pool) (Session.start immediate)).Streams pool immediate ∧
      ∀ db, selectText db = frame (decimal 2)
        [(decimal 6, "SELECT".toList.map byteOf), (decimal (decimal db).length, decimal db)] := by
  refine ⟨?_, selectText_eq⟩
  induction events using List.reverseRecOn with
  | nil => constructor <;> cases immediate <;> simp [Session.start]
  | append_singleton events e ih =>
    rw [List.foldl_append]
    cases e with
    | forward id => exact ih.forward id
    | writable count => exact ih.connected.send count

end Nutcracker
