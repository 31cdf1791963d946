import Nutcracker.Message.Invariant
import Nutcracker.Message.Segmentation
import Nutcracker.Redis.Framing

/-!
# The authentication gate

In a redis pool with a password, a client has to authenticate before its requests are
forwarded.  The decision is spread over the parser, which marks the requests that are
never forwarded; the filter, which marks every request of a client that is not
authenticated; and `redis_reply`, which answers the marked requests and keeps the
state of the connection.

A message can be allocated whenever one is needed.
-/

namespace Nutcracker

open Lib

/-! ## Requests -/

/-- A complete request of a client, with the number of its bytes. -/
structure ClientReq where
  type : MsgType
  keys : List Bytes
  length : Nat
  deriving DecidableEq, Repr

namespace ClientReq

/-- `mlen`, a `uint32_t`. -/
def mlen (r : ClientReq) : Nat :=
  r.length % word32

/-- The mark that `redis_parse_req` sets on a request to quit. -/
def quit (r : ClientReq) : Bool :=
  r.type == .reqRedisQuit

/-- The mark that `redis_parse_req` sets on a request that is never forwarded. -/
def noforward (r : ClientReq) : Bool :=
  r.type == .reqRedisPing || r.type == .reqRedisAuth

/-- The argument of an AUTH request. -/
def password (r : ClientReq) : Bytes :=
  r.keys.headD []

/-- A message that the driver has completed. -/
def ofMsg (m : Msg ReqState) : ClientReq :=
  { type := m.type, keys := m.keyList, length := m.bytes.length }

end ClientReq

/-! ### The marks of the parser -/

/-- The states in which the command name is not known yet. -/
def ReqState.early : ReqState → Bool
  | .start | .narg | .nargLf | .len .reqType | .lenLf .reqType | .body .reqType => true
  | _ => false

/-- The marks are those of the command. -/
def Marked (s : Scan ReqState) : Prop :=
  s.quit = (s.type == .reqRedisQuit) ∧
    s.noforward = (s.type == .reqRedisPing || s.type == .reqRedisAuth)

/-- While a request is read its marks are those of its command, which is set once. -/
def Marking (s : Scan ReqState) : Prop :=
  Marked s ∧ (s.state.early = true → s.type = .unknown)

/-- An iteration that leaves the command and its marks alone and does not go back. -/
structure Untouched (r s : Scan ReqState) : Prop where
  type : s.type = r.type
  quit : s.quit = r.quit
  noforward : s.noforward = r.noforward
  early : s.state.early = true → r.state.early = true

theorem Untouched.marking {r s : Scan ReqState} (same : Untouched r s) (marking : Marking r) :
    Marking s := by
  refine ⟨⟨?_, ?_⟩, fun early => ?_⟩
  · rw [same.quit, same.type]
    exact marking.1.1
  · rw [same.noforward, same.type]
    exact marking.1.2
  · rw [same.type]
    exact marking.2 (same.early early)

/-- The bytes of an argument other than the command name. -/
theorem slotBody_untouched {i : Nat} {b : Bytes} {slot : ArgSlot} {r s : Scan ReqState}
    {p q : Nat} (named : slot ≠ .reqType)
    (stepEq : slotBody i b slot r p = .next q s) : Untouched r s := by
  have skip : ∀ after : ReqState, after.early = false → skipRlen after b r p = .next q s →
      Untouched r s := by
    intro after late stepEq
    simp only [skipRlen, passOver] at stepEq
    split at stepEq
    · cases stepEq
      exact ⟨rfl, rfl, rfl, id⟩
    · split at stepEq
      · cases stepEq
        exact ⟨rfl, rfl, rfl, fun early => by simp [late] at early⟩
      · cases stepEq
  cases slot with
  | reqType => exact absurd rfl named
  | key =>
    simp only [slotBody, keyBody] at stepEq
    split at stepEq
    · cases stepEq
      exact ⟨rfl, rfl, rfl, id⟩
    · split at stepEq
      · cases stepEq
        exact ⟨rfl, rfl, rfl, fun early => by simp [ReqState.early] at early⟩
      · cases stepEq
  | arg1 => exact skip _ rfl stepEq
  | arg2 =>
    simp only [slotBody, arg2Body] at stepEq
    split at stepEq
    · cases stepEq
      exact ⟨rfl, rfl, rfl, id⟩
    · split at stepEq
      · split at stepEq
        · split at stepEq
          · cases stepEq
          · cases stepEq
            exact ⟨rfl, rfl, rfl, fun early => by simp [ReqState.early] at early⟩
        · cases stepEq
          exact ⟨rfl, rfl, rfl, fun early => by simp [ReqState.early] at early⟩
      · cases stepEq
  | arg3 => exact skip _ rfl stepEq
  | argn => exact skip _ rfl stepEq

/-- The command name sets the command and its marks. -/
theorem reqTypeBody_marking {b : Bytes} {r s : Scan ReqState} {p q : Nat} (marking : Marking r)
    (state : r.state = .body .reqType) (stepEq : reqTypeBody b r p = .next q s) : Marking s := by
  have unknown : r.type = .unknown := marking.2 (by rw [state]; rfl)
  have unset : r.quit = false ∧ r.noforward = false := by
    obtain ⟨quit, noforward⟩ := marking.1
    rw [unknown] at quit noforward
    exact ⟨quit, noforward⟩
  simp only [reqTypeBody] at stepEq
  split at stepEq
  · cases stepEq
    exact marking
  · split at stepEq
    · split at stepEq
      · cases stepEq
      · cases stepEq
        refine ⟨⟨?_, ?_⟩, fun early => by simp [ReqState.early] at early⟩
        · simp [unset.1]
        · simp [unset.2]
    · cases stepEq

/-- One iteration of `redis_parse_req`. -/
theorem redisParseReqStep_marking {dataSize i : Nat} {b : Bytes} {r s : Scan ReqState} {p q : Nat}
    (marking : Marking r) (stepEq : redisParseReqStep dataSize i b r p = .next q s) :
    Marking s := by
  cases state : r.state with
  | start =>
    rw [step_count (.inl state)] at stepEq
    refine Untouched.marking ?_ marking
    obtain ⟨_, ⟨_, _, rfl⟩ | ⟨_, _, _, rfl⟩ | ⟨_, _, _, _, _, rfl⟩⟩ := countLine_next stepEq <;>
      exact ⟨rfl, rfl, rfl, fun _ => by rw [state]; rfl⟩
  | narg =>
    rw [step_count (.inr state)] at stepEq
    refine Untouched.marking ?_ marking
    obtain ⟨_, ⟨_, _, rfl⟩ | ⟨_, _, _, rfl⟩ | ⟨_, _, _, _, _, rfl⟩⟩ := countLine_next stepEq <;>
      exact ⟨rfl, rfl, rfl, fun _ => by rw [state]; rfl⟩
  | nargLf =>
    rw [step_nargLf state] at stepEq
    obtain ⟨_, _, rfl⟩ := lineFeed_next stepEq
    refine Untouched.marking ?_ marking
    exact ⟨rfl, rfl, rfl, fun _ => by rw [state]; rfl⟩
  | len slot =>
    rw [step_len state] at stepEq
    refine Untouched.marking ?_ marking
    obtain ⟨_, ⟨_, _, rfl⟩ | ⟨_, _, _, rfl⟩ | ⟨_, _, _, _, _, _, rfl⟩⟩ := lenLine_next stepEq
    · exact ⟨rfl, rfl, rfl, id⟩
    · exact ⟨rfl, rfl, rfl, id⟩
    · refine ⟨rfl, rfl, rfl, fun early => ?_⟩
      rw [state]
      cases slot <;> simp [ReqState.early] at early ⊢
  | lenLf slot =>
    rw [step_lenLf state] at stepEq
    obtain ⟨_, _, rfl⟩ := lineFeed_next stepEq
    refine Untouched.marking ?_ marking
    refine ⟨rfl, rfl, rfl, fun early => ?_⟩
    rw [state]
    cases slot <;> simp [ReqState.early] at early ⊢
  | body slot =>
    rw [step_body state] at stepEq
    by_cases named : slot = .reqType
    · subst named
      exact reqTypeBody_marking marking state stepEq
    · exact (slotBody_untouched named stepEq).marking marking
  | bodyLf slot =>
    rw [step_bodyLf state] at stepEq
    obtain ⟨_, _, next, route, rfl⟩ := routed_next stepEq
    have named := Reading.ne_reqType_of_goto route
    refine Untouched.marking ?_ marking
    refine ⟨rfl, rfl, rfl, fun early => ?_⟩
    cases next <;> simp_all [ReqState.early]

theorem redisReqParser_keeps : redisReqParser.Keeps Marking Marked where
  start := ⟨⟨rfl, rfl⟩, fun _ => rfl⟩
  restart _ marking := marking
  complete _ _ marked := marked
  step dataSize i b s p marking := by
    change Ends Marking Marked (redisParseReqStep dataSize i b s p)
    cases stepEq : redisParseReqStep dataSize i b s p with
    | next q s' => exact redisParseReqStep_marking marking stepEq
    | stop q s' =>
      obtain ⟨-, rfl, -⟩ := redisParseReqStep_stop stepEq
      exact marking.1
    | fail => trivial

/-- The fields of a request are those of the message that the driver completed. -/
theorem ofMsg_received {dataSize : Nat} {reads : List Bytes} {m : Msg ReqState}
    (received : m ∈ (({} : Receiver ReqState).receive (msgParse redisReqParser dataSize)
      redisReqParser dataSize reads).completed) :
    (ClientReq.ofMsg m).quit = m.quit ∧ (ClientReq.ofMsg m).noforward = m.noforward ∧
      (ClientReq.ofMsg m).mlen = m.mlen := by
  have marked := (redisReqParser_keeps.receive reads).completed m received
  have measured := ((Receiver.receive_measured reads).completed m received).1
  exact ⟨marked.1.symm, marked.2.symm, measured.symm⟩

/-! ## The gate -/

/-- The replies of the proxy, `RSP_STRING`. -/
inductive RspString where
  | ok
  | pong
  | invalidPassword
  | authRequired
  | noPassword
  deriving DecidableEq, Repr

/-- The texts of `RSP_STRING`. -/
def RspString.text : RspString → Bytes
  | ok => "+OK".toList.map byteOf ++ CRLF
  | pong => "+PONG".toList.map byteOf ++ CRLF
  | invalidPassword => "-ERR invalid password".toList.map byteOf ++ CRLF
  | authRequired => "-NOAUTH Authentication required".toList.map byteOf ++ CRLF
  | noPassword => "-ERR Client sent AUTH, but no password is set".toList.map byteOf ++ CRLF

/-- How a request that was not filtered is handled: the proxy answers it, or it goes to
fragmentation and `req_forward`. -/
inductive Handling where
  | answered (reply : Bytes)
  | forwarded
  deriving DecidableEq, Repr

/-- A client connection: the fields the gate uses, and the requests that were enqueued in its
`omsg_q`, in order. -/
structure GateConn where
  authenticated : Bool
  eof : Bool
  err : Bool
  enqueued : List (ClientReq × Handling)
  deriving DecidableEq, Repr

/-- `_conn_get`: the structure is recycled, its fields are set anew. -/
def GateConn.get (_recycled : GateConn) : GateConn :=
  { authenticated := false, eof := false, err := false, enqueued := [] }

namespace GateConn

variable (redisAuth : Option Bytes)

/-- `conn_authenticated`. -/
def isAuthenticated (conn : GateConn) : Bool :=
  redisAuth.isNone || conn.authenticated

/-- `redis_handle_auth_req`: the connection and the reply. -/
def handleAuthReq (conn : GateConn) (r : ClientReq) : GateConn × RspString :=
  match redisAuth with
  | none => (conn, .noPassword)
  | some password =>
    if r.password.length = password.length ∧ r.password = password then
      ({ conn with authenticated := true }, .ok)
    else ({ conn with authenticated := false }, .invalidPassword)

/-- `redis_reply`; no reply is an error. -/
def reply (conn : GateConn) (r : ClientReq) : GateConn × Option RspString :=
  if r.type = .reqRedisAuth then
    let handled := conn.handleAuthReq redisAuth r
    (handled.1, some handled.2)
  else if conn.isAuthenticated redisAuth = false then (conn, some .authRequired)
  else if r.type = .reqRedisPing then (conn, some .pong)
  else (conn, none)

/-- `req_recv_done` on a complete request.  After a quit, `req_recv_next` discards what is
received. -/
def recvDone (conn : GateConn) (r : ClientReq) : GateConn :=
  if conn.eof then conn
  -- `req_filter`
  else if r.mlen = 0 then conn
  else if r.quit then { conn with eof := true }
  else if r.noforward || !conn.isAuthenticated redisAuth then
    match conn.reply redisAuth r with
    | (conn, some reply) =>
      { conn with enqueued := conn.enqueued ++ [(r, .answered reply.text)] }
    | (conn, none) => { conn with err := true }
  else { conn with enqueued := conn.enqueued ++ [(r, .forwarded)] }

end GateConn

/-! ## What the gate is for -/

/-- The most recent AUTH request carried exactly the password. -/
def authorised (password : Bytes) (before : List ClientReq) : Bool :=
  ((before.filter (·.type == .reqRedisAuth)).getLast?).any (·.password == password)

/-- How a request is to be handled after the given ones. -/
def handling (password : Bytes) (before : List ClientReq) (r : ClientReq) : Handling :=
  if r.type = .reqRedisAuth then
    .answered (if r.password = password then RspString.ok else .invalidPassword).text
  else if authorised password before then
    if r.type = .reqRedisPing then .answered RspString.pong.text else .forwarded
  else .answered RspString.authRequired.text

theorem authorised_append (password : Bytes) (before : List ClientReq) (r : ClientReq) :
    authorised password (before ++ [r]) =
      if r.type = .reqRedisAuth then r.password == password else authorised password before := by
  unfold authorised
  split
  · rename_i auth
    rw [List.filter_append, List.filter_cons_of_pos (by simp [auth]), List.filter_nil,
      List.getLast?_concat]
    rfl
  · rename_i other
    rw [List.filter_append, List.filter_cons_of_neg (by simp [other]), List.filter_nil,
      List.append_nil]

/-- The requests with their handling, after the given ones. -/
def handlings (password : Bytes) : List ClientReq → List ClientReq → List (ClientReq × Handling)
  | _, [] => []
  | before, r :: reqs => (r, handling password before r) :: handlings password (before ++ [r]) reqs

theorem getElem?_handlings (password : Bytes) (before reqs : List ClientReq) (i : Nat) :
    (handlings password before reqs)[i]? =
      reqs[i]?.map fun r => (r, handling password (before ++ reqs.take i) r) := by
  induction reqs generalizing before i with
  | nil => simp [handlings]
  | cons r reqs ih =>
    cases i with
    | zero => simp [handlings]
    | succ i => simp [handlings, ih, List.append_assoc]

namespace GateConn

variable {password : Bytes} {conn : GateConn} {before : List ClientReq} {r : ClientReq}

/-- The connection is open and authenticated according to the requests so far. -/
structure Open (password : Bytes) (conn : GateConn) (before : List ClientReq) : Prop where
  eof : conn.eof = false
  err : conn.err = false
  authenticated : conn.authenticated = authorised password before

/-- A request that is not a quit is handled as it is to be. -/
theorem Open.recvDone (here : conn.Open password before) (counted : r.mlen ≠ 0)
    (stays : r.quit = false) :
    (conn.recvDone (some password) r).Open password (before ++ [r]) ∧
      (conn.recvDone (some password) r).enqueued =
        conn.enqueued ++ [(r, handling password before r)] := by
  have next := authorised_append password before r
  have flag : conn.isAuthenticated (some password) = authorised password before :=
    here.authenticated
  by_cases auth : r.type = .reqRedisAuth
  · rw [if_pos auth] at next
    by_cases same : r.password = password
    · have step : conn.recvDone (some password) r =
          { conn with
            authenticated := true
            enqueued := conn.enqueued ++ [(r, .answered RspString.ok.text)] } := by
        simp [GateConn.recvDone, here.eof, counted, stays, ClientReq.noforward, auth, reply,
          handleAuthReq, same]
      rw [step]
      exact ⟨⟨here.eof, here.err, by simp [next, same]⟩, by simp [handling, auth, same]⟩
    · have step : conn.recvDone (some password) r =
          { conn with
            authenticated := false
            enqueued := conn.enqueued ++ [(r, .answered RspString.invalidPassword.text)] } := by
        simp [GateConn.recvDone, here.eof, counted, stays, ClientReq.noforward, auth, reply,
          handleAuthReq, same]
      rw [step]
      exact ⟨⟨here.eof, here.err, by simp [next, same]⟩, by simp [handling, auth, same]⟩
  · rw [if_neg auth] at next
    have kept : ∀ handled, conn.recvDone (some password) r =
        { conn with enqueued := conn.enqueued ++ [(r, handled)] } →
        handled = handling password before r →
        (conn.recvDone (some password) r).Open password (before ++ [r]) ∧
          (conn.recvDone (some password) r).enqueued =
            conn.enqueued ++ [(r, handling password before r)] := by
      rintro handled step rfl
      rw [step]
      exact ⟨⟨here.eof, here.err, by rw [next]; exact here.authenticated⟩, rfl⟩
    cases known : authorised password before with
    | false =>
      refine kept (.answered RspString.authRequired.text) ?_ ?_
      · simp [GateConn.recvDone, here.eof, counted, stays, flag, known, reply, auth]
      · simp [handling, auth, known]
    | true =>
      by_cases ping : r.type = .reqRedisPing
      · refine kept (.answered RspString.pong.text) ?_ ?_
        · simp [GateConn.recvDone, here.eof, counted, stays, flag, known, reply, ping,
            ClientReq.noforward]
        · simp [handling, known, ping]
      · refine kept .forwarded ?_ ?_
        · simp [GateConn.recvDone, here.eof, counted, stays, flag, known, auth, ping,
            ClientReq.noforward]
        · simp [handling, auth, known, ping]

/-- After a quit nothing is processed. -/
theorem foldl_recvDone_eof (closed : conn.eof = true) (reqs : List ClientReq) :
    reqs.foldl (GateConn.recvDone (some password)) conn = conn := by
  induction reqs with
  | nil => rfl
  | cons r reqs ih =>
    rw [List.foldl_cons, show conn.recvDone (some password) r = conn by
      simp [GateConn.recvDone, closed], ih]

theorem Open.run (here : conn.Open password before) {reqs : List ClientReq}
    (counted : ∀ r ∈ reqs.take ((reqs.takeWhile (!·.quit)).length + 1), r.mlen ≠ 0) :
    (reqs.foldl (GateConn.recvDone (some password)) conn).err = false ∧
      (reqs.foldl (GateConn.recvDone (some password)) conn).enqueued =
        conn.enqueued ++ handlings password before (reqs.takeWhile (!·.quit)) := by
  induction reqs generalizing conn before with
  | nil => exact ⟨here.err, by simp [handlings]⟩
  | cons r reqs ih =>
    rw [List.take_succ_cons, List.forall_mem_cons] at counted
    obtain ⟨first, later⟩ := counted
    rw [List.foldl_cons]
    cases quits : r.quit with
    | true =>
      have closed : conn.recvDone (some password) r = { conn with eof := true } := by
        simp [GateConn.recvDone, here.eof, first, quits]
      rw [closed, foldl_recvDone_eof rfl]
      exact ⟨here.err, by simp [quits, handlings]⟩
    | false =>
      rw [List.takeWhile_cons_of_pos (by simp [quits])] at later ⊢
      obtain ⟨there, enqueued⟩ := here.recvDone first quits
      obtain ⟨err, all⟩ := ih there later
      refine ⟨err, ?_⟩
      rw [all, enqueued, handlings, List.append_assoc]
      rfl

end GateConn

theorem handling_eq_forwarded_iff {password : Bytes} {before : List ClientReq} {r : ClientReq} :
    handling password before r = .forwarded ↔
      r.type ≠ .reqRedisAuth ∧ r.type ≠ .reqRedisPing ∧
        ∃ a, (before.filter (·.type == .reqRedisAuth)).getLast? = some a ∧
          a.password = password := by
  have known : authorised password before = true ↔
      ∃ a, (before.filter (·.type == .reqRedisAuth)).getLast? = some a ∧
        a.password = password := by
    simp [authorised, Option.any_eq_true]
  rw [← known]
  unfold handling
  split
  · simp_all
  · split
    · split <;> simp_all
    · simp_all

/-- Requests are enqueued in order up to a quit, each with one handling, if no length up to there is
counted as zero.  A request is forwarded exactly if it is neither AUTH nor PING and the most recent
AUTH before it carried the password; the others are answered by the proxy. -/
theorem gate_handles (password : Bytes) (recycled : GateConn) (reqs : List ClientReq)
    (counted : ∀ r ∈ reqs.take ((reqs.takeWhile (!·.quit)).length + 1), r.mlen ≠ 0) :
    let live := reqs.takeWhile (!·.quit)
    let conn := reqs.foldl (GateConn.recvDone (some password)) recycled.get
    conn.err = false ∧
      (∀ i : Nat, conn.enqueued[i]? =
        live[i]?.map fun r => (r, handling password (live.take i) r)) ∧
      ∀ (i : Nat) (r : ClientReq), conn.enqueued[i]? = some (r, .forwarded) ↔
        live[i]? = some r ∧ r.type ≠ .reqRedisAuth ∧ r.type ≠ .reqRedisPing ∧
          ∃ a, ((live.take i).filter (·.type == .reqRedisAuth)).getLast? = some a ∧
            a.password = password := by
  have start : recycled.get.Open password [] := ⟨rfl, rfl, rfl⟩
  obtain ⟨err, enqueued⟩ := start.run counted
  have entries : ∀ i : Nat,
      (reqs.foldl (GateConn.recvDone (some password)) recycled.get).enqueued[i]? =
        (reqs.takeWhile (!·.quit))[i]?.map fun r =>
          (r, handling password ((reqs.takeWhile (!·.quit)).take i) r) := by
    intro i
    rw [enqueued]
    exact getElem?_handlings password [] _ i
  refine ⟨err, entries, fun i r => ?_⟩
  rw [entries i, Option.map_eq_some_iff]
  constructor
  · rintro ⟨other, found, same⟩
    obtain ⟨rfl, forwarded⟩ := Prod.mk.inj same
    exact ⟨found, handling_eq_forwarded_iff.mp forwarded⟩
  · rintro ⟨found, allowed⟩
    exact ⟨r, found, by rw [handling_eq_forwarded_iff.mpr allowed]⟩

/-- A wrong password, the right one, a request, and one more behind a quit. -/
theorem gate_handles_session :
    let reqs : List ClientReq :=
      [⟨.reqRedisAuth, [[120]], 26⟩, ⟨.reqRedisPing, [], 14⟩, ⟨.reqRedisAuth, [[112]], 26⟩,
        ⟨.reqRedisGet, [[107]], 24⟩, ⟨.reqRedisQuit, [], 14⟩, ⟨.reqRedisGet, [[107]], 24⟩]
    let recycled : GateConn := ⟨true, true, true, []⟩
    let live := reqs.takeWhile (!·.quit)
    let conn := reqs.foldl (GateConn.recvDone (some [112])) recycled.get
    conn.err = false ∧
      (∀ i : Nat, conn.enqueued[i]? =
        live[i]?.map fun r => (r, handling [112] (live.take i) r)) ∧
      ∀ (i : Nat) (r : ClientReq), conn.enqueued[i]? = some (r, .forwarded) ↔
        live[i]? = some r ∧ r.type ≠ .reqRedisAuth ∧ r.type ≠ .reqRedisPing ∧
          ∃ a, ((live.take i).filter (·.type == .reqRedisAuth)).getLast? = some a ∧
            a.password = [112] :=
  gate_handles [112] ⟨true, true, true, []⟩ _ (by decide)

/-- A request of exactly `2 ^ 32` bytes counts as empty: it is neither forwarded nor answered,
although the client is authenticated. -/
theorem gate_drops_wrapped_request :
    let reqs : List ClientReq :=
      [⟨.reqRedisAuth, [[112]], 26⟩, ⟨.reqRedisSet, [[107]], 2 ^ 32⟩]
    let live := reqs.takeWhile (!·.quit)
    let conn := reqs.foldl (GateConn.recvDone (some [112])) (GateConn.get ⟨false, false, false, []⟩)
    conn.enqueued[1]? = none ∧
      (live[1]?.map fun r => handling [112] (live.take 1) r) = some .forwarded := by
  decide

end Nutcracker
