import Mathlib.Algebra.BigOperators.Group.List.Basic
import Nutcracker.Redis.Auth
import Nutcracker.Redis.Mbufs
import Nutcracker.Redis.RoundTrip

/-!
# Pipelines of commands

From the bytes of a client to the decisions of the authentication gate.  However the bytes of
some commands are cut into reads, the receive driver completes a message for each command up to
a quit, and the gate treats these messages as it is to treat the commands.
-/

namespace Nutcracker

open Lib

/-- A command that the proxy takes, with a name and keys that fit an mbuf.  Script commands are left
out: what says how many keys they have may be lost between two mbufs. -/
structure Command (dataSize : Nat) where
  name : Bytes
  args : List Bytes
  cls : ArgClass
  known : argClass (redisCommand name name.length) = some cls
  plain : cls ≠ .argeval
  accepts : cls.Accepts args
  inside : ∀ text ∈ name :: cls.keyArgs args, text.length < dataSize
  short : (encodeRequest (name :: args)).length < word32

namespace Command

variable {dataSize : Nat}

/-- What the client sends. -/
def encode (c : Command dataSize) : Bytes :=
  encodeRequest (c.name :: c.args)

/-- The request that the gate is to see. -/
def req (c : Command dataSize) : ClientReq :=
  { type := redisCommand c.name c.name.length
    keys := c.cls.keyArgs c.args
    length := c.encode.length }

theorem encode_eq_frame (c : Command dataSize) :
    c.encode = frame (decimal (c.args.length + 1))
      ((c.name :: c.args).map fun text => (decimal text.length, text)) := by
  rw [encode, encodeRequest, frame, List.flatMap_map, List.length_cons]
  rfl

/-- A text is shorter than the command that it is in. -/
theorem length_lt_word32 (c : Command dataSize) {text : Bytes} (member : text ∈ c.name :: c.args) :
    text.length < word32 := by
  refine Nat.lt_of_le_of_lt ?_ c.short
  obtain ⟨before, behind, split⟩ := List.append_of_mem member
  rw [encodeRequest, split]
  simp [Reading.bulk, frameArg]
  omega

theorem length_args_lt_word32 (c : Command dataSize) : c.args.length + 1 < word32 := by
  have each (texts : List Bytes) : texts.length ≤ (texts.flatMap Reading.bulk).length := by
    rw [List.length_flatMap]
    refine List.length_map _ ▸ List.length_le_sum_of_one_le _ ?_
    simp [Reading.bulk, frameArg]
  have short := c.short
  rw [encodeRequest, List.length_append] at short
  exact Nat.lt_of_le_of_lt (Nat.le_trans (each (c.name :: c.args)) (Nat.le_add_left _ _)) short

theorem mlen_req_ne_zero (c : Command dataSize) : c.req.mlen ≠ 0 := by
  change c.encode.length % word32 ≠ 0
  rw [encode, Nat.mod_eq_of_lt c.short, encodeRequest]
  simp

/-- The driver completes the command and goes on with what follows. -/
theorem readBytes_encode (c : Command dataSize) (large : 464 ≤ dataSize) :
    ∃ m : Msg ReqState, ClientReq.ofMsg m = c.req ∧
      ∀ ys, ({} : Receiver ReqState).readBytes redisReqParser dataSize (c.encode ++ ys) =
        if m.quit then { completed := [m], status := .eof }
        else (({} : Receiver ReqState).readBytes redisReqParser dataSize ys).after [m] := by
  obtain ⟨t, done, type, keys⟩ := run_encodeRequest c.known c.accepts
    c.length_args_lt_word32 (c.length_lt_word32 List.mem_cons_self)
    (fun arg member => c.length_lt_word32 (List.mem_cons_of_mem _ member))
    (fun key member => c.inside key (List.mem_cons_of_mem _ member)) []
  rw [List.append_nil, ← encode, c.encode_eq_frame] at done
  have digits {n : Nat} (word : n < word32) : (decimal n).length + 1 < dataSize := by
    have : (decimal n).length ≤ 10 := length_decimal_le (by decide) (word.trans (by decide))
    omega
  have delimited : ∀ arg ∈ (c.name :: c.args).map fun text => (decimal text.length, text),
      Reading.Delimited arg ∧ arg.1.length + 1 < dataSize := by
    intro arg member
    obtain ⟨text, listed, rfl⟩ := List.mem_map.mp member
    have word := c.length_lt_word32 listed
    exact ⟨⟨digits_decimal _, (wordVal_decimal word).symm⟩, digits word⟩
  have other : redisArgeval (redisCommand c.name c.name.length) = false := by
    rw [redisArgeval_eq, c.known]
    simpa using c.plain
  obtain ⟨t', u, placed, type', keys'⟩ := (Placed.run_frame (digits_decimal _)
    (digits c.length_args_lt_word32) delimited
    (by rintro _ ⟨⟩; exact c.inside _ List.mem_cons_self) done).1
    (Placed.numKeysKept_of_not_eval other)
  rw [← c.encode_eq_frame] at placed
  obtain ⟨m, bytes, -, ⟨⟨typed, keyed⟩, -⟩, -, read⟩ :=
    (redisReqMachine dataSize).readBytes_message (by omega) c.mlen_req_ne_zero placed
  refine ⟨m, ?_, read⟩
  have keyList : m.keyList = c.cls.keyArgs c.args := (keyed.trans keys').trans keys
  rw [ClientReq.ofMsg, req, bytes, keyList, (typed.trans type').trans type]

/-- The messages that the driver completes are those of the commands, up to a quit. -/
theorem readBytes_encodes (large : 464 ≤ dataSize) (cs : List (Command dataSize))
    (marks : ∀ m ∈ (({} : Receiver ReqState).readBytes redisReqParser dataSize
      (cs.flatMap encode)).completed, (ClientReq.ofMsg m).quit = m.quit) :
    let completed := (({} : Receiver ReqState).readBytes redisReqParser dataSize
      (cs.flatMap encode)).completed
    (∀ m ∈ completed, ∃ c ∈ cs, ClientReq.ofMsg m = c.req) ∧
      (completed.map ClientReq.ofMsg).takeWhile (!·.quit) = (cs.map req).takeWhile (!·.quit) := by
  induction cs with
  | nil => exact ⟨fun m member => absurd member List.not_mem_nil, rfl⟩
  | cons c cs ih =>
    obtain ⟨m, first, read⟩ := c.readBytes_encode large
    rw [List.flatMap_cons, read] at marks ⊢
    by_cases quit : m.quit = true
    · rw [if_pos quit] at marks ⊢
      have stops : c.req.quit = true := by
        rw [← first, marks m List.mem_cons_self, quit]
      refine ⟨fun m' member => ⟨c, List.mem_cons_self, ?_⟩, ?_⟩
      · rw [List.mem_singleton.mp member, first]
      · simp [first, stops]
    · rw [if_neg quit] at marks ⊢
      obtain ⟨listed, same⟩ := ih fun m' member => marks m' (List.mem_cons_of_mem m member)
      have goesOn : c.req.quit = false := by
        rw [← first, marks m List.mem_cons_self]
        simpa using quit
      refine ⟨fun m' member => ?_, ?_⟩
      · rcases List.mem_cons.mp member with rfl | later
        · exact ⟨c, List.mem_cons_self, first⟩
        · obtain ⟨c', here, made⟩ := listed m' later
          exact ⟨c', List.mem_cons_of_mem c here, made⟩
      · change ((m :: (Receiver.readBytes _ _ _ _).completed).map ClientReq.ofMsg).takeWhile _ = _
        rw [List.map_cons, List.map_cons, List.takeWhile_cons_of_pos (by simp [first, goesOn]),
          List.takeWhile_cons_of_pos (by simp [goesOn]), first, same]

end Command

/-- However the bytes of some commands are cut into reads, the gate handles the messages that the
driver completes as it is to handle the commands up to a quit.  The marks and lengths by which it
decides are those that the parser and the driver have set. -/
theorem commands_gated {dataSize : Nat} (large : 464 ≤ dataSize) (password : Bytes)
    (recycled : GateConn) (cs : List (Command dataSize)) {reads : List Bytes}
    (stream : reads.flatten = cs.flatMap Command.encode)
    (unwrapped : ParserKind.redisReq.Unwrapped dataSize reads) :
    let received := (({} : Receiver ReqState).receive (msgParse redisReqParser dataSize)
      redisReqParser dataSize reads).completed
    let conn := (received.map ClientReq.ofMsg).foldl (GateConn.recvDone (some password))
      recycled.get
    (∀ m ∈ received, (ClientReq.ofMsg m).quit = m.quit ∧
        (ClientReq.ofMsg m).noforward = m.noforward ∧ (ClientReq.ofMsg m).mlen = m.mlen) ∧
      conn.err = false ∧
      conn.enqueued = handlings password [] ((cs.map Command.req).takeWhile (!·.quit)) := by
  intro received conn
  have agrees :
      Receiver.receive (msgParse redisReqParser dataSize) redisReqParser dataSize {} reads =
      Receiver.receive (msgParseBytes redisReqParser dataSize) redisReqParser dataSize {} reads :=
    Receiver.receive_unwrapped unwrapped
  have completed := congrArg Receiver.completed
    (Receiver.receive_settled (by omega) (Receiver.sound_new (redisReqLawful dataSize)) :
      (Receiver.receive _ redisReqParser dataSize {} reads).settled redisReqParser dataSize = _)
  rw [Receiver.completed_settled, Receiver.completed_settled, ← agrees, stream] at completed
  have marked := fun m member => @ofMsg_received dataSize reads m member
  obtain ⟨listed, same⟩ := Command.readBytes_encodes large cs fun m member =>
    (marked m (by rwa [completed])).1
  rw [← completed] at listed same
  have counted : ∀ r ∈ received.map ClientReq.ofMsg, r.mlen ≠ 0 := by
    intro r member
    obtain ⟨m, here, rfl⟩ := List.mem_map.mp member
    obtain ⟨c, -, made⟩ := listed m here
    rw [made]
    exact c.mlen_req_ne_zero
  have start : recycled.get.Open password [] := ⟨rfl, rfl, rfl⟩
  obtain ⟨err, enqueued⟩ := start.run fun r member => counted r (List.mem_of_mem_take member)
  exact ⟨marked, err, enqueued.trans (by rw [same]; rfl)⟩

/-- A request before the password and one behind it, in two reads. -/
theorem commands_gated_session :
    let get : Command 464 := ⟨['g', 'e', 't'].map byteOf, [[107]], .arg0, by decide, by decide,
      rfl, by decide, by decide⟩
    let auth : Command 464 := ⟨"AUTH".toList.map byteOf, [[112]], .arg0, by decide, by decide,
      rfl, by decide, by decide⟩
    let stream := [get, auth, get].flatMap Command.encode
    let received := (({} : Receiver ReqState).receive (msgParse redisReqParser 464) redisReqParser
      464 [stream.take 30, stream.drop 30]).completed
    ((received.map ClientReq.ofMsg).foldl (GateConn.recvDone (some [112]))
        (GateConn.get ⟨true, true, true, []⟩)).enqueued =
      [(get.req, .answered RspString.authRequired.text), (auth.req, .answered RspString.ok.text),
        (get.req, .forwarded)] := by
  intro get auth stream received
  exact (commands_gated (by decide) [112] ⟨true, true, true, []⟩ [get, auth, get]
    (by decide) (by decide +kernel)).2.2.trans (by decide)

end Nutcracker
