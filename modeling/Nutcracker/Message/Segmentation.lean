import Nutcracker.Message.Call

/-!
# Reads of any size

How a stream is cut into reads makes no difference to what is received.  The heart of
it is `parseAll_append`: reading two pieces into one mbuf is the same as reading them
at once.  Every sequence of reads therefore amounts to one read for each byte.

The driver takes a message for empty if its `mlen` is 0.  This is a `uint32_t` that
wraps around, so the statement about `msg_parse` itself is confined to streams on
which it is never called with a message of such a length.
-/

namespace Nutcracker

open Lib

variable {σ : Type} {P : Parser σ} {dataSize : Nat}

namespace Receiver

variable {conn : Receiver σ} {m : Msg σ}

/-- More fuel than there are bytes makes no difference. -/
theorem parseLoop_fuel (lawful : P.Lawful dataSize) {fuel fuel' : Nat}
    (parsable : lawful.Parsable m) (enough : m.lastBuf.length < fuel)
    (enough' : m.lastBuf.length < fuel') :
    conn.parseLoop (msgParseBytes P dataSize) fuel m =
      conn.parseLoop (msgParseBytes P dataSize) fuel' m := by
  induction fuel generalizing fuel' conn m with
  | zero => cases enough
  | succ fuel ih =>
    cases fuel' with
    | zero => cases enough'
    | succ fuel' =>
      rcases lawful.msgParseBytes_cases parsable with
        ⟨r, pending, _⟩ | ⟨r, completed⟩ | ⟨r, nbuf, completed, shorter⟩ | failed
      · simp only [parseLoop, pending]
      · simp only [parseLoop, completed]
      · have rest := lawful.parsable_ofRest (shorter.le.trans parsable.fits)
        simp only [parseLoop, completed]
        split
        · exact ih rest (by change nbuf.length < _; omega) (by change nbuf.length < _; omega)
        · rfl
      · simp only [parseLoop, failed]

/-- `msg_recv_chain` behind its read, with as much fuel as it needs. -/
def parseAll (P : Parser σ) (dataSize : Nat) (conn : Receiver σ) (msg : Msg σ) : Receiver σ :=
  conn.parseLoop (msgParseBytes P dataSize) (msg.lastBuf.length + 1) msg

section ParseAll

variable (conn)

theorem parseAll_pending {r : Msg σ} (pending : msgParseBytes P dataSize m = .pending r) :
    conn.parseAll P dataSize m = { conn with rmsg := some r } := by
  simp only [parseAll, parseLoop, pending]

theorem parseAll_failed (failed : msgParseBytes P dataSize m = .failed) :
    conn.parseAll P dataSize m = { conn with rmsg := none, status := .error } := by
  simp only [parseAll, parseLoop, failed]

theorem parseAll_exact {r : Msg σ} (completed : msgParseBytes P dataSize m = .completed r none) :
    conn.parseAll P dataSize m = conn.recvDone r none := by
  simp only [parseAll, parseLoop, completed]

theorem parseAll_more (lawful : P.Lawful dataSize) (parsable : lawful.Parsable m) {r : Msg σ}
    {nbuf : Bytes} (completed : msgParseBytes P dataSize m = .completed r (some (.ofRest P nbuf)))
    (shorter : nbuf.length < m.lastBuf.length) :
    conn.parseAll P dataSize m =
      if (conn.recvDone r (some (.ofRest P nbuf))).status = .live then
        (conn.recvDone r (some (.ofRest P nbuf))).parseAll P dataSize (.ofRest P nbuf)
      else conn.recvDone r (some (.ofRest P nbuf)) := by
  have rest := lawful.parsable_ofRest (shorter.le.trans parsable.fits)
  rw [parseAll, parseLoop]
  simp only [completed]
  split
  · exact parseLoop_fuel lawful rest shorter (Nat.lt_succ_self _)
  · rfl

/-- What was under construction before does not matter. -/
theorem parseAll_rmsg (rmsg : Option (Msg σ)) :
    ({ conn with rmsg := rmsg } : Receiver σ).parseAll P dataSize m =
      conn.parseAll P dataSize m := by
  have done : ∀ r n, ({ conn with rmsg := rmsg } : Receiver σ).recvDone r n = conn.recvDone r n :=
    fun r n => rfl
  simp only [parseAll, parseLoop, done]

end ParseAll

/-! ## Reading in two pieces -/

/-- The message under construction, if any, waits for a read. -/
def Sound (lawful : P.Lawful dataSize) (conn : Receiver σ) : Prop :=
  ∀ m, conn.rmsg = some m → lawful.Waiting m

/-- A read of a connection that may have been closed for reading. -/
def read (P : Parser σ) (dataSize : Nat) (conn : Receiver σ) (x : Bytes) : Receiver σ :=
  if conn.status = .live then conn.parseAll P dataSize ((conn.current P dataSize).append x)
  else conn

theorem read_of_not_live {x : Bytes} (closed : conn.status ≠ .live) :
    conn.read P dataSize x = conn :=
  if_neg closed

/-- Two messages that only differ in what the parser has done in an earlier call. -/
theorem parseAll_congr {m' : Msg σ} (buf : m.lastBuf = m'.lastBuf)
    (same : msgParseBytes P dataSize m = msgParseBytes P dataSize m') :
    conn.parseAll P dataSize m = conn.parseAll P dataSize m' := by
  simp only [parseAll, parseLoop, same, buf]

theorem msgParseBytes_congr (lawful : P.Lawful dataSize) {m' : Msg σ} {out : Flow (Scan σ)}
    (parsable : lawful.Parsable m) (parsable' : lawful.Parsable m') (mhdr : m.mhdr = m'.mhdr)
    (mlen : m.mlen = m'.mlen) (loops : P.Loops dataSize m out) (loops' : P.Loops dataSize m' out) :
    msgParseBytes P dataSize m = msgParseBytes P dataSize m' := by
  cases out with
  | next q s =>
    have buf : m.lastBuf = m'.lastBuf := by rw [Msg.lastBuf, mhdr, Msg.lastBuf]
    simp only [msgParseBytes, lawful.parse_eq parsable.good loops,
      lawful.parse_eq parsable'.good loops', Parser.conclude, mhdr, mlen, buf]
  | stop q s =>
    simp only [msgParseBytes, lawful.parse_eq parsable.good loops,
      lawful.parse_eq parsable'.good loops', Parser.conclude, mhdr, mlen]
  | fail =>
    rw [lawful.msgParseBytes_fail parsable loops, lawful.msgParseBytes_fail parsable' loops']

/-- A call that was suspended is taken up where it stopped. -/
theorem msgParseBytes_suspended (lawful : P.Lawful dataSize) {y : Bytes} {q : Nat} {s : Scan σ}
    (parsable : lawful.Parsable m) (nonempty : y ≠ [])
    (fits : m.lastBuf.length + y.length ≤ dataSize) (loops : P.Loops dataSize m (.next q s)) :
    msgParseBytes P dataSize (m.append y) =
      msgParseBytes P dataSize ((Parser.Lawful.suspended m s).append y) := by
  obtain ⟨rfl, good⟩ := lawful.loops_next parsable loops
  have parsable' : lawful.Parsable (Parser.Lawful.suspended m s) :=
    ⟨parsable.chain, parsable.fits, Nat.le_refl _, good, parsable.mlen⟩
  obtain ⟨out, again, _⟩ := lawful.exists_loops (parsable'.append fits).good
  refine msgParseBytes_congr lawful (parsable.append fits) (parsable'.append fits) rfl rfl ?_ again
  have index : (m.append y).mhdr.length - 1 = m.mhdr.length - 1 := by
    rw [Msg.length_mhdr_append parsable.chain]
  unfold Parser.Loops at loops again ⊢
  rw [Msg.length_mhdr_append parsable'.chain, Msg.lastBuf_append] at again
  rw [index, Msg.lastBuf_append]
  exact (lawful.resumable _).runs_resume nonempty loops again

theorem recvDone_eq (live : conn.status = .live) (r : Msg σ) (nmsg : Option (Msg σ)) :
    conn.recvDone r nmsg =
      if (conn.recvDone r none).status = .live then { conn.recvDone r none with rmsg := nmsg }
      else conn.recvDone r none := by
  unfold recvDone
  split
  · simp [live]
  · split
    · simp
    · simp [live]

theorem recvDone_rmsg (r : Msg σ) : (conn.recvDone r none).rmsg = none := by
  unfold recvDone
  split
  · rfl
  · split <;> rfl

/-- What follows the completion of a message. -/
theorem parseAll_completed (lawful : P.Lawful dataSize) {r : Msg σ} {left : Bytes}
    (live : conn.status = .live) (parsable : lawful.Parsable m)
    (completed : msgParseBytes P dataSize m = .completed r (Parser.Lawful.rest P left))
    (shorter : left.length < m.lastBuf.length) :
    conn.parseAll P dataSize m =
      if (conn.recvDone r none).status = .live ∧ left ≠ [] then
        (conn.recvDone r none).parseAll P dataSize (.ofRest P left)
      else conn.recvDone r none := by
  by_cases empty : left = []
  · rw [Parser.Lawful.rest, if_pos empty] at completed
    rw [conn.parseAll_exact completed, if_neg fun both => both.2 empty]
  · rw [Parser.Lawful.rest, if_neg empty] at completed
    rw [conn.parseAll_more lawful parsable completed shorter, recvDone_eq live r (some _)]
    by_cases goesOn : (conn.recvDone r none).status = .live
    · rw [if_pos goesOn, if_pos goesOn, parseAll_rmsg, if_pos ⟨goesOn, empty⟩]
    · rw [if_neg goesOn, if_neg goesOn, if_neg fun both => goesOn both.1]

/-- Reading in two pieces that go to one mbuf is reading at once. -/
theorem parseAll_append (lawful : P.Lawful dataSize) (live : conn.status = .live) {y : Bytes}
    (parsable : lawful.Parsable m) (nonempty : y ≠ [])
    (fits : m.lastBuf.length + y.length ≤ dataSize) :
    conn.parseAll P dataSize (m.append y) = (conn.parseAll P dataSize m).read P dataSize y := by
  induction size : m.lastBuf.length using Nat.strong_induction_on generalizing m conn with
  | _ size ih =>
  subst size
  obtain ⟨out, loops, _⟩ := lawful.exists_loops parsable.good
  have room := List.length_pos_iff.mpr nonempty
  cases out with
  | next q s =>
    have space : m.lastBuf.length < dataSize := by omega
    have pending := lawful.msgParseBytes_next parsable loops (by omega)
    have current : ({ conn with rmsg := some (Parser.Lawful.suspended m s) } :
        Receiver σ).current P dataSize = Parser.Lawful.suspended m s :=
      Msg.prepare_of_space parsable.chain space
    rw [conn.parseAll_pending pending, read, if_pos live, current, parseAll_rmsg]
    refine parseAll_congr ?_ (msgParseBytes_suspended lawful parsable nonempty fits loops)
    rw [Msg.lastBuf_append, Msg.lastBuf_append]
    rfl
  | stop q s =>
    have inside := lawful.stop_inside loops
    have loops' := lawful.loops_append parsable (y := y) loops (by simp)
    have shorter : (m.lastBuf.drop (q + 1)).length < m.lastBuf.length := by
      rw [List.length_drop]
      omega
    have completed := lawful.msgParseBytes_stop parsable loops
    have completed' := lawful.msgParseBytes_stop (parsable.append fits) loops'
    rw [Parser.Lawful.finished_append inside, Msg.lastBuf_append,
      List.drop_append_of_le_length inside] at completed'
    generalize Parser.Lawful.finished P m q s = r at completed completed'
    generalize m.lastBuf.drop (q + 1) = left at completed completed' shorter
    have empty := conn.recvDone_rmsg r
    rw [parseAll_completed lawful live (parsable.append fits) completed' (by simpa using shorter),
      parseAll_completed lawful live parsable completed shorter]
    generalize conn.recvDone r none = done at empty
    by_cases goesOn : done.status = .live
    · by_cases none_left : left = []
      · have current : done.current P dataSize = (Msg.fresh P).prepare dataSize := by
          rw [current, empty, Option.getD_none]
        simp [none_left, goesOn, nonempty, read, current, Msg.fresh_append]
      · have rest := lawful.parsable_ofRest (shorter.le.trans parsable.fits)
        have later := ih _ shorter goesOn rest (by change left.length + _ ≤ _; omega) rfl
        simpa [none_left, goesOn, Msg.ofRest_append] using later
    · simp [goesOn, read_of_not_live goesOn]
  | fail =>
    have loops' := lawful.loops_append parsable (y := y) loops (by simp)
    rw [parseAll_failed _ (lawful.msgParseBytes_fail (parsable.append fits) loops'),
      parseAll_failed _ (lawful.msgParseBytes_fail parsable loops), read_of_not_live (by simp)]

/-! ## Whole reads -/

theorem parseAll_sound (lawful : P.Lawful dataSize) (live : conn.status = .live)
    (parsable : lawful.Parsable m) : (conn.parseAll P dataSize m).Sound lawful := by
  induction size : m.lastBuf.length using Nat.strong_induction_on generalizing m conn with
  | _ size ih =>
  subst size
  intro w under
  rcases lawful.msgParseBytes_cases parsable with
    ⟨r, pending, waiting⟩ | ⟨r, completed⟩ | ⟨r, nbuf, completed, shorter⟩ | failed
  · rw [conn.parseAll_pending pending] at under
    cases under
    exact waiting
  · rw [conn.parseAll_exact completed, recvDone_rmsg] at under
    cases under
  · rw [conn.parseAll_more lawful parsable completed shorter] at under
    split at under
    · rename_i goesOn
      have rest := lawful.parsable_ofRest (shorter.le.trans parsable.fits)
      exact ih _ shorter goesOn rest rfl w under
    · rename_i closed
      rw [recvDone_eq live] at under closed
      split at under
      · simp_all
      · rw [recvDone_rmsg] at under
        cases under
  · rw [conn.parseAll_failed failed] at under
    cases under

theorem current_parsable {lawful : P.Lawful dataSize} (positive : 0 < dataSize)
    (sound : conn.Sound lawful) :
    lawful.Parsable (conn.current P dataSize) ∧
      (conn.current P dataSize).lastBuf.length < dataSize := by
  unfold current
  cases under : conn.rmsg with
  | none =>
    rw [Option.getD_none, Msg.prepare_fresh]
    refine ⟨⟨by simp, Nat.zero_le _, Nat.le_refl _, lawful.good_of_none rfl, ?_⟩, positive⟩
    show 0 < word32
    decide
  | some m => exact (sound m under).prepare positive

section Read

variable {lawful : P.Lawful dataSize} (positive : 0 < dataSize)
include positive

theorem read_sound {x : Bytes} (sound : conn.Sound lawful)
    (fits : (conn.current P dataSize).lastBuf.length + x.length ≤ dataSize) :
    (conn.read P dataSize x).Sound lawful := by
  unfold read
  split
  · rename_i live
    exact parseAll_sound lawful live ((current_parsable positive sound).1.append fits)
  · exact sound

/-- A read can be cut anywhere. -/
theorem read_append {x y : Bytes} (sound : conn.Sound lawful) (nonempty : y ≠ [])
    (fits : (conn.current P dataSize).lastBuf.length + (x ++ y).length ≤ dataSize) :
    conn.read P dataSize (x ++ y) = (conn.read P dataSize x).read P dataSize y := by
  rw [List.length_append] at fits
  by_cases live : conn.status = .live
  · have parsable := (current_parsable positive sound).1.append (x := x) (by omega)
    rw [read, if_pos live, ← Msg.append_append, parseAll_append lawful live parsable nonempty]
    · simp only [read, if_pos live]
    · rw [Msg.lastBuf_append, List.length_append]
      omega
  · rw [read_of_not_live live, read_of_not_live live, read_of_not_live live]

end Read

/-- One read for each byte. -/
def readBytes (P : Parser σ) (dataSize : Nat) (conn : Receiver σ) (xs : Bytes) : Receiver σ :=
  xs.foldl (fun conn ch => conn.read P dataSize [ch]) conn

theorem readBytes_append (xs ys : Bytes) :
    conn.readBytes P dataSize (xs ++ ys) =
      (conn.readBytes P dataSize xs).readBytes P dataSize ys :=
  List.foldl_append

theorem readBytes_of_not_live {xs : Bytes} (closed : conn.status ≠ .live) :
    conn.readBytes P dataSize xs = conn := by
  induction xs with
  | nil => rfl
  | cons ch xs ih =>
    rw [readBytes, List.foldl_cons, read_of_not_live closed]
    exact ih

theorem read_eq_readBytes {lawful : P.Lawful dataSize} (positive : 0 < dataSize) {x : Bytes}
    (sound : conn.Sound lawful) (nonempty : x ≠ [])
    (fits : (conn.current P dataSize).lastBuf.length + x.length ≤ dataSize) :
    conn.read P dataSize x = conn.readBytes P dataSize x := by
  induction x using List.reverseRecOn with
  | nil => exact absurd rfl nonempty
  | append_singleton x ch ih =>
    by_cases first : x = []
    · subst first
      rfl
    · rw [read_append positive sound (by simp) fits, readBytes_append, ih first]
      · rfl
      · rw [List.length_append] at fits
        omega

/-! ## Any cut of a stream -/

/-- The receiver with its message ready for the next read. -/
def settled (P : Parser σ) (dataSize : Nat) (conn : Receiver σ) : Receiver σ :=
  if conn.status = .live then { conn with rmsg := some (conn.current P dataSize) } else conn

section Settled

variable {lawful : P.Lawful dataSize} (positive : 0 < dataSize) (sound : conn.Sound lawful)
include positive sound

theorem current_settled :
    ({ conn with rmsg := some (conn.current P dataSize) } : Receiver σ).current P dataSize =
      conn.current P dataSize := by
  obtain ⟨parsable, space⟩ := current_parsable positive sound
  exact Msg.prepare_of_space parsable.chain space

theorem read_settled (x : Bytes) :
    (conn.settled P dataSize).read P dataSize x = conn.read P dataSize x := by
  unfold settled
  split
  · rename_i live
    rw [read, if_pos live, read, if_pos live, current_settled positive sound, parseAll_rmsg]
  · rfl

theorem attempt_sound :
    ({ conn with rmsg := some (conn.current P dataSize) } : Receiver σ).Sound lawful := by
  obtain ⟨parsable, space⟩ := current_parsable positive sound
  intro m under
  cases under
  exact ⟨parsable, fun full => absurd full space.ne⟩

end Settled

section Cut

variable {lawful : P.Lawful dataSize} (positive : 0 < dataSize)
include positive

theorem readBytes_sound {xs : Bytes} (sound : conn.Sound lawful) :
    (conn.readBytes P dataSize xs).Sound lawful := by
  induction xs generalizing conn with
  | nil => exact sound
  | cons ch xs ih =>
    obtain ⟨_, space⟩ := current_parsable positive sound
    exact ih (read_sound positive sound space)

theorem readBytes_congr {conn' : Receiver σ} (sound : conn.Sound lawful)
    (sound' : conn'.Sound lawful) (same : conn.settled P dataSize = conn'.settled P dataSize)
    (xs : Bytes) :
    (conn.readBytes P dataSize xs).settled P dataSize =
      (conn'.readBytes P dataSize xs).settled P dataSize := by
  cases xs with
  | nil => exact same
  | cons ch xs =>
    have first : conn.read P dataSize [ch] = conn'.read P dataSize [ch] := by
      rw [← read_settled positive sound, same, read_settled positive sound']
    simp only [readBytes, List.foldl_cons, first]

/-- What `msg_recv` makes of the available bytes does not depend on how they fill the
mbufs. -/
theorem msgRecv_settled {fuel : Nat} {avail : Bytes} (sound : conn.Sound lawful)
    (enough : avail.length < fuel) :
    (conn.msgRecv (msgParseBytes P dataSize) P dataSize fuel avail).Sound lawful ∧
      (conn.msgRecv (msgParseBytes P dataSize) P dataSize fuel avail).settled P dataSize =
        (conn.readBytes P dataSize avail).settled P dataSize := by
  induction fuel generalizing conn avail with
  | zero => cases enough
  | succ fuel ih =>
    by_cases live : conn.status = .live
    · by_cases none_left : avail = []
      · subst none_left
        have attempt : conn.msgRecv (msgParseBytes P dataSize) P dataSize (fuel + 1) [] =
            { conn with rmsg := some (conn.current P dataSize) } := by
          simp [msgRecv, live]
        rw [attempt]
        refine ⟨attempt_sound positive sound, ?_⟩
        rw [settled, if_pos live, current_settled positive sound]
        exact (if_pos live).symm
      · obtain ⟨_, space⟩ := current_parsable positive sound
        have room : 0 < (conn.current P dataSize).space dataSize := Nat.sub_pos_of_lt space
        have chained : ∀ x, conn.msgRecvChain (msgParseBytes P dataSize) P dataSize x =
            conn.read P dataSize x := by
          intro x
          rw [read, if_pos live]
          rfl
        generalize sizeEq : (conn.current P dataSize).space dataSize = size at room
        have fits : (conn.current P dataSize).lastBuf.length + (avail.take size).length ≤
            dataSize := by
          rw [List.length_take]
          unfold Msg.space at sizeEq
          omega
        have taken : avail.take size ≠ [] := by
          rw [ne_eq, List.take_eq_nil_iff]
          rintro (zero | nil)
          · exact room.ne' zero
          · exact none_left nil
        have bytes := read_eq_readBytes positive sound taken fits
        have sound' := read_sound positive sound fits
        have unfolded : conn.msgRecv (msgParseBytes P dataSize) P dataSize (fuel + 1) avail =
            if avail.length < size then conn.read P dataSize (avail.take size)
            else (conn.read P dataSize (avail.take size)).msgRecv (msgParseBytes P dataSize) P
              dataSize fuel (avail.drop size) := by
          simp only [msgRecv, live, if_true, none_left, if_false, sizeEq, chained]
        rw [unfolded]
        by_cases short : avail.length < size
        · rw [if_pos short]
          refine ⟨sound', ?_⟩
          rw [bytes, List.take_of_length_le short.le]
        · rw [if_neg short]
          have enough' : (avail.drop size).length < fuel := by
            rw [List.length_drop]
            omega
          obtain ⟨later, same⟩ := ih sound' enough'
          refine ⟨later, same.trans ?_⟩
          rw [bytes, ← readBytes_append, List.take_append_drop]
    · have closed :
          conn.msgRecv (msgParseBytes P dataSize) P dataSize (fuel + 1) avail = conn := by
        simp [msgRecv, live]
      rw [closed, readBytes_of_not_live live]
      exact ⟨sound, rfl⟩

/-- Only the bytes of the reads matter. -/
theorem receive_settled {reads : List Bytes} (sound : conn.Sound lawful) :
    (conn.receive (msgParseBytes P dataSize) P dataSize reads).settled P dataSize =
      (conn.readBytes P dataSize reads.flatten).settled P dataSize := by
  induction reads generalizing conn with
  | nil => rfl
  | cons x reads ih =>
    obtain ⟨sound', same⟩ := msgRecv_settled positive sound (Nat.lt_succ_self x.length)
    rw [receive, List.foldl_cons, List.flatten_cons, readBytes_append]
    exact (ih sound').trans
      (readBytes_congr positive sound' (readBytes_sound positive sound) same _)

end Cut

/-! ## Two readings of a message -/

section Agree

variable {parse parse' : Msg σ → Progress σ}

theorem parseLoop_agree {fuel : Nat} {msg : Msg σ}
    (agree : ∀ m ∈ loopCalls parse fuel conn msg, parse m = parse' m) :
    parseLoop parse fuel conn msg = parseLoop parse' fuel conn msg := by
  induction fuel generalizing conn msg with
  | zero => rfl
  | succ fuel ih =>
    have first : parse msg = parse' msg := agree msg (List.mem_cons_self ..)
    rw [parseLoop, parseLoop, ← first]
    cases parsed : parse msg with
    | filtered => rfl
    | pending m => rfl
    | failed => rfl
    | completed m nmsg =>
      cases nmsg with
      | none => rfl
      | some nmsg =>
        dsimp only
        split
        · rename_i live
          apply ih
          intro m' called
          apply agree
          rw [loopCalls, parsed]
          exact List.mem_cons_of_mem _ (by simpa [live] using called)
        · rfl

theorem msgRecv_agree {fuel : Nat} {avail : Bytes}
    (agree : ∀ m ∈ recvCalls parse P dataSize fuel conn avail, parse m = parse' m) :
    conn.msgRecv parse P dataSize fuel avail = conn.msgRecv parse' P dataSize fuel avail := by
  induction fuel generalizing conn avail with
  | zero => rfl
  | succ fuel ih =>
    rw [msgRecv, msgRecv]
    by_cases live : conn.status = .live
    · by_cases none_left : avail = []
      · simp [live, none_left]
      · simp only [recvCalls, live, if_true, none_left, if_false] at agree ⊢
        by_cases short : avail.length < (conn.current P dataSize).space dataSize
        · rw [if_pos short] at agree
          rw [if_pos short, if_pos short]
          exact parseLoop_agree agree
        · rw [if_neg short] at agree
          rw [if_neg short, if_neg short]
          generalize avail.take ((conn.current P dataSize).space dataSize) = x at agree ⊢
          have chain : conn.msgRecvChain parse P dataSize x =
              conn.msgRecvChain parse' P dataSize x :=
            parseLoop_agree fun m called => agree m (List.mem_append_left _ called)
          have rest := ih fun m called => agree m (List.mem_append_right _ called)
          rw [rest, chain]
    · simp [live]

/-- The driver does the same with two parsers that agree on the messages it hands over. -/
theorem receive_agree {reads : List Bytes}
    (agree : ∀ m ∈ receiveCalls parse P dataSize conn reads, parse m = parse' m) :
    conn.receive parse P dataSize reads = conn.receive parse' P dataSize reads := by
  induction reads generalizing conn with
  | nil => rfl
  | cons avail reads ih =>
    have first := msgRecv_agree fun m called => agree m (List.mem_append_left _ called)
    have rest := ih fun m called => agree m (List.mem_append_right _ called)
    rw [receive, receive, List.foldl_cons, List.foldl_cons, ← first]
    exact rest

end Agree

/-! ## What can be observed -/

/-- No call of `msg_parse` was given a message whose length had wrapped around to 0. -/
def Unwrapped (P : Parser σ) (dataSize : Nat) (conn : Receiver σ) (reads : List Bytes) : Prop :=
  ∀ m ∈ receiveCalls (msgParse P dataSize) P dataSize conn reads, m.mlen ≠ 0

theorem receive_unwrapped {reads : List Bytes} (unwrapped : conn.Unwrapped P dataSize reads) :
    conn.receive (msgParse P dataSize) P dataSize reads =
      conn.receive (msgParseBytes P dataSize) P dataSize reads :=
  receive_agree fun m called => if_neg (unwrapped m called)

/-! ## Nothing is dropped without a trace -/

/-- A message has been handed over, reading has ended, or a message that is not taken for
an empty one is under construction. -/
def Holding (conn : Receiver σ) : Prop :=
  conn.completed ≠ [] ∨ conn.status ≠ .live ∨ ∃ m, conn.rmsg = some m ∧ m.mlen ≠ 0

theorem Holding.settled (holding : conn.Holding) : (conn.settled P dataSize).Holding := by
  by_cases live : conn.status = .live
  · rw [Receiver.settled, if_pos live]
    rcases holding with some_ | closed | ⟨m, under, mlen⟩
    · exact .inl some_
    · exact absurd live closed
    · refine .inr (.inr ⟨_, rfl, ?_⟩)
      rwa [current, under, Option.getD_some, Msg.mlen_prepare]
  · rw [Receiver.settled, if_neg live]
    exact holding

theorem recvDone_holding {nmsg : Option (Msg σ)} (mlen : m.mlen ≠ 0) :
    (conn.recvDone m nmsg).completed ≠ [] := by
  rw [recvDone, if_neg mlen]
  split <;> simp

theorem completed_parseLoop {parse : Msg σ → Progress σ} {fuel : Nat}
    (some_ : conn.completed ≠ []) : (conn.parseLoop parse fuel m).completed ≠ [] := by
  induction fuel generalizing conn m with
  | zero => exact some_
  | succ fuel ih =>
    have done : ∀ r nmsg, (conn.recvDone r nmsg).completed ≠ [] := by
      intro r nmsg
      unfold recvDone
      split
      · exact some_
      · split <;> simp
    unfold parseLoop
    split
    · exact some_
    · exact some_
    · exact some_
    · exact done _ _
    · dsimp only
      split
      · exact ih (done _ _)
      · exact done _ _

/-- The bytes and lengths in the result of `msg_parse`. -/
theorem msgParse_mlen (P : Parser σ) (dataSize : Nat) (m : Msg σ) :
    m.mlen = 0 ∧ msgParse P dataSize m = .filtered ∨
      m.mlen ≠ 0 ∧
        ((∃ r, msgParse P dataSize m = .pending r ∧ r.mlen = m.mlen ∧ r.bytes = m.bytes) ∨
          (∃ r, msgParse P dataSize m = .completed r none ∧ r.mlen = m.mlen ∧
            r.bytes = m.bytes) ∨
          (∃ r nbuf, msgParse P dataSize m = .completed r (some (.ofRest P nbuf)) ∧
            r.mlen = sub32 m.mlen nbuf.length ∧ r.bytes ++ nbuf = m.bytes) ∨
          msgParse P dataSize m = .failed) := by
  by_cases empty : m.mlen = 0
  · exact .inl ⟨empty, if_pos empty⟩
  · have same := P.mlen_parse dataSize m
    have chain := P.mhdr_parse dataSize m
    refine .inr ⟨empty, ?_⟩
    rw [msgParse, if_neg empty, msgParseBytes]
    generalize P.parse dataSize m = r at same chain ⊢
    have bytes : r.bytes = m.bytes := congrArg List.flatten chain
    have split := r.flatten_head_append_tail
    cases r.result with
    | ok =>
      dsimp only [msgParsed]
      split
      · exact .inr (.inl ⟨r, rfl, same, bytes⟩)
      · exact .inr (.inr (.inl ⟨_, r.tail, rfl, by rw [← same], split.trans bytes⟩))
    | repair =>
      refine .inl ⟨msgRepair r, rfl, same, ?_⟩
      rw [Msg.bytes, msgRepair, List.flatten_append, List.flatten_singleton, split, bytes]
    | again => exact .inl ⟨r, rfl, same, bytes⟩
    | error => exact .inr (.inr (.inr rfl))

theorem parseLoop_holding {fuel : Nat} (live : conn.status = .live) (mlen : m.mlen % word32 ≠ 0) :
    (conn.parseLoop (msgParse P dataSize) fuel m).Holding := by
  have positive : m.mlen ≠ 0 := fun zero => mlen (by rw [zero, Nat.zero_mod])
  induction fuel generalizing conn m with
  | zero => exact .inr (.inr ⟨m, rfl, positive⟩)
  | succ fuel ih =>
    rw [parseLoop]
    rcases msgParse_mlen P dataSize m with ⟨empty, _⟩ |
      ⟨_, ⟨r, parsed, same, _⟩ | ⟨r, parsed, same, _⟩ | ⟨r, nbuf, parsed, same, _⟩ | parsed⟩
    · exact absurd empty positive
    · rw [parsed]
      exact .inr (.inr ⟨r, rfl, by rwa [same]⟩)
    · rw [parsed]
      exact .inl (recvDone_holding (by rwa [same]))
    · rw [parsed]
      dsimp only
      by_cases dropped : r.mlen = 0
      · have next : (Msg.ofRest P nbuf).mlen % word32 ≠ 0 := by
          change add32 0 nbuf.length % word32 ≠ 0
          rw [add32_of_sub32_eq_zero (same.symm.trans dropped), Nat.mod_mod]
          exact mlen
        have still : (conn.recvDone r (some (.ofRest P nbuf))).status = .live := by
          rw [recvDone, if_pos dropped]
          exact live
        rw [if_pos still]
        exact ih still next fun zero => next (by rw [zero, Nat.zero_mod])
      · split
        · exact .inl (completed_parseLoop (recvDone_holding dropped))
        · exact .inl (recvDone_holding dropped)
    · rw [parsed]
      exact .inr (.inl (by simp))

theorem msgRecvChain_holding {x : Bytes} (live : conn.status = .live)
    (mlen : ((conn.current P dataSize).append x).mlen ≠ 0) :
    (conn.msgRecvChain (msgParse P dataSize) P dataSize x).Holding := by
  refine parseLoop_holding live ?_
  rwa [Nat.mod_eq_of_lt]
  exact add32_lt _ _

theorem msgRecv_holding {fuel : Nat} {avail : Bytes}
    (unwrapped : ∀ m ∈ recvCalls (msgParse P dataSize) P dataSize fuel conn avail, m.mlen ≠ 0)
    (some_ : conn.Holding ∨ avail ≠ [] ∧ 0 < fuel) :
    (conn.msgRecv (msgParse P dataSize) P dataSize fuel avail).Holding := by
  induction fuel generalizing conn avail with
  | zero => exact some_.resolve_right fun both => absurd both.2 (Nat.lt_irrefl 0)
  | succ fuel ih =>
    by_cases live : conn.status = .live
    · by_cases none_left : avail = []
      · have holding := some_.resolve_right fun both => both.1 none_left
        have attempt : conn.msgRecv (msgParse P dataSize) P dataSize (fuel + 1) avail =
            conn.settled P dataSize := by
          simp [msgRecv, live, none_left, settled]
        rw [attempt]
        exact holding.settled
      · simp only [recvCalls, msgRecv, live, if_true, none_left, if_false] at unwrapped ⊢
        generalize sizeEq : (conn.current P dataSize).space dataSize = size at unwrapped ⊢
        have chain : (conn.msgRecvChain (msgParse P dataSize) P dataSize
            (avail.take size)).Holding := by
          refine msgRecvChain_holding live (unwrapped _ ?_)
          split
          · exact List.mem_cons_self ..
          · exact List.mem_append_left _ (List.mem_cons_self ..)
        by_cases short : avail.length < size
        · rw [if_pos short]
          exact chain
        · rw [if_neg short] at unwrapped ⊢
          exact ih (fun m called => unwrapped m (List.mem_append_right _ called)) (.inl chain)
    · have closed : conn.msgRecv (msgParse P dataSize) P dataSize (fuel + 1) avail = conn := by
        simp [msgRecv, live]
      rw [closed]
      exact .inr (.inl live)

/-- As long as no length wraps around, bytes that were read leave a trace. -/
theorem receive_holding {reads : List Bytes} (unwrapped : conn.Unwrapped P dataSize reads)
    (some_ : conn.Holding ∨ reads.flatten ≠ []) :
    (conn.receive (msgParse P dataSize) P dataSize reads).Holding := by
  induction reads generalizing conn with
  | nil => exact some_.resolve_right fun nonempty => nonempty rfl
  | cons avail reads ih =>
    rw [receive, List.foldl_cons]
    refine ih (fun m called => unwrapped m (List.mem_append_right _ called)) ?_
    by_cases empty : avail = [] ∧ ¬ conn.Holding
    · obtain ⟨rfl, nothing⟩ := empty
      exact .inr (some_.resolve_left nothing)
    · refine .inl (msgRecv_holding
        (fun m called => unwrapped m (List.mem_append_left _ called)) ?_)
      by_cases holding : conn.Holding
      · exact .inl holding
      · exact .inr ⟨fun none_left => empty ⟨none_left, holding⟩, Nat.succ_pos _⟩

/-! ## Lengths are machine words -/

/-- The messages that were completed and the one under construction count their bytes, and
no completed message counts as empty. -/
structure Measured (conn : Receiver σ) : Prop where
  completed : ∀ m ∈ conn.completed, Msg.Measured m ∧ m.mlen ≠ 0
  rmsg : ∀ m ∈ conn.rmsg, Msg.Measured m

theorem measured_append (measured : Msg.Measured m) (x : Bytes) : Msg.Measured (m.append x) := by
  have bytes : (m.append x).bytes = m.bytes ++ x := by
    rcases List.eq_nil_or_concat m.mhdr with empty | ⟨front, b, chain⟩
    · simp [Msg.bytes, Msg.append, Msg.lastBuf, empty]
    · simp [Msg.bytes, Msg.append, Msg.lastBuf, chain]
  change add32 m.mlen x.length = _
  rw [measured, bytes, add32, Nat.mod_add_mod, List.length_append]

theorem measured_current (measured : conn.Measured) :
    Msg.Measured (conn.current P dataSize) := by
  have under : Msg.Measured (conn.rmsg.getD (.fresh P)) := by
    cases rmsg : conn.rmsg with
    | none => rfl
    | some m => exact measured.rmsg m rmsg
  have bytes : (conn.current P dataSize).bytes = (conn.rmsg.getD (.fresh P)).bytes := by
    unfold Receiver.current Msg.prepare
    split <;> simp [Msg.bytes]
  rw [Msg.Measured, bytes, ← under, Receiver.current, Msg.mlen_prepare]

theorem Measured.recvDone (measured : conn.Measured) {nmsg : Option (Msg σ)}
    (mlen : Msg.Measured m) (next : ∀ m ∈ nmsg, Msg.Measured m) :
    (conn.recvDone m nmsg).Measured := by
  unfold Receiver.recvDone
  split
  · exact ⟨measured.completed, next⟩
  · next nonempty =>
    have longer : ∀ m' ∈ conn.completed ++ [m], Msg.Measured m' ∧ m'.mlen ≠ 0 := by
      intro m' member
      rcases List.mem_append.mp member with earlier | last
      · exact measured.completed m' earlier
      · rw [List.mem_singleton.mp last]
        exact ⟨mlen, nonempty⟩
    split
    · exact ⟨longer, by simp⟩
    · exact ⟨longer, next⟩

theorem Measured.parseLoop {fuel : Nat} (measured : conn.Measured) (mlen : Msg.Measured m) :
    (conn.parseLoop (msgParse P dataSize) fuel m).Measured := by
  induction fuel generalizing conn m with
  | zero => exact ⟨measured.completed, by simpa [Receiver.parseLoop] using mlen⟩
  | succ fuel ih =>
    have kept : ∀ r : Msg σ, r.mlen = m.mlen → r.bytes = m.bytes → Msg.Measured r := by
      intro r same bytes
      rw [Msg.Measured, same, bytes, mlen]
    rw [Receiver.parseLoop]
    rcases msgParse_mlen P dataSize m with ⟨_, parsed⟩ |
      ⟨_, ⟨r, parsed, same, bytes⟩ | ⟨r, parsed, same, bytes⟩ | ⟨r, nbuf, parsed, same, bytes⟩ |
        parsed⟩
    · rw [parsed]
      exact ⟨measured.completed, by simp⟩
    · rw [parsed]
      exact ⟨measured.completed, by simpa using kept r same bytes⟩
    · rw [parsed]
      exact measured.recvDone (kept r same bytes) (by simp)
    · have rest : Msg.Measured (Msg.ofRest P nbuf) := by
        change add32 0 nbuf.length = _
        simp [add32, Msg.ofRest, Msg.bytes]
      have first : Msg.Measured r := by
        rw [Msg.Measured, same, mlen, ← bytes, List.length_append, sub32_mod]
      have done : (conn.recvDone r (some (.ofRest P nbuf))).Measured :=
        measured.recvDone first (by simpa using rest)
      rw [parsed]
      dsimp only
      split
      · exact ih done rest
      · exact done
    · rw [parsed]
      exact ⟨measured.completed, by simp⟩

theorem Measured.msgRecv {fuel : Nat} {avail : Bytes} (measured : conn.Measured) :
    (conn.msgRecv (msgParse P dataSize) P dataSize fuel avail).Measured := by
  induction fuel generalizing conn avail with
  | zero => exact measured
  | succ fuel ih =>
    have current : Msg.Measured (conn.current P dataSize) := measured_current measured
    have chain : ∀ x, (conn.msgRecvChain (msgParse P dataSize) P dataSize x).Measured :=
      fun x => measured.parseLoop (measured_append current x)
    unfold Receiver.msgRecv
    split
    · dsimp only
      split
      · exact ⟨measured.completed, by simpa using current⟩
      · split
        · exact chain _
        · exact ih (chain _)
    · exact measured

/-- A completed message counts its bytes modulo `2 ^ 32`, and not to 0. -/
theorem receive_measured (reads : List Bytes) :
    (({} : Receiver σ).receive (msgParse P dataSize) P dataSize reads).Measured := by
  have start : ({} : Receiver σ).Measured := ⟨by simp, by simp⟩
  generalize ({} : Receiver σ) = conn at start
  induction reads generalizing conn with
  | nil => exact start
  | cons avail reads ih => exact ih _ start.msgRecv

/-- What other parts of the proxy see of a completed message. -/
structure Observed where
  type : MsgType
  bytes : Bytes
  keys : List Bytes
  noreply : Bool
  quit : Bool
  deriving DecidableEq, Repr

/-- A completed message as the rest of the proxy sees it. -/
def observed (m : Msg σ) : Observed where
  type := m.type
  bytes := m.bytes
  keys := m.keyList
  noreply := m.noreply
  quit := m.quit

/-- The outcome of reading a stream: the completed messages, whether the stream was
ended by a quit or a parse error, and the bytes of the incomplete message. -/
structure Outcome where
  completed : List Observed
  status : RecvStatus
  tail : Bytes
  deriving DecidableEq, Repr

/-- The outcome of the reads so far. -/
def outcome (conn : Receiver σ) : Outcome where
  completed := conn.completed.map observed
  status := conn.status
  tail := (conn.rmsg.map Msg.bytes).getD []

theorem outcome_settled (conn : Receiver σ) :
    (conn.settled P dataSize).outcome = conn.outcome := by
  unfold settled
  split
  · simp only [outcome, current, Option.map_some, Option.getD_some]
    congr 1
    cases conn.rmsg with
    | none => simp [Msg.prepare_fresh, Msg.bytes]
    | some m =>
      simp only [Option.getD_some, Option.map_some, Msg.prepare]
      split <;> simp [Msg.bytes]
  · rfl

theorem sound_new (lawful : P.Lawful dataSize) : ({} : Receiver σ).Sound lawful := by
  intro m under
  cases under

/-- The outcome depends on the bytes that were read, not on how they were cut into
reads. -/
theorem receive_outcome (lawful : P.Lawful dataSize) (positive : 0 < dataSize)
    {reads : List Bytes} (unwrapped : ({} : Receiver σ).Unwrapped P dataSize reads) :
    (({} : Receiver σ).receive (msgParse P dataSize) P dataSize reads).outcome =
      (({} : Receiver σ).readBytes P dataSize reads.flatten).outcome := by
  rw [receive_unwrapped unwrapped, ← outcome_settled, receive_settled positive (sound_new lawful),
    outcome_settled]

end Receiver

end Nutcracker
