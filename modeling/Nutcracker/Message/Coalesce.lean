import Nutcracker.Message.Mbuf

/-!
# Scattering keys and gathering replies

What splitting a request and joining the replies come down to.  A vector request is split by the
backends of its keys: `sub_msgs` has one slot for each backend, and `frag_seq` says for each key
which slot it went to.  The replies are put together in the order of `frag_seq`, by taking the next
item from the reply of the slot.  A fragment is named by its slot.
-/

namespace Nutcracker

/-- A request that is split, or a fragment of one. -/
structure Request extends Packet where
  type : MsgType := .unknown
  keys : List KeyRef := []
  narg : Nat := 0
  integer : Nat := 0
  error : Bool := false
  ferror : Bool := false
  deriving DecidableEq, Repr

/-! ## Fragments -/

/-- The locals of a fragment function: the request, and the fragments by slot. -/
structure Scatter where
  r : Request
  subMsgs : Nat → Option Request := fun _ => none
  bufs : Buffers

/-- A vector request that has been split: what is left of it, the slot of each key, and the
fragments with their slots, in the order in which they are forwarded. -/
structure Fragmented where
  owner : Request
  fragSeq : List Nat := []
  frags : List (Nat × Request) := []
  bufs : Buffers

section Scatter

variable (idx : Bytes → Nat)
  (file : KeyRef → Request → Packet → Buffers → Option (Request × Packet × Buffers))

/-- The loop over the keys: each is filed into the fragment of its slot, which may use up some of
the request.  There is no result if the loop leaves the `ncontinuum` entries of `sub_msgs`. -/
def scatterKeys (ncontinuum : Nat) : List KeyRef → Scatter → Option Scatter
  | [], s => some s
  | k :: ks, s =>
    if idx k.text < ncontinuum then
      match file k ((s.subMsgs (idx k.text)).getD {}) s.r.toPacket s.bufs with
      | none => none
      | some (sub, r, w) =>
        scatterKeys ncontinuum ks
          { r := { s.r with toPacket := r }
            subMsgs := Function.update s.subMsgs (idx k.text) (some sub)
            bufs := w }
    else none

variable (finish : Request → Buffers → Request × Buffers)

/-- The loop over the slots: each fragment is finished and forwarded. -/
def forwardSlots (subMsgs : Nat → Option Request) :
    List Nat → Buffers → List (Nat × Request) × Buffers
  | [], w => ([], w)
  | slot :: slots, w =>
    match subMsgs slot with
    | none => forwardSlots subMsgs slots w
    | some sub =>
      ((slot, (finish sub w).1) :: (forwardSlots subMsgs slots (finish sub w).2).1,
        (forwardSlots subMsgs slots (finish sub w).2).2)

/-- A fragment function, behind the words at the front of the request. -/
def fragmentKeysBy (ncontinuum : Nat) (r : Request) (w : Buffers) : Option Fragmented :=
  (scatterKeys idx file ncontinuum r.keys ⟨r, fun _ => none, w⟩).map fun s =>
    { owner := s.r
      fragSeq := r.keys.map fun k => idx k.text
      frags := (forwardSlots finish s.subMsgs (List.range ncontinuum) s.bufs).1
      bufs := (forwardSlots finish s.subMsgs (List.range ncontinuum) s.bufs).2 }

end Scatter

/-! ## Replies -/

/-- How a copying function ends. -/
inductive CopyStatus where
  | ok
  | error
  deriving DecidableEq, Repr

/-- The result of a copying function: its status, the two messages and the free list. -/
structure Copied where
  status : CopyStatus := .ok
  dst : Option Packet
  src : Packet
  bufs : Buffers

/-- The locals of a coalescer: the response to the vector request, the replies to the fragments by
slot, whether it has returned, and `conn->err` of the client. -/
structure Gathering where
  response : Packet := {}
  replies : Nat → Option Packet := fun _ => none
  bufs : Buffers := {}
  returned : Bool := false
  err : Bool := false

section Gather

variable (copy : Packet → Packet → Buffers → Copied)

/-- One key. -/
def Gathering.take (g : Gathering) (slot : Nat) (src : Packet) : Gathering :=
  { response := (copy g.response src g.bufs).dst.getD g.response
    replies := Function.update g.replies slot (some (copy g.response src g.bufs).src)
    bufs := (copy g.response src g.bufs).bufs
    returned := (copy g.response src g.bufs).status != .ok
    err := (copy g.response src g.bufs).status == .error }

/-- The loop over the keys, which ends at a missing reply and when the copying function fails. -/
def gatherKeys : List Nat → Gathering → Gathering
  | [], g => g
  | slot :: slots, g =>
    match g.replies slot with
    | none => { g with returned := true, err := true }
    | some src =>
      if (copy g.response src g.bufs).status = .ok then gatherKeys slots (g.take copy slot src)
      else g.take copy slot src

end Gather

end Nutcracker
