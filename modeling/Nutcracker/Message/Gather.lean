import Nutcracker.Message.Layout

/-!
# Gathering items

A copying function that moves the first item of a chain, called for the slots of a list one
after the other, gathers the items in the order of the slots.
-/

namespace Nutcracker

open Lib

/-- The length of a packet counts its bytes. -/
def Packet.Measured (m : Packet) : Prop :=
  m.mlen = m.bytes.length % word32

theorem Packet.Measured.sub {m m' : Packet} {n : Nat} (measured : m.Measured)
    (bytes : m.bytes.length = m'.bytes.length + n) (mlen : m'.mlen = sub32 m.mlen n) :
    m'.Measured := by
  unfold Packet.Measured at *
  rw [mlen, measured, bytes, sub32_mod]

/-- The copying function moves the first of some items, if there is one. -/
structure CopiesNext (copy : Packet → Packet → Buffers → Copied) (Ready : List Item → Prop) :
    Prop where
  next : ∀ {items : List Item} {src : Packet} (dst : Packet) (w : Buffers), Ready items →
    Laid items src.mhdr →
    (copy dst src w).status = .ok ∧
      (∃ m, (copy dst src w).dst = some m ∧ m.bytes = dst.bytes ++ Item.bytes (items.take 1)) ∧
      Laid (items.drop 1) (copy dst src w).src.mhdr ∧
      (src.Measured → (copy dst src w).src.Measured)

/-- The items that are taken when each slot takes the first one that it has. -/
def interleave : List Nat → (Nat → List Item) → List Item
  | [], _ => []
  | slot :: slots, items =>
    (items slot).take 1 ++
      interleave slots (Function.update items slot ((items slot).drop 1))

/-- Every slot is ready when its turn comes. -/
def AllReady (Ready : List Item → Prop) : List Nat → (Nat → List Item) → Prop
  | [], _ => True
  | slot :: slots, items =>
    Ready (items slot) ∧ AllReady Ready slots (Function.update items slot ((items slot).drop 1))

/-- The reply of a slot, in which items are laid out. -/
def Supplies (g : Gathering) (slot : Nat) (items : List Item) : Prop :=
  ∃ src, g.replies slot = some src ∧ Laid items src.mhdr ∧ src.Measured

section Gather

variable {copy : Packet → Packet → Buffers → Copied} {Ready : List Item → Prop}
  {items : Nat → List Item} {slots : List Nat} {g : Gathering}

theorem drop_count_cons (slot slot' : Nat) (slots : List Nat) (items : Nat → List Item) :
    (Function.update items slot ((items slot).drop 1) slot').drop (slots.count slot') =
      (items slot').drop ((slot :: slots).count slot') := by
  rw [Function.update_apply, List.count_cons]
  split
  · rename_i here
    rw [here, if_pos (by simp), List.drop_drop, Nat.add_comm]
  · rename_i other
    rw [if_neg (by simpa using Ne.symm other), Nat.add_zero]

/-- The loop gathers the items in the order of the slots. -/
theorem gatherKeys_items (copies : CopiesNext copy Ready) (ready : AllReady Ready slots items)
    (supplies : ∀ slot ∈ slots, Supplies g slot (items slot))
    (running : g.returned = false ∧ g.err = false) :
    (gatherKeys copy slots g).returned = false ∧ (gatherKeys copy slots g).err = false ∧
      (gatherKeys copy slots g).response.bytes =
        g.response.bytes ++ Item.bytes (interleave slots items) ∧
      ∀ slot, Supplies g slot (items slot) →
        Supplies (gatherKeys copy slots g) slot ((items slot).drop (slots.count slot)) := by
  induction slots generalizing items g with
  | nil =>
    refine ⟨running.1, running.2, ?_, fun slot supplied => ?_⟩
    · simp [gatherKeys, interleave]
    · simpa [gatherKeys] using supplied
  | cons slot slots ih =>
    obtain ⟨ready, rest⟩ := ready
    obtain ⟨src, reply, laid, measured⟩ := supplies slot List.mem_cons_self
    obtain ⟨status, ⟨m, dst, bytes⟩, laid', measured'⟩ := copies.next g.response g.bufs ready laid
    -- the state after the first slot supplies what is left
    have kept : ∀ slot', Supplies g slot' (items slot') →
        Supplies (g.take copy slot src) slot'
          (Function.update items slot ((items slot).drop 1) slot') := by
      intro slot' supplied
      by_cases here : slot' = slot
      · subst here
        rw [Function.update_self]
        exact ⟨_, by simp [Gathering.take], laid', measured' measured⟩
      · rw [Function.update_of_ne here]
        obtain ⟨src', reply', placed⟩ := supplied
        exact ⟨src', by simp [Gathering.take, here, reply'], placed⟩
    have unfolded : gatherKeys copy (slot :: slots) g =
        gatherKeys copy slots (g.take copy slot src) := by
      simp [gatherKeys, reply, status]
    obtain ⟨returned, err, response, left⟩ := ih rest
      (fun slot' member => kept slot' (supplies slot' (List.mem_cons_of_mem _ member)))
      ⟨by simp [Gathering.take, status], by simp [Gathering.take, status]⟩
    rw [unfolded]
    refine ⟨returned, err, ?_, fun slot' supplied => ?_⟩
    · have response' : (g.take copy slot src).response = m := by simp [Gathering.take, dst]
      rw [response, response', bytes, interleave, Item.bytes_append, List.append_assoc]
    · rw [← drop_count_cons]
      exact left slot' (kept slot' supplied)

/-- The items of the slots when each key has one. -/
def dealt {κ : Type*} (slotOf : κ → Nat) (item : κ → Item) (keys : List κ) (slot : Nat) :
    List Item :=
  (keys.filter fun k => slotOf k = slot).map item

section Dealt

variable {κ : Type*} (slotOf : κ → Nat) (item : κ → Item) (k : κ) (keys : List κ)

theorem dealt_cons_self :
    dealt slotOf item (k :: keys) (slotOf k) = item k :: dealt slotOf item keys (slotOf k) := by
  simp [dealt]

theorem update_dealt :
    Function.update (dealt slotOf item (k :: keys)) (slotOf k)
      ((dealt slotOf item (k :: keys) (slotOf k)).drop 1) = dealt slotOf item keys := by
  funext slot
  by_cases here : slot = slotOf k
  · subst here
    rw [Function.update_self, dealt_cons_self, List.drop_succ_cons, List.drop_zero]
  · rw [Function.update_of_ne here, dealt, List.filter_cons_of_neg (by simpa using Ne.symm here)]
    rfl

/-- Items that were dealt out to the slots come back in their order. -/
theorem interleave_dealt :
    interleave (keys.map slotOf) (dealt slotOf item keys) = keys.map item := by
  induction keys with
  | nil => rfl
  | cons k keys ih =>
    rw [List.map_cons, interleave, update_dealt, ih, dealt_cons_self]
    rfl

/-- When its turn comes, every slot has an item. -/
theorem allReady_dealt {Good : Item → Prop} (good : ∀ k ∈ keys, Good (item k)) :
    AllReady (fun items => ∃ first rest, items = first :: rest ∧ Good first) (keys.map slotOf)
      (dealt slotOf item keys) := by
  induction keys with
  | nil => trivial
  | cons k keys ih =>
    refine ⟨⟨_, _, dealt_cons_self .., good k List.mem_cons_self⟩, ?_⟩
    rw [update_dealt]
    exact ih fun k' member => good k' (List.mem_cons_of_mem k member)

end Dealt

end Gather

end Nutcracker
