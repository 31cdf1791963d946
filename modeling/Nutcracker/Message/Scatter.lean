import Nutcracker.Message.Coalesce

/-!
# Scattering keys

When the keys of a request have been filed one after the other, the fragment of each slot is
what filing the keys of that slot makes, and slots without keys have no fragment.
-/

namespace Nutcracker

section Files

variable {κ : Type*} (ref : κ → KeyRef) (idx : Bytes → Nat)

/-- The keys that go to a slot. -/
def keysOf (keys : List κ) (slot : Nat) : List κ :=
  keys.filter fun k => idx (ref k).text = slot

/-- Filing a key adds it to the fragment, and uses up what the request holds for it. -/
structure Files (file : KeyRef → Request → Packet → Buffers → Option (Request × Packet × Buffers))
    (Filed : List κ → Request → Prop) (Source : List κ → Packet → Prop) : Prop where
  start : Filed [] {}
  step : ∀ {filed : List κ} {sub : Request} {k : κ} {keys : List κ} {r : Packet} (w : Buffers),
    Filed filed sub → Source (k :: keys) r →
    ∃ sub' r' w', file (ref k) sub r w = some (sub', r', w') ∧ Filed (filed ++ [k]) sub' ∧
      Source keys r'

/-- The fragments hold the keys that have been filed. -/
def HoldsKeys (Filed : List κ → Request → Prop) (filed : List κ)
    (subMsgs : Nat → Option Request) : Prop :=
  ∀ slot, Filed (keysOf ref idx filed slot) ((subMsgs slot).getD {}) ∧
    (subMsgs slot = none ↔ keysOf ref idx filed slot = [])

variable {ref idx}
  {file : KeyRef → Request → Packet → Buffers → Option (Request × Packet × Buffers)}
  {Filed : List κ → Request → Prop} {Source : List κ → Packet → Prop}

theorem holdsKeys_nil (files : Files ref file Filed Source) :
    HoldsKeys ref idx Filed [] fun _ => none := by
  intro slot
  exact ⟨files.start, by simp [keysOf]⟩

theorem HoldsKeys.snoc {filed : List κ} {subMsgs : Nat → Option Request}
    (holds : HoldsKeys ref idx Filed filed subMsgs) {k : κ} {sub : Request}
    (added : Filed (keysOf ref idx filed (idx (ref k).text) ++ [k]) sub) :
    HoldsKeys ref idx Filed (filed ++ [k])
      (Function.update subMsgs (idx (ref k).text) (some sub)) := by
  intro slot
  by_cases here : slot = idx (ref k).text
  · subst here
    simpa [keysOf, List.filter_append] using added
  · have other : keysOf ref idx (filed ++ [k]) slot = keysOf ref idx filed slot := by
      simp [keysOf, List.filter_append, Ne.symm here]
    rw [other, Function.update_of_ne here]
    exact holds slot

/-- The loop over the keys. -/
theorem scatterKeys_files (files : Files ref file Filed Source) {ncontinuum : Nat}
    {filed keys : List κ} {s : Scatter} (holds : HoldsKeys ref idx Filed filed s.subMsgs)
    (source : Source keys s.r.toPacket) (inside : ∀ k ∈ keys, idx (ref k).text < ncontinuum) :
    ∃ s', scatterKeys idx file ncontinuum (keys.map ref) s = some s' ∧
      HoldsKeys ref idx Filed (filed ++ keys) s'.subMsgs ∧ Source [] s'.r.toPacket ∧
      s'.r = { s.r with toPacket := s'.r.toPacket } := by
  induction keys generalizing filed s with
  | nil => exact ⟨s, rfl, by rwa [List.append_nil], source, rfl⟩
  | cons k keys ih =>
    obtain ⟨sub, r, w, done, added, rest⟩ :=
      files.step s.bufs (holds (idx (ref k).text)).1 source
    have next : HoldsKeys ref idx Filed (filed ++ [k])
        (Function.update s.subMsgs (idx (ref k).text) (some sub)) := holds.snoc added
    obtain ⟨s', scattered, holds', source', same⟩ :=
      @ih (filed ++ [k])
        { r := { s.r with toPacket := r }
          subMsgs := Function.update s.subMsgs (idx (ref k).text) (some sub)
          bufs := w } next rest fun k' member => inside k' (List.mem_cons_of_mem k member)
    refine ⟨s', ?_, ?_, source', same⟩
    · rw [List.map_cons, scatterKeys, if_pos (inside k List.mem_cons_self), done]
      exact scattered
    · rwa [List.append_assoc, List.singleton_append] at holds'

end Files

/-! ## Forwarding -/

section Forward

variable {finish : Request → Buffers → Request × Buffers} {subMsgs : Nat → Option Request}

theorem forwardSlots_map_fst (slots : List Nat) (w : Buffers) :
    (forwardSlots finish subMsgs slots w).1.map Prod.fst =
      slots.filter fun slot => (subMsgs slot).isSome := by
  induction slots generalizing w with
  | nil => rfl
  | cons slot slots ih =>
    cases sub : subMsgs slot with
    | none =>
      rw [forwardSlots, sub, List.filter_cons_of_neg (by simp [sub])]
      exact ih w
    | some sub' =>
      rw [forwardSlots, sub, List.filter_cons_of_pos (by simp [sub]), ← ih (finish sub' w).2]
      rfl

/-- What is forwarded are the finished fragments. -/
theorem mem_forwardSlots {slots : List Nat} {w : Buffers} {slot : Nat} {q : Request}
    (member : (slot, q) ∈ (forwardSlots finish subMsgs slots w).1) :
    ∃ sub w', subMsgs slot = some sub ∧ q = (finish sub w').1 := by
  induction slots generalizing w with
  | nil => cases member
  | cons first slots ih =>
    cases sub : subMsgs first with
    | none =>
      rw [forwardSlots, sub] at member
      exact ih member
    | some sub' =>
      rw [forwardSlots, sub, List.mem_cons] at member
      rcases member with here | later
      · cases here
        exact ⟨sub', w, sub, rfl⟩
      · exact ih later

end Forward

/-- A fragment function forwards, for each slot that has keys, what filing them makes. -/
theorem fragmentKeysBy_files {κ : Type*} {ref : κ → KeyRef} {idx : Bytes → Nat}
    {file : KeyRef → Request → Packet → Buffers → Option (Request × Packet × Buffers)}
    {Filed : List κ → Request → Prop} {Source : List κ → Packet → Prop}
    (files : Files ref file Filed Source) (finish : Request → Buffers → Request × Buffers)
    {ncontinuum : Nat} {keys : List κ} {r : Request} (w : Buffers) (named : r.keys = keys.map ref)
    (source : Source keys r.toPacket) (inside : ∀ k ∈ keys, idx (ref k).text < ncontinuum) :
    ∃ f, fragmentKeysBy idx file finish ncontinuum r w = some f ∧
      f.owner = { r with toPacket := f.owner.toPacket } ∧
      f.fragSeq = keys.map (fun k => idx (ref k).text) ∧
      f.frags.map Prod.fst =
        (List.range ncontinuum).filter (fun slot => keysOf ref idx keys slot ≠ []) ∧
      ∀ slot q, (slot, q) ∈ f.frags →
        ∃ sub w', Filed (keysOf ref idx keys slot) sub ∧ q = (finish sub w').1 := by
  obtain ⟨s, scattered, holds, -, same⟩ :=
    @scatterKeys_files _ _ idx _ _ _ files ncontinuum _ _ ⟨r, fun _ => none, w⟩
      (holdsKeys_nil files) source inside
  rw [List.nil_append] at holds
  rw [← named] at scattered
  refine ⟨_, by rw [fragmentKeysBy, scattered, Option.map_some], same, ?_, ?_, ?_⟩
  · rw [named, List.map_map]
    rfl
  · refine (forwardSlots_map_fst _ _).trans (List.filter_congr fun slot _ => ?_)
    have empty := (holds slot).2
    cases sub : s.subMsgs slot <;> simp_all
  · intro slot q member
    obtain ⟨sub, w', found, rfl⟩ := mem_forwardSlots member
    have filed := (holds slot).1
    rw [found, Option.getD_some] at filed
    exact ⟨sub, w', filed, rfl⟩

end Nutcracker
