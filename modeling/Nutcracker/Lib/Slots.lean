import Mathlib.Data.List.GetD
import Mathlib.Data.List.Perm.Basic

/-!
# Filing items into a table of slots

A table has a fixed number of slots, each empty or holding an accumulator.  Filing
an item under a slot number creates the accumulator on its first use and folds the
item into it; a number past the end of the table is an access that does not exist,
so the operation is partial.  After filing a list of items, every slot holds the
fold of exactly the items filed under its number, in their order.
-/

namespace Nutcracker.Lib

variable {α β : Type*}

/-- File one item under its slot number. -/
def fileOne (fresh : α) (f : α → β → α) (slots : List (Option α)) (item : Nat × β) :
    Option (List (Option α)) :=
  if item.1 < slots.length then
    some (slots.set item.1 (some (f ((slots.getD item.1 none).getD fresh) item.2)))
  else
    none

/-- File the items one after the other. -/
def fileAll (fresh : α) (f : α → β → α) (slots : List (Option α)) (items : List (Nat × β)) :
    Option (List (Option α)) :=
  items.foldlM (fileOne fresh f) slots

/-- The items filed under slot `i`. -/
def filedUnder (items : List (Nat × β)) (i : Nat) : List β :=
  (items.filter (·.1 = i)).map (·.2)

/-- What filing the items `bs` makes of one slot. -/
def settleSlot (fresh : α) (f : α → β → α) (slot : Option α) (bs : List β) : Option α :=
  if bs = [] then slot else some (bs.foldl f (slot.getD fresh))

@[simp]
theorem filedUnder_nil (i : Nat) : filedUnder ([] : List (Nat × β)) i = [] :=
  rfl

theorem filedUnder_cons_self (i : Nat) (b : β) (items : List (Nat × β)) :
    filedUnder ((i, b) :: items) i = b :: filedUnder items i := by
  simp [filedUnder]

theorem filedUnder_cons_of_ne {i j : Nat} (differ : j ≠ i) (b : β) (items : List (Nat × β)) :
    filedUnder ((j, b) :: items) i = filedUnder items i := by
  simp [filedUnder, differ]

theorem mem_filedUnder {items : List (Nat × β)} {i : Nat} {b : β} :
    b ∈ filedUnder items i ↔ (i, b) ∈ items := by
  simp [filedUnder]

@[simp]
theorem settleSlot_nil (fresh : α) (f : α → β → α) (slot : Option α) :
    settleSlot fresh f slot [] = slot :=
  rfl

/-- The first of several items settles the slot for the others. -/
theorem settleSlot_cons (fresh : α) (f : α → β → α) (slot : Option α) (b : β) (bs : List β) :
    settleSlot fresh f slot (b :: bs) =
      settleSlot fresh f (some (f (slot.getD fresh) b)) bs := by
  cases bs <;> simp [settleSlot]

section Filing

variable {fresh : α} {f : α → β → α}

/-- Filing succeeds exactly when every item names a slot of the table. -/
theorem fileAll_isSome_iff {slots : List (Option α)} {items : List (Nat × β)} :
    (fileAll fresh f slots items).isSome ↔ ∀ item ∈ items, item.1 < slots.length := by
  induction items generalizing slots with
  | nil => simp [fileAll]
  | cons item items ih =>
    by_cases inside : item.1 < slots.length
    · have filed : fileOne fresh f slots item =
          some (slots.set item.1 (some (f ((slots.getD item.1 none).getD fresh) item.2))) :=
        if_pos inside
      have rest := @ih (slots.set item.1 (some (f ((slots.getD item.1 none).getD fresh) item.2)))
      rw [List.length_set] at rest
      simp only [fileAll, List.foldlM_cons, filed, Option.bind_eq_bind, Option.bind_some,
        List.forall_mem_cons, inside, true_and]
      exact rest
    · have refused : fileOne fresh f slots item = none := if_neg inside
      simp [fileAll, refused, inside]

/-- After filing, a slot holds the fold of the items filed under its number. -/
theorem fileAll_getElem? {slots slots' : List (Option α)} {items : List (Nat × β)}
    (filed : fileAll fresh f slots items = some slots') (i : Nat) :
    slots'[i]? = slots[i]?.map fun slot => settleSlot fresh f slot (filedUnder items i) := by
  induction items generalizing slots with
  | nil =>
    cases filed
    simp
  | cons item items ih =>
    obtain ⟨j, b⟩ := item
    simp only [fileAll, List.foldlM_cons, Option.bind_eq_bind,
      Option.bind_eq_some_iff] at filed
    obtain ⟨middle, first, rest⟩ := filed
    rw [ih rest]
    unfold fileOne at first
    split at first
    · rename_i inside
      cases first
      rw [List.getElem?_set]
      by_cases same : j = i
      · subst same
        simp only [if_true, inside, List.getElem?_eq_getElem, Option.map_some,
          filedUnder_cons_self, settleSlot_cons, List.getD_eq_getElem]
      · simp only [same, if_false, filedUnder_cons_of_ne same]
    · cases first

/-- Filing into an empty table: the accumulators, in slot order, are the folds of the
items of the numbers that were used. -/
theorem fileAll_replicate {n : Nat} {slots' : List (Option α)} {items : List (Nat × β)}
    (filed : fileAll fresh f (List.replicate n none) items = some slots') :
    slots' = (List.range n).map fun i => settleSlot fresh f none (filedUnder items i) := by
  apply List.ext_getElem?
  intro i
  rw [fileAll_getElem? filed i, List.getElem?_map]
  by_cases inside : i < n
  · simp [inside]
  · simp [inside]

end Filing

/-! ## Collecting the items -/

/-- The items of each used slot, in slot order. -/
def collected (slots : List (Option (List β))) : List (List β) :=
  slots.filterMap id

/-- Adding an item to one of several lists adds it to their concatenation. -/
private theorem flatMap_cons_perm {n j : Nat} (inside : j < n) (g : Nat → List β) (b : β) :
    ((List.range n).flatMap fun i => if i = j then b :: g i else g i).Perm
      (b :: (List.range n).flatMap g) := by
  obtain ⟨before, after, split⟩ := List.append_of_mem (List.mem_range.mpr inside)
  have distinct := List.nodup_range (n := n)
  rw [split, List.nodup_append] at distinct
  have outside : ∀ i ∈ before ++ after, i ≠ j := by
    intro i member
    rcases List.mem_append.mp member with early | late
    · exact distinct.2.2 i early j List.mem_cons_self
    · intro same
      subst same
      exact (List.nodup_cons.mp distinct.2.1).1 late
  have keep : ∀ l : List Nat, (∀ i ∈ l, i ≠ j) →
      (l.flatMap fun i => if i = j then b :: g i else g i) = l.flatMap g := by
    intro l apart
    refine List.flatMap_congr fun i member => ?_
    rw [if_neg (apart i member)]
  rw [split, List.flatMap_append, List.flatMap_cons, List.flatMap_append, List.flatMap_cons,
    keep before fun i member => outside i (List.mem_append_left _ member),
    keep after fun i member => outside i (List.mem_append_right _ member), if_pos rfl]
  exact List.perm_middle

theorem flatMap_filedUnder_perm {n : Nat} {items : List (Nat × β)}
    (inside : ∀ item ∈ items, item.1 < n) :
    ((List.range n).flatMap (filedUnder items)).Perm (items.map (·.2)) := by
  induction items with
  | nil =>
    have empty : (List.range n).flatMap (filedUnder ([] : List (Nat × β))) = [] := by
      simp [List.flatMap_eq_nil_iff]
    rw [empty]
    exact .nil
  | cons item items ih =>
    obtain ⟨j, b⟩ := item
    have unfolded : filedUnder ((j, b) :: items) =
        fun i => if i = j then b :: filedUnder items i else filedUnder items i := by
      funext i
      by_cases same : i = j
      · subst same
        simp [filedUnder_cons_self]
      · rw [if_neg same, filedUnder_cons_of_ne (Ne.symm same)]
    rw [unfolded, List.map_cons]
    have rest := ih fun item member => inside item (List.mem_cons_of_mem _ member)
    exact (flatMap_cons_perm (inside _ List.mem_cons_self) _ b).trans (rest.cons b)

/-- When the accumulators are the lists of the items themselves, collecting them gives the
items filed under each number that was used. -/
theorem collected_fileAll {n : Nat} {slots' : List (Option (List β))} {items : List (Nat × β)}
    (filed : fileAll [] (fun bs b => bs ++ [b]) (List.replicate n none) items = some slots') :
    collected slots' = ((List.range n).map (filedUnder items)).filter (· ≠ []) := by
  have whole : ∀ bs acc : List β, bs.foldl (fun bs b => bs ++ [b]) acc = acc ++ bs := by
    intro bs
    induction bs with
    | nil => simp
    | cons b bs ih => simp [ih]
  rw [fileAll_replicate filed, collected, List.filterMap_map, List.filter_map,
    ← List.filterMap_eq_map, ← List.filterMap_eq_filter, List.filterMap_filterMap]
  refine List.filterMap_congr fun i _ => ?_
  by_cases empty : filedUnder items i = []
  · simp [settleSlot, Option.guard, empty]
  · simp [settleSlot, Option.guard, empty, whole]

/-- Every item is in exactly one of the collected lists. -/
theorem flatten_collected_perm {n : Nat} {slots' : List (Option (List β))}
    {items : List (Nat × β)}
    (filed : fileAll [] (fun bs b => bs ++ [b]) (List.replicate n none) items = some slots') :
    (collected slots').flatten.Perm (items.map (·.2)) := by
  have inside : ∀ item ∈ items, item.1 < n := by
    have success := fileAll_isSome_iff.mp (Option.isSome_of_eq_some filed)
    simpa using success
  rw [collected_fileAll filed, List.flatten_filter_ne_nil, ← List.flatMap_def]
  exact flatMap_filedUnder_perm inside

end Nutcracker.Lib
