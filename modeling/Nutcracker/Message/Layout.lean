import Nutcracker.Message.Coalesce

/-!
# Items laid out in a chain

The coalescers take a reply for a sequence of items: bulks, or blocks of a value.  Each begins
with a line that says how long the item is, and depends on that line lying in one mbuf.  Taking
the first item from a chain leaves a chain in which the other items are laid out.
-/

namespace Nutcracker

open Lib

/-- Something that is moved as a whole, and the part of it that has to lie in one mbuf. -/
structure Item where
  line : Bytes
  rest : Bytes

namespace Item

def whole (item : Item) : Bytes :=
  item.line ++ item.rest

/-- The bytes of some items. -/
def bytes (items : List Item) : Bytes :=
  items.flatMap whole

@[simp] theorem bytes_nil : bytes [] = [] := rfl

@[simp] theorem bytes_cons (item : Item) (items : List Item) :
    bytes (item :: items) = item.whole ++ bytes items :=
  List.flatMap_cons

@[simp] theorem bytes_append (items items' : List Item) :
    bytes (items ++ items') = bytes items ++ bytes items' :=
  List.flatMap_append

end Item

/-- The bytes of the chain are the items, and the line of each lies in one mbuf. -/
structure Laid (items : List Item) (chain : List Mbuf) : Prop where
  bytes : chainBytes chain = Item.bytes items
  lines : ∀ pre item post, items = pre ++ item :: post →
    item.line ≠ [] ∧ InOnePage (chain.map Mbuf.data) (Item.bytes pre) item.line

namespace Laid

variable {items : List Item} {item : Item} {chain : List Mbuf}

theorem dropEmpty (laid : Laid items chain) (w : Buffers) : Laid items (dropEmpty chain w).1 := by
  induction chain generalizing w with
  | nil => exact laid
  | cons b chain ih =>
    rw [Nutcracker.dropEmpty]
    split
    · rename_i empty
      refine ih ⟨?_, fun pre item post split => ?_⟩ _
      · have bytes := laid.bytes
        rwa [chainBytes_cons, empty, List.nil_append] at bytes
      · obtain ⟨nonempty, inside⟩ := laid.lines pre item post split
        rw [List.map_cons, empty] at inside
        exact ⟨nonempty, inside.of_cons_nil nonempty⟩
    · exact laid

/-- An empty chain has no items. -/
theorem eq_nil (laid : Laid items []) : items = [] := by
  cases items with
  | nil => rfl
  | cons item items =>
    obtain ⟨nonempty, -⟩ := laid.lines [] item items rfl
    have bytes := laid.bytes
    rw [chainBytes_nil, Item.bytes_cons, Item.whole, List.append_assoc] at bytes
    exact absurd (List.append_eq_nil_iff.mp bytes.symm).1 nonempty

theorem line_head {b : Mbuf} (laid : Laid (item :: items) (b :: chain)) (nonempty : b.data ≠ []) :
    item.line <+: b.data := by
  obtain ⟨-, inside⟩ := laid.lines [] item items rfl
  exact inside.head nonempty

/-- The mbuf that holds the line of the first item. -/
theorem exists_first (laid : Laid (item :: items) chain) (w : Buffers) :
    ∃ b rest w', Nutcracker.dropEmpty chain w = (b :: rest, w') ∧ Laid (item :: items) (b :: rest) ∧
      item.line <+: b.data := by
  have laid' := laid.dropEmpty w
  cases left : Nutcracker.dropEmpty chain w with
  | mk rest w' =>
    rw [left] at laid'
    cases rest with
    | nil => exact absurd laid'.eq_nil (List.cons_ne_nil _ _)
    | cons b rest =>
      have nonempty : b.data ≠ [] := dropEmpty_head (congrArg Prod.fst left)
      exact ⟨b, rest, w', rfl, laid', laid'.line_head nonempty⟩

/-- The items behind the first, in the chain that is left when that is taken. -/
theorem remaining (laid : Laid (item :: items) chain) :
    Laid items (remaining (takeMbufs item.whole.length chain)) := by
  constructor
  · rw [chainBytes_remaining, laid.bytes, Item.bytes_cons, List.drop_left]
  · intro pre item' post split
    obtain ⟨nonempty, inside⟩ := laid.lines (item :: pre) item' post (by rw [split]; rfl)
    rw [map_remaining]
    rw [Item.bytes_cons] at inside
    exact ⟨nonempty, inside.chop nonempty⟩

end Laid

end Nutcracker
