import Nutcracker.Rbtree.Core

/-!
# Trees in memory

A tree is in memory if every node has the colour and the key it should have, points to its
children, and is pointed to by them as their parent.  The parent of the root is a parameter: it is
`NULL` where the root was inserted into an empty tree, but a root that takes the place of a deleted
one keeps the address of the node that has left the tree.
-/

namespace Nutcracker

open Lib.RedBlack ColorTree

/-- A node of the tree, with its key. -/
structure RbEntry where
  node : Nat
  key : Int
  deriving DecidableEq, Repr

namespace Rbtree

/-- The addresses in a tree. -/
def addresses (t : ColorTree RbEntry) : List Nat :=
  t.inorder.map RbEntry.node

/-- The address of the root of a subtree. -/
def address (m : Rbtree) : ColorTree RbEntry → Nat
  | .nil => m.sentinel
  | .node _ _ x _ => x.node

/-- The node `x` has children at `p` and `q`, of which the first is on side `s`. -/
structure Cell (m : Rbtree) (s : Side) (c : Color) (p : Nat) (x : RbEntry) (q : Nat) : Prop where
  color : (m.heap x.node).color = c
  key : (m.heap x.node).key = x.key
  near : (m.heap x.node).child s = some p
  far : (m.heap x.node).child s.other = some q
  nearParent : p ≠ m.sentinel → (m.heap p).parent = some x.node
  farParent : q ≠ m.sentinel → (m.heap q).parent = some x.node

/-- A subtree is in memory. -/
def Linked (m : Rbtree) : ColorTree RbEntry → Prop
  | .nil => True
  | .node c l x r => m.Cell .left c (m.address l) x (m.address r) ∧ m.Linked l ∧ m.Linked r

/-- The nodes of a path are in memory, with the subtree at address `p` below them and `up` as the
parent of the root. -/
def Above (m : Rbtree) (up : NodePtr) : List (Frame RbEntry) → Nat → Prop
  | [], p => m.root = some p ∧ (p ≠ m.sentinel → (m.heap p).parent = up)
  | f :: fs, p =>
      m.Cell f.side f.color p f.value (m.address f.sibling) ∧ m.Linked f.sibling ∧
        m.Above up fs f.value.node

/-- The tree in memory, whose root has the parent `up`. -/
structure Shows (m : Rbtree) (up : NodePtr) (t : ColorTree RbEntry) : Prop where
  root : m.root = some (m.address t)
  top : m.address t ≠ m.sentinel → (m.heap (m.address t)).parent = up
  linked : m.Linked t
  distinct : (addresses t).Nodup
  outside : m.sentinel ∉ addresses t
  black : (m.heap m.sentinel).color = .black

variable {m m' : Rbtree} {s : Side} {c : Color} {a b t : ColorTree RbEntry} {x : RbEntry}
  {fs : List (Frame RbEntry)} {up : NodePtr}

/-! ## Looking at a subtree -/

theorem Cell.swap {p q : Nat} (cell : m.Cell s c p x q) : m.Cell s.other c q x p where
  color := cell.color
  key := cell.key
  near := cell.far
  far := by rw [Side.other_other]; exact cell.near
  nearParent := cell.farParent
  farParent := cell.nearParent

@[simp]
theorem address_join : m.address (join s c a x b) = x.node := by
  cases s <;> rfl

theorem linked_join :
    m.Linked (join s c a x b) ↔ m.Cell s c (m.address a) x (m.address b) ∧ m.Linked a ∧
      m.Linked b := by
  cases s with
  | left => rfl
  | right =>
    constructor
    · rintro ⟨cell, left, right⟩
      exact ⟨cell.swap, right, left⟩
    · rintro ⟨cell, near, far⟩
      exact ⟨cell.swap, far, near⟩

/-- A tree is in memory if a subtree and the path to it are. -/
theorem linked_plug :
    (m.root = some (m.address (plug fs t)) ∧ (m.address (plug fs t) ≠ m.sentinel →
        (m.heap (m.address (plug fs t))).parent = up)) ∧ m.Linked (plug fs t) ↔
      m.Above up fs (m.address t) ∧ m.Linked t := by
  induction fs generalizing t with
  | nil => rfl
  | cons f fs ih =>
    rw [plug_cons, ih, Frame.fill, linked_join, address_join, Above]
    tauto

@[simp]
theorem addresses_join :
    (addresses (join s c a x b)).Perm (x.node :: (addresses a ++ addresses b)) := by
  cases s with
  | left =>
    simp only [addresses, join, inorder, List.map_append, List.map_cons]
    exact List.perm_middle
  | right =>
    simp only [addresses, join, inorder, List.map_append, List.map_cons]
    exact List.perm_middle.trans (List.Perm.cons _ List.perm_append_comm)

/-- The addresses on a path. -/
def pathAddresses (fs : List (Frame RbEntry)) : List Nat :=
  (before fs).map RbEntry.node ++ (after fs).map RbEntry.node

theorem addresses_plug : (addresses (plug fs t)).Perm (addresses t ++ pathAddresses fs) := by
  rw [addresses, inorder_plug, pathAddresses, List.map_append, List.map_append, List.append_assoc]
  refine (List.perm_append_comm_assoc _ _ _).trans ?_
  rfl

theorem pathAddresses_cons (f : Frame RbEntry) (fs : List (Frame RbEntry)) :
    (pathAddresses (f :: fs)).Perm
      (f.value.node :: (addresses f.sibling ++ pathAddresses fs)) := by
  have whole : (addresses (plug (f :: fs) .nil)).Perm (pathAddresses (f :: fs)) := addresses_plug
  have rest : (addresses (plug fs (f.fill .nil))).Perm
      (addresses (f.fill .nil) ++ pathAddresses fs) := addresses_plug
  have here := addresses_join (s := f.side) (c := f.color) (a := .nil) (x := f.value)
    (b := f.sibling)
  exact whole.symm.trans (rest.trans (here.append_right _))

/-! ## Reading what was written -/

section Fields

variable {z d : Nat} {s' : Side} {v : NodePtr} {c' : Color}

@[simp]
theorem child_setChild (n : RbNode) :
    (n.setChild s v).child s' = if s' = s then v else n.child s' := by
  cases s <;> cases s' <;> rfl

theorem heap_modify (f : RbNode → RbNode) :
    (m.modify d f).heap z = if z = d then f (m.heap z) else m.heap z := by
  unfold modify
  by_cases here : z = d
  · subst here
    simp
  · simp [Function.update, here]

@[simp]
theorem child_heap_setChild :
    ((m.setChild s d v).heap z).child s' =
      if z = d ∧ s' = s then v else (m.heap z).child s' := by
  rw [setChild, heap_modify]
  by_cases here : z = d
  · simp [here]
  · simp [here]

@[simp]
theorem parent_heap_setChild : ((m.setChild s d v).heap z).parent = (m.heap z).parent := by
  rw [setChild, heap_modify]
  cases s <;> split <;> rfl

@[simp]
theorem color_heap_setChild : ((m.setChild s d v).heap z).color = (m.heap z).color := by
  rw [setChild, heap_modify]
  cases s <;> split <;> rfl

@[simp]
theorem key_heap_setChild : ((m.setChild s d v).heap z).key = (m.heap z).key := by
  rw [setChild, heap_modify]
  cases s <;> split <;> rfl

@[simp]
theorem child_heap_setParent : ((m.setParent d v).heap z).child s' = (m.heap z).child s' := by
  rw [setParent, heap_modify]
  cases s' <;> split <;> rfl

@[simp]
theorem parent_heap_setParent :
    ((m.setParent d v).heap z).parent = if z = d then v else (m.heap z).parent := by
  rw [setParent, heap_modify]
  split <;> rfl

@[simp]
theorem color_heap_setParent : ((m.setParent d v).heap z).color = (m.heap z).color := by
  rw [setParent, heap_modify]
  split <;> rfl

@[simp]
theorem key_heap_setParent : ((m.setParent d v).heap z).key = (m.heap z).key := by
  rw [setParent, heap_modify]
  split <;> rfl

@[simp]
theorem child_heap_setColor : ((m.setColor d c').heap z).child s' = (m.heap z).child s' := by
  rw [setColor, heap_modify]
  cases s' <;> split <;> rfl

@[simp]
theorem parent_heap_setColor : ((m.setColor d c').heap z).parent = (m.heap z).parent := by
  rw [setColor, heap_modify]
  split <;> rfl

@[simp]
theorem color_heap_setColor :
    ((m.setColor d c').heap z).color = if z = d then c' else (m.heap z).color := by
  rw [setColor, heap_modify]
  split <;> rfl

@[simp]
theorem key_heap_setColor : ((m.setColor d c').heap z).key = (m.heap z).key := by
  rw [setColor, heap_modify]
  split <;> rfl

@[simp] theorem sentinel_modify (f : RbNode → RbNode) : (m.modify d f).sentinel = m.sentinel := rfl
@[simp] theorem root_setChild : (m.setChild s d v).root = m.root := rfl
@[simp] theorem root_setParent : (m.setParent d v).root = m.root := rfl
@[simp] theorem root_setColor : (m.setColor d c').root = m.root := rfl
@[simp] theorem sentinel_setChild : (m.setChild s d v).sentinel = m.sentinel := rfl
@[simp] theorem sentinel_setParent : (m.setParent d v).sentinel = m.sentinel := rfl
@[simp] theorem sentinel_setColor : (m.setColor d c').sentinel = m.sentinel := rfl

@[simp]
theorem address_modify (f : RbNode → RbNode) : (m.modify d f).address t = m.address t := by
  cases t <;> rfl

@[simp]
theorem address_setParent : (m.setParent d v).address t = m.address t := by
  cases t <;> rfl

end Fields

end Rbtree

namespace RbM

/-! ## Running the code -/

section Run

variable {m : Rbtree} {α β : Type}

@[simp]
theorem bind_apply (code : RbM α) (f : α → RbM β) :
    (code >>= f) m = (code m).bind fun r => f r.1 r.2 :=
  rfl

@[simp]
theorem map_apply (code : RbM α) (f : α → β) :
    (f <$> code) m = (code m).map fun r => (f r.1, r.2) := by
  change (code m).bind (fun r => some (f r.1, r.2)) = _
  cases code m <;> rfl

@[simp] theorem pure_apply (x : α) : (pure x : RbM α) m = some (x, m) := rfl

@[simp]
theorem ite_apply (condition : Prop) [Decidable condition] (yes no : RbM α) :
    (if condition then yes else no) m = if condition then yes m else no m := by
  split <;> rfl

@[simp]
theorem child_apply (s : Side) (a : Nat) :
    child s (some a) m = some ((m.heap a).child s, m) :=
  rfl

@[simp] theorem parent_apply (a : Nat) : parent (some a) m = some ((m.heap a).parent, m) := rfl

@[simp] theorem key_apply (a : Nat) : key (some a) m = some ((m.heap a).key, m) := rfl

@[simp] theorem color_apply (a : Nat) : color (some a) m = some ((m.heap a).color, m) := rfl

@[simp]
theorem setChild_apply (s : Side) (a : Nat) (v : NodePtr) :
    setChild s (some a) v m = some ((), m.setChild s a v) :=
  rfl

@[simp]
theorem setParent_apply (a : Nat) (v : NodePtr) :
    setParent (some a) v m = some ((), m.setParent a v) :=
  rfl

@[simp]
theorem setColor_apply (a : Nat) (c : Color) :
    setColor (some a) c m = some ((), m.setColor a c) :=
  rfl

@[simp]
theorem nodeInit_apply (a : Nat) : nodeInit (some a) m = some ((), m.modify a RbNode.init) := rfl

@[simp] theorem root_apply : root m = some (m.root, m) := rfl

@[simp] theorem setRoot_apply (p : NodePtr) : setRoot p m = some ((), { m with root := p }) := rfl

@[simp] theorem sentinel_apply : sentinel m = some (some m.sentinel, m) := rfl

end Run

end RbM

end Nutcracker
