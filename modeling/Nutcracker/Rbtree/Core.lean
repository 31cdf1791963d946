import Nutcracker.Lib.RedBlack

/-!
# The tree of timeouts

`nc_rbtree.c` over a memory of nodes.  A pointer is the address of a node, or `NULL`, at which
every access fails.  The two sides of the tree are a parameter here: the source has each piece of
code twice, with `left` and `right` exchanged.
-/

namespace Nutcracker

open Lib.RedBlack

/-- A pointer to a node. -/
abbrev NodePtr := Option Nat

/-- `struct rbnode`.  The key is compared, and the data is cleared when the node leaves the
tree. -/
structure RbNode where
  left : NodePtr := none
  right : NodePtr := none
  parent : NodePtr := none
  key : Int := 0
  data : Option Nat := none
  color : Color := .black
  deriving DecidableEq, Repr

namespace RbNode

def child : Side → RbNode → NodePtr
  | .left, n => n.left
  | .right, n => n.right

def setChild : Side → NodePtr → RbNode → RbNode
  | .left, p, n => { n with left := p }
  | .right, p, n => { n with right := p }

/-- A node that is in no tree.  The colour is left as it is. -/
def init (n : RbNode) : RbNode :=
  { color := n.color }

end RbNode

/-- `struct rbtree`, with the memory of the nodes. -/
structure Rbtree where
  heap : Nat → RbNode
  root : NodePtr
  sentinel : Nat

namespace Rbtree

/-- Change the node at an address. -/
def modify (m : Rbtree) (a : Nat) (f : RbNode → RbNode) : Rbtree :=
  { m with heap := Function.update m.heap a (f (m.heap a)) }

def setChild (m : Rbtree) (s : Side) (a : Nat) (value : NodePtr) : Rbtree :=
  m.modify a (RbNode.setChild s value)

def setParent (m : Rbtree) (a : Nat) (value : NodePtr) : Rbtree :=
  m.modify a fun n => { n with parent := value }

def setColor (m : Rbtree) (a : Nat) (c : Color) : Rbtree :=
  m.modify a fun n => { n with color := c }

/-- `rbtree_init`, given the node that is to be the sentinel. -/
def init (heap : Nat → RbNode) (node : Nat) : Rbtree where
  heap := Function.update heap node { (heap node).init with color := .black }
  root := some node
  sentinel := node

end Rbtree

/-- Code that works on a tree and may dereference `NULL`. -/
abbrev RbM := StateT Rbtree Option

namespace RbM

/-- Read a field of the node that a pointer leads to. -/
def read {α : Type} (f : RbNode → α) (p : NodePtr) : RbM α :=
  fun m => p.map fun a => (f (m.heap a), m)

/-- Write to the node that a pointer leads to. -/
def write (f : Rbtree → Nat → Rbtree) (p : NodePtr) : RbM Unit :=
  fun m => p.map fun a => ((), f m a)

def child (s : Side) : NodePtr → RbM NodePtr :=
  read (RbNode.child s)

def parent : NodePtr → RbM NodePtr :=
  read RbNode.parent

def key : NodePtr → RbM Int :=
  read RbNode.key

def color : NodePtr → RbM Color :=
  read RbNode.color

def setChild (s : Side) (p value : NodePtr) : RbM Unit :=
  write (fun m a => m.setChild s a value) p

def setParent (p value : NodePtr) : RbM Unit :=
  write (fun m a => m.setParent a value) p

/-- `rbtree_red` and `rbtree_black`. -/
def setColor (p : NodePtr) (c : Color) : RbM Unit :=
  write (fun m a => m.setColor a c) p

/-- `rbtree_node_init`. -/
def nodeInit (p : NodePtr) : RbM Unit :=
  write (fun m a => m.modify a RbNode.init) p

def root : RbM NodePtr :=
  fun m => some (m.root, m)

def setRoot (p : NodePtr) : RbM Unit :=
  fun m => some ((), { m with root := p })

def sentinel : RbM NodePtr :=
  fun m => some (some m.sentinel, m)

/-! ## The smallest key -/

/-- `rbtree_node_min`.  The fuel bounds the number of iterations. -/
def nodeMin : Nat → NodePtr → RbM NodePtr
  | 0, _ => failure
  | fuel + 1, node => do
      if (← child .left node) ≠ (← sentinel) then nodeMin fuel (← child .left node)
      else pure node

/-- `rbtree_min`. -/
def min (fuel : Nat) : RbM NodePtr := do
  let node ← root
  if node = (← sentinel) then pure none else nodeMin fuel node

/-! ## Rotations -/

/-- `rbtree_left_rotate` for the left side and `rbtree_right_rotate` for the right one. -/
def rotate (s : Side) (node : NodePtr) : RbM Unit := do
  let temp ← child s.other node
  setChild s.other node (← child s temp)
  if (← child s temp) ≠ (← sentinel) then setParent (← child s temp) node
  setParent temp (← parent node)
  if node = (← root) then setRoot temp
  else if node = (← child s (← parent node)) then setChild s (← parent node) temp
  else setChild s.other (← parent node) temp
  setChild s temp node
  setParent node temp

/-! ## Insertion -/

/-- The search for the place of a new node: the node above it, and the side. -/
def insertPlace (node : NodePtr) : Nat → NodePtr → RbM (NodePtr × Side)
  | 0, _ => failure
  | fuel + 1, temp => do
      let side := if (← key node) < (← key temp) then Side.left else Side.right
      if (← child side temp) = (← sentinel) then pure (temp, side)
      else insertPlace node fuel (← child side temp)

/-- The body of the loop that restores the balance, for a parent that is the child on side `s` of
its own parent. -/
def insertBalance (s : Side) (node : NodePtr) : RbM NodePtr := do
  let temp ← child s.other (← parent (← parent node))
  if (← color temp) = .red then
    setColor (← parent node) .black
    setColor temp .black
    setColor (← parent (← parent node)) .red
    parent (← parent node)
  else
    let node ←
      if node = (← child s.other (← parent node)) then do
        let node ← parent node
        rotate s node
        pure node
      else pure node
    setColor (← parent node) .black
    setColor (← parent (← parent node)) .red
    rotate s.other (← parent (← parent node))
    pure node

/-- The loop that restores the balance. -/
def insertLoop : Nat → NodePtr → RbM Unit
  | 0, _ => failure
  | fuel + 1, node => do
      if node = (← root) then pure ()
      else if (← color (← parent node)) = .black then pure ()
      else if (← parent node) = (← child .left (← parent (← parent node))) then
        insertLoop fuel (← insertBalance .left node)
      else insertLoop fuel (← insertBalance .right node)

/-- `rbtree_insert`. -/
def insert (fuel : Nat) (node : NodePtr) : RbM Unit := do
  if (← root) = (← sentinel) then
    setParent node none
    setChild .left node (← sentinel)
    setChild .right node (← sentinel)
    setColor node .black
    setRoot node
  else
    let (temp, side) ← insertPlace node fuel (← root)
    setChild side temp node
    setParent node temp
    setChild .left node (← sentinel)
    setChild .right node (← sentinel)
    setColor node .red
    insertLoop fuel node
    setColor (← root) .black

/-! ## Deletion -/

/-- Both children of a node are black. -/
def childrenBlack (w : NodePtr) : RbM Bool := do
  if (← color (← child .left w)) = .black then
    pure (decide ((← color (← child .right w)) = .black))
  else pure false

/-- The sibling `w` of a node that is the child on side `s` of its parent.  A red sibling is rotated
up first, which leaves a black one in its place. -/
def deleteSibling (s : Side) (temp : NodePtr) : RbM NodePtr := do
  let w ← child s.other (← parent temp)
  if (← color w) = .red then
    setColor w .black
    setColor (← parent temp) .red
    rotate s (← parent temp)
    child s.other (← parent temp)
  else pure w

/-- The last rotation, for a sibling whose child on the outer side is red. -/
def deleteFinish (s : Side) (temp w : NodePtr) : RbM NodePtr := do
  setColor w (← color (← parent temp))
  setColor (← parent temp) .black
  setColor (← child s.other w) .black
  rotate s (← parent temp)
  root

/-- What is done with a black sibling. -/
def deleteSettle (s : Side) (temp w : NodePtr) : RbM NodePtr := do
  if ← childrenBlack w then
    setColor w .red
    parent temp
  else if (← color (← child s.other w)) = .black then
    setColor (← child s w) .black
    setColor w .red
    rotate s.other w
    let w ← child s.other (← parent temp)
    deleteFinish s temp w
  else deleteFinish s temp w

/-- The body of the loop that restores the balance, for a node that is the child on side `s` of its
parent. -/
def deleteBalance (s : Side) (temp : NodePtr) : RbM NodePtr := do
  let w ← deleteSibling s temp
  deleteSettle s temp w

/-- The loop that restores the balance. -/
def deleteLoop : Nat → NodePtr → RbM Unit
  | 0, _ => failure
  | fuel + 1, temp => do
      if temp = (← root) then setColor temp .black
      else if (← color temp) = .red then setColor temp .black
      else if temp = (← child .left (← parent temp)) then
        deleteLoop fuel (← deleteBalance .left temp)
      else deleteLoop fuel (← deleteBalance .right temp)

/-- Let the parent of a node point to another one in its place. -/
def replaceChild (node value : NodePtr) : RbM Unit := do
  if node = (← child .left (← parent node)) then setChild .left (← parent node) value
  else setChild .right (← parent node) value

/-- `subst` gets the links and the colour of `node`. -/
def copyNode (node subst : NodePtr) : RbM Unit := do
  setChild .left subst (← child .left node)
  setChild .right subst (← child .right node)
  setParent subst (← parent node)
  setColor subst (← color node)

/-- What points to `node` from above points to `subst` instead. -/
def relink (node subst : NodePtr) : RbM Unit := do
  if node = (← root) then setRoot subst else replaceChild node subst

/-- The child of `subst` on side `s` gets it as its parent. -/
def adopt (s : Side) (subst : NodePtr) : RbM Unit := do
  if (← child s subst) ≠ (← sentinel) then setParent (← child s subst) subst

/-- `subst` takes the place of `node`. -/
def takePlace (node subst : NodePtr) : RbM Unit := do
  copyNode node subst
  relink node subst
  adopt .left subst
  adopt .right subst

/-- `subst` takes the place of `node`, after `temp` has taken the place of `subst`. -/
def substitute (node subst temp : NodePtr) : RbM Unit := do
  if (← parent subst) = node then setParent temp subst
  else setParent temp (← parent subst)
  takePlace node subst

/-- The node that is unlinked in place of `node`, and the child that moves up. -/
def deleteChoice (fuel : Nat) (node : NodePtr) : RbM (NodePtr × NodePtr) := do
  if (← child .left node) = (← sentinel) then pure (node, ← child .right node)
  else if (← child .right node) = (← sentinel) then pure (node, ← child .left node)
  else
    let subst ← nodeMin fuel (← child .right node)
    pure (subst, ← child .right subst)

/-- `rbtree_delete`. -/
def delete (fuel : Nat) (node : NodePtr) : RbM Unit := do
  let (subst, temp) ← deleteChoice fuel node
  if subst = (← root) then
    setRoot temp
    setColor temp .black
    nodeInit node
  else
    let taken ← color subst
    replaceChild subst temp
    if subst = node then setParent temp (← parent subst) else substitute node subst temp
    nodeInit node
    if taken = .red then pure () else deleteLoop fuel temp

end RbM

end Nutcracker
