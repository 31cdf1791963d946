import Mathlib.Data.List.Induction
import Nutcracker.Rbtree.Insert
import Nutcracker.Rbtree.Delete

/-!
# The queue of timeouts

Nodes are inserted with a key and deleted, in any order.  Whatever the operations are, the memory
holds a red-black tree, in which the nodes stand in the order of their keys, and nodes with equal
keys in the order of their insertion.  The parent of the root is not always `NULL`: the deletion of
the root of a tree of two nodes leaves it at the deleted node, until the tree is empty.
-/

namespace Nutcracker

open Lib.RedBlack

/-- What is done with the tree: a node that is not in the tree gets a key and is inserted, or a node
of the tree is deleted. -/
inductive QueueOp where
  | insert (node : Nat) (key : Int)
  | delete (node : Nat)
  deriving DecidableEq, Repr

namespace QueueOp

/-- The code of an operation. -/
def code (fuel : Nat) : QueueOp → RbM Unit
  | .insert node key => do
      RbM.write (fun m a => m.modify a fun n => { n with key := key }) (some node)
      RbM.insert fuel (some node)
  | .delete node => RbM.delete fuel (some node)

/-- The nodes that are present after an operation, in the order of their insertion. -/
def apply : QueueOp → List RbEntry → List RbEntry
  | .insert node key, present => present ++ [⟨node, key⟩]
  | .delete node, present => present.filter fun x => x.node ≠ node

/-- Only nodes that are not in the tree are inserted, and only nodes of the tree are deleted. -/
def Allowed (sentinel : Nat) (present : List RbEntry) : QueueOp → Prop
  | .insert node _ => node ≠ sentinel ∧ node ∉ present.map RbEntry.node
  | .delete node => node ∈ present.map RbEntry.node

instance (sentinel : Nat) (present : List RbEntry) :
    ∀ op : QueueOp, Decidable (op.Allowed sentinel present)
  | .insert _ _ => inferInstanceAs (Decidable (_ ∧ _))
  | .delete _ => inferInstanceAs (Decidable (_ ∈ _))

/-- The code of a sequence of operations. -/
def run (fuel : Nat) : List QueueOp → RbM Unit
  | [] => pure ()
  | op :: ops => do
      op.code fuel
      run fuel ops

/-- The nodes that are present after a sequence of operations. -/
def applyAll : List QueueOp → List RbEntry → List RbEntry
  | [], present => present
  | op :: ops, present => applyAll ops (op.apply present)

/-- Every operation of a sequence is allowed when its turn comes. -/
def AllAllowed (sentinel : Nat) : List QueueOp → List RbEntry → Prop
  | [], _ => True
  | op :: ops, present => op.Allowed sentinel present ∧ AllAllowed sentinel ops (op.apply present)

instance (sentinel : Nat) :
    ∀ (ops : List QueueOp) (present : List RbEntry), Decidable (AllAllowed sentinel ops present)
  | [], _ => .isTrue trivial
  | op :: ops, present =>
      have := instDecidableAllAllowed sentinel ops (op.apply present)
      inferInstanceAs (Decidable (_ ∧ _))

/-- The tree after an operation. -/
def tree (t : ColorTree RbEntry) : QueueOp → ColorTree RbEntry
  | .insert node key => Lib.RedBlack.insert (Rbtree.keyBefore key) ⟨node, key⟩ t
  | .delete node => deleteFirst (fun x => x.node = node) t

/-- The node is the root of a tree of two nodes. -/
def RootOfTwo (node : Nat) : ColorTree RbEntry → Prop
  | .nil => False
  | .node _ l x r => x.node = node ∧ l.inorder.length + r.inorder.length = 1

instance (node : Nat) : ∀ t : ColorTree RbEntry, Decidable (RootOfTwo node t)
  | .nil => .isFalse id
  | .node _ _ _ _ => inferInstanceAs (Decidable (_ ∧ _))

/-- The parent of the root after an operation. -/
def link (t : ColorTree RbEntry) (up : NodePtr) : QueueOp → NodePtr
  | .insert _ _ => if t = .nil then none else up
  | .delete node => if RootOfTwo node t then some node else up

/-- The tree and the parent of its root after an operation. -/
def grow (state : ColorTree RbEntry × NodePtr) (op : QueueOp) : ColorTree RbEntry × NodePtr :=
  (op.tree state.1, op.link state.1 state.2)

/-- The tree after a sequence of operations on the empty one. -/
def treeOf (ops : List QueueOp) : ColorTree RbEntry :=
  (ops.foldl grow (.nil, none)).1

/-- The parent of the root after a sequence of operations on the empty tree. -/
def linkOf (ops : List QueueOp) : NodePtr :=
  (ops.foldl grow (.nil, none)).2

/-- Since the tree was last empty, the root of a tree of two nodes was deleted. -/
def Orphaned (ops : List QueueOp) : Prop :=
  ∃ earlier node later, ops = earlier ++ .delete node :: later ∧ RootOfTwo node (treeOf earlier) ∧
    ∀ between, between <+: later → treeOf (earlier ++ .delete node :: between) ≠ .nil

section Orphaned

variable {ops : List QueueOp} {op : QueueOp}

theorem treeOf_concat : treeOf (ops ++ [op]) = op.tree (treeOf ops) := by
  simp [treeOf, grow]

theorem linkOf_concat : linkOf (ops ++ [op]) = op.link (treeOf ops) (linkOf ops) := by
  simp [treeOf, linkOf, grow]

theorem Orphaned.ne_nil (orphaned : Orphaned ops) : treeOf ops ≠ .nil := by
  obtain ⟨earlier, node, later, rfl, -, kept⟩ := orphaned
  exact kept later List.prefix_rfl

/-- The last operation deletes the root of two nodes, or it does not empty a tree whose root is
already an orphan. -/
theorem orphaned_concat :
    Orphaned (ops ++ [op]) ↔ treeOf (ops ++ [op]) ≠ .nil ∧
      (Orphaned ops ∨ ∃ node, op = .delete node ∧ RootOfTwo node (treeOf ops)) := by
  constructor
  · intro orphaned
    refine ⟨orphaned.ne_nil, ?_⟩
    obtain ⟨earlier, node, later, split, root, kept⟩ := orphaned
    rcases later.eq_nil_or_concat with rfl | ⟨later, last, rfl⟩
    · obtain ⟨rfl, same⟩ := List.append_inj' split rfl
      exact Or.inr ⟨node, List.singleton_inj.mp same, root⟩
    · rw [List.concat_eq_append] at split kept
      rw [← List.cons_append, ← List.append_assoc] at split
      obtain ⟨rfl, -⟩ := List.append_inj' split rfl
      refine Or.inl ⟨earlier, node, later, rfl, root, fun between starts => ?_⟩
      exact kept between (starts.trans (List.prefix_append _ _))
  · rintro ⟨some_, ⟨earlier, node, later, rfl, root, kept⟩ | ⟨node, rfl, root⟩⟩
    · refine ⟨earlier, node, later ++ [op], by simp, root, fun between starts => ?_⟩
      rcases List.prefix_concat_iff.mp starts with rfl | starts
      · simpa using some_
      · exact kept between starts
    · refine ⟨ops, node, [], rfl, root, fun between starts => ?_⟩
      rwa [List.prefix_nil.mp starts]

/-- The root of a tree that is not empty has a parent if and only if it is an orphan. -/
theorem linkOf_eq_none_iff (some_ : treeOf ops ≠ .nil) : linkOf ops = none ↔ ¬ Orphaned ops := by
  induction ops using List.reverseRecOn with
  | nil => exact absurd rfl some_
  | append_singleton ops op ih =>
    rw [orphaned_concat, linkOf_concat]
    simp only [some_, ne_eq, not_false_eq_true, true_and, not_or]
    cases op with
    | insert node key =>
      simp only [link, reduceCtorEq, false_and, exists_false, not_false_eq_true, and_true]
      by_cases empty : treeOf ops = .nil
      · simp only [if_pos empty, true_iff]
        exact fun orphaned => orphaned.ne_nil empty
      · rw [if_neg empty]
        exact ih empty
    | delete node =>
      have before : treeOf ops ≠ .nil := by
        intro empty
        rw [treeOf_concat, empty] at some_
        exact some_ rfl
      simp only [link, QueueOp.delete.injEq, exists_eq_left']
      by_cases root : RootOfTwo node (treeOf ops)
      · simp [root]
      · simp [root, ih before]

end Orphaned

end QueueOp

namespace Rbtree

variable {m : Rbtree} {up up' : NodePtr} {fs : List (Frame RbEntry)} {c : Color}
  {l r t : ColorTree RbEntry} {x : RbEntry}

/-- An empty tree has no root, and so no parent of it. -/
theorem Shows.relink (shows_ : m.Shows up t) (same : t ≠ .nil → up' = up) : m.Shows up' t where
  root := shows_.root
  top some_ := by
    rw [shows_.top some_, same]
    rintro rfl
    exact some_ rfl
  linked := shows_.linked
  distinct := shows_.distinct
  outside := shows_.outside
  black := shows_.black

theorem inorder_ne_nil (some_ : t ≠ .nil) : 0 < t.inorder.length := by
  cases t with
  | nil => exact absurd rfl some_
  | node =>
    simp only [ColorTree.inorder, List.length_append, List.length_cons]
    omega

/-- A root with at most one child that leaves something is the root of two nodes. -/
theorem Shows.link_delete (shows_ : m.Shows up (plug fs (.node c l x r)))
    (balanced : (plug fs (.node c l x r)).IsRedBlack)
    (some_ : Lib.RedBlack.delete fs (.node c l x r) ≠ .nil) :
    (QueueOp.delete x.node).link (plug fs (.node c l x r)) up =
      if fs = [] ∧ (l = .nil ∨ r = .nil) then some x.node else up := by
  have rest := inorder_ne_nil some_
  rw [inorder_delete] at rest
  cases fs with
  | nil =>
    have two : l.inorder.length + r.inorder.length = 1 ↔ l = .nil ∨ r = .nil := by
      constructor
      · intro one
        by_contra both
        rw [not_or] at both
        have left := inorder_ne_nil both.1
        have right := inorder_ne_nil both.2
        omega
      · simp only [before, after, List.nil_append, List.append_nil, List.length_append] at rest
        rintro (rfl | rfl)
        · have few := ColorTree.IsRedBlack.length_le_one (s := .right) balanced
          simp only [ColorTree.inorder_nil, List.length_nil] at rest ⊢
          omega
        · have few := ColorTree.IsRedBlack.length_le_one (s := .left) balanced
          simp only [ColorTree.inorder_nil, List.length_nil] at rest ⊢
          omega
    simp [QueueOp.link, QueueOp.RootOfTwo, two]
  | cons f fs =>
    have notRoot : ¬ QueueOp.RootOfTwo x.node (plug (f :: fs) (.node c l x r)) := by
      intro two
      refine shows_.root_ne ?_
      rw [shows_.root]
      cases whole : plug (f :: fs) (.node c l x r) with
      | nil => simp [whole, QueueOp.RootOfTwo] at two
      | node c' l' x' r' =>
        rw [whole] at two
        exact congrArg some two.1
    rw [QueueOp.link, if_neg notRoot, if_neg (by simp)]

/-- The parent of the root is `NULL`, if there is a root, exactly if it is no orphan. -/
theorem Shows.rooted_iff {ops : List QueueOp}
    (shows_ : m.Shows (QueueOp.linkOf ops) (QueueOp.treeOf ops)) :
    m.Shows none (QueueOp.treeOf ops) ↔ ¬ QueueOp.Orphaned ops := by
  constructor
  · intro rooted orphaned
    have some_ := orphaned.ne_nil
    have root := address_ne_sentinel some_ shows_.outside
    have link : QueueOp.linkOf ops = none := (shows_.top root).symm.trans (rooted.top root)
    exact (QueueOp.linkOf_eq_none_iff some_).mp link orphaned
  · intro fine
    exact shows_.relink fun some_ => ((QueueOp.linkOf_eq_none_iff some_).mpr fine).symm

end Rbtree

/-- The memory holds the present nodes, in the order of their keys and their insertion. -/
structure Queued (m : Rbtree) (up : NodePtr) (present : List RbEntry) (t : ColorTree RbEntry) :
    Prop where
  shown : m.Shows up t
  balanced : t.IsRedBlack
  sorted : t.inorder.Pairwise fun x y => x.key ≤ y.key
  stable : ∀ key, t.inorder.filter (fun x => x.key = key) = present.filter fun x => x.key = key

namespace Queued

open Rbtree

variable {m : Rbtree} {up : NodePtr} {present : List RbEntry} {t : ColorTree RbEntry} {fuel : Nat}

/-- No node is lost, and none is there twice. -/
theorem perm (queued : Queued m up present t) : t.inorder.Perm present := by
  rw [List.perm_iff_count]
  intro x
  have sameKey : ∀ xs : List RbEntry, (xs.filter fun y => y.key = x.key).count x = xs.count x :=
    fun xs => List.count_filter (by simp)
  rw [← sameKey t.inorder, ← sameKey present, queued.stable]

/-- A new node comes behind those with the same key. -/
theorem insert (queued : Queued m up present t) {node : Nat} {key : Int} (other : node ≠ m.sentinel)
    (fresh : node ∉ present.map RbEntry.node) (enough : present.length < fuel) :
    ∃ m', (QueueOp.insert node key).code fuel m = some ((), m') ∧
      Queued m' ((QueueOp.insert node key).link t up) (present ++ [⟨node, key⟩])
        ((QueueOp.insert node key).tree t) ∧
      m'.sentinel = m.sentinel := by
  have absent : node ∉ addresses t := by
    rwa [addresses, (queued.perm.map RbEntry.node).mem_iff]
  have keyed := queued.shown.modify absent other fun n => { n with key := key }
  have size : t.inorder.length < fuel := queued.perm.length_eq ▸ enough
  obtain ⟨m', run, shows', sentinel⟩ := Shows.insert (x := ⟨node, key⟩) keyed queued.balanced absent
    other (by simp [heap_modify]) size
  -- the place of the new node splits the others
  have split : t.inorder =
      before (descend (keyBefore key) t []) ++ after (descend (keyBefore key) t []) := by
    have whole := inorder_plug (descend (keyBefore key) t []) .nil
    rw [plug_descend] at whole
    simpa [ColorTree.inorder] using whole
  have monotone : (plug [] t).inorder.Pairwise fun x y =>
      keyBefore key x = true → keyBefore key y = true := by
    refine queued.sorted.imp fun {x y} le goesLeft => ?_
    simp only [keyBefore, decide_eq_true_eq] at goesLeft ⊢
    omega
  obtain ⟨early, late⟩ := descend_splits monotone (by simp [before]) (by simp [after])
  simp only [keyBefore, decide_eq_false_iff_not, decide_eq_true_eq] at early late
  have sorted := queued.sorted
  have stable := queued.stable
  rw [split] at sorted stable
  obtain ⟨sortedBefore, sortedAfter, between⟩ := List.pairwise_append.mp sorted
  refine ⟨m', run, ⟨shows', insert_isRedBlack _ _ queued.balanced, ?_, ?_⟩, sentinel⟩
  · rw [QueueOp.tree, inorder_insert]
    refine List.pairwise_append.mpr ⟨sortedBefore, List.pairwise_cons.mpr ⟨?_, sortedAfter⟩, ?_⟩
    · exact fun y member => Int.le_of_lt (late y member)
    · intro y inBefore z member
      rcases List.mem_cons.mp member with rfl | inAfter
      · exact Int.not_lt.mp (early y inBefore)
      · exact between y inBefore z inAfter
  · intro k
    rw [QueueOp.tree, inorder_insert, List.filter_append, List.filter_append, ← stable,
      List.filter_append,
      List.append_assoc]
    by_cases same : key = k
    · subst same
      have behind : (after (descend (keyBefore key) t [])).filter (fun x => x.key = key) = [] := by
        refine List.filter_eq_nil_iff.mpr fun y member => ?_
        have later := late y member
        simp only [decide_eq_true_eq]
        omega
      simp [behind]
    · simp [same]

/-- A deleted node is taken out, and the others stay in their order. -/
theorem delete (queued : Queued m up present t) {node : Nat}
    (member : node ∈ present.map RbEntry.node) (enough : present.length < fuel) :
    ∃ m', (QueueOp.delete node).code fuel m = some ((), m') ∧
      Queued m' ((QueueOp.delete node).link t up) (present.filter fun x => x.node ≠ node)
        ((QueueOp.delete node).tree t) ∧
      m'.sentinel = m.sentinel := by
  obtain ⟨y, inTree, there⟩ : ∃ y ∈ t.inorder, y.node = node := by
    obtain ⟨y, inPresent, same⟩ := List.mem_map.mp member
    exact ⟨y, queued.perm.mem_iff.mpr inPresent, same⟩
  have size : t.inorder.length < fuel := queued.perm.length_eq ▸ enough
  obtain ⟨fs, u, found⟩ := exists_locate (p := fun x => x.node = node) inTree
    (by simpa using there) []
  obtain ⟨place, c, l, x, r, rfl, here⟩ := plug_locate found
  obtain rfl : x.node = node := by simpa using here
  have deleted : (QueueOp.delete x.node).tree t = Lib.RedBlack.delete fs (.node c l x r) := by
    simp only [QueueOp.tree, deleteFirst, found]
  rw [plug_nil] at place
  subst place
  obtain ⟨m', run, shows', sentinel⟩ := queued.shown.delete queued.balanced size
  have whole := inorder_plug fs (.node c l x r)
  -- the other nodes are at other addresses
  have rest : (Lib.RedBlack.delete fs (.node c l x r)).inorder =
      (plug fs (.node c l x r)).inorder.filter fun y => y.node ≠ x.node := by
    have distinct := queued.shown.distinct
    rw [addresses, whole, ColorTree.inorder] at distinct
    simp only [List.map_append, List.map_cons, List.append_assoc, List.cons_append] at distinct
    have others : ∀ y ∈ before fs ++ (l.inorder ++ (r.inorder ++ after fs)), y.node ≠ x.node := by
      rw [← List.append_assoc, ← List.map_append] at distinct
      obtain ⟨absent, -⟩ := List.nodup_cons.mp (List.perm_middle.nodup_iff.mp distinct)
      intro y member same
      refine absent ?_
      rw [← same, ← List.map_append, ← List.map_append]
      exact List.mem_map_of_mem (by simpa using member)
    have keep : ∀ xs : List RbEntry,
        (∀ y ∈ xs, y ∈ before fs ++ (l.inorder ++ (r.inorder ++ after fs))) →
        (xs.filter fun y => y.node ≠ x.node) = xs :=
      fun xs inside => List.filter_eq_self.mpr fun y member => by
        simpa using others y (inside y member)
    rw [inorder_delete, whole, ColorTree.inorder]
    simp only [List.filter_append, List.filter_cons, ne_eq, not_true_eq_false, decide_false,
      Bool.false_eq_true, if_false]
    rw [keep (before fs) (by simp +contextual), keep l.inorder (by simp +contextual),
      keep r.inorder (by simp +contextual), keep (after fs) (by simp +contextual)]
  rw [deleted]
  refine ⟨m', run, ⟨shows'.relink (queued.shown.link_delete queued.balanced),
    delete_isRedBlack queued.balanced, ?_, ?_⟩, sentinel⟩
  · rw [rest]
    exact queued.sorted.filter _
  · intro k
    rw [rest, List.filter_comm, queued.stable, List.filter_comm]

/-- One operation. -/
theorem step (queued : Queued m up present t) {op : QueueOp}
    (allowed : op.Allowed m.sentinel present)
    (enough : present.length < fuel) :
    ∃ m', op.code fuel m = some ((), m') ∧
      Queued m' (op.link t up) (op.apply present) (op.tree t) ∧ m'.sentinel = m.sentinel := by
  cases op with
  | insert node key => exact queued.insert allowed.1 allowed.2 enough
  | delete node => exact queued.delete allowed enough

/-- A sequence of operations. -/
theorem run (queued : Queued m up present t) {ops : List QueueOp}
    (allowed : QueueOp.AllAllowed m.sentinel ops present)
    (enough : present.length + ops.length < fuel) :
    ∃ m', QueueOp.run fuel ops m = some ((), m') ∧
      Queued m' (ops.foldl QueueOp.grow (t, up)).2 (QueueOp.applyAll ops present)
        (ops.foldl QueueOp.grow (t, up)).1 ∧
      (QueueOp.applyAll ops present).length ≤ present.length + ops.length := by
  induction ops generalizing m up present t with
  | nil => exact ⟨m, rfl, queued, Nat.le_refl _⟩
  | cons op ops ih =>
    rw [List.length_cons] at enough
    obtain ⟨m₁, first, queued₁, sentinel⟩ := queued.step allowed.1 (show _ < fuel by omega)
    have grows : (op.apply present).length ≤ present.length + 1 := by
      cases op with
      | insert node key => simp [QueueOp.apply]
      | delete node => exact Nat.le_succ_of_le (List.length_filter_le _ _)
    obtain ⟨m', rest, queued', bound⟩ := ih queued₁ (by rw [sentinel]; exact allowed.2) (by omega)
    refine ⟨m', ?_, queued', ?_⟩
    · simp [QueueOp.run, first, rest]
    · rw [List.length_cons]
      simp only [QueueOp.applyAll]
      omega

/-- `rbtree_min` finds the first node. -/
theorem min_apply (queued : Queued m up present t) (enough : present.length < fuel) :
    RbM.min fuel m = some (t.inorder.head?.map RbEntry.node, m) := by
  have size : t.inorder.length ≤ fuel := queued.perm.length_eq ▸ Nat.le_of_lt enough
  have root := queued.shown.root
  by_cases empty : t = .nil
  · subst empty
    simp [RbM.min, root, address, ColorTree.inorder]
  · obtain ⟨c, y, r, gs, first, run⟩ := nodeMin_apply queued.shown.linked queued.shown.outside empty
      size []
    have some_ := address_ne_sentinel empty queued.shown.outside
    cases t with
    | nil => exact absurd rfl empty
    | node c₀ l₀ x₀ r₀ =>
      obtain ⟨c', y', r', gs', found, same, none_before⟩ :=
        leftmost_spec (c := c₀) (l := l₀) (x := x₀) (r := r₀) []
      cases first.symm.trans found
      rw [← same, inorder_plug, none_before]
      simp [RbM.min, root, some_, run, ColorTree.inorder]

/-- The first node is the one that was inserted first among those with the smallest key. -/
theorem head_eq (queued : Queued m up present t) {x : RbEntry} (head : t.inorder.head? = some x) :
    ∃ older newer, present = older ++ x :: newer ∧ (∀ y ∈ older, x.key < y.key) ∧
      ∀ y ∈ newer, x.key ≤ y.key := by
  obtain ⟨rest, whole⟩ : ∃ rest, t.inorder = x :: rest := by
    cases order : t.inorder with
    | nil => simp [order] at head
    | cons y ys =>
      rw [order] at head
      cases head
      exact ⟨ys, rfl⟩
  have least : ∀ y ∈ present, x.key ≤ y.key := by
    intro y member
    have sorted := queued.sorted
    rw [← queued.perm.mem_iff, whole] at member
    rw [whole] at sorted
    rcases List.mem_cons.mp member with rfl | later
    · exact Int.le_refl _
    · exact (List.pairwise_cons.mp sorted).1 y later
  have first := queued.stable x.key
  rw [whole, List.filter_cons_of_pos (by simp)] at first
  obtain ⟨older, newer, split, others, -⟩ := List.filter_eq_cons_iff.mp first.symm
  refine ⟨older, newer, split, fun y member => ?_, fun y member => ?_⟩
  · have differ : y.key ≠ x.key := by
      simpa using others y member
    have le := least y (by simp [split, member])
    omega
  · exact least y (by simp [split, member])

end Queued

/-- The empty tree. -/
theorem queued_init (heap : Nat → RbNode) (node : Nat) :
    Queued (Rbtree.init heap node) none [] .nil where
  shown := ⟨rfl, fun some_ => absurd rfl some_, trivial, List.nodup_nil, List.not_mem_nil,
    by simp [Rbtree.init]⟩
  balanced := ⟨rfl, 0, .nil⟩
  sorted := List.Pairwise.nil
  stable _ := rfl

/-- The queue after any allowed sequence of operations: the code runs through, the memory holds a
red-black tree of the present nodes in the order of their keys and of their insertion, and
`rbtree_min` returns the node that was inserted first among those with the smallest key.  All parent
links are right, that of the root included, if and only if the root is no orphan.  The fuel bounds
the iterations of each loop. -/
theorem queue_ordered (heap : Nat → RbNode) (sentinel : Nat) (ops : List QueueOp)
    (allowed : QueueOp.AllAllowed sentinel ops []) (fuel : Nat) (enough : ops.length < fuel) :
    ∃ m t first, QueueOp.run fuel ops (Rbtree.init heap sentinel) = some ((), m) ∧
      t = QueueOp.treeOf ops ∧ m.Shows (QueueOp.linkOf ops) t ∧
      (m.Shows none t ↔ ¬ QueueOp.Orphaned ops) ∧ t.IsRedBlack ∧
      t.inorder.Perm (QueueOp.applyAll ops []) ∧
      (t.inorder.Pairwise fun x y => x.key ≤ y.key) ∧
      (∀ key, t.inorder.filter (fun x => x.key = key) =
        (QueueOp.applyAll ops []).filter fun x => x.key = key) ∧
      RbM.min fuel m = some (first, m) ∧
      (first = none ↔ QueueOp.applyAll ops [] = []) ∧
      ∀ node, first = some node → ∃ older newer key,
        QueueOp.applyAll ops [] = older ++ ⟨node, key⟩ :: newer ∧
          (∀ y ∈ older, key < y.key) ∧ ∀ y ∈ newer, key ≤ y.key := by
  obtain ⟨m, run, queued, bound⟩ := (queued_init heap sentinel).run allowed
    (show _ < fuel by simpa using enough)
  rw [List.length_nil, Nat.zero_add] at bound
  have perm := queued.perm
  refine ⟨m, _, _, run, rfl, queued.shown, queued.shown.rooted_iff, queued.balanced, perm,
    queued.sorted, queued.stable, queued.min_apply (Nat.lt_of_le_of_lt bound enough), ?_, ?_⟩
  · rw [Option.map_eq_none_iff, List.head?_eq_none_iff]
    constructor
    · intro empty
      rw [empty] at perm
      exact List.nil_perm.mp perm
    · intro empty
      rw [empty] at perm
      exact List.perm_nil.mp perm
  · intro node found
    obtain ⟨x, head, rfl⟩ := Option.map_eq_some_iff.mp found
    obtain ⟨older, newer, split, smaller, least⟩ := queued.head_eq head
    exact ⟨older, newer, x.key, split, smaller, least⟩

/-- Two nodes with the same key and one with a smaller one, of which one is deleted again. -/
theorem queue_ordered_four :
    QueueOp.AllAllowed 0 [.insert 1 5, .insert 2 5, .insert 3 (-4), .delete 1] [] ∧
      ∃ m, QueueOp.run 5 [.insert 1 5, .insert 2 5, .insert 3 (-4), .delete 1]
          (Rbtree.init (fun _ => {}) 0) = some ((), m) ∧
        RbM.min 5 m = some (some 3, m) := by
  have allowed :
      QueueOp.AllAllowed 0 [.insert 1 5, .insert 2 5, .insert 3 (-4), .delete 1] [] := by
    decide
  obtain ⟨m, t, first, run, -, -, -, -, -, -, -, least, empty, found⟩ :=
    queue_ordered (fun _ => {}) 0 _ allowed 5 (by decide)
  have present : QueueOp.applyAll [.insert 1 5, .insert 2 5, .insert 3 (-4), .delete 1] [] =
      [⟨2, 5⟩, ⟨3, -4⟩] := by
    decide
  rw [present] at empty found
  refine ⟨allowed, m, run, ?_⟩
  rw [least]
  cases first with
  | none => simp at empty
  | some node =>
    obtain ⟨older, newer, key, split, smaller, later⟩ := found node rfl
    rcases older with _ | ⟨y, _ | ⟨z, older⟩⟩
    · cases split
      simp at later
    · cases split
      rfl
    · simp at split

/-- The root of two nodes is deleted: the other one becomes the root and keeps the deleted node as
its parent.  When that node is inserted again, the two are each other's parents. -/
theorem queue_root_orphaned :
    QueueOp.AllAllowed 0 [.insert 1 5, .insert 2 7, .delete 1, .insert 1 9] [] ∧
      QueueOp.Orphaned [.insert 1 5, .insert 2 7, .delete 1] ∧
      QueueOp.applyAll [.insert 1 5, .insert 2 7, .delete 1] [] = [⟨2, 7⟩] ∧
      (QueueOp.run 5 [.insert 1 5, .insert 2 7, .delete 1] (Rbtree.init (fun _ => {}) 0)).map
        (fun r => (r.2.root, (r.2.heap 2).parent)) = some (some 2, some 1) ∧
      (QueueOp.run 5 [.insert 1 5, .insert 2 7, .delete 1, .insert 1 9]
        (Rbtree.init (fun _ => {}) 0)).map
        (fun r => (r.2.root, (r.2.heap 2).parent, (r.2.heap 1).parent)) =
          some (some 2, some 1, some 2) := by
  refine ⟨by decide, ?_, by decide, by decide, by decide⟩
  refine ⟨[.insert 1 5, .insert 2 7], 1, [], rfl, by decide, fun between starts => ?_⟩
  rw [List.prefix_nil.mp starts]
  decide

end Nutcracker
