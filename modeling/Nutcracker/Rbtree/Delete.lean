import Nutcracker.Rbtree.Unlink

/-!
# Deletion in memory

`rbtree_delete` does to the tree in memory what the deletion of the library does to a tree.  The
loop that restores the balance may start at the sentinel, whose parent is set for that purpose.
-/

namespace Nutcracker

open Lib.RedBlack ColorTree

namespace Rbtree

variable {m m' : Rbtree} {s : Side} {c c' : Color} {a b l r t : ColorTree RbEntry} {x y : RbEntry}
  {f : Frame RbEntry} {fs : List (Frame RbEntry)} {up : NodePtr} {fuel n : Nat}

/-! ## Restoring the balance -/

/-- The root of a subtree knows its parent, if the sentinel does where the subtree is empty. -/
theorem Shows.parent_of_sentinel (shows_ : m'.Shows up (plug (f :: fs) t))
    (parent : (m.heap (m.address t)).parent = some f.value.node)
    (sentinel : m'.sentinel = m.sentinel)
    (kept : (m'.heap m.sentinel).parent = (m.heap m.sentinel).parent) :
    (m'.heap (m'.address t)).parent = some f.value.node := by
  rcases t.eq_join .left with rfl | ⟨c, a, x, b, rfl⟩
  · rw [address, sentinel, kept]
    exact parent
  · rw [address_join]
    exact shows_.parent

/-- A red sibling is rotated up. -/
theorem deleteSibling_red (shows_ : m.Shows up (plug (⟨s, c, x, join s .red a y b⟩ :: fs) t))
    (parent : (m.heap (m.address t)).parent = some x.node) :
    ∃ m', RbM.deleteSibling s (some (m.address t)) m = some (some (m'.address a), m') ∧
      m'.Shows up (plug (⟨s, .red, x, a⟩ :: ⟨s, .black, y, b⟩ :: fs) t) ∧
      (m'.heap (m'.address t)).parent = some x.node ∧ m'.sentinel = m.sentinel := by
  have far : (m.heap x.node).child s.other = some y.node := by
    have cell := shows_.cell.far
    rwa [address_join] at cell
  have red : (m.heap y.node).color = .red := by
    have colour := shows_.color_sibling
    simpa using colour
  have painted : ((m.setColor y.node .black).setColor x.node .red).Shows up
      (plug fs (join s .red t x (join s .black a y b))) :=
    (shows_.setColor_sibling .black).setColor_above .red
  obtain ⟨m', run, rotated, sentinel, kept⟩ := painted.rotate
  have below : m'.Shows up (plug (⟨s, .red, x, a⟩ :: ⟨s, .black, y, b⟩ :: fs) t) := rotated
  have parent' : (m'.heap (m'.address t)).parent = some x.node :=
    below.parent_of_sentinel parent sentinel (by simpa using kept)
  have far' : (m'.heap x.node).child s.other = some (m'.address a) := below.cell.far
  refine ⟨m', ?_, below, parent', sentinel⟩
  rw [address_congr (m := m) sentinel] at parent'
  simp [RbM.deleteSibling, parent, far, red, run, parent', far']

/-- A black sibling stays where it is. -/
theorem deleteSibling_black (shows_ : m.Shows up (plug (f :: fs) t))
    (black : f.sibling.color = .black)
    (parent : (m.heap (m.address t)).parent = some f.value.node) :
    RbM.deleteSibling f.side (some (m.address t)) m = some (some (m.address f.sibling), m) := by
  have far := shows_.cell.far
  have colour := shows_.color_sibling.trans black
  simp [RbM.deleteSibling, parent, far, colour]

/-- Both children of the sibling are looked at. -/
theorem childrenBlack_apply (shows_ : m.Shows up (plug fs (join s c a y b))) :
    RbM.childrenBlack (some y.node) m =
      some (decide (a.color = .black ∧ b.color = .black), m) := by
  have below : m.Shows up (plug (⟨s, c, y, b⟩ :: fs) a) := shows_
  have colourA := below.color
  have colourB : (m.heap (m.address b)).color = b.color := below.color_sibling
  obtain ⟨cell, -, -⟩ := linked_join.mp shows_.above.2
  cases s with
  | left =>
    have near : (m.heap y.node).child .left = some (m.address a) := cell.near
    have far : (m.heap y.node).child .right = some (m.address b) := cell.far
    by_cases blackA : a.color = .black
    · simp [RbM.childrenBlack, near, far, colourA, colourB, blackA]
    · simp [RbM.childrenBlack, near, colourA, blackA]
  | right =>
    have near : (m.heap y.node).child .right = some (m.address a) := cell.near
    have far : (m.heap y.node).child .left = some (m.address b) := cell.far
    by_cases blackB : b.color = .black
    · simp [RbM.childrenBlack, near, far, colourA, colourB, blackB]
    · simp [RbM.childrenBlack, far, colourB, blackB]

/-- The sibling has no red child: it becomes red, and the loop goes on one node further up. -/
theorem deleteSettle_up (shows_ : m.Shows up (plug (⟨s, c, x, join s c' a y b⟩ :: fs) t))
    (parent : (m.heap (m.address t)).parent = some x.node) (near : a.color = .black)
    (far : b.color = .black) :
    ∃ m', RbM.deleteSettle s (some (m.address t)) (some y.node) m = some (some x.node, m') ∧
      m'.Shows up (plug fs (join s c t x (join s .red a y b))) ∧ m'.sentinel = m.sentinel := by
  have children := childrenBlack_apply shows_.flip
  refine ⟨m.setColor y.node .red, ?_, shows_.setColor_sibling .red, rfl⟩
  simp [RbM.deleteSettle, children, near, far, parent]

/-- The last rotation. -/
theorem deleteFinish_shows {c₁ : Color} {v : RbEntry} {b₁ b₂ : ColorTree RbEntry}
    (shows_ : m.Shows up (plug (⟨s, c, x, join s c' a y (join s c₁ b₁ v b₂)⟩ :: fs) t))
    (parent : (m.heap (m.address t)).parent = some x.node) :
    ∃ m', RbM.deleteFinish s (some (m.address t)) (some y.node) m = some (m'.root, m') ∧
      m'.Shows up (plug fs (join s c (join s .black t x a) y (join s .black b₁ v b₂))) ∧
      m'.sentinel = m.sentinel := by
  have colour : (m.heap x.node).color = c := shows_.cell.color
  have far : (m.heap y.node).child s.other = some v.node := by
    obtain ⟨cell, -, -⟩ := linked_join.mp shows_.flip.above.2
    simpa using cell.far
  have painted₂ : ((m.setColor y.node c).setColor x.node .black).Shows up
      (plug (⟨s, .black, x, join s c a y (join s c₁ b₁ v b₂)⟩ :: fs) t) :=
    (shows_.setColor_sibling c).setColor_above .black
  -- the outer child of the sibling, seen from the sibling
  have atOuter : ((m.setColor y.node c).setColor x.node .black).Shows up
      (plug (⟨s, c, y, join s c₁ b₁ v b₂⟩ :: ⟨s.other, .black, x, t⟩ :: fs) a) := painted₂.flip
  have painted : (((m.setColor y.node c).setColor x.node .black).setColor v.node .black).Shows up
      (plug (⟨s.other, .black, x, t⟩ :: fs) (join s c a y (join s .black b₁ v b₂))) :=
    atOuter.setColor_sibling .black
  rw [plug_cons, Frame.fill, join_other] at painted
  obtain ⟨m', run, rotated, sentinel, -⟩ := painted.rotate
  refine ⟨m', ?_, rotated, sentinel⟩
  simp [RbM.deleteFinish, parent, colour, far, run]

/-- A sibling whose outer child is red. -/
theorem deleteSettle_outer (shows_ : m.Shows up (plug (⟨s, c, x, join s c' a y b⟩ :: fs) t))
    (parent : (m.heap (m.address t)).parent = some x.node) (red : b.color = .red) :
    ∃ m', RbM.deleteSettle s (some (m.address t)) (some y.node) m = some (m'.root, m') ∧
      m'.Shows up (plug fs (join s c (join s .black t x a) y (b.paint .black))) ∧
      m'.sentinel = m.sentinel := by
  have children := childrenBlack_apply shows_.flip
  obtain ⟨b₁, v, b₂, rfl⟩ := exists_join_of_red s red
  obtain ⟨cell, -, -⟩ := linked_join.mp shows_.flip.above.2
  have far : (m.heap y.node).child s.other = some v.node := by
    simpa using cell.far
  have colour : (m.heap v.node).color = .red := by
    have outer :
        m.Shows up (plug (⟨s, c', y, join s .red b₁ v b₂⟩ :: ⟨s.other, c, x, t⟩ :: fs) a) :=
      shows_.flip
    simpa using outer.color_sibling
  obtain ⟨m', run, shows', sentinel⟩ := deleteFinish_shows shows_ parent
  rw [paint_join]
  refine ⟨m', ?_, shows', sentinel⟩
  simp [RbM.deleteSettle, children, far, colour, run]

/-- A sibling whose inner child is red, and the outer one black. -/
theorem deleteSettle_inner {a₁ a₂ : ColorTree RbEntry} {z : RbEntry}
    (shows_ : m.Shows up (plug (⟨s, c, x, join s c' (join s .red a₁ z a₂) y b⟩ :: fs) t))
    (parent : (m.heap (m.address t)).parent = some x.node) (black : b.color = .black) :
    ∃ m', RbM.deleteSettle s (some (m.address t)) (some y.node) m = some (m'.root, m') ∧
      m'.Shows up (plug fs (join s c (join s .black t x a₁) z (join s .black a₂ y b))) ∧
      m'.sentinel = m.sentinel := by
  have children := childrenBlack_apply shows_.flip
  obtain ⟨cell, -, -⟩ := linked_join.mp shows_.flip.above.2
  have inner :
      m.Shows up (plug (⟨s, c', y, b⟩ :: ⟨s.other, c, x, t⟩ :: fs) (join s .red a₁ z a₂)) :=
    shows_.flip
  have near : (m.heap y.node).child s = some z.node := by
    simpa using cell.near
  have colour : (m.heap (m.address b)).color = .black := inner.color_sibling.trans black
  have painted : ((m.setColor z.node .black).setColor y.node .red).Shows up
      (plug (⟨s.other, c, x, t⟩ :: fs) (join s .red (join s .black a₁ z a₂) y b)) :=
    (inner.setColor .black).setColor_above .red
  obtain ⟨m₁, run₁, rotated, sentinel₁, kept⟩ := painted.rotate_other
  rw [plug_cons, Frame.fill, join_other] at rotated
  have shows₁ : m₁.Shows up (plug (⟨s, c, x, join s .black a₁ z (join s .red a₂ y b)⟩ :: fs) t) :=
    rotated
  have parent₁ : (m₁.heap (m₁.address t)).parent = some x.node :=
    shows₁.parent_of_sentinel parent sentinel₁ (by simpa using kept)
  have far₁ : (m₁.heap x.node).child s.other = some z.node := by
    simpa using shows₁.cell.far
  obtain ⟨m', run, shows', sentinel⟩ := deleteFinish_shows shows₁ parent₁
  refine ⟨m', ?_, shows', sentinel.trans sentinel₁⟩
  rw [address_congr (m := m) sentinel₁] at run parent₁
  simp [RbM.deleteSettle, children, near, cell.far, colour, run₁, parent₁, far₁, run]

/-- What is done with a black sibling is what the library does. -/
theorem deleteSettle_shows (shows_ : m.Shows up (plug (⟨s, c, x, join s c' a y b⟩ :: fs) t))
    (parent : (m.heap (m.address t)).parent = some x.node) :
    match settle ⟨s, c, x, join s c' a y b⟩ t with
    | .inl t' => ∃ m', RbM.deleteSettle s (some (m.address t)) (some y.node) m =
        some (some (m'.address t'), m') ∧ m'.Shows up (plug fs t') ∧ m'.sentinel = m.sentinel
    | .inr t' => ∃ m', RbM.deleteSettle s (some (m.address t)) (some y.node) m =
        some (m'.root, m') ∧ m'.Shows up (plug fs t') ∧ m'.sentinel = m.sentinel := by
  rcases settle_cases s a b with ⟨near, far⟩ | ⟨far, a₁, z, a₂, rfl⟩ | far
  · rw [settle_up near far]
    simp only [address_join]
    exact deleteSettle_up shows_ parent near far
  · rw [settle_inner far]
    exact deleteSettle_inner shows_ parent far
  · rw [settle_outer far]
    exact deleteSettle_outer shows_ parent far

/-- The loop ends at the root. -/
theorem deleteLoop_root (fuel : Nat) (shows_ : m.Shows up t) :
    ∃ m', RbM.deleteLoop (fuel + 1) m.root m = some ((), m') ∧ m'.Shows up (t.paint .black) ∧
      m'.sentinel = m.sentinel := by
  refine ⟨_, ?_, shows_.paintRoot, rfl⟩
  simp [RbM.deleteLoop, shows_.root]

/-- The loop ends at a red node. -/
theorem deleteLoop_red (fuel : Nat) (shows_ : m.Shows up (plug (f :: fs) (join s .red a x b))) :
    ∃ m', RbM.deleteLoop (fuel + 1) (some x.node) m = some ((), m') ∧
      m'.Shows up (plug (f :: fs) (join s .black a x b)) ∧ m'.sentinel = m.sentinel := by
  have notRoot := shows_.root_ne
  have colour := shows_.color
  rw [address_join] at notRoot colour
  rw [color_join] at colour
  refine ⟨_, ?_, shows_.setColor .black, rfl⟩
  simp [RbM.deleteLoop, notRoot.symm, colour]

/-- One iteration of the loop, at a black node. -/
theorem deleteLoop_step (shows_ : m.Shows up (plug (f :: fs) t)) (black : t.color = .black)
    (parent : (m.heap (m.address t)).parent = some f.value.node)
    (differ : m.address f.sibling ≠ m.address t) :
    RbM.deleteLoop (fuel + 1) (some (m.address t)) m =
      (RbM.deleteBalance f.side (some (m.address t)) m).bind
        fun r => RbM.deleteLoop fuel r.1 r.2 := by
  have notRoot := shows_.root_ne
  have colour := shows_.color.trans black
  rw [RbM.deleteLoop]
  cases side : f.side with
  | left =>
    have near : (m.heap f.value.node).child .left = some (m.address t) := by
      simpa [side] using shows_.cell.near
    simp [notRoot.symm, parent, colour, near]
  | right =>
    have far : (m.heap f.value.node).child .left = some (m.address f.sibling) := by
      simpa [side] using shows_.cell.far
    simp [notRoot.symm, parent, colour, far, differ.symm]

/-- The loop repairs the tree as the library does. -/
theorem deleteLoop_shows (context : Context fs (n + 1) c) (short : Short t n)
    (shows_ : m.Shows up (plug fs t))
    (parent : (m.heap (m.address t)).parent = parentOf up fs)
    (enough : fs.length < fuel) :
    ∃ m', RbM.deleteLoop fuel (some (m.address t)) m = some ((), m') ∧
      m'.Shows up (fixDelete fs t) ∧ m'.sentinel = m.sentinel := by
  induction fs generalizing t n c m fuel with
  | nil =>
    obtain ⟨fuel, rfl⟩ : ∃ k, fuel = k + 1 := ⟨fuel - 1, by omega⟩
    rw [← show m.root = some (m.address t) from shows_.root]
    exact deleteLoop_root _ shows_
  | cons f fs ih =>
    rw [List.length_cons] at enough
    obtain ⟨fuel, rfl⟩ : ∃ k, fuel = k + 2 := ⟨fuel - 2, by omega⟩
    by_cases red : t.color = .red
    · obtain ⟨a, x, b, rfl⟩ := exists_join_of_red .left red
      rw [fixDelete_red red, address_join, paint_join]
      exact deleteLoop_red _ shows_
    have black := ne_red.mp red
    have valid := short.2 black
    have parent' : (m.heap (m.address t)).parent = some f.value.node := parent
    obtain ⟨s, color, x, sibling⟩ := f
    have notNil : sibling ≠ .nil := by
      rintro rfl
      cases context with
      | red _ validSibling _ => cases validSibling
      | black _ validSibling => cases validSibling
    obtain ⟨c', a, y, b, rfl⟩ := (sibling.eq_join s).resolve_left notNil
    have differ : m.address (join s c' a y b) ≠ m.address t := by
      rw [address_join]
      exact shows_.flip.address_sibling_ne.symm
    rw [deleteLoop_step shows_ black parent' differ]
    cases c' with
    | red =>
      obtain ⟨⟨a₁, z, a₂, rfl⟩, settled⟩ := context.settle_red valid
      obtain ⟨m₁, sibling, shows₁, parent₁, sentinel₁⟩ := deleteSibling_red shows_ parent'
      rw [address_join] at sibling
      have run := deleteSettle_shows shows₁ parent₁
      rw [address_congr (m := m) sentinel₁] at run
      rw [fixDelete_redSibling black]
      cases settledTo : settle ⟨s, .red, x, join s .black a₁ z a₂⟩ t with
      | inl t' =>
        rw [settledTo] at settled run
        obtain ⟨m₂, settles, shows₂, sentinel₂⟩ := run
        obtain ⟨l, v, r, rfl⟩ := exists_join_of_red .left settled.1
        obtain ⟨m', ends, shows', sentinel'⟩ := deleteLoop_red fuel shows₂
        refine ⟨m', ?_, ?_, sentinel'.trans (sentinel₂.trans sentinel₁)⟩
        · simpa [RbM.deleteBalance, sibling, settles] using ends
        · simpa using shows'
      | inr t' =>
        rw [settledTo] at run
        obtain ⟨m₂, settles, shows₂, sentinel₂⟩ := run
        obtain ⟨m', ends, shows', sentinel'⟩ := deleteLoop_root fuel shows₂
        refine ⟨m', ?_, shows', sentinel'.trans (sentinel₂.trans sentinel₁)⟩
        simpa [RbM.deleteBalance, sibling, settles] using ends
    | black =>
      have settled := context.settle_black valid color_join
      have sibling := deleteSibling_black shows_ color_join parent'
      rw [address_join] at sibling
      have run := deleteSettle_shows shows_ parent'
      rw [fixDelete_black black color_join]
      cases settledTo : settle ⟨s, color, x, join s .black a y b⟩ t with
      | inl t' =>
        rw [settledTo] at settled run
        obtain ⟨n', c', above, short'⟩ := settled
        obtain ⟨m₁, settles, shows₁, sentinel₁⟩ := run
        have parent₁ := shows₁.parent_of_ne_nil (settle_ne_nil settledTo)
        obtain ⟨m', rest, shows', sentinel'⟩ := ih above short' shows₁ parent₁
          (show _ < fuel + 1 by omega)
        refine ⟨m', ?_, shows', sentinel'.trans sentinel₁⟩
        simpa [RbM.deleteBalance, sibling, settles] using rest
      | inr t' =>
        rw [settledTo] at run
        obtain ⟨m₁, settles, shows₁, sentinel₁⟩ := run
        obtain ⟨m', ends, shows', sentinel'⟩ := deleteLoop_root fuel shows₁
        refine ⟨m', ?_, shows', sentinel'.trans sentinel₁⟩
        simpa [RbM.deleteBalance, sibling, settles] using ends

/-- The end of the deletion, once a node is unlinked. -/
theorem removeNode_apply (balanced : (plug fs (join s c t x .nil)).IsRedBlack)
    (shows_ : m.Shows up (plug fs t))
    (parent : (m.heap (m.address t)).parent = parentOf up fs)
    (enough : fs.length < fuel) :
    ∃ m', (if c = .red then pure () else RbM.deleteLoop fuel (some (m.address t)) : RbM Unit) m =
        some ((), m') ∧
      m'.Shows up (removeNode c fs t) ∧ m'.sentinel = m.sentinel := by
  cases c with
  | red => exact ⟨m, rfl, shows_, rfl⟩
  | black =>
    obtain ⟨n, c, context, valid, -, -⟩ := context_of_plug balanced
    cases n with
    | zero => exact absurd valid not_valid_black_zero
    | succ n =>
      exact deleteLoop_shows context (valid_black_iff.mp valid).1.short shows_ parent enough

/-! ## The whole deletion -/

/-- The first node of a subtree. -/
theorem nodeMin_apply (linked : m.Linked t) (inside : m.sentinel ∉ addresses t) (some_ : t ≠ .nil)
    (enough : t.inorder.length ≤ fuel) (fs : List (Frame RbEntry)) :
    ∃ c y r gs, leftmost t fs = (.node c .nil y r, gs) ∧
      RbM.nodeMin fuel (some (m.address t)) m = some (some y.node, m) := by
  induction t generalizing fs fuel with
  | nil => exact absurd rfl some_
  | node c l y r left right =>
    obtain ⟨cell, linkedLeft, -⟩ := linked
    have length : (ColorTree.node c l y r).inorder.length =
        l.inorder.length + r.inorder.length + 1 := by
      simp only [inorder, List.length_append, List.length_cons]
      omega
    obtain ⟨fuel, rfl⟩ : ∃ k, fuel = k + 1 := ⟨fuel - 1, by omega⟩
    have child : (m.heap y.node).child .left = some (m.address l) := cell.near
    cases l with
    | nil =>
      refine ⟨c, y, r, fs, rfl, ?_⟩
      simp [RbM.nodeMin, address, child]
    | node c' l' y' r' =>
      simp only [addresses, inorder, List.map_append, List.map_cons, List.mem_append,
        List.mem_cons, not_or] at inside
      obtain ⟨c₁, y₁, r₁, gs, found, run⟩ := left linkedLeft
        (by simpa [addresses, inorder] using inside.1) (by simp) (show _ ≤ fuel by omega)
        (⟨.left, c, y, r⟩ :: fs)
      refine ⟨c₁, y₁, r₁, gs, found, ?_⟩
      have next : y'.node ≠ m.sentinel := Ne.symm inside.1.2.1
      simpa [RbM.nodeMin, address, child, next] using run

/-- A node with at most one child is deleted. -/
theorem Shows.delete_single (shows_ : m.Shows up (plug fs (join s c t x .nil)))
    (balanced : (plug fs (join s c t x .nil)).IsRedBlack)
    (choice : RbM.deleteChoice fuel (some x.node) m =
      some ((some x.node, some (m.address t)), m))
    (enough : fs.length < fuel) :
    ∃ m', RbM.delete fuel (some x.node) m = some ((), m') ∧
      m'.Shows (if fs = [] then some x.node else up) (removeNode c fs t) ∧
      m'.sentinel = m.sentinel := by
  have someX := shows_.ne_sentinel
  have notX := shows_.not_mem_child
  cases fs with
  | nil =>
    have root : m.root = some x.node := by
      simpa using shows_.root
    have black : c = .black := by
      simpa using balanced.1
    subst black
    have moved : ((m.replace [] (m.address t)).setColor (m.address t) .black).Shows (some x.node)
        (t.paint .black) := by
      have painted := shows_.unroot.paintRoot
      rwa [address_replace] at painted
    have result := moved.modify (z := x.node) (by
      rw [addresses, inorder_paint]
      exact notX) someX RbNode.init
    refine ⟨_, ?_, result, rfl⟩
    simp [RbM.delete, choice, root, replace]
  | cons f fs =>
    have notRoot := shows_.root_ne
    have colour := shows_.color
    have above := shows_.above.1
    rw [address_join] at notRoot colour above
    rw [color_join] at colour
    have parent : (m.heap x.node).parent = some f.value.node := above.parent_eq someX
    have unlinked : RbM.replaceChild (some x.node) (some (m.address t)) m =
        some ((), m.replace (f :: fs) (m.address t)) :=
      replaceChild_apply above someX shows_.address_sibling_ne
    have spliced := shows_.splice.modify (z := x.node) notX (by simpa using someX) RbNode.init
    have child : m.address t ≠ x.node := by
      refine address_ne (fun member => notX ?_) someX
      rw [addresses_plug.mem_iff]
      exact List.mem_append_left _ member
    obtain ⟨m', run, shows', sentinel⟩ := removeNode_apply balanced spliced (by
      rw [address_modify, address_setParent, address_replace, heap_modify, if_neg child]
      simp [parentOf]) enough
    rw [address_modify, address_setParent, address_replace] at run
    refine ⟨m', ?_, shows', by simpa using sentinel⟩
    simpa [RbM.delete, choice, notRoot.symm, colour, unlinked, parent] using run

/-- A node with two children is deleted. -/
theorem Shows.delete_two (shows_ : m.Shows up (plug fs (.node c l x r)))
    (balanced : (plug fs (.node c l x r)).IsRedBlack) (some_l : l ≠ .nil) (some_r : r ≠ .nil)
    (enough : (plug fs (.node c l x r)).inorder.length < fuel) :
    ∃ m', RbM.delete fuel (some x.node) m = some ((), m') ∧
      m'.Shows up (Lib.RedBlack.delete fs (.node c l x r)) ∧ m'.sentinel = m.sentinel := by
  obtain ⟨above, cell, linkedL, linkedR⟩ := shows_.above
  obtain ⟨-, -, -, inside, -⟩ := shows_.apart
  simp only [addresses, inorder, List.map_append, List.map_cons, List.mem_append, List.mem_cons,
    not_or] at inside
  have size := length_le_plug fs (.node c l x r)
  have length : (ColorTree.node c l x r).inorder.length =
      l.inorder.length + r.inorder.length + 1 := by
    simp only [inorder, List.length_append, List.length_cons]
    omega
  obtain ⟨c', y, r', gs, deleted, next, same, -⟩ := Lib.RedBlack.delete_two fs (c := c) (x := x)
    some_l some_r
  obtain ⟨c₁, y₁, r₁, gs₁, found, search⟩ := nodeMin_apply linkedR inside.2.2 some_r
    (show _ ≤ fuel by omega) []
  cases found.symm.trans next
  -- the tree, seen from the next node
  have below : plug (gs ++ ⟨.right, c, x, l⟩ :: fs) (.node c' .nil y r') =
      plug fs (.node c l x r) := by
    rw [plug_append, same]
    rfl
  have balanced' := isRedBlack_revalue (below ▸ balanced) y
  rw [← below] at shows_
  obtain ⟨m₁, replaced, shows₁, sentinel₁, parent₁⟩ := shows_.replaceByNext
  have path := length_le_plug (gs ++ ⟨.right, c, x, l⟩ :: fs) (.node c' .nil y r')
  rw [below] at path
  have bound : (gs ++ ⟨.right, c, y, l⟩ :: fs).length < fuel := by
    simp only [List.length_append, List.length_cons] at path ⊢
    omega
  obtain ⟨m', run, shows', sentinel'⟩ := removeNode_apply (s := .right) balanced'
    shows₁ parent₁ bound
  rw [deleted]
  refine ⟨m', ?_, shows', sentinel'.trans sentinel₁⟩
  have left : (m.heap x.node).child .left = some (m.address l) := cell.near
  have right : (m.heap x.node).child .right = some (m.address r) := cell.far
  have someL : m.address l ≠ m.sentinel := address_ne_sentinel some_l inside.1
  have someR : m.address r ≠ m.sentinel := address_ne_sentinel some_r inside.2.2
  obtain ⟨-, next'⟩ := shows_.above
  have moved : (m.heap y.node).child .right = some (m.address r') := next'.1.far
  have colour : (m.heap y.node).color = c' := next'.1.color
  have notRoot : m.root ≠ some y.node := by
    obtain ⟨f, fs', path⟩ : ∃ f fs', gs ++ ⟨.right, c, x, l⟩ :: fs = f :: fs' := by
      cases gs <;> exact ⟨_, _, rfl⟩
    rw [path] at shows_
    exact shows_.root_ne
  have other := shows_.ne_next.symm
  simp only [RbM.bind_apply, Option.bind_eq_some_iff, Prod.exists, RbM.nodeInit_apply,
    Option.some.injEq, Prod.mk.injEq, true_and] at replaced
  obtain ⟨_, m₂, unlinked, _, m₃, substituted, rfl⟩ := replaced
  rw [address_congr sentinel₁] at run
  simpa [RbM.delete, RbM.deleteChoice, left, right, someL, someR, search, moved, notRoot.symm,
    colour, unlinked, other, substituted] using run

/-- `rbtree_delete` deletes a node.  A root with at most one child is left as the parent of what
takes its place. -/
theorem Shows.delete (shows_ : m.Shows up (plug fs (.node c l x r)))
    (balanced : (plug fs (.node c l x r)).IsRedBlack)
    (enough : (plug fs (.node c l x r)).inorder.length < fuel) :
    ∃ m', RbM.delete fuel (some x.node) m = some ((), m') ∧
      m'.Shows (if fs = [] ∧ (l = .nil ∨ r = .nil) then some x.node else up)
        (Lib.RedBlack.delete fs (.node c l x r)) ∧
      m'.sentinel = m.sentinel := by
  have size := length_le_plug fs (.node c l x r)
  have cell := shows_.above.2.1
  have left : (m.heap x.node).child .left = some (m.address l) := cell.near
  have right : (m.heap x.node).child .right = some (m.address r) := cell.far
  by_cases none_l : l = .nil
  · subst none_l
    simp only [true_or, and_true]
    refine Shows.delete_single (s := .right) shows_ balanced ?_ (by omega)
    simp [RbM.deleteChoice, left, right, address]
  by_cases none_r : r = .nil
  · subst none_r
    obtain ⟨-, -, -, inside, -⟩ := shows_.apart
    have someL : m.address l ≠ m.sentinel := by
      refine address_ne_sentinel none_l fun member => inside ?_
      simp only [addresses, inorder, List.map_append, List.mem_append]
      exact Or.inl member
    have right' : (m.heap x.node).child .right = some m.sentinel := right
    have choice : RbM.deleteChoice fuel (some x.node) m =
        some ((some x.node, some (m.address l)), m) := by
      simp [RbM.deleteChoice, left, right', someL]
    have single := Shows.delete_single (s := .left) shows_ balanced choice (by omega)
    simp only [or_true, and_true]
    cases l with
    | nil => exact absurd rfl none_l
    | node => exact single
  simp only [none_l, none_r, or_self, and_false, if_false]
  exact shows_.delete_two balanced none_l none_r enough

end Rbtree

end Nutcracker
