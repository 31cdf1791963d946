import Nutcracker.Rbtree.Rotate

/-!
# Insertion in memory

`rbtree_insert` does to the tree in memory what the insertion of the library does to a tree.
-/

namespace Nutcracker

open Lib.RedBlack ColorTree

namespace Rbtree

variable {m m' : Rbtree} {s : Side} {c c' : Color} {a b d t : ColorTree RbEntry} {x y : RbEntry}
  {f g : Frame RbEntry} {fs : List (Frame RbEntry)} {up : NodePtr} {p q z fuel n : Nat}

/-! ## The place of a new node -/

/-- A key comes before those that are greater.  Equal keys stay in front of a new one. -/
def keyBefore (key : Int) (y : RbEntry) : Bool :=
  decide (key < y.key)

/-- The search goes down to the place that the library finds. -/
theorem insertPlace_apply (linked : m.Linked t) (inside : m.sentinel ∉ addresses t)
    (some_ : t ≠ .nil) (enough : t.inorder.length ≤ fuel) (fs : List (Frame RbEntry)) :
    ∃ f gs, descend (keyBefore (m.heap z).key) t fs = f :: gs ∧
      RbM.insertPlace (some z) fuel (some (m.address t)) m =
        some ((some f.value.node, f.side), m) := by
  induction t generalizing fs fuel with
  | nil => exact absurd rfl some_
  | node c l y r left right =>
    obtain ⟨cell, linkedLeft, linkedRight⟩ := linked
    simp only [addresses, inorder, List.map_append, List.map_cons, List.mem_append, List.mem_cons,
      not_or] at inside
    have length : (ColorTree.node c l y r).inorder.length =
        l.inorder.length + r.inorder.length + 1 := by
      simp only [inorder, List.length_append, List.length_cons]
      omega
    obtain ⟨fuel, rfl⟩ : ∃ k, fuel = k + 1 := ⟨fuel - 1, by omega⟩
    have key : (m.heap y.node).key = y.key := cell.key
    rw [RbM.insertPlace, descend]
    by_cases less : (m.heap z).key < y.key
    · have child : (m.heap y.node).child .left = some (m.address l) := cell.near
      simp only [keyBefore, less, decide_true, if_true]
      cases l with
      | nil =>
        refine ⟨_, _, rfl, ?_⟩
        simp [address, key, less, child]
      | node c' l' y' r' =>
        obtain ⟨f, gs, found, run⟩ := left linkedLeft inside.1 (by simp)
          (show _ ≤ fuel by omega) (⟨.left, c, y, r⟩ :: fs)
        refine ⟨f, gs, found, ?_⟩
        have next : y'.node ≠ m.sentinel := by
          intro nil
          refine inside.1 ?_
          simp [← nil, inorder]
        simpa [address, key, less, child, next] using run
    · have child : (m.heap y.node).child .right = some (m.address r) := cell.far
      simp only [keyBefore, less, decide_false, Bool.false_eq_true, if_false]
      cases r with
      | nil =>
        refine ⟨_, _, rfl, ?_⟩
        simp [address, key, less, child]
      | node c' l' y' r' =>
        obtain ⟨f, gs, found, run⟩ := right linkedRight inside.2.2 (by simp)
          (show _ ≤ fuel by omega) (⟨.right, c, y, l⟩ :: fs)
        refine ⟨f, gs, found, ?_⟩
        have next : y'.node ≠ m.sentinel := by
          intro nil
          refine inside.2.2 ?_
          simp [← nil, inorder]
        simpa [address, key, less, child, next] using run

/-- The new node below the last one on the path. -/
def attached (m : Rbtree) (f : Frame RbEntry) (z : Nat) : Rbtree :=
  ((((m.setChild f.side f.value.node (some z)).setParent z (some f.value.node)).setChild .left z
    (some m.sentinel)).setChild .right z (some m.sentinel)).setColor z .red

/-- A new red node is in the tree. -/
theorem Shows.attach (shows_ : m.Shows up (plug (f :: fs) .nil))
    (fresh : x.node ∉ addresses (plug (f :: fs) .nil)) (some_ : x.node ≠ m.sentinel)
    (key : (m.heap x.node).key = x.key) :
    (m.attached f x.node).Shows up (plug (f :: fs) (.node .red .nil x .nil)) := by
  obtain ⟨above, -⟩ := shows_.above
  obtain ⟨-, path, -, -, outside⟩ := shows_.apart
  rw [addresses_plug.mem_iff, List.mem_append, not_or] at fresh
  have differ : ∀ z ∈ pathAddresses (f :: fs), z ≠ x.node := by
    rintro z member rfl
    exact fresh.2 member
  have parent := differ _ (mem_pathAddresses_head rfl)
  -- the path leads to the new node as soon as the links in both directions are there
  have linked : (m.setParent x.node (some f.value.node)).Above up (f :: fs) m.sentinel := by
    refine above.congr rfl rfl (fun z _ => ⟨by simp, by simp, by simp⟩) (fun z member => ?_) ?_
    · simp [differ z member]
    · exact fun absent => absurd rfl absent
  have above' := linked.replace (q := x.node) path fun _ => by
    simp [parentOf]
  refine Shows.of_above ?_ ⟨?_, trivial, trivial⟩ ?_ path ?_ ?_ ?_ ?_
  · refine above'.congr rfl rfl (fun z member => ⟨?_, ?_, fun s => ?_⟩) (fun z member => ?_) ?_
    · simp [attached, Rbtree.replace, differ z member]
    · simp [attached, Rbtree.replace]
    · simp [attached, Rbtree.replace, differ z member]
    · simp [attached, Rbtree.replace, differ z member]
    · simp [attached, Rbtree.replace]
  · refine ⟨by simp [attached], by simp [attached, key], ?_, ?_, ?_, ?_⟩
    · simp [attached, address]
    · simp [attached, address]
    · exact fun absent => absurd rfl absent
    · exact fun absent => absurd rfl absent
  · simp [addresses, inorder]
  · intro z member w other
    rw [show z = x.node by simpa [addresses, inorder] using member]
    exact (differ w other).symm
  · simpa [addresses, inorder, attached] using some_.symm
  · exact outside
  · simpa [attached, some_.symm] using shows_.black

/-- A node that is the whole tree. -/
def planted (m : Rbtree) (z : Nat) : Rbtree :=
  { (((m.setParent z none).setChild .left z (some m.sentinel)).setChild .right z
      (some m.sentinel)).setColor z .black with
    root := some z }

/-- The first node of a tree has no parent. -/
theorem Shows.plant (shows_ : m.Shows up .nil) (some_ : x.node ≠ m.sentinel)
    (key : (m.heap x.node).key = x.key) :
    (m.planted x.node).Shows none (.node .black .nil x .nil) where
  root := rfl
  top _ := by simp [planted, address]
  linked := by
    refine ⟨⟨by simp [planted], by simp [planted, key], ?_, ?_, ?_, ?_⟩, trivial, trivial⟩
    · simp [planted, address]
    · simp [planted, address]
    · exact fun absent => absurd rfl absent
    · exact fun absent => absurd rfl absent
  distinct := by simp [addresses, inorder]
  outside := by simpa [addresses, inorder, planted] using some_.symm
  black := by simpa [planted, some_.symm] using shows_.black

/-! ## Restoring the balance -/

/-- The loop stops below a black node. -/
theorem insertLoop_stop (parent : (m.heap z).parent = some p) (black : (m.heap p).color = .black) :
    RbM.insertLoop (fuel + 1) (some z) m = some ((), m) := by
  rw [RbM.insertLoop]
  by_cases root : some z = m.root
  · simp [root]
  · simp [root, parent, black]

/-- With a red uncle, the loop goes on two nodes further up. -/
theorem insertBalance_recolor {r : Side} {c₁ c₂ : Color} {y w : RbEntry} {e : ColorTree RbEntry}
    (shows_ : m.Shows up (plug (⟨r, c₁, y, d⟩ :: ⟨s, c₂, w, e⟩ :: fs) (join s c a x b)))
    (red : e.color = .red) :
    ∃ m', RbM.insertBalance s (some x.node) m = some (some w.node, m') ∧
      m'.Shows up (plug fs (insertRecolor ⟨r, c₁, y, d⟩ ⟨s, c₂, w, e⟩ (join s c a x b))) ∧
      m'.sentinel = m.sentinel := by
  have atParent : m.Shows up (plug (⟨s, c₂, w, e⟩ :: fs) (join r c₁ (join s c a x b) y d)) := shows_
  have parent : (m.heap x.node).parent = some y.node := shows_.parent
  have grand : (m.heap y.node).parent = some w.node := atParent.parent
  have uncle : (m.heap w.node).child s.other = some (m.address e) := atParent.cell.far
  have colour : (m.heap (m.address e)).color = .red := atParent.color_sibling.trans red
  obtain ⟨a', u, b', rfl⟩ := exists_join_of_red s red
  rw [address_join] at uncle colour
  refine ⟨((m.setColor y.node .black).setColor u.node .black).setColor w.node .red, ?_, ?_, rfl⟩
  · simp [RbM.insertBalance, parent, grand, uncle, colour]
  · have painted := ((atParent.setColor .black).setColor_sibling .black).setColor_above .red
    simpa [insertRecolor, Frame.fill] using painted

/-- With a black uncle, rotations make an end of it: the loop stops in the next iteration. -/
theorem insertBalance_rotate {r : Side} {c₁ c₂ : Color} {y w : RbEntry} {e : ColorTree RbEntry}
    (shows_ : m.Shows up (plug (⟨r, c₁, y, d⟩ :: ⟨s, c₂, w, e⟩ :: fs) (join s c a x b)))
    (red : c₁ = c) (black : e.color = .black) :
    ∃ z p m', RbM.insertBalance s (some x.node) m = some (some z, m') ∧
      m'.Shows up (plug fs (insertRotate ⟨r, c₁, y, d⟩ ⟨s, c₂, w, e⟩ (join s c a x b))) ∧
      m'.sentinel = m.sentinel ∧ (m'.heap z).parent = some p ∧ (m'.heap p).color = .black := by
  have atParent : m.Shows up (plug (⟨s, c₂, w, e⟩ :: fs) (join r c₁ (join s c a x b) y d)) := shows_
  have parent : (m.heap x.node).parent = some y.node := shows_.parent
  have grand : (m.heap y.node).parent = some w.node := atParent.parent
  have uncle : (m.heap w.node).child s.other = some (m.address e) := atParent.cell.far
  have colour : (m.heap (m.address e)).color = .black := atParent.color_sibling.trans black
  by_cases outer : r = s
  · subst outer
    have sibling : (m.heap y.node).child r.other = some (m.address d) := shows_.cell.far
    have differ : m.address d ≠ x.node := shows_.address_sibling_ne
    have painted : ((m.setColor y.node .black).setColor w.node .red).Shows up
        (plug fs (join r .red (join r .black (join r c a x b) y d) w e)) :=
      (atParent.setColor .black).setColor_above .red
    obtain ⟨m', run, rotated, sentinel, -⟩ := painted.rotate_other
    have below : m'.Shows up (plug (⟨r, .black, y, join r .red d w e⟩ :: fs) (join r c a x b)) :=
      rotated
    refine ⟨x.node, y.node, m', ?_, ?_, sentinel, below.parent, below.cell.color⟩
    · simp [RbM.insertBalance, parent, grand, uncle, colour, sibling, differ.symm, run]
    · rw [insertRotate_outer (by rfl)]
      exact rotated
  · -- the first rotation makes this the other case, with the two nodes exchanged
    have side : r = s.other := Side.eq_other_of_ne outer
    subst side
    have here : (m.heap y.node).child s.other = some x.node := by
      simpa using shows_.cell.near
    rw [join_other] at atParent
    obtain ⟨m₁, run₁, shows₁, sentinel₁, -⟩ := atParent.rotate
    have below₁ : m₁.Shows up (plug (⟨s, c, x, b⟩ :: ⟨s, c₂, w, e⟩ :: fs) (join s c₁ d y a)) :=
      shows₁
    have parent₁ : (m₁.heap y.node).parent = some x.node := below₁.parent
    have grand₁ : (m₁.heap x.node).parent = some w.node := shows₁.parent
    have painted : ((m₁.setColor x.node .black).setColor w.node .red).Shows up
        (plug fs (join s .red (join s .black (join s c₁ d y a) x b) w e)) :=
      (shows₁.setColor .black).setColor_above .red
    obtain ⟨m', run, rotated, sentinel, -⟩ := painted.rotate_other
    have below : m'.Shows up (plug (⟨s, .black, x, join s .red b w e⟩ :: fs) (join s c₁ d y a)) :=
      rotated
    refine ⟨y.node, x.node, m', ?_, ?_, sentinel.trans sentinel₁, below.parent,
      below.cell.color⟩
    · simp [RbM.insertBalance, parent, grand, uncle, colour, here, run₁, parent₁, grand₁, run]
    · rw [insertRotate_inner outer]
      subst red
      exact rotated

/-- One iteration of the loop, below a red node. -/
theorem insertLoop_step (shows_ : m.Shows up (plug (f :: g :: fs) (join s c a x b)))
    (red : f.color = .red) :
    RbM.insertLoop (fuel + 1) (some x.node) m =
      (RbM.insertBalance g.side (some x.node) m).bind fun r => RbM.insertLoop fuel r.1 r.2 := by
  have atParent : m.Shows up
      (plug (g :: fs) (join f.side f.color (join s c a x b) f.value f.sibling)) :=
    shows_
  have parent := shows_.parent
  have grand := atParent.parent
  have colour : (m.heap f.value.node).color = .red := shows_.cell.color.trans red
  have notRoot := shows_.root_ne
  rw [address_join] at notRoot
  rw [RbM.insertLoop]
  cases side : g.side with
  | left =>
    have near : (m.heap g.value.node).child .left = some f.value.node := by
      simpa [side] using atParent.cell.near
    simp [notRoot.symm, parent, grand, colour, near]
  | right =>
    have far : (m.heap g.value.node).child .left = some (m.address g.sibling) := by
      simpa [side] using atParent.cell.far
    have differ := atParent.address_sibling_ne
    simp [notRoot.symm, parent, grand, colour, far, differ.symm]

/-- The loop repairs the tree as the library does. -/
theorem insertLoop_shows (context : Context fs n c) (shows_ : m.Shows up (plug fs t))
    (red : t.color = .red) (enough : fs.length < fuel) :
    ∃ m', RbM.insertLoop fuel (some (m.address t)) m = some ((), m') ∧
      m'.Shows up (fixInsert fs t) ∧ m'.sentinel = m.sentinel := by
  fun_induction fixInsert fs t generalizing n c m fuel with
  | case1 t =>
    obtain ⟨fuel, rfl⟩ : ∃ k, fuel = k + 1 := ⟨fuel - 1, by omega⟩
    refine ⟨m, ?_, shows_, rfl⟩
    simp [RbM.insertLoop, shows_.root]
  | case2 f t =>
    obtain ⟨fuel, rfl⟩ : ∃ k, fuel = k + 1 := ⟨fuel - 1, by omega⟩
    obtain ⟨a, x, b, rfl⟩ := exists_join_of_red .left red
    rw [address_join]
    cases context with
    | black above sibling =>
      exact ⟨m, insertLoop_stop shows_.parent shows_.cell.color, shows_, rfl⟩
  | case3 f g fs t black =>
    obtain ⟨fuel, rfl⟩ : ∃ k, fuel = k + 1 := ⟨fuel - 1, by omega⟩
    obtain ⟨a, x, b, rfl⟩ := exists_join_of_red .left red
    rw [address_join]
    exact ⟨m, insertLoop_stop shows_.parent (shows_.cell.color.trans black), shows_, rfl⟩
  | case4 f g fs t notBlack uncle ih =>
    obtain ⟨fuel, rfl⟩ : ∃ k, fuel = k + 1 := ⟨fuel - 1, by omega⟩
    obtain ⟨a, x, b, rfl⟩ := exists_join_of_red g.side red
    obtain ⟨m₁, run, shows₁, sentinel⟩ := insertBalance_recolor shows_ uncle
    have further : ∃ n c, Context fs n c := by
      cases context with
      | black => exact absurd rfl notBlack
      | red above _ _ =>
        cases above with
        | black above _ => exact ⟨_, _, above⟩
    obtain ⟨n, c, further⟩ := further
    simp only [List.length_cons] at enough
    obtain ⟨m', rest, shows', sentinel'⟩ := ih further shows₁ color_join (show _ < fuel by omega)
    refine ⟨m', ?_, shows', sentinel'.trans sentinel⟩
    rw [address_join, insertLoop_step shows_ (ne_black.mp notBlack), run]
    rw [insertRecolor, address_join] at rest
    exact rest
  | case5 f g fs t notBlack uncle =>
    simp only [List.length_cons] at enough
    obtain ⟨fuel, rfl⟩ : ∃ k, fuel = k + 2 := ⟨fuel - 2, by omega⟩
    obtain ⟨a, x, b, rfl⟩ := exists_join_of_red g.side red
    have redParent : f.color = .red := ne_black.mp notBlack
    obtain ⟨z, p, m', run, shows', sentinel, parent, black⟩ :=
      insertBalance_rotate shows_ redParent (ne_red.mp uncle)
    refine ⟨m', ?_, shows', sentinel⟩
    rw [address_join, insertLoop_step shows_ redParent, run]
    exact insertLoop_stop parent black

/-- `rbtree_insert` inserts a node behind those with the same key.  The parent of the root is
cleared only if the tree was empty. -/
theorem Shows.insert (shows_ : m.Shows up t) (balanced : t.IsRedBlack)
    (fresh : x.node ∉ addresses t)
    (some_ : x.node ≠ m.sentinel) (key : (m.heap x.node).key = x.key)
    (enough : t.inorder.length < fuel) :
    ∃ m', RbM.insert fuel (some x.node) m = some ((), m') ∧
      m'.Shows (if t = .nil then none else up) (Lib.RedBlack.insert (keyBefore x.key) x t) ∧
      m'.sentinel = m.sentinel := by
  by_cases empty : t = .nil
  · subst empty
    have root : m.root = some m.sentinel := shows_.root
    refine ⟨m.planted x.node, by simp [RbM.insert, root, planted], ?_, rfl⟩
    exact shows_.plant some_ key
  · have root := address_ne_sentinel empty shows_.outside
    obtain ⟨f, fs, place, search⟩ := insertPlace_apply (z := x.node) shows_.linked shows_.outside
      empty (Nat.le_of_lt enough) []
    rw [key] at place
    have whole : plug (f :: fs) .nil = t := by
      rw [← place]
      exact plug_descend _ t []
    rw [← whole] at shows_ balanced fresh
    obtain ⟨n, c, context, -, -, -⟩ := context_of_plug balanced
    have attached := shows_.attach fresh some_ key
    have path := length_descend_le (keyBefore x.key) t []
    rw [place, List.length_nil] at path
    obtain ⟨m₁, loop, shows₁, sentinel₁⟩ := insertLoop_shows context attached rfl
      (show _ < fuel by omega)
    have result := shows₁.paintRoot
    rw [Lib.RedBlack.insert, place, if_neg empty]
    refine ⟨_, ?_, result, sentinel₁⟩
    have loop' : RbM.insertLoop fuel (some x.node) (m.attached f x.node) = some ((), m₁) := loop
    unfold Rbtree.attached at loop'
    simp [RbM.insert, shows_.root, whole, root, search, loop', shows₁.root]

end Rbtree

end Nutcracker
