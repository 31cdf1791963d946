import Nutcracker.Rbtree.Links

/-!
# Rotations

What the elementary operations on nodes do to the tree in memory.
-/

namespace Nutcracker

open Lib.RedBlack ColorTree

namespace Rbtree

variable {m m' : Rbtree} {s : Side} {c c' : Color} {a b d t : ColorTree RbEntry} {x y : RbEntry}
  {fs : List (Frame RbEntry)} {up : NodePtr} {p q z : Nat}

/-! ## What stays as it is -/

theorem address_congr (same : m'.sentinel = m.sentinel) (t : ColorTree RbEntry) :
    m'.address t = m.address t := by
  cases t with
  | nil => exact same
  | node => rfl

theorem address_cases (m : Rbtree) (t : ColorTree RbEntry) :
    m.address t = m.sentinel ∨ m.address t ∈ addresses t := by
  cases t with
  | nil => exact Or.inl rfl
  | node c l x r =>
    refine Or.inr ?_
    simp [address, addresses, inorder]

/-- The root of a subtree is at none of the other addresses. -/
theorem address_ne (absent : z ∉ addresses t) (some_ : z ≠ m.sentinel) : m.address t ≠ z := by
  rintro rfl
  exact absent ((m.address_cases t).resolve_left some_)

theorem address_ne_sentinel (some_ : t ≠ .nil) (outside : m.sentinel ∉ addresses t) :
    m.address t ≠ m.sentinel := by
  intro nil
  obtain ⟨c, a, x, b, rfl⟩ := (t.eq_join .left).resolve_left some_
  rw [address_join] at nil
  refine outside ?_
  rw [← nil, addresses_join.mem_iff]
  exact List.mem_cons_self

/-- The addresses below the root. -/
def innerAddresses : ColorTree RbEntry → List Nat
  | .nil => []
  | .node _ l _ r => addresses l ++ addresses r

theorem innerAddresses_subset (t : ColorTree RbEntry) :
    ∀ z ∈ innerAddresses t, z ∈ addresses t := by
  cases t with
  | nil => simp [innerAddresses]
  | node c l x r =>
    intro z member
    simp only [innerAddresses, List.mem_append] at member
    simp only [addresses, inorder, List.map_append, List.map_cons, List.mem_append, List.mem_cons]
    exact member.imp_right Or.inr

/-- In a tree without repetitions the root is not below itself. -/
theorem address_not_mem_inner (distinct : (addresses t).Nodup)
    (outside : m.sentinel ∉ addresses t) :
    m.address t ∉ innerAddresses t := by
  intro member
  cases t with
  | nil => exact absurd member List.not_mem_nil
  | node c l x r =>
    have apart := (addresses_join (s := .left) (c := c) (a := l) (x := x) (b := r)).nodup_iff.mp
      distinct
    exact (List.nodup_cons.mp apart).1 member

/-- A node is the same, its parent apart. -/
structure SameNode (m m' : Rbtree) (z : Nat) : Prop where
  color : (m'.heap z).color = (m.heap z).color
  key : (m'.heap z).key = (m.heap z).key
  child : ∀ s, (m'.heap z).child s = (m.heap z).child s

theorem SameNode.of_heap (same : m'.heap z = m.heap z) : SameNode m m' z :=
  ⟨by rw [same], by rw [same], fun _ => by rw [same]⟩

/-- A subtree in memory stays there if its nodes stay the same and, below its root, their
parents. -/
theorem Linked.congr (linked : m.Linked t) (sentinel : m'.sentinel = m.sentinel)
    (nodes : ∀ z ∈ addresses t, SameNode m m' z)
    (parents : ∀ z ∈ innerAddresses t, (m'.heap z).parent = (m.heap z).parent) : m'.Linked t := by
  induction t with
  | nil => trivial
  | node c l x r left right =>
    obtain ⟨cell, linkedLeft, linkedRight⟩ := linked
    have whole : addresses (.node c l x r) = addresses l ++ x.node :: addresses r := by
      simp [addresses, inorder]
    have here := nodes x.node (by simp [whole])
    simp only [innerAddresses, List.mem_append] at parents
    have parent : ∀ t, (∀ z ∈ addresses t, (m'.heap z).parent = (m.heap z).parent) →
        (m.address t ≠ m.sentinel → (m.heap (m.address t)).parent = some x.node) →
        m.address t ≠ m'.sentinel → (m'.heap (m.address t)).parent = some x.node := by
      intro t same before some_
      rw [sentinel] at some_
      rcases m.address_cases t with nil | member
      · exact absurd nil some_
      · rw [same _ member]
        exact before some_
    refine ⟨?_, ?_, ?_⟩
    · rw [address_congr sentinel, address_congr sentinel]
      exact ⟨here.color.trans cell.color, here.key.trans cell.key,
        (here.child _).trans cell.near, (here.child _).trans cell.far,
        parent l (fun z member => parents z (Or.inl member)) cell.nearParent,
        parent r (fun z member => parents z (Or.inr member)) cell.farParent⟩
    · refine left linkedLeft (fun z member => nodes z (by simp [whole, member])) ?_
      exact fun z member => parents z (Or.inl (innerAddresses_subset l z member))
    · refine right linkedRight (fun z member => nodes z (by simp [whole, member])) ?_
      exact fun z member => parents z (Or.inr (innerAddresses_subset r z member))

/-- A path in memory stays there. -/
theorem Above.congr (above : m.Above up fs p) (sentinel : m'.sentinel = m.sentinel)
    (root : m'.root = m.root) (nodes : ∀ z ∈ pathAddresses fs, SameNode m m' z)
    (parents : ∀ z ∈ pathAddresses fs, (m'.heap z).parent = (m.heap z).parent)
    (below : p ≠ m.sentinel → (m'.heap p).parent = (m.heap p).parent) : m'.Above up fs p := by
  induction fs generalizing p with
  | nil =>
    refine ⟨root.trans above.1, fun some_ => ?_⟩
    rw [sentinel] at some_
    exact (below some_).trans (above.2 some_)
  | cons f fs ih =>
    obtain ⟨cell, linked, rest⟩ := above
    have members : ∀ z, z ∈ pathAddresses (f :: fs) ↔
        z = f.value.node ∨ z ∈ addresses f.sibling ∨ z ∈ pathAddresses fs := by
      intro z
      rw [(pathAddresses_cons f fs).mem_iff]
      simp
    have here := nodes f.value.node ((members _).mpr (Or.inl rfl))
    refine ⟨?_, ?_, ?_⟩
    · rw [address_congr sentinel]
      refine ⟨here.color.trans cell.color, here.key.trans cell.key, (here.child _).trans cell.near,
        (here.child _).trans cell.far, ?_, ?_⟩
      · intro some_
        rw [sentinel] at some_
        exact (below some_).trans (cell.nearParent some_)
      · intro some_
        rw [sentinel] at some_
        rcases m.address_cases f.sibling with nil | member
        · exact absurd nil some_
        · rw [parents _ ((members _).mpr (Or.inr (Or.inl member)))]
          exact cell.farParent some_
    · refine linked.congr sentinel (fun z member => nodes z ?_) (fun z member => parents z ?_)
      · exact (members z).mpr (Or.inr (Or.inl member))
      · exact (members z).mpr (Or.inr (Or.inl (innerAddresses_subset _ z member)))
    · refine ih rest (fun z member => nodes z ?_) (fun z member => parents z ?_) ?_
      · exact (members z).mpr (Or.inr (Or.inr member))
      · exact (members z).mpr (Or.inr (Or.inr member))
      · exact fun _ => parents _ ((members _).mpr (Or.inl rfl))

/-- The root is on the path, unless the subtree is the whole tree. -/
theorem Above.root_mem {f : Frame RbEntry} (above : m.Above up (f :: fs) p) :
    ∃ r ∈ pathAddresses (f :: fs), m.root = some r := by
  induction fs generalizing f p with
  | nil =>
    refine ⟨f.value.node, ?_, above.2.2.1⟩
    rw [(pathAddresses_cons f []).mem_iff]
    simp
  | cons g fs ih =>
    obtain ⟨r, member, root⟩ := ih above.2.2
    refine ⟨r, ?_, root⟩
    rw [(pathAddresses_cons f (g :: fs)).mem_iff]
    simp [member]

/-! ## Links to a subtree -/

/-- The node at `q`, if there is one, gets the parent `x`. -/
def reparent (m : Rbtree) (q x : Nat) : Rbtree :=
  if q = m.sentinel then m else m.setParent q (some x)

/-- What points to the subtree below a path points to `y` instead. -/
def replace (m : Rbtree) : List (Frame RbEntry) → Nat → Rbtree
  | [], y => { m with root := some y }
  | f :: _, y => m.setChild f.side f.value.node (some y)

section Fields

variable {n r : Nat} {s' : Side}

@[simp]
theorem child_heap_reparent : ((m.reparent q n).heap z).child s = (m.heap z).child s := by
  unfold reparent
  split <;> simp

@[simp]
theorem parent_heap_reparent :
    ((m.reparent q n).heap z).parent =
      if z = q ∧ q ≠ m.sentinel then some n else (m.heap z).parent := by
  unfold reparent
  split <;> simp [*]

@[simp]
theorem color_heap_reparent : ((m.reparent q n).heap z).color = (m.heap z).color := by
  unfold reparent
  split <;> simp

@[simp]
theorem key_heap_reparent : ((m.reparent q n).heap z).key = (m.heap z).key := by
  unfold reparent
  split <;> simp

@[simp]
theorem root_reparent : (m.reparent q n).root = m.root := by
  unfold reparent
  split <;> rfl

@[simp]
theorem sentinel_reparent : (m.reparent q n).sentinel = m.sentinel := by
  unfold reparent
  split <;> rfl

@[simp]
theorem parent_heap_replace : ((m.replace fs n).heap z).parent = (m.heap z).parent := by
  cases fs <;> simp [replace]

@[simp]
theorem color_heap_replace : ((m.replace fs n).heap z).color = (m.heap z).color := by
  cases fs <;> simp [replace]

@[simp]
theorem key_heap_replace : ((m.replace fs n).heap z).key = (m.heap z).key := by
  cases fs <;> simp [replace]

@[simp]
theorem sentinel_replace : (m.replace fs n).sentinel = m.sentinel := by
  cases fs <;> rfl

@[simp]
theorem address_replace : (m.replace fs n).address t = m.address t :=
  address_congr sentinel_replace t

/-- Only the node right above the subtree is written to. -/
theorem child_heap_replace (other : ∀ f ∈ fs.head?, z ≠ f.value.node) :
    ((m.replace fs n).heap z).child s = (m.heap z).child s := by
  cases fs with
  | nil => rfl
  | cons f fs =>
    have differ := other f rfl
    simp [replace, differ]

end Fields

/-- The parent of a subtree: the last node on the path to it. -/
def parentOf (up : NodePtr) : List (Frame RbEntry) → NodePtr
  | [] => up
  | f :: _ => some f.value.node

theorem Above.parent_eq (above : m.Above up fs p) (some_ : p ≠ m.sentinel) :
    (m.heap p).parent = parentOf up fs := by
  cases fs with
  | nil => exact above.2 some_
  | cons f fs => exact above.1.nearParent some_

/-- The path leads to `q` after the replacement, if the parent of `q` is right. -/
theorem Above.replace (above : m.Above up fs p) (distinct : (pathAddresses fs).Nodup)
    (parent : q ≠ m.sentinel → (m.heap q).parent = parentOf up fs) :
    (m.replace fs q).Above up fs q := by
  cases fs with
  | nil => exact ⟨rfl, parent⟩
  | cons f fs =>
    obtain ⟨cell, linked, rest⟩ := above
    have parts := (pathAddresses_cons f fs).nodup_iff.mp distinct
    obtain ⟨notBelow, -⟩ := List.nodup_cons.mp parts
    simp only [List.mem_append, not_or] at notBelow
    have same : ∀ z, z ≠ f.value.node → SameNode m (m.replace (f :: fs) q) z := by
      intro z differ
      exact ⟨color_heap_replace, key_heap_replace, fun s =>
        child_heap_replace fun g head => by cases head; exact differ⟩
    refine ⟨?_, ?_, ?_⟩
    · rw [address_congr sentinel_replace]
      refine ⟨?_, ?_, ?_, ?_, ?_, ?_⟩
      · rw [color_heap_replace]
        exact cell.color
      · rw [key_heap_replace]
        exact cell.key
      · simp [Rbtree.replace]
      · simp [Rbtree.replace, cell.far]
      · intro some_
        rw [parent_heap_replace]
        exact parent (by simpa using some_)
      · intro some_
        rw [parent_heap_replace]
        exact cell.farParent (by simpa using some_)
    · refine linked.congr sentinel_replace (fun z member => same z ?_) fun _ _ =>
        parent_heap_replace
      rintro rfl
      exact notBelow.1 member
    · refine rest.congr sentinel_replace rfl (fun z member => same z ?_)
        (fun _ _ => parent_heap_replace) fun _ => parent_heap_replace
      rintro rfl
      exact notBelow.2 member

/-! ## Rotations -/

/-- The tree after a rotation at `x`, with `y` above it and the subtree at `q` between the two. -/
def rotated (m : Rbtree) (s : Side) (fs : List (Frame RbEntry)) (x y q : Nat) : Rbtree :=
  ((((((m.setChild s.other x (some q)).reparent q x).setParent y (m.heap x).parent).replace fs
    y).setChild s y (some x)).setParent x (some y))

section RotatedFields

variable {x y : Nat} {s' : Side}

theorem child_rotated (off : ∀ f ∈ fs.head?, z ≠ f.value.node) :
    ((m.rotated s fs x y q).heap z).child s' =
      if z = y ∧ s' = s then some x else if z = x ∧ s' = s.other then some q
      else (m.heap z).child s' := by
  simp [rotated, child_heap_replace off]

theorem parent_rotated :
    ((m.rotated s fs x y q).heap z).parent =
      if z = x then some y else if z = y then (m.heap x).parent
      else if z = q ∧ q ≠ m.sentinel then some x else (m.heap z).parent := by
  simp [rotated]

@[simp]
theorem color_rotated : ((m.rotated s fs x y q).heap z).color = (m.heap z).color := by
  simp [rotated]

@[simp]
theorem key_rotated : ((m.rotated s fs x y q).heap z).key = (m.heap z).key := by
  simp [rotated]

@[simp]
theorem sentinel_rotated : (m.rotated s fs x y q).sentinel = m.sentinel := by
  simp [rotated]

/-- A node that is neither of the two stays the same. -/
theorem SameNode.rotated (off : ∀ f ∈ fs.head?, z ≠ f.value.node) (notX : z ≠ x) (notY : z ≠ y) :
    SameNode m (m.rotated s fs x y q) z := by
  refine ⟨color_rotated, key_rotated, fun s' => ?_⟩
  rw [child_rotated off]
  simp [notX, notY]

/-- A subtree below the two nodes stays where it is.  Only its root may get another parent. -/
theorem Linked.rotated (linked : m.Linked t)
    (off : ∀ z ∈ addresses t, ∀ f ∈ fs.head?, z ≠ f.value.node) (notX : x ∉ addresses t)
    (notY : y ∉ addresses t) (inner : q ∉ innerAddresses t) : (m.rotated s fs x y q).Linked t := by
  refine linked.congr sentinel_rotated (fun z member => ?_) fun z below => ?_
  · exact .rotated (off z member) (ne_of_mem_of_not_mem member notX)
      (ne_of_mem_of_not_mem member notY)
  · have member := innerAddresses_subset t z below
    simp [parent_rotated, ne_of_mem_of_not_mem member notX, ne_of_mem_of_not_mem member notY,
      ne_of_mem_of_not_mem below inner]

end RotatedFields

/-- The node that goes up. -/
theorem Cell.rotated_up (cell : m.Cell s c q y p) (off : ∀ f ∈ fs.head?, y.node ≠ f.value.node)
    (xy : x.node ≠ y.node) (px : p ≠ x.node) (py : p ≠ y.node) (pq : p ≠ m.sentinel → p ≠ q) :
    (m.rotated s fs x.node y.node q).Cell s c x.node y p where
  color := color_rotated.trans cell.color
  key := key_rotated.trans cell.key
  near := by simp [child_rotated off]
  far := by simp [child_rotated off, xy.symm, cell.far]
  nearParent := by simp [parent_rotated]
  farParent := by
    rw [sentinel_rotated]
    intro some_
    simpa [parent_rotated, px, py, pq some_] using cell.farParent some_

/-- The node that goes down. -/
theorem Cell.rotated_down (cell : m.Cell s c p x y.node)
    (off : ∀ f ∈ fs.head?, x.node ≠ f.value.node) (xy : x.node ≠ y.node) (px : p ≠ x.node)
    (py : p ≠ y.node) (pq : p ≠ m.sentinel → p ≠ q) (qx : q ≠ x.node) (qy : q ≠ y.node) :
    (m.rotated s fs x.node y.node q).Cell s c p x q where
  color := color_rotated.trans cell.color
  key := key_rotated.trans cell.key
  near := by simp [child_rotated off, xy, cell.near]
  far := by simp [child_rotated off, xy]
  nearParent := by
    rw [sentinel_rotated]
    intro some_
    simpa [parent_rotated, px, py, pq some_] using cell.nearParent some_
  farParent := by
    rw [sentinel_rotated]
    intro some_
    simp [parent_rotated, qx, qy, some_]

/-- What points to a subtree, in a tree that is in memory. -/
theorem Shows.above (shows_ : m.Shows up (plug fs t)) : m.Above up fs (m.address t) ∧ m.Linked t :=
  linked_plug.mp ⟨⟨shows_.root, shows_.top⟩, shows_.linked⟩

/-- The addresses in the subtree and on the path to it are all different. -/
theorem Shows.apart (shows_ : m.Shows up (plug fs t)) :
    (addresses t).Nodup ∧ (pathAddresses fs).Nodup ∧
      (∀ z ∈ addresses t, ∀ w ∈ pathAddresses fs, z ≠ w) ∧ m.sentinel ∉ addresses t ∧
      m.sentinel ∉ pathAddresses fs := by
  have distinct := addresses_plug.nodup_iff.mp shows_.distinct
  obtain ⟨below, above, differ⟩ := List.nodup_append.mp distinct
  have outside := shows_.outside
  rw [addresses_plug.mem_iff, List.mem_append, not_or] at outside
  exact ⟨below, above, differ, outside.1, outside.2⟩

/-- A tree is in memory if a subtree and the path to it are, at different addresses. -/
theorem Shows.of_above (above : m.Above up fs (m.address t)) (linked : m.Linked t)
    (below : (addresses t).Nodup) (path : (pathAddresses fs).Nodup)
    (differ : ∀ z ∈ addresses t, ∀ w ∈ pathAddresses fs, z ≠ w) (inside : m.sentinel ∉ addresses t)
    (outside : m.sentinel ∉ pathAddresses fs) (black : (m.heap m.sentinel).color = .black) :
    m.Shows up (plug fs t) where
  root := (linked_plug.mpr ⟨above, linked⟩).1.1
  top := (linked_plug.mpr ⟨above, linked⟩).1.2
  linked := (linked_plug.mpr ⟨above, linked⟩).2
  distinct := addresses_plug.nodup_iff.mpr (List.nodup_append.mpr ⟨below, path, differ⟩)
  outside := by
    rw [addresses_plug.mem_iff, List.mem_append, not_or]
    exact ⟨inside, outside⟩
  black := black

theorem mem_pathAddresses_head {f : Frame RbEntry} (head : f ∈ fs.head?) :
    f.value.node ∈ pathAddresses fs := by
  cases fs with
  | nil => cases head
  | cons g fs =>
    cases head
    rw [(pathAddresses_cons f fs).mem_iff]
    exact List.mem_cons_self

/-- The code of a rotation. -/
theorem rotate_apply {x y : Nat} (above : m.Above up fs x) (far : (m.heap x).child s.other = some y)
    (near : (m.heap y).child s = some q) (xy : x ≠ y) (qx : q ≠ x)
    (some_ : x ≠ m.sentinel) (xs : ∀ w ∈ pathAddresses fs, x ≠ w) :
    RbM.rotate s (some x) m = some ((), m.rotated s fs x y q) := by
  unfold RbM.rotate rotated reparent
  cases fs with
  | nil =>
    have root : m.root = some x := above.1
    by_cases empty : q = m.sentinel
    · simp [far, near, xy.symm, empty, root, replace]
    · simp [far, near, xy.symm, qx.symm, empty, root, replace]
  | cons f fs =>
    obtain ⟨r, member, root⟩ := above.root_mem
    have notRoot : m.root ≠ some x := by
      rw [root]
      exact fun same => xs r member (Option.some.inj same).symm
    have parent : (m.heap x).parent = some f.value.node := above.parent_eq some_
    have px := xs f.value.node (mem_pathAddresses_head rfl)
    have sibling : m.address f.sibling ≠ x := by
      rcases m.address_cases f.sibling with nil | inSibling
      · rw [nil]
        exact some_.symm
      · refine (xs _ ?_).symm
        rw [(pathAddresses_cons f fs).mem_iff]
        simp [inSibling]
    by_cases side : f.side = s
    · have near' := side ▸ above.1.near
      by_cases empty : q = m.sentinel
      · simp [far, near, xy.symm, empty, notRoot.symm, parent, px.symm, near', side, replace]
      · simp [far, near, xy.symm, qx.symm, empty, notRoot.symm, parent, px.symm, near', side,
          replace]
    · have other : f.side = s.other := Side.eq_other_of_ne side
      have far' : (m.heap f.value.node).child s = some (m.address f.sibling) := by
        simpa [other] using above.1.far
      by_cases empty : q = m.sentinel
      · simp [far, near, xy.symm, empty, notRoot.symm, parent, px.symm, far', other,
          sibling.symm, replace]
      · simp [far, near, xy.symm, qx.symm, empty, notRoot.symm, parent, px.symm, far', other,
          sibling.symm, replace]

/-- After a rotation the path leads to `y`. -/
theorem Above.rotated {x y : Nat} (above : m.Above up fs x) (distinct : (pathAddresses fs).Nodup)
    (xs : ∀ w ∈ pathAddresses fs, x ≠ w) (ys : ∀ w ∈ pathAddresses fs, y ≠ w)
    (qs : ∀ w ∈ pathAddresses fs, q ≠ w) (xy : x ≠ y) (qx : q ≠ x) (some_ : x ≠ m.sentinel) :
    (m.rotated s fs x y q).Above up fs y := by
  have before : (((m.setChild s.other x (some q)).reparent q x).setParent y
      (m.heap x).parent).Above up fs x := by
    refine above.congr (by simp) (by simp) (fun w member => ⟨by simp, by simp, fun s' => ?_⟩)
      (fun w member => ?_) fun _ => ?_
    · simp [(xs w member).symm]
    · simp [(ys w member).symm, (qs w member).symm]
    · simp [xy, qx.symm]
  have replaced := before.replace (q := y) distinct fun _ => by
    simpa using above.parent_eq some_
  unfold Rbtree.rotated
  refine replaced.congr (by simp) (by simp) (fun w member => ⟨by simp, by simp, fun s' => ?_⟩)
    (fun w member => ?_) fun _ => ?_
  · simp [(ys w member).symm]
  · simp [(xs w member).symm]
  · simp [xy.symm]

/-- The addresses of two nodes, one below the other. -/
theorem addresses_pair :
    (addresses (join s c a x (join s c' b y d))).Perm
      (x.node :: y.node :: (addresses a ++ (addresses b ++ addresses d))) := by
  refine addresses_join.trans (List.Perm.cons _ ?_)
  exact (List.Perm.append_left _ addresses_join).trans List.perm_middle

/-- A rotation leaves the addresses as they are. -/
theorem addresses_rotated :
    (addresses (join s c' (join s c a x b) y d)).Perm
      (addresses (join s c a x (join s c' b y d))) := by
  refine (addresses_join.trans ?_).trans addresses_pair.symm
  refine (List.Perm.cons _ (List.Perm.append_right _ addresses_join)).trans ?_
  rw [List.cons_append, List.append_assoc]
  exact List.Perm.swap _ _ _

/-- What is at two nodes and below them is at different addresses. -/
structure Pair (m : Rbtree) (a b d : ColorTree RbEntry) (x y : Nat) : Prop where
  differ : x ≠ y
  notX : x ∉ addresses a ∧ x ∉ addresses b ∧ x ∉ addresses d
  notY : y ∉ addresses a ∧ y ∉ addresses b ∧ y ∉ addresses d
  someX : x ≠ m.sentinel
  someY : y ≠ m.sentinel
  distinct : (addresses b).Nodup
  nearApart : ∀ z ∈ addresses a, z ∉ addresses b
  farApart : ∀ z ∈ addresses d, z ∉ addresses b
  outside : m.sentinel ∉ addresses a ∧ m.sentinel ∉ addresses b ∧ m.sentinel ∉ addresses d

theorem Shows.pair (shows_ : m.Shows up (plug fs (join s c a x (join s c' b y d)))) :
    m.Pair a b d x.node y.node := by
  obtain ⟨below, -, -, inside, -⟩ := shows_.apart
  rw [addresses_pair.mem_iff] at inside
  obtain ⟨notX, nodup⟩ := List.nodup_cons.mp (addresses_pair.nodup_iff.mp below)
  obtain ⟨notY, nodup⟩ := List.nodup_cons.mp nodup
  obtain ⟨-, nodupBD, apartA⟩ := List.nodup_append.mp nodup
  obtain ⟨nodupB, -, apartB⟩ := List.nodup_append.mp nodupBD
  simp only [List.mem_cons, List.mem_append, not_or] at notX notY inside
  exact {
    differ := notX.1
    notX := notX.2
    notY := notY
    someX := Ne.symm inside.1
    someY := Ne.symm inside.2.1
    distinct := nodupB
    nearApart := fun z inA inB => apartA z inA z (List.mem_append_left _ inB) rfl
    farApart := fun z inD inB => apartB z inB z inD rfl
    outside := inside.2.2 }

namespace Pair

/-- The root of the subtree between the two is in neither of the others. -/
theorem address_not_mem {x y : Nat} (pair : m.Pair a b d x y) :
    m.address b ∉ addresses a ∧ m.address b ∉ addresses d := by
  rcases m.address_cases b with nil | member
  · rw [nil]
    exact ⟨pair.outside.1, pair.outside.2.2⟩
  · exact ⟨fun inA => pair.nearApart _ inA member, fun inD => pair.farApart _ inD member⟩

/-- The links of the two nodes and of what is below them after a rotation. -/
theorem linked_rotated (pair : m.Pair a b d x.node y.node)
    (off : ∀ z ∈ addresses (join s c a x (join s c' b y d)), ∀ f ∈ fs.head?, z ≠ f.value.node)
    (linked : m.Linked (join s c a x (join s c' b y d))) :
    (m.rotated s fs x.node y.node (m.address b)).Linked (join s c' (join s c a x b) y d) := by
  obtain ⟨cellX, linkedA, linkedY⟩ := linked_join.mp linked
  obtain ⟨cellY, linkedB, linkedD⟩ := linked_join.mp linkedY
  rw [address_join] at cellX
  simp only [addresses_pair.mem_iff, List.mem_cons, List.mem_append] at off
  have xA := address_ne pair.notX.1 pair.someX
  have xB := address_ne pair.notX.2.1 pair.someX
  have xD := address_ne pair.notX.2.2 pair.someX
  have yA := address_ne pair.notY.1 pair.someY
  have yB := address_ne pair.notY.2.1 pair.someY
  have yD := address_ne pair.notY.2.2 pair.someY
  obtain ⟨notA, notD⟩ := pair.address_not_mem
  have inner : m.address b ∉ innerAddresses b :=
    address_not_mem_inner pair.distinct pair.outside.2.1
  refine linked_join.mpr ⟨?_, linked_join.mpr ⟨?_, ?_, ?_⟩, ?_⟩
  · rw [address_join, address_congr sentinel_rotated]
    refine cellY.rotated_up (off _ (by simp)) pair.differ xD yD fun some_ => ?_
    exact ne_of_mem_of_not_mem ((m.address_cases d).resolve_left some_) notD
  · rw [address_congr sentinel_rotated, address_congr sentinel_rotated]
    refine cellX.rotated_down (off _ (by simp)) pair.differ xA yA (fun some_ => ?_) xB yB
    exact ne_of_mem_of_not_mem ((m.address_cases a).resolve_left some_) notA
  · exact linkedA.rotated (fun z member => off z (by simp [member])) pair.notX.1 pair.notY.1
      fun member => notA (innerAddresses_subset a _ member)
  · exact linkedB.rotated (fun z member => off z (by simp [member])) pair.notX.2.1 pair.notY.2.1
      inner
  · exact linkedD.rotated (fun z member => off z (by simp [member])) pair.notX.2.2 pair.notY.2.2
      fun member => notD (innerAddresses_subset d _ member)

end Pair

/-- A rotation. -/
theorem Shows.rotate (shows_ : m.Shows up (plug fs (join s c a x (join s c' b y d)))) :
    ∃ m', RbM.rotate s (some x.node) m = some ((), m') ∧
      m'.Shows up (plug fs (join s c' (join s c a x b) y d)) ∧ m'.sentinel = m.sentinel ∧
      (m'.heap m.sentinel).parent = (m.heap m.sentinel).parent := by
  obtain ⟨above, linked⟩ := shows_.above
  obtain ⟨below, path, differ, inside, outside⟩ := shows_.apart
  have pair := shows_.pair
  obtain ⟨cellX, -, linkedY⟩ := linked_join.mp linked
  obtain ⟨cellY, -, -⟩ := linked_join.mp linkedY
  rw [address_join] at above cellX
  have offX := differ x.node (by simp [addresses_pair.mem_iff])
  have offY := differ y.node (by simp [addresses_pair.mem_iff])
  have offB : ∀ w ∈ pathAddresses fs, m.address b ≠ w := by
    refine fun w member => address_ne (fun inB => ?_) (ne_of_mem_of_not_mem member outside)
    exact differ w (by simp [addresses_pair.mem_iff, inB]) w member rfl
  have xB := address_ne pair.notX.2.1 pair.someX
  have run := rotate_apply above cellX.far cellY.near pair.differ xB pair.someX offX
  refine ⟨_, run, Shows.of_above ?_ ?_ ?_ path ?_ ?_ ?_ ?_, sentinel_rotated, ?_⟩
  · rw [address_join]
    exact above.rotated path offX offY offB pair.differ xB pair.someX
  · exact pair.linked_rotated
      (fun z member f head => differ z member _ (mem_pathAddresses_head head)) linked
  · exact addresses_rotated.nodup_iff.mpr below
  · exact fun z member => differ z (addresses_rotated.mem_iff.mp member)
  · rw [sentinel_rotated]
    exact fun member => inside (addresses_rotated.mem_iff.mp member)
  · rwa [sentinel_rotated]
  · rw [sentinel_rotated, color_rotated]
    exact shows_.black
  · rw [parent_rotated]
    simp only [pair.someX.symm, pair.someY.symm, if_false, ne_eq, ite_eq_right_iff, and_imp]
    intro nil some_
    exact absurd nil.symm some_

/-- A rotation to the other side. -/
theorem Shows.rotate_other (shows_ : m.Shows up (plug fs (join s c (join s c' a y b) x d))) :
    ∃ m', RbM.rotate s.other (some x.node) m = some ((), m') ∧
      m'.Shows up (plug fs (join s c' a y (join s c b x d))) ∧ m'.sentinel = m.sentinel ∧
      (m'.heap m.sentinel).parent = (m.heap m.sentinel).parent := by
  rw [← join_other, ← join_other (c := c')] at shows_
  obtain ⟨m', run, rotated, rest⟩ := shows_.rotate
  rw [join_other, join_other] at rotated
  exact ⟨m', run, rotated, rest⟩

/-! ## What the code sees of a tree -/

/-- The nodes of the tree are not the sentinel. -/
theorem Shows.ne_sentinel (shows_ : m.Shows up (plug fs (join s c a x b))) :
    x.node ≠ m.sentinel := by
  intro nil
  refine shows_.apart.2.2.2.1 ?_
  rw [← nil, addresses_join.mem_iff]
  exact List.mem_cons_self

/-- A node and the one above it. -/
theorem Shows.cell {f : Frame RbEntry} (shows_ : m.Shows up (plug (f :: fs) t)) :
    m.Cell f.side f.color (m.address t) f.value (m.address f.sibling) :=
  shows_.above.1.1

theorem Shows.parent {f : Frame RbEntry} (shows_ : m.Shows up (plug (f :: fs) (join s c a x b))) :
    (m.heap x.node).parent = some f.value.node := by
  have cell := shows_.cell
  rw [address_join] at cell
  exact cell.nearParent shows_.ne_sentinel

/-- The root of a subtree knows its parent. -/
theorem Shows.parent_of_ne_nil (shows_ : m.Shows up (plug fs t)) (some_ : t ≠ .nil) :
    (m.heap (m.address t)).parent = parentOf up fs := by
  obtain ⟨-, -, -, inside, -⟩ := shows_.apart
  exact shows_.above.1.parent_eq (address_ne_sentinel some_ inside)

/-- A subtree with something above it is not the root. -/
theorem Shows.root_ne {f : Frame RbEntry} (shows_ : m.Shows up (plug (f :: fs) t)) :
    m.root ≠ some (m.address t) := by
  obtain ⟨r, member, root⟩ := shows_.above.1.root_mem
  obtain ⟨-, -, differ, -, outside⟩ := shows_.apart
  rw [root]
  intro same
  have here := Option.some.inj same
  rcases m.address_cases t with nil | inside
  · exact outside (nil ▸ here ▸ member)
  · exact differ _ inside r member here.symm

/-- A node is not its own sibling. -/
theorem Shows.address_sibling_ne {f : Frame RbEntry}
    (shows_ : m.Shows up (plug (f :: fs) (join s c a x b))) : m.address f.sibling ≠ x.node := by
  intro same
  rcases m.address_cases f.sibling with nil | member
  · exact shows_.ne_sentinel (same.symm.trans nil)
  · obtain ⟨-, -, differ, -, -⟩ := shows_.apart
    refine differ x.node ?_ _ ?_ same.symm
    · rw [addresses_join.mem_iff]
      exact List.mem_cons_self
    · rw [(pathAddresses_cons f fs).mem_iff]
      simp [member]

/-- The colour in memory of a subtree, which may be empty. -/
theorem Shows.color (shows_ : m.Shows up (plug fs t)) : (m.heap (m.address t)).color = t.color := by
  cases t with
  | nil => exact shows_.black
  | node c l x r => exact shows_.above.2.1.color

/-- A subtree and its sibling change places. -/
theorem Shows.flip (shows_ : m.Shows up (plug (⟨s, c, x, a⟩ :: fs) t)) :
    m.Shows up (plug (⟨s.other, c, x, t⟩ :: fs) a) := by
  rw [plug_cons, Frame.fill, join_other]
  exact shows_

/-- The same for the sibling. -/
theorem Shows.color_sibling {f : Frame RbEntry} (shows_ : m.Shows up (plug (f :: fs) t)) :
    (m.heap (m.address f.sibling)).color = f.sibling.color := by
  exact shows_.flip.color

/-! ## Colours -/

/-- A node is painted. -/
theorem Shows.setColor (shows_ : m.Shows up (plug fs (join s c a x b))) (c' : Color) :
    (m.setColor x.node c').Shows up (plug fs (join s c' a x b)) := by
  obtain ⟨above, linked⟩ := shows_.above
  obtain ⟨below, path, differ, inside, outside⟩ := shows_.apart
  obtain ⟨cell, linkedA, linkedB⟩ := linked_join.mp linked
  have same : ∀ z, z ≠ x.node → SameNode m (m.setColor x.node c') z := by
    intro z other
    exact ⟨by simp [other], by simp, by simp⟩
  have members : ∀ c' z, z ∈ addresses (join s c' a x b) ↔
      z = x.node ∨ z ∈ addresses a ∨ z ∈ addresses b := by
    intro c' z
    rw [addresses_join.mem_iff]
    simp
  have nodup := addresses_join.nodup_iff.mp below
  obtain ⟨notX, -⟩ := List.nodup_cons.mp nodup
  rw [List.mem_append, not_or] at notX
  rw [address_join] at above
  have memberX := (members c x.node).mpr (Or.inl rfl)
  refine Shows.of_above ?_ ?_ ?_ path ?_ ?_ outside ?_
  · rw [address_join]
    refine above.congr rfl rfl (fun z member => same z ?_) (by simp) (by simp)
    exact (differ _ memberX z member).symm
  · refine linked_join.mpr ⟨?_, ?_, ?_⟩
    · rw [address_congr sentinel_setColor, address_congr sentinel_setColor]
      exact ⟨by simp, by simp [cell.key], by simp [cell.near], by simp [cell.far],
        by simpa using cell.nearParent, by simpa using cell.farParent⟩
    · refine linkedA.congr rfl (fun z member => same z ?_) (by simp)
      rintro rfl
      exact notX.1 member
    · refine linkedB.congr rfl (fun z member => same z ?_) (by simp)
      rintro rfl
      exact notX.2 member
  · exact addresses_join.nodup_iff.mpr nodup
  · exact fun z member => differ z ((members _ z).mpr ((members _ z).mp member))
  · exact fun member => inside ((members _ _).mpr ((members _ _).mp member))
  · have other : m.sentinel ≠ x.node := by
      intro nil
      exact inside (nil ▸ memberX)
    simpa [other] using shows_.black

/-- The node above a subtree is painted. -/
theorem Shows.setColor_above (shows_ : m.Shows up (plug (⟨s, c, x, a⟩ :: fs) t)) (c' : Color) :
    (m.setColor x.node c').Shows up (plug (⟨s, c', x, a⟩ :: fs) t) :=
  Shows.setColor (s := s) shows_ c'

/-- The sibling of a subtree is painted. -/
theorem Shows.setColor_sibling {s' : Side}
    (shows_ : m.Shows up (plug (⟨s, c, x, join s' c' a y b⟩ :: fs) t)) (c₁ : Color) :
    (m.setColor y.node c₁).Shows up (plug (⟨s, c, x, join s' c₁ a y b⟩ :: fs) t) := by
  have painted := (shows_.flip.setColor c₁).flip
  rwa [Side.other_other] at painted

/-- The root is painted black, if there is one. -/
theorem Shows.paintRoot (shows_ : m.Shows up t) :
    (m.setColor (m.address t) .black).Shows up (t.paint .black) := by
  cases t with
  | nil =>
    exact ⟨shows_.root, fun absent => absurd rfl absent, trivial, shows_.distinct, shows_.outside,
      by simp [address]⟩
  | node c l x r =>
    have whole : m.Shows up (plug [] (join .left c l x r)) := shows_
    exact whole.setColor .black

end Rbtree

end Nutcracker
