import Nutcracker.Rbtree.Rotate

/-!
# Taking a node out

A node with at most one child is unlinked, and its child takes its place.  A node with two children
is replaced by the next one, which is unlinked first.
-/

namespace Nutcracker

open Lib.RedBlack ColorTree

namespace Rbtree

variable {m m' : Rbtree} {s : Side} {c c' : Color} {l r t : ColorTree RbEntry} {x y : RbEntry}
  {f g : Frame RbEntry} {fs gs : List (Frame RbEntry)} {up : NodePtr} {p q z fuel n : Nat}

/-! ## The parent of a node -/

/-- The code that lets the parent of a node point to another one. -/
theorem replaceChild_apply (above : m.Above up (f :: fs) z) (some_ : z ≠ m.sentinel)
    (differ : m.address f.sibling ≠ z) :
    RbM.replaceChild (some z) (some q) m = some ((), m.replace (f :: fs) q) := by
  have parent : (m.heap z).parent = some f.value.node := above.parent_eq some_
  unfold RbM.replaceChild replace
  cases side : f.side with
  | left =>
    have near : (m.heap f.value.node).child .left = some z := by
      simpa [side] using above.1.near
    simp [parent, near, side]
  | right =>
    have far : (m.heap f.value.node).child .left = some (m.address f.sibling) := by
      simpa [side] using above.1.far
    simp [parent, far, differ.symm, side]

/-- A node that has left the tree may be written to. -/
theorem Shows.modify (shows_ : m.Shows up t) (absent : z ∉ addresses t) (some_ : z ≠ m.sentinel)
    (update : RbNode → RbNode) : (m.modify z update).Shows up t := by
  have same : ∀ w, w ≠ z → (m.modify z update).heap w = m.heap w := by
    intro w differ
    rw [heap_modify, if_neg differ]
  have inTree : ∀ w ∈ addresses t, w ≠ z := by
    rintro w member rfl
    exact absent member
  refine ⟨?_, ?_, ?_, shows_.distinct, shows_.outside, ?_⟩
  · rw [address_modify]
    exact shows_.root
  · rw [address_modify, sentinel_modify]
    intro nonempty
    rw [same _ (inTree _ ((m.address_cases t).resolve_left nonempty))]
    exact shows_.top nonempty
  · refine shows_.linked.congr rfl (fun w member => ?_) fun w inner => ?_
    · exact .of_heap (same w (inTree w member))
    · rw [same w (inTree w (innerAddresses_subset t w inner))]
  · rw [show (m.modify z update).sentinel = m.sentinel from rfl, same _ some_.symm]
    exact shows_.black

/-! ## A node with at most one child -/

/-- A node with one child is not below itself. -/
theorem Shows.not_mem_child (shows_ : m.Shows up (plug fs (join s c t x .nil))) :
    x.node ∉ addresses (plug fs t) := by
  obtain ⟨below, -, differ, -, -⟩ := shows_.apart
  obtain ⟨notX, -⟩ := List.nodup_cons.mp (addresses_join.nodup_iff.mp below)
  rw [addresses_plug.mem_iff, List.mem_append, not_or]
  refine ⟨fun member => notX (List.mem_append_left _ member), fun member => ?_⟩
  refine differ x.node ?_ _ member rfl
  rw [addresses_join.mem_iff]
  exact List.mem_cons_self

/-- The only child of the root becomes the root, and keeps the old one as its parent. -/
theorem Shows.unroot (shows_ : m.Shows up (join s c t x .nil)) :
    (m.replace [] (m.address t)).Shows (some x.node) t := by
  obtain ⟨cell, linked, -⟩ := linked_join.mp shows_.linked
  have distinct := addresses_join.nodup_iff.mp shows_.distinct
  have outside := shows_.outside
  rw [addresses_join.mem_iff] at outside
  rw [show addresses (.nil : ColorTree RbEntry) = [] from rfl, List.append_nil] at distinct outside
  refine ⟨?_, ?_, ?_, (List.nodup_cons.mp distinct).2, ?_, shows_.black⟩
  · rw [address_replace]
    rfl
  · rw [address_replace]
    exact cell.nearParent
  · exact linked.congr rfl (fun z _ => .of_heap rfl) fun _ _ => rfl
  · exact fun member => outside (List.mem_cons_of_mem _ member)

/-- The only child of a node takes its place. -/
theorem Shows.splice (shows_ : m.Shows up (plug (f :: fs) (join s c t x .nil))) :
    ((m.replace (f :: fs) (m.address t)).setParent (m.address t) (some f.value.node)).Shows up
      (plug (f :: fs) t) := by
  obtain ⟨above, linked⟩ := shows_.above
  obtain ⟨below, path, differ, inside, outside⟩ := shows_.apart
  obtain ⟨-, linkedT, -⟩ := linked_join.mp linked
  have members : ∀ z, z ∈ addresses (join s c t x .nil) ↔ z = x.node ∨ z ∈ addresses t := by
    intro z
    rw [addresses_join.mem_iff]
    simp [addresses, inorder]
  have nodup := addresses_join.nodup_iff.mp below
  rw [show addresses (.nil : ColorTree RbEntry) = [] from rfl, List.append_nil] at nodup
  obtain ⟨notX, nodup⟩ := List.nodup_cons.mp nodup
  have inT : ∀ z ∈ addresses t, z ∈ addresses (join s c t x .nil) :=
    fun z member => (members z).mpr (Or.inr member)
  have notRoot : ∀ w ∈ pathAddresses (f :: fs), w ≠ m.address t := by
    refine fun w member => (address_ne (fun inside' => ?_) ?_).symm
    · exact differ w (inT w inside') w member rfl
    · exact ne_of_mem_of_not_mem member outside
  -- the parent first: then both links to the subtree are there
  have parented : (m.setParent (m.address t) (some f.value.node)).Above up (f :: fs) x.node := by
    rw [address_join] at above
    refine above.congr rfl rfl (fun w _ => ⟨by simp, by simp, by simp⟩) (fun w member => ?_) ?_
    · simp [notRoot w member]
    · simp [(address_ne notX shows_.ne_sentinel).symm]
  have replaced := parented.replace (q := m.address t) path fun _ => by
    simp [parentOf]
  have offPath : ∀ z ∈ addresses t, ∀ g ∈ (f :: fs).head?, z ≠ g.value.node :=
    fun z member g head => differ z (inT z member) _ (mem_pathAddresses_head head)
  refine Shows.of_above ?_ ?_ nodup path ?_ ?_ ?_ ?_
  · rw [address_congr (m := m) (by simp)]
    refine replaced.congr rfl rfl (fun w member => ⟨?_, ?_, fun s => ?_⟩) (fun w member => ?_) ?_
    · simp
    · simp
    · simp [Rbtree.replace]
    · simp
    · simp
  · refine linkedT.congr (by simp) (fun z member => ⟨by simp, by simp, fun s => ?_⟩)
      fun z inner => ?_
    · rw [child_heap_setParent, child_heap_replace (offPath z member)]
    · have child : z ≠ m.address t := by
        rintro rfl
        exact address_not_mem_inner nodup (fun member => inside (inT _ member)) inner
      simp [child]
  · exact fun z member => differ z (inT z member)
  · exact fun member => inside (inT _ member)
  · exact outside
  · simpa using shows_.black

/-! ## A node with two children -/

/-- The node `x` has the children `l` and `r`, which need not know it as their parent. -/
structure Hollow (m : Rbtree) (up : NodePtr) (fs : List (Frame RbEntry)) (c : Color)
    (l : ColorTree RbEntry) (x : Nat) (r : ColorTree RbEntry) : Prop where
  above : m.Above up fs x
  color : (m.heap x).color = c
  left : (m.heap x).child .left = some (m.address l)
  right : (m.heap x).child .right = some (m.address r)
  linkedLeft : m.Linked l
  linkedRight : m.Linked r

theorem Shows.hollow (shows_ : m.Shows up (plug fs (.node c l x r))) :
    m.Hollow up fs c l x.node r := by
  obtain ⟨above, cell, linkedLeft, linkedRight⟩ := shows_.above
  exact ⟨above, cell.color, cell.near, cell.far, linkedLeft, linkedRight⟩

/-- The fields of `x` are copied to `y`. -/
def copied (m : Rbtree) (x y : Nat) : Rbtree :=
  (((m.setChild .left y ((m.heap x).child .left)).setChild .right y
    ((m.heap x).child .right)).setParent y (m.heap x).parent).setColor y (m.heap x).color

/-- The node `y` takes the place of `x`, whose children are at `p` and `q`. -/
def substituted (m : Rbtree) (fs : List (Frame RbEntry)) (x y p q : Nat) : Rbtree :=
  (((m.copied x y).replace fs y).reparent p y).reparent q y

theorem heap_copied_of_ne {x y : Nat} (differ : z ≠ y) : (m.copied x y).heap z = m.heap z := by
  simp [copied, setColor, setParent, setChild, heap_modify, differ]

/-- The path to `x` does not change when its fields are copied. -/
theorem Above.copied {x y : Nat} (above : m.Above up fs x) (ys : ∀ w ∈ pathAddresses fs, y ≠ w)
    (xy : x ≠ y) : (m.copied x y).Above up fs x := by
  refine above.congr rfl rfl (fun w member => ?_) (fun w member => ?_) fun _ => ?_
  · exact .of_heap (heap_copied_of_ne (ys w member).symm)
  · rw [heap_copied_of_ne (ys w member).symm]
  · rw [heap_copied_of_ne xy]

section SubstitutedFields

variable {x y : Nat} {s' : Side}

theorem child_substituted (off : ∀ f ∈ fs.head?, z ≠ f.value.node) :
    ((m.substituted fs x y p q).heap z).child s' =
      if z = y then (m.heap x).child s' else (m.heap z).child s' := by
  unfold substituted
  rw [child_heap_reparent, child_heap_reparent, child_heap_replace off]
  by_cases here : z = y
  · cases s' <;> simp [copied, here]
  · rw [heap_copied_of_ne here, if_neg here]

theorem parent_substituted :
    ((m.substituted fs x y p q).heap z).parent =
      if z = q ∧ q ≠ m.sentinel then some y else if z = p ∧ p ≠ m.sentinel then some y
      else if z = y then (m.heap x).parent else (m.heap z).parent := by
  simp [substituted, copied]

theorem color_substituted :
    ((m.substituted fs x y p q).heap z).color =
      if z = y then (m.heap x).color else (m.heap z).color := by
  simp [substituted, copied]

@[simp]
theorem key_substituted : ((m.substituted fs x y p q).heap z).key = (m.heap z).key := by
  simp [substituted, copied]

@[simp]
theorem sentinel_substituted : (m.substituted fs x y p q).sentinel = m.sentinel := by
  simp [substituted, copied]

end SubstitutedFields

/-- The path leads to `y`. -/
theorem Above.substituted {x y : Nat} (above : m.Above up fs x)
    (distinct : (pathAddresses fs).Nodup)
    (ys : ∀ w ∈ pathAddresses fs, y ≠ w) (ps : ∀ w ∈ pathAddresses fs, p ≠ w)
    (qs : ∀ w ∈ pathAddresses fs, q ≠ w) (xy : x ≠ y) (py : p ≠ y) (qy : q ≠ y)
    (some_ : x ≠ m.sentinel) : (m.substituted fs x y p q).Above up fs y := by
  have replaced := (above.copied ys xy).replace (q := y) distinct fun _ => by
    simpa [Rbtree.copied] using above.parent_eq some_
  unfold Rbtree.substituted
  refine replaced.congr (by simp) (by simp) (fun w _ => ⟨by simp, by simp, by simp⟩)
    (fun w member => ?_) fun _ => ?_
  · simp [(ps w member).symm, (qs w member).symm]
  · simp [py.symm, qy.symm]

/-- The node `y` is in the place of `x`. -/
theorem Hollow.substituted (hollow : m.Hollow up fs c l x.node r)
    (distinct : (addresses (plug fs (.node c l y r))).Nodup)
    (outside : m.sentinel ∉ addresses (plug fs (.node c l y r)))
    (black : (m.heap m.sentinel).color = .black) (xy : x.node ≠ y.node)
    (some_ : x.node ≠ m.sentinel) (key : (m.heap y.node).key = y.key) :
    (m.substituted fs x.node y.node (m.address l) (m.address r)).Shows up
      (plug fs (.node c l y r)) := by
  rw [addresses_plug.nodup_iff] at distinct
  rw [addresses_plug.mem_iff, List.mem_append, not_or] at outside
  obtain ⟨below, path, differ⟩ := List.nodup_append.mp distinct
  have order : (addresses (.node c l y r)).Perm (y.node :: (addresses l ++ addresses r)) :=
    addresses_join (s := .left)
  have members : ∀ z, z ∈ addresses (.node c l y r) ↔
      z = y.node ∨ z ∈ addresses l ∨ z ∈ addresses r := by
    intro z
    rw [order.mem_iff]
    simp
  obtain ⟨notY, nodup⟩ := List.nodup_cons.mp (order.nodup_iff.mp below)
  rw [List.mem_append, not_or] at notY
  obtain ⟨nodupL, nodupR, apart⟩ := List.nodup_append.mp nodup
  have memberY := (members y.node).mpr (Or.inl rfl)
  have someY : y.node ≠ m.sentinel := by
    intro nil
    exact outside.1 (nil ▸ memberY)
  have offPath : ∀ t, (∀ z ∈ addresses t, z ∈ addresses (.node c l y r)) →
      ∀ w ∈ pathAddresses fs, m.address t ≠ w := by
    refine fun t inT w member => address_ne (fun inside => ?_) ?_
    · exact differ w (inT w inside) w member rfl
    · exact ne_of_mem_of_not_mem member outside.2
  have inL : ∀ z ∈ addresses l, z ∈ addresses (.node c l y r) :=
    fun z member => (members z).mpr (Or.inr (Or.inl member))
  have inR : ∀ z ∈ addresses r, z ∈ addresses (.node c l y r) :=
    fun z member => (members z).mpr (Or.inr (Or.inr member))
  have nodes : ∀ z ∈ addresses (.node c l y r), z ≠ y.node →
      SameNode m (m.substituted fs x.node y.node (m.address l) (m.address r)) z := by
    intro z member other
    refine ⟨by simp [color_substituted, other], key_substituted, fun s => ?_⟩
    rw [child_substituted fun f head => differ z member _ (mem_pathAddresses_head head),
      if_neg other]
  -- the parent of a node other than the roots of the two subtrees
  have parents : ∀ z, z ≠ y.node → (m.address l ≠ m.sentinel → z ≠ m.address l) →
      (m.address r ≠ m.sentinel → z ≠ m.address r) →
      ((m.substituted fs x.node y.node (m.address l) (m.address r)).heap z).parent =
        (m.heap z).parent := by
    intro z other notL notR
    rw [parent_substituted, if_neg fun h => notR h.2 h.1, if_neg fun h => notL h.2 h.1,
      if_neg other]
  have present : ∀ t, m.address t ≠ m.sentinel → m.address t ∈ addresses t :=
    fun t some_ => (m.address_cases t).resolve_left some_
  have offHead : ∀ f ∈ fs.head?, y.node ≠ f.value.node :=
    fun f head => differ _ memberY _ (mem_pathAddresses_head head)
  refine Shows.of_above ?_ ⟨?_, ?_, ?_⟩ below path differ ?_ ?_ ?_
  · exact hollow.above.substituted path (differ _ memberY) (offPath l inL) (offPath r inR) xy
      (address_ne notY.1 someY) (address_ne notY.2 someY) some_
  · rw [address_congr sentinel_substituted, address_congr sentinel_substituted]
    refine ⟨?_, ?_, ?_, ?_, ?_, ?_⟩
    · rw [color_substituted, if_pos rfl]
      exact hollow.color
    · rw [key_substituted]
      exact key
    · rw [child_substituted offHead, if_pos rfl]
      exact hollow.left
    · rw [Side.other_left, child_substituted offHead, if_pos rfl]
      exact hollow.right
    · rw [sentinel_substituted, parent_substituted]
      intro nonempty
      simp [nonempty]
    · rw [sentinel_substituted, parent_substituted]
      intro nonempty
      simp [nonempty]
  · refine hollow.linkedLeft.congr sentinel_substituted (fun z member => ?_) fun z inner => ?_
    · refine nodes z (inL z member) ?_
      rintro rfl
      exact notY.1 member
    · have member := innerAddresses_subset l z inner
      refine parents z ?_ (fun _ => ?_) fun nonempty => ?_
      · rintro rfl
        exact notY.1 member
      · rintro rfl
        exact address_not_mem_inner nodupL (fun absent => outside.1 (inL _ absent)) inner
      · exact apart z member _ (present r nonempty)
  · refine hollow.linkedRight.congr sentinel_substituted (fun z member => ?_) fun z inner => ?_
    · refine nodes z (inR z member) ?_
      rintro rfl
      exact notY.2 member
    · have member := innerAddresses_subset r z inner
      refine parents z ?_ (fun nonempty => ?_) fun _ => ?_
      · rintro rfl
        exact notY.2 member
      · exact (apart _ (present l nonempty) z member).symm
      · rintro rfl
        exact address_not_mem_inner nodupR (fun absent => outside.1 (inR _ absent)) inner
  · rw [sentinel_substituted]
    exact outside.1
  · rw [sentinel_substituted]
    exact outside.2
  · rw [sentinel_substituted, color_substituted, if_neg someY.symm]
    exact black

theorem copyNode_apply {x y : Nat} (xy : x ≠ y) :
    RbM.copyNode (some x) (some y) m = some ((), m.copied x y) := by
  simp [RbM.copyNode, copied, xy]

/-- The link to a node, whether it is the root or not. -/
theorem relink_apply (above : m.Above up fs z) (some_ : z ≠ m.sentinel)
    (zs : ∀ w ∈ pathAddresses fs, z ≠ w) :
    RbM.relink (some z) (some q) m = some ((), m.replace fs q) := by
  cases fs with
  | nil =>
    have root : m.root = some z := above.1
    simp [RbM.relink, root, replace]
  | cons f fs =>
    obtain ⟨w, member, root⟩ := above.root_mem
    have notRoot : m.root ≠ some z := by
      rw [root]
      exact fun same => zs w member (Option.some.inj same).symm
    have differ : m.address f.sibling ≠ z := by
      refine address_ne (fun inSibling => zs z ?_ rfl) some_
      rw [(pathAddresses_cons f fs).mem_iff]
      simp [inSibling]
    simp [RbM.relink, notRoot.symm, replaceChild_apply above some_ differ]

theorem adopt_apply (child : (m.heap z).child s = some p) :
    RbM.adopt s (some z) m = some ((), m.reparent p z) := by
  unfold RbM.adopt reparent
  by_cases empty : p = m.sentinel
  · simp [child, empty]
  · simp [child, empty]

/-- The code that puts `y` in the place of `x`. -/
theorem takePlace_apply {x y : Nat} (hollow : m.Hollow up fs c l x r)
    (xs : ∀ w ∈ pathAddresses fs, x ≠ w) (ys : ∀ w ∈ pathAddresses fs, y ≠ w) (xy : x ≠ y)
    (some_ : x ≠ m.sentinel) :
    RbM.takePlace (some x) (some y) m =
      some ((), m.substituted fs x y (m.address l) (m.address r)) := by
  have link : RbM.relink (some x) (some y) (m.copied x y) =
      some ((), (m.copied x y).replace fs y) :=
    relink_apply (hollow.above.copied ys xy) some_ xs
  have offHead : ∀ f ∈ fs.head?, y ≠ f.value.node :=
    fun f head => ys _ (mem_pathAddresses_head head)
  have left : (((m.copied x y).replace fs y).heap y).child .left = some (m.address l) := by
    rw [child_heap_replace offHead]
    simp [Rbtree.copied, hollow.left]
  have right : ((((m.copied x y).replace fs y).reparent (m.address l) y).heap y).child .right =
      some (m.address r) := by
    rw [child_heap_reparent, child_heap_replace offHead]
    simp [Rbtree.copied, hollow.right]
  simp [RbM.takePlace, copyNode_apply xy, link, adopt_apply left, adopt_apply right,
    Rbtree.substituted]

/-- The code that puts `y` in the place of `x`, after the parent of the node that moves up is
set. -/
theorem substitute_apply {x y temp v : Nat} (parent : (m.heap y).parent = some v)
    (hollow : (m.setParent temp (some (if v = x then y else v))).Hollow up fs c l x r)
    (xs : ∀ w ∈ pathAddresses fs, x ≠ w) (ys : ∀ w ∈ pathAddresses fs, y ≠ w) (xy : x ≠ y)
    (some_ : x ≠ m.sentinel) :
    RbM.substitute (some x) (some y) (some temp) m =
      some ((), (m.setParent temp (some (if v = x then y else v))).substituted fs x y
        (m.address l) (m.address r)) := by
  have place := takePlace_apply hollow xs ys xy some_
  rw [address_setParent, address_setParent] at place
  by_cases here : v = x
  · simp only [here, if_true] at place ⊢
    simp [RbM.substitute, parent, here, place]
  · simp only [here, if_false] at place ⊢
    simp [RbM.substitute, parent, here, place]

theorem setParent_setParent {v w : NodePtr} :
    (m.setParent z v).setParent z w = m.setParent z w := by
  simp [setParent, Rbtree.modify]

/-- The right child may have any parent. -/
theorem Shows.hollow_setParent (shows_ : m.Shows up (plug fs (.node c l x r))) (v : NodePtr) :
    (m.setParent (m.address r) v).Hollow up fs c l x.node r := by
  obtain ⟨above, color, left, right, linkedLeft, linkedRight⟩ := shows_.hollow
  obtain ⟨below, path, differ, inside, outside⟩ := shows_.apart
  have order : (addresses (.node c l x r)).Perm (x.node :: (addresses l ++ addresses r)) :=
    addresses_join (s := .left)
  obtain ⟨notX, nodup⟩ := List.nodup_cons.mp (order.nodup_iff.mp below)
  rw [List.mem_append, not_or] at notX
  obtain ⟨-, nodupR, apart⟩ := List.nodup_append.mp nodup
  have members : ∀ z, z ∈ addresses (.node c l x r) ↔
      z = x.node ∨ z ∈ addresses l ∨ z ∈ addresses r := by
    intro z
    rw [order.mem_iff]
    simp
  -- nothing else is at the address of the subtree
  have other : ∀ z, z ≠ m.sentinel → z ∉ addresses r → z ≠ m.address r := by
    rintro z some_ absent rfl
    exact absent ((m.address_cases r).resolve_left some_)
  have some_ : ∀ z ∈ addresses (.node c l x r), z ≠ m.sentinel := by
    rintro z member rfl
    exact inside member
  refine ⟨?_, by simpa using color, by simpa using left, by simpa using right, ?_, ?_⟩
  · refine above.congr rfl rfl (fun z _ => ⟨by simp, by simp, by simp⟩) (fun z member => ?_) ?_
    · have notHere : z ≠ m.address r := by
        refine other z ?_ fun inR => ?_
        · rintro rfl
          exact outside member
        · exact differ z ((members z).mpr (Or.inr (Or.inr inR))) z member rfl
      simp [notHere]
    · have notHere : x.node ≠ m.address r :=
        other _ (some_ _ ((members _).mpr (Or.inl rfl))) notX.2
      simp [notHere]
  · refine linkedLeft.congr rfl (fun z _ => ⟨by simp, by simp, by simp⟩) fun z inner => ?_
    have member := innerAddresses_subset l z inner
    have notHere : z ≠ m.address r :=
      other z (some_ z ((members z).mpr (Or.inr (Or.inl member)))) fun inR =>
        apart z member z inR rfl
    simp [notHere]
  · refine linkedRight.congr rfl (fun z _ => ⟨by simp, by simp, by simp⟩) fun z inner => ?_
    have notHere : z ≠ m.address r := by
      rintro rfl
      refine address_not_mem_inner nodupR (fun inR => inside ?_) inner
      exact (members _).mpr (Or.inr (Or.inr inR))
    simp [notHere]

theorem pathAddresses_append :
    (pathAddresses (gs ++ fs)).Perm (pathAddresses gs ++ pathAddresses fs) := by
  rw [List.perm_iff_count]
  intro z
  simp only [pathAddresses, before_append, after_append, List.map_append, List.count_append]
  omega

/-- One address is not there any more when `y` has taken the place of `x`. -/
theorem addresses_next :
    (addresses (plug (gs ++ ⟨.right, c, x, l⟩ :: fs) (.node c' .nil y r))).Perm
      (x.node :: addresses (plug (gs ++ ⟨.right, c, y, l⟩ :: fs) r)) := by
  have path : ∀ z : RbEntry, (pathAddresses (gs ++ ⟨.right, c, z, l⟩ :: fs)).Perm
      (pathAddresses gs ++ z.node :: (addresses l ++ pathAddresses fs)) :=
    fun z => pathAddresses_append.trans ((pathAddresses_cons _ fs).append_left _)
  have old := addresses_plug.trans ((path x).append_left (addresses (.node c' .nil y r)))
  have new := addresses_plug.trans ((path y).append_left (addresses r))
  rw [List.perm_iff_count] at old new ⊢
  intro z
  rw [old z, List.count_cons, new z]
  simp only [addresses, inorder, List.nil_append, List.map_cons, List.cons_append, List.count_cons,
    List.count_append]
  omega

theorem Shows.ne_next
    (shows_ : m.Shows up (plug (gs ++ ⟨.right, c, x, l⟩ :: fs) (.node c' .nil y r))) :
    x.node ≠ y.node := by
  intro same
  obtain ⟨absent, -⟩ := List.nodup_cons.mp (addresses_next.nodup_iff.mp shows_.distinct)
  refine absent ?_
  rw [same, addresses_plug.mem_iff, List.mem_append, pathAddresses_append.mem_iff, List.mem_append,
    (pathAddresses_cons _ fs).mem_iff]
  exact Or.inr (Or.inr List.mem_cons_self)

/-- The next node is unlinked.  If it is the right child of `x`, it is already the parent of what
has moved up. -/
theorem Shows.unlink
    (shows_ : m.Shows up (plug (gs ++ ⟨.right, c, x, l⟩ :: fs) (.node c' .nil y r))) :
    ∃ f fs' w, gs ++ ⟨.right, c, x, l⟩ :: fs = f :: fs' ∧
      w = (if f.value.node = x.node then y.node else f.value.node) ∧
      some w = parentOf up (gs ++ ⟨.right, c, y, l⟩ :: fs) ∧
      ((m.replace (f :: fs') (m.address r)).setParent (m.address r) (some w)).Hollow
        up fs c l x.node (plug gs r) := by
  cases gs with
  | nil =>
    have spliced := Shows.splice (s := .right) shows_
    have hollow := Shows.hollow_setParent (l := l) (r := r) spliced (some y.node)
    rw [address_setParent, address_replace, setParent_setParent] at hollow
    exact ⟨_, _, y.node, rfl, (if_pos rfl).symm, rfl, hollow⟩
  | cons g gs =>
    have spliced : ((m.replace (g :: (gs ++ ⟨.right, c, x, l⟩ :: fs)) (m.address r)).setParent
        (m.address r) (some g.value.node)).Shows up
          (plug ((g :: gs) ++ ⟨.right, c, x, l⟩ :: fs) r) :=
      Shows.splice (s := .right) shows_
    rw [plug_append] at spliced
    have other : g.value.node ≠ x.node := by
      intro same
      obtain ⟨-, path, -, -, -⟩ := shows_.apart
      have parts := (pathAddresses_cons g (gs ++ ⟨.right, c, x, l⟩ :: fs)).nodup_iff.mp path
      obtain ⟨absent, -⟩ := List.nodup_cons.mp parts
      rw [List.mem_append, not_or, pathAddresses_append.mem_iff, List.mem_append, not_or,
        (pathAddresses_cons _ fs).mem_iff] at absent
      exact absent.2.2 (same ▸ List.mem_cons_self)
    exact ⟨_, _, g.value.node, rfl, (if_neg other).symm, rfl, Shows.hollow spliced⟩

/-- The next node is unlinked and takes the place of `x`. -/
theorem Shows.replaceByNext
    (shows_ : m.Shows up (plug (gs ++ ⟨.right, c, x, l⟩ :: fs) (.node c' .nil y r))) :
    ∃ m', (do
        RbM.replaceChild (some y.node) (some (m.address r))
        RbM.substitute (some x.node) (some y.node) (some (m.address r))
        RbM.nodeInit (some x.node) : RbM Unit) m = some ((), m') ∧
      m'.Shows up (plug (gs ++ ⟨.right, c, y, l⟩ :: fs) r) ∧ m'.sentinel = m.sentinel ∧
      (m'.heap (m'.address r)).parent = parentOf up (gs ++ ⟨.right, c, y, l⟩ :: fs) := by
  obtain ⟨f, fs', w, path, parent, head, hollow⟩ := shows_.unlink
  have distinct := addresses_next.nodup_iff.mp shows_.distinct
  have outside := shows_.outside
  rw [addresses_next.mem_iff, List.mem_cons, not_or] at outside
  obtain ⟨absent, distinct⟩ := List.nodup_cons.mp distinct
  have someX : x.node ≠ m.sentinel := Ne.symm outside.1
  have key : (m.heap y.node).key = y.key := shows_.above.2.1.key
  have inPath : ∀ w ∈ pathAddresses fs, w ∈ pathAddresses (gs ++ ⟨.right, c, y, l⟩ :: fs) := by
    intro w member
    rw [pathAddresses_append.mem_iff, List.mem_append, (pathAddresses_cons _ fs).mem_iff]
    simp [member]
  have offX : ∀ w ∈ pathAddresses fs, x.node ≠ w := by
    rintro w member rfl
    refine absent ?_
    rw [addresses_plug.mem_iff]
    exact List.mem_append_right _ (inPath _ member)
  have whole : plug (gs ++ ⟨.right, c, y, l⟩ :: fs) r = plug fs (.node c l y (plug gs r)) := by
    rw [plug_append]
    rfl
  rw [whole] at absent distinct outside ⊢
  have xy := shows_.ne_next
  have offY : ∀ w ∈ pathAddresses fs, y.node ≠ w := by
    have parts := addresses_plug.nodup_iff.mp distinct
    obtain ⟨-, -, differ⟩ := List.nodup_append.mp parts
    exact differ y.node (by simp [addresses, inorder])
  have result := (hollow.substituted (by simpa using distinct) (by simpa using outside.2)
    (by simpa using shows_.black) xy (by simpa using someX) (by simpa using key)).modify absent
    (by simpa using someX) RbNode.init
  rw [address_setParent, address_setParent, address_replace,
    address_replace] at result
  rw [path] at shows_
  have above : m.Above up (f :: fs') y.node := shows_.above.1
  have someY : y.node ≠ m.sentinel := Shows.ne_sentinel (s := .left) shows_
  have unlinked : RbM.replaceChild (some y.node) (some (m.address r)) m =
      some ((), m.replace (f :: fs') (m.address r)) :=
    replaceChild_apply above someY (Shows.address_sibling_ne (s := .left) shows_)
  have placed := substitute_apply (m := m.replace (f :: fs') (m.address r))
    (parent_heap_replace.trans (above.parent_eq someY)) (parent ▸ hollow) offX offY xy
    (by simpa using someX)
  rw [← parent, address_replace, address_replace] at placed
  refine ⟨_, ?_, result, ?_, ?_⟩
  · simp [unlinked, placed]
  · simp
  · rw [← whole] at result
    by_cases empty : r = .nil
    · -- nothing but the first step writes to the sentinel
      subst empty
      have others : ∀ {q}, ¬ (m.sentinel = q ∧ q ≠ m.sentinel) := fun h => h.2 h.1.symm
      simp [address, heap_modify, someX.symm, parent_substituted, others, someY.symm,
        head]
    · exact result.parent_of_ne_nil empty

end Rbtree

end Nutcracker
