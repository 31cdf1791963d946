import Mathlib.Data.List.Basic

/-!
# Red-black trees and their repair

A tree is looked at from one of its subtrees, with the path to the root as a list of frames.  An
insertion may leave a red node below another, and a deletion a subtree that has one black node too
few.  Both are repaired on the way up, by rotations and by recolouring; the two sides of the tree
are treated alike.
-/

namespace Nutcracker.Lib.RedBlack

universe u

inductive Color where
  | red
  | black
  deriving DecidableEq, Repr

inductive Side where
  | left
  | right
  deriving DecidableEq, Repr

def Side.other : Side → Side
  | left => right
  | right => left

@[simp] theorem Side.other_left : Side.left.other = .right := rfl

@[simp] theorem Side.other_right : Side.right.other = .left := rfl

@[simp]
theorem Side.other_ne (s : Side) : s.other ≠ s := by
  cases s <;> decide

@[simp]
theorem Side.ne_other (s : Side) : s ≠ s.other := by
  cases s <;> decide

@[simp]
theorem Side.other_other (s : Side) : s.other.other = s := by
  cases s <;> rfl

theorem Side.eq_other_of_ne {s s' : Side} (differ : s ≠ s') : s = s'.other := by
  cases s <;> cases s' <;> simp_all

inductive ColorTree (α : Type u) where
  | nil
  | node (color : Color) (left : ColorTree α) (value : α) (right : ColorTree α)
  deriving DecidableEq, Repr

namespace ColorTree

variable {α : Type u}

/-- The colour of the root; the empty tree counts as black. -/
def color : ColorTree α → Color
  | nil => .black
  | node c _ _ _ => c

@[simp] theorem color_nil : (nil : ColorTree α).color = .black := rfl

@[simp]
theorem color_node (c : Color) (l : ColorTree α) (x : α) (r : ColorTree α) :
    (node c l x r).color = c :=
  rfl

/-- Give the root another colour. -/
def paint (c : Color) : ColorTree α → ColorTree α
  | nil => nil
  | node _ l x r => node c l x r

/-- The values from left to right. -/
def inorder : ColorTree α → List α
  | nil => []
  | node _ l x r => l.inorder ++ x :: r.inorder

@[simp] theorem inorder_nil : (nil : ColorTree α).inorder = [] := rfl

@[simp]
theorem inorder_paint (c : Color) (t : ColorTree α) : (t.paint c).inorder = t.inorder := by
  cases t <;> rfl

/-- A node whose subtree on the given side is `near`. -/
def join : Side → Color → ColorTree α → α → ColorTree α → ColorTree α
  | .left, c, near, x, far => node c near x far
  | .right, c, near, x, far => node c far x near

variable {s : Side} {c : Color} {a b t : ColorTree α} {x : α} {n : Nat}

@[simp]
theorem color_join : (join s c a x b).color = c := by
  cases s <;> rfl

@[simp]
theorem paint_join {c' : Color} : (join s c a x b).paint c' = join s c' a x b := by
  cases s <;> rfl

theorem join_ne_nil : join s c a x b ≠ nil := by
  cases s <;> simp [join]

theorem join_other : join s.other c a x b = join s c b x a := by
  cases s <;> rfl

/-- Every tree that is not empty is a node, seen from either side. -/
theorem eq_join (s : Side) (t : ColorTree α) : t = nil ∨ ∃ c a x b, t = join s c a x b := by
  cases t with
  | nil => exact Or.inl rfl
  | node c l x r =>
    refine Or.inr ?_
    cases s with
    | left => exact ⟨c, l, x, r, rfl⟩
    | right => exact ⟨c, r, x, l, rfl⟩

theorem exists_join_of_red (s : Side) (red : t.color = .red) : ∃ a x b, t = join s .red a x b := by
  rcases t.eq_join s with rfl | ⟨c, a, x, b, rfl⟩
  · cases red
  · rw [color_join] at red
    exact ⟨a, x, b, red ▸ rfl⟩

theorem ne_red : ∀ {c : Color}, c ≠ .red ↔ c = .black := by
  rintro ⟨⟩ <;> simp

theorem ne_black : ∀ {c : Color}, c ≠ .black ↔ c = .red := by
  rintro ⟨⟩ <;> simp

/-! ## Balance -/

/-- A red node has black children, and every path down has `n` black nodes. -/
inductive Valid : ColorTree α → Nat → Prop where
  | nil : Valid nil 0
  | red {l r : ColorTree α} {x : α} {n : Nat} : l.Valid n → r.Valid n → l.color = .black →
      r.color = .black → Valid (node .red l x r) n
  | black {l r : ColorTree α} {x : α} {n : Nat} : l.Valid n → r.Valid n →
      Valid (node .black l x r) (n + 1)

theorem valid_red_iff :
    (join s .red a x b).Valid n ↔
      a.Valid n ∧ b.Valid n ∧ a.color = .black ∧ b.color = .black := by
  cases s with
  | left =>
    constructor
    · rintro ⟨⟩
      exact ⟨‹_›, ‹_›, ‹_›, ‹_›⟩
    · rintro ⟨near, far, blackNear, blackFar⟩
      exact .red near far blackNear blackFar
  | right =>
    constructor
    · rintro ⟨⟩
      exact ⟨‹_›, ‹_›, ‹_›, ‹_›⟩
    · rintro ⟨near, far, blackNear, blackFar⟩
      exact .red far near blackFar blackNear

theorem valid_black_iff : (join s .black a x b).Valid (n + 1) ↔ a.Valid n ∧ b.Valid n := by
  cases s with
  | left =>
    constructor
    · rintro ⟨⟩
      exact ⟨‹_›, ‹_›⟩
    · rintro ⟨near, far⟩
      exact .black near far
  | right =>
    constructor
    · rintro ⟨⟩
      exact ⟨‹_›, ‹_›⟩
    · rintro ⟨near, far⟩
      exact .black far near

theorem not_valid_black_zero : ¬ (join s .black a x b).Valid 0 := by
  cases s <;> rintro ⟨⟩

/-- A black tree that has a black node on every path is a node. -/
theorem Valid.eq_join_of_black (s : Side) (valid : t.Valid (n + 1)) (black : t.color = .black) :
    ∃ a x b, t = join s .black a x b ∧ a.Valid n ∧ b.Valid n := by
  rcases t.eq_join s with rfl | ⟨c, a, x, b, rfl⟩
  · cases valid
  · rw [color_join] at black
    subst black
    exact ⟨a, x, b, rfl, valid_black_iff.mp valid⟩

/-- A red tree is valid in black, and has a black node more. -/
theorem Valid.paint_black (valid : t.Valid n) (red : t.color = .red) :
    (t.paint .black).Valid (n + 1) := by
  obtain ⟨a, x, b, rfl⟩ := exists_join_of_red .left red
  obtain ⟨near, far, -, -⟩ := valid_red_iff.mp valid
  rw [paint_join]
  exact valid_black_iff.mpr ⟨near, far⟩

theorem paint_of_color (same : t.color = c) : t.paint c = t := by
  cases t with
  | nil => rfl
  | node c' l x r =>
    cases same
    rfl

/-- A red-black tree: balanced, with a black root. -/
def IsRedBlack (t : ColorTree α) : Prop :=
  t.color = .black ∧ ∃ n, t.Valid n

/-- Without black nodes on its paths, a balanced tree has at most one node. -/
theorem Valid.length_le_one (valid : t.Valid 0) : t.inorder.length ≤ 1 := by
  cases valid with
  | nil => simp
  | red left right blackLeft blackRight =>
    cases left with
    | nil =>
      cases right with
      | nil => simp [inorder]
      | red => cases blackRight
    | red => cases blackLeft

/-- Next to an empty subtree of the root there is at most one node. -/
theorem IsRedBlack.length_le_one (whole : (join s c t x nil).IsRedBlack) :
    t.inorder.length ≤ 1 := by
  obtain ⟨black, n, valid⟩ := whole
  rw [color_join] at black
  subst black
  cases n with
  | zero => exact absurd valid not_valid_black_zero
  | succ n =>
    obtain ⟨near, far⟩ := valid_black_iff.mp valid
    cases far
    exact near.length_le_one

/-- Paint the root of a balanced tree black. -/
theorem Valid.isRedBlack_paint (valid : t.Valid n) : (t.paint .black).IsRedBlack := by
  cases color : t.color with
  | red =>
    refine ⟨?_, n + 1, valid.paint_black color⟩
    obtain ⟨a, x, b, rfl⟩ := exists_join_of_red .left color
    simp
  | black =>
    rw [paint_of_color color]
    exact ⟨color, n, valid⟩

end ColorTree

open ColorTree

/-! ## Paths -/

/-- A node above the subtree that is looked at, which is on the given side of it. -/
structure Frame (α : Type u) where
  side : Side
  color : Color
  value : α
  sibling : ColorTree α
  deriving DecidableEq, Repr

variable {α : Type u}

/-- The tree below and including the node of a frame. -/
def Frame.fill (f : Frame α) (t : ColorTree α) : ColorTree α :=
  join f.side f.color t f.value f.sibling

/-- The whole tree. -/
def plug : List (Frame α) → ColorTree α → ColorTree α
  | [], t => t
  | f :: fs, t => plug fs (f.fill t)

@[simp] theorem plug_nil (t : ColorTree α) : plug [] t = t := rfl

@[simp]
theorem plug_cons (f : Frame α) (fs : List (Frame α)) (t : ColorTree α) :
    plug (f :: fs) t = plug fs (f.fill t) :=
  rfl

theorem plug_append (fs gs : List (Frame α)) (t : ColorTree α) :
    plug (fs ++ gs) t = plug gs (plug fs t) := by
  induction fs generalizing t with
  | nil => rfl
  | cons f fs ih => exact ih (f.fill t)

/-- The values to the left of the subtree that is looked at. -/
def before : List (Frame α) → List α
  | [] => []
  | ⟨.left, _, _, _⟩ :: fs => before fs
  | ⟨.right, _, x, sibling⟩ :: fs => before fs ++ (sibling.inorder ++ [x])

/-- The values to the right of the subtree that is looked at. -/
def after : List (Frame α) → List α
  | [] => []
  | ⟨.left, _, x, sibling⟩ :: fs => x :: sibling.inorder ++ after fs
  | ⟨.right, _, _, _⟩ :: fs => after fs

theorem before_append (fs gs : List (Frame α)) : before (fs ++ gs) = before gs ++ before fs := by
  induction fs with
  | nil => simp [before]
  | cons f fs ih =>
    obtain ⟨s, c, x, sibling⟩ := f
    cases s <;> simp [before, ih]

theorem after_append (fs gs : List (Frame α)) : after (fs ++ gs) = after fs ++ after gs := by
  induction fs with
  | nil => simp [after]
  | cons f fs ih =>
    obtain ⟨s, c, x, sibling⟩ := f
    cases s <;> simp [after, ih]

theorem inorder_plug (fs : List (Frame α)) (t : ColorTree α) :
    (plug fs t).inorder = before fs ++ t.inorder ++ after fs := by
  induction fs generalizing t with
  | nil => simp [before, after]
  | cons f fs ih =>
    obtain ⟨s, c, x, sibling⟩ := f
    rw [plug_cons, ih]
    cases s <;> simp [before, after, Frame.fill, join, inorder]

/-- The first value with a property that is met on the way down: the path to it, and the subtree
there. -/
def locate (p : α → Bool) : ColorTree α → List (Frame α) → Option (List (Frame α) × ColorTree α)
  | .nil, _ => none
  | .node c l x r, fs =>
      if p x then some (fs, .node c l x r)
      else (locate p l (⟨.left, c, x, r⟩ :: fs)).or (locate p r (⟨.right, c, x, l⟩ :: fs))

/-- The place that is found is one of the tree, with a value that has the property. -/
theorem plug_locate {p : α → Bool} {t u : ColorTree α} {fs gs : List (Frame α)}
    (found : locate p t fs = some (gs, u)) :
    plug gs u = plug fs t ∧ ∃ c l x r, u = node c l x r ∧ p x = true := by
  induction t generalizing fs with
  | nil => cases found
  | node c l x r left right =>
    rw [locate] at found
    split at found
    · cases found
      exact ⟨rfl, c, l, x, r, rfl, ‹_›⟩
    · rcases Option.or_eq_some_iff.mp found with inLeft | ⟨-, inRight⟩
      · exact left inLeft
      · exact right inRight

/-- A value with the property is found. -/
theorem exists_locate {p : α → Bool} {t : ColorTree α} {x : α} (member : x ∈ t.inorder)
    (holds : p x = true) (fs : List (Frame α)) : ∃ gs u, locate p t fs = some (gs, u) := by
  induction t generalizing fs with
  | nil => cases member
  | node c l y r left right =>
    rw [locate]
    split
    · exact ⟨_, _, rfl⟩
    · rename_i fails
      cases inLeft : locate p l (⟨.left, c, y, r⟩ :: fs) with
      | some place => exact ⟨_, _, rfl⟩
      | none =>
        simp only [inorder, List.mem_append, List.mem_cons] at member
        rcases member with below | rfl | below
        · obtain ⟨gs, u, found⟩ := left below (⟨.left, c, y, r⟩ :: fs)
          exact absurd (found.symm.trans inLeft) (by simp)
        · exact absurd holds fails
        · exact right below _

/-- Every node of a path has a value. -/
theorem length_le_plug (fs : List (Frame α)) (t : ColorTree α) :
    fs.length + t.inorder.length ≤ (plug fs t).inorder.length := by
  induction fs generalizing t with
  | nil => simp
  | cons f fs ih =>
    have rest := ih (f.fill t)
    have here : t.inorder.length + 1 ≤ (f.fill t).inorder.length := by
      obtain ⟨s, c, x, sibling⟩ := f
      cases s <;> simp only [Frame.fill, join, inorder, List.length_append, List.length_cons] <;>
        omega
    rw [plug_cons, List.length_cons]
    omega

theorem inorder_fill_congr (f : Frame α) {t t' : ColorTree α} (same : t.inorder = t'.inorder) :
    (f.fill t).inorder = (f.fill t').inorder := by
  change (plug [f] t).inorder = (plug [f] t').inorder
  rw [inorder_plug, inorder_plug, same]

/-- The path fits around a subtree with `n` black nodes on every path down.  The last argument is
the colour of the node above the subtree. -/
inductive Context : List (Frame α) → Nat → Color → Prop where
  | root {n : Nat} : Context [] n .black
  | red {s : Side} {x : α} {sibling : ColorTree α} {f : Frame α} {fs : List (Frame α)} {n : Nat} :
      Context (f :: fs) n .black → sibling.Valid n → sibling.color = .black →
      Context (⟨s, .red, x, sibling⟩ :: f :: fs) n .red
  | black {s : Side} {x : α} {sibling : ColorTree α} {fs : List (Frame α)} {n : Nat} {c : Color} :
      Context fs (n + 1) c → sibling.Valid n → Context (⟨s, .black, x, sibling⟩ :: fs) n .black

variable {fs : List (Frame α)} {t : ColorTree α} {n : Nat} {c : Color}

/-- A subtree that fits makes a red-black tree. -/
theorem Context.plug (context : Context fs n c) (valid : t.Valid n)
    (allowed : c = .red → t.color = .black) (root : fs = [] → t.color = .black) :
    (plug fs t).IsRedBlack := by
  induction context generalizing t with
  | root => exact ⟨root rfl, _, valid⟩
  | red _ sibling blackSibling ih =>
    exact ih (valid_red_iff.mpr ⟨valid, sibling, allowed rfl, blackSibling⟩) (by simp) (by simp)
  | black _ sibling ih =>
    exact ih (valid_black_iff.mpr ⟨valid, sibling⟩) (fun _ => color_join) fun _ => color_join

/-- A red-black tree, looked at from one of its subtrees. -/
theorem context_of_plug (whole : (plug fs t).IsRedBlack) :
    ∃ n c, Context fs n c ∧ t.Valid n ∧ (c = .red → t.color = .black) ∧
      (fs = [] → t.color = .black) := by
  induction fs generalizing t with
  | nil =>
    obtain ⟨black, n, valid⟩ := whole
    exact ⟨n, .black, .root, valid, by simp, fun _ => black⟩
  | cons f fs ih =>
    obtain ⟨s, color, x, sibling⟩ := f
    obtain ⟨n, c, context, valid, allowed, root⟩ := ih whole
    cases color with
    | red =>
      obtain ⟨near, far, blackNear, blackFar⟩ := valid_red_iff.mp valid
      have above : c = .black := by
        refine ne_red.mp fun red => ?_
        simpa [Frame.fill] using allowed red
      subst above
      cases fs with
      | nil => simpa [Frame.fill] using root rfl
      | cons g gs => exact ⟨n, .red, .red context far blackFar, near, fun _ => blackNear, by simp⟩
    | black =>
      cases n with
      | zero => exact absurd valid not_valid_black_zero
      | succ n =>
        obtain ⟨near, far⟩ := valid_black_iff.mp valid
        exact ⟨n, .black, .black context far, near, by simp, by simp⟩

/-- The values on a path do not matter for the balance. -/
theorem Context.revalue {gs : List (Frame α)} {s : Side} {color : Color} {x : α}
    {sibling : ColorTree α}
    (context : Context (gs ++ ⟨s, color, x, sibling⟩ :: fs) n c) (y : α) :
    Context (gs ++ ⟨s, color, y, sibling⟩ :: fs) n c := by
  induction gs generalizing n c with
  | nil =>
    cases context with
    | red above valid black => exact .red above valid black
    | black above valid => exact .black above valid
  | cons g gs ih =>
    rw [List.cons_append] at context ⊢
    generalize original : gs ++ ⟨s, color, x, sibling⟩ :: fs = hs at context
    cases context with
    | @red _ _ _ f' fs' _ above valid black =>
      rw [← original] at above
      have above' := ih above
      cases changed : gs ++ ⟨s, color, y, sibling⟩ :: fs with
      | nil => simp at changed
      | cons h hs =>
        rw [changed] at above'
        exact .red above' valid black
    | black above valid =>
      rw [← original] at above
      exact .black (ih above) valid

/-! ## Insertion -/

/-- The path to the place of a new value: down to the left where `goLeft` says so. -/
def descend (goLeft : α → Bool) : ColorTree α → List (Frame α) → List (Frame α)
  | .nil, fs => fs
  | .node c l x r, fs =>
      if goLeft x then descend goLeft l (⟨.left, c, x, r⟩ :: fs)
      else descend goLeft r (⟨.right, c, x, l⟩ :: fs)

theorem plug_descend (goLeft : α → Bool) (t : ColorTree α) (fs : List (Frame α)) :
    plug (descend goLeft t fs) .nil = plug fs t := by
  induction t generalizing fs with
  | nil => rfl
  | node c l x r left right =>
    rw [descend]
    split
    · exact left _
    · exact right _

theorem length_descend_le (goLeft : α → Bool) (t : ColorTree α) (fs : List (Frame α)) :
    (descend goLeft t fs).length ≤ t.inorder.length + fs.length := by
  induction t generalizing fs with
  | nil => simp [descend]
  | node c l x r left right =>
    simp only [descend, inorder, List.length_append, List.length_cons]
    split
    · have bound := left (⟨.left, c, x, r⟩ :: fs)
      rw [List.length_cons] at bound
      omega
    · have bound := right (⟨.right, c, x, l⟩ :: fs)
      rw [List.length_cons] at bound
      omega

/-- If the values on which `goLeft` holds are the last ones, they come behind the new place. -/
theorem descend_splits {goLeft : α → Bool} {t : ColorTree α} {fs : List (Frame α)}
    (monotone : (plug fs t).inorder.Pairwise fun x y => goLeft x = true → goLeft y = true)
    (stays : ∀ x ∈ before fs, goLeft x = false) (goes : ∀ x ∈ after fs, goLeft x = true) :
    (∀ x ∈ before (descend goLeft t fs), goLeft x = false) ∧
      ∀ x ∈ after (descend goLeft t fs), goLeft x = true := by
  induction t generalizing fs with
  | nil => exact ⟨stays, goes⟩
  | node c l x r left right =>
    have here : (l.inorder ++ x :: r.inorder).Pairwise fun x y =>
        goLeft x = true → goLeft y = true := by
      rw [inorder_plug, List.append_assoc] at monotone
      exact (List.pairwise_append.mp (List.pairwise_append.mp monotone).2.1).1
    obtain ⟨-, fromRoot, toRoot⟩ := List.pairwise_append.mp here
    rw [descend]
    split
    · rename_i less
      refine left monotone stays ?_
      intro y member
      rcases List.mem_append.mp member with inSibling | above
      · rcases List.mem_cons.mp inSibling with rfl | inSibling
        · exact less
        · exact (List.pairwise_cons.mp fromRoot).1 y inSibling less
      · exact goes y above
    · rename_i notLess
      refine right monotone ?_ goes
      intro y member
      rcases List.mem_append.mp member with above | inSibling
      · exact stays y above
      · rcases List.mem_append.mp inSibling with inSibling | last
        · by_contra goesLeft
          exact notLess (toRoot y inSibling x List.mem_cons_self (by simpa using goesLeft))
        · rw [List.mem_singleton.mp last]
          simpa using notLess

/-- A red node below a red one, whose sibling is black: one or two rotations. -/
def insertRotate (f g : Frame α) (t : ColorTree α) : ColorTree α :=
  if f.side = g.side then
    join g.side .black t f.value (join g.side .red f.sibling g.value g.sibling)
  else
    match t with
    | .nil => g.fill (f.fill .nil)
    | .node c l x r =>
        let near := if g.side = .left then l else r
        let far := if g.side = .left then r else l
        join g.side .black (join g.side c f.sibling f.value near) x
          (join g.side .red far g.value g.sibling)

theorem insertRotate_outer {f g : Frame α} (same : f.side = g.side) :
    insertRotate f g t =
      join g.side .black t f.value (join g.side .red f.sibling g.value g.sibling) :=
  if_pos same

theorem insertRotate_inner {f g : Frame α} (differ : f.side ≠ g.side) {a b : ColorTree α} {x : α} :
    insertRotate f g (join g.side c a x b) =
      join g.side .black (join g.side c f.sibling f.value a) x
        (join g.side .red b g.value g.sibling) := by
  unfold insertRotate
  rw [if_neg differ]
  obtain ⟨s, color, y, sibling⟩ := g
  cases s <;> rfl

/-- The node above a red node and its red sibling: it becomes red, and they become black. -/
def insertRecolor (f g : Frame α) (t : ColorTree α) : ColorTree α :=
  join g.side .red (join f.side .black t f.value f.sibling) g.value (g.sibling.paint .black)

/-- Repair a tree in which the subtree that is looked at has a red root. -/
def fixInsert : List (Frame α) → ColorTree α → ColorTree α
  | [], t => t
  | [f], t => f.fill t
  | f :: g :: fs, t =>
      if f.color = .black then plug (f :: g :: fs) t
      else if g.sibling.color = .red then fixInsert fs (insertRecolor f g t)
      else plug fs (insertRotate f g t)

theorem inorder_insertRecolor (f g : Frame α) (t : ColorTree α) :
    (insertRecolor f g t).inorder = (g.fill (f.fill t)).inorder := by
  obtain ⟨s, c, x, sibling⟩ := f
  obtain ⟨s', c', x', sibling'⟩ := g
  cases s <;> cases s' <;> simp [insertRecolor, Frame.fill, join, inorder]

theorem inorder_insertRotate (f g : Frame α) (t : ColorTree α) :
    (insertRotate f g t).inorder = (g.fill (f.fill t)).inorder := by
  obtain ⟨s, c, x, sibling⟩ := f
  obtain ⟨s', c', x', sibling'⟩ := g
  cases t with
  | nil => cases s <;> cases s' <;> simp [insertRotate, Frame.fill, join, inorder]
  | node c l y r => cases s <;> cases s' <;> simp [insertRotate, Frame.fill, join, inorder]

theorem inorder_fixInsert (fs : List (Frame α)) (t : ColorTree α) :
    (fixInsert fs t).inorder = before fs ++ t.inorder ++ after fs := by
  rw [← inorder_plug]
  fun_induction fixInsert fs t with
  | case1 t => rfl
  | case2 f t => rfl
  | case3 f g fs t black => rfl
  | case4 f g fs t red uncle ih =>
    rw [ih, inorder_plug, inorder_insertRecolor, plug_cons, plug_cons, inorder_plug]
  | case5 f g fs t red uncle =>
    rw [inorder_plug, inorder_insertRotate, plug_cons, plug_cons, inorder_plug]

/-- The repair of an insertion, up to the colour of the root. -/
theorem Context.fixInsert {a b : ColorTree α} {x : α} (context : Context fs n c)
    (valid : (node .red a x b).Valid n) :
    ((fixInsert fs (node .red a x b)).paint .black).IsRedBlack := by
  generalize red : node .red a x b = t at valid
  replace red : t.color = .red := red ▸ rfl
  clear a b x
  fun_induction RedBlack.fixInsert fs t generalizing n c with
  | case1 t => exact valid.isRedBlack_paint
  | case2 f t =>
    cases context with
    | black above sibling =>
      exact (valid_black_iff.mpr ⟨valid, sibling⟩).isRedBlack_paint
  | case3 f g fs t black =>
    have above : c = .black := by
      cases context with
      | red => cases black
      | black => rfl
    have whole := context.plug valid (by simp [above]) (by simp)
    rwa [paint_of_color whole.1]
  | case4 f g fs t notBlack uncle ih =>
    cases context with
    | black => exact absurd rfl notBlack
    | red above sibling blackSibling =>
      cases above with
      | black above sibling' =>
        refine ih above ?_ color_join
        refine valid_red_iff.mpr ⟨valid_black_iff.mpr ⟨valid, sibling⟩, sibling'.paint_black uncle,
          color_join, ?_⟩
        obtain ⟨a, x, b, rfl⟩ := exists_join_of_red .left uncle
        simp
  | case5 f g fs t notBlack uncle =>
    cases context with
    | black => exact absurd rfl notBlack
    | @red s x sibling _ _ _ above validSibling blackSibling =>
      cases above with
      | @black s' x' sibling' _ _ c' above validSibling' =>
        have blackUncle : sibling'.color = .black := ne_red.mp uncle
        have rotated :
            (insertRotate ⟨s, .red, x, sibling⟩ ⟨s', .black, x', sibling'⟩ t).Valid (n + 1) ∧
              (insertRotate ⟨s, .red, x, sibling⟩ ⟨s', .black, x', sibling'⟩ t).color =
                .black := by
          by_cases same : s = s'
          · rw [insertRotate_outer same]
            refine ⟨valid_black_iff.mpr ⟨valid, ?_⟩, color_join⟩
            exact valid_red_iff.mpr ⟨validSibling, validSibling', blackSibling, blackUncle⟩
          · obtain ⟨a, y, b, rfl⟩ := exists_join_of_red s' red
            obtain ⟨near, far, blackNear, blackFar⟩ := valid_red_iff.mp valid
            rw [insertRotate_inner same]
            refine ⟨valid_black_iff.mpr ⟨?_, ?_⟩, color_join⟩
            · exact valid_red_iff.mpr ⟨validSibling, near, blackSibling, blackNear⟩
            · exact valid_red_iff.mpr ⟨far, validSibling', blackFar, blackUncle⟩
        have whole := above.plug rotated.1 (fun _ => rotated.2) fun _ => rotated.2
        rwa [paint_of_color whole.1]

/-- Insert a value in front of those on which `goLeft` holds. -/
def insert (goLeft : α → Bool) (x : α) (t : ColorTree α) : ColorTree α :=
  (fixInsert (descend goLeft t []) (node .red .nil x .nil)).paint .black

theorem insert_isRedBlack (goLeft : α → Bool) (x : α) (whole : t.IsRedBlack) :
    (insert goLeft x t).IsRedBlack := by
  rw [← plug_nil t, ← plug_descend goLeft] at whole
  obtain ⟨n, c, context, valid, -, -⟩ := context_of_plug whole
  exact context.fixInsert (.red valid valid rfl rfl)

theorem inorder_insert (goLeft : α → Bool) (x : α) (t : ColorTree α) :
    (insert goLeft x t).inorder =
      before (descend goLeft t []) ++ x :: after (descend goLeft t []) := by
  rw [insert, inorder_paint, inorder_fixInsert]
  simp [inorder]

/-! ## Deletion -/

/-- The subtree on a side. -/
def ColorTree.child (s : Side) : ColorTree α → ColorTree α
  | .nil => .nil
  | .node _ l _ r => if s = .left then l else r

/-- The path to the first value of a tree. -/
def leftmost : ColorTree α → List (Frame α) → ColorTree α × List (Frame α)
  | .nil, fs => (.nil, fs)
  | .node c l x r, fs =>
      match l with
      | .nil => (.node c .nil x r, fs)
      | .node .. => leftmost l (⟨.left, c, x, r⟩ :: fs)

/-- The subtree below a frame has one black node too few, and its sibling is black.  If the sibling
has no red child, it becomes red, and the tree below and including the frame has one black node too
few.  Otherwise rotations put things right. -/
def settle (f : Frame α) (t : ColorTree α) : ColorTree α ⊕ ColorTree α :=
  match f.sibling with
  | .nil => .inr (f.fill t)
  | .node _ _ y _ =>
      let near := f.sibling.child f.side
      let far := f.sibling.child f.side.other
      if near.color = .black ∧ far.color = .black then
        .inl (join f.side f.color t f.value (f.sibling.paint .red))
      else if far.color = .black then
        match near with
        | .nil => .inr (f.fill t)
        | .node _ _ z _ =>
            .inr (join f.side f.color
              (join f.side .black t f.value (near.child f.side)) z
              (join f.side .black (near.child f.side.other) y far))
      else
        .inr (join f.side f.color (join f.side .black t f.value near) y (far.paint .black))

/-- Repair a tree in which the subtree that is looked at has one black node too few. -/
def fixDelete : List (Frame α) → ColorTree α → ColorTree α
  | [], t => t.paint .black
  | f :: fs, t =>
      if t.color = .red then plug (f :: fs) (t.paint .black)
      else if f.sibling.color = .red then
        match f.sibling with
        | .nil => plug (f :: fs) t
        | .node _ _ y _ =>
            let g : Frame α := ⟨f.side, .black, y, f.sibling.child f.side.other⟩
            match settle ⟨f.side, .red, f.value, f.sibling.child f.side⟩ t with
            | .inl t' => plug (g :: fs) (t'.paint .black)
            | .inr t' => (plug (g :: fs) t').paint .black
      else
        match settle f t with
        | .inl t' => fixDelete fs t'
        | .inr t' => (plug fs t').paint .black

/-- What is left when a node with at most one child is taken out. -/
def removeNode (color : Color) (fs : List (Frame α)) (t : ColorTree α) : ColorTree α :=
  if color = .red then plug fs t else fixDelete fs t

/-- Delete the root of the subtree that is looked at.  If it has two children, the next value takes
its place. -/
def delete (fs : List (Frame α)) : ColorTree α → ColorTree α
  | .nil => plug fs .nil
  | .node c .nil _ r => removeNode c fs r
  | .node c l _ .nil => removeNode c fs l
  | .node c l x r =>
      match leftmost r [] with
      | (.nil, _) => plug fs (.node c l x r)
      | (.node c' _ y r', gs) => removeNode c' (gs ++ ⟨.right, c, y, l⟩ :: fs) r'

/-- Delete the first value with a property that is met on the way down. -/
def deleteFirst (p : α → Bool) (t : ColorTree α) : ColorTree α :=
  match locate p t [] with
  | none => t
  | some (fs, u) => delete fs u

section Settle

variable {s : Side} {x y z : α} {a b a₁ a₂ : ColorTree α}

theorem settle_up (near : a.color = .black) (far : b.color = .black) {c' : Color} :
    settle ⟨s, c, x, join s c' a y b⟩ t = .inl (join s c t x (join s .red a y b)) := by
  cases s <;> simp [settle, join, ColorTree.child, near, far, paint]

theorem settle_inner (far : b.color = .black) {c' : Color} :
    settle ⟨s, c, x, join s c' (join s .red a₁ z a₂) y b⟩ t =
      .inr (join s c (join s .black t x a₁) z (join s .black a₂ y b)) := by
  cases s <;> simp [settle, join, ColorTree.child, far]

theorem settle_outer (far : b.color = .red) {c' : Color} :
    settle ⟨s, c, x, join s c' a y b⟩ t =
      .inr (join s c (join s .black t x a) y (b.paint .black)) := by
  cases s <;> simp [settle, join, ColorTree.child, far]

/-- The cases of `settle`. -/
theorem settle_cases (s : Side) (a b : ColorTree α) :
    (a.color = .black ∧ b.color = .black) ∨
      (b.color = .black ∧ ∃ a₁ z a₂, a = join s .red a₁ z a₂) ∨ b.color = .red := by
  by_cases far : b.color = .red
  · exact Or.inr (Or.inr far)
  · by_cases near : a.color = .red
    · exact Or.inr (Or.inl ⟨ne_red.mp far, exists_join_of_red s near⟩)
    · exact Or.inl ⟨ne_red.mp near, ne_red.mp far⟩

/-- The tree that is settled has a root. -/
theorem settle_ne_nil {f : Frame α} {t' : ColorTree α} (settled : settle f t = .inl t') :
    t' ≠ .nil := by
  obtain ⟨s, c, x, sibling⟩ := f
  rcases sibling.eq_join s with rfl | ⟨c', a, y, b, rfl⟩
  · cases settled
  rcases settle_cases s a b with ⟨near, far⟩ | ⟨far, a₁, z, a₂, rfl⟩ | far
  · rw [settle_up near far] at settled
    cases settled
    exact join_ne_nil
  · rw [settle_inner far] at settled
    cases settled
  · rw [settle_outer far] at settled
    cases settled

end Settle

theorem fixDelete_red {f : Frame α} (red : t.color = .red) :
    fixDelete (f :: fs) t = plug (f :: fs) (t.paint .black) := by
  rw [fixDelete, if_pos red]

theorem fixDelete_black {f : Frame α} (black : t.color = .black)
    (sibling : f.sibling.color = .black) :
    fixDelete (f :: fs) t =
      match settle f t with
      | .inl t' => fixDelete fs t'
      | .inr t' => (plug fs t').paint .black := by
  rw [fixDelete, if_neg (by simp [black]), if_neg (by simp [sibling])]

/-- With a red sibling, the sibling is rotated up first. -/
theorem fixDelete_redSibling {s : Side} {x y : α} {a b : ColorTree α} (black : t.color = .black) :
    fixDelete (⟨s, c, x, join s .red a y b⟩ :: fs) t =
      match settle ⟨s, .red, x, a⟩ t with
      | .inl t' => plug (⟨s, .black, y, b⟩ :: fs) (t'.paint .black)
      | .inr t' => (plug (⟨s, .black, y, b⟩ :: fs) t').paint .black := by
  rw [fixDelete, if_neg (by simp [black]), if_pos (by simp)]
  cases s <;> simp [join, ColorTree.child]

/-- The same values are there after `settle`. -/
theorem inorder_settle (f : Frame α) (t : ColorTree α) :
    (Sum.elim id id (settle f t)).inorder = (f.fill t).inorder := by
  obtain ⟨s, c, x, sibling⟩ := f
  rcases sibling.eq_join s with rfl | ⟨c', a, y, b, rfl⟩
  · rfl
  rcases settle_cases s a b with ⟨near, far⟩ | ⟨far, a₁, z, a₂, rfl⟩ | far
  · rw [settle_up near far]
    cases s <;> simp [Frame.fill, join, inorder]
  · rw [settle_inner far]
    cases s <;> simp [Frame.fill, join, inorder]
  · rw [settle_outer far]
    cases s <;> simp [Frame.fill, join, inorder]

theorem inorder_fixDelete (fs : List (Frame α)) (t : ColorTree α) :
    (fixDelete fs t).inorder = before fs ++ t.inorder ++ after fs := by
  rw [← inorder_plug]
  induction fs generalizing t with
  | nil => simp [fixDelete]
  | cons f fs ih =>
    by_cases red : t.color = .red
    · rw [fixDelete_red red, inorder_plug, inorder_paint, inorder_plug]
    have black := ne_red.mp red
    by_cases redSibling : f.sibling.color = .red
    · obtain ⟨s, c, x, sibling⟩ := f
      obtain ⟨a, y, b, rfl⟩ := exists_join_of_red s redSibling
      have rotated : (Frame.fill ⟨s, .black, y, b⟩ (Frame.fill ⟨s, .red, x, a⟩ t)).inorder =
          (Frame.fill ⟨s, c, x, join s .red a y b⟩ t).inorder := by
        cases s <;> simp [Frame.fill, join, inorder]
      have settled := inorder_settle ⟨s, .red, x, a⟩ t
      rw [fixDelete_redSibling black, plug_cons, inorder_plug, ← rotated]
      cases settledTo : settle ⟨s, .red, x, a⟩ t with
      | inl t' =>
        rw [settledTo] at settled
        simp only [plug_cons, inorder_plug]
        rw [inorder_fill_congr _ ((inorder_paint .black t').trans settled)]
      | inr t' =>
        rw [settledTo] at settled
        have same : t'.inorder = _ := settled
        simp only [inorder_paint, plug_cons, inorder_plug]
        rw [inorder_fill_congr _ same]
    · have settled := inorder_settle f t
      rw [fixDelete_black black (ne_red.mp redSibling), plug_cons, inorder_plug, ← settled]
      cases settledTo : settle f t with
      | inl t' =>
        simp only [Sum.elim_inl, id_eq]
        rw [ih, inorder_plug]
      | inr t' =>
        simp only [Sum.elim_inr, id_eq, inorder_paint]
        rw [inorder_plug]

/-- What a subtree may be that has one black node too few: balanced, or red and balanced as soon as
it is black. -/
def Short (t : ColorTree α) (n : Nat) : Prop :=
  (t.color = .red → (t.paint .black).Valid (n + 1)) ∧ (t.color = .black → t.Valid n)

theorem ColorTree.Valid.short (valid : t.Valid n) : Short t n :=
  ⟨valid.paint_black, fun _ => valid⟩

theorem color_paint_black (t : ColorTree α) : (t.paint .black).color = .black := by
  cases t <;> rfl

/-- What `settle` achieves: the tree with the frame has one black node too few as well, or none. -/
theorem settle_valid {s : Side} {x : α} {sibling : ColorTree α} (valid : t.Valid n)
    (validSibling : sibling.Valid (n + 1)) (blackSibling : sibling.color = .black) :
    match settle ⟨s, c, x, sibling⟩ t with
    | .inl t' => t'.color = c ∧ (t'.paint .black).Valid (n + 1)
    | .inr t' => t'.color = c ∧ (c = .red → t'.Valid (n + 1)) ∧
      (c = .black → t'.Valid (n + 2)) := by
  obtain ⟨a, y, b, rfl, near, far⟩ := validSibling.eq_join_of_black s blackSibling
  -- both children of the result are black and have `n + 1` black nodes on every path
  have result : ∀ {a' b' : ColorTree α} {z : α}, a'.Valid (n + 1) → b'.Valid (n + 1) →
      a'.color = .black → b'.color = .black →
      (join s c a' z b').color = c ∧ (c = .red → (join s c a' z b').Valid (n + 1)) ∧
        (c = .black → (join s c a' z b').Valid (n + 2)) := by
    intro a' b' z near' far' blackNear blackFar
    refine ⟨color_join, ?_, ?_⟩
    · rintro rfl
      exact valid_red_iff.mpr ⟨near', far', blackNear, blackFar⟩
    · rintro rfl
      exact valid_black_iff.mpr ⟨near', far'⟩
  rcases settle_cases s a b with ⟨blackNear, blackFar⟩ | ⟨blackFar, a₁, z, a₂, rfl⟩ | redFar
  · rw [settle_up blackNear blackFar]
    refine ⟨color_join, ?_⟩
    rw [paint_join]
    exact valid_black_iff.mpr ⟨valid, valid_red_iff.mpr ⟨near, far, blackNear, blackFar⟩⟩
  · rw [settle_inner blackFar]
    obtain ⟨near₁, near₂, -, -⟩ := valid_red_iff.mp near
    exact result (valid_black_iff.mpr ⟨valid, near₁⟩) (valid_black_iff.mpr ⟨near₂, far⟩) color_join
      color_join
  · rw [settle_outer redFar]
    exact result (valid_black_iff.mpr ⟨valid, near⟩) (far.paint_black redFar) color_join
      (color_paint_black b)

/-- One step of the repair, with a black sibling. -/
theorem Context.settle_black {s : Side} {color : Color} {x : α} {sibling : ColorTree α}
    (context : Context (⟨s, color, x, sibling⟩ :: fs) (n + 1) c) (valid : t.Valid n)
    (black : sibling.color = .black) :
    match settle ⟨s, color, x, sibling⟩ t with
    | .inl t' => ∃ n' c', Context fs (n' + 1) c' ∧ Short t' n'
    | .inr t' => (RedBlack.plug fs t').IsRedBlack := by
  cases context with
  | red above validSibling _ =>
    have settled := settle_valid (s := s) (c := .red) (x := x) valid validSibling black
    cases settledTo : settle ⟨s, .red, x, sibling⟩ t with
    | inl t' =>
      rw [settledTo] at settled
      exact ⟨n, .black, above, fun _ => settled.2, fun black' => by simp [settled.1] at black'⟩
    | inr t' =>
      rw [settledTo] at settled
      exact above.plug (settled.2.1 rfl) (by simp) (by simp)
  | black above validSibling =>
    have settled := settle_valid (s := s) (c := .black) (x := x) valid validSibling black
    cases settledTo : settle ⟨s, .black, x, sibling⟩ t with
    | inl t' =>
      rw [settledTo] at settled
      refine ⟨n + 1, _, above, fun red' => by simp [settled.1] at red', fun black' => ?_⟩
      have settled' := settled.2
      rwa [paint_of_color black'] at settled'
    | inr t' =>
      rw [settledTo] at settled
      exact above.plug (settled.2.2 rfl) (fun _ => settled.1) fun _ => settled.1

/-- One step of the repair, with a red sibling that has been rotated up. -/
theorem Context.settle_red {s : Side} {color : Color} {x y : α} {a b : ColorTree α}
    (context : Context (⟨s, color, x, join s .red a y b⟩ :: fs) (n + 1) c) (valid : t.Valid n) :
    (∃ a₁ z a₂, a = join s .black a₁ z a₂) ∧
      match settle ⟨s, .red, x, a⟩ t with
      | .inl t' => t'.color = .red ∧
          (RedBlack.plug (⟨s, .black, y, b⟩ :: fs) (t'.paint .black)).IsRedBlack
      | .inr t' => (RedBlack.plug (⟨s, .black, y, b⟩ :: fs) t').IsRedBlack := by
  cases context with
  | red _ _ blackSibling => simp at blackSibling
  | black above validSibling =>
    obtain ⟨near, far, blackNear, blackFar⟩ := valid_red_iff.mp validSibling
    obtain ⟨a₁, z, a₂, same, -, -⟩ := near.eq_join_of_black s blackNear
    refine ⟨⟨a₁, z, a₂, same⟩, ?_⟩
    have settled := settle_valid (s := s) (c := .red) (x := x) valid near blackNear
    have rotated : Context (⟨s, .black, y, b⟩ :: fs) (n + 1) .black := .black above far
    cases settledTo : settle ⟨s, .red, x, a⟩ t with
    | inl t' =>
      rw [settledTo] at settled
      exact ⟨settled.1, rotated.plug settled.2 (by simp) (by simp)⟩
    | inr t' =>
      rw [settledTo] at settled
      exact rotated.plug (settled.2.1 rfl) (by simp) (by simp)

/-- The repair of a deletion. -/
theorem Context.fixDelete (context : Context fs (n + 1) c) (short : Short t n) :
    (fixDelete fs t).IsRedBlack := by
  induction fs generalizing t n c with
  | nil =>
    cases color : t.color with
    | red => exact ⟨color_paint_black t, n + 1, short.1 color⟩
    | black => exact (short.2 color).isRedBlack_paint
  | cons f fs ih =>
    by_cases red : t.color = .red
    · rw [fixDelete_red red]
      exact context.plug (short.1 red) (fun _ => color_paint_black t) (by simp)
    have black := ne_red.mp red
    obtain ⟨s, color, x, sibling⟩ := f
    by_cases redSibling : sibling.color = .red
    · obtain ⟨a, y, b, rfl⟩ := exists_join_of_red s redSibling
      have settled := (context.settle_red (short.2 black)).2
      rw [fixDelete_redSibling black]
      cases settledTo : settle ⟨s, .red, x, a⟩ t with
      | inl t' =>
        rw [settledTo] at settled
        exact settled.2
      | inr t' =>
        rw [settledTo] at settled
        simpa only [paint_of_color settled.1] using settled
    · have blackSibling := ne_red.mp redSibling
      have settled := context.settle_black (short.2 black) blackSibling
      rw [fixDelete_black black blackSibling]
      cases settledTo : settle ⟨s, color, x, sibling⟩ t with
      | inl t' =>
        rw [settledTo] at settled
        obtain ⟨n', c', above, short'⟩ := settled
        exact ih above short'
      | inr t' =>
        rw [settledTo] at settled
        simpa only [paint_of_color settled.1] using settled

/-- A node with at most one child is taken out of a red-black tree. -/
theorem removeNode_isRedBlack {s : Side} {c' : Color} {x : α}
    (whole : (plug fs (join s c' t x .nil)).IsRedBlack) : (removeNode c' fs t).IsRedBlack := by
  obtain ⟨n, c, context, valid, allowed, root⟩ := context_of_plug whole
  cases c' with
  | red =>
    obtain ⟨near, -, blackNear, -⟩ := valid_red_iff.mp valid
    exact context.plug near (fun _ => blackNear) fun _ => blackNear
  | black =>
    cases n with
    | zero => exact absurd valid not_valid_black_zero
    | succ n => exact context.fixDelete (valid_black_iff.mp valid).1.short

theorem inorder_removeNode (c : Color) (fs : List (Frame α)) (t : ColorTree α) :
    (removeNode c fs t).inorder = before fs ++ t.inorder ++ after fs := by
  unfold removeNode
  split
  · exact inorder_plug fs t
  · exact inorder_fixDelete fs t

/-- The first value of a tree. -/
theorem leftmost_spec {l r : ColorTree α} {x : α} (fs : List (Frame α)) :
    ∃ c' y r' gs, leftmost (node c l x r) fs = (node c' .nil y r', gs ++ fs) ∧
      plug gs (node c' .nil y r') = node c l x r ∧ before gs = [] := by
  induction l generalizing c x r fs with
  | nil => exact ⟨c, x, r, [], rfl, rfl, rfl⟩
  | node c₁ l₁ x₁ r₁ left _ =>
    obtain ⟨c', y, r', gs, found, same, first⟩ :=
      left (c := c₁) (r := r₁) (x := x₁) (⟨.left, c, x, r⟩ :: fs)
    refine ⟨c', y, r', gs ++ [⟨.left, c, x, r⟩], ?_, ?_, ?_⟩
    · rw [leftmost, found, List.append_assoc]
      rfl
    · rw [plug_append, same]
      rfl
    · rw [before_append, first]
      rfl

/-- A node with two children is replaced by the next one. -/
theorem delete_two (fs : List (Frame α)) {l r : ColorTree α} {x : α} (some_l : l ≠ .nil)
    (some_r : r ≠ .nil) :
    ∃ c' y r' gs, delete fs (node c l x r) = removeNode c' (gs ++ ⟨.right, c, y, l⟩ :: fs) r' ∧
      leftmost r [] = (node c' .nil y r', gs) ∧ plug gs (node c' .nil y r') = r ∧
      before gs = [] := by
  cases l with
  | nil => exact absurd rfl some_l
  | node cl ll xl rl =>
    cases r with
    | nil => exact absurd rfl some_r
    | node cr lr xr rr =>
      obtain ⟨c', y, r', gs, found, same, first⟩ :=
        leftmost_spec (c := cr) (l := lr) (x := xr) (r := rr) []
      rw [List.append_nil] at found
      refine ⟨c', y, r', gs, ?_, found, same, first⟩
      rw [delete]
      · simp only [found]
      · simp
      · simp

/-- The next value may take the place of another one. -/
theorem isRedBlack_revalue {gs : List (Frame α)} {s : Side} {color : Color} {x : α}
    {sibling : ColorTree α}
    (whole : (plug (gs ++ ⟨s, color, x, sibling⟩ :: fs) t).IsRedBlack) (y : α) :
    (plug (gs ++ ⟨s, color, y, sibling⟩ :: fs) t).IsRedBlack := by
  obtain ⟨n, c, context, valid, allowed, -⟩ := context_of_plug whole
  exact (context.revalue y).plug valid allowed (by simp)

theorem delete_isRedBlack {l r : ColorTree α} {x : α}
    (whole : (plug fs (node c l x r)).IsRedBlack) :
    (delete fs (node c l x r)).IsRedBlack := by
  by_cases none_l : l = .nil
  · subst none_l
    rw [delete]
    exact removeNode_isRedBlack (s := .right) (x := x) whole
  by_cases none_r : r = .nil
  · subst none_r
    cases l with
    | nil => exact absurd rfl none_l
    | node => exact removeNode_isRedBlack (s := .left) (x := x) whole
  obtain ⟨c', y, r', gs, deleted, -, same, -⟩ := delete_two fs (c := c) (x := x) none_l none_r
  rw [deleted]
  apply removeNode_isRedBlack (s := .right) (x := y)
  have below : plug (gs ++ ⟨.right, c, x, l⟩ :: fs) (node c' .nil y r') =
      plug fs (node c l x r) := by
    rw [plug_append, same]
    rfl
  rw [← below] at whole
  exact isRedBlack_revalue whole y

theorem inorder_delete {l r : ColorTree α} {x : α} :
    (delete fs (node c l x r)).inorder = before fs ++ (l.inorder ++ r.inorder) ++ after fs := by
  by_cases none_l : l = .nil
  · subst none_l
    rw [delete, inorder_removeNode]
    rfl
  by_cases none_r : r = .nil
  · subst none_r
    cases l with
    | nil => exact absurd rfl none_l
    | node =>
      rw [delete, inorder_removeNode]
      · simp
      · simp
  obtain ⟨c', y, r', gs, deleted, -, same, first⟩ :=
    delete_two fs (c := c) (x := x) none_l none_r
  have rest : r.inorder = y :: r'.inorder ++ after gs := by
    rw [← same, inorder_plug, first]
    simp [inorder]
  rw [deleted, inorder_removeNode, before_append, after_append, first, rest]
  simp [before, after]

end Nutcracker.Lib.RedBlack
