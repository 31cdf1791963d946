import Mathlib.Algebra.Order.Ring.Nat
import Mathlib.Data.List.Basic

/-!
# Cutting a chain of pages

A number of symbols is taken from the front of a chain of pages.  Pages that hold no more
than what is still to be taken are taken whole; the first one that holds more is cut.
Stretches that lie in one page behind the cut still do so in what is left.
-/

namespace Nutcracker.Lib

variable {α β : Type*}

/-! ## Whole pages -/

section Whole

variable (size : β → Nat)

/-- The pages that are taken whole when `n` symbols are wanted, the number of symbols that are
then still wanted, and the pages that are left. -/
def takeWhole : Nat → List β → List β × Nat × List β
  | n, [] => ([], n, [])
  | n, b :: bs =>
    if size b ≤ n then (b :: (takeWhole (n - size b) bs).1, (takeWhole (n - size b) bs).2)
    else ([], n, b :: bs)

variable {size} {n : Nat} {b : β} {bs : List β}

theorem takeWhole_cons_le (fits : size b ≤ n) :
    takeWhole size n (b :: bs) =
      (b :: (takeWhole size (n - size b) bs).1, (takeWhole size (n - size b) bs).2) := by
  rw [takeWhole, if_pos fits]

theorem takeWhole_cons_lt (longer : n < size b) :
    takeWhole size n (b :: bs) = ([], n, b :: bs) := by
  rw [takeWhole, if_neg (Nat.not_le.mpr longer)]

theorem takeWhole_append (size : β → Nat) (n : Nat) (bs : List β) :
    (takeWhole size n bs).1 ++ (takeWhole size n bs).2.2 = bs := by
  induction bs generalizing n with
  | nil => rfl
  | cons b bs ih =>
    by_cases fits : size b ≤ n
    · rw [takeWhole_cons_le fits, List.cons_append, ih]
    · rw [takeWhole_cons_lt (Nat.lt_of_not_le fits), List.nil_append]

theorem takeWhole_sum (size : β → Nat) (n : Nat) (bs : List β) :
    ((takeWhole size n bs).1.map size).sum + (takeWhole size n bs).2.1 = n := by
  induction bs generalizing n with
  | nil => simp [takeWhole]
  | cons b bs ih =>
    by_cases fits : size b ≤ n
    · have rest := ih (n - size b)
      simp only [takeWhole_cons_le fits, List.map_cons, List.sum_cons]
      omega
    · rw [takeWhole_cons_lt (Nat.lt_of_not_le fits)]
      simp

/-- The page that is cut holds more than what is taken from it. -/
theorem takeWhole_lt {n : Nat} {bs : List β} {rest : List β}
    (left : (takeWhole size n bs).2.2 = b :: rest) : (takeWhole size n bs).2.1 < size b := by
  induction bs generalizing n with
  | nil => cases left
  | cons page bs ih =>
    by_cases fits : size page ≤ n
    · rw [takeWhole_cons_le fits] at left ⊢
      exact ih left
    · rw [takeWhole_cons_lt (Nat.lt_of_not_le fits)] at left ⊢
      cases left
      exact Nat.lt_of_not_le fits

end Whole

/-! ## Symbols -/

section Symbols

variable (data : β → List α)

theorem sum_length_map (bs : List β) :
    (bs.map fun b => (data b).length).sum = (bs.flatMap data).length := by
  rw [List.length_flatMap]

/-- What is taken whole, and what is cut off, are the symbols at the front. -/
theorem takeWhole_take (n : Nat) (bs : List β) :
    (takeWhole (fun b => (data b).length) n bs).1.flatMap data ++
        ((takeWhole (fun b => (data b).length) n bs).2.2.flatMap data).take
          (takeWhole (fun b => (data b).length) n bs).2.1 =
      (bs.flatMap data).take n := by
  have whole := takeWhole_append (fun b => (data b).length) n bs
  have count := takeWhole_sum (fun b => (data b).length) n bs
  rw [sum_length_map] at count
  generalize takeWhole (fun b => (data b).length) n bs = cut at whole count
  rw [← whole, List.flatMap_append, ← count, List.take_length_add_append]

theorem takeWhole_drop (n : Nat) (bs : List β) :
    ((takeWhole (fun b => (data b).length) n bs).2.2.flatMap data).drop
        (takeWhole (fun b => (data b).length) n bs).2.1 = (bs.flatMap data).drop n := by
  have whole := takeWhole_append (fun b => (data b).length) n bs
  have count := takeWhole_sum (fun b => (data b).length) n bs
  rw [sum_length_map] at count
  generalize takeWhole (fun b => (data b).length) n bs = cut at whole count
  rw [← whole, List.flatMap_append, ← count, List.drop_length_add_append]

end Symbols

/-! ## Stretches in one page -/

/-- Behind `pre` the chain continues with `text`, which lies in one page. -/
def InOnePage (pages : List (List α)) (pre text : List α) : Prop :=
  ∃ front x y back, pages = front ++ (x ++ text ++ y) :: back ∧ front.flatten ++ x = pre

/-- The pages of a chain after `n` symbols. -/
def chop (n : Nat) (pages : List (List α)) : List (List α) :=
  match (takeWhole List.length n pages).2.2 with
  | [] => []
  | page :: rest => page.drop (takeWhole List.length n pages).2.1 :: rest

theorem chop_cons_le {n : Nat} {page : List α} {pages : List (List α)} (fits : page.length ≤ n) :
    chop n (page :: pages) = chop (n - page.length) pages := by
  unfold chop
  rw [takeWhole_cons_le fits]

theorem chop_cons_lt {n : Nat} {page : List α} {pages : List (List α)} (longer : n < page.length) :
    chop n (page :: pages) = page.drop n :: pages := by
  unfold chop
  rw [takeWhole_cons_lt longer]

/-- What lies in one page behind the cut does so afterwards. -/
theorem InOnePage.chop {pages : List (List α)} {cut pre text : List α} (nonempty : text ≠ [])
    (inside : InOnePage pages (cut ++ pre) text) : InOnePage (chop cut.length pages) pre text := by
  obtain ⟨front, x, y, back, rfl, before⟩ := inside
  induction front generalizing cut with
  | nil =>
    rw [List.flatten_nil, List.nil_append] at before
    have positive := List.length_pos_iff.mpr nonempty
    have longer : cut.length < (x ++ text ++ y).length := by
      rw [before]
      simp only [List.length_append]
      omega
    rw [List.nil_append, chop_cons_lt longer]
    refine ⟨[], pre, y, back, ?_, by rw [List.flatten_nil, List.nil_append]⟩
    rw [before, List.nil_append]
    simp only [List.append_assoc]
    rw [List.drop_left]
  | cons page front ih =>
    rw [List.flatten_cons, List.append_assoc] at before
    by_cases fits : page.length ≤ cut.length
    · obtain ⟨cut', rfl⟩ : page <+: cut :=
        List.prefix_of_prefix_length_le ⟨front.flatten ++ x, before⟩ (List.prefix_append cut pre)
          fits
      rw [List.append_assoc, List.append_cancel_left_eq] at before
      rw [List.cons_append, chop_cons_le fits, List.length_append, Nat.add_sub_cancel_left]
      exact ih before
    · rw [List.cons_append, chop_cons_lt (Nat.lt_of_not_le fits)]
      refine ⟨page.drop cut.length :: front, x, y, back, rfl, ?_⟩
      have dropped := congrArg (List.drop cut.length) before
      rw [List.drop_left, List.drop_append_of_le_length (Nat.le_of_not_le fits)] at dropped
      rw [List.flatten_cons, List.append_assoc, dropped]

/-- A stretch at the very beginning lies in the first page that is not empty. -/
theorem InOnePage.head {page : List α} {pages : List (List α)} {text : List α}
    (nonempty : page ≠ []) (inside : InOnePage (page :: pages) [] text) : text <+: page := by
  obtain ⟨front, x, y, back, chain, before⟩ := inside
  obtain ⟨empty, rfl⟩ := List.append_eq_nil_iff.mp before
  cases front with
  | nil =>
    rw [List.nil_append, List.nil_append, List.cons.injEq] at chain
    rw [chain.1]
    exact List.prefix_append text y
  | cons first front =>
    rw [List.cons_append, List.cons.injEq] at chain
    rw [List.flatten_cons, List.append_eq_nil_iff] at empty
    exact absurd (chain.1.trans empty.1) nonempty

/-- Empty pages at the front make no difference. -/
theorem InOnePage.of_cons_nil {pages : List (List α)} {pre text : List α} (nonempty : text ≠ [])
    (inside : InOnePage ([] :: pages) pre text) : InOnePage pages pre text := by
  obtain ⟨front, x, y, back, chain, before⟩ := inside
  cases front with
  | nil =>
    rw [List.nil_append, List.cons.injEq] at chain
    have empty := chain.1.symm
    rw [List.append_eq_nil_iff, List.append_eq_nil_iff] at empty
    exact absurd empty.1.2 nonempty
  | cons first front =>
    rw [List.cons_append, List.cons.injEq] at chain
    obtain ⟨rfl, rfl⟩ := chain
    exact ⟨front, x, y, back, rfl, before⟩

end Nutcracker.Lib
