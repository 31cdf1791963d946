import Mathlib.Data.List.Basic

/-!
# Gathered writes

A chain of buffers is written in one call: its non-empty buffers are collected into
at most `slots` pieces of at most `limit` elements in all, the writer accepts some
number of the elements it was offered, and a second walk over the chain removes that
many elements from its front.
-/

namespace Nutcracker.Lib

variable {α : Type*}

section Collect

variable (slots limit : Nat)

/-- The pieces collected from a chain when `used` pieces of `size` elements are there already.
Empty buffers take no slot, and the last piece is cut at the limit. -/
def gather : Nat → Nat → List (List α) → List (List α)
  | _, _, [] => []
  | used, size, buf :: bufs =>
    if used < slots ∧ size < limit then
      if buf.isEmpty then gather used size bufs
      else
        buf.take (limit - size) ::
          gather (used + 1) (size + (buf.take (limit - size)).length) bufs
    else []

variable {slots limit}

theorem gather_cons_nil {used size : Nat} (room : used < slots ∧ size < limit)
    (bufs : List (List α)) :
    gather slots limit used size ([] :: bufs) = gather slots limit used size bufs := by
  simp [gather, room]

theorem gather_cons {used size : Nat} (room : used < slots ∧ size < limit) {buf : List α}
    (nonempty : buf ≠ []) (bufs : List (List α)) :
    gather slots limit used size (buf :: bufs) =
      buf.take (limit - size) ::
        gather slots limit (used + 1) (size + (buf.take (limit - size)).length) bufs := by
  simp [gather, room, nonempty]

theorem gather_full {used size : Nat} (full : ¬(used < slots ∧ size < limit))
    (bufs : List (List α)) : gather slots limit used size bufs = [] := by
  cases bufs with
  | nil => rfl
  | cons buf bufs => rw [gather, if_neg full]

/-- What is offered comes from the front of the chain, without a gap. -/
theorem flatten_gather_prefix (used size : Nat) (bufs : List (List α)) :
    (gather slots limit used size bufs).flatten <+: bufs.flatten := by
  induction bufs generalizing used size with
  | nil => exact List.nil_prefix
  | cons buf bufs ih =>
    by_cases room : used < slots ∧ size < limit
    · by_cases empty : buf = []
      · rw [empty, gather_cons_nil room]
        exact ih used size
      · rw [gather_cons room empty, List.flatten_cons, List.flatten_cons]
        by_cases cut : limit - size < buf.length
        · -- The piece fills the limit, so nothing follows it.
          have filled : ¬(used + 1 < slots ∧
              size + (buf.take (limit - size)).length < limit) := by
            rw [List.length_take]
            omega
          rw [gather_full filled, List.flatten_nil, List.append_nil]
          exact (List.take_prefix _ _).trans (List.prefix_append _ _)
        · rw [List.take_of_length_le (by omega)]
          exact (List.prefix_append_right_inj buf).mpr (ih _ _)
    · rw [gather_full room]
      exact List.nil_prefix

/-- A chain that leaves room has been collected to its end. -/
theorem flatten_gather_of_room {used size : Nat} {bufs : List (List α)}
    (room : used + (gather slots limit used size bufs).length < slots ∧
      size + (gather slots limit used size bufs).flatten.length < limit) :
    (gather slots limit used size bufs).flatten = bufs.flatten := by
  induction bufs generalizing used size with
  | nil => rfl
  | cons buf bufs ih =>
    have free : used < slots ∧ size < limit := by omega
    by_cases empty : buf = []
    · rw [empty, gather_cons_nil free] at room ⊢
      exact ih room
    · rw [gather_cons free empty] at room ⊢
      simp only [List.length_cons, List.flatten_cons, List.length_append] at room
      have whole : buf.take (limit - size) = buf := by
        apply List.take_of_length_le
        have := room.2
        rw [List.length_take] at this
        omega
      rw [whole] at room ⊢
      rw [List.flatten_cons, List.flatten_cons, ih ⟨by omega, by omega⟩]

end Collect

/-! ## Removing what was accepted -/

/-- Remove `n` elements from the front of a chain: the chain afterwards, the number of elements
still to remove, and whether the walk reached the end of the chain. -/
def consume : Nat → List (List α) → List (List α) × Nat × Bool
  | n, [] => ([], n, true)
  | n, buf :: bufs =>
    if buf.isEmpty then
      let rest := consume n bufs
      (buf :: rest.1, rest.2)
    else if n < buf.length then (buf.drop n :: bufs, 0, false)
    else
      let rest := consume (n - buf.length) bufs
      ([] :: rest.1, rest.2)

theorem consume_cons_nil (n : Nat) (bufs : List (List α)) :
    consume n ([] :: bufs) = ([] :: (consume n bufs).1, (consume n bufs).2) :=
  rfl

theorem consume_cons_short {n : Nat} {buf : List α} (short : n < buf.length)
    (bufs : List (List α)) : consume n (buf :: bufs) = (buf.drop n :: bufs, 0, false) := by
  have nonempty : buf ≠ [] := by
    rintro rfl
    simp at short
  simp [consume, short, nonempty]

theorem consume_cons_long {n : Nat} {buf : List α} (nonempty : buf ≠ [])
    (long : buf.length ≤ n) (bufs : List (List α)) :
    consume n (buf :: bufs) =
      ([] :: (consume (n - buf.length) bufs).1, (consume (n - buf.length) bufs).2) := by
  simp [consume, nonempty, Nat.not_lt.mpr long]

/-- A walk that stops inside the chain leaves exactly what was not removed. -/
theorem consume_short {n : Nat} {bufs : List (List α)} (short : n < bufs.flatten.length) :
    (consume n bufs).1.flatten = bufs.flatten.drop n ∧ (consume n bufs).2 = (0, false) := by
  induction bufs generalizing n with
  | nil => simp at short
  | cons buf bufs ih =>
    rw [List.flatten_cons, List.length_append] at short
    by_cases empty : buf = []
    · subst empty
      simpa [consume_cons_nil] using ih (by simpa using short)
    · by_cases inside : n < buf.length
      · rw [consume_cons_short inside]
        simp [List.drop_append_of_le_length (Nat.le_of_lt inside)]
      · have rest := @ih (n - buf.length) (by omega)
        rw [consume_cons_long empty (by omega)]
        have passed : buf.drop n = [] := List.drop_eq_nil_of_le (by omega)
        refine ⟨?_, rest.2⟩
        rw [List.flatten_cons, List.flatten_cons, List.nil_append, rest.1, List.drop_append,
          passed, List.nil_append]

/-- A walk past the end empties the chain and passes the remaining count on. -/
theorem consume_long {n : Nat} {bufs : List (List α)} (long : bufs.flatten.length ≤ n) :
    (consume n bufs).1.flatten = [] ∧
      (consume n bufs).2 = (n - bufs.flatten.length, true) := by
  induction bufs generalizing n with
  | nil => simp [consume]
  | cons buf bufs ih =>
    rw [List.flatten_cons, List.length_append] at long
    by_cases empty : buf = []
    · subst empty
      simpa [consume_cons_nil] using ih (by simpa using long)
    · have rest := @ih (n - buf.length) (by omega)
      rw [consume_cons_long empty (by omega)]
      refine ⟨by simpa using rest.1, ?_⟩
      rw [rest.2, List.flatten_cons, List.length_append, Nat.sub_add_eq]

end Nutcracker.Lib
