import Nutcracker.Lib.Cursor
import Nutcracker.Lib.Text

/-!
# What a scanner loads

A computation over the memory behind a pointer, with the offsets that it loads.  The memory goes
on behind the end of the buffer; a scanner is safe if it loads nothing there, or if what it loads
makes no difference.  On a machine with little-endian words, texts may be compared a word at a
time: the bytes of the last word that do not belong to the text are loaded and masked out.
-/

namespace Nutcracker.Lib

/-- A computation over a memory: its result, and the offsets it loads. -/
def Loads (α β : Type) : Type :=
  (Nat → α) → β × List Nat

namespace Loads

variable {α β γ : Type}

instance : Monad (Loads α) where
  pure x _ := (x, [])
  bind c f mem := ((f (c mem).1 mem).1, (c mem).2 ++ (f (c mem).1 mem).2)

/-- Load one symbol. -/
def load (k : Nat) : Loads α α :=
  fun mem => (mem k, [k])

/-- The computation has the given result and loads only offsets that satisfy `inside`. -/
structure Gives (c : Loads α β) (mem : Nat → α) (inside : Nat → Prop) (value : β) : Prop where
  result : (c mem).1 = value
  loads : ∀ k ∈ (c mem).2, inside k

namespace Gives

variable {mem : Nat → α} {inside : Nat → Prop} {c : Loads α β} {x : β}

theorem pure (x : β) : Gives (Pure.pure x : Loads α β) mem inside x :=
  ⟨rfl, by simp [Pure.pure]⟩

theorem bind {f : β → Loads α γ} {y : γ} (first : Gives c mem inside x)
    (second : Gives (f x) mem inside y) : Gives (c >>= f) mem inside y := by
  obtain ⟨rfl, within⟩ := first
  obtain ⟨rfl, within'⟩ := second
  refine ⟨rfl, ?_⟩
  intro k member
  rcases List.mem_append.mp member with before | after
  · exact within k before
  · exact within' k after

theorem load {k : Nat} (here : inside k) : Gives (Loads.load k) mem inside (mem k) := by
  refine ⟨rfl, ?_⟩
  intro k' member
  rwa [List.mem_singleton.mp member]

theorem ite {condition : Prop} [Decidable condition] {d : Loads α β} {y : β}
    (yes : condition → Gives c mem inside x) (no : ¬ condition → Gives d mem inside y) :
    Gives (if condition then c else d) mem inside (if condition then x else y) := by
  split
  · exact yes ‹_›
  · exact no ‹_›

theorem mono {inside' : Nat → Prop} (gives : Gives c mem inside x)
    (wider : ∀ k, inside k → inside' k) : Gives c mem inside' x :=
  ⟨gives.result, fun k member => wider k (gives.loads k member)⟩

end Gives

/-! ## Loops -/

variable {ρ : Type}

/-- A loop over a buffer, with the number of its iterations. -/
def loop (step : ρ → Nat → Loads α (Flow ρ)) (last : Nat) :
    Nat → ρ → Nat → Loads α (Flow ρ × Nat)
  | 0, r, p => pure (.next p r, 0)
  | fuel + 1, r, p =>
      if p < last then do
        match ← step r p with
        | .next q s => do
            let rest ← loop step last fuel s q
            pure (rest.1, rest.2 + 1)
        | .stop q s => pure (.stop q s, 1)
        | .fail => pure (.fail, 1)
      else pure (.next p r, 0)

section Loop

variable {step : ρ → Nat → Flow ρ} {last top : Nat} {Good : ρ → Nat → Prop}
  {rank : ρ → Nat → Nat} {during : ρ → Nat → Prop} {traced : ρ → Nat → Loads α (Flow ρ)}
  {mem : Nat → α} {inside : Nat → Prop}

/-- The most iterations that a loop can still make: at every symbol ahead it may stay as often as
the rank allows. -/
def budget (top last rank p : Nat) : Nat :=
  if p < last then (top + 1) * (last - p - 1) + rank + 1 else 0

theorem budget_le {top rank : Nat} (last p : Nat) (bounded : rank ≤ top) :
    budget top last rank p ≤ (top + 1) * (last - p) := by
  unfold budget
  split
  · obtain ⟨n, ahead⟩ : ∃ n, last - p = n + 1 := ⟨last - p - 1, by omega⟩
    rw [ahead, Nat.add_sub_cancel, Nat.mul_succ]
    omega
  · exact Nat.zero_le _

/-- An iteration that goes on spends some of the budget. -/
theorem budget_lt (productive : Productive step last Good rank top) {r s : ρ} {p q : Nat}
    (good : Good r p) (here : p < last) (stepEq : step r p = .next q s) :
    budget top last (rank s q) q < budget top last (rank r p) p := by
  obtain ⟨-, -, forward | ⟨rfl, lower⟩⟩ := productive.advances good here stepEq
  · have ahead := budget_le last q (productive.rank_le s q)
    have fewer : (top + 1) * (last - q) ≤ (top + 1) * (last - p - 1) :=
      Nat.mul_le_mul_left _ (by omega)
    rw [budget.eq_def top last (rank r p), if_pos here]
    omega
  · rw [budget, budget, if_pos here, if_pos here]
    omega

/-- A loop that makes progress ends within its budget, whatever fuel it is given beyond that. -/
theorem loop_gives (productive : Productive step last Good rank top)
    (gives : ∀ r p, Good r p → during r p → p < last → (traced r p).Gives mem inside (step r p))
    (keep : ∀ r p, Good r p → p < last → during r p → (step r p).Ends during fun _ _ => True)
    {r : ρ} {p : Nat} {out : Flow ρ} (good : Good r p) (start : during r p)
    (run : Runs step last r p out) :
    ∃ n ≤ budget top last (rank r p) p, ∀ fuel, n < fuel →
      (loop traced last fuel r p).Gives mem inside (out, n) := by
  have once : ∀ {r p}, p < last → 1 ≤ budget top last (rank r p) p := by
    intro r p here
    rw [budget, if_pos here]
    exact Nat.le_add_left _ _
  induction run with
  | @exit r p atEnd =>
    refine ⟨0, Nat.zero_le _, fun fuel more => ?_⟩
    obtain ⟨fuel, rfl⟩ := Nat.exists_eq_succ_of_ne_zero more.ne'
    rw [loop, if_neg atEnd.not_gt]
    exact .pure _
  | @more r p q s out here stepEq _ ih =>
    have kept := keep r p good here start
    rw [stepEq] at kept
    obtain ⟨n, short, all⟩ := ih (productive.advances good here stepEq).1 kept
    refine ⟨n + 1, short.trans_lt (budget_lt productive good here stepEq), fun fuel more => ?_⟩
    obtain ⟨fuel, rfl⟩ := Nat.exists_eq_succ_of_ne_zero (Nat.ne_of_gt (Nat.zero_lt_of_lt more))
    rw [loop, if_pos here]
    refine .bind (gives r p good start here) ?_
    rw [stepEq]
    exact .bind (all fuel (by omega)) (.pure _)
  | @stop r p q s here stepEq =>
    refine ⟨1, once here, fun fuel more => ?_⟩
    obtain ⟨fuel, rfl⟩ := Nat.exists_eq_succ_of_ne_zero (Nat.ne_of_gt (Nat.zero_lt_of_lt more))
    rw [loop, if_pos here]
    refine .bind (gives r p good start here) ?_
    rw [stepEq]
    exact .pure _
  | @fail r p here stepEq =>
    refine ⟨1, once here, fun fuel more => ?_⟩
    obtain ⟨fuel, rfl⟩ := Nat.exists_eq_succ_of_ne_zero (Nat.ne_of_gt (Nat.zero_lt_of_lt more))
    rw [loop, if_pos here]
    refine .bind (gives r p good start here) ?_
    rw [stepEq]
    exact .pure _

end Loop

/-! ## Passing over counted symbols -/

/-- `passOver` with its loads. -/
def passOver [DecidableEq α] (mark : α) (len : ρ → Nat) (shorten : Nat → ρ → ρ) (finish : ρ → ρ)
    (last : Nat) (r : ρ) (p : Nat) : Loads α (Flow ρ) :=
  let m := p + len r
  if last ≤ m then pure (.next last (shorten (last - p) r))
  else do
    let ch ← load m
    if ch = mark then pure (.next (m + 1) (finish r)) else pure .fail

/-- The memory starts with a buffer. -/
def Holds (mem : Nat → α) (b : List α) : Prop :=
  ∀ k, (h : k < b.length) → mem k = b[k]

theorem Holds.eq_getD {mem : Nat → α} {b : List α} (holds : Holds mem b) {k : Nat}
    (here : k < b.length) (zero : α) : mem k = b.getD k zero := by
  rw [holds k here, List.getD_eq_getElem _ _ here]

theorem passOver_gives [DecidableEq α] {zero mark : α} {len : ρ → Nat} {shorten : Nat → ρ → ρ}
    {finish : ρ → ρ} {mem : Nat → α} {b : List α} (holds : Holds mem b) (r : ρ) (p : Nat) :
    (passOver mark len shorten finish b.length r p).Gives mem (· < b.length)
      (Lib.passOver zero mark len shorten finish b r p) := by
  refine .ite (fun _ => .pure _) fun short => ?_
  rw [← holds.eq_getD (Nat.lt_of_not_le short)]
  refine .bind (.load (Nat.lt_of_not_le short)) ?_
  exact .ite (fun _ => .pure _) fun _ => .pure _

end Loads

/-! ## Comparing texts -/

open Loads

/-- `stricmp` with its loads. -/
def stricmpLoads : Nat → List Char → Loads UInt8 Bool
  | _, [] => pure true
  | m, c :: cs => do
      let b ← load m
      if b == byteOf c || b == byteOf c ^^^ 0x20 then stricmpLoads (m + 1) cs else pure false

/-- `strcmp`, one byte at a time. -/
def strcmpBytes : Nat → List Char → Loads UInt8 Bool
  | _, [] => pure true
  | m, c :: cs => do
      let b ← load m
      if b == byteOf c then strcmpBytes (m + 1) cs else pure false

/-- The four bytes of a word. -/
def loadWord (m : Nat) : Loads UInt8 (List UInt8) := do
  let b₀ ← load m
  let b₁ ← load (m + 1)
  let b₂ ← load (m + 2)
  let b₃ ← load (m + 3)
  pure [b₀, b₁, b₂, b₃]

/-- `strcmp`, one word at a time.  Two or three letters that are left are compared with a word of
which half is masked out, and a byte. -/
def strcmpWords : Nat → List Char → Loads UInt8 Bool
  | m, c₀ :: c₁ :: c₂ :: c₃ :: cs => do
      let w ← loadWord m
      if strcmp w [c₀, c₁, c₂, c₃] then strcmpWords (m + 4) cs else pure false
  | m, [c₀, c₁, c₂] => do
      let w ← loadWord m
      if strcmp w [c₀, c₁] then do
        let b ← load (m + 2)
        pure (b == byteOf c₂)
      else pure false
  | m, [c₀, c₁] => do
      let w ← loadWord m
      pure (strcmp w [c₀, c₁])
  | m, [c₀] => do
      let b ← load m
      pure (b == byteOf c₀)
  | _, [] => pure true

/-- The number of bytes that `strcmpWords` may load for a text. -/
def wordSpan (n : Nat) : Nat :=
  if n % 4 ≤ 1 then n else n + (4 - n % 4)

/-- `lookupWith` with its loads. -/
def lookupLoads {β : Type} (cmp : Nat → List Char → Loads UInt8 Bool) (m : Nat) :
    List (List Char × β) → Loads UInt8 (Option β)
  | [] => pure none
  | (name, value) :: table => do
      if ← cmp m name then pure (some value) else lookupLoads cmp m table

section Texts

variable {mem : Nat → UInt8} {b : List UInt8}

theorem stricmp_drop {m : Nat} (c : Char) (cs : List Char) (here : m < b.length) :
    stricmp (b.drop m) (c :: cs) =
      ((b[m] == byteOf c || b[m] == byteOf c ^^^ 0x20) && stricmp (b.drop (m + 1)) cs) := by
  rw [List.drop_eq_getElem_cons here, stricmp]

theorem strcmp_drop {m : Nat} (c : Char) (cs : List Char) (here : m < b.length) :
    strcmp (b.drop m) (c :: cs) = (b[m] == byteOf c && strcmp (b.drop (m + 1)) cs) := by
  rw [List.drop_eq_getElem_cons here, strcmp]

theorem and_eq_ite (x y : Bool) : (x && y) = if x = true then y else false := by
  cases x <;> rfl

theorem stricmpLoads_gives (holds : Holds mem b) {name : List Char} {m : Nat}
    (fits : m + name.length ≤ b.length) :
    (stricmpLoads m name).Gives mem (· < b.length) (stricmp (b.drop m) name) := by
  induction name generalizing m with
  | nil => exact stricmp.eq_1 _ ▸ .pure true
  | cons c cs ih =>
    rw [List.length_cons] at fits
    have here : m < b.length := by omega
    rw [stricmp_drop c cs here, ← holds m here, and_eq_ite]
    exact .bind (.load here) (.ite (fun _ => ih (by omega)) fun _ => .pure _)

theorem strcmpBytes_gives (holds : Holds mem b) {name : List Char} {m : Nat}
    (fits : m + name.length ≤ b.length) :
    (strcmpBytes m name).Gives mem (· < b.length) (strcmp (b.drop m) name) := by
  induction name generalizing m with
  | nil => exact strcmp.eq_1 _ ▸ .pure true
  | cons c cs ih =>
    rw [List.length_cons] at fits
    have here : m < b.length := by omega
    rw [strcmp_drop c cs here, ← holds m here, and_eq_ite]
    exact .bind (.load here) (.ite (fun _ => ih (by omega)) fun _ => .pure _)

theorem loadWord_gives {m n : Nat} (short : m + 4 ≤ n) :
    (loadWord m).Gives mem (· < n) [mem m, mem (m + 1), mem (m + 2), mem (m + 3)] := by
  refine .bind (.load (by omega)) (.bind (.load (by omega)) (.bind (.load (by omega)) ?_))
  exact .bind (.load (by omega)) (.pure _)

theorem wordSpan_add_four (n : Nat) : wordSpan (n + 4) = wordSpan n + 4 := by
  unfold wordSpan
  rw [Nat.add_mod_right]
  split <;> omega

theorem wordSpan_le (n : Nat) : wordSpan n ≤ n + 2 := by
  unfold wordSpan
  split <;> omega

/-- The first letters of a text are compared with the bytes that are there. -/
theorem Loads.Holds.strcmp_two (holds : Holds mem b) {m : Nat} (c₀ c₁ : Char) (cs : List Char)
    (fits : m + 2 ≤ b.length) :
    strcmp (b.drop m) (c₀ :: c₁ :: cs) =
      (mem m == byteOf c₀ && (mem (m + 1) == byteOf c₁ && strcmp (b.drop (m + 2)) cs)) := by
  rw [strcmp_drop c₀ _ (by omega), strcmp_drop c₁ _ (by omega), ← holds m (by omega),
    ← holds (m + 1) (by omega)]

/-- A text that is compared by words compares as it does by bytes: bytes behind the buffer may be
loaded, but make no difference. -/
theorem strcmpWords_gives (holds : Holds mem b) {name : List Char} {m : Nat}
    (fits : m + name.length ≤ b.length) :
    (strcmpWords m name).Gives mem (· < m + wordSpan name.length) (strcmp (b.drop m) name) := by
  fun_induction strcmpWords m name with
  | case1 m c₀ c₁ c₂ c₃ cs ih =>
    simp only [List.length_cons, wordSpan_add_four] at fits ⊢
    refine .bind (loadWord_gives (by omega)) ?_
    have value : strcmp (b.drop m) (c₀ :: c₁ :: c₂ :: c₃ :: cs) =
        if strcmp [mem m, mem (m + 1), mem (m + 2), mem (m + 3)] [c₀, c₁, c₂, c₃] = true then
          strcmp (b.drop (m + 4)) cs
        else false := by
      rw [holds.strcmp_two c₀ c₁ _ (by omega), holds.strcmp_two c₂ c₃ _ (by omega),
        ← and_eq_ite]
      simp only [strcmp, Bool.and_true, Bool.and_assoc]
    rw [value]
    exact .ite (fun _ => (ih (by omega)).mono fun k here => by omega) fun _ => .pure _
  | case2 m c₀ c₁ c₂ =>
    simp only [List.length_cons, List.length_nil] at fits ⊢
    refine .bind (loadWord_gives (Nat.le_refl _)) ?_
    have value : strcmp (b.drop m) [c₀, c₁, c₂] =
        if strcmp [mem m, mem (m + 1), mem (m + 2), mem (m + 3)] [c₀, c₁] = true then
          mem (m + 2) == byteOf c₂
        else false := by
      rw [holds.strcmp_two c₀ c₁ _ (by omega), strcmp_drop c₂ _ (by omega),
        ← holds (m + 2) (by omega), ← and_eq_ite]
      simp only [strcmp, Bool.and_true, Bool.and_assoc]
    rw [value]
    refine .ite (fun _ => .bind (.load ?_) (.pure _)) fun _ => .pure _
    exact Nat.add_lt_add_left (by decide) m
  | case3 m c₀ c₁ =>
    simp only [List.length_cons, List.length_nil] at fits ⊢
    refine .bind (loadWord_gives (Nat.le_refl _)) ?_
    have value : strcmp (b.drop m) [c₀, c₁] =
        strcmp [mem m, mem (m + 1), mem (m + 2), mem (m + 3)] [c₀, c₁] := by
      rw [holds.strcmp_two c₀ c₁ _ (by omega)]
      simp only [strcmp]
    rw [value]
    exact .pure _
  | case4 m c₀ =>
    simp only [List.length_cons, List.length_nil] at fits ⊢
    have value : strcmp (b.drop m) [c₀] = (mem m == byteOf c₀) := by
      rw [strcmp_drop c₀ _ (by omega), ← holds m (by omega), strcmp, Bool.and_true]
    rw [value]
    exact .bind (.load (Nat.lt_succ_self m)) (.pure _)
  | case5 m =>
    rw [strcmp]
    exact .pure true

theorem lookupLoads_gives {β : Type} {inside : Nat → Prop}
    {cmp : Nat → List Char → Loads UInt8 Bool} {cmp' : List UInt8 → List Char → Bool} {m : Nat}
    {table : List (List Char × β)}
    (gives : ∀ entry ∈ table, (cmp m entry.1).Gives mem inside (cmp' (b.drop m) entry.1)) :
    (lookupLoads cmp m table).Gives mem inside (lookupWith cmp' table (b.drop m)) := by
  induction table with
  | nil => exact .pure none
  | cons entry table ih =>
    have first := gives entry List.mem_cons_self
    have rest := ih fun entry' member => gives entry' (List.mem_cons_of_mem _ member)
    have split : lookupWith cmp' (entry :: table) (b.drop m) =
        if cmp' (b.drop m) entry.1 = true then some entry.2
        else lookupWith cmp' table (b.drop m) := by
      unfold lookupWith
      rw [List.find?_cons]
      cases cmp' (b.drop m) entry.1 <;> rfl
    rw [split]
    exact .bind first (.ite (fun _ => .pure _) fun _ => rest)

end Texts

end Nutcracker.Lib
