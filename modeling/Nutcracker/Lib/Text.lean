import Nutcracker.Lib.Decimal
import Mathlib.Data.List.GetD
import Mathlib.Data.List.Induction

/-!
# Comparing bytes with short texts

Scanners written in C recognise a keyword by comparing the bytes at a pointer with
its letters one by one, and a table of keywords by trying each of them in turn.
Such a comparison looks at no more bytes than the keyword has letters.  A line of
words is read by splitting it at its separators.
-/

namespace Nutcracker.Lib

/-- The bytes at `m` start with the given text. -/
def strcmp : List UInt8 → List Char → Bool
  | _, [] => true
  | [], _ :: _ => false
  | b :: m, c :: cs => b == byteOf c && strcmp m cs

/-- As `strcmp`, with each byte compared to the character and to the character with
its case bit flipped. -/
def stricmp : List UInt8 → List Char → Bool
  | _, [] => true
  | [], _ :: _ => false
  | b :: m, c :: cs => (b == byteOf c || b == byteOf c ^^^ 0x20) && stricmp m cs

variable {β : Type*}

/-- The value of the first entry of a table whose text `m` starts with. -/
def lookupWith (cmp : List UInt8 → List Char → Bool) (table : List (List Char × β))
    (m : List UInt8) : Option β :=
  (table.find? fun entry => cmp m entry.1).map Prod.snd

theorem strcmp_append {m : List UInt8} {name : List Char} (fits : name.length ≤ m.length)
    (rest : List UInt8) : strcmp (m ++ rest) name = strcmp m name := by
  induction name generalizing m with
  | nil => simp [strcmp]
  | cons c name ih =>
    cases m with
    | nil => simp at fits
    | cons b m =>
      simp only [List.cons_append, strcmp]
      rw [ih (by simpa using fits)]

theorem strcmp_eq_true_iff {m : List UInt8} {name : List Char} :
    strcmp m name = true ↔ name.map byteOf <+: m := by
  induction name generalizing m with
  | nil => simp [strcmp]
  | cons c name ih =>
    cases m with
    | nil => simp [strcmp]
    | cons b m =>
      rw [strcmp, Bool.and_eq_true, beq_iff_eq, ih, List.map_cons, List.cons_prefix_cons,
        eq_comm (a := b)]

theorem stricmp_append {m : List UInt8} {name : List Char} (fits : name.length ≤ m.length)
    (rest : List UInt8) : stricmp (m ++ rest) name = stricmp m name := by
  induction name generalizing m with
  | nil => simp [stricmp]
  | cons c name ih =>
    cases m with
    | nil => simp at fits
    | cons b m =>
      simp only [List.cons_append, stricmp]
      rw [ih (by simpa using fits)]

theorem lookupWith_congr {cmp : List UInt8 → List Char → Bool} {table : List (List Char × β)}
    {m m' : List UInt8} (same : ∀ entry ∈ table, cmp m entry.1 = cmp m' entry.1) :
    lookupWith cmp table m = lookupWith cmp table m' := by
  unfold lookupWith
  congr 1
  induction table with
  | nil => rfl
  | cons entry table ih =>
    rw [List.find?_cons, List.find?_cons, same entry (by simp),
      ih fun e member => same e (by simp [member])]

/-- What is looked up stands in the table under a text that compares equal. -/
theorem mem_of_lookupWith {cmp : List UInt8 → List Char → Bool} {table : List (List Char × β)}
    {m : List UInt8} {value : β} (found : lookupWith cmp table m = some value) :
    ∃ name, (name, value) ∈ table ∧ cmp m name = true := by
  obtain ⟨entry, first, rfl⟩ := Option.map_eq_some_iff.mp found
  have equal := List.find?_some first
  exact ⟨entry.1, List.mem_of_find?_eq_some first, equal⟩

theorem lookupWith_strcmp_append {table : List (List Char × β)} {m : List UInt8}
    (fits : ∀ entry ∈ table, entry.1.length ≤ m.length) (rest : List UInt8) :
    lookupWith strcmp table (m ++ rest) = lookupWith strcmp table m :=
  lookupWith_congr fun entry member => strcmp_append (fits entry member) rest

theorem lookupWith_stricmp_append {table : List (List Char × β)} {m : List UInt8}
    (fits : ∀ entry ∈ table, entry.1.length ≤ m.length) (rest : List UInt8) :
    lookupWith stricmp table (m ++ rest) = lookupWith stricmp table m :=
  lookupWith_congr fun entry member => stricmp_append (fits entry member) rest

/-! ## Slices of a buffer -/

/-- The bytes of `b` from offset `t` up to offset `p`. -/
def textAt (b : List UInt8) (p t : Nat) : List UInt8 :=
  (b.take p).drop t

section Slices

variable {b : List UInt8} {p q t : Nat}

theorem drop_eq_cons (inside : p < b.length) : b.drop p = b.getD p 0 :: b.drop (p + 1) := by
  rw [List.drop_eq_getElem_cons inside, List.getD_eq_getElem _ _ inside]

theorem textAt_succ (inside : p < b.length) (before : t ≤ p) :
    textAt b (p + 1) t = textAt b p t ++ [b.getD p 0] := by
  unfold textAt
  rw [List.take_succ_eq_append_getElem inside, List.drop_append_of_le_length,
    List.getD_eq_getElem _ _ inside]
  simp only [List.length_take]
  omega

theorem textAt_self : textAt b p p = [] :=
  List.drop_of_length_le (by simp)

theorem length_textAt (inside : p ≤ b.length) : (textAt b p t).length = p - t := by
  simp only [textAt, List.length_drop, List.length_take]
  omega

theorem drop_eq_textAt_append (before : t ≤ p) (inside : p ≤ b.length) :
    b.drop t = textAt b p t ++ b.drop p := by
  unfold textAt
  rw [← List.drop_append_of_le_length (by simp only [List.length_take]; omega),
    List.take_append_drop]

theorem textAt_append (before : t ≤ p) (start : p ≤ q) (bound : q ≤ b.length) :
    textAt b p t ++ textAt b q p = textAt b q t := by
  have split := drop_eq_textAt_append (b := b.take q) before (by simp; omega)
  rw [textAt, List.take_take, Nat.min_eq_left start] at split
  exact split.symm

theorem textAt_extend (inside : p ≤ b.length) (y : List UInt8) :
    textAt (b ++ y) p t = textAt b p t := by
  rw [textAt, List.take_append_of_le_length inside, textAt]

end Slices

/-! ## Words of a line -/

section Words

variable {α : Type*} [DecidableEq α] (sep : α)

/-- One symbol of a line: it ends the word under way or belongs to it. -/
def splitStep (parts : List (List α) × List α) (a : α) : List (List α) × List α :=
  if a = sep then
    if parts.2 = [] then parts else (parts.1 ++ [parts.2], [])
  else (parts.1, parts.2 ++ [a])

/-- The words of a line that have ended, and the word under way. -/
def splitWords (line : List α) : List (List α) × List α :=
  line.foldl (splitStep sep) ([], [])

/-- The words of a line, between which there are separators. -/
def words (line : List α) : List (List α) :=
  let parts := splitWords sep line
  if parts.2 = [] then parts.1 else parts.1 ++ [parts.2]

variable {sep}

@[simp]
theorem splitWords_concat (line : List α) (a : α) :
    splitWords sep (line ++ [a]) = splitStep sep (splitWords sep line) a := by
  simp [splitWords]

theorem words_of_split {line : List α} {ws : List (List α)} {w : List α}
    (split : splitWords sep line = (ws, w)) :
    words sep line = if w = [] then ws else ws ++ [w] := by
  simp [words, split]

/-- Every symbol of a line is a separator or belongs to a word. -/
theorem mem_words_of_mem (sep : α) {line : List α} {a : α} (member : a ∈ line) :
    a = sep ∨ ∃ w ∈ words sep line, a ∈ w := by
  have split : a = sep ∨ (∃ w ∈ (splitWords sep line).1, a ∈ w) ∨ a ∈ (splitWords sep line).2 := by
    induction line using List.reverseRecOn with
    | nil => cases member
    | append_singleton line b ih =>
      rw [splitWords_concat]
      unfold splitStep
      rw [List.mem_append, List.mem_singleton] at member
      grind
  rcases split with same | ⟨w, ended, inside⟩ | underWay
  · exact .inl same
  · refine .inr ⟨w, ?_, inside⟩
    unfold words
    grind
  · refine .inr ⟨_, ?_, underWay⟩
    unfold words
    grind

end Words

end Nutcracker.Lib
