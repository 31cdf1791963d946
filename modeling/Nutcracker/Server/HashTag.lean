import Nutcracker.Server.Points
import Nutcracker.Server.Pool

/-!
# Hash tags

With a hash tag, the text between the first opening character of a key and the first closing
character behind it takes the place of the key, unless it is empty.  The two characters may be
the same.  The scan starts behind the opening character, which may be the end of the key.
-/

namespace Nutcracker

open Lib

/-- The text of the tag in a key. -/
def TagText (opening closing : UInt8) (key t : Bytes) : Prop :=
  t ≠ [] ∧ ∃ pre post, key = pre ++ opening :: (t ++ closing :: post) ∧ opening ∉ pre ∧ closing ∉ t

/-! ## The scan -/

/-- `_nc_strchr` from offset `p` on, with every byte read from the key.  A read behind the key has
no result, nor has a scan that does not end. -/
def strchrScan (key : Bytes) (last : Nat) (c : UInt8) : Nat → Nat → Option (Option Nat)
  | 0, _ => none
  | fuel + 1, p =>
    if p < last then
      key[p]?.bind fun ch => if ch = c then some (some p) else strchrScan key last c fuel (p + 1)
    else
      some none

/-- The head of `server_pool_idx` with the reads of its scans. -/
def scanTag (opening closing : UInt8) (key : Bytes) : Option Bytes :=
  (strchrScan key key.length opening (key.length + 1) 0).bind fun tagStart =>
    match tagStart with
    | none => some key
    | some tagStart =>
      (strchrScan key key.length closing (key.length + 1) (tagStart + 1)).map fun tagEnd =>
        match tagEnd with
        | none => key
        | some tagEnd =>
          if tagEnd - tagStart > 1 then
            (key.drop (tagStart + 1)).take (tagEnd - (tagStart + 1))
          else
            key

section Scan

variable {key t : Bytes} {c opening closing : UInt8} {start stop : Nat}

theorem ncStrchr_of_end (atEnd : key.length ≤ start) : ncStrchr key start c = none := by
  rw [ncStrchr, List.drop_of_length_le atEnd]
  rfl

theorem ncStrchr_step (inside : start < key.length) :
    ncStrchr key start c =
      if key[start] = c then some start else ncStrchr key (start + 1) c := by
  rw [ncStrchr, ncStrchr, List.drop_eq_getElem_cons inside, List.idxOf?_cons]
  by_cases here : key[start] = c
  · simp [here]
  · simp only [beq_iff_eq, here, if_false, Option.map_map]
    congr 1
    funext n
    simp only [Function.comp_apply]
    omega

/-- The scan stays inside the key and ends. -/
theorem strchrScan_eq {fuel : Nat} (enough : key.length - start < fuel) :
    strchrScan key key.length c fuel start = some (ncStrchr key start c) := by
  induction fuel generalizing start with
  | zero => exact absurd enough (Nat.not_lt_zero _)
  | succ fuel ih =>
    rw [strchrScan]
    split
    · rename_i inside
      rw [List.getElem?_eq_getElem inside, Option.bind_some, ncStrchr_step inside]
      split
      · rfl
      · exact ih (by omega)
    · rename_i beyond
      rw [ncStrchr_of_end (Nat.le_of_not_lt beyond)]

theorem scanTag_eq (opening closing : UInt8) (key : Bytes) :
    scanTag opening closing key = some (hashedPart (some (opening, closing)) key) := by
  have first : key.length - 0 < key.length + 1 := by omega
  rw [scanTag, strchrScan_eq first, Option.bind_some, hashedPart]
  cases ncStrchr key 0 opening with
  | none => rfl
  | some tagStart =>
    have second : key.length - (tagStart + 1) < key.length + 1 := by omega
    dsimp only
    refine (congrArg (Option.map _) (strchrScan_eq second)).trans ?_
    cases ncStrchr key (tagStart + 1) closing with
    | none => rfl
    | some tagEnd => rfl

/-! ## The text that is found -/

/-- What a scan finds is the first byte of its kind. -/
theorem ncStrchr_eq_some_iff :
    ncStrchr key start c = some stop ↔
      ∃ pre post, key.drop start = pre ++ c :: post ∧ c ∉ pre ∧ stop = start + pre.length := by
  rw [ncStrchr, Option.map_eq_some_iff]
  constructor
  · rintro ⟨n, found, rfl⟩
    obtain ⟨bound, here, before⟩ := List.idxOf?_eq_some_iff.mp found
    refine ⟨(key.drop start).take n, (key.drop start).drop (n + 1), ?_, ?_, ?_⟩
    · rw [← here, ← List.drop_eq_getElem_cons bound, List.take_append_drop]
    · intro member
      obtain ⟨i, inside, same⟩ := List.getElem_of_mem member
      rw [List.length_take] at inside
      rw [List.getElem_take] at same
      exact before i (lt_of_lt_of_le inside (Nat.min_le_left _ _)) same
    · rw [List.length_take, Nat.min_eq_left bound.le]
  · rintro ⟨pre, post, split, absent, rfl⟩
    refine ⟨pre.length, ?_, rfl⟩
    rw [split, List.idxOf?_eq_some_iff]
    refine ⟨by simp, by simp, fun i before same => absent ?_⟩
    rw [List.getElem_append_left before] at same
    exact same ▸ List.getElem_mem before

/-- The tag is hashed if there is one. -/
theorem hashedPart_of_tagText (tag : TagText opening closing key t) :
    hashedPart (some (opening, closing)) key = t := by
  obtain ⟨nonempty, pre, post, rfl, notBefore, notIn⟩ := tag
  have positive := List.length_pos_iff.mpr nonempty
  have start : ncStrchr (pre ++ opening :: (t ++ closing :: post)) 0 opening =
      some pre.length :=
    ncStrchr_eq_some_iff.mpr ⟨pre, t ++ closing :: post, rfl, notBefore, by rw [Nat.zero_add]⟩
  have behind : (pre ++ opening :: (t ++ closing :: post)).drop (pre.length + 1) =
      t ++ closing :: post := by
    rw [List.drop_length_add_append]
    rfl
  have stop : ncStrchr (pre ++ opening :: (t ++ closing :: post)) (pre.length + 1) closing =
      some (pre.length + 1 + t.length) :=
    ncStrchr_eq_some_iff.mpr ⟨t, post, behind, notIn, rfl⟩
  simp only [hashedPart, start, stop, behind, Nat.add_sub_cancel_left]
  rw [if_pos (by omega), List.take_left]

/-- The whole key is hashed if there is none. -/
theorem hashedPart_of_no_tagText (none_ : ¬∃ t, TagText opening closing key t) :
    hashedPart (some (opening, closing)) key = key := by
  unfold hashedPart
  cases start : ncStrchr key 0 opening with
  | none => simp only [start]
  | some tagStart =>
    cases stop : ncStrchr key (tagStart + 1) closing with
    | none => simp only [start, stop]
    | some tagEnd =>
      simp only [start, stop]
      rw [if_neg]
      intro longer
      obtain ⟨pre, rest, split, notBefore, rfl⟩ := ncStrchr_eq_some_iff.mp start
      obtain ⟨t, post, behind, notIn, rfl⟩ := ncStrchr_eq_some_iff.mp stop
      rw [List.drop_zero] at split
      rw [split, Nat.zero_add, List.drop_length_add_append, List.drop_succ_cons,
        List.drop_zero] at behind
      apply none_
      refine ⟨t, ?_, pre, post, by rw [split, behind], notBefore, notIn⟩
      rintro rfl
      rw [List.length_nil] at longer
      omega

end Scan

/-- Under a hash tag, the index of a key is that of the text of its tag, or of the whole key if it
has none; keys with the same tag go to the same server under the same ring; and the scan for the
tag reads bytes of the key only. -/
theorem serverPoolIdx_hashTag (kit : Hashkit) (pool : ServerPool) {opening closing : UInt8}
    (tag : pool.hashTag = some (opening, closing)) (dist : pool.dist ≠ .random) (key : Bytes)
    (draw : Nat) :
    (∃ t, (TagText opening closing key t ∨ (¬∃ t', TagText opening closing key t') ∧ t = key) ∧
      (pool.dist = .ketama → serverPoolIdx kit pool key draw =
        ketamaDispatch pool.continuum pool.ncontinuum (serverPoolHash kit pool t)) ∧
      (pool.dist = .modula → serverPoolIdx kit pool key draw =
        modulaDispatch pool.continuum pool.ncontinuum (serverPoolHash kit pool t)) ∧
      scanTag opening closing key = some t) ∧
    ∀ pool' key' t draw', pool.SameRing pool' → TagText opening closing key t →
      TagText opening closing key' t →
      serverPoolIdx kit pool' key' draw' = serverPoolIdx kit pool key draw := by
  constructor
  · refine ⟨hashedPart pool.hashTag key, ?_, ?_, ?_, ?_⟩
    · rw [tag]
      by_cases tagged : ∃ t, TagText opening closing key t
      · obtain ⟨t, text⟩ := tagged
        rw [hashedPart_of_tagText text]
        exact Or.inl text
      · exact Or.inr ⟨tagged, hashedPart_of_no_tagText tagged⟩
    · intro ketama
      simp only [serverPoolIdx, ketama]
    · intro modula
      simp only [serverPoolIdx, modula]
    · rw [tag, scanTag_eq]
  · intro pool' key' t draw' same text text'
    have ignored : ∀ p : ServerPool, p.dist = pool.dist → ∀ k d d',
        serverPoolIdx kit p k d = serverPoolIdx kit p k d' := by
      intro p equal k d d'
      cases kind : p.dist with
      | ketama => simp only [serverPoolIdx, kind]
      | modula => simp only [serverPoolIdx, kind]
      | random => exact absurd (equal.symm.trans kind) dist
    rw [same.serverPoolIdx_eq, ignored pool rfl key' draw' draw]
    simp only [serverPoolIdx, tag, hashedPart_of_tagText text, hashedPart_of_tagText text']

/-- Two servers under `modula` with the hash tag of the notes. -/
def bracedPool : ServerPool where
  dist := .modula
  autoEjectHosts := false
  serverFailureLimit := 2
  serverRetryTimeout := 0
  hashTag := some (byteOf '{', byteOf '}')
  servers := [{ name := [byteOf 'a'], weight := 1 }, { name := [byteOf 'b'], weight := 1 }]
  continuum := [⟨0, 0⟩, ⟨1, 0⟩]
  ncontinuum := 2

/-- The keys `u{7}` and `{7}}:v` have the tag `7`. -/
theorem serverPoolIdx_hashTag_braces :
    let kit := Hashkit.fnv1a64 (fun _ _ => 0) (fun _ => 0)
    TagText (byteOf '{') (byteOf '}') (['u', '{', '7', '}'].map byteOf)
        [byteOf '7'] ∧
      serverPoolIdx kit bracedPool (['{', '7', '}', '}', ':', 'v'].map byteOf) 0 =
        serverPoolIdx kit bracedPool (['u', '{', '7', '}'].map byteOf) 0 := by
  have text : TagText (byteOf '{') (byteOf '}') (['u', '{', '7', '}'].map byteOf)
      [byteOf '7'] :=
    ⟨by decide, [byteOf 'u'], [], by decide, by decide, by decide⟩
  have text' : TagText (byteOf '{') (byteOf '}')
      (['{', '7', '}', '}', ':', 'v'].map byteOf) [byteOf '7'] :=
    ⟨by decide, [], ['}', ':', 'v'].map byteOf, by decide, by decide, by decide⟩
  exact ⟨text, (serverPoolIdx_hashTag (Hashkit.fnv1a64 (fun _ _ => 0) (fun _ => 0)) bracedPool rfl
    (by decide) (['u', '{', '7', '}'].map byteOf) 0).2 bracedPool _ _ 0 (.refl bracedPool)
    text text'⟩

end Nutcracker
