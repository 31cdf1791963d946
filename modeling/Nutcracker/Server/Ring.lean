import Nutcracker.Server.Hashkit

/-!
# The ring of ketama points

The points of a continuum lie on a ring of hash values.  A hash belongs to the point that is
met first on the way up from it, past the highest point to the lowest.  `ketama_dispatch` finds
that point by bisection.  Taking away the points of one server leaves the order in which the
other points are met as it was, so only the hashes of that server move.
-/

namespace Nutcracker

/-- The order in which `ketama_update` leaves the points. -/
def SortedRing (ring : List Continuum) : Prop :=
  ring.Pairwise fun a b => a.value ≤ b.value

/-- The points in the order in which they are met from a hash on. -/
def clockwise (ring : List Continuum) (hash : Nat) : List Continuum :=
  (ring.filter fun c => hash ≤ c.value) ++ ring.filter fun c => ¬hash ≤ c.value

/-- The points that are left when a server is taken away. -/
def withoutServer (ring : List Continuum) (s : Nat) : List Continuum :=
  ring.filter fun c => c.index ≠ s

section Sorted

variable {ring ring' : List Continuum} {hash s : Nat}

/-- Values go up with the positions. -/
theorem SortedRing.value_le (sorted : SortedRing ring) {i j : Nat} (order : i ≤ j)
    (inside : j < ring.length) :
    (ring.getD i ⟨0, 0⟩).value ≤ (ring.getD j ⟨0, 0⟩).value := by
  rcases Nat.eq_or_lt_of_le order with rfl | earlier
  · exact Nat.le_refl _
  · rw [List.getD_eq_getElem _ _ (earlier.trans inside), List.getD_eq_getElem _ _ inside]
    exact List.pairwise_iff_getElem.mp sorted i j _ _ earlier

theorem SortedRing.withoutServer (sorted : SortedRing ring) (s : Nat) :
    SortedRing (withoutServer ring s) :=
  sorted.filter _

/-! ## Bisection -/

/-- The bounds of the search: every point below `left` is passed, every point from `right` on
is not. -/
structure Bisects (ring : List Continuum) (hash left right : Nat) : Prop where
  ordered : left ≤ right
  inside : right ≤ ring.length
  below : ∀ i < left, (ring.getD i ⟨0, 0⟩).value < hash
  above : ∀ i, right ≤ i → i < ring.length → hash ≤ (ring.getD i ⟨0, 0⟩).value

theorem Bisects.eq_findIdx {k : Nat} (bisects : Bisects ring hash k k) :
    ring.findIdx (fun c => hash ≤ c.value) = k := by
  rcases Nat.eq_or_lt_of_le bisects.inside with atEnd | inside
  · rw [atEnd, List.findIdx_eq_length]
    intro c member
    obtain ⟨i, bound, rfl⟩ := List.getElem_of_mem member
    have below := bisects.below i (atEnd ▸ bound)
    rw [List.getD_eq_getElem _ _ bound] at below
    simpa using below
  · rw [List.findIdx_eq inside]
    constructor
    · have above := bisects.above k (Nat.le_refl k) inside
      rw [List.getD_eq_getElem _ _ inside] at above
      simpa using above
    · intro i earlier
      have below := bisects.below i earlier
      rw [List.getD_eq_getElem _ _ (earlier.trans inside)] at below
      simpa using below

/-- The loop narrows the bounds down to one position. -/
theorem Bisects.search (sorted : SortedRing ring) {fuel left right : Nat}
    (bisects : Bisects ring hash left right) (enough : right - left ≤ fuel) :
    Bisects ring hash (ketamaSearch ring hash fuel left right)
      (ketamaSearch ring hash fuel left right) := by
  induction fuel generalizing left right with
  | zero =>
    have met : left = right := Nat.le_antisymm bisects.ordered (by omega)
    rw [ketamaSearch]
    exact met ▸ bisects
  | succ fuel ih =>
    rw [ketamaSearch]
    split
    · rename_i open_
      have middle : left + (right - left) / 2 < right := by omega
      have inside := middle.trans_le bisects.inside
      dsimp only
      split
      · rename_i passed
        apply ih ⟨middle, bisects.inside, ?_, bisects.above⟩ (by omega)
        intro i before
        exact (sorted.value_le (Nat.le_of_lt_succ before) inside).trans_lt passed
      · rename_i reached
        apply ih ⟨Nat.le_add_right _ _, inside.le, bisects.below, ?_⟩ (by omega)
        intro i from_ bound
        exact (Nat.le_of_not_lt reached).trans (sorted.value_le from_ bound)
    · rename_i closed
      have met : left = right := Nat.le_antisymm bisects.ordered (Nat.le_of_not_lt closed)
      exact met ▸ bisects

/-- The loop ends at the first point that is not below the hash. -/
theorem ketamaSearch_eq (sorted : SortedRing ring) {fuel : Nat} (enough : ring.length ≤ fuel) :
    ketamaSearch ring hash fuel 0 ring.length = ring.findIdx fun c => hash ≤ c.value := by
  have start : Bisects ring hash 0 ring.length :=
    ⟨Nat.zero_le _, Nat.le_refl _, fun i negative => absurd negative (Nat.not_lt_zero i),
      fun i beyond inside => absurd inside (Nat.not_lt.mpr beyond)⟩
  exact (start.search sorted (by omega)).eq_findIdx.symm

/-! ## Dispatch -/

theorem head?_clockwise (ring : List Continuum) (hash : Nat) :
    (clockwise ring hash).head? = (ring.find? fun c => hash ≤ c.value).or ring.head? := by
  rw [clockwise, List.head?_append, List.head?_filter]
  cases found : ring.find? fun c => decide (hash ≤ c.value) with
  | some c => rfl
  | none =>
    rw [List.find?_eq_none] at found
    rw [Option.none_or, Option.none_or, List.filter_eq_self.mpr]
    intro c member
    simpa using found c member

/-- A hash goes to the point that is met first. -/
theorem ketamaDispatch_eq (sorted : SortedRing ring) (nonempty : ring ≠ []) (hash : Nat) :
    some (ketamaDispatch ring ring.length hash) = (clockwise ring hash).head?.map (·.index) := by
  have positive := List.length_pos_iff.mpr nonempty
  rw [ketamaDispatch, ketamaSearch_eq sorted (Nat.le_refl _), head?_clockwise]
  cases found : ring.find? fun c => decide (hash ≤ c.value) with
  | none =>
    have atEnd : ring.findIdx (fun c => decide (hash ≤ c.value)) = ring.length := by
      rw [List.findIdx_eq_length]
      simpa using found
    simp [atEnd, List.head?_eq_getElem?, List.getD_eq_getElem?_getD, positive]
  | some c =>
    obtain ⟨holds, i, bound, point, first⟩ := List.find?_eq_some_iff_getElem.mp found
    have position : ring.findIdx (fun c => decide (hash ≤ c.value)) = i := by
      rw [List.findIdx_eq bound]
      exact ⟨point ▸ holds, fun j earlier => by simpa using first j earlier⟩
    rw [position, if_neg bound.ne, List.getD_eq_getElem _ _ bound, point]
    rfl

/-! ## Taking a server away -/

theorem clockwise_withoutServer (ring : List Continuum) (s hash : Nat) :
    clockwise (withoutServer ring s) hash = (clockwise ring hash).filter fun c => c.index ≠ s := by
  simp only [clockwise, withoutServer, List.filter_append, List.filter_filter, Bool.and_comm]

/-- Points with different values have one order only. -/
theorem SortedRing.eq_of_perm (sorted : SortedRing ring) (sorted' : SortedRing ring')
    (distinct : (ring.map (·.value)).Nodup) (perm : ring'.Perm ring) : ring' = ring := by
  apply perm.eq_of_pairwise ?_ sorted' sorted
  intro a b left right up down
  exact List.inj_on_of_nodup_map distinct (perm.subset left) right (Nat.le_antisymm up down)

theorem ketamaDispatch_withoutServer (sorted : SortedRing ring)
    (remains : withoutServer ring s ≠ []) (hash : Nat) :
    some (ketamaDispatch (withoutServer ring s) (withoutServer ring s).length hash) =
      ((clockwise ring hash).find? fun c => c.index ≠ s).map (·.index) := by
  rw [ketamaDispatch_eq (sorted.withoutServer s) remains, clockwise_withoutServer,
    List.head?_filter]

/-- Who is not sent to the server that goes away stays where it is. -/
theorem ketamaDispatch_stays (sorted : SortedRing ring) (remains : withoutServer ring s ≠ [])
    (other : ketamaDispatch ring ring.length hash ≠ s) :
    ketamaDispatch (withoutServer ring s) (withoutServer ring s).length hash =
      ketamaDispatch ring ring.length hash := by
  have nonempty : ring ≠ [] := by
    rintro rfl
    exact remains rfl
  have before := ketamaDispatch_eq sorted nonempty hash
  have after := ketamaDispatch_withoutServer sorted remains hash
  cases met : clockwise ring hash with
  | nil =>
    rw [met] at before
    cases before
  | cons c rest =>
    rw [met] at before after
    have first : ketamaDispatch ring ring.length hash = c.index := Option.some.inj before
    rw [List.find?_cons_of_pos (by simpa [← first] using other)] at after
    exact (Option.some.inj after).trans first.symm

end Sorted

/-- The search ends, at the first point that is not below the hash; the hash belongs to that
point, or to the first one of the ring if there is none; and when the points of a server are
taken away, every other hash stays where it is and the hashes of the server go to the point
that is met next. -/
theorem ketamaDispatch_minimal_disruption {ring : List Continuum} (nonempty : ring ≠ [])
    (sorted : SortedRing ring) (hash : Nat) :
    (∀ fuel, ring.length ≤ fuel →
        ketamaSearch ring hash fuel 0 ring.length = ring.findIdx fun c => hash ≤ c.value) ∧
      some (ketamaDispatch ring ring.length hash) =
        ((ring.find? fun c => hash ≤ c.value).or ring.head?).map (·.index) ∧
      ((ring.map (·.value)).Nodup → ∀ s ring', ring' ≠ [] → SortedRing ring' →
        ring'.Perm (withoutServer ring s) →
        (ketamaDispatch ring ring.length hash ≠ s →
          ketamaDispatch ring' ring'.length hash = ketamaDispatch ring ring.length hash) ∧
        (ketamaDispatch ring ring.length hash = s →
          some (ketamaDispatch ring' ring'.length hash) =
            ((clockwise ring hash).find? fun c => c.index ≠ s).map (·.index))) := by
  refine ⟨fun fuel enough => ketamaSearch_eq sorted enough, ?_, ?_⟩
  · rw [ketamaDispatch_eq sorted nonempty, head?_clockwise]
  · intro distinct s ring' remains sorted' perm
    have distinct' : ((withoutServer ring s).map (·.value)).Nodup :=
      distinct.sublist (List.filter_sublist.map _)
    obtain rfl := (sorted.withoutServer s).eq_of_perm sorted' distinct' perm
    exact ⟨ketamaDispatch_stays sorted remains,
      fun _ => ketamaDispatch_withoutServer sorted remains hash⟩

/-- Three servers with four points: the hash 25 moves from server 2 to server 0 behind the
highest point, the hash 15 stays. -/
theorem ketamaDispatch_minimal_disruption_wraps :
    SortedRing [⟨0, 10⟩, ⟨1, 20⟩, ⟨2, 30⟩, ⟨2, 40⟩] ∧
      some (ketamaDispatch [⟨0, 10⟩, ⟨1, 20⟩] 2 25) =
        ((clockwise [⟨0, 10⟩, ⟨1, 20⟩, ⟨2, 30⟩, ⟨2, 40⟩] 25).find? fun c => c.index ≠ 2).map
          (·.index) ∧
      ketamaDispatch [⟨0, 10⟩, ⟨1, 20⟩] 2 15 =
        ketamaDispatch [⟨0, 10⟩, ⟨1, 20⟩, ⟨2, 30⟩, ⟨2, 40⟩] 4 15 := by
  have sorted : SortedRing [⟨0, 10⟩, ⟨1, 20⟩, ⟨2, 30⟩, ⟨2, 40⟩] := by
    simp [SortedRing]
  have sorted' : SortedRing [⟨0, 10⟩, ⟨1, 20⟩] := by simp [SortedRing]
  have law := fun hash =>
    (ketamaDispatch_minimal_disruption (by simp) sorted hash).2.2 (by decide) 2
      [⟨0, 10⟩, ⟨1, 20⟩] (by simp) sorted' (List.Perm.refl _)
  exact ⟨sorted, (law 25).2 (by decide), (law 15).1 (by decide)⟩

end Nutcracker
