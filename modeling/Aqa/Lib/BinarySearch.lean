/-
# Aqa.Lib.BinarySearch — `std::lower_bound` and `std::upper_bound`.

Both halve a range until it is empty, with a predicate that says whether the point looked for lies
behind a position. On a range that the predicate splits in two parts, all positions that satisfy it
before all others, they return the split (`partitionPoint_eq`); in a list whose entries are in order
that is the number of entries satisfying it (`lowerBound_eq_countP`).
-/
import Mathlib.Data.List.Count
import Mathlib.Order.Defs.Unbundled

namespace Aqa.Lib.BinarySearch

/-- The loop over a range of `len` positions from `first` on, for a range of at most `fuel` ones. -/
def search (pred : Nat → Bool) : Nat → Nat → Nat → Nat
  | 0, first, _ => first
  | fuel + 1, first, len =>
      if len = 0 then first
      else if pred (first + len / 2) then
        search pred fuel (first + len / 2 + 1) (len - len / 2 - 1)
      else search pred fuel first (len / 2)

/-- The first position of a range that does not satisfy a predicate. -/
def partitionPoint (pred : Nat → Bool) (first last : Nat) : Nat :=
  search pred (last - first) first (last - first)

/-- The loop keeps the split in its range. -/
theorem search_eq {pred : Nat → Bool} {p : Nat} (fuel : Nat) :
    ∀ first len, len ≤ fuel → first ≤ p → p ≤ first + len →
      (∀ i, first ≤ i → i < first + len → (pred i = true ↔ i < p)) →
      search pred fuel first len = p := by
  induction fuel with
  | zero =>
      intro first len hfuel hfirst hlast _
      rw [search]
      omega
  | succ fuel ih =>
      intro first len hfuel hfirst hlast hsplit
      rw [search]
      by_cases hlen : len = 0
      · rw [if_pos hlen]
        omega
      · rw [if_neg hlen]
        have hmid := hsplit (first + len / 2) (by omega) (by omega)
        by_cases hpred : pred (first + len / 2) = true
        · rw [if_pos hpred]
          have hlt := hmid.mp hpred
          exact ih _ _ (by omega) (by omega) (by omega)
            fun i hi hi' => hsplit i (by omega) (by omega)
        · rw [if_neg hpred]
          have hle : p ≤ first + len / 2 := by
            by_contra hgt
            exact hpred (hmid.mpr (by omega))
          exact ih _ _ (by omega) hfirst hle fun i hi hi' => hsplit i hi (by omega)

/-- **The search finds the split** of a range that has one. -/
theorem partitionPoint_eq {pred : Nat → Bool} {first last p : Nat} (hfirst : first ≤ p)
    (hlast : p ≤ last) (hsplit : ∀ i, first ≤ i → i < last → (pred i = true ↔ i < p)) :
    partitionPoint pred first last = p := by
  unfold partitionPoint
  refine search_eq (last - first) first (last - first) (Nat.le_refl _) hfirst (by omega) ?_
  intro i hi hi'
  exact hsplit i hi (by omega)

/-! ## Ordered lists -/

variable {α : Type*}

/-- In a list that a predicate splits, the entries satisfying it are the first ones. -/
theorem satisfies_iff_lt_countP {pred : α → Bool} {l : List α}
    (h : l.Pairwise fun a b => pred b = true → pred a = true) {i : Nat} (hi : i < l.length) :
    pred l[i] = true ↔ i < l.countP pred := by
  induction l generalizing i with
  | nil => cases hi
  | cons a l ih =>
      obtain ⟨hhead, htail⟩ := List.pairwise_cons.mp h
      cases hpred : pred a with
      | true =>
          rw [List.countP_cons_of_pos hpred]
          cases i with
          | zero => simp [hpred]
          | succ i =>
              rw [List.getElem_cons_succ, ih htail (Nat.lt_of_succ_lt_succ hi)]
              omega
      | false =>
          have hnone : ∀ b ∈ l, pred b = false := by
            intro b hb
            by_contra hne
            rw [hhead b hb (by simpa using hne)] at hpred
            cases hpred
          have hcount : (a :: l).countP pred = 0 := by
            rw [List.countP_eq_zero]
            intro b hb
            rcases List.mem_cons.mp hb with rfl | hb
            · simp [hpred]
            · simp [hnone b hb]
          rw [hcount]
          have hat : pred (a :: l)[i] = false := by
            rcases List.mem_cons.mp (List.getElem_mem hi) with heq | hmem
            · rw [heq, hpred]
            · exact hnone _ hmem
          simp [hat]

/-- A range has a split when no position satisfies the predicate behind one that does not. -/
theorem exists_split {pred : Nat → Bool} {first last : Nat} (hrange : first ≤ last)
    (h : ∀ i j, first ≤ i → i < j → j < last → pred j = true → pred i = true) :
    ∃ p, first ≤ p ∧ p ≤ last ∧ ∀ i, first ≤ i → i < last → (pred i = true ↔ i < p) := by
  have hsplit : (List.range' first (last - first)).Pairwise fun i j =>
      pred j = true → pred i = true := by
    refine (List.pairwise_lt_range').imp_of_mem ?_
    intro i j hi hj hlt
    rw [List.mem_range'_1] at hi hj
    exact h i j hi.1 hlt (by omega)
  have hle := List.countP_le_length (p := pred) (l := List.range' first (last - first))
  rw [List.length_range'] at hle
  refine ⟨first + (List.range' first (last - first)).countP pred, by omega, by omega, ?_⟩
  intro i hi hi'
  have hiff := satisfies_iff_lt_countP hsplit (i := i - first) (by rw [List.length_range']; omega)
  rw [List.getElem_range', Nat.one_mul, Nat.add_sub_cancel' hi] at hiff
  rw [hiff]
  omega

/-! ## Comparators -/

/-- In a strict weak order every key is above the smaller or below the larger of two keys. -/
theorem lt_or_lt_of_lt {K : Type*} {lt : K → K → Prop} [IsStrictWeakOrder K lt] {a b : K}
    (h : lt a b) (c : K) : lt a c ∨ lt c b := by
  by_contra hnot
  obtain ⟨hac, hcb⟩ := not_or.mp hnot
  have hca : ¬ lt c a := fun hca => hcb (IsTrans.trans c a b hca h)
  have hbc : ¬ lt b c := fun hbc => hac (IsTrans.trans a b c h hbc)
  exact (IsStrictWeakOrder.incomp_trans a c b ⟨hac, hca⟩ ⟨hcb, hbc⟩).1 h

variable {K : Type*} (lt : K → K → Prop) [DecidableRel lt]

/-- `std::lower_bound`: the first position whose key is not less than the one given. -/
def lowerBound (keys : Nat → K) (first last : Nat) (key : K) : Nat :=
  partitionPoint (fun i => lt (keys i) key) first last

/-- `std::upper_bound`: the first position whose key is greater than the one given. -/
def upperBound (keys : Nat → K) (first last : Nat) (key : K) : Nat :=
  partitionPoint (fun i => !decide (lt key (keys i))) first last

variable [IsStrictWeakOrder K lt]

/-- In an ordered list the lower bound is the number of smaller keys. -/
theorem lowerBound_eq_countP {l : List K} (h : l.Pairwise lt) {keys : Nat → K}
    (hkeys : ∀ i (hi : i < l.length), keys i = l[i]) (key : K) :
    lowerBound lt keys 0 l.length key = l.countP fun k => lt k key := by
  have hsplit : l.Pairwise fun a b => decide (lt b key) = true → decide (lt a key) = true := by
    refine h.imp ?_
    intro a b hab hb
    exact decide_eq_true (IsTrans.trans a b key hab (of_decide_eq_true hb))
  refine partitionPoint_eq (Nat.zero_le _) List.countP_le_length ?_
  intro i _ hi
  rw [hkeys i hi]
  exact satisfies_iff_lt_countP hsplit hi

/-- **`std::upper_bound` meets its specification**: in a range whose keys do not decrease it splits
the keys that are greater from those that are not. -/
theorem upperBound_spec {keys : Nat → K} {first last : Nat} (hrange : first ≤ last)
    (hkeys : ∀ i j, first ≤ i → i < j → j < last → ¬ lt (keys j) (keys i)) (key : K) :
    let p := upperBound lt keys first last key
    first ≤ p ∧ p ≤ last ∧ (∀ i, first ≤ i → i < p → ¬ lt key (keys i)) ∧
      ∀ i, p ≤ i → i < last → lt key (keys i) := by
  have hsorted : ∀ i j, first ≤ i → i < j → j < last →
      (!decide (lt key (keys j))) = true → (!decide (lt key (keys i))) = true := by
    intro i j hi hij hj hpred
    rw [Bool.not_eq_true', decide_eq_false_iff_not] at hpred ⊢
    intro hlt
    rcases lt_or_lt_of_lt hlt (keys j) with habove | hbelow
    · exact hpred habove
    · exact hkeys i j hi hij hj hbelow
  obtain ⟨p, hfirst, hlast, hsplit⟩ := exists_split hrange hsorted
  have hp : upperBound lt keys first last key = p := partitionPoint_eq hfirst hlast hsplit
  rw [hp]
  refine ⟨hfirst, hlast, fun i hi hlt => ?_, fun i hi hlt => ?_⟩
  · have hpred := (hsplit i hi (by omega)).mpr hlt
    rwa [Bool.not_eq_true', decide_eq_false_iff_not] at hpred
  · by_contra hnot
    have hpred : (!decide (lt key (keys i))) = true := by simp [hnot]
    have := (hsplit i (by omega) hlt).mp hpred
    omega

end Aqa.Lib.BinarySearch
