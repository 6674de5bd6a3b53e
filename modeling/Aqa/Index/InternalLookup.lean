/-
# Aqa.Index.InternalLookup — routing in an internal page.

An internal page of size `n` has children 0 to `n - 1`, and a separator in front of each but the
first; the key of entry 0 is not looked at. `Lookup` follows the last child whose separator is not
greater than the key.
-/
import Aqa.Index.BPlusTreePage

namespace Aqa

open Aqa.Lib

namespace BPlusTreeInternalPage

variable {K V : Type*} {comparator : K → K → Prop}

/-- The separators do not decrease. -/
def Ordered (comparator : K → K → Prop) (p : BPlusTreeInternalPage K V) : Prop :=
  ∀ i j, 1 ≤ i → i < j → j < p.size → ¬ comparator (p.keyAt j) (p.keyAt i)

/-- A child a key may be routed to: it is the first one, or its separator is not greater. -/
def Admits (comparator : K → K → Prop) (p : BPlusTreeInternalPage K V) (key : K) (i : Nat) : Prop :=
  i = 0 ∨ ¬ comparator key (p.keyAt i)

variable {p : BPlusTreeInternalPage K V}

theorem lookup_eq [DecidableRel comparator] [Inhabited V] (hsize : 1 ≤ p.size) (key : K) :
    p.lookup comparator key = p.valueAt (p.childIndex comparator key) := by
  rw [lookup, if_neg (by omega)]

/-! ## Entry 0 -/

theorem keyAt_setKeyAt_zero (p : BPlusTreeInternalPage K V) (zero : K) {i : Nat} (hi : 1 ≤ i) :
    (p.setKeyAt 0 zero).keyAt i = p.keyAt i := by
  show (Function.update p.array 0 (zero, (p.array 0).2) i).1 = p.keyAt i
  rw [Function.update_of_ne (by omega)]
  rfl

theorem valueAt_setKeyAt_zero (p : BPlusTreeInternalPage K V) (zero : K) (i : Nat) :
    (p.setKeyAt 0 zero).valueAt i = p.valueAt i := by
  show (Function.update p.array 0 (zero, (p.array 0).2) i).2 = p.valueAt i
  by_cases hi : i = 0
  · subst hi
    rw [Function.update_self]
    rfl
  · rw [Function.update_of_ne hi]
    rfl

theorem Ordered.setKeyAt_zero (h : p.Ordered comparator) (zero : K) :
    (p.setKeyAt 0 zero).Ordered comparator := by
  intro i j hi hij hj
  rw [keyAt_setKeyAt_zero p zero hi, keyAt_setKeyAt_zero p zero (by omega)]
  exact h i j hi hij hj

theorem admits_setKeyAt_zero (zero key : K) (i : Nat) :
    (p.setKeyAt 0 zero).Admits comparator key i ↔ p.Admits comparator key i := by
  by_cases hi : i = 0
  · exact iff_of_true (Or.inl hi) (Or.inl hi)
  · rw [Admits, keyAt_setKeyAt_zero p zero (by omega), Admits]

/-! ## Routing -/

variable [IsStrictWeakOrder K comparator]

/-- Whatever admits a key admits a greater one. -/
theorem Admits.mono {key key' : K} {i : Nat} (h : p.Admits comparator key i)
    (hle : ¬ comparator key' key) : p.Admits comparator key' i := by
  refine h.imp id fun hnot hlt => ?_
  rcases BinarySearch.lt_or_lt_of_lt hlt key with hbelow | habove
  · exact hle hbelow
  · exact hnot habove

/-- No child behind a greater separator admits the key. -/
theorem Ordered.not_admits (h : p.Ordered comparator) {key : K} {i j : Nat} (hi : 1 ≤ i)
    (hij : i ≤ j) (hj : j < p.size) (hlt : comparator key (p.keyAt i)) :
    ¬ p.Admits comparator key j := by
  rintro (hzero | hnot)
  · omega
  · rcases Nat.lt_or_eq_of_le hij with hless | rfl
    · rcases BinarySearch.lt_or_lt_of_lt hlt (p.keyAt j) with hbelow | habove
      · exact hnot hbelow
      · exact h i j hi hless hj habove
    · exact hnot hlt

variable [DecidableRel comparator]

/-- **The child followed is the last one that admits the key.** -/
theorem childIndex_spec (h : p.Ordered comparator) (hsize : 1 ≤ p.size) (key : K) :
    let i := p.childIndex comparator key
    i < p.size ∧ p.Admits comparator key i ∧
      ∀ j < p.size, p.Admits comparator key j → j ≤ i := by
  obtain ⟨hfirst, hlast, hbelow, habove⟩ :=
    BinarySearch.upperBound_spec comparator hsize (fun i j => h i j) key
  intro i
  have hi : i = BinarySearch.upperBound comparator p.keyAt 1 p.size key - 1 := rfl
  refine ⟨by omega, ?_, ?_⟩
  · by_cases hzero : i = 0
    · exact Or.inl hzero
    · exact Or.inr (hbelow i (by omega) (by omega))
  · intro j hj hadmits
    by_contra hgt
    rcases hadmits with hzero | hnot
    · omega
    · exact hnot (habove j (by omega) hj)

/-- An index with that property is the one. -/
theorem childIndex_eq (h : p.Ordered comparator) (hsize : 1 ≤ p.size) {key : K} {i : Nat}
    (hi : i < p.size) (hadmits : p.Admits comparator key i)
    (hlast : ∀ j < p.size, p.Admits comparator key j → j ≤ i) :
    p.childIndex comparator key = i := by
  obtain ⟨hlt, hchild, hmax⟩ := childIndex_spec h hsize key
  exact Nat.le_antisymm (hlast _ hlt hchild) (hmax i hi hadmits)

/-- **Lookup routes every key to its child.** For every page of at least one child whose separators
do not decrease: the child followed is the last one that admits the key, and what is in entry 0's key
does not matter; greater keys go to the same child or a later one; and a key that a child holds in
`[key i, key i + 1)` is routed to that child. -/
theorem internal_page_routing [Inhabited V] (comparator : K → K → Prop) [DecidableRel comparator]
    [IsStrictWeakOrder K comparator] (p : BPlusTreeInternalPage K V) (hsize : 1 ≤ p.size)
    (h : p.Ordered comparator) :
    (∀ key, ∃ i < p.size, p.childIndex comparator key = i ∧
      p.lookup comparator key = p.valueAt i ∧ p.Admits comparator key i ∧
      ∀ j < p.size, p.Admits comparator key j → j ≤ i) ∧
      (∀ key zero, (p.setKeyAt 0 zero).lookup comparator key = p.lookup comparator key) ∧
      (∀ key key', ¬ comparator key' key →
        p.childIndex comparator key ≤ p.childIndex comparator key') ∧
      ∀ holds : Nat → K → Prop,
        (∀ i < p.size, ∀ key, holds i key → p.Admits comparator key i ∧
          (i + 1 < p.size → comparator key (p.keyAt (i + 1)))) →
        ∀ i < p.size, ∀ key, holds i key → p.lookup comparator key = p.valueAt i := by
  refine ⟨?_, ?_, ?_, ?_⟩
  · intro key
    obtain ⟨hlt, hadmits, hlast⟩ := childIndex_spec h hsize key
    exact ⟨p.childIndex comparator key, hlt, rfl, lookup_eq hsize key, hadmits, hlast⟩
  · intro key zero
    obtain ⟨hlt, hadmits, hlast⟩ := childIndex_spec h hsize key
    have hsame : (p.setKeyAt 0 zero).childIndex comparator key = p.childIndex comparator key := by
      refine childIndex_eq (h.setKeyAt_zero zero) hsize hlt ?_ ?_
      · exact (admits_setKeyAt_zero zero key _).mpr hadmits
      · intro j hj hj'
        exact hlast j hj ((admits_setKeyAt_zero zero key j).mp hj')
    rw [lookup_eq hsize, lookup_eq (p := p.setKeyAt 0 zero) hsize, hsame, valueAt_setKeyAt_zero]
  · intro key key' hle
    obtain ⟨hlt, hadmits, -⟩ := childIndex_spec h hsize key
    exact (childIndex_spec h hsize key').2.2 _ hlt (hadmits.mono hle)
  · intro holds hranges i hi key hkey
    obtain ⟨hadmits, hnext⟩ := hranges i hi key hkey
    have hchild : p.childIndex comparator key = i := by
      refine childIndex_eq h hsize hi hadmits ?_
      intro j hj hj'
      by_contra hgt
      exact h.not_admits (Nat.succ_pos i) (by omega) hj (hnext (by omega)) hj'
    rw [lookup_eq hsize, hchild]

/-- Three children with equal separators 5: keys below 5 go to the first, all others to the last. -/
theorem internal_page_routing_three :
    let p : BPlusTreeInternalPage Int Int :=
      ⟨⟨.internalPage, 0, 3, 3, -1, 1⟩, fun i => if i = 0 then (99, 10) else (5, 10 + (i : Int))⟩
    p.lookup (· < ·) 4 = 10 ∧ p.lookup (· < ·) 5 = 12 ∧
      ∀ key, ((p.setKeyAt 0 0).lookup (· < ·) key) = p.lookup (· < ·) key := by
  have h := internal_page_routing (· < · : Int → Int → Prop)
    ⟨⟨.internalPage, 0, 3, 3, -1, 1⟩, fun i => if i = 0 then (99, 10) else (5, 10 + (i : Int))⟩
    (by decide) (by
      intro i j hi hij hj
      show ¬ (if j = 0 then ((99 : Int), (10 : Int)) else (5, 10 + (j : Int))).1 <
        (if i = 0 then ((99 : Int), (10 : Int)) else (5, 10 + (i : Int))).1
      rw [if_neg (by omega), if_neg (by omega)]
      exact Int.lt_irrefl 5)
  exact ⟨by decide, by decide, fun key => h.2.1 key 0⟩

end BPlusTreeInternalPage

end Aqa
