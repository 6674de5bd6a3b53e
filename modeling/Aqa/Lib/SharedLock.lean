/-
# Aqa.Lib.SharedLock — parties around a lock that can be shared.

Each party holds the lock in a mode. `Compatible` is what such a lock sees to: a party that holds it
alone is the only one that holds it. The parties stand in a list, and each of the moves that a lock
allows replaces one of them: `canShare` and `canOwn` are the conditions under which it is granted.
-/
import Mathlib.Data.List.Basic

namespace Aqa.Lib.SharedLock

/-- How a party holds the lock. -/
inductive Mode where
  | free
  | shared
  | exclusive
  deriving DecidableEq, Repr

variable {P : Type*} {mode : P → Mode} {parties : List P} {i : Nat} {p p' : P}

/-- A party that holds the lock alone is the only one that holds it. -/
def Compatible (mode : P → Mode) (parties : List P) : Prop :=
  ∀ (i j : Nat) (p q : P), i ≠ j → parties[i]? = some p → parties[j]? = some q →
    mode p = .exclusive → mode q = .free

/-- The lock can be shared: nobody holds it alone. -/
def canShare (mode : P → Mode) (parties : List P) : Bool :=
  parties.all fun p => mode p ≠ .exclusive

/-- The lock can be had alone: nobody holds it. -/
def canOwn (mode : P → Mode) (parties : List P) : Bool := parties.all fun p => mode p = .free

theorem canShare_iff : canShare mode parties ↔ ∀ p ∈ parties, mode p ≠ .exclusive := by
  simp [canShare]

theorem canOwn_iff : canOwn mode parties ↔ ∀ p ∈ parties, mode p = .free := by
  simp [canOwn]

theorem compatible_of_free (h : ∀ p ∈ parties, mode p = .free) : Compatible mode parties := by
  intro i j p q _ _ hj _
  exact h q (List.mem_of_getElem? hj)

namespace Compatible

/-- One party changes its mode, and the others do not mind. -/
theorem set (h : Compatible mode parties)
    (hothers : ∀ (j : Nat) (q : P), j ≠ i → parties[j]? = some q →
      (mode p' = .exclusive → mode q = .free) ∧ (mode q = .exclusive → mode p' = .free)) :
    Compatible mode (parties.set i p') := by
  intro j k q r hjk hj hk hq
  rw [List.getElem?_set] at hj hk
  by_cases hij : i = j
  · subst hij
    rw [if_neg hjk] at hk
    rw [if_pos rfl] at hj
    split at hj
    · rw [← Option.some.inj hj] at hq
      exact (hothers k r (Ne.symm hjk) hk).1 hq
    · exact absurd hj (by simp)
  · rw [if_neg hij] at hj
    by_cases hik : i = k
    · rw [if_pos hik] at hk
      split at hk
      · rw [← Option.some.inj hk]
        exact (hothers j q (Ne.symm hij) hj).2 hq
      · exact absurd hk (by simp)
    · rw [if_neg hik] at hk
      exact h j k q r hjk hj hk hq

theorem share (h : Compatible mode parties) (hcan : canShare mode parties)
    (hp' : mode p' = .shared) : Compatible mode (parties.set i p') := by
  apply h.set
  intro j q _ hj
  refine ⟨fun hex => ?_, fun hex => ?_⟩
  · rw [hp'] at hex
    cases hex
  · exact absurd hex (canShare_iff.mp hcan q (List.mem_of_getElem? hj))

theorem own (h : Compatible mode parties) (hcan : canOwn mode parties) :
    Compatible mode (parties.set i p') := by
  apply h.set
  intro j q _ hj
  have hfree := canOwn_iff.mp hcan q (List.mem_of_getElem? hj)
  refine ⟨fun _ => hfree, fun hex => ?_⟩
  rw [hfree] at hex
  cases hex

/-- A party keeps its mode, or lets go of the lock. -/
theorem keep (h : Compatible mode parties) (hi : parties[i]? = some p)
    (hp' : mode p' = mode p ∨ mode p' = .free) : Compatible mode (parties.set i p') := by
  apply h.set
  intro j q hne hj
  rcases hp' with hsame | hfree
  · rw [hsame]
    exact ⟨fun hex => h i j p q (Ne.symm hne) hi hj hex, fun hex => h j i q p hne hj hi hex⟩
  · refine ⟨fun hex => ?_, fun _ => hfree⟩
    rw [hfree] at hex
    cases hex

/-- Beside a party that shares the lock nobody holds it alone. -/
theorem not_exclusive (h : Compatible mode parties) (hi : parties[i]? = some p)
    (hp : mode p = .shared) : ∀ q ∈ parties, mode q ≠ .exclusive := by
  intro q hq hex
  obtain ⟨j, hj⟩ := List.mem_iff_getElem?.mp hq
  by_cases hij : i = j
  · subst hij
    rw [hi] at hj
    rw [← Option.some.inj hj, hp] at hex
    cases hex
  · have hfree := h j i q p (Ne.symm hij) hj hi hex
    rw [hp] at hfree
    cases hfree

end Compatible

end Aqa.Lib.SharedLock
