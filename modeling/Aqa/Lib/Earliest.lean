/-
# Aqa.Lib.Earliest — the first entry of a list with a property, or with the least value.

Loops that keep the best entry seen so far return the earliest of the best ones. `Earliest` and
`EarliestLeast` say so by splitting the list at the entry returned.
-/
import Mathlib.Data.List.Basic
import Mathlib.Order.Lattice

namespace Aqa.Lib

variable {α ν : Type*}

/-- `v` has the property and no entry before it does. -/
def Earliest (P : α → Prop) (l : List α) (v : α) : Prop :=
  ∃ before after, l = before ++ v :: after ∧ P v ∧ ∀ c ∈ before, ¬ P c

theorem earliest_of_find? {p : α → Bool} {l : List α} {v : α} (h : l.find? p = some v) :
    Earliest (fun c => p c = true) l v := by
  obtain ⟨hv, before, after, rfl, hbefore⟩ := List.find?_eq_some_iff_append.mp h
  exact ⟨before, after, rfl, hv, fun c hc => by simpa using hbefore c hc⟩

variable [LinearOrder ν]

/-- `v` has the least value, and every entry before it a greater one. -/
def EarliestLeast (value : α → ν) (l : List α) (v : α) : Prop :=
  ∃ before after, l = before ++ v :: after ∧ (∀ c ∈ before, value v < value c) ∧
    ∀ c ∈ after, value v ≤ value c

theorem earliestLeast_singleton (value : α → ν) (v : α) : EarliestLeast value [v] v :=
  ⟨[], [], rfl, by simp, by simp⟩

theorem EarliestLeast.le {value : α → ν} {l : List α} {v : α} (h : EarliestLeast value l v) :
    ∀ c ∈ l, value v ≤ value c := by
  obtain ⟨before, after, rfl, hbefore, hafter⟩ := h
  intro c hc
  rcases List.mem_append.mp hc with hc | hc
  · exact le_of_lt (hbefore c hc)
  · rcases List.mem_cons.mp hc with rfl | hc
    · exact le_rfl
    · exact hafter c hc

/-- One more entry takes the place of the best one when its value is less. -/
theorem EarliestLeast.concat {value : α → ν} {l : List α} {v : α} (h : EarliestLeast value l v)
    (c : α) : EarliestLeast value (l ++ [c]) (if value c < value v then c else v) := by
  split
  · rename_i hlt
    exact ⟨l, [], rfl, fun d hd => lt_of_lt_of_le hlt (h.le d hd), by simp⟩
  · rename_i hnot
    obtain ⟨before, after, rfl, hbefore, hafter⟩ := h
    refine ⟨before, after ++ [c], by simp, hbefore, ?_⟩
    intro d hd
    rcases List.mem_append.mp hd with hd | hd
    · exact hafter d hd
    · rw [List.mem_singleton.mp hd]
      exact not_lt.mp hnot

end Aqa.Lib
