/-
# Aqa.Lib.Window — the last entries of a growing list.

`window cap l` is what a bounded memory of the most recent `cap` entries of `l` should hold. A ring
of `cap` slots that puts entry `i` into slot `i % cap` holds exactly that (`Ring`): every entry of the
window is still in its slot, and the next one overwrites the one that falls out.
-/
import Mathlib.Data.List.Count
import Mathlib.Data.List.AList
import Mathlib.Data.Nat.ModEq

namespace Aqa.Lib

variable {α : Type*}

/-- The last `cap` entries. -/
def window (cap : Nat) (l : List α) : List α := l.drop (l.length - cap)

theorem length_window (cap : Nat) (l : List α) : (window cap l).length = min l.length cap := by
  rw [window, List.length_drop]
  omega

theorem window_of_le {cap : Nat} {l : List α} (h : l.length ≤ cap) : window cap l = l := by
  rw [window, Nat.sub_eq_zero_of_le h, List.drop_zero]

theorem getElem?_window (cap : Nat) (l : List α) (i : Nat) :
    (window cap l)[i]? = l[l.length - cap + i]? := by
  rw [window, List.getElem?_drop]

theorem window_map {β : Type*} (f : α → β) (cap : Nat) (l : List α) :
    window cap (l.map f) = (window cap l).map f := by
  rw [window, window, List.length_map, List.map_drop]

/-- While there is room a new entry joins the window. -/
theorem window_concat_of_lt {cap : Nat} {l : List α} (h : l.length < cap) (a : α) :
    window cap (l ++ [a]) = window cap l ++ [a] := by
  rw [window_of_le (Nat.le_of_lt h), window_of_le]
  rw [List.length_append, List.length_singleton]
  exact h

/-- A full window loses its oldest entry to a new one. -/
theorem window_concat_of_le {cap : Nat} (hcap : 0 < cap) {l : List α} (h : cap ≤ l.length) (a : α) :
    ∃ old, l[l.length - cap]? = some old ∧
      window cap l = old :: window (cap - 1) l ∧
      window cap (l ++ [a]) = window (cap - 1) l ++ [a] := by
  have hlt : l.length - cap < l.length := by omega
  refine ⟨l[l.length - cap], List.getElem?_eq_getElem hlt, ?_, ?_⟩
  · rw [window, window, List.drop_eq_getElem_cons hlt]
    congr 2
    omega
  · rw [window, window, List.length_append, List.length_singleton,
      List.drop_append_of_le_length (by omega)]
    congr 2
    omega

/-- A new entry brings nothing else into the window. -/
theorem window_concat_subset (cap : Nat) (l : List α) (a : α) :
    window cap (l ++ [a]) ⊆ a :: window cap l := by
  intro b hb
  unfold window at hb ⊢
  rw [List.length_append, List.length_singleton, List.drop_append] at hb
  rcases List.mem_append.mp hb with hb | hb
  · refine List.mem_cons_of_mem a ?_
    have hle : l.length - cap ≤ l.length + 1 - cap := by omega
    rw [← Nat.add_sub_cancel' hle, ← List.drop_drop] at hb
    exact List.mem_of_mem_drop hb
  · rw [List.mem_singleton.mp (List.mem_of_mem_drop hb)]
    exact List.mem_cons_self

theorem mem_window_concat {cap : Nat} (hcap : 0 < cap) (l : List α) (a : α) :
    a ∈ window cap (l ++ [a]) := by
  unfold window
  rw [List.length_append, List.length_singleton, List.drop_append_of_le_length (by omega)]
  exact List.mem_append_right _ (List.mem_singleton_self a)

/-- The last entries of a window are the last entries of the list. -/
theorem window_window {m cap : Nat} {l : List α} (h : m ≤ (window cap l).length) :
    window m (window cap l) = window m l := by
  rw [length_window] at h
  rw [window, length_window, window, window, List.drop_drop]
  congr 1
  omega

/-- Every entry comes again `d` positions later, as far as the list goes. -/
def RepeatsBy (d : Nat) (l : List α) : Prop := ∀ i, i + d < l.length → l[i]? = l[i + d]?

instance [DecidableEq α] (d : Nat) (l : List α) : Decidable (RepeatsBy d l) :=
  decidable_of_iff (∀ i < l.length - d, l[i]? = l[i + d]?)
    (forall_congr' fun i => by rw [Nat.lt_sub_iff_add_lt])

/-- The first `m` entries are the last `m` ones exactly if the list repeats with the period between
them. -/
theorem take_eq_window_iff {m : Nat} {l : List α} (h : m ≤ l.length) :
    l.take m = window m l ↔ RepeatsBy (l.length - m) l := by
  constructor
  · intro heq i hi
    have hget : (l.take m)[i]? = (window m l)[i]? := by rw [heq]
    rw [List.getElem?_take_of_lt (by omega), getElem?_window] at hget
    rw [hget, Nat.add_comm]
  · intro hrepeats
    apply List.ext_getElem?
    intro i
    rw [getElem?_window]
    by_cases hi : i < m
    · rw [List.getElem?_take_of_lt hi, hrepeats i (by omega), Nat.add_comm]
    · -- both lists have ended
      rw [List.getElem?_take_eq_none (by omega), List.getElem?_eq_none (by omega)]

/-- Slots that hold the window of `l`, entry `i` in slot `i % cap`. -/
structure Ring (cap : Nat) (slots : List α) (l : List α) : Prop where
  length : slots.length = cap
  holds : ∀ i < l.length, l.length ≤ i + cap → slots[i % cap]? = l[i]?

theorem ring_nil {cap : Nat} (slots : List α) (h : slots.length = cap) : Ring cap slots [] where
  length := h
  holds := by simp

/-- Writing the next entry to its slot. -/
theorem Ring.push {cap : Nat} (hcap : 0 < cap) {slots l : List α} (h : Ring cap slots l) (a : α) :
    Ring cap (slots.set (l.length % cap) a) (l ++ [a]) where
  length := by rw [List.length_set, h.length]
  holds := by
    intro i hi hin
    rw [List.length_append, List.length_singleton] at hi hin
    have hslot : l.length % cap < slots.length := by
      rw [h.length]
      exact Nat.mod_lt _ hcap
    rcases Nat.lt_succ_iff_lt_or_eq.mp hi with hlt | rfl
    · -- two positions less than `cap` apart have different slots
      have hne : l.length % cap ≠ i % cap := by
        intro heq
        have hmod : i ≡ l.length [MOD cap] := heq.symm
        have hdvd := (Nat.modEq_iff_dvd' (Nat.le_of_lt hlt)).mp hmod
        have := Nat.le_of_dvd (by omega) hdvd
        omega
      rw [List.getElem?_set_ne hne, List.getElem?_append_left hlt]
      exact h.holds i hlt (by omega)
    · rw [List.getElem?_set_self hslot, List.getElem?_append_right le_rfl, Nat.sub_self]
      rfl

end Aqa.Lib
