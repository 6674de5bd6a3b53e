/-
# Aqa.Lib.Schedule — systems driven by a schedule.

A system takes a step for each turn of a schedule. Whatever each step keeps, every run keeps; and
when the turns of one kind lower a rank by one while the others leave it alone, a run lowers it by
the number of such turns, so that enough of them bring the rank down to zero under any schedule.

The parties of a system stand in a list; `countP_set_add` says how a count of them changes when one
of them takes a step. Where such counts are kept for many keys at once, `update_succ_eq` and
`update_pred_eq` compare them with a table in which one entry goes up or down.
-/
import Mathlib.Data.List.Basic
import Mathlib.Logic.Function.Basic

namespace Aqa.Lib.Schedule

variable {S T : Type*}

/-- The state after the turns of a schedule. -/
def run (step : S → T → S) (schedule : List T) (s : S) : S := schedule.foldl step s

variable {step : S → T → S}

theorem run_append (schedule schedule' : List T) (s : S) :
    run step (schedule ++ schedule') s = run step schedule' (run step schedule s) :=
  List.foldl_append

/-- What every step keeps, every run keeps. -/
theorem run_invariant {Inv : S → Prop} (hstep : ∀ s t, Inv s → Inv (step s t)) (schedule : List T)
    {s : S} (h : Inv s) : Inv (run step schedule s) := by
  induction schedule generalizing s with
  | nil => exact h
  | cons t schedule ih => exact ih (hstep s t h)

/-- A rank that the counted turns lower by one, and no other turn changes. -/
theorem run_rank {Inv : S → Prop} (hstep : ∀ s t, Inv s → Inv (step s t)) (rank : S → Nat)
    {counts : T → Bool}
    (hrank : ∀ s t, Inv s → rank (step s t) = if counts t then rank s - 1 else rank s)
    (schedule : List T) {s : S} (h : Inv s) :
    rank (run step schedule s) = rank s - schedule.countP counts := by
  induction schedule generalizing s with
  | nil => rfl
  | cons t schedule ih =>
      show rank (run step schedule (step s t)) = _
      rw [ih (hstep s t h), hrank s t h, List.countP_cons]
      split <;> omega

/-- States that can be reached. -/
def Reaches (step : S → T → S) (s s' : S) : Prop := ∃ schedule, run step schedule s = s'

theorem Reaches.refl (s : S) : Reaches step s s := ⟨[], rfl⟩

theorem Reaches.turn {s s' : S} (h : Reaches step s s') (t : T) : Reaches step s (step s' t) := by
  obtain ⟨schedule, rfl⟩ := h
  exact ⟨schedule ++ [t], run_append schedule [t] s⟩

theorem Reaches.trans {s s' s'' : S} (h : Reaches step s s') (h' : Reaches step s' s'') :
    Reaches step s s'' := by
  obtain ⟨schedule, rfl⟩ := h
  obtain ⟨schedule', rfl⟩ := h'
  exact ⟨schedule ++ schedule', run_append schedule schedule' s⟩

/-- Replacing an entry changes a count by the old entry and the new one. -/
theorem countP_set_add {parties : List T} {i : Nat} {t : T} (hi : parties[i]? = some t) (t' : T)
    (counts : T → Bool) :
    (parties.set i t').countP counts + (if counts t then 1 else 0) =
      parties.countP counts + (if counts t' then 1 else 0) := by
  obtain ⟨hlt, hget⟩ := List.getElem?_eq_some_iff.mp hi
  rw [List.countP_set hlt, hget]
  have hpos : counts t = true → 0 < parties.countP counts := fun hcount =>
    List.countP_pos_iff.mpr ⟨_, List.mem_of_getElem? hi, hcount⟩
  split
  · have := hpos (by assumption)
    omega
  · omega

section Counts

variable {K : Type*} [DecidableEq K] {f g : K → Nat} {p : K}

/-- One entry has gone up. -/
theorem update_succ_eq (h : ∀ k, g k = f k + if k = p then 1 else 0) :
    Function.update f p (f p + 1) = g := by
  funext k
  rw [h k]
  by_cases hk : k = p
  · subst hk
    rw [Function.update_self, if_pos rfl]
  · rw [Function.update_of_ne hk, if_neg hk, Nat.add_zero]

/-- One entry has gone down. -/
theorem update_pred_eq (h : ∀ k, f k = g k + if k = p then 1 else 0) :
    Function.update f p (f p - 1) = g := by
  funext k
  by_cases hk : k = p
  · subst hk
    rw [Function.update_self, h k, if_pos rfl, Nat.add_sub_cancel]
  · rw [Function.update_of_ne hk, h k, if_neg hk, Nat.add_zero]

end Counts

end Aqa.Lib.Schedule
