/-
# Aqa.Lib.WriteBack — what a write-back cache shows.

A store holds a value for every key. Some keys are mapped to frames, and for those the frame counts,
not the store: `view` is what a reader sees. Loading a key into an unused frame, writing a frame
back, and dropping a key whose frame has been written back leave the view as it is; writing a frame
changes the view at its key alone, as long as no two keys share a frame.
-/
import Mathlib.Logic.Function.Basic

namespace Aqa.Lib.WriteBack

variable {K F V : Type*} {store : K → V} {table : K → Option F} {frame : F → V}

/-- What a reader sees at a key. -/
def view (store : K → V) (table : K → Option F) (frame : F → V) (k : K) : V :=
  match table k with
  | some f => frame f
  | none => store k

theorem view_of_mapped {k : K} {f : F} (h : table k = some f) :
    view store table frame k = frame f := by
  unfold view
  rw [h]

theorem view_of_unmapped {k : K} (h : table k = none) : view store table frame k = store k := by
  unfold view
  rw [h]

section Steps

variable [DecidableEq K]

/-- Writing a frame back changes the store only where the frame counts. -/
theorem view_flush (store : K → V) (frame : F → V) {k : K} {f : F} (h : table k = some f) :
    view (Function.update store k (frame f)) table frame = view store table frame := by
  funext q
  by_cases hq : q = k
  · subst hq
    rw [view_of_mapped h, view_of_mapped h]
  · unfold view
    rw [Function.update_of_ne hq]

/-- Dropping a key after its frame has been written back. -/
theorem view_evict (store : K → V) (frame : F → V) {k : K} {f : F} (h : table k = some f) :
    view (Function.update store k (frame f)) (Function.update table k none) frame =
      view store table frame := by
  funext q
  by_cases hq : q = k
  · subst hq
    rw [view_of_mapped h, view_of_unmapped (Function.update_self _ _ _), Function.update_self]
  · unfold view
    rw [Function.update_of_ne hq, Function.update_of_ne hq]

variable [DecidableEq F]

/-- Loading a key into a frame nobody uses. -/
theorem view_load {k : K} {f : F} (h : table k = none) (hf : ∀ q, table q ≠ some f) :
    view store (Function.update table k (some f)) (Function.update frame f (store k)) =
      view store table frame := by
  funext q
  by_cases hq : q = k
  · subst hq
    rw [view_of_unmapped h, view_of_mapped (Function.update_self _ _ _), Function.update_self]
  · cases htable : table q with
    | none =>
        rw [view_of_unmapped htable, view_of_unmapped]
        rw [Function.update_of_ne hq, htable]
    | some g =>
        have hne : g ≠ f := by
          rintro rfl
          exact hf q htable
        rw [view_of_mapped htable, view_of_mapped (f := g), Function.update_of_ne hne]
        rw [Function.update_of_ne hq, htable]

/-- Writing a frame changes the view at its key alone. -/
theorem view_write {k : K} {f : F} (h : table k = some f) (hinj : ∀ q, table q = some f → q = k)
    (v : V) :
    view store table (Function.update frame f v) =
      Function.update (view store table frame) k v := by
  funext q
  by_cases hq : q = k
  · subst hq
    rw [view_of_mapped h, Function.update_self, Function.update_self]
  · rw [Function.update_of_ne hq]
    cases htable : table q with
    | none => rw [view_of_unmapped htable, view_of_unmapped htable]
    | some g =>
        have hne : g ≠ f := by
          rintro rfl
          exact hq (hinj q htable)
        rw [view_of_mapped htable, view_of_mapped htable, Function.update_of_ne hne]

end Steps

/-- The store alone shows the view exactly when every mapped key's frame is as the store has it. -/
theorem store_eq_view_iff (store : K → V) (table : K → Option F) (frame : F → V) :
    (∀ k, store k = view store table frame k) ↔ ∀ k f, table k = some f → frame f = store k := by
  constructor
  · intro h k f hk
    rw [h k, view_of_mapped hk]
  · intro h k
    cases hk : table k with
    | none => exact (view_of_unmapped hk).symm
    | some f => rw [view_of_mapped hk, h k f hk]

end Aqa.Lib.WriteBack
