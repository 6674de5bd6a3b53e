/-
# Aqa.Lib.Ledger — resources that are acquired, used and released.

A ledger lists what was done to resources, in order. It is disciplined if no resource is acquired
twice and every use and every release is of a resource that is held at that moment, so that a
resource is released once at most, and nothing is done to it afterwards. Whether everything acquired
was released in the end is then a matter of what is still held (`releasedOnce_iff`).
-/
import Mathlib.Data.List.Count
import Mathlib.Data.List.Induction

namespace Aqa.Lib.Ledger

/-- What can be done to a resource. -/
inductive Event (R : Type*) where
  | acquire (r : R)
  | use (r : R)
  | release (r : R)
  deriving DecidableEq, Repr

variable {R : Type*}

/-- Acquired and not released. -/
def Held (ledger : List (Event R)) (r : R) : Prop := .acquire r ∈ ledger ∧ .release r ∉ ledger

instance [DecidableEq R] (ledger : List (Event R)) (r : R) : Decidable (Held ledger r) :=
  inferInstanceAs (Decidable (_ ∧ _))

/-- An event that may follow a ledger. -/
def Event.Allowed (ledger : List (Event R)) : Event R → Prop
  | .acquire r => .acquire r ∉ ledger
  | .use r => Held ledger r
  | .release r => Held ledger r

/-- Every event was allowed when it happened. -/
def Disciplined (ledger : List (Event R)) : Prop :=
  ∀ before e after, ledger = before ++ e :: after → e.Allowed before

theorem disciplined_nil : Disciplined ([] : List (Event R)) := by
  intro before e after h
  simp at h

theorem disciplined_concat_iff {ledger : List (Event R)} {e : Event R} :
    Disciplined (ledger ++ [e]) ↔ Disciplined ledger ∧ e.Allowed ledger := by
  constructor
  · intro h
    refine ⟨fun before e' after heq => ?_, h ledger e [] rfl⟩
    exact h before e' (after ++ [e]) (by rw [heq, List.append_assoc, List.cons_append])
  · rintro ⟨h, he⟩ before e' after heq
    rcases List.eq_nil_or_concat after with rfl | ⟨after', last, rfl⟩
    · obtain ⟨rfl, hlast⟩ := List.append_inj' heq rfl
      cases hlast
      exact he
    · rw [List.concat_eq_append, ← List.cons_append, ← List.append_assoc] at heq
      exact h before e' after' (List.append_inj' heq rfl).1

/-! ## What is held -/

variable {ledger : List (Event R)} {r r' : R}

theorem held_use : Held (ledger ++ [.use r']) r ↔ Held ledger r := by
  simp [Held]

theorem held_release : Held (ledger ++ [.release r']) r ↔ Held ledger r ∧ r ≠ r' := by
  simp [Held, and_assoc]

/-- Nothing is released that was not acquired. -/
theorem Disciplined.acquired (h : Disciplined ledger) (hr : .release r ∈ ledger) :
    .acquire r ∈ ledger := by
  obtain ⟨before, after, rfl⟩ := List.append_of_mem hr
  have hheld : Held before r := h before (.release r) after rfl
  exact List.mem_append_left _ hheld.1

theorem Disciplined.held_acquire (h : Disciplined (ledger ++ [.acquire r'])) :
    Held (ledger ++ [.acquire r']) r ↔ Held ledger r ∨ r = r' := by
  obtain ⟨hledger, hnew⟩ := disciplined_concat_iff.mp h
  have hfree : .release r' ∉ ledger := fun hrel => hnew (hledger.acquired hrel)
  unfold Held
  by_cases hr : r = r'
  · subst hr
    simp [hfree]
  · simp [hr]

variable [DecidableEq R]

/-- No resource is released twice. -/
theorem Disciplined.count_release_le (h : Disciplined ledger) (r : R) :
    ledger.count (.release r) ≤ 1 := by
  induction ledger using List.reverseRecOn with
  | nil => simp
  | append_singleton ledger e ih =>
      obtain ⟨hledger, he⟩ := disciplined_concat_iff.mp h
      rw [List.count_append, List.count_singleton]
      by_cases heq : e = .release r
      · subst heq
        have hnone : ledger.count (.release r) = 0 := List.count_eq_zero.mpr he.2
        rw [hnone]
        split <;> omega
      · rw [if_neg (by simpa using heq)]
        exact ih hledger

/-- **Everything acquired was released exactly once** exactly if nothing is held any more. -/
theorem Disciplined.releasedOnce_iff (h : Disciplined ledger) :
    (∀ r, .acquire r ∈ ledger → ledger.count (.release r) = 1) ↔ ∀ r, ¬ Held ledger r := by
  constructor
  · intro honce r hheld
    have hone := honce r hheld.1
    rw [List.count_eq_zero.mpr hheld.2] at hone
    cases hone
  · intro hnone r hacq
    have hrel : .release r ∈ ledger := by
      by_contra hnot
      exact hnone r ⟨hacq, hnot⟩
    have hpos := List.count_pos_iff.mpr hrel
    have hle := h.count_release_le r
    omega

end Aqa.Lib.Ledger
