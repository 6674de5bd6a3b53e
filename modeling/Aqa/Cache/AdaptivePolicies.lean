/-
# Aqa.Cache.AdaptivePolicies — which victim the policies choose.

Through `Tracks` the counts and the set of recent pages are statements about the window of the last
accesses, and the loops over the candidates return the earliest of the best ones. The neighbours of a
candidate are computed in `uint32_t`; below a 32-bit page count the successor does not wrap.
-/
import Aqa.Cache.EvictionPolicy
import Aqa.Lib.Earliest
import Aqa.Observer.SlidingWindow

namespace Aqa

open Aqa.Lib AccessObserver

/-- A page with a neighbouring id is among these. -/
def Adjacent (ids : List Nat) (pid : Nat) : Prop := pid + 1 ∈ ids ∨ ∃ q ∈ ids, q + 1 = pid

instance (ids : List Nat) (pid : Nat) : Decidable (Adjacent ids pid) := by
  unfold Adjacent
  infer_instance

theorem inRun_iff {ids : List Nat} {pid : Nat} (h : pid + 1 < 2 ^ 32) :
    inRun ids pid = true ↔ Adjacent ids pid := by
  unfold inRun Adjacent
  rw [u32_of_lt h, Bool.or_eq_true, Bool.and_eq_true, decide_eq_true_eq, List.contains_iff_mem,
    List.contains_iff_mem]
  constructor
  · rintro (hup | ⟨hpos, hdown⟩)
    · exact Or.inl hup
    · exact Or.inr ⟨pid - 1, hdown, by omega⟩
  · rintro (hup | ⟨q, hq, rfl⟩)
    · exact Or.inl hup
    · exact Or.inr ⟨by omega, hq⟩

/-- The loop over the candidates returns the earliest least one. -/
theorem earliestLeast_leastBy (value : Nat → Nat) (front : Nat) (rest : List Nat) :
    EarliestLeast value (front :: rest)
      (leastBy (fun a b => decide (a < b)) value front rest) := by
  -- the fold carries the best candidate with its value
  have hfold : ∀ rest : List Nat,
      let best := rest.foldl (fun best pid =>
        if decide (value pid < best.2) then (pid, value pid) else best) (front, value front)
      best.2 = value best.1 ∧ EarliestLeast value (front :: rest) best.1 := by
    intro rest
    induction rest using List.reverseRecOn with
    | nil => exact ⟨rfl, earliestLeast_singleton value front⟩
    | append_singleton rest pid ih =>
        obtain ⟨hvalue, hleast⟩ := ih
        have hconcat := hleast.concat pid
        rw [← List.cons_append, List.foldl_append, List.foldl_cons, List.foldl_nil]
        generalize rest.foldl (fun best pid =>
          if decide (value pid < best.2) then (pid, value pid) else best) (front, value front) =
          best at hvalue hconcat
        simp only [hvalue, decide_eq_true_eq]
        by_cases hlt : value pid < value best.1
        · rw [if_pos hlt] at hconcat ⊢
          exact ⟨rfl, hconcat⟩
        · rw [if_neg hlt] at hconcat ⊢
          exact ⟨hvalue, hconcat⟩
  exact (hfold rest).2

namespace AccessObserver.Tracks

variable {o : AccessObserver} {history : List PageAccessEvent}

theorem recentSet_eq (h : o.Tracks history) :
    o.recentSet = pageIds (window o.capacity history) := by
  have hlen := length_window o.capacity history
  rw [recentSet, getRecentPageIds, h.recent_eq (by omega)]
  rfl

/-- The candidate with the fewest accesses. -/
theorem earliestLeast_leastAccessed (h : o.Tracks history) {candidates : List Nat}
    (hne : candidates ≠ []) :
    EarliestLeast (fun p => (pageIds (window o.capacity history)).count p) candidates
      (leastAccessed o candidates) := by
  cases candidates with
  | nil => exact absurd rfl hne
  | cons front rest =>
      have hcount : o.getAccessCount = fun p => (pageIds (window o.capacity history)).count p :=
        funext h.count_eq
      rw [leastAccessed, hcount]
      exact earliestLeast_leastBy _ front rest

/-- The run test on the candidates of a file with a 32-bit page count. -/
theorem filter_inRun (h : o.Tracks history) {candidates : List Nat}
    (hsmall : ∀ p ∈ candidates, p + 1 < 2 ^ 32) :
    candidates.filter (inRun o.recentSet) =
      candidates.filter fun p => decide (Adjacent (pageIds (window o.capacity history)) p) := by
  apply List.filter_congr
  intro p hp
  rw [h.recentSet_eq, Bool.eq_iff_iff, inRun_iff (hsmall p hp), decide_eq_true_eq]

/-- The candidate of a run. -/
theorem firstInRun_cases (h : o.Tracks history) {candidates : List Nat}
    (hsmall : ∀ p ∈ candidates, p + 1 < 2 ^ 32) :
    Earliest (Adjacent (pageIds (window o.capacity history))) candidates
        (firstInRun o candidates) ∨
      ((∀ p ∈ candidates, ¬ Adjacent (pageIds (window o.capacity history)) p) ∧
        firstInRun o candidates = candidates.headD 0) := by
  rw [firstInRun, h.recentSet_eq]
  cases hfind : candidates.find? (inRun (pageIds (window o.capacity history))) with
  | none =>
      right
      refine ⟨fun p hp hadj => ?_, rfl⟩
      exact absurd ((inRun_iff (hsmall p hp)).mpr hadj) (List.find?_eq_none.mp hfind p hp)
  | some v =>
      left
      obtain ⟨before, after, rfl, hv, hbefore⟩ := earliest_of_find? hfind
      refine ⟨before, after, rfl, (inRun_iff (hsmall v (by simp))).mp hv, ?_⟩
      intro c hc hadj
      exact hbefore c hc ((inRun_iff (hsmall c (by simp [hc]))).mpr hadj)

end AccessObserver.Tracks

/-- **The adaptive policies choose the documented victim**: after any accesses, recorded in a ring of
any capacity, on any candidates below a 32-bit page count, every choice is described by the window of
the last accesses. -/
theorem adaptive_policies (ringCapacity : Nat) (hring : ringCapacity < 2 ^ 64)
    (accesses : List Access) (pageCount : Nat) (hcount : pageCount < 2 ^ 32)
    (candidates : List Nat) (hne : candidates ≠ []) (hids : ∀ p ∈ candidates, p < pageCount) :
    let o := observed ringCapacity accesses
    let W := pageIds (window (max ringCapacity 1) (accesses.map Access.event))
    let adjacent := candidates.filter fun p => decide (Adjacent W p)
    EarliestLeast (fun p => W.count p) candidates (lfuVictim (some o) candidates) ∧
      (Earliest (Adjacent W) candidates (scanResistantVictim (some o) candidates) ∨
        ((∀ p ∈ candidates, ¬ Adjacent W p) ∧
          scanResistantVictim (some o) candidates = candidates.head hne)) ∧
      EarliestLeast (fun p => W.count p) (if adjacent = [] then candidates else adjacent)
        (scanResistantThenLfuVictim (some o) candidates) ∧
      hintAwareVictim .scan (some o) candidates = scanResistantVictim (some o) candidates ∧
      hintAwareVictim .pointLookup (some o) candidates = lfuVictim (some o) candidates ∧
      lruVictim candidates ∈ candidates ∧
      (∀ policy : LearnedPolicy, (policy.chooseVictim (some o) candidates).1 ∈ candidates) ∧
      ∀ weights : Weights, loadedLearnedVictim weights (some o) candidates ∈ candidates := by
  have h := tracks_observed hring accesses
  have hcap := capacity_observed ringCapacity accesses
  have hsmall : ∀ p ∈ candidates, p + 1 < 2 ^ 32 := by
    intro p hp
    have := hids p hp
    omega
  intro o W adjacent
  have hW : W = pageIds (window o.capacity (accesses.map Access.event)) := by rw [hcap]
  have hlfu : lfuVictim (some o) candidates = leastAccessed o candidates := by
    cases candidates with
    | nil => exact absurd rfl hne
    | cons front rest => rfl
  have hscan : scanResistantVictim (some o) candidates = firstInRun o candidates := by
    cases candidates with
    | nil => exact absurd rfl hne
    | cons front rest => rfl
  refine ⟨?_, ?_, ?_, by rw [hintAwareVictim_scan], by rw [hintAwareVictim_pointLookup],
    headD_mem hne, ?_, ?_⟩
  · rw [hlfu, hW]
    exact h.earliestLeast_leastAccessed hne
  · rw [hscan, hW]
    have hhead : candidates.headD 0 = candidates.head hne := by
      cases candidates with
      | nil => exact absurd rfl hne
      | cons front rest => rfl
    rw [← hhead]
    exact h.firstInRun_cases hsmall
  · have hboth : scanResistantThenLfuVictim (some o) candidates =
        leastAccessed o (if adjacent = [] then candidates else adjacent) := by
      have hfilter : candidates.filter (inRun o.recentSet) = adjacent := by
        show _ = candidates.filter fun p => decide (Adjacent W p)
        rw [hW]
        exact h.filter_inRun hsmall
      cases candidates with
      | nil => exact absurd rfl hne
      | cons front rest =>
          unfold scanResistantThenLfuVictim
          simp only [hfilter, List.isEmpty_iff]
    rw [hboth, hW]
    apply h.earliestLeast_leastAccessed
    split
    · exact hne
    · assumption
  · exact fun policy => BuiltinPolicy.chooseVictim_mem .scan (some o) (.learned policy) hne
  · exact fun weights => BuiltinPolicy.chooseVictim_mem .scan (some o) (.loadedLearned weights) hne

/-- Pages 9, 3 and 4 after accesses to 4, 5 and 4. -/
theorem adaptive_policies_three :
    EarliestLeast (fun p => [4, 5, 4].count p) [9, 3, 4]
        (lfuVictim (some (observed 4 [.page 4 false, .page 5 false, .page 4 true])) [9, 3, 4]) ∧
      (Earliest (Adjacent [4, 5, 4]) [9, 3, 4] (scanResistantVictim
          (some (observed 4 [.page 4 false, .page 5 false, .page 4 true])) [9, 3, 4]) ∨
        ((∀ p ∈ [9, 3, 4], ¬ Adjacent [4, 5, 4] p) ∧ scanResistantVictim
          (some (observed 4 [.page 4 false, .page 5 false, .page 4 true])) [9, 3, 4] = 9)) := by
  obtain ⟨hlfu, hscan, -⟩ := adaptive_policies 4 (by decide)
    [.page 4 false, .page 5 false, .page 4 true] 10 (by decide) [9, 3, 4] (by decide) (by decide)
  exact ⟨hlfu, hscan⟩

-- page 3 is next to page 4, page 9 was not accessed
example :
    scanResistantVictim (some (observed 4 [.page 4 false, .page 5 false, .page 4 true])) [9, 3, 4] =
        3 ∧
      lfuVictim (some (observed 4 [.page 4 false, .page 5 false, .page 4 true])) [9, 3, 4] = 9 := by
  decide +kernel

end Aqa
