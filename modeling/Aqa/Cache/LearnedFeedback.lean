/-
# Aqa.Cache.LearnedFeedback — the labels of the learned policy.

`choose_victim` remembers the page it returned and the total at that moment, and settles it at a later
call with the label "the page is in the observer's window". The window may reach back behind the
eviction. `feedback_sound_iff` says when the label is the one that was asked for: unless the page is
still in the window from before its eviction and was not used since.
-/
import Aqa.Cache.EvictionPolicy
import Aqa.Observer.SlidingWindow

namespace Aqa

open Aqa.Lib AccessObserver

namespace LearnedPolicy

/-- The page and the label `choose_victim` passes to `update_weights`, when it settles. -/
def feedback (p : LearnedPolicy) (o : AccessObserver) : Option (Nat × Bool) :=
  match p.lastEvictedPageId with
  | some pageId =>
      if o.totalRecorded ≥ u64 (p.lastEvictionTotal + p.feedbackHorizon) then
        some (pageId, decide (o.getLastIndexInRecent pageId < o.capacity))
      else none
  | none => none

/-- Settling is an update with that label. -/
theorem settle_eq_feedback (p : LearnedPolicy) (o : AccessObserver) :
    p.settle o =
      match p.feedback o with
      | some (_, label) =>
          { p with
            weights := p.weights.update p.learningRate p.lastEvictedFeatures label
            lastEvictedPageId := none }
      | none => p := by
  unfold settle feedback
  cases p.lastEvictedPageId with
  | none => rfl
  | some pageId =>
      dsimp only
      split <;> rfl

end LearnedPolicy

/-! ## Runs -/

/-- A step of a system with an observer and a learned policy. -/
inductive PolicyTurn where
  | access (a : Access)
  | choose (unpinned : List Nat)
  deriving DecidableEq, Repr

/-- The observer and the policy that looks at it. -/
structure LearnedRun where
  observer : AccessObserver
  policy : LearnedPolicy

namespace LearnedRun

/-- The start of a run. -/
def start (ringCapacity feedbackHorizon : Nat) (learningRate : Float) : LearnedRun :=
  ⟨AccessObserver.new ringCapacity, LearnedPolicy.new feedbackHorizon learningRate⟩

/-- The victim a call would return. -/
def victim (s : LearnedRun) (unpinned : List Nat) : Nat :=
  (s.policy.chooseVictim (some s.observer) unpinned).1

/-- The effect of a turn. -/
def step (s : LearnedRun) : PolicyTurn → LearnedRun
  | .access a => { s with observer := s.observer.access a }
  | .choose unpinned =>
      { s with policy := (s.policy.chooseVictim (some s.observer) unpinned).2 }

/-- The effect of some turns. -/
def run (s : LearnedRun) (turns : List PolicyTurn) : LearnedRun := turns.foldl step s

theorem run_concat (s : LearnedRun) (turns : List PolicyTurn) (t : PolicyTurn) :
    s.run (turns ++ [t]) = (s.run turns).step t := by
  rw [run, List.foldl_append]
  rfl

end LearnedRun

/-- The events recorded by some turns. -/
def eventsOf (turns : List PolicyTurn) : List PageAccessEvent :=
  turns.filterMap fun
    | .access a => some a.event
    | .choose _ => none

theorem eventsOf_append (turns more : List PolicyTurn) :
    eventsOf (turns ++ more) = eventsOf turns ++ eventsOf more := List.filterMap_append

/-- The last eviction among some turns: the page returned and the turns before it. -/
def EvictedLast (s : LearnedRun) (turns : List PolicyTurn) (pageId total : Nat) : Prop :=
  ∃ before unpinned after, turns = before ++ .choose unpinned :: after ∧ unpinned ≠ [] ∧
    (s.run before).victim unpinned = pageId ∧ total = (eventsOf before).length ∧
    ∀ unpinned', .choose unpinned' ∈ after → unpinned' = []

theorem EvictedLast.concat {s : LearnedRun} {turns : List PolicyTurn} {pageId total : Nat}
    (h : EvictedLast s turns pageId total) {t : PolicyTurn}
    (ht : ∀ unpinned, t = .choose unpinned → unpinned = []) :
    EvictedLast s (turns ++ [t]) pageId total := by
  obtain ⟨before, unpinned, after, rfl, hne, hvictim, htotal, hafter⟩ := h
  refine ⟨before, unpinned, after ++ [t], by simp, hne, hvictim, htotal, ?_⟩
  intro unpinned' hmem
  rcases List.mem_append.mp hmem with hmem | hmem
  · exact hafter unpinned' hmem
  · exact ht unpinned' (List.mem_singleton.mp hmem).symm

/-- What a run keeps: the window of the events, and the last eviction while it is pending. -/
structure RunHolds (s : LearnedRun) (turns : List PolicyTurn) : Prop where
  tracks : (s.run turns).observer.Tracks (eventsOf turns)
  pending : ∀ pageId, (s.run turns).policy.lastEvictedPageId = some pageId →
    EvictedLast s turns pageId (s.run turns).policy.lastEvictionTotal

theorem runHolds {ringCapacity : Nat} (hring : ringCapacity < 2 ^ 64) (feedbackHorizon : Nat)
    (learningRate : Float) (turns : List PolicyTurn) :
    RunHolds (LearnedRun.start ringCapacity feedbackHorizon learningRate) turns := by
  induction turns using List.reverseRecOn with
  | nil => exact ⟨tracks_new hring, fun pageId hp => absurd hp (by simp [LearnedRun.run,
      LearnedRun.start, LearnedPolicy.new])⟩
  | append_singleton turns t ih =>
      generalize LearnedRun.start ringCapacity feedbackHorizon learningRate = s at ih ⊢
      cases t with
      | access a =>
          refine ⟨?_, ?_⟩
          · rw [LearnedRun.run_concat, eventsOf_append]
            exact ih.tracks.access a
          · rw [LearnedRun.run_concat]
            intro pageId hp
            exact (ih.pending pageId hp).concat (by simp)
      | choose unpinned =>
          refine ⟨?_, ?_⟩
          · rw [LearnedRun.run_concat, eventsOf_append]
            show (s.run turns).observer.Tracks (eventsOf turns ++ [])
            rw [List.append_nil]
            exact ih.tracks
          · rw [LearnedRun.run_concat]
            intro pageId hp
            cases unpinned with
            | nil => exact (ih.pending pageId hp).concat (by simp)
            | cons front rest =>
                -- the call replaces whatever was pending by its own victim
                have hvictim : (s.run turns).victim (front :: rest) = pageId := Option.some.inj hp
                exact ⟨turns, front :: rest, [], rfl, by simp, hvictim, ih.tracks.total, by simp⟩

/-! ## Labels -/

/-- The label asked for: it is 1 only if the page occurs behind the first `total` events, and it is 1
if the page occurs among those of them that are still in the window. -/
def LabelSound (capacity : Nat) (history : List PageAccessEvent) (total pageId : Nat)
    (label : Bool) : Prop :=
  (label = true → pageId ∈ pageIds (history.drop total)) ∧
    (pageId ∈ pageIds ((window capacity history).drop (total - (history.length - capacity))) →
      label = true)

/-- The page is in the window from before its eviction, and was not used since. -/
def Stale (capacity : Nat) (history : List PageAccessEvent) (total pageId : Nat) : Prop :=
  pageId ∈ pageIds ((window capacity history).take (total - (history.length - capacity))) ∧
    pageId ∉ pageIds (history.drop total)

instance (capacity : Nat) (history : List PageAccessEvent) (total pageId : Nat) :
    Decidable (Stale capacity history total pageId) := by
  unfold Stale
  infer_instance

/-- The part of the window behind the first `total` events consists of events behind them. -/
theorem mem_drop_of_mem_window {capacity total pageId : Nat} {history : List PageAccessEvent}
    (h : pageId ∈
      pageIds ((window capacity history).drop (total - (history.length - capacity)))) :
    pageId ∈ pageIds (history.drop total) := by
  rw [window, List.drop_drop] at h
  obtain ⟨e, he, rfl⟩ := List.mem_map.mp h
  apply List.mem_map_of_mem
  have hsplit : history.length - capacity + (total - (history.length - capacity)) =
      total + (history.length - capacity + (total - (history.length - capacity)) - total) := by
    omega
  rw [hsplit, ← List.drop_drop] at he
  exact List.mem_of_mem_drop he

theorem labelSound_iff {capacity total pageId : Nat} {history : List PageAccessEvent} :
    LabelSound capacity history total pageId
        (decide (pageId ∈ pageIds (window capacity history))) ↔
      ¬ Stale capacity history total pageId := by
  have hsplit : pageId ∈ pageIds (window capacity history) ↔
      pageId ∈ pageIds ((window capacity history).take (total - (history.length - capacity))) ∨
        pageId ∈ pageIds ((window capacity history).drop (total - (history.length - capacity))) := by
    conv_lhs => rw [← List.take_append_drop (total - (history.length - capacity))
      (window capacity history)]
    rw [pageIds, List.map_append, List.mem_append]
    rfl
  unfold LabelSound Stale
  rw [decide_eq_true_eq, hsplit]
  constructor
  · rintro ⟨honly, -⟩ ⟨hbefore, hnot⟩
    exact hnot (honly (Or.inl hbefore))
  · intro hfresh
    refine ⟨?_, Or.inr⟩
    rintro (hbefore | hafter)
    · by_contra hnot
      exact hfresh ⟨hbefore, hnot⟩
    · exact mem_drop_of_mem_window hafter

/-- **When the labels are right.** In every run, feedback that is settled is for the page returned
last; its label is the one asked for exactly when the page is not in the window merely from before
its eviction. -/
theorem feedback_sound_iff (ringCapacity : Nat) (hring : ringCapacity < 2 ^ 64)
    (feedbackHorizon : Nat) (learningRate : Float) (turns : List PolicyTurn) (pageId : Nat)
    (label : Bool) :
    let s := LearnedRun.start ringCapacity feedbackHorizon learningRate
    (s.run turns).policy.feedback (s.run turns).observer = some (pageId, label) →
      (∃ total, EvictedLast s turns pageId total) ∧
        ∀ total, EvictedLast s turns pageId total →
          (LabelSound (s.run turns).observer.capacity (eventsOf turns) total pageId label ↔
            ¬ Stale (s.run turns).observer.capacity (eventsOf turns) total pageId) := by
  intro s hfeedback
  have hrun := runHolds hring feedbackHorizon learningRate turns
  unfold LearnedPolicy.feedback at hfeedback
  cases hpending : (s.run turns).policy.lastEvictedPageId with
  | none =>
      rw [hpending] at hfeedback
      exact absurd hfeedback (by simp)
  | some p =>
      rw [hpending] at hfeedback
      dsimp only at hfeedback
      split at hfeedback
      · simp only [Option.some.injEq, Prod.mk.injEq] at hfeedback
        obtain ⟨rfl, rfl⟩ := hfeedback
        refine ⟨⟨_, hrun.pending p hpending⟩, fun total _ => ?_⟩
        have hlabel : (s.run turns).observer.getLastIndexInRecent p <
            (s.run turns).observer.capacity ↔
              p ∈ pageIds (window (s.run turns).observer.capacity (eventsOf turns)) := by
          rw [hrun.tracks.lastIndex_eq]
          split
          · rename_i hmem
            refine iff_of_true ?_ hmem
            have hlt := List.idxOf_lt_length_of_mem (List.mem_reverse.mpr hmem)
            rw [List.length_reverse, pageIds, List.length_map, length_window] at hlt
            exact lt_of_lt_of_le hlt (Nat.min_le_right _ _)
          · rename_i hnot
            exact iff_of_false (lt_irrefl _) hnot
        rw [← labelSound_iff]
        simp only [hlabel]
      · exact absurd hfeedback (by simp)

/-- An access to page 7, its eviction, an access to page 8. -/
def evictThenOther : List PolicyTurn :=
  [.access (.page 7 false), .choose [7], .access (.page 8 false)]

/-- Page 7 is evicted and used again. -/
theorem feedback_sound_iff_reused :
    let s := LearnedRun.start 4 2 0.05
    let turns := evictThenOther ++ [.access (.page 7 false)]
    (∃ total, EvictedLast s turns 7 total) ∧ ∀ total, EvictedLast s turns 7 total →
      (LabelSound (s.run turns).observer.capacity (eventsOf turns) total 7 true ↔
        ¬ Stale (s.run turns).observer.capacity (eventsOf turns) total 7) :=
  feedback_sound_iff 4 (by decide) 2 0.05 (evictThenOther ++ [.access (.page 7 false)]) 7 true
    (by decide +kernel)

/-- Page 7 is not used after its eviction, and is settled with label 1 all the same: the ring of four
still holds the access before the eviction. -/
theorem feedback_label_stale :
    ¬ ∀ (ringCapacity feedbackHorizon : Nat) (learningRate : Float) (turns : List PolicyTurn)
        (pageId : Nat) (label : Bool), ringCapacity < 2 ^ 64 →
      let s := LearnedRun.start ringCapacity feedbackHorizon learningRate
      (s.run turns).policy.feedback (s.run turns).observer = some (pageId, label) →
        ∀ total, EvictedLast s turns pageId total →
          LabelSound (s.run turns).observer.capacity (eventsOf turns) total pageId label := by
  intro hsound
  have hlast : EvictedLast (LearnedRun.start 4 1 0.05) evictThenOther 7 1 :=
    ⟨[.access (.page 7 false)], [7], [.access (.page 8 false)], rfl, by simp, rfl, rfl, by simp⟩
  have hlabel := (hsound 4 1 0.05 evictThenOther 7 true (by decide) (by decide +kernel) 1 hlast).1
    rfl
  exact absurd hlabel (by decide)

end Aqa
