/-
# Aqa.Cache.EvictionPolicy — the built-in page eviction policies.

Each policy picks a page among the unpinned ones, given in LRU order. A policy sees the access
window of an observer, which may be missing; `HintAware` also sees the workload hint, and `Learned`
keeps weights that it updates from one eviction to the next. Scores are doubles.

Whatever the observer, the hint and the weights, the page picked is one of those offered
(`chooseVictim_mem`).
-/
import Aqa.Observer.AccessObserver

namespace Aqa

/-- `WorkloadHint`. -/
inductive WorkloadHint where
  | pointLookup
  | scan
  deriving DecidableEq, Repr

/-- The window a policy looks at: `get_recent_page_ids(get_capacity())`. -/
def AccessObserver.recentSet (o : AccessObserver) : List Nat := o.getRecentPageIds o.capacity

/-- `in_run`: a page with a neighbouring id is in the window. -/
def inRun (recentSet : List Nat) (pid : Nat) : Bool :=
  recentSet.contains (u32 (pid + 1)) || (decide (pid > 0) && recentSet.contains (pid - 1))

/-- The loop over the candidates behind the first: the earliest one with the least value. -/
def leastBy {V : Type} (lt : V → V → Bool) (value : Nat → V) (front : Nat) (rest : List Nat) : Nat :=
  (rest.foldl (fun best pid => if lt (value pid) best.2 then (pid, value pid) else best)
    (front, value front)).1

/-- `LruPageEvictionPolicy::choose_victim`. -/
def lruVictim (unpinned : List Nat) : Nat := unpinned.headD 0

/-- The first candidate of a run, or the front. -/
def firstInRun (o : AccessObserver) (unpinned : List Nat) : Nat :=
  (unpinned.find? (inRun o.recentSet)).getD (unpinned.headD 0)

/-- The earliest candidate with the fewest accesses. -/
def leastAccessed (o : AccessObserver) : List Nat → Nat
  | [] => 0
  | front :: rest => leastBy (fun a b => decide (a < b)) o.getAccessCount front rest

/-- `ScanResistantPageEvictionPolicy::choose_victim`. -/
def scanResistantVictim (observer : Option AccessObserver) (unpinned : List Nat) : Nat :=
  match unpinned, observer with
  | [], _ => 0
  | front :: _, none => front
  | _, some o => firstInRun o unpinned

/-- `LfuPageEvictionPolicy::choose_victim`. -/
def lfuVictim (observer : Option AccessObserver) (unpinned : List Nat) : Nat :=
  match unpinned, observer with
  | [], _ => 0
  | front :: _, none => front
  | _, some o => leastAccessed o unpinned

/-- `ScanResistantThenLfuPageEvictionPolicy::choose_victim`. -/
def scanResistantThenLfuVictim (observer : Option AccessObserver) (unpinned : List Nat) : Nat :=
  match unpinned, observer with
  | [], _ => 0
  | front :: _, none => front
  | _, some o =>
      let scanCandidates := unpinned.filter (inRun o.recentSet)
      leastAccessed o (if scanCandidates.isEmpty then unpinned else scanCandidates)

/-- `HintAwarePageEvictionPolicy::choose_victim`: two loops of its own, of which the hint takes one. -/
def hintAwareVictim (hint : WorkloadHint) (observer : Option AccessObserver)
    (unpinned : List Nat) : Nat :=
  match unpinned with
  | [] => 0
  | front :: rest =>
      if hint = .scan then
        match observer with
        | none => front
        | some o => ((front :: rest).find? (inRun o.recentSet)).getD front
      else
        match observer with
        | none => front
        | some o => leastBy (fun a b => decide (a < b)) o.getAccessCount front rest

/-- Under the scan hint its loop is that of the scan-resistant policy. -/
theorem hintAwareVictim_scan : hintAwareVictim .scan = scanResistantVictim := by
  funext observer unpinned
  cases unpinned with
  | nil => rfl
  | cons front rest => cases observer <;> rfl

/-- Under the other hint it is that of the LFU policy. -/
theorem hintAwareVictim_pointLookup : hintAwareVictim .pointLookup = lfuVictim := by
  funext observer unpinned
  cases unpinned with
  | nil => rfl
  | cons front rest => cases observer <;> rfl

/-! ## Learned policies -/

/-- `Features`. -/
structure Features where
  recency : Float := 0
  count : Float := 0
  scan : Float := 0

/-- The weights of a score. -/
structure Weights where
  recency : Float := 1.0
  count : Float := 1.0
  scan : Float := -1.0

/-- `extract_features`, with an observer. -/
def extractFeatures (o : AccessObserver) (pageId : Nat) : Features :=
  let share := Float.ofNat (o.getAccessCount pageId) / (1.0 + Float.ofNat o.capacity)
  { recency := 1.0 / (1.0 + Float.ofNat (o.getLastIndexInRecent pageId))
    count := if share < 1.0 then share else 1.0
    scan := if inRun o.recentSet pageId then 1.0 else 0.0 }

/-- `score`. -/
def Weights.score (w : Weights) (f : Features) : Float :=
  w.recency * f.recency + w.count * f.count + w.scan * f.scan

/-- `update_weights`. -/
def Weights.update (w : Weights) (learningRate : Float) (f : Features) (label : Bool) : Weights :=
  let delta := learningRate * (if label then 1.0 else -1.0)
  { recency := w.recency + delta * f.recency
    count := w.count + delta * f.count
    scan := w.scan + delta * f.scan }

/-- The earliest candidate with the least score. -/
def leastScored (w : Weights) (o : AccessObserver) : List Nat → Nat
  | [] => 0
  | front :: rest =>
      leastBy (fun a b => decide (a < b)) (fun pid => w.score (extractFeatures o pid)) front rest

/-- `LearnedPageEvictionPolicy`, without its observer. -/
structure LearnedPolicy where
  feedbackHorizon : Nat
  learningRate : Float
  weights : Weights
  lastEvictedPageId : Option Nat
  lastEvictedFeatures : Features
  lastEvictionTotal : Nat

/-- `LearnedPageEvictionPolicy::LearnedPageEvictionPolicy`. -/
def LearnedPolicy.new (feedbackHorizon : Nat) (learningRate : Float) : LearnedPolicy where
  feedbackHorizon := feedbackHorizon
  learningRate := learningRate
  weights := {}
  lastEvictedPageId := none
  lastEvictedFeatures := {}
  lastEvictionTotal := 0

/-- The feedback part of `choose_victim`: settle the pending eviction once the horizon has passed. -/
def LearnedPolicy.settle (p : LearnedPolicy) (o : AccessObserver) : LearnedPolicy :=
  match p.lastEvictedPageId with
  | some pageId =>
      if o.totalRecorded ≥ u64 (p.lastEvictionTotal + p.feedbackHorizon) then
        let label := decide (o.getLastIndexInRecent pageId < o.capacity)
        { p with
          weights := p.weights.update p.learningRate p.lastEvictedFeatures label
          lastEvictedPageId := none }
      else p
  | none => p

/-- `LearnedPageEvictionPolicy::choose_victim`. -/
def LearnedPolicy.chooseVictim (p : LearnedPolicy) (observer : Option AccessObserver)
    (unpinned : List Nat) : Nat × LearnedPolicy :=
  match unpinned, observer with
  | [], _ => (0, p)
  | front :: _, none => (front, p)
  | _, some o =>
      let p := p.settle o
      let victim := leastScored p.weights o unpinned
      (victim,
        { p with
          lastEvictedPageId := some victim
          lastEvictedFeatures := extractFeatures o victim
          lastEvictionTotal := o.totalRecorded })

/-- `LoadedLearnedPageEvictionPolicy::choose_victim`. -/
def loadedLearnedVictim (w : Weights) (observer : Option AccessObserver) (unpinned : List Nat) :
    Nat :=
  match unpinned, observer with
  | [], _ => 0
  | front :: _, none => front
  | _, some o => leastScored w o unpinned

/-! ## The policies together -/

/-- A built-in policy with its state. -/
inductive BuiltinPolicy where
  | lru
  | scanResistant
  | lfu
  | scanResistantThenLfu
  | hintAware
  | learned (state : LearnedPolicy)
  | loadedLearned (weights : Weights)

/-- `choose_victim`. -/
def BuiltinPolicy.chooseVictim (hint : WorkloadHint) (observer : Option AccessObserver)
    (unpinned : List Nat) : BuiltinPolicy → Nat
  | .lru => lruVictim unpinned
  | .scanResistant => scanResistantVictim observer unpinned
  | .lfu => lfuVictim observer unpinned
  | .scanResistantThenLfu => scanResistantThenLfuVictim observer unpinned
  | .hintAware => hintAwareVictim hint observer unpinned
  | .learned state => (state.chooseVictim observer unpinned).1
  | .loadedLearned weights => loadedLearnedVictim weights observer unpinned

section Member

variable {unpinned : List Nat}

theorem headD_mem (h : unpinned ≠ []) : unpinned.headD 0 ∈ unpinned := by
  cases unpinned with
  | nil => exact absurd rfl h
  | cons front rest => simp

theorem leastBy_mem {V : Type} (lt : V → V → Bool) (value : Nat → V) (front : Nat)
    (rest : List Nat) : leastBy lt value front rest ∈ front :: rest := by
  have hfold : ∀ (pids : List Nat) (best : Nat × V),
      (pids.foldl (fun best pid => if lt (value pid) best.2 then (pid, value pid) else best)
        best).1 ∈ best.1 :: pids := by
    intro pids
    induction pids with
    | nil => simp
    | cons pid pids ih =>
        intro best
        rw [List.foldl_cons]
        by_cases hlt : lt (value pid) best.2 = true
        · rw [if_pos hlt]
          exact List.mem_cons_of_mem _ (ih (pid, value pid))
        · rw [if_neg hlt]
          rcases List.mem_cons.mp (ih best) with heq | hmem
          · rw [heq]
            exact List.mem_cons_self
          · exact List.mem_cons_of_mem _ (List.mem_cons_of_mem _ hmem)
  exact hfold rest (front, value front)

theorem firstInRun_mem (o : AccessObserver) (h : unpinned ≠ []) :
    firstInRun o unpinned ∈ unpinned := by
  unfold firstInRun
  cases hfind : unpinned.find? (inRun o.recentSet) with
  | none => exact headD_mem h
  | some pid => exact List.mem_of_find?_eq_some hfind

theorem leastAccessed_mem (o : AccessObserver) (h : unpinned ≠ []) :
    leastAccessed o unpinned ∈ unpinned := by
  cases unpinned with
  | nil => exact absurd rfl h
  | cons front rest =>
      unfold leastAccessed
      exact leastBy_mem _ _ front rest

theorem leastScored_mem (w : Weights) (o : AccessObserver) (h : unpinned ≠ []) :
    leastScored w o unpinned ∈ unpinned := by
  cases unpinned with
  | nil => exact absurd rfl h
  | cons front rest =>
      unfold leastScored
      exact leastBy_mem _ _ front rest

theorem scanResistantVictim_mem (observer : Option AccessObserver) (h : unpinned ≠ []) :
    scanResistantVictim observer unpinned ∈ unpinned := by
  cases unpinned with
  | nil => exact absurd rfl h
  | cons front rest =>
      cases observer with
      | none => exact List.mem_cons_self
      | some o => exact firstInRun_mem o h

theorem lfuVictim_mem (observer : Option AccessObserver) (h : unpinned ≠ []) :
    lfuVictim observer unpinned ∈ unpinned := by
  cases unpinned with
  | nil => exact absurd rfl h
  | cons front rest =>
      cases observer with
      | none => exact List.mem_cons_self
      | some o => exact leastAccessed_mem o h

theorem scanResistantThenLfuVictim_mem (observer : Option AccessObserver) (h : unpinned ≠ []) :
    scanResistantThenLfuVictim observer unpinned ∈ unpinned := by
  cases unpinned with
  | nil => exact absurd rfl h
  | cons front rest =>
      cases observer with
      | none => exact List.mem_cons_self
      | some o =>
          unfold scanResistantThenLfuVictim
          simp only
          split
          · exact leastAccessed_mem o h
          · rename_i hsome
            have hne : (front :: rest).filter (inRun o.recentSet) ≠ [] := by
              intro heq
              rw [heq] at hsome
              exact hsome rfl
            exact (List.mem_filter.mp (leastAccessed_mem o hne)).1

/-- **Every built-in policy picks one of the pages offered.** -/
theorem BuiltinPolicy.chooseVictim_mem (hint : WorkloadHint) (observer : Option AccessObserver)
    (policy : BuiltinPolicy) (h : unpinned ≠ []) :
    policy.chooseVictim hint observer unpinned ∈ unpinned := by
  cases policy with
  | lru => exact headD_mem h
  | scanResistant => exact scanResistantVictim_mem observer h
  | lfu => exact lfuVictim_mem observer h
  | scanResistantThenLfu => exact scanResistantThenLfuVictim_mem observer h
  | hintAware =>
      show hintAwareVictim hint observer unpinned ∈ unpinned
      cases hint with
      | scan =>
          rw [hintAwareVictim_scan]
          exact scanResistantVictim_mem observer h
      | pointLookup =>
          rw [hintAwareVictim_pointLookup]
          exact lfuVictim_mem observer h
  | learned state =>
      cases unpinned with
      | nil => exact absurd rfl h
      | cons front rest =>
          cases observer with
          | none => exact List.mem_cons_self
          | some o => exact leastScored_mem (state.settle o).weights o h
  | loadedLearned weights =>
      cases unpinned with
      | nil => exact absurd rfl h
      | cons front rest =>
          cases observer with
          | none => exact List.mem_cons_self
          | some o => exact leastScored_mem weights o h

end Member

end Aqa
