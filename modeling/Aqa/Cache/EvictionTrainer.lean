/-
# Aqa.Cache.EvictionTrainer — the offline trainer against the page cache.

`learned_eviction_trainer` keeps a cache of page ids of its own, a list and a set, and trains a learned
policy on a trace. `EvictionTrainer` is its loop. `Simulates` relates it to a page cache with the same
observer and policy: equal orders of pages, equal calls on observer and policy, and the states these
calls lead to. Every page of a trace keeps it (`trainer_simulates_cache`).
-/
import Aqa.Cache.LearnedFeedback
import Aqa.Storage.PageReplacement

namespace Aqa

open Aqa.Lib

/-- A call on observer or policy as a turn of their run. -/
def CacheEvent.turn : CacheEvent → PolicyTurn
  | .access pageId isHit => .access (.page pageId isHit)
  | .victim candidates _ => .choose candidates

/-- `LearnedPageEvictionPolicy` with the observer of its cache: its answer after the calls so far. -/
def learnedPagePolicy (start : LearnedRun) : PageEvictionPolicy := fun trace unpinned =>
  (start.run (trace.map CacheEvent.turn)).victim unpinned

/-- The variables of the trainer's loop, and the calls it has made on observer and policy. -/
structure EvictionTrainer where
  cacheCap : Nat
  observer : AccessObserver
  policy : LearnedPolicy
  cacheLru : List Nat
  inCache : Finset Nat
  accesses : Nat
  trace : List CacheEvent

namespace EvictionTrainer

/-- The variables before the loop. -/
def new (ringCap cacheCap feedbackHorizon : Nat) (lr : Float) : EvictionTrainer where
  cacheCap := cacheCap
  observer := AccessObserver.new ringCap
  policy := LearnedPolicy.new feedbackHorizon lr
  cacheLru := []
  inCache := ∅
  accesses := 0
  trace := []

/-- `observer.record_page_access`. -/
def record (t : EvictionTrainer) (pageId : Nat) (hit : Bool) : EvictionTrainer :=
  { t with
    observer := t.observer.recordPageAccess pageId hit
    trace := t.trace ++ [.access pageId hit] }

/-- `policy.choose_victim` and the removal of its victim from list and set. -/
def evict (t : EvictionTrainer) : EvictionTrainer :=
  let unpinned := t.cacheLru.reverse
  let choice := t.policy.chooseVictim (some t.observer) unpinned
  { t with
    policy := choice.2
    cacheLru := t.cacheLru.filter (· ≠ choice.1)
    inCache := t.inCache.erase choice.1
    trace := t.trace ++ [.victim unpinned choice.1] }

/-- The body of the loop. -/
def access (t : EvictionTrainer) (pageId : Nat) : EvictionTrainer :=
  let hit := decide (pageId ∈ t.inCache)
  let t := t.record pageId hit
  if hit then
    { t with
      cacheLru := pageId :: t.cacheLru.filter (· ≠ pageId)
      accesses := t.accesses + 1 }
  else
    let t := if t.cacheLru.length ≥ t.cacheCap then t.evict else t
    { t with
      cacheLru := pageId :: t.cacheLru
      inCache := insert pageId t.inCache
      accesses := t.accesses + 1 }

/-- The loop over the trace. -/
def replay (t : EvictionTrainer) (pageIds : List Nat) : EvictionTrainer := pageIds.foldl access t

/-- Trainer and page cache hold the same pages in the same order and have made the same calls, which
lead observer and policy to the states of the trainer. -/
structure Simulates (start : LearnedRun) (t : EvictionTrainer) (c : PageCache) : Prop where
  ordered : c.Ordered t.cacheCap t.cacheLru
  inCache : t.inCache = t.cacheLru.toFinset
  pins : ∀ q, c.pinOf q = 0
  observed : c.observed = true
  policy : c.evictionPolicy = some (learnedPagePolicy start)
  trace : c.trace = t.trace
  states : start.run (t.trace.map CacheEvent.turn) = ⟨t.observer, t.policy⟩

/-- `list::remove` on a list without repeated ids. -/
theorem filter_ne_eq_erase {l : List Nat} (h : l.Nodup) (a : Nat) :
    l.filter (· ≠ a) = l.erase a := by
  rw [List.Nodup.erase_eq_filter h]
  apply List.filter_congr
  intro b _
  by_cases hb : b = a <;> simp [hb]

/-- The learned policy names one of the candidates. -/
theorem learnedPagePolicy_mem (start : LearnedRun) (trace : List CacheEvent) {unpinned : List Nat}
    (hne : unpinned ≠ []) : learnedPagePolicy start trace unpinned ∈ unpinned :=
  BuiltinPolicy.chooseVictim_mem .pointLookup
    (some (start.run (trace.map CacheEvent.turn)).observer)
    (.learned (start.run (trace.map CacheEvent.turn)).policy) hne

section Step

variable {start : LearnedRun} {t : EvictionTrainer} {c : PageCache}

namespace Simulates

theorem member (h : Simulates start t c) : c.PolicyMember := by
  intro policy hpolicy trace l hne
  rw [h.policy] at hpolicy
  rw [← Option.some.inj hpolicy]
  exact learnedPagePolicy_mem start trace hne

/-- Recording an access on both sides leads to the trainer's observer. -/
theorem states_record (h : Simulates start t c) (p : Nat) (hit : Bool) :
    start.run ((t.record p hit).trace.map CacheEvent.turn) =
      ⟨(t.record p hit).observer, (t.record p hit).policy⟩ := by
  unfold record
  dsimp only
  rw [List.map_append, List.map_singleton, LearnedRun.run_concat, h.states]
  rfl

/-- The access both sides record. -/
theorem accessed_eq (h : Simulates start t c) (p : Nat) (hit : Bool) :
    c.accessed p hit = (t.record p hit).trace := by
  unfold PageCache.accessed PageCache.recordAccess
  rw [if_pos h.observed, h.trace]
  rfl

theorem mem_inCache (h : Simulates start t c) {p : Nat} : p ∈ t.inCache ↔ p ∈ t.cacheLru := by
  rw [h.inCache, List.mem_toFinset]

/-- The page cache behind a fetch, once its handle is released. -/
theorem of_fetched {t' : EvictionTrainer} {p missed : Nat} {hd : PageHandle} {c₁ : PageCache}
    (h : Simulates start t c) (hfetch : PageCache.fetchPage p c = .ok hd c₁)
    (hord : c₁.Ordered t'.cacheCap t'.cacheLru) (hf : PageCache.Fetches c c₁ p missed t'.trace)
    (hset : t'.inCache = t'.cacheLru.toFinset)
    (hstates : start.run (t'.trace.map CacheEvent.turn) = ⟨t'.observer, t'.policy⟩) :
    Simulates start t' (c.pageCalls [.fetch p, .release p]) := by
  have hcalls : c.pageCalls [.fetch p, .release p] = c₁.unpinPage p := by
    show (c.pageCall (.fetch p)).unpinPage p = _
    simp only [PageCache.pageCall, hfetch]
  obtain ⟨hord', hpins', -, htrace, hobs, hpol⟩ := hord.unpin p
  rw [hcalls]
  refine ⟨hord', hset, ?_, ?_, ?_, ?_, hstates⟩
  · intro q
    rw [hpins', hf.pins, h.pins p]
    by_cases hq : q = p
    · rw [hq, Function.update_self, Function.update_self]
    · rw [Function.update_of_ne hq, Function.update_of_ne hq, h.pins q]
  · rw [hobs, hf.observed, h.observed]
  · rw [hpol, hf.policy, h.policy]
  · rw [htrace, hf.trace]

/-- **One page of the trace**: no exception, and trainer and page cache stay together. -/
theorem access (h : Simulates start t c) (hcap : 1 ≤ t.cacheCap) (p : Nat) :
    (∃ hd c₁, PageCache.fetchPage p c = .ok hd c₁) ∧
      Simulates start (t.access p) (c.pageCalls [.fetch p, .release p]) := by
  have hnodup := h.ordered.nodup
  unfold EvictionTrainer.access
  by_cases hp : p ∈ t.cacheLru
  · -- a hit moves the page to the front on both sides
    have hin : p ∈ t.inCache := h.mem_inCache.mpr hp
    obtain ⟨hd, c₁, heq, hord, hf⟩ := h.ordered.fetch_hit hp
    rw [h.accessed_eq] at hf
    dsimp only
    rw [decide_eq_true hin, if_pos rfl]
    refine ⟨⟨hd, c₁, heq⟩, h.of_fetched heq ?_ hf ?_ (h.states_record p true)⟩
    · show c₁.Ordered t.cacheCap (p :: t.cacheLru.filter (· ≠ p))
      rw [filter_ne_eq_erase hnodup]
      exact hord
    · show t.inCache = (p :: t.cacheLru.filter (· ≠ p)).toFinset
      rw [h.inCache]
      ext q
      by_cases hq : q = p <;> simp [hq, hp]
  · have hout : p ∉ t.inCache := fun hin => hp (h.mem_inCache.mp hin)
    dsimp only
    rw [decide_eq_false hout, if_neg (by simp)]
    have hinsert : ∀ (lru : List Nat) (set : Finset Nat), set = lru.toFinset →
        insert p set = (p :: lru).toFinset := by
      rintro lru _ rfl
      exact (List.toFinset_cons).symm
    rcases Nat.lt_or_ge t.cacheLru.length t.cacheCap with hroom | hge
    · obtain ⟨hd, c₁, heq, hord, hf⟩ := h.ordered.fetch_free h.member hp hroom
      rw [h.accessed_eq] at hf
      have hkeep : ¬ (t.record p false).cacheLru.length ≥ (t.record p false).cacheCap :=
        Nat.not_le.mpr hroom
      rw [if_neg hkeep]
      exact ⟨⟨hd, c₁, heq⟩, h.of_fetched heq hord hf (hinsert _ _ h.inCache)
        (h.states_record p false)⟩
    · have hfull : t.cacheLru.length = t.cacheCap := by
        have hshared := h.ordered.shared
        omega
      have hevict : (t.record p false).cacheLru.length ≥ (t.record p false).cacheCap := hge
      rw [if_pos hevict]
      have hun : c.unpinnedLru = t.cacheLru.reverse := by
        rw [h.ordered.unpinnedLru_eq, List.filter_eq_self]
        intro q _
        rw [h.pins q]
        rfl
      obtain ⟨front, rest, hlist⟩ : ∃ front rest, t.cacheLru.reverse = front :: rest := by
        cases hlist : t.cacheLru.reverse with
        | nil =>
            have hlen := congrArg List.length hlist
            rw [List.length_reverse, List.length_nil] at hlen
            omega
        | cons front rest => exact ⟨front, rest, rfl⟩
      obtain ⟨hd, c₁, heq, hord, -, -, hf⟩ :=
        h.ordered.fetch_evict h.member hp hfull (hun.trans hlist)
      -- the policy is asked on the same calls, so it is in the trainer's state
      have hvictim : PageCache.victimOf c.evictionPolicy (c.accessed p false) front (front :: rest) =
          ((t.record p false).policy.chooseVictim (some (t.record p false).observer)
            t.cacheLru.reverse).1 := by
        rw [h.policy, h.accessed_eq, hlist]
        show (start.run ((t.record p false).trace.map CacheEvent.turn)).victim (front :: rest) = _
        rw [h.states_record]
        rfl
      rw [hvictim] at hord
      rw [hvictim, h.policy, h.accessed_eq, ← hlist] at hf
      refine ⟨⟨hd, c₁, heq⟩, h.of_fetched heq ?_ hf ?_ ?_⟩
      · show c₁.Ordered t.cacheCap (p :: t.cacheLru.filter (· ≠ _))
        rw [filter_ne_eq_erase hnodup]
        exact hord
      · apply hinsert
        show t.inCache.erase _ = (t.cacheLru.filter _).toFinset
        rw [h.inCache]
        ext q
        simp [and_comm]
      · show start.run (((t.record p false).trace ++ [CacheEvent.victim _ _]).map CacheEvent.turn) = _
        rw [List.map_append, List.map_singleton, LearnedRun.run_concat, h.states_record]
        rfl

end Simulates

end Step

theorem cacheCap_access (t : EvictionTrainer) (p : Nat) : (t.access p).cacheCap = t.cacheCap := by
  unfold access
  dsimp only
  split
  · rfl
  · show (if _ then (t.record p _).evict else t.record p _).cacheCap = _
    split <;> rfl

/-- Trainer and page cache stay together over a trace, and no fetch throws. -/
theorem simulates_replay (file : MappedFile) (ringCap feedbackHorizon : Nat) {cacheCap : Nat}
    (hcap : 1 ≤ cacheCap) (lr : Float) (pageIds : List Nat) :
    let start := LearnedRun.start ringCap feedbackHorizon lr
    let t := (new ringCap cacheCap feedbackHorizon lr).replay pageIds
    t.cacheCap = cacheCap ∧
      (PageCache.new file cacheCap true (some (learnedPagePolicy start))).fetched
        (releasedAtOnce pageIds) = pageIds ∧
      Simulates start t
        (PageCache.replayTrace file cacheCap true (some (learnedPagePolicy start)) pageIds) := by
  intro start
  induction pageIds using List.reverseRecOn with
  | nil =>
      refine ⟨rfl, rfl, PageCache.ordered_new _ _ _ _, rfl, ?_, rfl, rfl, rfl, rfl⟩
      intro q
      simp [PageCache.replayTrace, releasedAtOnce, PageCache.pageCalls, PageCache.new,
        PageCache.pinOf]
  | append_singleton pageIds p ih =>
      obtain ⟨hcap', hfetched, hsim⟩ := ih
      have hstep : (new ringCap cacheCap feedbackHorizon lr).replay (pageIds ++ [p]) =
          ((new ringCap cacheCap feedbackHorizon lr).replay pageIds).access p := by
        unfold replay
        rw [List.foldl_append]
        rfl
      obtain ⟨⟨hd, c₁, hfetch⟩, hsim'⟩ := hsim.access (by rw [hcap']; exact hcap) p
      dsimp only
      rw [hstep, PageCache.replayTrace_concat]
      refine ⟨(cacheCap_access _ p).trans hcap', ?_, hsim'⟩
      have hcalls : releasedAtOnce (pageIds ++ [p]) =
          (releasedAtOnce pageIds ++ [.fetch p]) ++ [.release p] := by
        simp [releasedAtOnce]
      unfold PageCache.replayTrace at hfetch
      rw [hcalls, PageCache.fetched_concat, PageCache.fetched_concat, hfetched]
      simp only [PageCache.fetchedBy, hfetch, List.append_nil]

/-- **The trainer simulates the page cache.** For every trace, every cache capacity from one on, every
ring capacity, horizon and learning rate: the page cache fetches every page of the trace; it records
the same accesses, with the same hits, and asks the policy for the same candidates with the same
victims as the trainer, in the same order; it holds the same pages in the same order; and these calls
leave observer and policy in the trainer's states, weights included. -/
theorem trainer_simulates_cache (file : MappedFile) (ringCap cacheCap feedbackHorizon : Nat)
    (hcap : 1 ≤ cacheCap) (lr : Float) (pageIds : List Nat) :
    let start := LearnedRun.start ringCap feedbackHorizon lr
    let policy := some (learnedPagePolicy start)
    let t := (new ringCap cacheCap feedbackHorizon lr).replay pageIds
    let c := PageCache.replayTrace file cacheCap true policy pageIds
    (PageCache.new file cacheCap true policy).fetched (releasedAtOnce pageIds) = pageIds ∧
      c.trace = t.trace ∧ c.lruList.toList = t.cacheLru ∧
      start.run (c.trace.map CacheEvent.turn) = ⟨t.observer, t.policy⟩ ∧
      (start.run (c.trace.map CacheEvent.turn)).policy.weights = t.policy.weights := by
  intro start policy t c
  obtain ⟨-, hfetched, hsim⟩ := simulates_replay file ringCap feedbackHorizon hcap lr pageIds
  have hstates : start.run (c.trace.map CacheEvent.turn) = ⟨t.observer, t.policy⟩ := by
    rw [hsim.trace]
    exact hsim.states
  exact ⟨hfetched, hsim.trace, hsim.ordered.order_eq, hstates, by rw [hstates]⟩

/-- One frame and three pages, so that the policy is asked twice. -/
theorem trainer_simulates_cache_three :
    let file := MappedFile.new (some (List.replicate (3 * PAGE_SIZE) 0))
    (PageCache.replayTrace file 1 true (some (learnedPagePolicy (LearnedRun.start 4 1 0.05)))
        [0, 1, 2]).trace =
      ((new 4 1 1 0.05).replay [0, 1, 2]).trace := by
  intro file
  exact (trainer_simulates_cache file 4 1 1 le_rfl 0.05 [0, 1, 2]).2.1

end EvictionTrainer

end Aqa
