/-
# Aqa.Storage.PageReplacement — least-recently-fetched replacement in the page cache.

Without a policy, or with the LRU one, the victim is the front of the candidate list. Over a run of
fetches and releases the order of the resident pages is a sublist of the order in which pages were
last fetched, which makes that front the page whose last fetch is the oldest. When every handle is
released before the next fetch the order is exactly the first `capacity` pages of it, whatever the
capacity, so a larger cache holds what a smaller one holds.
-/
import Aqa.Lib.Recency
import Aqa.Cache.EvictionPolicy
import Aqa.Storage.FetchOrder

namespace Aqa

open Aqa.Lib

/-- `LruPageEvictionPolicy`. -/
def lruPagePolicy : PageEvictionPolicy := fun _ unpinned => lruVictim unpinned

/-- A call on the page cache: a fetch, or the release of a handle of a page. -/
inductive PageCall where
  | fetch (pageId : Nat)
  | release (pageId : Nat)
  deriving DecidableEq, Repr

/-- Fetches of these pages, each handle released before the next fetch. -/
def releasedAtOnce (pageIds : List Nat) : List PageCall :=
  pageIds.flatMap fun p => [.fetch p, .release p]

namespace PageCache

/-- The effect of a call. -/
def pageCall (c : PageCache) : PageCall → PageCache
  | .fetch p =>
      match fetchPage p c with
      | .ok _ c => c
      | .error _ c => c
  | .release p => c.unpinPage p

/-- The effect of some calls. -/
def pageCalls (c : PageCache) (calls : List PageCall) : PageCache := calls.foldl pageCall c

/-- The page a call fetches, if it does. -/
def fetchedBy (c : PageCache) : PageCall → List Nat
  | .fetch p =>
      match fetchPage p c with
      | .ok _ _ => [p]
      | .error _ _ => []
  | .release _ => []

/-- The pages fetched by some calls, in order. -/
def fetched (c : PageCache) : List PageCall → List Nat
  | [] => []
  | a :: calls => c.fetchedBy a ++ fetched (c.pageCall a) calls

theorem pageCalls_append (c : PageCache) (calls more : List PageCall) :
    c.pageCalls (calls ++ more) = (c.pageCalls calls).pageCalls more := List.foldl_append

theorem fetched_concat (c : PageCache) (calls : List PageCall) (a : PageCall) :
    c.fetched (calls ++ [a]) = c.fetched calls ++ (c.pageCalls calls).fetchedBy a := by
  induction calls generalizing c with
  | nil => simp [fetched, pageCalls]
  | cons b calls ih =>
      rw [List.cons_append, fetched, fetched, ih, List.append_assoc]
      rfl

/-! ## The policies that take the front -/

/-- No policy, or the LRU one. -/
def TakesFront (policy : Option PageEvictionPolicy) : Prop :=
  policy = none ∨ policy = some lruPagePolicy

theorem TakesFront.member {c : PageCache} (h : TakesFront c.evictionPolicy) : c.PolicyMember := by
  intro policy hpolicy trace l hne
  rcases h with hnone | hlru
  · rw [hnone] at hpolicy
    exact absurd hpolicy (by simp)
  · rw [hlru] at hpolicy
    rw [← Option.some.inj hpolicy]
    exact headD_mem hne

theorem TakesFront.victim {policy : Option PageEvictionPolicy} (h : TakesFront policy)
    (trace : List CacheEvent) (front : Nat) (rest : List Nat) :
    victimOf policy trace front (front :: rest) = front := by
  rcases h with rfl | rfl
  · rfl
  · rfl

section Runs

variable {c : PageCache} {capacity : Nat} {order history : List Nat}

/-- A miss without a free frame, on a cache that takes the front. -/
theorem Ordered.fetch_front (h : Ordered c capacity order) (hfront : TakesFront c.evictionPolicy)
    {p : Nat} (hp : p ∉ order) (hfull : order.length = capacity) {front : Nat} {rest : List Nat}
    (hun : c.unpinnedLru = front :: rest) :
    ∃ hd c' trace, fetchPage p c = .ok hd c' ∧ Ordered c' capacity (p :: order.erase front) ∧
      front ∈ order ∧ c.pinOf front = 0 ∧ Fetches c c' p 1 trace := by
  obtain ⟨hd, c', heq, hord, hin, hzero, hfetch⟩ :=
    h.fetch_evict hfront.member hp hfull hun
  rw [hfront.victim] at hord hin hzero hfetch
  exact ⟨hd, c', _, heq, hord, hin, hzero, hfetch⟩

/-- The order of the resident pages is that of their last fetches. -/
structure Recent (c : PageCache) (capacity : Nat) (order history : List Nat) : Prop extends
    Ordered c capacity order where
  recent : order.Sublist (recency [] history)
  front : TakesFront c.evictionPolicy

/-- A call keeps the order of last fetch. -/
theorem Recent.call (h : Recent c capacity order history) (a : PageCall) :
    ∃ order', Recent (c.pageCall a) capacity order' (history ++ c.fetchedBy a) := by
  cases a with
  | release p =>
      obtain ⟨hord, -, -, -, -, hpol⟩ := h.toOrdered.unpin p
      refine ⟨order, hord, ?_, ?_⟩
      · simpa [fetchedBy] using h.recent
      · show TakesFront (c.unpinPage p).evictionPolicy
        rw [hpol]
        exact h.front
  | fetch p =>
      have hmoved : ∀ order' : List Nat, order'.Sublist (order.erase p) →
          (p :: order').Sublist (recency [] (history ++ [p])) := by
        intro order' hsub
        rw [recency_concat]
        exact (hsub.trans (h.recent.erase p)).cons_cons p
      by_cases hp : p ∈ order
      · obtain ⟨hd, c', heq, hord, hf⟩ := h.toOrdered.fetch_hit hp
        refine ⟨p :: order.erase p, ?_⟩
        simp only [pageCall, fetchedBy, heq]
        exact ⟨hord, hmoved _ (List.Sublist.refl _), by rw [hf.policy]; exact h.front⟩
      · have hstay := List.erase_of_not_mem hp
        rcases Nat.lt_or_ge order.length capacity with hroom | hge
        · obtain ⟨hd, c', heq, hord, hf⟩ := h.toOrdered.fetch_free h.front.member hp hroom
          refine ⟨p :: order, ?_⟩
          simp only [pageCall, fetchedBy, heq]
          exact ⟨hord, hmoved _ (by rw [hstay]), by rw [hf.policy]; exact h.front⟩
        · have hfull : order.length = capacity := by
            have hshared := h.shared
            omega
          cases hun : c.unpinnedLru with
          | nil =>
              obtain ⟨c', heq, hord, -, hpol⟩ :=
                h.toOrdered.fetch_refused h.front.member hp hfull hun
              refine ⟨order, ?_⟩
              simp only [pageCall, fetchedBy, heq, List.append_nil]
              exact ⟨hord, h.recent, by rw [hpol]; exact h.front⟩
          | cons front rest =>
              obtain ⟨hd, c', trace, heq, hord, -, -, hf⟩ :=
                h.toOrdered.fetch_front h.front hp hfull hun
              refine ⟨p :: order.erase front, ?_⟩
              simp only [pageCall, fetchedBy, heq]
              exact ⟨hord, hmoved _ (by rw [hstay]; exact List.erase_sublist),
                by rw [hf.policy]; exact h.front⟩

theorem recent_calls (file : MappedFile) (capacity : Nat) (observed : Bool)
    {policy : Option PageEvictionPolicy} (hfront : TakesFront policy) (calls : List PageCall) :
    ∃ order, Recent ((new file capacity observed policy).pageCalls calls) capacity order
      ((new file capacity observed policy).fetched calls) := by
  induction calls using List.reverseRecOn with
  | nil =>
      exact ⟨[], ordered_new file capacity observed policy, List.Sublist.refl _, hfront⟩
  | append_singleton calls a ih =>
      obtain ⟨order, h⟩ := ih
      rw [pageCalls_append, fetched_concat]
      exact h.call a

/-- The first candidate is staler than all others. -/
theorem Recent.staler (h : Recent c capacity order history) {front : Nat} {rest : List Nat}
    (hun : c.unpinnedLru = front :: rest) {q : Nat} (hres : (c.pageMap.lookup q).isSome)
    (hzero : c.pinOf q = 0) (hne : q ≠ front) : StalerThan history front q := by
  have hpair : (front :: rest).Pairwise fun b a => StalerThan history b a := by
    rw [← hun, h.unpinnedLru_eq]
    apply List.Pairwise.filter
    rw [List.pairwise_reverse]
    exact (pairwise_recency history).sublist h.recent
  have hq : q ∈ front :: rest := by
    rw [← hun]
    exact (mem_unpinnedLru h.toPool).mpr ⟨hres, hzero⟩
  exact (List.pairwise_cons.mp hpair).1 q ((List.mem_cons.mp hq).resolve_left hne)

/-! ## Traces -/

/-- A cache without pins that takes the front is a bounded recency list. -/
theorem Ordered.fetch_lru (h : Ordered c capacity order) (hcap : 1 ≤ capacity)
    (hfront : TakesFront c.evictionPolicy) (hpins : ∀ q, c.pinOf q = 0) (p : Nat) :
    ∃ hd c' trace, fetchPage p c = .ok hd c' ∧ Ordered c' capacity (touch capacity order p) ∧
      Fetches c c' p (if p ∈ order then 0 else 1) trace := by
  have hshared := h.shared
  by_cases hp : p ∈ order
  · obtain ⟨hd, c', heq, hord, hf⟩ := h.fetch_hit hp
    have hlen := List.length_erase_of_mem hp
    have hpos := List.length_pos_of_mem hp
    rw [if_pos hp, touch_of_room (by omega)]
    exact ⟨hd, c', _, heq, hord, hf⟩
  have hstay := List.erase_of_not_mem hp
  rw [if_neg hp]
  rcases Nat.lt_or_ge order.length capacity with hroom | hge
  · obtain ⟨hd, c', heq, hord, hf⟩ := h.fetch_free hfront.member hp hroom
    rw [touch_of_room (by rw [hstay]; exact hroom), hstay]
    exact ⟨hd, c', _, heq, hord, hf⟩
  · have hfull : order.length = capacity := by omega
    have hne : order ≠ [] := by
      rintro rfl
      simp only [List.length_nil] at hfull
      omega
    obtain ⟨init, x, rfl⟩ := (List.eq_nil_or_concat order).resolve_left hne
    simp only [List.concat_eq_append] at h hp hfull hstay ⊢
    have hun : c.unpinnedLru = x :: init.reverse := by
      rw [h.unpinnedLru_eq, List.reverse_append, List.reverse_singleton, List.singleton_append,
        List.filter_eq_self]
      intro q _
      rw [hpins q]
      rfl
    obtain ⟨hd, c', trace, heq, hord, -, -, hf⟩ := h.fetch_front hfront hp hfull hun
    have hx : x ∉ init := by
      have hnodup := h.nodup
      rw [List.nodup_append] at hnodup
      exact fun hmem => hnodup.2.2 x hmem x (by simp) rfl
    rw [List.erase_append_right _ hx, List.erase_cons_head, List.append_nil] at hord
    rw [touch_of_full (by simpa using hfull.symm) hp]
    exact ⟨hd, c', trace, heq, hord, hf⟩

/-- One page of a trace. -/
theorem Ordered.fetch_released (h : Ordered c capacity order) (hcap : 1 ≤ capacity)
    (hfront : TakesFront c.evictionPolicy) (hpins : ∀ q, c.pinOf q = 0) (p : Nat) :
    let c' := c.pageCalls [.fetch p, .release p]
    Ordered c' capacity (touch capacity order p) ∧ TakesFront c'.evictionPolicy ∧
      (∀ q, c'.pinOf q = 0) ∧ c'.misses = c.misses + if p ∈ order then 0 else 1 := by
  obtain ⟨hd, c₁, trace, heq, hord, hf⟩ := h.fetch_lru hcap hfront hpins p
  obtain ⟨hord', hpins', hmiss, -, -, hpol⟩ := hord.unpin p
  have hcalls : c.pageCalls [.fetch p, .release p] = c₁.unpinPage p := by
    show (c.pageCall (.fetch p)).unpinPage p = _
    simp only [pageCall, heq]
  dsimp only
  rw [hcalls]
  refine ⟨hord', ?_, ?_, hmiss.trans hf.misses⟩
  · rw [hpol, hf.policy]
    exact hfront
  · intro q
    rw [hpins', hf.pins, hpins p]
    by_cases hq : q = p
    · rw [hq, Function.update_self, Function.update_self]
    · rw [Function.update_of_ne hq, Function.update_of_ne hq, hpins q]

end Runs

/-- The cache behind a trace whose handles are released at once. -/
def replayTrace (file : MappedFile) (capacity : Nat) (observed : Bool)
    (policy : Option PageEvictionPolicy) (pageIds : List Nat) : PageCache :=
  (new file capacity observed policy).pageCalls (releasedAtOnce pageIds)

theorem replayTrace_concat (file : MappedFile) (capacity : Nat) (observed : Bool)
    (policy : Option PageEvictionPolicy) (pageIds : List Nat) (p : Nat) :
    replayTrace file capacity observed policy (pageIds ++ [p]) =
      (replayTrace file capacity observed policy pageIds).pageCalls [.fetch p, .release p] := by
  unfold replayTrace releasedAtOnce
  rw [List.flatMap_append, pageCalls_append, List.flatMap_singleton]

section Traces

variable (file : MappedFile) {capacity : Nat} (hcap : 1 ≤ capacity) (observed : Bool)
  {policy : Option PageEvictionPolicy} (hfront : TakesFront policy)
include hcap hfront

/-- Behind a trace the order is the order of last fetch, as far as it fits. -/
theorem ordered_replayTrace (pageIds : List Nat) :
    let c := replayTrace file capacity observed policy pageIds
    Ordered c capacity ((recency [] pageIds).take capacity) ∧ TakesFront c.evictionPolicy ∧
      ∀ q, c.pinOf q = 0 := by
  induction pageIds using List.reverseRecOn with
  | nil =>
      refine ⟨?_, hfront, ?_⟩
      · rw [recency_nil, List.take_nil]
        exact ordered_new file capacity observed policy
      intro q
      simp [replayTrace, releasedAtOnce, pageCalls, new, pinOf]
  | append_singleton pageIds p ih =>
      obtain ⟨hord, hpol, hpins⟩ := ih
      obtain ⟨hord', hpol', hpins', -⟩ := hord.fetch_released hcap hpol hpins p
      rw [replayTrace_concat]
      refine ⟨?_, hpol', hpins'⟩
      rw [touch_take] at hord'
      rw [recency_concat]
      exact hord'

/-- A page of a trace is a miss when it is not among the pages that fit. -/
theorem misses_replayTrace_concat (pageIds : List Nat) (p : Nat) :
    (replayTrace file capacity observed policy (pageIds ++ [p])).misses =
      (replayTrace file capacity observed policy pageIds).misses +
        if p ∈ (recency [] pageIds).take capacity then 0 else 1 := by
  obtain ⟨hord, hpol, hpins⟩ := ordered_replayTrace file hcap observed hfront pageIds
  rw [replayTrace_concat]
  exact (hord.fetch_released hcap hpol hpins p).2.2.2

/-- A larger cache has at most the misses of a smaller one. -/
theorem misses_replayTrace_le {larger : Nat} (hle : capacity ≤ larger) (pageIds : List Nat) :
    (replayTrace file larger observed policy pageIds).misses ≤
      (replayTrace file capacity observed policy pageIds).misses := by
  induction pageIds using List.reverseRecOn with
  | nil => exact le_rfl
  | append_singleton pageIds p ih =>
      rw [misses_replayTrace_concat file hcap observed hfront,
        misses_replayTrace_concat file (le_trans hcap hle) observed hfront]
      apply Nat.add_le_add ih
      -- what the smaller cache holds the larger one holds
      by_cases hmem : p ∈ (recency [] pageIds).take capacity
      · rw [if_pos hmem, if_pos (List.take_subset_take_left _ hle hmem)]
      · rw [if_neg hmem]
        split
        · exact Nat.zero_le 1
        · exact le_rfl

end Traces

/-- **The page cache replaces the least recently fetched page.** Without a policy or with the LRU one,
from one frame on: over any run of fetches and releases, a miss without a free frame throws when every
resident page is pinned, and otherwise evicts exactly one page, an unpinned one whose last fetch is
older than that of every other unpinned resident page. Over any trace whose handles are released at
once, the resident pages are the most recently fetched distinct ones, in that order, as many as there
are frames; and more frames never give more misses. -/
theorem page_cache_exact_lru (file : MappedFile) (capacity : Nat) (hcap : 1 ≤ capacity)
    (observed : Bool) (policy : Option PageEvictionPolicy)
    (hfront : policy = none ∨ policy = some lruPagePolicy) :
    (∀ (calls : List PageCall) (p : Nat),
      let c := (new file capacity observed policy).pageCalls calls
      let history := (new file capacity observed policy).fetched calls
      c.pageMap.lookup p = none → c.freeFrames = [] →
        ((∀ q, (c.pageMap.lookup q).isSome → c.pinOf q ≠ 0) ∧
          ∃ c', fetchPage p c =
            .error (.runtimeError "Buffer Pool Full: All pages are pinned..") c') ∨
        ∃ victim hd c', fetchPage p c = .ok hd c' ∧ (c.pageMap.lookup victim).isSome ∧
          c.pinOf victim = 0 ∧
          (∀ q, (c'.pageMap.lookup q).isSome ↔
            q = p ∨ ((c.pageMap.lookup q).isSome ∧ q ≠ victim)) ∧
          ∀ q, (c.pageMap.lookup q).isSome → c.pinOf q = 0 → q ≠ victim →
            StalerThan history victim q) ∧
      (∀ pageIds : List Nat,
        let c := replayTrace file capacity observed policy pageIds
        c.lruList.toList = (recency [] pageIds).take capacity ∧
          (∀ q, (c.pageMap.lookup q).isSome ↔ q ∈ (recency [] pageIds).take capacity) ∧
          ((recency [] pageIds).take capacity).length = min capacity pageIds.toFinset.card) ∧
      ∀ larger, capacity ≤ larger → ∀ pageIds : List Nat,
        (replayTrace file larger observed policy pageIds).misses ≤
          (replayTrace file capacity observed policy pageIds).misses := by
  refine ⟨?_, ?_, ?_⟩
  · intro calls p c history hnone hfree
    obtain ⟨order, h⟩ := recent_calls file capacity observed hfront calls
    have hp : p ∉ order := by
      rw [h.toOrdered.mem_iff, Option.not_isSome_iff_eq_none]
      exact hnone
    have hfull : order.length = capacity := by
      have hshared : c.freeFrames.length + order.length = capacity := h.shared
      rw [hfree, List.length_nil] at hshared
      omega
    cases hun : c.unpinnedLru with
    | nil =>
        left
        obtain ⟨c', heq, -, -, -⟩ := h.toOrdered.fetch_refused h.front.member hp hfull hun
        refine ⟨?_, c', heq⟩
        intro q hq hzero
        have hmem := (mem_unpinnedLru h.toPool).mpr ⟨hq, hzero⟩
        rw [hun] at hmem
        exact absurd hmem (by simp)
    | cons victim rest =>
        right
        obtain ⟨hd, c', trace, heq, hord, hin, hzero, -⟩ :=
          h.toOrdered.fetch_front h.front hp hfull hun
        refine ⟨victim, hd, c', heq, h.toOrdered.mem_iff.mp hin, hzero, ?_, ?_⟩
        · intro q
          rw [← hord.mem_iff, List.mem_cons, List.Nodup.mem_erase_iff h.toOrdered.nodup,
            h.toOrdered.mem_iff, and_comm]
        · intro q hres hpin hne
          exact h.staler hun hres hpin hne
  · intro pageIds c
    obtain ⟨hord, -, -⟩ := ordered_replayTrace file hcap observed hfront pageIds
    refine ⟨hord.order_eq, fun q => hord.mem_iff.symm, ?_⟩
    rw [List.length_take, length_recency]
  · intro larger hle pageIds
    exact misses_replayTrace_le file hcap observed hfront hle pageIds

/-- Two frames: the fetch of page 0 again saves it from the fetch of page 2. -/
theorem page_cache_exact_lru_two :
    let file := MappedFile.new (some (List.replicate (3 * PAGE_SIZE) 0))
    (replayTrace file 2 false none [0, 1, 0, 2]).lruList.toList = (recency [] [0, 1, 0, 2]).take 2 ∧
      (replayTrace file 3 false none [0, 1, 0, 2]).misses ≤
        (replayTrace file 2 false none [0, 1, 0, 2]).misses := by
  intro file
  have hexact := page_cache_exact_lru file 2 (by decide) false none (Or.inl rfl)
  exact ⟨(hexact.2.1 [0, 1, 0, 2]).1, hexact.2.2 3 (by decide) [0, 1, 0, 2]⟩

end PageCache

end Aqa
