/-
# Aqa.Storage.PageTurns — one page of a trace after the other, under any policy.

A fetch whose handle is released at once moves the page to the front, takes a free frame for it, or
takes the frame of the page that the policy names among all resident ones, in LRU order (`Turned`). What
holds of a new cache and is kept by every such turn holds behind every trace (`replayTrace_rec`).
-/
import Aqa.Observer.SlidingWindow
import Aqa.Storage.PageReplacement

namespace Aqa

open Aqa.Lib AccessObserver

/-- The call on the observer that an event is, if it is one. -/
def CacheEvent.observerCall : CacheEvent → Option Access
  | .access pageId isHit => some (.page pageId isHit)
  | .victim _ _ => none

/-- The page ids of the accesses in a trace. -/
def accessedIds (trace : List CacheEvent) : List Nat :=
  (trace.filterMap CacheEvent.observerCall).map fun a => a.event.pageId

theorem accessedIds_append (trace more : List CacheEvent) :
    accessedIds (trace ++ more) = accessedIds trace ++ accessedIds more := by
  unfold accessedIds
  rw [List.filterMap_append, List.map_append]

namespace PageCache

/-- The order behind a page, with `victim` to go when there is no room for it. -/
def orderAfter (capacity victim : Nat) (order : List Nat) (p : Nat) : List Nat :=
  if p ∈ order then p :: order.erase p
  else if order.length < capacity then p :: order
  else p :: order.erase victim

/-- What a page of a trace does to a cache without pins: the policy is asked for a victim among all
resident pages when the page is not resident and the cache is full. -/
structure Turned (c c' : PageCache) (capacity : Nat) (order : List Nat) (p victim : Nat) : Prop where
  ordered : Ordered c' capacity (orderAfter capacity victim order p)
  pins : ∀ q, c'.pinOf q = 0
  observed : c'.observed = c.observed
  policy : c'.evictionPolicy = c.evictionPolicy
  misses : c'.misses = c.misses + if p ∈ order then 0 else 1
  grown : c.trace <+: c'.trace
  seen : accessedIds c'.trace = accessedIds c.trace ++ if c.observed then [p] else []

theorem mem_orderAfter_self (capacity victim : Nat) (order : List Nat) (p : Nat) :
    p ∈ orderAfter capacity victim order p := by
  unfold orderAfter
  split
  · exact List.mem_cons_self
  · split <;> exact List.mem_cons_self

variable {c : PageCache} {capacity : Nat} {order : List Nat}

theorem accessedIds_accessed (c : PageCache) (p : Nat) (hit : Bool) :
    accessedIds (c.accessed p hit) = accessedIds c.trace ++ if c.observed then [p] else [] := by
  unfold accessed recordAccess
  by_cases hobs : c.observed = true
  · rw [if_pos hobs, if_pos hobs]
    exact accessedIds_append _ _
  · rw [if_neg hobs, if_neg hobs, List.append_nil]

theorem accessedIds_chosen (policy : Option PageEvictionPolicy) (trace : List CacheEvent)
    (candidates : List Nat) (victim : Nat) :
    accessedIds (chosen policy trace candidates victim) = accessedIds trace := by
  unfold chosen
  split
  · rw [accessedIds_append]
    exact List.append_nil _
  · rfl

theorem trace_prefix_accessed (c : PageCache) (p : Nat) (hit : Bool) :
    c.trace <+: c.accessed p hit := by
  unfold accessed recordAccess
  split
  · exact List.prefix_append _ _
  · exact List.prefix_refl _

theorem prefix_chosen (policy : Option PageEvictionPolicy) (trace : List CacheEvent)
    (candidates : List Nat) (victim : Nat) : trace <+: chosen policy trace candidates victim := by
  unfold chosen
  split
  · exact List.prefix_append _ _
  · exact List.prefix_refl _

/-- The victim among the resident pages, when none is pinned. -/
def nextVictim (c : PageCache) (order : List Nat) (p : Nat) : Nat :=
  victimOf c.evictionPolicy (c.accessed p false) (order.reverse.headD 0) order.reverse

/-- A fetch whose handle is released leads here. -/
theorem turned_of_fetched {c₁ : PageCache} {p victim missed : Nat} {hd : PageHandle}
    {trace : List CacheEvent} (hpins : ∀ q, c.pinOf q = 0) (hfetch : fetchPage p c = .ok hd c₁)
    (hord : Ordered c₁ capacity (orderAfter capacity victim order p))
    (hf : Fetches c c₁ p missed trace) (hmissed : missed = if p ∈ order then 0 else 1)
    (hgrown : c.trace <+: trace)
    (hseen : accessedIds trace = accessedIds c.trace ++ if c.observed then [p] else []) :
    Turned c (c.pageCalls [.fetch p, .release p]) capacity order p victim := by
  obtain ⟨hord', hpins', hmiss, htrace, hobs, hpol⟩ := hord.unpin p
  have hcalls : c.pageCalls [.fetch p, .release p] = c₁.unpinPage p := by
    show (c.pageCall (.fetch p)).unpinPage p = _
    simp only [pageCall, hfetch]
  rw [hcalls]
  refine ⟨hord', fun q => ?_, hobs.trans hf.observed, hpol.trans hf.policy, ?_, ?_, ?_⟩
  · rw [hpins', hf.pins, hpins p]
    by_cases hq : q = p
    · rw [hq, Function.update_self, Function.update_self]
    · rw [Function.update_of_ne hq, Function.update_of_ne hq, hpins q]
  · rw [hmiss, hf.misses, hmissed]
  · rw [htrace, hf.trace]
    exact hgrown
  · rw [htrace, hf.trace, hseen]

/-- **One page of a trace**, under any policy that names a candidate. -/
theorem Ordered.turned (h : Ordered c capacity order) (hcap : 1 ≤ capacity)
    (hmember : c.PolicyMember) (hpins : ∀ q, c.pinOf q = 0) (p : Nat) :
    Turned c (c.pageCalls [.fetch p, .release p]) capacity order p (c.nextVictim order p) := by
  by_cases hp : p ∈ order
  · obtain ⟨hd, c₁, heq, hord, hf⟩ := h.fetch_hit hp
    refine turned_of_fetched hpins heq ?_ hf (by rw [if_pos hp]) (trace_prefix_accessed c p true)
      (accessedIds_accessed c p true)
    rw [orderAfter, if_pos hp]
    exact hord
  rcases Nat.lt_or_ge order.length capacity with hroom | hge
  · obtain ⟨hd, c₁, heq, hord, hf⟩ := h.fetch_free hmember hp hroom
    refine turned_of_fetched hpins heq ?_ hf (by rw [if_neg hp]) (trace_prefix_accessed c p false)
      (accessedIds_accessed c p false)
    rw [orderAfter, if_neg hp, if_pos hroom]
    exact hord
  · have hshared := h.shared
    have hun : c.unpinnedLru = order.reverse := by
      rw [h.unpinnedLru_eq, List.filter_eq_self]
      intro q _
      rw [hpins q]
      rfl
    obtain ⟨front, rest, hlist⟩ : ∃ front rest, order.reverse = front :: rest := by
      cases hlist : order.reverse with
      | nil =>
          have hlen := congrArg List.length hlist
          rw [List.length_reverse, List.length_nil] at hlen
          omega
      | cons front rest => exact ⟨front, rest, rfl⟩
    obtain ⟨hd, c₁, heq, hord, -, -, hf⟩ := h.fetch_evict hmember hp (by omega) (hun.trans hlist)
    refine turned_of_fetched hpins heq ?_ hf (by rw [if_neg hp])
      ((trace_prefix_accessed c p false).trans (prefix_chosen _ _ _ _)) ?_
    · rw [orderAfter, if_neg hp, if_neg (by omega), nextVictim, hlist]
      exact hord
    · rw [accessedIds_chosen, accessedIds_accessed]

/-- **Behind a trace**, under any policy that names a candidate: what a new cache has and every page keeps. -/
theorem replayTrace_rec (file : MappedFile) (hcap : 1 ≤ capacity) (observed : Bool)
    {policy : Option PageEvictionPolicy}
    (hmember : (new file capacity observed policy).PolicyMember)
    {motive : List Nat → PageCache → List Nat → Prop}
    (start : motive [] (new file capacity observed policy) [])
    (turn : ∀ (pageIds : List Nat) (c c' : PageCache) (order : List Nat) (p victim : Nat),
      c.observed = observed → motive pageIds c order → Turned c c' capacity order p victim →
        motive (pageIds ++ [p]) c' (orderAfter capacity victim order p))
    (pageIds : List Nat) :
    let c := replayTrace file capacity observed policy pageIds
    ∃ order, Ordered c capacity order ∧ (∀ q, c.pinOf q = 0) ∧ c.observed = observed ∧
      c.evictionPolicy = policy ∧ motive pageIds c order := by
  induction pageIds using List.reverseRecOn with
  | nil =>
      refine ⟨[], ordered_new file capacity observed policy, ?_, rfl, rfl, start⟩
      intro q
      simp [replayTrace, releasedAtOnce, pageCalls, new, pinOf]
  | append_singleton pageIds p ih =>
      obtain ⟨order, hord, hpins, hobs, hpolicy, hmotive⟩ := ih
      have hmember' : (replayTrace file capacity observed policy pageIds).PolicyMember := by
        intro asked hasked
        rw [hpolicy] at hasked
        exact hmember asked hasked
      have h := hord.turned hcap hmember' hpins p
      rw [replayTrace_concat]
      exact ⟨_, h.ordered, h.pins, h.observed.trans hobs, h.policy.trans hpolicy,
        turn _ _ _ _ _ _ hobs hmotive h⟩

end PageCache

end Aqa
