/-
# Aqa.Cache.Competitive — how much a policy can gain over LRU.

Behind a trace of pages a cache with any policy is one of the caches that a recency list competes with
(`demandRun_replayTrace`): it loads the page it is asked for and gives up at most the victim. So however
the policy chooses, with an observer, learned weights or the whole trace in advance, LRU with at least as
many frames misses at most `k / (k - h + 1)` times as often, up to the misses that fill it.
-/
import Aqa.Cache.ScanResistance
import Aqa.Lib.Paging
import Aqa.Storage.PageTurns

namespace Aqa.PageCache

open Aqa.Lib

/-- The misses of an LRU cache are those of a recency list. -/
theorem misses_replayTrace_lru (file : MappedFile) {capacity : Nat} (hcap : 1 ≤ capacity)
    (observed : Bool) {policy : Option PageEvictionPolicy} (hfront : TakesFront policy)
    (pageIds : List Nat) :
    (replayTrace file capacity observed policy pageIds).misses = lruMisses capacity [] pageIds := by
  induction pageIds using List.reverseRecOn with
  | nil => rfl
  | append_singleton pageIds p ih =>
      rw [misses_replayTrace_concat file hcap observed hfront, lruMisses_concat, ih]

/-- What a turn does to the set of resident pages. -/
theorem Turned.serves {c c' : PageCache} {capacity : Nat} {order : List Nat} {p victim : Nat}
    (h : Turned c c' capacity order p victim) :
    Serves capacity order.toFinset (orderAfter capacity victim order p).toFinset p := by
  have hkeeps : ∀ q ∈ order, q ≠ victim ∨ p ∈ order →
      q ∈ orderAfter capacity victim order p := by
    intro q hq hstays
    by_cases hqp : q = p
    · rw [hqp]
      exact mem_orderAfter_self _ _ _ _
    unfold orderAfter
    by_cases hp : p ∈ order
    · rw [if_pos hp]
      exact List.mem_cons_of_mem _ ((List.mem_erase_of_ne hqp).mpr hq)
    rw [if_neg hp]
    split
    · exact List.mem_cons_of_mem _ hq
    · exact List.mem_cons_of_mem _ ((List.mem_erase_of_ne (hstays.resolve_right hp)).mpr hq)
  refine ⟨List.mem_toFinset.mpr (mem_orderAfter_self _ _ _ _), ?_, ?_, victim, ?_⟩
  · have hshared := h.ordered.shared
    exact (List.toFinset_card_le _).trans (by omega)
  · intro hp q hq
    rw [List.mem_toFinset] at hp hq ⊢
    exact hkeeps q hq (Or.inr hp)
  · intro q hq
    rw [List.mem_toFinset] at hq
    rw [Finset.mem_insert, List.mem_toFinset]
    by_cases hvictim : q = victim
    · exact Or.inl hvictim
    · exact Or.inr (hkeeps q hq (Or.inl hvictim))

/-- A cache behind a trace is a competitor, whatever its policy. -/
theorem demandRun_replayTrace (file : MappedFile) {capacity : Nat} (hcap : 1 ≤ capacity)
    (observed : Bool) {policy : Option PageEvictionPolicy}
    (hmember : (new file capacity observed policy).PolicyMember) (pageIds : List Nat) :
    ∃ resident, DemandRun capacity pageIds resident
      (replayTrace file capacity observed policy pageIds).misses := by
  obtain ⟨order, -, -, -, -, hrun⟩ := replayTrace_rec file hcap observed hmember
    (motive := fun pageIds c order => DemandRun capacity pageIds order.toFinset c.misses)
    DemandRun.nil (by
      intro pageIds c c' order p victim _ hrun hturned
      have hserved := hrun.serve hturned.serves
      simp only [List.mem_toFinset] at hserved
      rw [hturned.misses]
      exact hserved) pageIds
  exact ⟨order.toFinset, hrun⟩

/-- **LRU is competitive.** On every trace of pages whose handles are released at once, an LRU cache of
`k` frames misses, beyond the misses that fill it, at most `k / (k - h + 1)` times as often as a cache of
`h ≤ k` frames with any policy that names a candidate. -/
theorem lru_competitive (file : MappedFile) (observed : Bool) (lru : Option PageEvictionPolicy)
    (hlru : lru = none ∨ lru = some lruPagePolicy) (file' : MappedFile) (observed' : Bool)
    (policy : Option PageEvictionPolicy) (h k : Nat) (hpos : 1 ≤ h) (hle : h ≤ k)
    (hmember : (new file' h observed' policy).PolicyMember) (pageIds : List Nat) :
    (k - h + 1) * (replayTrace file k observed lru pageIds).misses ≤
      k * (replayTrace file' h observed' policy pageIds).misses + (k - h + 1) * k := by
  obtain ⟨resident, hrun⟩ := demandRun_replayTrace file' hpos observed' hmember pageIds
  rw [misses_replayTrace_lru file (le_trans hpos hle) observed hlru]
  exact hrun.lruMisses_le hle

/-- Against LFU with one frame less, on the counts of an observer. -/
theorem lru_competitive_lfu :
    let file := MappedFile.new (some (List.replicate (4 * PAGE_SIZE) 0))
    let lfu : PageEvictionPolicy := observedPolicy 8 lfuVictim
    2 * (replayTrace file 3 false none [0, 1, 2, 0, 3, 0, 1]).misses ≤
      3 * (replayTrace file 2 true (some lfu) [0, 1, 2, 0, 3, 0, 1]).misses + 2 * 3 := by
  intro file lfu
  refine lru_competitive file false none (Or.inl rfl) file true (some lfu) 2 3 (by decide)
    (by decide) ?_ [0, 1, 2, 0, 3, 0, 1]
  intro policy hasked trace l hne
  rw [← Option.some.inj hasked]
  exact lfuVictim_mem _ hne

end Aqa.PageCache
