/-
# Aqa.Storage.FetchOrder — a fetch and the order of the resident pages.

`Ordered c capacity order` says that the recency list of a cache with its pool in order reads
`order`, and that its frames are shared between the resident pages and the free list. A fetch is one
of four things: a hit, a miss with a free frame, a miss with a victim, a refusal. Each has its
lemma, with the new order, the pins, the miss counter and what observer and policy have seen.
-/
import Aqa.Storage.Pool

namespace Aqa

open Aqa.Lib

namespace PageCache

/-- What the observer has seen behind an access. -/
def accessed (c : PageCache) (p : Nat) (hit : Bool) : List CacheEvent :=
  (c.recordAccess p hit).trace

/-- The pool is in order and its recency list reads `order`. -/
structure Ordered (c : PageCache) (capacity : Nat) (order : List Nat) : Prop extends Pool c none where
  order_eq : c.lruList.toList = order
  shared : c.freeFrames.length + order.length = capacity

/-- What a fetch of page `p` that returns does, `missed` misses and the trace given. -/
structure Fetches (c c' : PageCache) (p missed : Nat) (trace : List CacheEvent) : Prop where
  pins : c'.pinOf = Function.update c.pinOf p (c.pinOf p + 1)
  misses : c'.misses = c.misses + missed
  trace : c'.trace = trace
  observed : c'.observed = c.observed
  policy : c'.evictionPolicy = c.evictionPolicy

theorem ordered_new (file : MappedFile) (capacity : Nat) (observed : Bool)
    (policy : Option PageEvictionPolicy) : Ordered (new file capacity observed policy) capacity [] where
  toPool := pool_new file capacity observed policy
  order_eq := rfl
  shared := by simp [new]

/-- Frames without a page and pages share the frames. -/
theorem Pool.ordered {c : PageCache} (h : Pool c none) : Ordered c c.pool.length c.lruList.toList := by
  refine { h with order_eq := rfl, shared := ?_ }
  obtain ⟨hnodup, hmem⟩ := h.lruList_exact
  have hframe : ∀ p ∈ c.lruList.toList, c.pageMap.lookup p = some (c.frameOf p) := by
    intro p hp
    obtain ⟨f, hf⟩ := Option.isSome_iff_exists.mp ((hmem p).mp hp)
    rw [frameOf, hf, Option.getD_some]
  have hperm : (c.freeFrames ++ c.lruList.toList.map c.frameOf).Perm (List.range c.pool.length) := by
    rw [List.perm_ext_iff_of_nodup ?_ List.nodup_range]
    · intro f
      rw [List.mem_append, List.mem_map, List.mem_range]
      constructor
      · rintro (hf | ⟨p, hp, rfl⟩)
        · exact h.free_lt f hf
        · exact h.frame_lt p _ (hframe p hp)
      · intro hf
        rcases h.cover f hf with hhole | hfree | ⟨p, hp⟩
        · exact absurd hhole (by simp)
        · exact Or.inl hfree
        · exact Or.inr ⟨p, (hmem p).mpr (by rw [hp]; rfl), by rw [frameOf, hp, Option.getD_some]⟩
    · refine List.nodup_append.mpr ⟨h.free_nodup, ?_, ?_⟩
      · apply hnodup.map_on
        intro p hp q hq heq
        exact h.frame_inj p q _ (hframe p hp) (heq ▸ hframe q hq)
      · rintro f hf _ hmap rfl
        obtain ⟨p, hp, rfl⟩ := List.mem_map.mp hmap
        exact h.free_unused _ hf p (hframe p hp)
  have hlen := hperm.length_eq
  rwa [List.length_append, List.length_map, List.length_range] at hlen

@[simp]
theorem recordAccess_lruList (c : PageCache) (p : Nat) (b : Bool) :
    (c.recordAccess p b).lruList = c.lruList ∧ (c.recordAccess p b).lruIters = c.lruIters := by
  rw [recordAccess]
  split <;> exact ⟨rfl, rfl⟩

@[simp]
theorem recordAccess_counters (c : PageCache) (p : Nat) (b : Bool) :
    (c.recordAccess p b).misses = c.misses ∧ (c.recordAccess p b).observed = c.observed := by
  rw [recordAccess]
  split <;> exact ⟨rfl, rfl⟩

section Fetch

variable {c : PageCache} {capacity : Nat} {order : List Nat}

namespace Ordered

theorem nodup (h : Ordered c capacity order) : order.Nodup := by
  rw [← h.order_eq]
  exact h.toPool.lruList_exact.1

theorem mem_iff (h : Ordered c capacity order) {p : Nat} :
    p ∈ order ↔ (c.pageMap.lookup p).isSome := by
  rw [← h.order_eq]
  exact h.toPool.lruList_exact.2 p

/-- The candidates for eviction, from the order. -/
theorem unpinnedLru_eq (h : Ordered c capacity order) :
    c.unpinnedLru = order.reverse.filter fun q => c.pinOf q == 0 := by
  unfold unpinnedLru
  rw [h.order_eq]
  apply List.filter_congr
  intro q hq
  obtain ⟨f, hf⟩ := Option.isSome_iff_exists.mp (h.mem_iff.mp (List.mem_reverse.mp hq))
  rw [frameOf, pinOf, hf, Option.getD_some]

end Ordered

/-- Touching a page moves it to the front of the order. -/
theorem order_touchPage {hole : Option Nat} (h : Pool c hole) {p : Nat}
    (hp : (c.pageMap.lookup p).isSome) :
    (c.touchPage p).lruList.toList = p :: c.lruList.toList.erase p := by
  obtain ⟨it, hit⟩ := Option.isSome_iff_exists.mp ((h.resident p).mp hp)
  show ((c.lruList.erase ((c.lruIters.lookup p).getD c.lruList.nextAddr)).pushFront p).toList = _
  rw [hit, Option.getD_some, StdList.toList_pushFront,
    StdList.toList_erase ((h.iters p it).mp hit) h.lruList_exact.1]

/-- A fetch of a resident page. -/
theorem Ordered.fetch_hit (h : Ordered c capacity order) {p : Nat} (hp : p ∈ order) :
    ∃ hd c', fetchPage p c = .ok hd c' ∧ Ordered c' capacity (p :: order.erase p) ∧
      Fetches c c' p 0 (c.accessed p true) := by
  obtain ⟨f, hf⟩ := Option.isSome_iff_exists.mp (h.mem_iff.mp hp)
  obtain ⟨c', heq, hhit⟩ := hitPage_cases h.toPool hf
  have hcounters := recordAccess_counters { c with hits := c.hits + 1 } p true
  have hlists := recordAccess_lruList { c with hits := c.hits + 1 } p true
  obtain ⟨m, hm⟩ : ∃ m, { c with hits := c.hits + 1 }.recordAccess p true = m := ⟨_, rfl⟩
  have hmpool : Pool m none := hm ▸ pool_recordAccess (pool_counters h.toPool _ c.misses) p true
  have hmap : m.pageMap = c.pageMap := by rw [← hm, recordAccess_pageMap]
  have htrace : m.trace = c.accessed p true := by
    rw [← hm, accessed, recordAccess, recordAccess]
    split <;> rfl
  have hc' := heq
  unfold hitPage at hc'
  rw [hm] at hc' hcounters hlists
  simp only [EStateM.Result.ok.injEq] at hc'
  obtain ⟨-, rfl⟩ := hc'
  refine ⟨⟨p, f⟩, _, ?_, ⟨hhit.inv, ?_, ?_⟩, hhit.pins, hcounters.1, htrace, hcounters.2,
    hhit.policy⟩
  · simp only [fetchPage, getPageInternal, bind, EStateM.bind, hf, heq, pure, EStateM.pure]
  · show (m.touchPage p).lruList.toList = _
    rw [order_touchPage hmpool (by rw [hmap, hf]; rfl), hlists.1, h.order_eq]
  · show m.freeFrames.length + (p :: order.erase p).length = capacity
    have hfree : m.freeFrames = c.freeFrames := by rw [← hm, recordAccess_freeFrames]
    have hpos := List.length_pos_of_mem hp
    have hshared := h.shared
    rw [hfree, List.length_cons, List.length_erase_of_mem hp]
    omega

/-- The cache of a miss, once the miss is counted and observed. -/
theorem missed_cases (h : Ordered c capacity order) (p : Nat) :
    ∃ m, { c with misses := c.misses + 1 }.recordAccess p false = m ∧ Ordered m capacity order ∧
      m.pageMap = c.pageMap ∧ m.freeFrames = c.freeFrames ∧ m.pinOf = c.pinOf ∧
      m.misses = c.misses + 1 ∧ m.trace = c.accessed p false ∧ m.observed = c.observed ∧
      m.evictionPolicy = c.evictionPolicy := by
  have hcounters := recordAccess_counters { c with misses := c.misses + 1 } p false
  have hlists := recordAccess_lruList { c with misses := c.misses + 1 } p false
  refine ⟨_, rfl, ⟨pool_recordAccess (pool_counters h.toPool c.hits _) p false, ?_, ?_⟩, ?_, ?_, ?_,
    hcounters.1, ?_, hcounters.2, ?_⟩
  · rw [hlists.1]
    exact h.order_eq
  · rw [recordAccess_freeFrames]
    exact h.shared
  · rw [recordAccess_pageMap]
  · rw [recordAccess_freeFrames]
  · rw [pinOf_recordAccess]
    rfl
  · rw [accessed, recordAccess, recordAccess]
    split <;> rfl
  · rw [recordAccess_evictionPolicy]

/-- A fetch of a page that is not resident, once the frame is taken. -/
theorem fetchPage_of_takeFrame {p f : Nat} {m c₁ : PageCache}
    (hm : { c with misses := c.misses + 1 }.recordAccess p false = m)
    (hp : c.pageMap.lookup p = none) (htake : takeFrame m = .ok f c₁) :
    fetchPage p c = .ok ⟨p, f⟩ (c₁.installPage p f) := by
  simp only [fetchPage, getPageInternal, bind, EStateM.bind, hp, hm, htake, pure, EStateM.pure]

/-- A miss with a free frame. -/
theorem Ordered.fetch_free (h : Ordered c capacity order) (hmember : c.PolicyMember) {p : Nat}
    (hp : p ∉ order) (hroom : order.length < capacity) :
    ∃ hd c', fetchPage p c = .ok hd c' ∧ Ordered c' capacity (p :: order) ∧
      Fetches c c' p 1 (c.accessed p false) := by
  obtain ⟨m, hm, hord, hmap, hfree, hpins, hmiss, htrace, hobs, hpol⟩ := missed_cases h p
  have hshared := hord.shared
  obtain ⟨f, rest, hlist⟩ : ∃ f rest, m.freeFrames = f :: rest := by
    cases hlist : m.freeFrames with
    | nil =>
        rw [hlist, List.length_nil] at hshared
        omega
    | cons f rest => exact ⟨f, rest, rfl⟩
  have hnone : c.pageMap.lookup p = none := by
    rw [← Option.not_isSome_iff_eq_none, ← h.mem_iff]
    exact hp
  have htake : takeFrame m = .ok f { m with freeFrames := rest } := by
    simp only [takeFrame, hlist]
  -- the same call, once computed and once described
  rcases takeFrame_cases hord.toPool (by rw [PolicyMember, hpol]; exact hmember) with
    ⟨hnil, -, -⟩ | ⟨g, c₁, heq, hpool, htook⟩
  · rw [hlist] at hnil
    exact absurd hnil (by simp)
  rw [htake] at heq
  simp only [EStateM.Result.ok.injEq] at heq
  obtain ⟨rfl, rfl⟩ := heq
  have hnone₁ : ({ m with freeFrames := rest } : PageCache).pageMap.lookup p = none := by
    show m.pageMap.lookup p = none
    rw [hmap, hnone]
  refine ⟨⟨p, f⟩, _, fetchPage_of_takeFrame hm hnone htake,
    ⟨pool_installPage hpool hnone₁, ?_, ?_⟩, ?_, hmiss, htrace, hobs, hpol⟩
  · show (m.lruList.pushFront p).toList = p :: order
    rw [StdList.toList_pushFront, hord.order_eq]
  · show rest.length + (p :: order).length = capacity
    rw [hlist, List.length_cons] at hshared
    rw [List.length_cons]
    omega
  · rw [pinOf_installPage hpool hnone₁, htook.pins, hpins]

/-- The victim a policy names on what it has seen. -/
def victimOf (policy : Option PageEvictionPolicy) (trace : List CacheEvent) (front : Nat)
    (candidates : List Nat) : Nat :=
  match policy with
  | some policy => policy trace candidates
  | none => front

/-- What observer and policy have seen behind a choice of victim. -/
def chosen (policy : Option PageEvictionPolicy) (trace : List CacheEvent) (candidates : List Nat)
    (victim : Nat) : List CacheEvent :=
  match policy with
  | some _ => trace ++ [.victim candidates victim]
  | none => trace

/-- Evicting a page takes it out of the order. -/
theorem Ordered.evict_eq (h : Ordered c capacity order) (hmember : c.PolicyMember) {front : Nat}
    {rest : List Nat} (hun : c.unpinnedLru = front :: rest) :
    ∃ f c', evict c = .ok f c' ∧
      c'.lruList.toList = order.erase (c.chooseVictim front (front :: rest)) ∧
      c'.freeFrames = c.freeFrames ∧ c'.misses = c.misses ∧ c'.observed = c.observed ∧
      c'.trace = chosen c.evictionPolicy c.trace (front :: rest)
        (c.chooseVictim front (front :: rest)) := by
  have hmem := chooseVictim_mem hmember front rest
  rw [← hun] at hmem
  generalize hvictim : c.chooseVictim front c.unpinnedLru = victim at hmem
  rw [hun] at hvictim
  obtain ⟨hres, -⟩ := (mem_unpinnedLru h.toPool).mp hmem
  obtain ⟨it, hit⟩ := Option.isSome_iff_exists.mp ((h.resident victim).mp hres)
  have hnode := (h.iters victim it).mp hit
  have hfind : c.lruList.find? victim = some it := h.indexes.find?_eq hit
  rw [hvictim]
  refine ⟨c.frameOf victim, { c with
      file := c.file.storePage victim (c.pool.getD (c.frameOf victim) RawPage.reset)
      pageMap := c.pageMap.erase victim
      lruIters := c.lruIters.erase victim
      lruList := c.lruList.erase it
      trace := chosen c.evictionPolicy c.trace (front :: rest) victim }, ?_, ?_, rfl, rfl, rfl, rfl⟩
  · simp only [evict, hun, hvictim, hfind]
    rfl
  · rw [StdList.toList_erase hnode h.toPool.lruList_exact.1, h.order_eq]

/-- A miss without a free frame, when some page is not pinned. -/
theorem Ordered.fetch_evict (h : Ordered c capacity order) (hmember : c.PolicyMember) {p : Nat}
    (hp : p ∉ order) (hfull : order.length = capacity) {front : Nat} {rest : List Nat}
    (hun : c.unpinnedLru = front :: rest) :
    let victim := victimOf c.evictionPolicy (c.accessed p false) front (front :: rest)
    ∃ hd c', fetchPage p c = .ok hd c' ∧ Ordered c' capacity (p :: order.erase victim) ∧
      victim ∈ order ∧ c.pinOf victim = 0 ∧
      Fetches c c' p 1 (chosen c.evictionPolicy (c.accessed p false) (front :: rest) victim) := by
  intro victim
  obtain ⟨m, hm, hord, hmap, hfree, hpins, hmiss, htrace, hobs, hpol⟩ := missed_cases h p
  have hshared := hord.shared
  have hnil : m.freeFrames = [] := by
    rw [← List.length_eq_zero_iff]
    omega
  have hnone : c.pageMap.lookup p = none := by
    rw [← Option.not_isSome_iff_eq_none, ← h.mem_iff]
    exact hp
  -- counting the miss changes neither pins nor order, so the candidates are the same
  have hunm : m.unpinnedLru = front :: rest := by
    rw [hord.unpinnedLru_eq, hpins, ← h.unpinnedLru_eq, hun]
  have hmember' : m.PolicyMember := by
    rw [PolicyMember, hpol]
    exact hmember
  have hvictim : m.chooseVictim front (front :: rest) = victim := by
    unfold chooseVictim
    rw [hpol, htrace]
    rfl
  have hmem := chooseVictim_mem hmember' front rest
  rw [hvictim, ← hunm] at hmem
  obtain ⟨hres, hzero⟩ := (mem_unpinnedLru hord.toPool).mp hmem
  obtain ⟨f, c₁, hevict, hlist, hfree₁, hmiss₁, hobs₁, htrace₁⟩ := hord.evict_eq hmember' hunm
  have htake : takeFrame m = .ok f c₁ := by
    unfold takeFrame
    rw [hnil]
    exact hevict
  -- the eviction, once computed and once described
  rcases takeFrame_cases hord.toPool hmember' with ⟨-, -, herr⟩ | ⟨g, c₂, heq, hpool, htook⟩
  · rw [htake] at herr
    exact absurd herr (by simp)
  rw [htake] at heq
  simp only [EStateM.Result.ok.injEq] at heq
  obtain ⟨rfl, rfl⟩ := heq
  -- an eviction brings no page in
  have hnone₁ : c₁.pageMap.lookup p = none := by
    cases hlook : c₁.pageMap.lookup p with
    | none => rfl
    | some g =>
        have hold := htook.sub hlook
        rw [hmap, hnone] at hold
        exact absurd hold (by simp)
  refine ⟨⟨p, f⟩, _, fetchPage_of_takeFrame hm hnone htake,
    ⟨pool_installPage hpool hnone₁, ?_, ?_⟩, hord.mem_iff.mpr hres, by rw [← hpins]; exact hzero,
    ?_, ?_, ?_, ?_, ?_⟩
  · show (c₁.lruList.pushFront p).toList = _
    rw [StdList.toList_pushFront, hlist, hvictim]
  · show c₁.freeFrames.length + (p :: order.erase victim).length = capacity
    have hin : victim ∈ order := hord.mem_iff.mpr hres
    have hpos := List.length_pos_of_mem hin
    rw [hfree₁, hnil, List.length_cons, List.length_erase_of_mem hin, List.length_nil]
    omega
  · rw [pinOf_installPage hpool hnone₁, htook.pins, hpins]
  · exact hmiss₁.trans hmiss
  · show c₁.trace = _
    rw [htrace₁, hvictim, hpol, htrace]
  · exact hobs₁.trans hobs
  · exact htook.policy.trans hpol

/-- A miss without a free frame, when every resident page is pinned. -/
theorem Ordered.fetch_refused (h : Ordered c capacity order) (hmember : c.PolicyMember) {p : Nat}
    (hp : p ∉ order) (hfull : order.length = capacity) (hun : c.unpinnedLru = []) :
    ∃ c', fetchPage p c =
        .error (.runtimeError "Buffer Pool Full: All pages are pinned..") c' ∧
      Ordered c' capacity order ∧ c'.pinOf = c.pinOf ∧ c'.evictionPolicy = c.evictionPolicy := by
  have hshared := h.shared
  have hpinned : ∀ q, (c.pageMap.lookup q).isSome → c.pinOf q ≠ 0 := by
    intro q hq hzero
    have hmem := (mem_unpinnedLru h.toPool).mpr ⟨hq, hzero⟩
    rw [hun] at hmem
    exact absurd hmem (by simp)
  -- the other two outcomes need the page in the order, or a frame
  rcases fetchPage_cases h.toPool hmember p with
    ⟨f, c', hlook, -, -⟩ | ⟨-, f, c₁, -, hpool, -, htook⟩ | ⟨-, -, -, c', heq, href⟩
  · exact absurd (h.mem_iff.mpr (by rw [hlook]; rfl)) hp
  · refine absurd ⟨?_, hpinned⟩ (htook.not_full h.toPool hpool)
    rw [← List.length_eq_zero_iff]
    omega
  · refine ⟨c', heq, ⟨href.inv, by rw [href.lruList, h.order_eq], by rw [href.freeFrames]; exact hshared⟩,
      ?_, href.policy⟩
    funext q
    unfold pinOf pinAt
    rw [href.pageMap, href.pinCounts]

/-- The release of a handle leaves the order as it is. -/
theorem Ordered.unpin (h : Ordered c capacity order) (p : Nat) :
    Ordered (c.unpinPage p) capacity order ∧
      (c.unpinPage p).pinOf = Function.update c.pinOf p (c.pinOf p - 1) ∧
      (c.unpinPage p).misses = c.misses ∧ (c.unpinPage p).trace = c.trace ∧
      (c.unpinPage p).observed = c.observed ∧ (c.unpinPage p).evictionPolicy = c.evictionPolicy := by
  obtain ⟨hpool, ⟨counts, heq⟩, hpins⟩ := unpinPage_pool h.toPool p
  refine ⟨⟨hpool, ?_, ?_⟩, hpins, ?_, ?_, ?_, ?_⟩
  · rw [heq]
    exact h.order_eq
  · rw [heq]
    exact h.shared
  all_goals rw [heq]

end Fetch

end PageCache

end Aqa
