/-
# Aqa.Cache.ScanResistance — what the scan-resistant policies protect, and what they do not.

A page cache with an observer asks a policy that looks at the accesses this cache has recorded. With a
policy that prefers pages of a run, a sequential scan of any length only ever replaces itself: pages
that no access in the window is next to stay, and every lookup of them is a hit
(`scan_keeps_hot_pages`). Pages with consecutive ids are next to each other, so they count as scan
traffic themselves: on a trace that reaches every page after the pages below it, the policy never
differs from LRU (`consecutive_pages_lru`).
-/
import Aqa.Cache.AdaptivePolicies
import Aqa.Storage.PageTurns

namespace Aqa

open Aqa.Lib AccessObserver

/-! ## Policies beside the observer of their cache -/

/-- The observer of a page cache, from what it has seen. -/
def observerOf (ringCapacity : Nat) (trace : List CacheEvent) : AccessObserver :=
  observed ringCapacity (trace.filterMap CacheEvent.observerCall)

/-- A policy constructed with the observer of its cache. -/
def observedPolicy (ringCapacity : Nat) (choose : Option AccessObserver → List Nat → Nat) :
    PageEvictionPolicy := fun trace unpinned => choose (some (observerOf ringCapacity trace)) unpinned

theorem recentSet_observerOf {ringCapacity : Nat} (hring : ringCapacity < 2 ^ 64)
    (trace : List CacheEvent) :
    (observerOf ringCapacity trace).recentSet =
      window (max ringCapacity 1) (accessedIds trace) := by
  have h := tracks_observed hring (trace.filterMap CacheEvent.observerCall)
  have hrecent := h.recentSet_eq
  rw [capacity_observed, pageIds, ← window_map, List.map_map] at hrecent
  exact hrecent

/-- The choice is one of the candidates, and one of a run whenever there is one. -/
def PrefersRuns (choose : Option AccessObserver → List Nat → Nat) : Prop :=
  ∀ (o : AccessObserver) (unpinned : List Nat), unpinned ≠ [] →
    choose (some o) unpinned ∈ unpinned ∧
      ((∃ p ∈ unpinned, inRun o.recentSet p) → inRun o.recentSet (choose (some o) unpinned))

theorem prefersRuns_scanResistant : PrefersRuns scanResistantVictim := by
  intro o unpinned hne
  refine ⟨scanResistantVictim_mem (some o) hne, ?_⟩
  rintro ⟨p, hp, hrun⟩
  have hchoice : scanResistantVictim (some o) unpinned = firstInRun o unpinned := by
    cases unpinned with
    | nil => exact absurd rfl hne
    | cons front rest => rfl
  rw [hchoice, firstInRun]
  cases hfind : unpinned.find? (inRun o.recentSet) with
  | none => exact absurd hrun (List.find?_eq_none.mp hfind p hp)
  | some v => exact List.find?_some hfind

theorem prefersRuns_scanResistantThenLfu : PrefersRuns scanResistantThenLfuVictim := by
  intro o unpinned hne
  refine ⟨scanResistantThenLfuVictim_mem (some o) hne, ?_⟩
  rintro ⟨p, hp, hrun⟩
  have hcandidates : unpinned.filter (inRun o.recentSet) ≠ [] :=
    List.ne_nil_of_mem (List.mem_filter.mpr ⟨hp, hrun⟩)
  have hchoice : scanResistantThenLfuVictim (some o) unpinned =
      leastAccessed o (unpinned.filter (inRun o.recentSet)) := by
    cases unpinned with
    | nil => exact absurd rfl hne
    | cons front rest =>
        unfold scanResistantThenLfuVictim
        dsimp only
        rw [if_neg (by rw [List.isEmpty_iff]; exact hcandidates)]
  rw [hchoice]
  exact (List.mem_filter.mp (leastAccessed_mem o hcandidates)).2

theorem prefersRuns_hintAware : PrefersRuns (hintAwareVictim .scan) := by
  rw [hintAwareVictim_scan]
  exact prefersRuns_scanResistant

theorem Adjacent.mono {ids more : List Nat} {p : Nat} (h : Adjacent ids p) (hsub : ids ⊆ more) :
    Adjacent more p := by
  rcases h with hup | ⟨q, hq, hdown⟩
  · exact Or.inl (hsub hup)
  · exact Or.inr ⟨q, hsub hq, hdown⟩

namespace PageCache

variable {c : PageCache} {capacity : Nat} {order : List Nat}

/-- Behind a trace, with an observer. -/
theorem seen_replayTrace (file : MappedFile) (hcap : 1 ≤ capacity) {policy : PageEvictionPolicy}
    (hmember : ∀ trace l, l ≠ [] → policy trace l ∈ l) (pageIds : List Nat) :
    let c := replayTrace file capacity true (some policy) pageIds
    ∃ order, Ordered c capacity order ∧ (∀ q, c.pinOf q = 0) ∧ c.observed = true ∧
      c.evictionPolicy = some policy ∧ accessedIds c.trace = pageIds ∧
      ∀ p ∈ pageIds.getLast?, p ∈ order := by
  have hmember' : (new file capacity true (some policy)).PolicyMember := by
    intro asked hasked
    exact Option.some.inj hasked ▸ hmember
  refine replayTrace_rec file hcap true hmember'
    (motive := fun pageIds c order =>
      accessedIds c.trace = pageIds ∧ ∀ p ∈ pageIds.getLast?, p ∈ order) ⟨rfl, by simp⟩ ?_ pageIds
  rintro pageIds c c' order p victim hobs ⟨hseen, -⟩ h
  refine ⟨by rw [h.seen, hseen, if_pos hobs], ?_⟩
  intro q hq
  rw [List.getLast?_concat, Option.mem_some_iff] at hq
  rw [← hq]
  exact mem_orderAfter_self _ _ _ _

/-! ## Scans -/

/-- A cache without pins, with a policy that from here on looks at the accesses of this cache. -/
structure Watched (ringCapacity : Nat) (choose : Option AccessObserver → List Nat → Nat)
    (policy : PageEvictionPolicy) (c : PageCache) (capacity : Nat) (order ids : List Nat) : Prop where
  ordered : Ordered c capacity order
  pins : ∀ q, c.pinOf q = 0
  observed : c.observed = true
  asks : ∀ trace l, c.trace <+: trace →
    policy trace l = choose (some (observerOf ringCapacity trace)) l
  asked : c.evictionPolicy = some policy
  seen : accessedIds c.trace = ids

variable {ringCapacity : Nat} {choose : Option AccessObserver → List Nat → Nat}
  {policy : PageEvictionPolicy} {ids : List Nat}

/-- One page of a trace, under a policy that prefers runs. -/
theorem Watched.page (h : Watched ringCapacity choose policy c capacity order ids)
    (hcap : 1 ≤ capacity) (hring : ringCapacity < 2 ^ 64)
    (hmember : ∀ trace l, l ≠ [] → policy trace l ∈ l) (p : Nat) :
    let c' := c.pageCalls [.fetch p, .release p]
    ∃ o victim, o.recentSet = window (max ringCapacity 1) (ids ++ [p]) ∧
      victim = choose (some o) order.reverse ∧
      Watched ringCapacity choose policy c' capacity (orderAfter capacity victim order p)
        (ids ++ [p]) ∧
      c'.misses = c.misses + if p ∈ order then 0 else 1 := by
  intro c'
  have hmember' : c.PolicyMember := by
    intro asked hasked
    rw [h.asked] at hasked
    exact Option.some.inj hasked ▸ hmember
  have hturned := h.ordered.turned hcap hmember' h.pins p
  have hseen : accessedIds (c.accessed p false) = ids ++ [p] := by
    rw [accessedIds_accessed, h.seen, if_pos h.observed]
  have hvictim : c.nextVictim order p =
      choose (some (observerOf ringCapacity (c.accessed p false))) order.reverse := by
    rw [nextVictim, h.asked]
    exact h.asks _ _ (trace_prefix_accessed c p false)
  refine ⟨observerOf ringCapacity (c.accessed p false), _, ?_, hvictim, ⟨hturned.ordered,
    hturned.pins, hturned.observed.trans h.observed, ?_, hturned.policy.trans h.asked, ?_⟩,
    hturned.misses⟩
  · rw [recentSet_observerOf hring, hseen]
  · intro trace l hgrown
    exact h.asks trace l (hturned.grown.trans hgrown)
  · rw [hturned.seen, h.seen, if_pos h.observed]

/-- A scan beside lookups of pages that nothing is next to. -/
theorem Watched.scan (hcap : 1 ≤ capacity) (hring : ringCapacity < 2 ^ 64)
    (hmember : ∀ trace l, l ≠ [] → policy trace l ∈ l) (hchoose : PrefersRuns choose)
    {hot : List Nat} (hsmall : ∀ h ∈ hot, h + 1 < 2 ^ 32)
    (mixed : List Nat) :
    ∀ {c : PageCache} {order ids : List Nat} {last n : Nat},
      Watched ringCapacity choose policy c capacity order ids → hot ⊆ order → last ∈ order →
      mixed.filter (· ∉ hot) = List.range' (last + 1) n → last + n < 2 ^ 32 →
      (∀ h ∈ hot, ¬ Adjacent (window (max ringCapacity 1) ids ++
        List.range' (last + 1) n ++ hot) h) →
      ∃ order', Watched ringCapacity choose policy (c.pageCalls (releasedAtOnce mixed)) capacity
          order' (ids ++ mixed) ∧ hot ⊆ order' ∧
        (c.pageCalls (releasedAtOnce mixed)).misses ≤ c.misses + n := by
  induction mixed with
  | nil =>
      intro c order ids last n h hhot _ _ _ _
      exact ⟨order, by rw [List.append_nil]; exact h, hhot, Nat.le_add_right _ _⟩
  | cons p mixed ih =>
      intro c order ids last n h hhot hlast hmixed hbound hapart
      obtain ⟨o, victim, hrecent, hvictim, h', hmisses⟩ := h.page hcap hring hmember p
      have hcalls : c.pageCalls (releasedAtOnce (p :: mixed)) =
          (c.pageCalls [.fetch p, .release p]).pageCalls (releasedAtOnce mixed) :=
        pageCalls_append c [.fetch p, .release p] (releasedAtOnce mixed)
      have hids : ids ++ p :: mixed = (ids ++ [p]) ++ mixed := by
        rw [List.append_assoc, List.singleton_append]
      have hwindow := window_concat_subset (max ringCapacity 1) ids p
      have hin := mem_window_concat (Nat.lt_of_lt_of_le Nat.zero_lt_one (le_max_right ringCapacity 1))
        ids p
      rw [hcalls, hids]
      by_cases hp : p ∈ hot
      · -- a lookup of a resident page, which keeps all pages
        rw [List.filter_cons_of_neg (by simpa using hp)] at hmixed
        rw [if_pos (hhot hp), Nat.add_zero] at hmisses
        have horder : orderAfter capacity victim order p = p :: order.erase p := by
          rw [orderAfter, if_pos (hhot hp)]
        have hkeep : ∀ q ∈ order, q ∈ p :: order.erase p := by
          intro q hq
          by_cases hqp : q = p
          · rw [hqp]
            exact List.mem_cons_self
          · exact List.mem_cons_of_mem p ((List.mem_erase_of_ne hqp).mpr hq)
        rw [horder] at h'
        have hapart' : ∀ q ∈ hot, ¬ Adjacent (window (max ringCapacity 1) (ids ++ [p]) ++
            List.range' (last + 1) n ++ hot) q := by
          intro q hq hadj
          refine hapart q hq (hadj.mono fun x hx => ?_)
          simp only [List.mem_append] at hx ⊢
          rcases hx with (hx | hx) | hx
          · rcases List.mem_cons.mp (hwindow hx) with rfl | hx
            · exact Or.inr hp
            · exact Or.inl (Or.inl hx)
          · exact Or.inl (Or.inr hx)
          · exact Or.inr hx
        obtain ⟨order', hwatched, hhot', hless⟩ := ih h' (fun q hq => hkeep q (hhot hq))
          (hkeep last hlast) hmixed hbound hapart'
        exact ⟨order', hwatched, hhot', by rw [hmisses] at hless; exact hless⟩
      · -- the next page of the scan
        rw [List.filter_cons_of_pos (by simpa using hp)] at hmixed
        obtain ⟨m, rfl⟩ : ∃ m, n = m + 1 := by
          cases n with
          | zero => exact absurd hmixed (by simp)
          | succ m => exact ⟨m, rfl⟩
        rw [List.range'_succ, List.cons.injEq] at hmixed
        obtain ⟨rfl, hmixed⟩ := hmixed
        have hscan : last + 1 ∈ List.range' (last + 1) (m + 1) := by simp
        -- a page that is protected is not in the run
        have hspared : ∀ q ∈ hot, ¬ Adjacent (window (max ringCapacity 1) (ids ++ [last + 1])) q := by
          intro q hq hadj
          refine hapart q hq (hadj.mono fun x hx => ?_)
          simp only [List.mem_append]
          rcases List.mem_cons.mp (hwindow hx) with rfl | hx
          · exact Or.inl (Or.inr hscan)
          · exact Or.inl (Or.inl hx)
        have hhot' : hot ⊆ orderAfter capacity victim order (last + 1) := by
          intro q hq
          have hne : q ≠ last + 1 := fun heq => hp (heq ▸ hq)
          unfold orderAfter
          split
          · exact List.mem_cons_of_mem _ ((List.mem_erase_of_ne hne).mpr (hhot hq))
          · split
            · exact List.mem_cons_of_mem _ (hhot hq)
            · refine List.mem_cons_of_mem _ ((List.mem_erase_of_ne ?_).mpr (hhot hq))
              rintro rfl
              -- the page before is in the run of the one that comes in
              have hrun : inRun o.recentSet last := by
                rw [hrecent]
                exact (inRun_iff (by omega)).mpr (Or.inl hin)
              have hchosen := (hchoose o order.reverse (by simpa using List.ne_nil_of_mem hlast)).2
                ⟨last, List.mem_reverse.mpr hlast, hrun⟩
              rw [← hvictim, hrecent] at hchosen
              exact hspared q hq ((inRun_iff (hsmall q hq)).mp hchosen)
        have hlast' := mem_orderAfter_self capacity victim order (last + 1)
        have hapart' : ∀ q ∈ hot, ¬ Adjacent (window (max ringCapacity 1) (ids ++ [last + 1]) ++
            List.range' (last + 1 + 1) m ++ hot) q := by
          intro q hq hadj
          refine hapart q hq (hadj.mono fun x hx => ?_)
          simp only [List.mem_append] at hx ⊢
          rcases hx with (hx | hx) | hx
          · rcases List.mem_cons.mp (hwindow hx) with rfl | hx
            · exact Or.inl (Or.inr hscan)
            · exact Or.inl (Or.inl hx)
          · rw [List.range'_succ]
            exact Or.inl (Or.inr (List.mem_cons_of_mem _ hx))
          · exact Or.inr hx
        obtain ⟨order', hwatched, hkept, hless⟩ := ih h' hhot' hlast' hmixed (by omega) hapart'
        have hone : (if last + 1 ∈ order then 0 else 1) ≤ 1 := by split <;> omega
        exact ⟨order', hwatched, hkept, by omega⟩

/-- **A scan leaves the pages apart from it alone.** Under a policy that from some access on prefers
pages of a run, a sequential scan of any length, with lookups of resident pages between its pages in
any way, keeps every page that is next to no access in the window, to no page of the scan and to none
of the others looked up; so their lookups are hits, and only the pages of the scan can miss. -/
theorem scan_keeps_hot_pages (file : MappedFile) (capacity : Nat) (hcap : 1 ≤ capacity)
    (ringCapacity : Nat) (hring : ringCapacity < 2 ^ 64)
    (choose : Option AccessObserver → List Nat → Nat)
    (hchoose : choose = scanResistantVictim ∨ choose = scanResistantThenLfuVictim ∨
      choose = hintAwareVictim .scan)
    (policy : PageEvictionPolicy) (hmember : ∀ trace l, l ≠ [] → policy trace l ∈ l)
    (before : List Nat) (first : Nat)
    (hasks : ∀ trace l,
      (replayTrace file capacity true (some policy) (before ++ [first])).trace <+: trace →
        policy trace l = choose (some (observerOf ringCapacity trace)) l)
    (hot : List Nat)
    (hresident : ∀ h ∈ hot, ((replayTrace file capacity true (some policy)
      (before ++ [first])).pageMap.lookup h).isSome)
    (n : Nat) (hbound : first + n < 2 ^ 32) (hsmall : ∀ h ∈ hot, h + 1 < 2 ^ 32)
    (hapart : ∀ h ∈ hot, ¬ Adjacent (window (max ringCapacity 1) (before ++ [first]) ++
      List.range' (first + 1) n ++ hot) h)
    (mixed : List Nat) (hmixed : mixed.filter (· ∉ hot) = List.range' (first + 1) n) :
    let c := replayTrace file capacity true (some policy) (before ++ [first])
    let c' := replayTrace file capacity true (some policy) (before ++ [first] ++ mixed)
    (∀ h ∈ hot, (c'.pageMap.lookup h).isSome) ∧ c'.misses ≤ c.misses + n := by
  intro c c'
  have hprefers : PrefersRuns choose := by
    rcases hchoose with rfl | rfl | rfl
    · exact prefersRuns_scanResistant
    · exact prefersRuns_scanResistantThenLfu
    · exact prefersRuns_hintAware
  obtain ⟨order, hord, hpins, hobs, hpolicy, hseen, hlast⟩ :=
    seen_replayTrace file hcap hmember (before ++ [first])
  have hwatched : Watched ringCapacity choose policy c capacity order (before ++ [first]) :=
    ⟨hord, hpins, hobs, hasks, hpolicy, hseen⟩
  obtain ⟨order', hwatched', hhot, hmisses⟩ := hwatched.scan hcap hring hmember hprefers hsmall
    mixed (fun h hh => hord.mem_iff.mpr (hresident h hh)) (hlast first (by simp)) hmixed hbound
    hapart
  have hc' : c' = c.pageCalls (releasedAtOnce mixed) := by
    show replayTrace _ _ _ _ _ = _
    unfold replayTrace releasedAtOnce
    rw [List.flatMap_append, pageCalls_append]
    rfl
  rw [hc']
  exact ⟨fun h hh => hwatched'.ordered.mem_iff.mp (hhot hh), hmisses⟩

/-- A loop over pages 1 to 5 beside lookups of page 9: both frames change hands, page 9 stays. -/
theorem scan_keeps_hot_pages_five :
    let file := MappedFile.new (some (List.replicate (10 * PAGE_SIZE) 0))
    let policy := observedPolicy 4 scanResistantVictim
    ((replayTrace file 2 true (some policy)
        ([9] ++ [0] ++ [1, 2, 9, 3, 4, 9, 5])).pageMap.lookup 9).isSome ∧
      (replayTrace file 2 true (some policy) ([9] ++ [0] ++ [1, 2, 9, 3, 4, 9, 5])).misses ≤
        (replayTrace file 2 true (some policy) ([9] ++ [0])).misses + 5 := by
  intro file policy
  have h := scan_keeps_hot_pages file 2 (by decide) 4 (by decide) scanResistantVictim (Or.inl rfl)
    policy (fun trace l hl => scanResistantVictim_mem _ hl) [9] 0 (fun _ _ _ => rfl) [9]
    (by decide +kernel) 5 (by decide) (by decide) (by decide) [1, 2, 9, 3, 4, 9, 5] (by decide)
  exact ⟨h.1 9 (by decide), h.2⟩

/-! ## Pages in order -/

/-- Making room for a page by losing the last one. -/
theorem orderAfter_front (hcap : 1 ≤ capacity) (hnodup : order.Nodup)
    (hlen : order.length ≤ capacity) (p : Nat) :
    orderAfter capacity (order.reverse.headD 0) order p = touch capacity order p := by
  unfold orderAfter
  by_cases hp : p ∈ order
  · have hpos := List.length_pos_of_mem hp
    have hshort := List.length_erase_of_mem hp
    rw [if_pos hp, touch_of_room (by omega)]
  rw [if_neg hp]
  by_cases hroom : order.length < capacity
  · rw [if_pos hroom, touch_of_room (by rw [List.erase_of_not_mem hp]; exact hroom),
      List.erase_of_not_mem hp]
  rw [if_neg hroom]
  have hne : order ≠ [] := by
    rintro rfl
    simp only [List.length_nil] at hroom
    omega
  obtain ⟨init, x, rfl⟩ := (List.eq_nil_or_concat order).resolve_left hne
  simp only [List.concat_eq_append, List.length_append, List.length_singleton] at *
  have hx : x ∉ init := by
    rw [List.nodup_append] at hnodup
    exact fun hmem => hnodup.2.2 x hmem x (by simp) rfl
  rw [touch_of_full (by omega) hp, List.reverse_append, List.reverse_singleton,
    List.singleton_append, List.headD_cons, List.erase_append_right _ hx, List.erase_cons_head,
    List.append_nil]

/-- When every candidate is in a run the first one is taken. -/
theorem scanResistantVictim_front {o : AccessObserver} {unpinned : List Nat}
    (hrun : ∀ q ∈ unpinned, inRun o.recentSet q) :
    scanResistantVictim (some o) unpinned = unpinned.headD 0 := by
  cases unpinned with
  | nil => rfl
  | cons front rest =>
      show (List.find? (inRun o.recentSet) (front :: rest)).getD _ = _
      rw [List.find?_cons_of_pos (hrun front List.mem_cons_self)]
      rfl

/-- While every page it holds is in a run, the scan-resistant policy is LRU. -/
theorem watched_replayTrace_run (file : MappedFile) (hcap : 1 ≤ capacity)
    (hring : ringCapacity < 2 ^ 64) (pageIds : List Nat) (hsmall : ∀ p ∈ pageIds, p + 1 < 2 ^ 32)
    (hruns : ∀ u p v, pageIds = u ++ p :: v → ∀ q ∈ u, q ≠ p →
      Adjacent (window (max ringCapacity 1) (u ++ [p])) q) :
    let policy := observedPolicy ringCapacity scanResistantVictim
    let c := replayTrace file capacity true (some policy) pageIds
    Watched ringCapacity scanResistantVictim policy c capacity ((recency [] pageIds).take capacity)
        pageIds ∧
      c.misses = (replayTrace file capacity true (some lruPagePolicy) pageIds).misses := by
  intro policy
  induction pageIds using List.reverseRecOn with
  | nil =>
      rw [recency_nil, List.take_nil]
      refine ⟨⟨ordered_new file capacity true _, ?_, rfl, fun _ _ _ => rfl, rfl, rfl⟩, rfl⟩
      intro q
      simp [replayTrace, releasedAtOnce, pageCalls, new, pinOf]
  | append_singleton pageIds p ih =>
      obtain ⟨h, hmisses⟩ := ih (fun q hq => hsmall q (List.mem_append_left _ hq)) (by
        intro u q v heq
        exact hruns u q (v ++ [p]) (by rw [heq, List.append_assoc, List.cons_append]))
      have hmember : ∀ trace l, l ≠ [] → policy trace l ∈ l :=
        fun trace l hl => scanResistantVictim_mem _ hl
      obtain ⟨o, victim, hrecent, hvictim, h', hmisses'⟩ := h.page hcap hring hmember p
      generalize horder : (recency [] pageIds).take capacity = order at h h' hmisses' hvictim
      have hafter : orderAfter capacity victim order p = touch capacity order p := by
        rw [← orderAfter_front hcap h.ordered.nodup (by rw [← horder]; exact List.length_take_le _ _)]
        unfold orderAfter
        by_cases hp : p ∈ order
        · rw [if_pos hp, if_pos hp]
        · -- every page the policy sees is next to another one
          rw [hvictim, scanResistantVictim_front]
          intro q hq
          have hmem : q ∈ pageIds := by
            have hin := List.mem_of_mem_take (horder ▸ List.mem_reverse.mp hq)
            simpa using mem_recency_iff.mp hin
          rw [hrecent]
          apply (inRun_iff (hsmall q (List.mem_append_left _ hmem))).mpr
          refine hruns pageIds p [] rfl q hmem fun heq => hp ?_
          exact heq ▸ List.mem_reverse.mp hq
      rw [hafter, ← horder, touch_take, touch, ← recency_concat] at h'
      rw [replayTrace_concat]
      refine ⟨h', ?_⟩
      rw [hmisses', hmisses, misses_replayTrace_concat file hcap true (Or.inr rfl), horder]

/-- **Pages reached in order are evicted in LRU order.** As long as the window holds the whole trace and
every page comes after all pages below it, the scan-resistant policies never differ from LRU: they keep
the same pages in the same order and miss as often. -/
theorem consecutive_pages_lru (file : MappedFile) (capacity : Nat) (hcap : 1 ≤ capacity)
    (ringCapacity : Nat) (hring : ringCapacity < 2 ^ 64)
    (choose : Option AccessObserver → List Nat → Nat)
    (hchoose : choose = scanResistantVictim ∨ choose = hintAwareVictim .scan)
    (pageIds : List Nat) (hsmall : ∀ p ∈ pageIds, p + 1 < 2 ^ 32)
    (hwindow : pageIds.length ≤ max ringCapacity 1)
    (hconsecutive : ∀ (i : Nat) (hi : i < pageIds.length), ∀ q < pageIds[i], q ∈ pageIds.take i) :
    let c := replayTrace file capacity true (some (observedPolicy ringCapacity choose)) pageIds
    let lru := replayTrace file capacity true (some lruPagePolicy) pageIds
    c.lruList.toList = lru.lruList.toList ∧
      (∀ p, (c.pageMap.lookup p).isSome ↔ (lru.pageMap.lookup p).isSome) ∧
      c.misses = lru.misses := by
  have heq : choose = scanResistantVictim := by
    rcases hchoose with rfl | rfl
    · rfl
    · exact hintAwareVictim_scan
  subst heq
  intro c lru
  have hbelow : ∀ u p v, pageIds = u ++ p :: v → ∀ q < p, q ∈ u := by
    rintro u p v rfl q hq
    have hmem := hconsecutive u.length (by simp) q (by simpa using hq)
    rwa [List.take_left] at hmem
  have hruns : ∀ u p v, pageIds = u ++ p :: v → ∀ q ∈ u, q ≠ p →
      Adjacent (window (max ringCapacity 1) (u ++ [p])) q := by
    intro u p v heq q hq hne
    have hlen := congrArg List.length heq
    rw [List.length_append, List.length_cons] at hlen
    rw [window_of_le (by rw [List.length_append, List.length_singleton]; omega)]
    rcases Nat.lt_or_gt_of_ne hne with hlt | hgt
    · -- the page after it has been reached too
      apply Or.inl
      rcases Nat.lt_or_ge (q + 1) p with hnext | hge
      · exact List.mem_append_left _ (hbelow u p v heq (q + 1) hnext)
      · have hlast : q + 1 = p := by omega
        rw [hlast]
        simp
    · -- the page before it was reached before it
      obtain ⟨s, t, rfl⟩ := List.append_of_mem hq
      have hbefore := hbelow s q (t ++ p :: v) (by rw [heq]; simp) (q - 1) (by omega)
      exact Or.inr ⟨q - 1, by simp [hbefore], by omega⟩
  obtain ⟨h, hmisses⟩ := watched_replayTrace_run file hcap hring pageIds hsmall hruns
  obtain ⟨hord, -, -⟩ :=
    ordered_replayTrace file hcap true (Or.inr rfl : TakesFront (some lruPagePolicy)) pageIds
  refine ⟨?_, ?_, hmisses⟩
  · rw [h.ordered.order_eq, hord.order_eq]
  · intro p
    rw [← h.ordered.mem_iff, ← hord.mem_iff]

/-- Two frames, and pages 0 to 3 with page 0 looked up again. -/
theorem consecutive_pages_lru_four :
    let file := MappedFile.new (some (List.replicate (4 * PAGE_SIZE) 0))
    (replayTrace file 2 true (some (observedPolicy 8 scanResistantVictim)) [0, 1, 0, 2, 3, 0]).misses =
      (replayTrace file 2 true (some lruPagePolicy) [0, 1, 0, 2, 3, 0]).misses := by
  intro file
  exact (consecutive_pages_lru file 2 (by decide) 8 (by decide) scanResistantVictim (Or.inl rfl)
    [0, 1, 0, 2, 3, 0] (by decide) (by decide) (by decide)).2.2

end PageCache

end Aqa
