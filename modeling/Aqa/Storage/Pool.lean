/-
# Aqa.Storage.Pool — the frames, pins and recency list of the page cache.

`Pool c hole` says that the five structures of the cache fit together: the page map is injective
into the frames, the free list and the frames in use partition the pool, and the recency list and
its iterators hold each resident page once. `hole` is a frame that has been taken for a page but not
yet entered in the page map; between calls there is none.

A call is described by what it can do: `fetchPage_cases` lists the hit, the miss with the frame it
took, and the exception, in which nothing but a counter and the observer's record has changed.
What the pages hold plays no part here.

Pins are counted per page (`pinOf`): a page that is not resident has none.
-/
import Aqa.Storage.StorageEngine

namespace Aqa

open Aqa.Lib

namespace PageCache

/-- Number of pins a page has. -/
def pinOf (c : PageCache) (pageId : Nat) : Nat :=
  match c.pageMap.lookup pageId with
  | some frame => c.pinAt frame
  | none => 0

/-- The policy, if there is one, names a member of a non-empty list. -/
def PolicyMember (c : PageCache) : Prop :=
  ∀ policy, c.evictionPolicy = some policy → ∀ trace l, l ≠ [] → policy trace l ∈ l

/-- The pool invariant. -/
structure Pool (c : PageCache) (hole : Option Nat) : Prop where
  pins_length : c.pinCounts.length = c.pool.length
  frame_lt : ∀ p f, c.pageMap.lookup p = some f → f < c.pool.length
  frame_inj : ∀ p q f, c.pageMap.lookup p = some f → c.pageMap.lookup q = some f → p = q
  free_nodup : c.freeFrames.Nodup
  free_lt : ∀ f ∈ c.freeFrames, f < c.pool.length
  free_unused : ∀ f ∈ c.freeFrames, ∀ p, c.pageMap.lookup p ≠ some f
  hole_apart : ∀ f, hole = some f →
    f < c.pool.length ∧ f ∉ c.freeFrames ∧ ∀ p, c.pageMap.lookup p ≠ some f
  cover : ∀ f < c.pool.length, hole = some f ∨ f ∈ c.freeFrames ∨ ∃ p, c.pageMap.lookup p = some f
  iters : ∀ p it, c.lruIters.lookup p = some it ↔ (it, p) ∈ c.lruList.nodes
  resident : ∀ p, (c.pageMap.lookup p).isSome ↔ (c.lruIters.lookup p).isSome

theorem pool_new (file : MappedFile) (capacity : Nat) (observed : Bool)
    (policy : Option PageEvictionPolicy) : Pool (new file capacity observed policy) none where
  pins_length := by simp [new]
  frame_lt := by simp [new]
  frame_inj := by simp [new]
  free_nodup := List.nodup_range
  free_lt := by simp [new]
  free_unused := by simp [new]
  hole_apart := by simp
  cover f hf := by
    right; left
    simpa [new] using hf
  iters := by simp [new, StdList.empty]
  resident := by simp [new]

/-- The recency list holds each resident page once and nothing else. -/
theorem Pool.lruList_exact {c : PageCache} {hole : Option Nat} (h : Pool c hole) :
    c.lruList.toList.Nodup ∧ ∀ p, p ∈ c.lruList.toList ↔ (c.pageMap.lookup p).isSome := by
  constructor
  · unfold StdList.toList
    apply List.Nodup.map_on _ (List.Nodup.of_map _ c.lruList.addr_nodup)
    rintro ⟨it, p⟩ hx ⟨jt, q⟩ hy hpq
    simp only at hpq
    subst hpq
    have hit := (h.iters p it).mpr hx
    rw [(h.iters p jt).mpr hy] at hit
    rw [Option.some.inj hit]
  · intro p
    rw [StdList.mem_toList, h.resident p, Option.isSome_iff_exists]
    exact exists_congr fun it => (h.iters p it).symm

/-- The iterators lead to the nodes of the recency list. -/
theorem Pool.indexes {c : PageCache} {hole : Option Nat} (h : Pool c hole) :
    StdList.Indexes c.lruIters id c.lruList := StdList.Indexes.id_iff.mpr h.iters

/-! ## Bookkeeping that touches no frame -/

section Bookkeeping

variable {c : PageCache} {hole : Option Nat}

@[simp]
theorem recordAccess_pageMap (c : PageCache) (p : Nat) (b : Bool) :
    (c.recordAccess p b).pageMap = c.pageMap := by
  rw [recordAccess]
  split <;> rfl

@[simp]
theorem recordAccess_file (c : PageCache) (p : Nat) (b : Bool) :
    (c.recordAccess p b).file = c.file := by
  rw [recordAccess]
  split <;> rfl

@[simp]
theorem recordAccess_pool (c : PageCache) (p : Nat) (b : Bool) :
    (c.recordAccess p b).pool = c.pool := by
  rw [recordAccess]
  split <;> rfl

@[simp]
theorem recordAccess_pinCounts (c : PageCache) (p : Nat) (b : Bool) :
    (c.recordAccess p b).pinCounts = c.pinCounts := by
  rw [recordAccess]
  split <;> rfl

@[simp]
theorem recordAccess_freeFrames (c : PageCache) (p : Nat) (b : Bool) :
    (c.recordAccess p b).freeFrames = c.freeFrames := by
  rw [recordAccess]
  split <;> rfl

@[simp]
theorem recordAccess_evictionPolicy (c : PageCache) (p : Nat) (b : Bool) :
    (c.recordAccess p b).evictionPolicy = c.evictionPolicy := by
  rw [recordAccess]
  split <;> rfl

/-- The counters say nothing about the frames. -/
theorem pool_counters (h : Pool c hole) (hits misses : Nat) :
    Pool { c with hits := hits, misses := misses } hole :=
  { h with pins_length := h.pins_length }

theorem pool_recordAccess (h : Pool c hole) (p : Nat) (b : Bool) :
    Pool (c.recordAccess p b) hole := by
  rw [recordAccess]
  split
  · exact { h with }
  · exact h

@[simp]
theorem pinOf_recordAccess (c : PageCache) (p : Nat) (b : Bool) :
    (c.recordAccess p b).pinOf = c.pinOf := by
  funext q
  simp only [pinOf, pinAt, recordAccess_pageMap, recordAccess_pinCounts]

theorem pool_touchPage (h : Pool c hole) {p : Nat}
    (hp : (c.pageMap.lookup p).isSome) : Pool (c.touchPage p) hole := by
  obtain ⟨it, hit⟩ := Option.isSome_iff_exists.mp ((h.resident p).mp hp)
  refine { h with iters := StdList.Indexes.id_iff.mp ?_, resident := ?_ }
  · simp only [touchPage, hit, Option.getD_some, StdList.begin_pushFront]
    exact h.indexes.moveFront ((h.iters p it).mp hit)
  · intro q
    simp only [touchPage]
    by_cases hq : q = p
    · subst hq
      rw [AList.lookup_insert]
      simpa using hp
    · rw [AList.lookup_insert_ne hq]
      exact h.resident q

/-- The candidates for eviction are the resident pages without a pin. -/
theorem mem_unpinnedLru (h : Pool c hole) {p : Nat} :
    p ∈ c.unpinnedLru ↔ (c.pageMap.lookup p).isSome ∧ c.pinOf p = 0 := by
  rw [unpinnedLru, List.mem_filter, List.mem_reverse, StdList.mem_toList, beq_iff_eq]
  have hres : (∃ it, (it, p) ∈ c.lruList.nodes) ↔ (c.pageMap.lookup p).isSome := by
    rw [h.resident p, Option.isSome_iff_exists]
    exact exists_congr fun it => (h.iters p it).symm
  rw [hres]
  apply and_congr_right
  intro hp
  obtain ⟨f, hf⟩ := Option.isSome_iff_exists.mp hp
  rw [frameOf, pinOf, hf, Option.getD_some]

end Bookkeeping

/-! ## Taking a frame -/

theorem chooseVictim_mem {c : PageCache} (hpol : c.PolicyMember) (front : Nat) (rest : List Nat) :
    c.chooseVictim front (front :: rest) ∈ front :: rest := by
  rw [chooseVictim]
  split
  · rename_i policy heq
    exact hpol policy heq _ _ (by simp)
  · simp

/-- What an eviction does: the victim's frame goes to the file and leaves the page map. -/
structure Evicted (c c' : PageCache) (victim f : Nat) : Prop where
  resident : c.pageMap.lookup victim = some f
  unpinned : c.pinOf victim = 0
  file : c'.file = c.file.storePage victim (c.pool.getD f RawPage.reset)
  pageMap : c'.pageMap = c.pageMap.erase victim
  pool : c'.pool = c.pool
  pinCounts : c'.pinCounts = c.pinCounts
  policy : c'.evictionPolicy = c.evictionPolicy

theorem lookup_erase_eq_some {m : AList (fun _ : Nat => Nat)} {victim p g : Nat} :
    (m.erase victim).lookup p = some g ↔ p ≠ victim ∧ m.lookup p = some g := by
  by_cases hp : p = victim
  · subst hp
    simp [AList.lookup_erase]
  · rw [AList.lookup_erase_ne hp]
    simp [hp]

theorem lookup_insert_eq_some {m : AList (fun _ : Nat => Nat)} {p f q g : Nat} :
    (m.insert p f).lookup q = some g ↔ (q = p ∧ g = f) ∨ (q ≠ p ∧ m.lookup q = some g) := by
  by_cases hq : q = p
  · subst hq
    rw [AList.lookup_insert]
    simp [eq_comm]
  · rw [AList.lookup_insert_ne hq]
    simp [hq]

/-- An eviction finds every page pinned, or frees the frame of an unpinned one. -/
theorem evict_cases {c : PageCache} (h : Pool c none) (hpol : c.PolicyMember) :
    ((∀ q, (c.pageMap.lookup q).isSome → c.pinOf q ≠ 0) ∧
        evict c = .error (.runtimeError "Buffer Pool Full: All pages are pinned..") c) ∨
      ∃ victim f c', evict c = .ok f c' ∧ Pool c' (some f) ∧ Evicted c c' victim f := by
  cases hun : c.unpinnedLru with
  | nil =>
      left
      refine ⟨?_, by simp only [evict, hun]⟩
      intro q hq hzero
      have hmem := (mem_unpinnedLru h).mpr ⟨hq, hzero⟩
      rw [hun] at hmem
      exact absurd hmem (by simp)
  | cons front rest =>
      right
      -- whatever the policy names is resident and unpinned
      obtain ⟨victim, hvictim⟩ : ∃ v, c.chooseVictim front (front :: rest) = v := ⟨_, rfl⟩
      have hmem := chooseVictim_mem hpol front rest
      rw [hvictim, ← hun] at hmem
      obtain ⟨hres, hpin⟩ := (mem_unpinnedLru h).mp hmem
      obtain ⟨f, hf⟩ := Option.isSome_iff_exists.mp hres
      obtain ⟨it, hit⟩ := Option.isSome_iff_exists.mp ((h.resident victim).mp hres)
      have hframe : c.frameOf victim = f := by rw [frameOf, hf, Option.getD_some]
      have hfind : c.lruList.find? victim = some it := h.indexes.find?_eq hit
      obtain ⟨trace, hevict⟩ : ∃ trace, evict c = .ok f { c with
          file := c.file.storePage victim (c.pool.getD f RawPage.reset)
          pageMap := c.pageMap.erase victim
          lruIters := c.lruIters.erase victim
          lruList := c.lruList.erase it
          trace := trace } := by
        simp only [evict, hun, hvictim, hframe, hfind]
        exact ⟨_, rfl⟩
      refine ⟨victim, f, _, hevict, ?_, ⟨hf, hpin, rfl, rfl, rfl, rfl, rfl⟩⟩
      · refine { h with
          frame_lt := ?_, frame_inj := ?_, free_unused := ?_, hole_apart := ?_, cover := ?_,
          iters := ?_, resident := ?_ }
        · intro p g hg
          exact h.frame_lt p g (lookup_erase_eq_some.mp hg).2
        · intro p r g hp hr
          exact h.frame_inj p r g (lookup_erase_eq_some.mp hp).2 (lookup_erase_eq_some.mp hr).2
        · intro g hg p hp
          exact h.free_unused g hg p (lookup_erase_eq_some.mp hp).2
        · -- the victim's frame is now the hole: no other page has it
          intro g hg
          simp only [Option.some.injEq] at hg
          subst hg
          refine ⟨h.frame_lt victim f hf, fun hfree => h.free_unused f hfree victim hf, ?_⟩
          intro p hp
          obtain ⟨hne, hp⟩ := lookup_erase_eq_some.mp hp
          exact hne (h.frame_inj p victim f hp hf)
        · intro g hg
          rcases h.cover g hg with hnone | hfree | ⟨p, hp⟩
          · exact absurd hnone (by simp)
          · exact Or.inr (Or.inl hfree)
          · by_cases hpv : p = victim
            · subst hpv
              rw [hf] at hp
              exact Or.inl hp
            · exact Or.inr (Or.inr ⟨p, lookup_erase_eq_some.mpr ⟨hpv, hp⟩⟩)
        · exact StdList.Indexes.id_iff.mp (h.indexes.erase ((h.iters victim it).mp hit))
        · intro p
          by_cases hp : p = victim
          · subst hp
            simp [AList.lookup_erase]
          · rw [AList.lookup_erase_ne hp, AList.lookup_erase_ne hp]
            exact h.resident p

/-- What taking the frame `f` does: it was free, or it was the frame of an unpinned page. -/
structure Took (c c' : PageCache) (f : Nat) : Prop where
  pool : c'.pool = c.pool
  pinCounts : c'.pinCounts = c.pinCounts
  policy : c'.evictionPolicy = c.evictionPolicy
  source : (c'.file = c.file ∧ c'.pageMap = c.pageMap) ∨
    ∃ victim, c.pageMap.lookup victim = some f ∧ c.pinOf victim = 0 ∧
      c'.file = c.file.storePage victim (c.pool.getD f RawPage.reset) ∧
      c'.pageMap = c.pageMap.erase victim

namespace Took

variable {c c' : PageCache} {f : Nat}

/-- No page enters the page map. -/
theorem sub (h : Took c c' f) {p g : Nat} (hp : c'.pageMap.lookup p = some g) :
    c.pageMap.lookup p = some g := by
  rcases h.source with ⟨-, hmap⟩ | ⟨victim, -, -, -, hmap⟩
  · rwa [hmap] at hp
  · rw [hmap] at hp
    exact (lookup_erase_eq_some.mp hp).2

/-- A page that leaves had the frame that was taken. -/
theorem lost (h : Took c c' f) {p g : Nat} (hp : c.pageMap.lookup p = some g) (hne : g ≠ f) :
    c'.pageMap.lookup p = some g := by
  rcases h.source with ⟨-, hmap⟩ | ⟨victim, hv, -, -, hmap⟩
  · rwa [hmap]
  · rw [hmap]
    apply lookup_erase_eq_some.mpr ⟨?_, hp⟩
    rintro rfl
    rw [hv] at hp
    exact hne (Option.some.inj hp).symm

/-- Pinned pages stay. -/
theorem kept (h : Took c c' f) {p : Nat} (hpin : 0 < c.pinOf p) :
    c'.pageMap.lookup p = c.pageMap.lookup p := by
  rcases h.source with ⟨-, hmap⟩ | ⟨victim, -, hv, -, hmap⟩
  · rw [hmap]
  · rw [hmap]
    apply AList.lookup_erase_ne
    rintro rfl
    omega

theorem pins (h : Took c c' f) : c'.pinOf = c.pinOf := by
  funext p
  unfold pinOf pinAt
  rw [h.pinCounts]
  rcases h.source with ⟨-, hmap⟩ | ⟨victim, hv, hpin, -, hmap⟩
  · rw [hmap]
  · rw [hmap]
    by_cases hp : p = victim
    · subst hp
      unfold pinOf pinAt at hpin
      rw [hv] at hpin
      rw [AList.lookup_erase, hv]
      exact hpin.symm
    · rw [AList.lookup_erase_ne hp]

end Took

/-- A frame cannot be had when none is free and every page is pinned; otherwise one is taken. -/
theorem takeFrame_cases {c : PageCache} (h : Pool c none) (hpol : c.PolicyMember) :
    (c.freeFrames = [] ∧ (∀ q, (c.pageMap.lookup q).isSome → c.pinOf q ≠ 0) ∧
        takeFrame c = .error (.runtimeError "Buffer Pool Full: All pages are pinned..") c) ∨
      ∃ f c', takeFrame c = .ok f c' ∧ Pool c' (some f) ∧ Took c c' f := by
  cases hfree : c.freeFrames with
  | nil =>
      -- without a free frame a page is evicted
      have htake : takeFrame c = evict c := by
        unfold takeFrame
        rw [hfree]
      rw [htake]
      rcases evict_cases h hpol with ⟨hpinned, heq⟩ | ⟨victim, f, c', heq, hpool, hev⟩
      · exact Or.inl ⟨rfl, hpinned, heq⟩
      · exact Or.inr ⟨f, c', heq, hpool, hev.pool, hev.pinCounts, hev.policy,
          Or.inr ⟨victim, hev.resident, hev.unpinned, hev.file, hev.pageMap⟩⟩
  | cons f rest =>
      right
      have hnd := h.free_nodup
      rw [hfree, List.nodup_cons] at hnd
      have hmem : ∀ g ∈ rest, g ∈ c.freeFrames := fun g hg => by rw [hfree]; simp [hg]
      have hf : f ∈ c.freeFrames := by rw [hfree]; simp
      refine ⟨f, { c with freeFrames := rest }, by simp only [takeFrame, hfree], ?_,
        ⟨rfl, rfl, rfl, Or.inl ⟨rfl, rfl⟩⟩⟩
      refine { h with
        free_nodup := hnd.2
        free_lt := fun g hg => h.free_lt g (hmem g hg)
        free_unused := fun g hg => h.free_unused g (hmem g hg)
        hole_apart := ?_, cover := ?_ }
      · intro g hg
        simp only [Option.some.injEq] at hg
        subst hg
        exact ⟨h.free_lt f hf, hnd.1, h.free_unused f hf⟩
      · intro g hg
        rcases h.cover g hg with hnone | hg' | hused
        · exact absurd hnone (by simp)
        · rw [hfree] at hg'
          rcases List.mem_cons.mp hg' with rfl | hg'
          · exact Or.inl rfl
          · exact Or.inr (Or.inl hg')
        · exact Or.inr (Or.inr hused)

/-! ## Fetch and release -/

/-- Entering a page in the frame taken for it. -/
theorem pool_installPage {c : PageCache} {p f : Nat} (h : Pool c (some f))
    (hp : c.pageMap.lookup p = none) : Pool (c.installPage p f) none := by
  -- the hole is not free and no page has it, so the new entry keeps the map injective
  obtain ⟨hlt, hnotfree, hunused⟩ := h.hole_apart f rfl
  have hiter : c.lruIters.lookup p = none := by
    rw [← Option.not_isSome_iff_eq_none, ← h.resident p, hp]
    simp
  refine { h with
    pins_length := by simp [installPage, h.pins_length]
    frame_lt := ?_, frame_inj := ?_, free_lt := ?_, free_unused := ?_, hole_apart := by simp
    cover := ?_, iters := ?_, resident := ?_ }
  · intro q g hg
    simp only [installPage, List.length_set]
    rcases lookup_insert_eq_some.mp hg with ⟨_, rfl⟩ | ⟨_, hg⟩
    · exact hlt
    · exact h.frame_lt q g hg
  · intro q r g hq hr
    rcases lookup_insert_eq_some.mp hq with ⟨rfl, rfl⟩ | ⟨hqp, hq⟩
    · rcases lookup_insert_eq_some.mp hr with ⟨rfl, _⟩ | ⟨_, hr⟩
      · rfl
      · exact absurd hr (hunused r)
    · rcases lookup_insert_eq_some.mp hr with ⟨_, hgf⟩ | ⟨_, hr⟩
      · rw [hgf] at hq
        exact absurd hq (hunused q)
      · exact h.frame_inj q r g hq hr
  · intro g hg
    simp only [installPage, List.length_set]
    exact h.free_lt g hg
  · intro g hg q hq
    rcases lookup_insert_eq_some.mp hq with ⟨_, rfl⟩ | ⟨_, hq⟩
    · exact hnotfree hg
    · exact h.free_unused g hg q hq
  · intro g hg
    simp only [installPage, List.length_set] at hg
    rcases h.cover g hg with heq | hfree | ⟨q, hq⟩
    · simp only [Option.some.injEq] at heq
      exact Or.inr (Or.inr ⟨p, lookup_insert_eq_some.mpr (Or.inl ⟨rfl, heq.symm⟩)⟩)
    · exact Or.inr (Or.inl hfree)
    · refine Or.inr (Or.inr ⟨q, lookup_insert_eq_some.mpr (Or.inr ⟨?_, hq⟩)⟩)
      rintro rfl
      rw [hp] at hq
      exact absurd hq (by simp)
  · exact StdList.Indexes.id_iff.mp (h.indexes.pushFront hiter)
  · intro q
    simp only [installPage]
    by_cases hq : q = p
    · subst hq
      simp [AList.lookup_insert]
    · rw [AList.lookup_insert_ne hq, AList.lookup_insert_ne hq]
      exact h.resident q

/-- Pin counts live on frames; on pages an update of one frame is an update of one page. -/
theorem pinOf_set {c c' : PageCache} {p f n : Nat} (hlt : f < c.pinCounts.length)
    (hpins : c'.pinCounts = c.pinCounts.set f n) (hp : c'.pageMap.lookup p = some f)
    (hother : ∀ q g, q ≠ p → c'.pageMap.lookup q = some g → g ≠ f)
    (hsame : ∀ q, q ≠ p → c'.pageMap.lookup q = c.pageMap.lookup q) :
    c'.pinOf = Function.update c.pinOf p n := by
  funext q
  by_cases hq : q = p
  · subst hq
    rw [Function.update_self, pinOf, hp]
    simp only [pinAt, hpins, List.getD_eq_getElem?_getD, List.getElem?_set_self hlt,
      Option.getD_some]
  · rw [Function.update_of_ne hq]
    cases hlook : c.pageMap.lookup q with
    | none => simp only [pinOf, hsame q hq, hlook]
    | some g =>
        -- the page has another frame, whose count stays
        have hgf : g ≠ f := hother q g hq (by rw [hsame q hq, hlook])
        simp only [pinOf, hsame q hq, hlook, pinAt, hpins, List.getD_eq_getElem?_getD,
          List.getElem?_set_ne (Ne.symm hgf)]

/-- Changing the pin count of a frame keeps the pool. -/
theorem pool_setPin {c : PageCache} {hole : Option Nat} (h : Pool c hole) (f n : Nat) :
    Pool { c with pinCounts := c.pinCounts.set f n } hole :=
  { h with pins_length := by simp [h.pins_length] }

/-- What a fetch of the resident page `p` does: one pin more. -/
structure Hit (c c' : PageCache) (p : Nat) : Prop where
  inv : Pool c' none
  file : c'.file = c.file
  pool : c'.pool = c.pool
  pageMap : c'.pageMap = c.pageMap
  policy : c'.evictionPolicy = c.evictionPolicy
  pins : c'.pinOf = Function.update c.pinOf p (c.pinOf p + 1)

/-- What a fetch that throws does: nothing to the structures of the pool. -/
structure Refused (c c' : PageCache) : Prop where
  inv : Pool c' none
  file : c'.file = c.file
  pool : c'.pool = c.pool
  pinCounts : c'.pinCounts = c.pinCounts
  pageMap : c'.pageMap = c.pageMap
  lruList : c'.lruList = c.lruList
  lruIters : c'.lruIters = c.lruIters
  freeFrames : c'.freeFrames = c.freeFrames
  policy : c'.evictionPolicy = c.evictionPolicy

/-- A hit moves the page to the front of the order and pins its frame once more. -/
theorem hitPage_cases {c : PageCache} (h : Pool c none) {p f : Nat}
    (hp : c.pageMap.lookup p = some f) : ∃ c', c.hitPage p = .ok f c' ∧ Hit c c' p := by
  have hlt : f < c.pinCounts.length := by
    rw [h.pins_length]
    exact h.frame_lt p f hp
  have hframe : c.frameOf p = f := by rw [frameOf, hp, Option.getD_some]
  have hpinAt : c.pinAt f = c.pinOf p := by rw [pinOf, hp]
  have htouched : Pool (({ c with hits := c.hits + 1 }.recordAccess p true).touchPage p) none := by
    apply pool_touchPage (pool_recordAccess (pool_counters h _ c.misses) p true)
    rw [recordAccess_pageMap]
    simp [hp]
  refine ⟨_, ?_, pool_setPin htouched f (c.pinAt f + 1), ?_, ?_, ?_, ?_, ?_⟩
  · simp only [hitPage, frameOf, pinAt, touchPage, recordAccess_pageMap, recordAccess_pinCounts]
    rw [frameOf] at hframe
    rw [hframe]
  · simp only [touchPage, recordAccess_file]
  · simp only [touchPage, recordAccess_pool]
  · simp only [touchPage, recordAccess_pageMap]
  · simp only [touchPage, recordAccess_evictionPolicy]
  · rw [← hpinAt]
    refine pinOf_set hlt (f := f) ?_ ?_ ?_ ?_
    · simp only [touchPage, recordAccess_pinCounts]
    · simp only [touchPage, recordAccess_pageMap]
      exact hp
    · intro q g hq hg
      simp only [touchPage, recordAccess_pageMap] at hg
      rintro rfl
      exact hq (h.frame_inj q p g hg hp)
    · intro q _
      simp only [touchPage, recordAccess_pageMap]

/-- The first pin of a page that has just been entered. -/
theorem pinOf_installPage {c : PageCache} {p f : Nat} (h : Pool c (some f))
    (hp : c.pageMap.lookup p = none) :
    (c.installPage p f).pinOf = Function.update c.pinOf p (c.pinOf p + 1) := by
  obtain ⟨hlt, -, hunused⟩ := h.hole_apart f rfl
  have hzero : c.pinOf p = 0 := by rw [pinOf, hp]
  rw [hzero]
  refine pinOf_set (f := f) (by rw [h.pins_length]; exact hlt) rfl ?_ ?_ ?_
  · simp only [installPage, AList.lookup_insert]
  · intro q g hq hg
    simp only [installPage, AList.lookup_insert_ne hq] at hg
    rintro rfl
    exact hunused q hg
  · intro q hq
    simp only [installPage, AList.lookup_insert_ne hq]

/-- **What a fetch can do**: a hit; a miss, with the frame it took; or an exception, when no frame is
free and every resident page is pinned. -/
theorem fetchPage_cases {c : PageCache} (h : Pool c none) (hpol : c.PolicyMember) (p : Nat) :
    (∃ f c', c.pageMap.lookup p = some f ∧ fetchPage p c = .ok ⟨p, f⟩ c' ∧ Hit c c' p) ∨
    (c.pageMap.lookup p = none ∧ ∃ f c₁, fetchPage p c = .ok ⟨p, f⟩ (c₁.installPage p f) ∧
      Pool c₁ (some f) ∧ c₁.pageMap.lookup p = none ∧ Took c c₁ f) ∨
    (c.pageMap.lookup p = none ∧ c.freeFrames = [] ∧
      (∀ q, (c.pageMap.lookup q).isSome → c.pinOf q ≠ 0) ∧
      ∃ c', fetchPage p c =
        .error (.runtimeError "Buffer Pool Full: All pages are pinned..") c' ∧ Refused c c') := by
  cases hp : c.pageMap.lookup p with
  | some f =>
      left
      obtain ⟨c', heq, hhit⟩ := hitPage_cases h hp
      refine ⟨f, c', rfl, ?_, hhit⟩
      simp only [fetchPage, getPageInternal, bind, EStateM.bind, hp, heq, pure, EStateM.pure]
  | none =>
      right
      -- counting and observing the miss changes neither map nor frames
      obtain ⟨m, hm⟩ : ∃ m, { c with misses := c.misses + 1 }.recordAccess p false = m := ⟨_, rfl⟩
      have hmpool : Pool m none := hm ▸ pool_recordAccess (pool_counters h c.hits _) p false
      have hmfile : m.file = c.file := by rw [← hm, recordAccess_file]
      have hmframes : m.pool = c.pool := by rw [← hm, recordAccess_pool]
      have hmcounts : m.pinCounts = c.pinCounts := by rw [← hm, recordAccess_pinCounts]
      have hmmap : m.pageMap = c.pageMap := by rw [← hm, recordAccess_pageMap]
      have hmfree : m.freeFrames = c.freeFrames := by rw [← hm, recordAccess_freeFrames]
      have hmlist : m.lruList = c.lruList ∧ m.lruIters = c.lruIters := by
        rw [← hm, recordAccess]
        split <;> exact ⟨rfl, rfl⟩
      have hmpins : m.pinOf = c.pinOf := by
        rw [← hm, pinOf_recordAccess]
        rfl
      have hmpol : m.evictionPolicy = c.evictionPolicy := by rw [← hm, recordAccess_evictionPolicy]
      rcases takeFrame_cases hmpool (by rw [PolicyMember, hmpol]; exact hpol) with
        ⟨hfree, hpinned, htake⟩ | ⟨f, c₁, htake, hpool₁, htook⟩
      · right
        rw [hmfree] at hfree
        rw [hmmap, hmpins] at hpinned
        refine ⟨rfl, hfree, hpinned, m, ?_, hmpool, hmfile, hmframes, hmcounts, hmmap, hmlist.1,
          hmlist.2, hmfree, hmpol⟩
        simp only [fetchPage, getPageInternal, bind, EStateM.bind, hp, hm, htake]
      · left
        have htook' : Took c c₁ f := by
          refine ⟨by rw [htook.pool, hmframes], by rw [htook.pinCounts, hmcounts],
            by rw [htook.policy, hmpol], ?_⟩
          have hsource := htook.source
          rw [hmfile, hmmap, hmpins, hmframes] at hsource
          exact hsource
        refine ⟨rfl, f, c₁, ?_, hpool₁, ?_, htook'⟩
        · simp only [fetchPage, getPageInternal, bind, EStateM.bind, hp, hm, htake, pure,
            EStateM.pure]
        · -- taking a frame brings no page in
          cases hlook : c₁.pageMap.lookup p with
          | none => rfl
          | some g =>
              have hold := htook'.sub hlook
              rw [hp] at hold
              exact absurd hold (by simp)

/-- The release of a handle takes one pin away and changes nothing else. -/
theorem unpinPage_pool {c : PageCache} (h : Pool c none) (p : Nat) :
    Pool (c.unpinPage p) none ∧
      (∃ counts, c.unpinPage p = { c with pinCounts := counts }) ∧
      (c.unpinPage p).pinOf = Function.update c.pinOf p (c.pinOf p - 1) := by
  rw [unpinPage]
  -- without a pin there is nothing to take away
  have hzero : c.pinOf p = 0 → c.pinOf = Function.update c.pinOf p (c.pinOf p - 1) := by
    intro h0
    rw [h0, Nat.zero_sub]
    conv_rhs => rw [← h0, Function.update_eq_self]
  cases hp : c.pageMap.lookup p with
  | none => exact ⟨h, ⟨c.pinCounts, rfl⟩, hzero (by rw [pinOf, hp])⟩
  | some f =>
      have hpin : c.pinOf p = c.pinAt f := by rw [pinOf, hp]
      simp only
      split
      · refine ⟨pool_setPin h _ _, ⟨_, rfl⟩, ?_⟩
        rw [hpin]
        refine pinOf_set (f := f) ?_ rfl hp ?_ fun _ _ => rfl
        · rw [h.pins_length]
          exact h.frame_lt p f hp
        · intro q g hq hg
          rintro rfl
          exact hq (h.frame_inj q p g hg hp)
      · exact ⟨h, ⟨c.pinCounts, rfl⟩, hzero (by omega)⟩

/-! ## Full pools -/

/-- A pinned page is resident. -/
theorem resident_of_pinned {c : PageCache} {p : Nat} (h : 0 < c.pinOf p) :
    ∃ f, c.pageMap.lookup p = some f := by
  unfold pinOf at h
  cases hp : c.pageMap.lookup p with
  | none => simp [hp] at h
  | some f => exact ⟨f, rfl⟩

/-- No frame is free and every resident page is pinned. -/
def Full (c : PageCache) : Prop :=
  c.freeFrames = [] ∧ ∀ q, (c.pageMap.lookup q).isSome → c.pinOf q ≠ 0

/-- The pool is full exactly when as many pages are pinned as there are frames. -/
theorem card_pinned_iff {c : PageCache} (h : Pool c none) {pinned : Finset Nat}
    (hpinned : ∀ p, p ∈ pinned ↔ 0 < c.pinOf p) : pinned.card = c.pool.length ↔ Full c := by
  -- the frames of the pinned pages, one for each
  have hframe : ∀ p ∈ pinned, c.pageMap.lookup p = some (c.frameOf p) := by
    intro p hp
    obtain ⟨f, hf⟩ := resident_of_pinned ((hpinned p).mp hp)
    rw [frameOf, hf, Option.getD_some]
  have hinj : Set.InjOn c.frameOf pinned := by
    intro p hp q hq heq
    exact h.frame_inj p q _ (hframe p hp) (by rw [heq]; exact hframe q hq)
  have hsub : pinned.image c.frameOf ⊆ Finset.range c.pool.length := by
    intro f hf
    obtain ⟨p, hp, rfl⟩ := Finset.mem_image.mp hf
    exact Finset.mem_range.mpr (h.frame_lt p _ (hframe p hp))
  have hcard := Finset.card_image_of_injOn hinj
  constructor
  · intro hfull
    have himage : pinned.image c.frameOf = Finset.range c.pool.length := by
      apply Finset.eq_of_subset_of_card_le hsub
      rw [hcard, hfull, Finset.card_range]
    have howner : ∀ f < c.pool.length, ∃ p, 0 < c.pinOf p ∧ c.pageMap.lookup p = some f := by
      intro f hf
      have hmem := Finset.mem_range.mpr hf
      rw [← himage] at hmem
      obtain ⟨p, hp, rfl⟩ := Finset.mem_image.mp hmem
      exact ⟨p, (hpinned p).mp hp, hframe p hp⟩
    constructor
    · -- a free frame would have no page, and a page without a pin shares no frame with a pinned one
      rw [List.eq_nil_iff_forall_not_mem]
      intro f hf
      obtain ⟨p, -, hp⟩ := howner f (h.free_lt f hf)
      exact h.free_unused f hf p hp
    · intro q hq
      obtain ⟨f, hf⟩ := Option.isSome_iff_exists.mp hq
      obtain ⟨p, hpin, hp⟩ := howner f (h.frame_lt q f hf)
      rw [h.frame_inj q p f hf hp]
      omega
  · rintro ⟨hfree, hall⟩
    have himage : pinned.image c.frameOf = Finset.range c.pool.length := by
      apply Finset.Subset.antisymm hsub
      intro f hf
      rcases h.cover f (Finset.mem_range.mp hf) with hhole | hmem | ⟨p, hp⟩
      · exact absurd hhole (by simp)
      · rw [hfree] at hmem
        exact absurd hmem (by simp)
      · have hpos : 0 < c.pinOf p := Nat.pos_of_ne_zero (hall p (by simp [hp]))
        refine Finset.mem_image.mpr ⟨p, (hpinned p).mpr hpos, ?_⟩
        rw [frameOf, hp, Option.getD_some]
    rw [← hcard, himage, Finset.card_range]

/-- When the pool is full no frame can be taken. -/
theorem Took.not_full {c c₁ : PageCache} {f : Nat} (htook : Took c c₁ f) (h : Pool c none)
    (hpool : Pool c₁ (some f)) : ¬ Full c := by
  rintro ⟨hfree, hpinned⟩
  obtain ⟨hlt, -, hunused⟩ := hpool.hole_apart f rfl
  rw [htook.pool] at hlt
  rcases h.cover f hlt with hhole | hmem | ⟨p, hp⟩
  · exact absurd hhole (by simp)
  · rw [hfree] at hmem
    exact absurd hmem (by simp)
  · have hpos : 0 < c.pinOf p := Nat.pos_of_ne_zero (hpinned p (by simp [hp]))
    exact hunused p ((htook.kept hpos).trans hp)

end PageCache

end Aqa
