/-
# Aqa.Storage.IdleEngine — an engine whose users let their pages go at once.

Most code that works on a `StorageEngine` fetches a page, works on it through the handle and lets the
handle go at the end of the block (`withPage`). Between two such blocks no page is pinned (`Idle`), so no
fetch of a page of the file throws, the cached pages are the most recently fetched ones, and what the
engine shows is an array of pages in which each block changes one (`Idle.withPage`). The file changes
only at pages that leave the cache: a page that is in it has the bytes it had when it came in.
-/
import Aqa.Storage.EngineRuns
import Aqa.Storage.PageReplacement

namespace Aqa

open Aqa.Lib MappedFile

namespace PageCache

/-! ## Page code on a frame -/

/-- What code does to the page of a handle. -/
def updateFrame (c : PageCache) (h : PageHandle) (f : RawPage → RawPage) : PageCache :=
  { c with pool := c.pool.set h.frame (f (c.pageOf h)) }

variable {c : PageCache} {capacity : Nat} {order : List Nat}

theorem updateFrame_updateFrame (c : PageCache) (h : PageHandle) (f g : RawPage → RawPage) :
    (c.updateFrame h f).updateFrame h g = c.updateFrame h (g ∘ f) := by
  unfold updateFrame pageOf
  dsimp only
  rw [List.set_set]
  by_cases hlt : h.frame < c.pool.length
  · have hset : ∀ page : RawPage, (c.pool.set h.frame page).getD h.frame RawPage.reset = page := by
      intro page
      rw [List.getD_eq_getElem?_getD, List.getElem?_set_self hlt, Option.getD_some]
    rw [hset]
    rfl
  · rw [List.set_eq_of_length_le (by omega), List.set_eq_of_length_le (by omega)]

theorem visible_updateFrame (hpool : Pool c none) {h : PageHandle}
    (hh : c.pageMap.lookup h.pageId = some h.frame) (f : RawPage → RawPage) :
    (c.updateFrame h f).visible =
      Function.update c.visible h.pageId (f (c.visible h.pageId)) := by
  rw [visible_of_resident hh]
  unfold PageCache.visible updateFrame
  simp only
  rw [getD_set_fun (hpool.frame_lt _ _ hh)]
  exact WriteBack.view_write (by exact hh) (fun q hq => hpool.frame_inj q _ _ hq hh) _

/-- What a frame holds does not matter to the order. -/
theorem Ordered.updateFrame (h : Ordered c capacity order) (hd : PageHandle)
    (f : RawPage → RawPage) : Ordered (c.updateFrame hd f) capacity order := by
  have hlen : (c.updateFrame hd f).pool.length = c.pool.length := List.length_set
  exact { h with
    pins_length := by rw [hlen]; exact h.pins_length
    frame_lt := by rw [hlen]; exact h.frame_lt
    free_lt := by rw [hlen]; exact h.free_lt
    hole_apart := by simp
    cover := by rw [hlen]; exact h.cover }

/-- A fetch counts a hit for a resident page. -/
theorem hits_fetchPage {c c' : PageCache} {p : Nat} {hd : PageHandle}
    (h : fetchPage p c = .ok hd c') :
    c'.hits = c.hits + if (c.pageMap.lookup p).isSome then 1 else 0 := by
  have hrecord : ∀ (c : PageCache) (b : Bool), (c.recordAccess p b).hits = c.hits := by
    intro c b
    unfold recordAccess
    split <;> rfl
  simp only [fetchPage, getPageInternal, bind, EStateM.bind, pure, EStateM.pure] at h
  cases hp : c.pageMap.lookup p with
  | some f =>
      simp only [hp, hitPage, EStateM.Result.ok.injEq] at h
      rw [← h.2]
      exact hrecord { c with hits := c.hits + 1 } true
  | none =>
      have hm := hrecord { c with misses := c.misses + 1 } false
      simp only [hp] at h
      generalize { c with misses := c.misses + 1 }.recordAccess p false = m at h hm
      have htake : ∀ f c₁, takeFrame m = .ok f c₁ → c₁.hits = m.hits := by
        intro f c₁ htake
        unfold takeFrame at htake
        split at htake
        · simp only [EStateM.Result.ok.injEq] at htake
          rw [← htake.2]
        · unfold evict at htake
          split at htake
          · exact absurd htake (by simp)
          · simp only [EStateM.Result.ok.injEq] at htake
            rw [← htake.2]
      cases hres : takeFrame m with
      | error e c₁ =>
          simp only [hres] at h
          exact absurd h (by simp)
      | ok f c₁ =>
          simp only [hres, EStateM.Result.ok.injEq] at h
          rw [← h.2]
          exact (htake f c₁ hres).trans hm

/-! ## Between two blocks -/

/-- No page is pinned and none is taken out of turn. -/
structure Idle (c : PageCache) (capacity : Nat) (order : List Nat) : Prop
    extends Ordered c capacity order where
  pins : ∀ q, c.pinOf q = 0
  inRange : c.InRange
  inStep : c.file.InStep
  policy : c.evictionPolicy = none

theorem idle_new (file : Option Bytes) (capacity : Nat) (observed : Bool)
    (hpages : (file.getD []).length / PAGE_SIZE < 2 ^ 20) :
    Idle (StorageEngine.new file capacity observed).cache capacity [] := by
  have h := Program.engineRefines_opened file capacity observed hpages.le
  refine ⟨ordered_new _ _ _ _, fun q => ?_, h.refines.inRange, h.inStep, rfl⟩
  simp [StorageEngine.new, new, pinOf]

/-- Any program that has let its handles go leaves the engine idle. -/
theorem idle_of_program (file : Option Bytes) (capacity : Nat) (observed : Bool)
    (ops : List EngineOp)
    (hpages : (file.getD []).length / PAGE_SIZE + ops.count .allocatePage < 2 ^ 20)
    (hreleased : ∀ v ∈ (Program.engineRun ops (Program.opened file capacity observed)).1.handles,
      ∀ u ∈ v, u.owns = false) :
    let c := (Program.engineRun ops (Program.opened file capacity observed)).1.cache
    Idle c capacity c.lruList.toList := by
  intro c
  obtain ⟨h, -, hshape⟩ := Program.engineRefines_run ops
    (Program.engineRefines_opened file capacity observed (by omega))
    (Program.policyMember_opened file capacity observed) (Program.pagesFit_of_lt hpages)
  have hord := h.refines.accounted.inv.ordered
  rw [hshape.capacity, Program.capacity_opened] at hord
  refine ⟨hord, fun q => ?_, h.refines.inRange, h.inStep, hshape.policy⟩
  rw [h.refines.accounted.pins, Program.liveCount, List.countP_eq_zero]
  rintro (_ | v) hv
  · simp [Program.ownsPin]
  · simp [Program.ownsPin, hreleased _ hv v rfl]

/-- A cache whose file has grown by a page, as `allocate_page` does first. -/
def withNewPage (c : PageCache) : PageCache :=
  { c with file := c.file.growFile (u32 (c.file.pageCount + 1)) }

/-- A new page at the end of the file changes nothing else. -/
theorem Idle.withNewPage (h : Idle c capacity order) (hsmall : c.file.pageCount + 1 < 2 ^ 20) :
    Idle c.withNewPage capacity order ∧ c.withNewPage.visible = c.visible ∧
      pageAt c.withNewPage.file.bytes = pageAt c.file.bytes ∧
      c.withNewPage.file.pageCount = c.file.pageCount + 1 := by
  obtain ⟨hcount, hlength, hkept⟩ := h.inStep.growFile_one hsmall
  have hpages : pageAt c.withNewPage.file.bytes = pageAt c.file.bytes := hkept
  have hstep : c.withNewPage.file.InStep := h.inStep.growFile (by rw [u32_of_lt (by omega)]; exact hsmall)
  have hvis : c.withNewPage.visible = c.visible := by
    unfold visible
    rw [hpages]
    rfl
  refine ⟨{ h with inRange := ⟨?_, ?_, ?_⟩, inStep := hstep }, hvis, hpages, hcount⟩
  · show (c.file.growFile _).pageCount ≤ _
    rw [hcount]
    exact hsmall.le
  · show (c.file.growFile _).pageCount * _ ≤ (c.file.growFile _).bytes.length
    rw [hcount, hlength]
  · intro p f hp
    have hlt := h.inRange.in_range p f hp
    show p < (c.file.growFile _).pageCount
    rw [hcount]
    omega

/-- The fetch of a page of the file by an idle cache. -/
structure IdleFetch (c c' : PageCache) (capacity : Nat) (order : List Nat) (p f : Nat) : Prop where
  ordered : Ordered c' capacity (touch capacity order p)
  resident : c'.pageMap.lookup p = some f
  pins : c'.pinOf = Function.update c.pinOf p (c.pinOf p + 1)
  inRange : c'.InRange
  inStep : c'.file.InStep
  policy : c'.evictionPolicy = none
  visible : c'.visible = c.visible
  count : c'.file.pageCount = c.file.pageCount
  length : c'.file.bytes.length = c.file.bytes.length
  kept : ∀ q ∈ touch capacity order p, pageAt c'.file.bytes q = pageAt c.file.bytes q
  misses : c'.misses = c.misses + if p ∈ order then 0 else 1
  hits : c'.hits = c.hits + if p ∈ order then 1 else 0

theorem Idle.fetch (h : Idle c capacity order) (hcap : 1 ≤ capacity) {p : Nat}
    (hp : p < c.file.pageCount) :
    ∃ f c', fetchPage p c = .ok ⟨p, f⟩ c' ∧ IdleFetch c c' capacity order p f := by
  have hfront : TakesFront c.evictionPolicy := Or.inl h.policy
  obtain ⟨hd, c', trace, heq, hord, hf⟩ := h.fetch_lru hcap hfront h.pins p
  have hhits := hits_fetchPage heq
  have hmem : (c.pageMap.lookup p).isSome = decide (p ∈ order) := by
    rw [Bool.eq_iff_iff, decide_eq_true_eq, h.mem_iff]
  rw [hmem] at hhits
  simp only [decide_eq_true_eq] at hhits
  have hpolicy := hf.policy.trans h.policy
  -- the same call, once as a turn of the order and once as what it does to file and frames
  rcases fetchPage_cases h.toPool hfront.member p with
    ⟨f, c'', hres, hok, hhit⟩ | ⟨habsent, f, c₁, hok, hpool, hp₁, htook⟩ | ⟨-, -, -, c'', herr, -⟩
  · rw [heq] at hok
    cases hok
    refine ⟨f, c', heq, hord, by rw [hhit.pageMap]; exact hres, hhit.pins, ⟨?_, ?_, ?_⟩, ?_, hpolicy,
      ?_, by rw [hhit.file], by rw [hhit.file], fun q _ => by rw [hhit.file], hf.misses, hhits⟩
    · rw [hhit.file]
      exact h.inRange.small
    · rw [hhit.file]
      exact h.inRange.mapped
    · rw [hhit.file, hhit.pageMap]
      exact h.inRange.in_range
    · rw [hhit.file]
      exact h.inStep
    · unfold visible
      rw [hhit.file, hhit.pool, hhit.pageMap]
  · rw [heq] at hok
    cases hok
    obtain ⟨hvis₁, hrange₁⟩ := htook.visible h.inRange
    have hcount : c₁.file.pageCount = c.file.pageCount := by
      rcases htook.source with ⟨hfile, -⟩ | ⟨victim, -, -, hfile, -⟩
      · rw [hfile]
      · rw [hfile]
        rfl
    obtain ⟨hvis, hrange, -⟩ :=
      visible_installPage hpool hrange₁ hp₁ (by rw [hcount]; exact hp)
    have hstep₁ : c₁.file.InStep := Program.inStep_of_took h.inStep htook
    have hlength : c₁.file.bytes.length = c.file.bytes.length := by
      rcases htook.source with ⟨hfile, -⟩ | ⟨victim, -, -, hfile, -⟩
      · rw [hfile]
      · rw [hfile]
        exact length_overwrite _ _ _
    refine ⟨f, _, heq, hord, lookup_insert_eq_some.mpr (Or.inl ⟨rfl, rfl⟩), hf.pins, hrange, hstep₁,
      hpolicy, hvis.trans hvis₁, hcount, hlength, ?_, hf.misses, hhits⟩
    intro q hq
    show pageAt c₁.file.bytes q = _
    rcases htook.source with ⟨hfile, -⟩ | ⟨victim, hv, -, hfile, hmap⟩
    · rw [hfile]
    · -- the victim is not in the cache behind the fetch
      have hne : q ≠ victim := by
        rintro rfl
        obtain ⟨g, hg⟩ := Option.isSome_iff_exists.mp (hord.mem_iff.mp hq)
        rcases lookup_insert_eq_some.mp hg with ⟨rfl, -⟩ | ⟨-, hg⟩
        · rw [habsent] at hv
          exact absurd hv (by simp)
        · rw [hmap, AList.lookup_erase] at hg
          exact absurd hg (by simp)
      rw [hfile, h.inRange.pageAt_storePage (h.inRange.in_range victim f hv),
        Function.update_of_ne hne]
  · rw [heq] at herr
    exact absurd herr (by simp)

/-- What a block that works on page `p` does. -/
structure Used (c c' : PageCache) (capacity : Nat) (order : List Nat) (p : Nat) (page : RawPage) :
    Prop where
  idle : Idle c' capacity (touch capacity order p)
  visible : c'.visible = Function.update c.visible p page
  count : c'.file.pageCount = c.file.pageCount
  length : c'.file.bytes.length = c.file.bytes.length
  kept : ∀ q ∈ touch capacity order p, pageAt c'.file.bytes q = pageAt c.file.bytes q
  misses : c'.misses = c.misses + if p ∈ order then 0 else 1
  hits : c'.hits = c.hits + if p ∈ order then 1 else 0

/-- Page code on a page just fetched, and the release of its handle. -/
theorem IdleFetch.used {c' : PageCache} {p f : Nat} (h : IdleFetch c c' capacity order p f)
    (hpins : ∀ q, c.pinOf q = 0) (g : RawPage → RawPage) :
    (c'.updateFrame ⟨p, f⟩ g).pageOf ⟨p, f⟩ = g (c.visible p) ∧
      Used c ((c'.updateFrame ⟨p, f⟩ g).unpinPage p) capacity order p (g (c.visible p)) := by
  have hvis := visible_updateFrame h.ordered.toPool (h := ⟨p, f⟩) h.resident g
  rw [h.visible] at hvis
  obtain ⟨hord, hpins', -⟩ := (h.ordered.updateFrame ⟨p, f⟩ g).unpin p
  obtain ⟨-, ⟨counts, heq⟩, -⟩ := unpinPage_pool (h.ordered.updateFrame ⟨p, f⟩ g).toPool p
  have hshown : (c'.updateFrame ⟨p, f⟩ g).visible p = g (c.visible p) := by
    rw [hvis, Function.update_self]
  refine ⟨?_, ⟨hord, ?_, ?_, ?_, ?_⟩, ?_, ?_, ?_, ?_, ?_, ?_⟩
  · have hres : (c'.updateFrame ⟨p, f⟩ g).pageMap.lookup p = some f := h.resident
    rw [← hshown, visible_of_resident hres]
    rfl
  · intro q
    have hkept : (c'.updateFrame ⟨p, f⟩ g).pinOf = c'.pinOf := rfl
    rw [hpins', hkept, h.pins]
    by_cases hq : q = p
    · rw [hq, Function.update_self, Function.update_self, hpins p]
    · rw [Function.update_of_ne hq, Function.update_of_ne hq, hpins q]
  · rw [heq]
    exact ⟨h.inRange.small, h.inRange.mapped, h.inRange.in_range⟩
  · rw [heq]
    exact h.inStep
  · rw [heq]
    exact h.policy
  · rw [heq]
    exact hvis
  · rw [heq]
    exact h.count
  · rw [heq]
    exact h.length
  · rw [heq]
    exact h.kept
  · rw [heq]
    exact h.misses
  · rw [heq]
    exact h.hits

/-! ## What is on the file -/

/-- An idle cache whose pages have on the file what they had when the engine was opened. -/
structure Held (first : Nat → RawPage) (c : PageCache) (capacity : Nat) (order : List Nat) : Prop where
  idle : Idle c capacity order
  held : ∀ q ∈ order, pageAt c.file.bytes q = first q

variable {first : Nat → RawPage} {c' : PageCache} {p : Nat}

/-- A page that comes in is shown as it is on the file. -/
theorem Held.step (h : Held first c capacity order) (hidle : Idle c' capacity (touch capacity order p))
    (hkept : ∀ q ∈ touch capacity order p, pageAt c'.file.bytes q = pageAt c.file.bytes q)
    (hnew : p ∉ order → c.visible p = first p) : Held first c' capacity (touch capacity order p) := by
  refine ⟨hidle, fun q hq => (hkept q hq).trans ?_⟩
  by_cases hmem : q ∈ order
  · exact h.held q hmem
  · have hqp : q = p := by
      rcases List.mem_cons.mp (List.mem_of_mem_take hq) with heq | herase
      · exact heq
      · exact absurd (List.mem_of_mem_erase herase) hmem
    subst hqp
    have habsent : c.pageMap.lookup q = none := by
      rw [← Option.not_isSome_iff_eq_none, ← h.idle.mem_iff]
      exact hmem
    rw [← hnew hmem, visible_of_absent habsent]

/-- **What is on the file**: what is shown of the pages that are not cached. -/
theorem Held.file (h : Held first c capacity order) (q : Nat) :
    pageAt c.file.bytes q = if q ∈ order then first q else c.visible q := by
  by_cases hq : q ∈ order
  · rw [if_pos hq, h.held q hq]
  · have habsent : c.pageMap.lookup q = none := by
      rw [← Option.not_isSome_iff_eq_none, ← h.idle.mem_iff]
      exact hq
    rw [if_neg hq, visible_of_absent habsent]

/-- A block that changes nothing leaves a clean cache clean. -/
theorem Used.clean (h : Used c c' capacity order p (c.visible p)) (hclean : Program.Clean c) :
    Program.Clean c' := by
  rw [Program.clean_iff_visible] at hclean ⊢
  have hvis : c'.visible = c.visible := h.visible.trans (Function.update_eq_self p _)
  intro q
  by_cases hq : q ∈ touch capacity order p
  · rw [h.kept q hq, hclean q, hvis]
  · have habsent : c'.pageMap.lookup q = none := by
      rw [← Option.not_isSome_iff_eq_none, ← h.idle.mem_iff]
      exact hq
    rw [visible_of_absent habsent]

end PageCache

namespace StorageEngine

open PageCache

/-- A block that fetches a page, works on it and lets the handle go. -/
def withPage (pageId : Nat) (f : RawPage → RawPage) : EStateM Error StorageEngine RawPage := fun e =>
  match fetchPage pageId e with
  | .ok h e =>
      let e : StorageEngine := { e with cache := e.cache.updateFrame h f }
      .ok (e.pageOf h) (e.releasePage h)
  | .error err e => .error err e

variable {e : StorageEngine} {capacity : Nat} {order : List Nat}

/-- **A block on a page of the file returns**, and changes this page only. -/
theorem withPage_idle (h : Idle e.cache capacity order) (hcap : 1 ≤ capacity) {p : Nat}
    (hp : p < e.getTotalPages) (g : RawPage → RawPage) :
    ∃ e', withPage p g e = .ok (g (e.cache.visible p)) e' ∧
      Used e.cache e'.cache capacity order p (g (e.cache.visible p)) := by
  obtain ⟨f, c', heq, hfetch⟩ := h.fetch hcap hp
  obtain ⟨hpage, hused⟩ := hfetch.used h.pins g
  refine ⟨⟨(c'.updateFrame ⟨p, f⟩ g).unpinPage p⟩, ?_, hused⟩
  unfold withPage fetchPage
  rw [if_neg (by omega), heq]
  simp only [pageOf, releasePage]
  rw [hpage]

/-- A block on a page behind the end of the file throws, and changes nothing. -/
theorem withPage_outOfBounds {p : Nat} (hp : e.getTotalPages ≤ p) (g : RawPage → RawPage) :
    withPage p g e = .error (.runtimeError ("Page ID out of bounds: " ++ toString p)) e := by
  unfold withPage fetchPage
  rw [if_pos hp]

/-- Three writes to the header of a page are one. -/
theorem initHeader_eq (c : PageCache) (h : PageHandle) :
    initHeader c h = c.updateFrame h (FlatEngine.initPage h.pageId) := by
  have hwrite : ∀ (c : PageCache) (off : Nat) (bytes : Bytes),
      c.writeFrame h off bytes = c.updateFrame h fun page => page.write off bytes :=
    fun _ _ _ => rfl
  unfold initHeader
  rw [hwrite, hwrite, hwrite, updateFrame_updateFrame, updateFrame_updateFrame]
  rfl

/-- The allocation of a page whose handle is let go. -/
theorem allocatePage_idle (h : Idle e.cache capacity order) (hcap : 1 ≤ capacity)
    (hsmall : e.getTotalPages + 1 < 2 ^ 20) :
    ∃ hd e', allocatePage e = .ok hd e' ∧
      let c' := (e'.releasePage hd).cache
      Idle c' capacity (touch capacity order e.getTotalPages) ∧
      c'.visible = Function.update e.cache.visible e.getTotalPages
        (FlatEngine.initPage e.getTotalPages (e.cache.visible e.getTotalPages)) ∧
      c'.file.pageCount = e.getTotalPages + 1 ∧
      ∀ q ∈ touch capacity order e.getTotalPages,
        pageAt c'.file.bytes q = pageAt e.cache.file.bytes q := by
  obtain ⟨hgrown, hvis, hpages, hcount⟩ := h.withNewPage hsmall
  have hnew : e.getTotalPages < e.cache.withNewPage.file.pageCount := by
    rw [hcount]
    exact Nat.lt_succ_self _
  obtain ⟨f, c', heq, hfetch⟩ := hgrown.fetch hcap hnew
  have hused := (hfetch.used h.pins (FlatEngine.initPage e.getTotalPages)).2
  rw [hvis] at hused
  have hfetched : PageCache.fetchPage e.getTotalPages
      { e.cache with file := e.file.growFile (u32 (e.getTotalPages + 1)) } =
        .ok ⟨e.getTotalPages, f⟩ c' := heq
  refine ⟨⟨e.getTotalPages, f⟩, ⟨c'.updateFrame ⟨e.getTotalPages, f⟩
    (FlatEngine.initPage e.getTotalPages)⟩, ?_, hused.idle, ?_, hused.count.trans hcount, ?_⟩
  · unfold allocatePage
    simp only [hfetched, initHeader_eq]
  · have hshown := hused.visible
    rw [hvis] at hshown
    exact hshown
  · intro q hq
    rw [← hpages]
    exact hused.kept q hq

end StorageEngine

end Aqa
