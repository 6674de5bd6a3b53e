/-
# Aqa.Storage.FlatPages — the page cache is a flat array of pages.

`FlatPages` is what a page cache is for: an array of pages, written through handles, whose one limit
is the number of distinct pages that may have a handle at a time. It knows neither frames nor a
policy. The cache refines it: what the cache shows of a page (`visible`) is the page of the array,
through loads, evictions, write-backs and the reuse of frames, and a program sees the same bytes and
the same exceptions of both (`page_cache_refines_flat_pages`).
-/
import Aqa.Cache.EvictionPolicy
import Aqa.Lib.WriteBack
import Aqa.Storage.Handles

namespace Aqa

open Aqa.Lib MappedFile

/-! ## The flat array -/

/-- An array of pages, and the handles on it: whether a handle is live, and its page. -/
structure FlatPages where
  pages : Nat → RawPage
  handles : List (Option (Bool × Nat))

namespace FlatPages

/-- A handle object that has been constructed and not destroyed. -/
def var (s : FlatPages) (i : Nat) : Option (Bool × Nat) := (s.handles[i]?).join

/-- The page of a live handle. -/
def live (s : FlatPages) (i : Nat) : Option Nat :=
  match s.var i with
  | some (true, p) => some p
  | _ => none

/-- The distinct pages with a live handle. -/
def livePages (handles : List (Option (Bool × Nat))) : Finset Nat :=
  (handles.filterMap fun v =>
    match v with
    | some (true, p) => some p
    | _ => none).toFinset

/-- Moving a handle to a new object. -/
def moveConstruct (s : FlatPages) (src : Nat) : FlatPages :=
  match s.var src with
  | some v => { s with handles := s.handles.set src (some (false, v.2)) ++ [some v] }
  | none => s

/-- Moving a handle over another one. -/
def moveAssign (s : FlatPages) (dst src : Nat) : FlatPages :=
  if dst = src then s
  else
    match s.var dst, s.var src with
    | some _, some v =>
        { s with handles := (s.handles.set dst (some v)).set src (some (false, v.2)) }
    | _, _ => s

/-- Destroying a handle. -/
def destroy (s : FlatPages) (i : Nat) : FlatPages :=
  match s.var i with
  | some _ => { s with handles := s.handles.set i none }
  | none => s

/-- One operation on the array. -/
def step (capacity : Nat) (s : FlatPages) : PoolOp → FlatPages × Observation
  | .fetch p =>
      if (livePages s.handles).card = capacity ∧ p ∉ livePages s.handles then
        (s, .threw (.runtimeError "Buffer Pool Full: All pages are pinned.."))
      else ({ s with handles := s.handles ++ [some (true, p)] }, .page (s.pages p).bytes)
  | .moveConstruct src => (s.moveConstruct src, .nothing)
  | .moveAssign dst src => (s.moveAssign dst src, .nothing)
  | .destroy i => (s.destroy i, .nothing)
  | .write i off bytes =>
      match s.live i with
      | some p => ({ s with pages := Function.update s.pages p ((s.pages p).write off bytes) }, .nothing)
      | none => (s, .nothing)
  | .read i =>
      match s.live i with
      | some p => (s, .page (s.pages p).bytes)
      | none => (s, .nothing)
  | .flushPage _ => (s, .nothing)
  | .flushAll => (s, .nothing)

/-- A sequence of operations on the array, with what the program sees. -/
def run (capacity : Nat) : List PoolOp → FlatPages → FlatPages × List Observation
  | [], s => (s, [])
  | op :: ops, s =>
      let out := step capacity s op
      ((run capacity ops out.1).1, out.2 :: (run capacity ops out.1).2)

end FlatPages

/-! ## What the cache shows -/

namespace PageCache

/-- What a page cache shows of a page: its frame, or the file. -/
def visible (c : PageCache) : Nat → RawPage :=
  WriteBack.view (pageAt c.file.bytes) (fun p => c.pageMap.lookup p)
    (fun f => c.pool.getD f RawPage.reset)

/-- The cached pages lie in a mapping of at most 2^20 pages. -/
structure InRange (c : PageCache) : Prop where
  small : c.file.pageCount ≤ 2 ^ 20
  mapped : c.file.pageCount * PAGE_SIZE ≤ c.file.bytes.length
  in_range : ∀ p f, c.pageMap.lookup p = some f → p < c.file.pageCount

section Visible

variable {c : PageCache}

theorem lookup_erase_fun (m : AList (fun _ : Nat => Nat)) (k : Nat) :
    (fun p => (m.erase k).lookup p) = Function.update (fun p => m.lookup p) k none := by
  funext p
  by_cases hp : p = k
  · subst hp
    rw [AList.lookup_erase, Function.update_self]
  · rw [AList.lookup_erase_ne hp, Function.update_of_ne hp]

theorem lookup_insert_fun (m : AList (fun _ : Nat => Nat)) (k f : Nat) :
    (fun p => (m.insert k f).lookup p) = Function.update (fun p => m.lookup p) k (some f) := by
  funext p
  by_cases hp : p = k
  · subst hp
    rw [AList.lookup_insert, Function.update_self]
  · rw [AList.lookup_insert_ne hp, Function.update_of_ne hp]

theorem getD_set_fun {pool : List RawPage} {f : Nat} (hf : f < pool.length) (page : RawPage) :
    (fun g => (pool.set f page).getD g RawPage.reset) =
      Function.update (fun g => pool.getD g RawPage.reset) f page := by
  funext g
  by_cases hg : g = f
  · subst hg
    rw [Function.update_self, List.getD_eq_getElem?_getD, List.getElem?_set_self hf,
      Option.getD_some]
  · rw [Function.update_of_ne hg, List.getD_eq_getElem?_getD, List.getElem?_set_ne (Ne.symm hg),
      List.getD_eq_getElem?_getD]

theorem visible_of_resident {p f : Nat} (h : c.pageMap.lookup p = some f) :
    c.visible p = c.pool.getD f RawPage.reset := by
  unfold visible WriteBack.view
  simp only [h]

theorem visible_of_absent {p : Nat} (h : c.pageMap.lookup p = none) :
    c.visible p = pageAt c.file.bytes p := by
  unfold visible WriteBack.view
  simp only [h]

/-- Storing a page of the mapping updates the file at that page. -/
theorem InRange.pageAt_storePage (h : InRange c) {p : Nat} (hp : p < c.file.pageCount)
    (page : RawPage) :
    pageAt (c.file.storePage p page).bytes = Function.update (pageAt c.file.bytes) p page := by
  have hsmall := h.small
  have hlen : (p + 1) * PAGE_SIZE ≤ c.file.bytes.length :=
    le_trans (Nat.mul_le_mul_right _ hp) h.mapped
  funext q
  rw [MappedFile.pageAt_storePage (by omega) hlen, Function.update_apply]

theorem InRange.storePage (h : InRange c) (p : Nat) (page : RawPage)
    {m : AList (fun _ : Nat => Nat)}
    (hm : ∀ q f, m.lookup q = some f → c.pageMap.lookup q = some f) :
    InRange { c with file := c.file.storePage p page, pageMap := m } where
  small := h.small
  mapped := by
    show _ ≤ (c.file.storePage p page).bytes.length
    unfold MappedFile.storePage
    rw [length_overwrite]
    exact h.mapped
  in_range q f hq := h.in_range q f (hm q f hq)

/-- Writing a frame back shows nothing. -/
theorem visible_writeBack (h : InRange c) {p f : Nat} (hp : c.pageMap.lookup p = some f) :
    (c.writeBack p f).visible = c.visible := by
  show WriteBack.view (pageAt (c.file.storePage p (c.pool.getD f RawPage.reset)).bytes) _ _ = _
  rw [h.pageAt_storePage (h.in_range p f hp)]
  exact WriteBack.view_flush _ (fun f => c.pool.getD f RawPage.reset) hp

/-- Taking a frame shows nothing. -/
theorem Took.visible {c' : PageCache} {f : Nat} (htook : Took c c' f) (h : InRange c) :
    c'.visible = c.visible ∧ InRange c' := by
  rcases htook.source with ⟨hfile, hmap⟩ | ⟨victim, hv, -, hfile, hmap⟩
  · refine ⟨?_, ⟨?_, ?_, ?_⟩⟩
    · unfold PageCache.visible
      rw [hfile, hmap, htook.pool]
    · rw [hfile]
      exact h.small
    · rw [hfile]
      exact h.mapped
    · rw [hfile, hmap]
      exact h.in_range
  · have hrange := h.storePage victim (c.pool.getD f RawPage.reset) (m := c.pageMap.erase victim)
      fun q g hq => (lookup_erase_eq_some.mp hq).2
    refine ⟨?_, ⟨?_, ?_, ?_⟩⟩
    · unfold PageCache.visible
      rw [hfile, hmap, htook.pool, h.pageAt_storePage (h.in_range victim f hv), lookup_erase_fun]
      exact WriteBack.view_evict _ (fun f => c.pool.getD f RawPage.reset) hv
    · rw [hfile]
      exact hrange.small
    · rw [hfile]
      exact hrange.mapped
    · rw [hfile, hmap]
      exact hrange.in_range

/-- Loading a page into the frame taken for it shows nothing new, and the frame shows the page. -/
theorem visible_installPage {p f : Nat} (hpool : Pool c (some f)) (h : InRange c)
    (hp : c.pageMap.lookup p = none) (hlt : p < c.file.pageCount) :
    (c.installPage p f).visible = c.visible ∧ InRange (c.installPage p f) ∧
      (c.installPage p f).pageOf ⟨p, f⟩ = c.visible p := by
  obtain ⟨hf, -, hunused⟩ := hpool.hole_apart f rfl
  have hsmall := h.small
  have hload : c.file.loadPage p = pageAt c.file.bytes p := loadPage_of_lt (by omega)
  refine ⟨?_, ⟨h.small, h.mapped, ?_⟩, ?_⟩
  · unfold PageCache.visible installPage
    simp only
    rw [getD_set_fun hf, lookup_insert_fun, hload]
    exact WriteBack.view_load hp hunused
  · intro q g hq
    rcases lookup_insert_eq_some.mp hq with ⟨rfl, -⟩ | ⟨-, hq⟩
    · exact hlt
    · exact h.in_range q g hq
  · rw [visible_of_absent hp, ← hload]
    simp only [pageOf, installPage, List.getD_eq_getElem?_getD, List.getElem?_set_self hf,
      Option.getD_some]

/-- Writing through a handle changes the page of the handle and no other. -/
theorem visible_writeFrame (hpool : Pool c none) {h : PageHandle}
    (hh : c.pageMap.lookup h.pageId = some h.frame) (off : Nat) (bytes : Bytes) :
    (c.writeFrame h off bytes).visible =
      Function.update c.visible h.pageId ((c.visible h.pageId).write off bytes) := by
  rw [visible_of_resident hh]
  unfold PageCache.visible writeFrame
  simp only
  rw [getD_set_fun (hpool.frame_lt _ _ hh)]
  exact WriteBack.view_write (by exact hh) (fun q hq => hpool.frame_inj q _ _ hq hh) _

/-- Flushing all pages shows nothing. -/
theorem visible_flushAll (h : InRange c) :
    c.flushAll.visible = c.visible ∧ InRange c.flushAll ∧
      c.flushAll.file.pageCount = c.file.pageCount := by
  refine flushAll_rule (fun _ c' => c'.visible = c.visible ∧ InRange c' ∧
    c'.file.pageCount = c.file.pageCount) ⟨rfl, h, rfl⟩ ?_
  rintro p f _ c' hmap hp ⟨hvisible, hrange, hcount⟩
  rw [← hmap] at hp
  exact ⟨(visible_writeBack hrange hp).trans hvisible, hrange.storePage p _ fun _ _ hq => hq, hcount⟩

end Visible

end PageCache

namespace Program

open FlatPages PageCache

/-! ## Handles of the cache and of the array -/

/-- A handle object as the array knows it. -/
def flatVar (v : HandleVar) : Bool × Nat := (v.owns, v.handle.pageId)

/-- The handle objects as the array knows them. -/
def flatHandles (handles : List (Option HandleVar)) : List (Option (Bool × Nat)) :=
  handles.map (Option.map flatVar)

section Handles

variable {s : Program} {flat : FlatPages}

theorem var_flat (h : flat.handles = flatHandles s.handles) (i : Nat) :
    flat.var i = (s.var i).map flatVar := by
  unfold FlatPages.var Program.var
  rw [h, flatHandles, List.getElem?_map]
  cases s.handles[i]? with
  | none => rfl
  | some v => cases v <;> rfl

theorem live_flat (h : flat.handles = flatHandles s.handles) (i : Nat) :
    flat.live i = (s.live i).map PageHandle.pageId := by
  unfold FlatPages.live Program.live
  rw [var_flat h]
  cases s.var i with
  | none => rfl
  | some v =>
      simp only [Option.map_some, flatVar]
      cases v.owns <;> rfl

/-- Giving back a pin touches the pin counts alone. -/
theorem unpinVar_counts (c : PageCache) (v : HandleVar) :
    ∃ counts, unpinVar c v = { c with pinCounts := counts } := by
  unfold unpinVar unpinPage
  split
  · split
    · split
      · exact ⟨_, rfl⟩
      · exact ⟨c.pinCounts, rfl⟩
    · exact ⟨c.pinCounts, rfl⟩
  · exact ⟨c.pinCounts, rfl⟩

theorem unpinVar_file (c : PageCache) (v : HandleVar) :
    (unpinVar c v).file = c.file ∧ (unpinVar c v).pool = c.pool ∧
      (unpinVar c v).pageMap = c.pageMap := by
  obtain ⟨counts, heq⟩ := unpinVar_counts c v
  rw [heq]
  exact ⟨rfl, rfl, rfl⟩

/-- An operation on handle objects, or through them. -/
def OnHandles : PoolOp → Prop
  | .fetch _ | .flushPage _ | .flushAll => False
  | _ => True

/-- Operations on handles touch frames and pin counts alone. -/
theorem cache_step (s : Program) (op : PoolOp) (hop : OnHandles op) :
    ∃ pool counts, (s.step op).1.cache = { s.cache with pool := pool, pinCounts := counts } := by
  have hsame : ∃ pool counts, s.cache = { s.cache with pool := pool, pinCounts := counts } :=
    ⟨s.cache.pool, s.cache.pinCounts, rfl⟩
  cases op with
  | fetch p => cases hop
  | moveConstruct src =>
      simp only [Program.step, Program.moveConstruct]
      split <;> exact hsame
  | moveAssign dst src =>
      simp only [Program.step, Program.moveAssign]
      split
      · exact hsame
      · split
        · obtain ⟨counts, heq⟩ := unpinVar_counts s.cache _
          exact ⟨s.cache.pool, counts, heq⟩
        · exact hsame
  | destroy i =>
      simp only [Program.step, Program.destroy]
      split
      · obtain ⟨counts, heq⟩ := unpinVar_counts s.cache _
        exact ⟨s.cache.pool, counts, heq⟩
      · exact hsame
  | write i off bytes =>
      simp only [Program.step]
      split
      · exact ⟨_, s.cache.pinCounts, rfl⟩
      · exact hsame
  | read i =>
      simp only [Program.step]
      split <;> exact hsame
  | flushPage p => cases hop
  | flushAll => cases hop

/-- Operations on handles leave the file alone. -/
theorem file_step (s : Program) (op : PoolOp) (hop : OnHandles op) :
    (s.step op).1.cache.file = s.cache.file := by
  obtain ⟨pool, counts, heq⟩ := cache_step s op hop
  rw [heq]

/-- Operations on handles leave the order of the resident pages alone. -/
theorem lruList_step (s : Program) (op : PoolOp) (hop : OnHandles op) :
    (s.step op).1.cache.lruList = s.cache.lruList := by
  obtain ⟨pool, counts, heq⟩ := cache_step s op hop
  rw [heq]

/-- The pages with a live handle are the pinned ones. -/
theorem mem_livePages (h : Accounted s) {p : Nat} :
    p ∈ livePages (flatHandles s.handles) ↔ 0 < s.cache.pinOf p := by
  rw [h.pins p]
  unfold livePages liveCount flatHandles
  rw [List.mem_toFinset, List.mem_filterMap, List.countP_pos_iff]
  constructor
  · rintro ⟨v, hv, heq⟩
    obtain ⟨w, hw, rfl⟩ := List.mem_map.mp hv
    cases w with
    | none => exact absurd heq (by simp)
    | some w =>
        refine ⟨some w, hw, ?_⟩
        simp only [Option.map_some, flatVar] at heq
        cases hown : w.owns with
        | false => simp [hown] at heq
        | true =>
            simp only [hown, Option.some.injEq] at heq
            simp [ownsPin, hown, heq]
  · rintro ⟨v, hv, hown⟩
    cases v with
    | none => exact absurd hown (by simp [ownsPin])
    | some v =>
        simp only [ownsPin, Bool.and_eq_true, beq_iff_eq] at hown
        refine ⟨some (flatVar v), List.mem_map.mpr ⟨_, hv, rfl⟩, ?_⟩
        simp [flatVar, hown.1, hown.2]

/-- **When the pool is full**: as many distinct pages have live handles as there are frames exactly
when no frame is free and every resident page is pinned. -/
theorem card_livePages_iff (h : Accounted s) :
    (livePages (flatHandles s.handles)).card = s.cache.pool.length ↔
      s.cache.freeFrames = [] ∧ ∀ q, (s.cache.pageMap.lookup q).isSome → s.cache.pinOf q ≠ 0 :=
  card_pinned_iff h.inv fun _ => mem_livePages h

end Handles

/-! ## The refinement -/

/-- The cache shows the pages of the array, and the two have the same handles. -/
structure Refines (s : Program) (flat : FlatPages) : Prop where
  accounted : Accounted s
  inRange : s.cache.InRange
  pages : flat.pages = s.cache.visible
  handles : flat.handles = flatHandles s.handles

namespace Refines

variable {s : Program} {flat : FlatPages}

/-- The handles may change when what the cache shows does not. -/
theorem withHandles (h : Refines s flat) {s' : Program} (hacc : Accounted s')
    (hfile : s'.cache.file = s.cache.file) (hpool : s'.cache.pool = s.cache.pool)
    (hmap : s'.cache.pageMap = s.cache.pageMap) {handles : List (Option (Bool × Nat))}
    (hhandles : handles = flatHandles s'.handles) :
    Refines s' { flat with handles := handles } where
  accounted := hacc
  inRange := by
    refine ⟨?_, ?_, ?_⟩
    · rw [hfile]
      exact h.inRange.small
    · rw [hfile]
      exact h.inRange.mapped
    · rw [hfile, hmap]
      exact h.inRange.in_range
  pages := by
    show flat.pages = _
    rw [h.pages]
    unfold visible
    rw [hfile, hpool, hmap]
  handles := hhandles

theorem fetch (h : Refines s flat) (hpol : s.cache.PolicyMember) {p : Nat}
    (hp : p < s.cache.file.pageCount) :
    Refines (s.step (.fetch p)).1 (flat.step s.cache.pool.length (.fetch p)).1 ∧
      (s.step (.fetch p)).2 = (flat.step s.cache.pool.length (.fetch p)).2 ∧
      (s.step (.fetch p)).1.cache.file.pageCount = s.cache.file.pageCount := by
  have hacc := (h.accounted.fetch hpol p).1
  have hmem := mem_livePages (p := p) h.accounted
  unfold Program.step FlatPages.step at *
  simp only [h.handles, h.pages] at *
  rcases fetchPage_cases h.accounted.inv hpol p with
    ⟨f, c', hres, heq, hhit⟩ | ⟨habsent, f, c₁, heq, hpool, hp₁, htook⟩ |
    ⟨habsent, hfree, hpinned, c', heq, href⟩
  · -- a hit: the page may be pinned or not, the pool full or not, but not both pages missing
    have hgo : ¬ ((livePages (flatHandles s.handles)).card = s.cache.pool.length ∧
        p ∉ livePages (flatHandles s.handles)) := by
      rintro ⟨hfull, hnot⟩
      have hpin := ((card_livePages_iff h.accounted).mp hfull).2 p (by simp [hres])
      exact hnot (hmem.mpr (Nat.pos_of_ne_zero hpin))
    have hvis : c'.visible = s.cache.visible := by
      unfold visible
      rw [hhit.file, hhit.pool, hhit.pageMap]
    simp only [heq] at hacc ⊢
    rw [if_neg hgo]
    refine ⟨⟨hacc, ⟨?_, ?_, ?_⟩, hvis.symm, ?_⟩, ?_, by rw [hhit.file]⟩
    · rw [hhit.file]
      exact h.inRange.small
    · rw [hhit.file]
      exact h.inRange.mapped
    · rw [hhit.file, hhit.pageMap]
      exact h.inRange.in_range
    · simp [flatHandles, flatVar]
    · rw [visible_of_resident hres]
      unfold pageOf
      rw [hhit.pool]
  · -- a frame was found, so the pool was not full
    have hgo : ¬ ((livePages (flatHandles s.handles)).card = s.cache.pool.length ∧
        p ∉ livePages (flatHandles s.handles)) :=
      fun hboth => htook.not_full h.accounted.inv hpool
        ((card_livePages_iff h.accounted).mp hboth.1)
    obtain ⟨hvis₁, hrange₁⟩ := htook.visible h.inRange
    have hcount : c₁.file.pageCount = s.cache.file.pageCount := by
      rcases htook.source with ⟨hfile, -⟩ | ⟨victim, -, -, hfile, -⟩
      · rw [hfile]
      · rw [hfile]
        rfl
    obtain ⟨hvis, hrange, hpage⟩ := visible_installPage hpool hrange₁ hp₁ (by rw [hcount]; exact hp)
    simp only [heq] at hacc ⊢
    rw [if_neg hgo]
    refine ⟨⟨hacc, hrange, (hvis.trans hvis₁).symm, ?_⟩, ?_, hcount⟩
    · simp [flatHandles, flatVar]
    · rw [hpage, hvis₁]
  · -- the exception: full, and the page without a handle
    have hstop : (livePages (flatHandles s.handles)).card = s.cache.pool.length ∧
        p ∉ livePages (flatHandles s.handles) := by
      refine ⟨(card_livePages_iff h.accounted).mpr ⟨hfree, hpinned⟩, ?_⟩
      rw [hmem, pinOf, habsent]
      exact lt_irrefl 0
    simp only [heq] at hacc ⊢
    rw [if_pos hstop]
    refine ⟨?_, rfl, by rw [href.file]⟩
    exact h.withHandles hacc href.file href.pool href.pageMap h.handles

theorem moveConstruct (h : Refines s flat) (src : Nat) :
    Refines (s.moveConstruct src) (flat.moveConstruct src) := by
  have hacc := (h.accounted.moveConstruct src).1
  unfold Program.moveConstruct FlatPages.moveConstruct at *
  rw [var_flat h.handles]
  cases hv : s.var src with
  | none => exact h
  | some v =>
      simp only [hv, Option.map_some] at hacc ⊢
      refine h.withHandles hacc rfl rfl rfl ?_
      rw [h.handles]
      simp [flatHandles, flatVar]

theorem moveAssign (h : Refines s flat) (dst src : Nat) :
    Refines (s.moveAssign dst src) (flat.moveAssign dst src) := by
  have hacc := (h.accounted.moveAssign dst src).1
  unfold Program.moveAssign FlatPages.moveAssign at *
  rw [var_flat h.handles, var_flat h.handles]
  split
  · exact h
  · rename_i hne
    rw [if_neg hne] at hacc
    cases hdst : s.var dst with
    | none => exact h
    | some old =>
        cases hsrc : s.var src with
        | none => exact h
        | some v =>
            simp only [hdst, hsrc, Option.map_some] at hacc ⊢
            refine h.withHandles hacc ?_ ?_ ?_ ?_
            · exact (unpinVar_file s.cache old).1
            · exact (unpinVar_file s.cache old).2.1
            · exact (unpinVar_file s.cache old).2.2
            · rw [h.handles]
              simp [flatHandles, flatVar, List.map_set]

theorem destroy (h : Refines s flat) (i : Nat) : Refines (s.destroy i) (flat.destroy i) := by
  have hacc := (h.accounted.destroy i).1
  unfold Program.destroy FlatPages.destroy at *
  rw [var_flat h.handles]
  cases hv : s.var i with
  | none => exact h
  | some v =>
      simp only [hv, Option.map_some] at hacc ⊢
      refine h.withHandles hacc (unpinVar_file s.cache v).1 (unpinVar_file s.cache v).2.1
        (unpinVar_file s.cache v).2.2 ?_
      rw [h.handles]
      simp [flatHandles]

/-- A write through a live handle writes the page on both sides. -/
theorem writeLive (h : Refines s flat) {v : HandleVar} (hv : some v ∈ s.handles)
    (hown : v.owns = true) (off : Nat) (bytes : Bytes) :
    Refines { s with cache := s.cache.writeFrame v.handle off bytes }
      ⟨Function.update flat.pages v.handle.pageId
        ((flat.pages v.handle.pageId).write off bytes), flat.handles⟩ where
  accounted := (h.accounted.writeFrame v.handle off bytes).1
  inRange := ⟨h.inRange.small, h.inRange.mapped, h.inRange.in_range⟩
  pages := by
    simp only
    rw [visible_writeFrame h.accounted.inv (h.accounted.leased v hv hown), h.pages]
  handles := h.handles

/-- Only the pages change: by a write on both sides. -/
theorem write (h : Refines s flat) (i off : Nat) (bytes : Bytes) :
    Refines (s.step (.write i off bytes)).1
        (flat.step s.cache.pool.length (.write i off bytes)).1 ∧
      (s.step (.write i off bytes)).2 = (flat.step s.cache.pool.length (.write i off bytes)).2 := by
  cases hl : s.live i with
  | none =>
      simp only [Program.step, FlatPages.step, hl, live_flat h.handles, Option.map_none]
      exact ⟨h, trivial⟩
  | some hd =>
      obtain ⟨v, hv, hown, rfl⟩ := live_eq_some_iff.mp hl
      simp only [Program.step, FlatPages.step, hl, live_flat h.handles, Option.map_some]
      exact ⟨h.writeLive (List.mem_of_getElem? (var_eq_some_iff.mp hv)) hown off bytes, trivial⟩

/-- Flushing changes neither side. -/
theorem flushed (h : Refines s flat) {c : PageCache} (hacc : Accounted { s with cache := c })
    (hvis : c.visible = s.cache.visible) (hrange : c.InRange) :
    Refines { s with cache := c } flat where
  accounted := hacc
  inRange := hrange
  pages := h.pages.trans hvis.symm
  handles := h.handles

/-- **One operation on the cache is one operation on the array.** -/
theorem step (h : Refines s flat) (hpol : s.cache.PolicyMember) (op : PoolOp)
    (hop : ∀ p, op = .fetch p → p < s.cache.file.pageCount) :
    Refines (s.step op).1 (flat.step s.cache.pool.length op).1 ∧
      (s.step op).2 = (flat.step s.cache.pool.length op).2 ∧
      (s.step op).1.cache.file.pageCount = s.cache.file.pageCount := by
  have hacc := (accounted_step h.accounted hpol op).1
  cases op with
  | fetch p =>
      exact h.fetch hpol (hop p rfl)
  | moveConstruct src =>
      refine ⟨h.moveConstruct src, rfl, ?_⟩
      rw [file_step s (.moveConstruct src) trivial]
  | moveAssign dst src =>
      refine ⟨h.moveAssign dst src, rfl, ?_⟩
      rw [file_step s (.moveAssign dst src) trivial]
  | destroy i =>
      refine ⟨h.destroy i, rfl, ?_⟩
      rw [file_step s (.destroy i) trivial]
  | write i off bytes =>
      obtain ⟨hrel, hobs⟩ := h.write i off bytes
      refine ⟨hrel, hobs, ?_⟩
      rw [file_step s (.write i off bytes) trivial]
  | read i =>
      cases hl : s.live i with
      | none =>
          simp only [Program.step, FlatPages.step, hl, live_flat h.handles, Option.map_none]
          exact ⟨h, trivial, trivial⟩
      | some hd =>
          obtain ⟨v, hv, hown, rfl⟩ := live_eq_some_iff.mp hl
          have hres := h.accounted.leased v (List.mem_of_getElem? (var_eq_some_iff.mp hv)) hown
          simp only [Program.step, FlatPages.step, hl, live_flat h.handles, Option.map_some]
          refine ⟨h, ?_, trivial⟩
          rw [h.pages, visible_of_resident hres]
          rfl
  | flushPage p =>
      cases hp : s.cache.pageMap.lookup p with
      | none =>
          have hsame : s.cache.flushPage p = s.cache := by
            unfold PageCache.flushPage
            rw [hp]
          show Refines { s with cache := s.cache.flushPage p } flat ∧ _ ∧
            (s.cache.flushPage p).file.pageCount = _
          rw [hsame]
          exact ⟨h, rfl, rfl⟩
      | some f =>
          have hsame : s.cache.flushPage p = s.cache.writeBack p f := by
            unfold PageCache.flushPage
            rw [hp]
          refine ⟨h.flushed hacc ?_ ?_, rfl, ?_⟩
          · rw [hsame]
            exact visible_writeBack h.inRange hp
          · rw [hsame]
            exact h.inRange.storePage p _ fun _ _ hq => hq
          · show (s.cache.flushPage p).file.pageCount = _
            rw [hsame]
            rfl
  | flushAll =>
      obtain ⟨hvis, hrange, hcount⟩ := visible_flushAll h.inRange
      exact ⟨h.flushed hacc hvis hrange, rfl, hcount⟩

end Refines

/-- A program on the cache does what it does on the array. -/
theorem refines_run (ops : List PoolOp) {s : Program} {flat : FlatPages} (h : Refines s flat)
    (hpol : s.cache.PolicyMember)
    (hops : ∀ p, PoolOp.fetch p ∈ ops → p < s.cache.file.pageCount) :
    Refines (run ops s).1 (FlatPages.run s.cache.pool.length ops flat).1 ∧
      (run ops s).2 = (FlatPages.run s.cache.pool.length ops flat).2 ∧
      (run ops s).1.cache.file.pageCount = s.cache.file.pageCount := by
  induction ops generalizing s flat with
  | nil => exact ⟨h, rfl, rfl⟩
  | cons op ops ih =>
      obtain ⟨hrel, hobs, hcount⟩ := h.step hpol op fun p hp => hops p (by simp [hp])
      have hshape := (accounted_step h.accounted hpol op).2
      obtain ⟨hrun, hrest, hlast⟩ := ih hrel (hshape.policyMember hpol) fun p hp => by
        rw [hcount]
        exact hops p (List.mem_cons_of_mem _ hp)
      rw [hshape.capacity] at hrun hrest
      unfold run FlatPages.run
      refine ⟨hrun, ?_, hlast.trans hcount⟩
      simp only
      rw [hobs, hrest]

/-- On the array only a write through a handle of page `q` changes page `q`. -/
theorem pages_step {flat : FlatPages} {capacity : Nat} {op : PoolOp} {q : Nat}
    (h : ∀ i off bytes, op = .write i off bytes → flat.live i ≠ some q) :
    (flat.step capacity op).1.pages q = flat.pages q := by
  cases op with
  | fetch p =>
      simp only [FlatPages.step]
      split <;> rfl
  | moveConstruct src =>
      simp only [FlatPages.step, FlatPages.moveConstruct]
      split <;> rfl
  | moveAssign dst src =>
      simp only [FlatPages.step, FlatPages.moveAssign]
      split
      · rfl
      · split <;> rfl
  | destroy i =>
      simp only [FlatPages.step, FlatPages.destroy]
      split <;> rfl
  | write i off bytes =>
      have hne := h i off bytes rfl
      simp only [FlatPages.step]
      split
      · rename_i p hp
        apply Function.update_of_ne
        rintro rfl
        exact hne hp
      · rfl
  | read i =>
      simp only [FlatPages.step]
      split <;> rfl
  | flushPage p => rfl
  | flushAll => rfl

/-- A cache on an opened file shows the file. -/
theorem refines_start (file : Option Bytes) (capacity : Nat) (observed : Bool)
    (policy : Option PageEvictionPolicy) (hpages : (file.getD []).length / PAGE_SIZE ≤ 2 ^ 20) :
    Refines (start (PageCache.new (MappedFile.new file) capacity observed policy))
      ⟨pageAt (file.getD []), []⟩ where
  accounted := accounted_start _ capacity observed policy
  inRange := by
    have hcount : u32 ((file.getD []).length / PAGE_SIZE) = (file.getD []).length / PAGE_SIZE :=
      u32_of_lt (by omega)
    refine ⟨?_, ?_, ?_⟩
    · show u32 _ ≤ _
      rw [hcount]
      exact hpages
    · show u32 _ * _ ≤ _
      rw [hcount]
      exact Nat.div_mul_le_self _ _
    · simp [start, PageCache.new]
  pages := by
    funext p
    rw [visible_of_absent (by simp [start, PageCache.new])]
    rfl
  handles := rfl

end Program

/-- A built-in policy as a page cache calls it: its state, the hint and the observer are whatever the
calls so far have made of them. -/
def builtinPolicy (env : List CacheEvent → BuiltinPolicy × WorkloadHint × Option AccessObserver) :
    PageEvictionPolicy := fun trace unpinned =>
  (env trace).1.chooseVictim (env trace).2.1 (env trace).2.2 unpinned

namespace Program

open FlatPages PageCache

/-- **The page cache is a flat array of pages.** For every capacity, every policy that names a member
of its list (as the built-in ones do) and every program over a file of fewer than 2^20 pages with
page ids in range: the program sees what it sees of the array, exceptions included; the cache shows
the pages of the array; an operation changes what is shown of a page only by a write through a
handle of that page; a fetch throws exactly when as many distinct pages have live handles as there
are frames and the page is none of them; and no other policy makes a difference. -/
theorem page_cache_refines_flat_pages (file : Option Bytes) (capacity : Nat) (observed : Bool)
    (policy : Option PageEvictionPolicy) (ops : List PoolOp) (s : Program)
    (hpages : (file.getD []).length / PAGE_SIZE < 2 ^ 20)
    (hpol : ∀ choose, policy = some choose → ∀ trace l, l ≠ [] → choose trace l ∈ l)
    (hops : ∀ p, PoolOp.fetch p ∈ ops → p < (file.getD []).length / PAGE_SIZE)
    (hs : s = (run ops (start (PageCache.new (MappedFile.new file) capacity observed policy))).1) :
    (run ops (start (PageCache.new (MappedFile.new file) capacity observed policy))).2 =
      (FlatPages.run capacity ops ⟨pageAt (file.getD []), []⟩).2 ∧
    s.cache.visible = (FlatPages.run capacity ops ⟨pageAt (file.getD []), []⟩).1.pages ∧
    (∀ op q, (∀ p, op = .fetch p → p < (file.getD []).length / PAGE_SIZE) →
      (∀ i off bytes h, op = .write i off bytes → s.live i = some h → h.pageId ≠ q) →
      (s.step op).1.cache.visible q = s.cache.visible q) ∧
    (∀ p < (file.getD []).length / PAGE_SIZE, (∃ err, (s.step (.fetch p)).2 = .threw err) ↔
      (livePages (flatHandles s.handles)).card = capacity ∧
        p ∉ livePages (flatHandles s.handles)) ∧
    (∀ policy' : Option PageEvictionPolicy,
      (∀ choose, policy' = some choose → ∀ trace l, l ≠ [] → choose trace l ∈ l) →
      (run ops (start (PageCache.new (MappedFile.new file) capacity observed policy'))).2 =
        (run ops (start (PageCache.new (MappedFile.new file) capacity observed policy))).2) ∧
    ∀ env trace l, l ≠ [] → builtinPolicy env trace l ∈ l := by
  have hcount : u32 ((file.getD []).length / PAGE_SIZE) = (file.getD []).length / PAGE_SIZE :=
    u32_of_lt (by omega)
  -- every policy is compared with the same array
  have hall : ∀ policy' : Option PageEvictionPolicy,
      (∀ choose, policy' = some choose → ∀ trace l, l ≠ [] → choose trace l ∈ l) →
      Refines
          (run ops (start (PageCache.new (MappedFile.new file) capacity observed policy'))).1
          (FlatPages.run capacity ops ⟨pageAt (file.getD []), []⟩).1 ∧
        (run ops (start (PageCache.new (MappedFile.new file) capacity observed policy'))).2 =
          (FlatPages.run capacity ops ⟨pageAt (file.getD []), []⟩).2 ∧
        (run ops (start (PageCache.new (MappedFile.new file) capacity observed
          policy'))).1.cache.file.pageCount = (file.getD []).length / PAGE_SIZE := by
    intro policy' hpol'
    have hrun := refines_run ops (refines_start file capacity observed policy' (by omega)) hpol'
      fun p hp => by
        show p < u32 _
        rw [hcount]
        exact hops p hp
    have hcap : (start (PageCache.new (MappedFile.new file) capacity observed
        policy')).cache.pool.length = capacity := by simp [start, PageCache.new]
    rw [hcap] at hrun
    exact ⟨hrun.1, hrun.2.1, hrun.2.2.trans hcount⟩
  obtain ⟨hrel, hobs, hlast⟩ := hall policy hpol
  have hshape := (accounted_run ops (accounted_start (MappedFile.new file) capacity observed policy)
    hpol).2
  rw [← hs] at hrel hlast hshape
  have hcap : s.cache.pool.length = capacity := by
    rw [hshape.capacity]
    simp [start, PageCache.new]
  have hmember := hshape.policyMember hpol
  refine ⟨hobs, hrel.pages.symm, ?_, ?_, ?_, ?_⟩
  · -- on the array only a write through a handle of the page changes it
    intro op q hfetch hwrite
    obtain ⟨hnext, -, -⟩ := hrel.step hmember op fun p hp => by
      rw [hlast]
      exact hfetch p hp
    rw [← hnext.pages, ← hrel.pages]
    apply pages_step
    intro i off bytes hop hlive
    rw [live_flat hrel.handles] at hlive
    obtain ⟨h, hh, hq⟩ := Option.map_eq_some_iff.mp hlive
    exact hwrite i off bytes h hop hh hq
  · intro p hp
    obtain ⟨-, hnext, -⟩ := hrel.fetch hmember (by rw [hlast]; exact hp)
    rw [hnext, hcap]
    simp only [FlatPages.step, hrel.handles]
    split
    · rename_i hfull
      exact ⟨fun _ => hfull, fun _ => ⟨_, rfl⟩⟩
    · rename_i hfull
      refine ⟨?_, fun hcond => absurd hcond hfull⟩
      rintro ⟨err, herr⟩
      exact absurd herr (by simp)
  · intro policy' hpol'
    rw [(hall policy' hpol').2.1, hobs]
  · intro env trace l hl
    exact BuiltinPolicy.chooseVictim_mem _ _ _ hl

/-- One frame and two pages: a write to page 0 is evicted, and seen again. -/
theorem page_cache_refines_flat_pages_evicted :
    (run [.fetch 0, .write 0 100 [7], .destroy 0, .fetch 1, .fetch 0, .destroy 1, .fetch 0]
        (start (PageCache.new (MappedFile.new (some (List.replicate 8192 0))) 1 false none))).2 =
      (FlatPages.run 1
        [.fetch 0, .write 0 100 [7], .destroy 0, .fetch 1, .fetch 0, .destroy 1, .fetch 0]
        ⟨pageAt (List.replicate 8192 0), []⟩).2 :=
  (page_cache_refines_flat_pages (some (List.replicate 8192 0)) 1 false none
    [.fetch 0, .write 0 100 [7], .destroy 0, .fetch 1, .fetch 0, .destroy 1, .fetch 0] _
    (by decide +kernel) (by simp) (by
      have hcount : ((some (List.replicate 8192 0) : Option Bytes).getD []).length / PAGE_SIZE = 2 := by
        decide +kernel
      rw [hcount]
      intro p hp
      simp only [List.mem_cons, reduceCtorEq, PoolOp.fetch.injEq, List.not_mem_nil, or_false,
        false_or] at hp
      omega) rfl).1

end Program

end Aqa
