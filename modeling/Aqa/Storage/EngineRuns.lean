/-
# Aqa.Storage.EngineRuns — what is left of page writes after the engine is gone.

A program allocates and fetches pages through a `StorageEngine`, writes through the handles and
releases them. While it runs, the engine is a flat array of pages that grows by one page with each
`allocate_page` (`FlatEngine`, `engineRefines_run`).

The destructor of the engine writes nothing: a frame reaches the file only when its page is evicted
or by `flush_all`. So what a later engine finds on the file is the array exactly when, at the end, no
frame differs from the page of the file it was loaded from (`EngineRefines.survives_iff`). A
`flush_all` after the last write is enough (`flush_all_survives`).
-/
import Aqa.Storage.FlatPages
import Aqa.Storage.PageAddressing
import Aqa.Storage.StorageEngine

namespace Aqa

open Aqa.Lib MappedFile

/-! ## Programs over an engine -/

/-- What a program can do with an engine and its handles. -/
inductive EngineOp where
  | allocatePage
  | fetchPage (pageId : Nat)
  | moveConstruct (src : Nat)
  | moveAssign (dst src : Nat)
  | destroy (i : Nat)
  | write (i off : Nat) (bytes : Bytes)
  | read (i : Nat)
  | flushAll
  deriving DecidableEq, Repr

namespace Program

/-- The engine whose cache a program works on. -/
def engine (s : Program) : StorageEngine := ⟨s.cache⟩

/-- A call that returns a handle, or throws. -/
def call (s : Program) (out : EStateM.Result Error StorageEngine PageHandle) :
    Program × Observation :=
  match out with
  | .ok h e => (⟨e.cache, s.handles ++ [some ⟨true, h⟩]⟩, .page (e.pageOf h).bytes)
  | .error err e => (⟨e.cache, s.handles⟩, .threw err)

/-- One operation. -/
def engineStep (s : Program) : EngineOp → Program × Observation
  | .allocatePage => s.call (StorageEngine.allocatePage s.engine)
  | .fetchPage p => s.call (StorageEngine.fetchPage p s.engine)
  | .moveConstruct src => s.step (.moveConstruct src)
  | .moveAssign dst src => s.step (.moveAssign dst src)
  | .destroy i => s.step (.destroy i)
  | .write i off bytes => s.step (.write i off bytes)
  | .read i => s.step (.read i)
  | .flushAll => (⟨s.engine.flushAll.cache, s.handles⟩, .nothing)

/-- A sequence of operations, with what the program sees. -/
def engineRun : List EngineOp → Program → Program × List Observation
  | [], s => (s, [])
  | op :: ops, s =>
      let out := s.engineStep op
      ((engineRun ops out.1).1, out.2 :: (engineRun ops out.1).2)

/-- A program whose file has been grown by a page, as `allocate_page` does first. -/
def grown (s : Program) : Program :=
  ⟨{ s.cache with file := s.cache.file.growFile (u32 (s.cache.file.pageCount + 1)) }, s.handles⟩

/-- A program with a new engine. -/
def opened (file : Option Bytes) (capacity : Nat) (observed : Bool) : Program :=
  start (StorageEngine.new file capacity observed).cache

end Program

/-! ## The growing array -/

/-- An array of pages of which the first `pageCount` exist. -/
structure FlatEngine where
  pageCount : Nat
  array : FlatPages

namespace FlatEngine

/-- A new page: its id, the magic, and no successor. -/
def initPage (p : Nat) (page : RawPage) : RawPage :=
  ((page.write 4 (leBytes 4 p)).write 0 (leBytes 4 PAGE_MAGIC)).write 8 (leBytes 4 0xFFFFFFFF)

/-- One operation on the array. An allocation that throws has added its page nevertheless. -/
def step (capacity : Nat) (s : FlatEngine) : EngineOp → FlatEngine × Observation
  | .allocatePage =>
      match s.array.step capacity (.fetch s.pageCount) with
      | (array, .page _) =>
          let page := initPage s.pageCount (array.pages s.pageCount)
          (⟨s.pageCount + 1, { array with pages := Function.update array.pages s.pageCount page }⟩,
            .page page.bytes)
      | (array, seen) => (⟨s.pageCount + 1, array⟩, seen)
  | .fetchPage p =>
      if p ≥ s.pageCount then
        (s, .threw (.runtimeError ("Page ID out of bounds: " ++ toString p)))
      else
        let out := s.array.step capacity (.fetch p)
        (⟨s.pageCount, out.1⟩, out.2)
  | .moveConstruct src => (⟨s.pageCount, s.array.moveConstruct src⟩, .nothing)
  | .moveAssign dst src => (⟨s.pageCount, s.array.moveAssign dst src⟩, .nothing)
  | .destroy i => (⟨s.pageCount, s.array.destroy i⟩, .nothing)
  | .write i off bytes =>
      (⟨s.pageCount, (s.array.step capacity (.write i off bytes)).1⟩, .nothing)
  | .read i => (s, (s.array.step capacity (.read i)).2)
  | .flushAll => (s, .nothing)

/-- A sequence of operations on the array, with what the program sees. -/
def run (capacity : Nat) : List EngineOp → FlatEngine → FlatEngine × List Observation
  | [], s => (s, [])
  | op :: ops, s =>
      let out := step capacity s op
      ((run capacity ops out.1).1, out.2 :: (run capacity ops out.1).2)

/-- Only an allocation adds a page, and always one. -/
theorem pageCount_step (capacity : Nat) (s : FlatEngine) (op : EngineOp) :
    (step capacity s op).1.pageCount =
      if op = .allocatePage then s.pageCount + 1 else s.pageCount := by
  cases op with
  | allocatePage =>
      rw [if_pos rfl]
      unfold step
      simp only
      split <;> rfl
  | fetchPage p =>
      rw [if_neg (by simp)]
      unfold step
      simp only
      split <;> rfl
  | moveConstruct src => rfl
  | moveAssign dst src => rfl
  | destroy i => rfl
  | write i off bytes => rfl
  | read i => rfl
  | flushAll => rfl

/-- An allocation changes no page but the new one. -/
theorem pages_allocatePage (capacity : Nat) (s : FlatEngine) {q : Nat} (hq : q ≠ s.pageCount) :
    (step capacity s .allocatePage).1.array.pages q = s.array.pages q := by
  have hfetch : (s.array.step capacity (.fetch s.pageCount)).1.pages = s.array.pages := by
    unfold FlatPages.step
    simp only
    split <;> rfl
  unfold step
  simp only
  split <;> rename_i heq <;> rw [heq] at hfetch <;> simp only at hfetch ⊢
  · rw [Function.update_of_ne hq, hfetch]
  · rw [hfetch]

theorem pageCount_run (capacity : Nat) (ops : List EngineOp) (s : FlatEngine) :
    (run capacity ops s).1.pageCount = s.pageCount + ops.count .allocatePage := by
  induction ops generalizing s with
  | nil => rfl
  | cons op ops ih =>
      show (run capacity ops (step capacity s op).1).1.pageCount = _
      rw [ih, pageCount_step, List.count_cons]
      by_cases hop : op = .allocatePage
      · simp only [hop, if_true, beq_self_eq_true]
        omega
      · simp only [hop, if_false, beq_iff_eq, Nat.add_zero]

/-- The array a file holds. -/
def ofFile (file : Option Bytes) : FlatEngine :=
  ⟨(file.getD []).length / PAGE_SIZE, ⟨pageAt (file.getD []), []⟩⟩

end FlatEngine

namespace Program

open FlatPages PageCache

/-! ## The file in step with the mapping -/

section InStep

variable {c : PageCache}

theorem inStep_of_took {c' : PageCache} {f : Nat} (h : c.file.InStep) (htook : Took c c' f) :
    c'.file.InStep := by
  rcases htook.source with ⟨hfile, -⟩ | ⟨victim, -, -, hfile, -⟩
  · rw [hfile]
    exact h
  · rw [hfile]
    exact h.storePage _ _

theorem inStep_flushAll (h : c.file.InStep) : c.flushAll.file.InStep := by
  exact flushAll_rule (fun _ c' => c'.file.InStep) h fun _ _ _ _ _ _ hc' => hc'.storePage _ _

theorem inStep_fetch {s : Program} (h : s.cache.file.InStep) (hacc : Accounted s)
    (hpol : s.cache.PolicyMember) (p : Nat) : (s.step (.fetch p)).1.cache.file.InStep := by
  unfold Program.step
  rcases fetchPage_cases hacc.inv hpol p with
    ⟨f, c', -, heq, hhit⟩ | ⟨-, f, c₁, heq, -, -, htook⟩ | ⟨-, -, -, c', heq, href⟩
  · simp only [heq, hhit.file]
    exact h
  · have hc : c₁.file.InStep := inStep_of_took h htook
    simp only [heq]
    exact hc
  · simp only [heq, href.file]
    exact h

end InStep

/-! ## The refinement -/

/-- The engine shows the pages of the array, and its file has as many. -/
structure EngineRefines (s : Program) (flat : FlatEngine) : Prop where
  refines : Refines s flat.array
  inStep : s.cache.file.InStep
  count : s.cache.file.pageCount = flat.pageCount

namespace EngineRefines

variable {s : Program} {flat : FlatEngine}

/-- `fetch_page` of an engine is the fetch of its cache, behind a check of the page id. -/
theorem engineStep_fetchPage (s : Program) {p : Nat} (hp : p < s.cache.file.pageCount) :
    s.engineStep (.fetchPage p) = s.step (.fetch p) := by
  show s.call (StorageEngine.fetchPage p s.engine) = _
  unfold StorageEngine.fetchPage
  rw [if_neg (by exact not_le.mpr hp)]
  simp only [Program.step, engine]
  cases PageCache.fetchPage p s.cache <;> rfl

/-- Behind the last page the engine throws before it looks at the cache. -/
theorem engineStep_outOfBounds (s : Program) {p : Nat} (hp : ¬ p < s.cache.file.pageCount) :
    s.engineStep (.fetchPage p) =
      (s, .threw (.runtimeError ("Page ID out of bounds: " ++ toString p))) := by
  show s.call (StorageEngine.fetchPage p s.engine) = _
  unfold StorageEngine.fetchPage
  rw [if_pos (by exact not_lt.mp hp)]
  rfl

/-- A page at the end of the file leaves the others on it. -/
theorem pageAt_grown (h : EngineRefines s flat) (hsmall : flat.pageCount + 1 < 2 ^ 20) :
    pageAt s.grown.cache.file.bytes = pageAt s.cache.file.bytes :=
  (h.inStep.growFile_one (by rw [h.count]; exact hsmall)).2.2

/-- Growing the file by a page. -/
theorem grown (h : EngineRefines s flat) (hsmall : flat.pageCount + 1 < 2 ^ 20) :
    EngineRefines s.grown { flat with pageCount := flat.pageCount + 1 } := by
  have hpages := h.pageAt_grown hsmall
  obtain ⟨hrel, hstep, hcount⟩ := h
  obtain ⟨hcount', hlength, -⟩ := hstep.growFile_one (by rw [hcount]; exact hsmall)
  have hfile : s.grown.cache.file = s.cache.file.growFile (u32 (s.cache.file.pageCount + 1)) := rfl
  rw [hcount] at hcount' hlength hfile
  refine ⟨⟨hrel.accounted.setFile _, ⟨?_, ?_, ?_⟩, ?_, hrel.handles⟩, ?_, ?_⟩
  · rw [hfile, hcount']
    exact hsmall.le
  · rw [hfile, hcount', hlength]
  · intro p f hp
    have hlt := hrel.inRange.in_range p f hp
    rw [hfile, hcount']
    omega
  · show flat.array.pages = _
    rw [hrel.pages]
    unfold visible
    rw [hpages]
    rfl
  · exact hstep.growFile (by rw [hcount, u32_of_lt (by omega)]; exact hsmall)
  · rw [hfile, hcount']

/-- A fetch in range. -/
theorem fetch (h : EngineRefines s flat) (hpol : s.cache.PolicyMember) {p : Nat}
    (hp : p < flat.pageCount) :
    EngineRefines (s.step (.fetch p)).1
        ⟨flat.pageCount, (flat.array.step s.cache.pool.length (.fetch p)).1⟩ ∧
      (s.step (.fetch p)).2 = (flat.array.step s.cache.pool.length (.fetch p)).2 := by
  obtain ⟨hrel, hobs, hcount⟩ := h.refines.fetch hpol (by rw [h.count]; exact hp)
  exact ⟨⟨hrel, inStep_fetch h.inStep h.refines.accounted hpol p, hcount.trans h.count⟩, hobs⟩

/-- Setting the header of a new page through its handle. -/
theorem initHeader {c : PageCache} {handles : List (Option HandleVar)} {array : FlatPages}
    (h : Refines ⟨c, handles⟩ array) {hd : PageHandle} (hv : some ⟨true, hd⟩ ∈ handles) :
    Refines ⟨StorageEngine.initHeader c hd, handles⟩
      ⟨Function.update array.pages hd.pageId
        (FlatEngine.initPage hd.pageId (array.pages hd.pageId)), array.handles⟩ := by
  have h₁ := h.writeLive hv rfl 4 (leBytes 4 hd.pageId)
  have h₂ := h₁.writeLive hv rfl 0 (leBytes 4 PAGE_MAGIC)
  have h₃ := h₂.writeLive hv rfl 8 (leBytes 4 0xFFFFFFFF)
  simp only [Function.update_self, Function.update_idem] at h₃
  exact h₃

/-- A fetched handle refers to the page asked for. -/
theorem pageId_of_fetchPage {c c' : PageCache} {p : Nat} {hd : PageHandle}
    (h : PageCache.fetchPage p c = .ok hd c') : hd.pageId = p := by
  simp only [PageCache.fetchPage, bind, EStateM.bind, pure, EStateM.pure] at h
  split at h
  · cases h
    rfl
  · cases h

/-- `allocate_page` grows the file, fetches the new page and sets its header. -/
theorem engineStep_allocatePage (s : Program) :
    s.engineStep .allocatePage =
      match PageCache.fetchPage s.cache.file.pageCount s.grown.cache with
      | .ok hd c => (⟨StorageEngine.initHeader c hd, s.handles ++ [some ⟨true, hd⟩]⟩,
          .page ((StorageEngine.initHeader c hd).pageOf hd).bytes)
      | .error err c => (⟨c, s.handles⟩, .threw err) := by
  show s.call (match PageCache.fetchPage s.cache.file.pageCount s.grown.cache with
    | .ok hd c => .ok hd ⟨StorageEngine.initHeader c hd⟩
    | .error err c => .error err ⟨c⟩) = _
  cases PageCache.fetchPage s.cache.file.pageCount s.grown.cache <;> rfl

theorem allocatePage (h : EngineRefines s flat) (hpol : s.cache.PolicyMember)
    (hsmall : flat.pageCount + 1 < 2 ^ 20) :
    EngineRefines (s.engineStep .allocatePage).1
        (flat.step s.cache.pool.length .allocatePage).1 ∧
      (s.engineStep .allocatePage).2 = (flat.step s.cache.pool.length .allocatePage).2 ∧
      SameShape s.cache (s.engineStep .allocatePage).1.cache := by
  -- the file grows first, and the fetch is one of its last page
  have hgrown := h.grown hsmall
  obtain ⟨hfetch, hobs⟩ := hgrown.fetch (p := flat.pageCount) hpol (Nat.lt_succ_self _)
  have hshape := (hgrown.refines.accounted.fetch hpol flat.pageCount).2
  rw [engineStep_allocatePage, h.count]
  unfold FlatEngine.step
  have hcap : s.grown.cache.pool.length = s.cache.pool.length := rfl
  rw [hcap] at hfetch hobs
  simp only [Program.step] at hfetch hobs hshape ⊢
  cases hf : PageCache.fetchPage flat.pageCount s.grown.cache with
  | ok hd c =>
      simp only [hf] at hfetch hobs hshape ⊢
      have hpage := pageId_of_fetchPage hf
      -- the array has its own name, so that the header is set on both sides
      obtain ⟨array, hflat⟩ : ∃ array, flat.array.step s.cache.pool.length (.fetch flat.pageCount) =
          (array, .page (c.pageOf hd).bytes) := ⟨_, Prod.ext rfl hobs.symm⟩
      rw [hflat] at hfetch ⊢
      have hlast : some ⟨true, hd⟩ ∈ s.handles ++ [some ⟨true, hd⟩] := by simp
      have hhead := initHeader hfetch.refines hlast
      rw [hpage] at hhead
      have hres : (StorageEngine.initHeader c hd).pageMap.lookup hd.pageId = some hd.frame :=
        hhead.accounted.leased ⟨true, hd⟩ hlast rfl
      refine ⟨⟨hhead, hfetch.inStep, hfetch.count⟩, ?_, hshape.policy, ?_⟩
      · show Observation.page ((StorageEngine.initHeader c hd).pageOf hd).bytes =
          .page (FlatEngine.initPage flat.pageCount (array.pages flat.pageCount)).bytes
        have hshown := congrFun hhead.pages flat.pageCount
        simp only [Function.update_self] at hshown
        rw [hshown, ← hpage, visible_of_resident hres]
        rfl
      · show (StorageEngine.initHeader c hd).pool.length = _
        simp only [StorageEngine.initHeader, writeFrame, List.length_set]
        exact hshape.capacity
  | error err c =>
      simp only [hf] at hfetch hobs hshape ⊢
      obtain ⟨array, hflat⟩ : ∃ array, flat.array.step s.cache.pool.length (.fetch flat.pageCount) =
          (array, .threw err) := ⟨_, Prod.ext rfl hobs.symm⟩
      rw [hflat] at hfetch ⊢
      exact ⟨hfetch, rfl, hshape.policy, hshape.capacity⟩

/-- An operation of the program that is one of its cache, and no fetch. -/
theorem poolStep (h : EngineRefines s flat) (hpol : s.cache.PolicyMember) (op : PoolOp)
    (hop : ∀ p, op ≠ .fetch p) (hstep : (s.step op).1.cache.file.InStep) :
    EngineRefines (s.step op).1
        ⟨flat.pageCount, (flat.array.step s.cache.pool.length op).1⟩ ∧
      (s.step op).2 = (flat.array.step s.cache.pool.length op).2 ∧
      SameShape s.cache (s.step op).1.cache := by
  obtain ⟨hrel, hobs, hcount⟩ := h.refines.step hpol op fun p hp => absurd hp (hop p)
  exact ⟨⟨hrel, hstep, hcount.trans h.count⟩, hobs,
    (accounted_step h.refines.accounted hpol op).2⟩

/-- An operation on handles, which leaves the file alone. -/
theorem handleStep (h : EngineRefines s flat) (hpol : s.cache.PolicyMember) (op : PoolOp)
    (hop : OnHandles op) :
    EngineRefines (s.step op).1
        ⟨flat.pageCount, (flat.array.step s.cache.pool.length op).1⟩ ∧
      (s.step op).2 = (flat.array.step s.cache.pool.length op).2 ∧
      SameShape s.cache (s.step op).1.cache := by
  refine h.poolStep hpol op (fun p => ?_) ?_
  · rintro rfl
    exact hop
  · rw [file_step s op hop]
    exact h.inStep

/-- **One operation on the engine is one operation on the array.** -/
theorem step (h : EngineRefines s flat) (hpol : s.cache.PolicyMember) (op : EngineOp)
    (hsmall : op = .allocatePage → flat.pageCount + 1 < 2 ^ 20) :
    EngineRefines (s.engineStep op).1 (flat.step s.cache.pool.length op).1 ∧
      (s.engineStep op).2 = (flat.step s.cache.pool.length op).2 ∧
      SameShape s.cache (s.engineStep op).1.cache := by
  cases op with
  | allocatePage => exact h.allocatePage hpol (hsmall rfl)
  | fetchPage p =>
      by_cases hp : p < flat.pageCount
      · obtain ⟨hfetch, hobs⟩ := h.fetch hpol hp
        rw [engineStep_fetchPage s (by rw [h.count]; exact hp)]
        unfold FlatEngine.step
        simp only
        rw [if_neg (by omega)]
        exact ⟨hfetch, hobs, (h.refines.accounted.fetch hpol p).2⟩
      · rw [engineStep_outOfBounds s (by rw [h.count]; exact hp)]
        unfold FlatEngine.step
        simp only
        rw [if_pos (by omega)]
        exact ⟨h, rfl, rfl, rfl⟩
  | moveConstruct src => exact h.handleStep hpol (.moveConstruct src) trivial
  | moveAssign dst src => exact h.handleStep hpol (.moveAssign dst src) trivial
  | destroy i => exact h.handleStep hpol (.destroy i) trivial
  | write i off bytes =>
      obtain ⟨hrel, hobs, hshape⟩ := h.handleStep hpol (.write i off bytes) trivial
      refine ⟨hrel, hobs.trans ?_, hshape⟩
      simp only [FlatPages.step, FlatEngine.step]
      split <;> rfl
  | read i =>
      obtain ⟨hrel, hobs, hshape⟩ := h.handleStep hpol (.read i) trivial
      refine ⟨?_, hobs, hshape⟩
      have hsame : (flat.array.step s.cache.pool.length (.read i)).1 = flat.array := by
        simp only [FlatPages.step]
        split <;> rfl
      rw [hsame] at hrel
      exact hrel
  | flushAll => exact h.poolStep hpol .flushAll (fun p => by simp) (inStep_flushAll h.inStep)

end EngineRefines

/-- The page addresses of a run over a file of `n` pages do not wrap: the file has at most 2^20 pages,
and fewer than that once a page has been added. -/
def PagesFit (n : Nat) (ops : List EngineOp) : Prop :=
  n ≤ 2 ^ 20 ∧ (EngineOp.allocatePage ∈ ops → n + ops.count .allocatePage < 2 ^ 20)

section PagesFit

variable {n : Nat} {op : EngineOp} {ops : List EngineOp}

theorem pagesFit_of_lt (h : n + ops.count .allocatePage < 2 ^ 20) : PagesFit n ops :=
  ⟨by omega, fun _ => h⟩

theorem PagesFit.head (h : PagesFit n (op :: ops)) : op = .allocatePage → n + 1 < 2 ^ 20 := by
  rintro rfl
  have hcount := h.2 List.mem_cons_self
  rw [List.count_cons_self] at hcount
  omega

/-- The first operation leaves room for the others. -/
theorem PagesFit.tail (h : PagesFit n (op :: ops)) :
    PagesFit (if op = .allocatePage then n + 1 else n) ops := by
  by_cases hop : op = .allocatePage
  · subst hop
    have hcount := h.2 List.mem_cons_self
    rw [List.count_cons_self] at hcount
    rw [if_pos rfl]
    exact pagesFit_of_lt (by omega)
  · rw [if_neg hop]
    refine ⟨h.1, fun hmem => ?_⟩
    have hcount := h.2 (List.mem_cons_of_mem _ hmem)
    rwa [List.count_cons_of_ne hop] at hcount

/-- The operations before leave room for the ones after. -/
theorem PagesFit.append {ops' : List EngineOp} (h : PagesFit n (ops ++ ops')) :
    PagesFit n ops ∧ PagesFit (n + ops.count .allocatePage) ops' := by
  have hcount := h.2
  rw [List.count_append] at hcount
  refine ⟨⟨h.1, fun hmem => ?_⟩, ?_, fun hmem => ?_⟩
  · have hlt := hcount (List.mem_append_left _ hmem)
    omega
  · by_cases hmem : EngineOp.allocatePage ∈ ops
    · have hlt := hcount (List.mem_append_left _ hmem)
      omega
    · rw [List.count_eq_zero.mpr hmem]
      exact h.1
  · have hlt := hcount (List.mem_append_right _ hmem)
    omega

/-- What the file has at the end is addressed without a wrap. -/
theorem PagesFit.total (h : PagesFit n ops) : n + ops.count .allocatePage ≤ 2 ^ 20 := by
  by_cases hmem : EngineOp.allocatePage ∈ ops
  · exact (h.2 hmem).le
  · rw [List.count_eq_zero.mpr hmem]
    exact h.1

end PagesFit

/-- A program on an engine does what it does on the array. -/
theorem engineRefines_run (ops : List EngineOp) {s : Program} {flat : FlatEngine}
    (h : EngineRefines s flat) (hpol : s.cache.PolicyMember)
    (hfit : PagesFit flat.pageCount ops) :
    EngineRefines (engineRun ops s).1 (FlatEngine.run s.cache.pool.length ops flat).1 ∧
      (engineRun ops s).2 = (FlatEngine.run s.cache.pool.length ops flat).2 ∧
      SameShape s.cache (engineRun ops s).1.cache := by
  induction ops generalizing s flat with
  | nil => exact ⟨h, rfl, rfl, rfl⟩
  | cons op ops ih =>
      have htail := hfit.tail
      rw [← FlatEngine.pageCount_step s.cache.pool.length flat op] at htail
      obtain ⟨hrel, hobs, hshape⟩ := h.step hpol op hfit.head
      obtain ⟨hrun, hrest, hlast⟩ := ih hrel (hshape.policyMember hpol) htail
      rw [hshape.capacity] at hrun hrest
      unfold engineRun FlatEngine.run
      refine ⟨hrun, ?_, hlast.policy.trans hshape.policy, hlast.capacity.trans hshape.capacity⟩
      simp only
      rw [hobs, hrest]

theorem policyMember_opened (file : Option Bytes) (capacity : Nat) (observed : Bool) :
    (opened file capacity observed).cache.PolicyMember := by
  intro choose hchoose
  exact absurd hchoose (by simp [opened, start, StorageEngine.new, PageCache.new])

theorem capacity_opened (file : Option Bytes) (capacity : Nat) (observed : Bool) :
    (opened file capacity observed).cache.pool.length = capacity := by
  simp [opened, start, StorageEngine.new, PageCache.new]

/-- A new engine on a file shows the pages of the file. -/
theorem engineRefines_opened (file : Option Bytes) (capacity : Nat) (observed : Bool)
    (hpages : (file.getD []).length / PAGE_SIZE ≤ 2 ^ 20) :
    EngineRefines (opened file capacity observed) (FlatEngine.ofFile file) where
  refines := refines_start file capacity observed none hpages
  inStep := inStep_new file (by omega)
  count := (inStep_new file (by omega)).count

/-! ## Shutdown -/

/-- No frame differs from its page of the file. -/
def Clean (c : PageCache) : Prop :=
  ∀ p f, c.pageMap.lookup p = some f → c.pool.getD f RawPage.reset = pageAt c.file.bytes p

/-- What is on the file is the array: a new engine on it, of any capacity, has as many pages, and a
fetch shows each of them. -/
def Survives (bytes : Bytes) (flat : FlatEngine) : Prop :=
  ∀ capacity observed, 1 ≤ capacity →
    (StorageEngine.new (some bytes) capacity observed).getTotalPages = flat.pageCount ∧
    ∀ p < flat.pageCount, ∃ h e,
      StorageEngine.fetchPage p (StorageEngine.new (some bytes) capacity observed) = .ok h e ∧
        e.pageOf h = flat.array.pages p

/-- A new engine of at least one frame shows each page of its file. -/
theorem fetchPage_opened (bytes : Bytes) {capacity : Nat} (observed : Bool) (hcap : 1 ≤ capacity)
    (hpages : bytes.length / PAGE_SIZE ≤ 2 ^ 20) {p : Nat} (hp : p < bytes.length / PAGE_SIZE) :
    ∃ h e, StorageEngine.fetchPage p (StorageEngine.new (some bytes) capacity observed) = .ok h e ∧
      e.pageOf h = pageAt bytes p := by
  have hrel := engineRefines_opened (some bytes) capacity observed hpages
  obtain ⟨-, hobs, -⟩ := hrel.step (policyMember_opened _ _ _) (.fetchPage p) (by simp)
  have hflat : ((FlatEngine.ofFile (some bytes)).step capacity (.fetchPage p)).2 =
      .page (pageAt bytes p).bytes := by
    unfold FlatEngine.step FlatEngine.ofFile FlatPages.step
    simp only [Option.getD_some]
    -- a new engine has no handle, and a frame
    rw [if_neg (by omega), if_neg]
    rintro ⟨hfull, -⟩
    simp only [FlatPages.livePages, List.filterMap_nil, List.toFinset_nil, Finset.card_empty]
      at hfull
    omega
  rw [capacity_opened, hflat] at hobs
  have hcall : (opened (some bytes) capacity observed).engineStep (.fetchPage p) =
      (opened (some bytes) capacity observed).call
        (StorageEngine.fetchPage p (StorageEngine.new (some bytes) capacity observed)) := rfl
  rw [hcall] at hobs
  unfold call at hobs
  cases hfetch : StorageEngine.fetchPage p (StorageEngine.new (some bytes) capacity observed) with
  | ok h e =>
      simp only [hfetch, Observation.page.injEq] at hobs
      exact ⟨h, e, rfl, RawPage.ext hobs⟩
  | error err e =>
      simp only [hfetch] at hobs
      exact absurd hobs (by simp)

/-- A clean cache is one whose file is what it shows. -/
theorem clean_iff_visible (c : PageCache) : Clean c ↔ ∀ p, pageAt c.file.bytes p = c.visible p :=
  (WriteBack.store_eq_view_iff _ (fun p => c.pageMap.lookup p)
    fun f => c.pool.getD f RawPage.reset).symm

/-- What a new engine finds is the array exactly when the file is what the old engine showed. -/
theorem EngineRefines.survives_iff {s : Program} {flat : FlatEngine} (h : EngineRefines s flat)
    (hsmall : flat.pageCount ≤ 2 ^ 20) : Survives s.cache.file.bytes flat ↔ Clean s.cache := by
  have hpages : s.cache.file.bytes.length / PAGE_SIZE = flat.pageCount := by
    rw [← h.inStep.count, h.count]
  rw [clean_iff_visible, ← h.refines.pages]
  constructor
  · intro hsurvives p
    by_cases hp : p < flat.pageCount
    · obtain ⟨hd, e, hfetch, hpage⟩ := (hsurvives 1 false le_rfl).2 p hp
      obtain ⟨hd', e', hfetch', hpage'⟩ := fetchPage_opened s.cache.file.bytes false le_rfl
        (by omega) (p := p) (by omega)
      rw [hfetch] at hfetch'
      cases hfetch'
      rw [← hpage, hpage']
    · -- beyond the last page nothing is cached
      rw [h.refines.pages, visible_of_absent]
      cases hp' : s.cache.pageMap.lookup p with
      | none => rfl
      | some f =>
          have hlt := h.refines.inRange.in_range p f hp'
          rw [h.count] at hlt
          omega
  · intro hclean capacity observed hcap
    constructor
    · show u32 (s.cache.file.bytes.length / PAGE_SIZE) = _
      rw [hpages]
      exact u32_of_lt (by omega)
    · -- a clean file shows each page as the old engine did
      intro p hp
      obtain ⟨hd, e, hfetch, hpage⟩ := fetchPage_opened s.cache.file.bytes observed hcap
        (by omega) (p := p) (by omega)
      exact ⟨hd, e, hfetch, hpage.trans (hclean p)⟩

/-! ## Flushing -/

section Flushing

variable {c : PageCache}

/-- On a clean cache, writing a frame back changes no page of the file. -/
theorem Clean.pageAt_storePage (h : Clean c) (hrange : c.InRange) {p f : Nat}
    (hp : c.pageMap.lookup p = some f) :
    pageAt (c.file.storePage p (c.pool.getD f RawPage.reset)).bytes = pageAt c.file.bytes := by
  rw [hrange.pageAt_storePage (hrange.in_range p f hp), h p f hp]
  exact Function.update_eq_self _ _

/-- A fetch from a clean cache leaves the pages of the file as they are, evictions included. -/
theorem Clean.pageAt_fetch {s : Program} (h : Clean s.cache) (hacc : Accounted s)
    (hrange : s.cache.InRange) (hpol : s.cache.PolicyMember) (p : Nat) :
    pageAt (s.step (.fetch p)).1.cache.file.bytes = pageAt s.cache.file.bytes := by
  unfold Program.step
  rcases fetchPage_cases hacc.inv hpol p with
    ⟨f, c', -, heq, hhit⟩ | ⟨-, f, c₁, heq, -, -, htook⟩ | ⟨-, -, -, c', heq, href⟩
  · simp only [heq, hhit.file]
  · have hc : pageAt c₁.file.bytes = pageAt s.cache.file.bytes := by
      rcases htook.source with ⟨hfile, -⟩ | ⟨victim, hv, -, hfile, -⟩
      · rw [hfile]
      · rw [hfile, h.pageAt_storePage hrange hv]
    simp only [heq]
    exact hc
  · simp only [heq, href.file]

/-- After a flush of all pages no frame differs from its page of the file. -/
theorem clean_flushAll (hrange : c.InRange) : Clean c.flushAll := by
  -- a page is left to write, or its frame is on the file
  have hdone := flushAll_rule (fun rest c' => c'.InRange ∧
      ∀ p f, c'.pageMap.lookup p = some f → ⟨p, f⟩ ∈ rest ∨
        c'.pool.getD f RawPage.reset = pageAt c'.file.bytes p)
    ⟨hrange, fun p f hp => Or.inl (AList.mem_lookup_iff.mp hp)⟩ ?_
  · intro p f hp
    exact (hdone.2 p f hp).resolve_left (by simp)
  · rintro p f rest c' hmap hp ⟨hrange', hdone⟩
    rw [← hmap] at hp
    refine ⟨hrange'.storePage p _ fun _ _ hq => hq, fun q g hlook => ?_⟩
    have hq : c'.pageMap.lookup q = some g := hlook
    show _ ∨ c'.pool.getD g RawPage.reset = pageAt (c'.file.storePage _ _).bytes q
    rw [hrange'.pageAt_storePage (hrange'.in_range p f hp)]
    by_cases heq : q = p
    · -- the page just written back
      subst heq
      rw [hp] at hq
      cases hq
      exact Or.inr (by rw [Function.update_self])
    · rw [Function.update_of_ne heq]
      rcases hdone q g hq with hmem | hclean
      · rcases List.mem_cons.mp hmem with hhead | hmem
        · cases hhead
          exact absurd rfl heq
        · exact Or.inl hmem
      · exact Or.inr hclean

end Flushing

/-- An operation that changes no page. -/
def Reads : EngineOp → Prop
  | .allocatePage => False
  | .write _ _ _ => False
  | _ => True

theorem FlatEngine.pages_step (capacity : Nat) (flat : FlatEngine) {op : EngineOp}
    (hop : Reads op) : (flat.step capacity op).1.array.pages = flat.array.pages := by
  cases op with
  | allocatePage => exact absurd hop (by simp [Reads])
  | fetchPage p =>
      unfold FlatEngine.step FlatPages.step
      simp only
      split
      · rfl
      · split <;> rfl
  | moveConstruct src =>
      simp only [FlatEngine.step, FlatPages.moveConstruct]
      split <;> rfl
  | moveAssign dst src =>
      simp only [FlatEngine.step, FlatPages.moveAssign]
      split
      · rfl
      · split <;> rfl
  | destroy i =>
      simp only [FlatEngine.step, FlatPages.destroy]
      split <;> rfl
  | write i off bytes => exact absurd hop (by simp [Reads])
  | read i => rfl
  | flushAll => rfl

/-- A clean cache stays clean as long as nothing is written. -/
theorem EngineRefines.clean_step {s : Program} {flat : FlatEngine} (h : EngineRefines s flat)
    (hpol : s.cache.PolicyMember) (hclean : Clean s.cache) {op : EngineOp} (hop : Reads op) :
    Clean (s.engineStep op).1.cache := by
  have hstep := (h.step hpol op (by rintro rfl; exact absurd hop (by simp [Reads]))).1
  -- the file keeps its pages, so it still holds the unchanged array
  have hkeep : pageAt (s.engineStep op).1.cache.file.bytes = pageAt s.cache.file.bytes →
      Clean (s.engineStep op).1.cache := by
    intro hfile
    rw [clean_iff_visible] at hclean ⊢
    intro p
    rw [hfile, hclean p, ← h.refines.pages, ← hstep.refines.pages, FlatEngine.pages_step _ _ hop]
  have hhandles : ∀ op : PoolOp, OnHandles op →
      pageAt (s.step op).1.cache.file.bytes = pageAt s.cache.file.bytes := by
    intro op hop
    rw [file_step s op hop]
  cases op with
  | allocatePage => exact absurd hop (by simp [Reads])
  | fetchPage p =>
      by_cases hp : p < s.cache.file.pageCount
      · apply hkeep
        rw [engineStep_fetchPage s hp]
        exact hclean.pageAt_fetch h.refines.accounted h.refines.inRange hpol p
      · rw [engineStep_outOfBounds s hp]
        exact hclean
  | moveConstruct src => exact hkeep (hhandles (.moveConstruct src) trivial)
  | moveAssign dst src => exact hkeep (hhandles (.moveAssign dst src) trivial)
  | destroy i => exact hkeep (hhandles (.destroy i) trivial)
  | write i off bytes => exact absurd hop (by simp [Reads])
  | read i => exact hkeep (hhandles (.read i) trivial)
  | flushAll => exact clean_flushAll h.refines.inRange

/-! ## Over whole programs -/

/-- A clean cache stays clean over a run that writes nothing. -/
theorem EngineRefines.clean_run (ops : List EngineOp) {s : Program} {flat : FlatEngine}
    (h : EngineRefines s flat) (hpol : s.cache.PolicyMember) (hclean : Clean s.cache)
    (hops : ∀ op ∈ ops, Reads op) : Clean (engineRun ops s).1.cache := by
  induction ops generalizing s flat with
  | nil => exact hclean
  | cons op ops ih =>
      have hop := hops op List.mem_cons_self
      obtain ⟨hstep, -, hshape⟩ := h.step hpol op (by rintro rfl; exact absurd hop (by simp [Reads]))
      exact ih hstep (hshape.policyMember hpol) (h.clean_step hpol hclean hop)
        fun o ho => hops o (List.mem_cons_of_mem _ ho)

theorem engineRun_append (ops ops' : List EngineOp) (s : Program) :
    (engineRun (ops ++ ops') s).1 = (engineRun ops' (engineRun ops s).1).1 := by
  induction ops generalizing s with
  | nil => rfl
  | cons op ops ih => exact ih _

/-- **A flush is enough.** When the last allocation and the last write come before a `flush_all`,
everything survives. -/
theorem flush_all_survives (file : Option Bytes) (capacity : Nat) (observed : Bool)
    (ops rest : List EngineOp) (s : Program)
    (hpages : (file.getD []).length / PAGE_SIZE + ops.count .allocatePage < 2 ^ 20)
    (hrest : ∀ op ∈ rest, Reads op)
    (hs : s = (engineRun (ops ++ .flushAll :: rest) (opened file capacity observed)).1) :
    Survives s.cache.file.bytes
      (FlatEngine.run capacity (ops ++ .flushAll :: rest) (FlatEngine.ofFile file)).1 := by
  have hcount : rest.count .allocatePage = 0 := by
    rw [List.count_eq_zero]
    exact fun hmem => absurd (hrest _ hmem) (by simp [Reads])
  have hpages' : (file.getD []).length / PAGE_SIZE +
      (ops ++ .flushAll :: rest).count .allocatePage < 2 ^ 20 := by
    rw [List.count_append, List.count_cons, hcount]
    simpa using hpages
  have hpol := policyMember_opened file capacity observed
  have hstart := engineRefines_opened file capacity observed (by omega)
  obtain ⟨hall, -, -⟩ := engineRefines_run _ hstart hpol (pagesFit_of_lt hpages')
  rw [capacity_opened, ← hs] at hall
  rw [hall.survives_iff (by rw [FlatEngine.pageCount_run]; exact hpages'.le), hs, engineRun_append]
  obtain ⟨hbefore, -, hshape⟩ := engineRefines_run ops hstart hpol (pagesFit_of_lt hpages)
  have hpol' := hshape.policyMember hpol
  obtain ⟨hflush, -, hshape'⟩ := hbefore.step hpol' .flushAll (by simp)
  exact hflush.clean_run rest (hshape'.policyMember hpol') (clean_flushAll hbefore.refines.inRange) hrest

/-- A page written, flushed, and read again by a handle that is let go later. -/
theorem flush_all_survives_one :
    Survives
      (engineRun ([.allocatePage, .write 0 64 [7]] ++ .flushAll :: [.read 0, .destroy 0])
        (opened none 1 false)).1.cache.file.bytes
      (FlatEngine.run 1 ([.allocatePage, .write 0 64 [7]] ++ .flushAll :: [.read 0, .destroy 0])
        (FlatEngine.ofFile none)).1 :=
  flush_all_survives none 1 false [.allocatePage, .write 0 64 [7]] [.read 0, .destroy 0] _
    (by decide) (by simp [Reads]) rfl

end Program

end Aqa
