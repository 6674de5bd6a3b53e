/-
# Aqa.Storage.Shutdown — which page writes outlive the engine.

The destructor of the engine writes nothing: a page reaches the file when it is evicted or by
`flush_all`, and at no other time. Both can be told from the operations. `LruEngine` adds to the
array of pages the cached pages in the order of their last fetch, and so knows the page that a fetch
evicts and the pages that an operation writes to the file (`writesBack`); the engine does what it
says (`Shows.step`, `Shows.run`).

So a later engine finds the last bytes written exactly when every page is at the end as it was when
it was last written back (`shutdown_iff_written_back`). A page that is allocated and still cached at
the end is lost (`allocated_page_lost`).
-/
import Aqa.Storage.EngineRuns
import Aqa.Storage.PageReplacement

namespace Aqa

open Aqa.Lib MappedFile

/-! ## The pages an operation writes to the file -/

/-- The array of pages, and the cached ones among them, the last fetched first. -/
structure LruEngine where
  flat : FlatEngine
  order : List Nat

namespace LruEngine

open FlatPages

/-- The pages of the array. -/
def pages (s : LruEngine) : Nat → RawPage := s.flat.array.pages

/-- The page that a fetch of page `p` evicts: without a frame for `p`, the page whose last fetch is
the oldest of those that have no live handle. -/
def evicted (capacity : Nat) (s : LruEngine) (p : Nat) : Option Nat :=
  if p ∈ s.order ∨ s.order.length < capacity then none
  else s.order.reverse.find? fun q => decide (q ∉ livePages s.flat.array.handles)

/-- The cached pages after a fetch of page `p`. With every frame in use by a live handle it throws. -/
def fetch (capacity : Nat) (s : LruEngine) (p : Nat) : List Nat :=
  if p ∈ s.order then p :: s.order.erase p
  else if s.order.length < capacity then p :: s.order
  else (s.evicted capacity p).elim s.order fun victim => p :: s.order.erase victim

/-- The page an operation asks the cache for. -/
def asksFor (s : LruEngine) : EngineOp → Option Nat
  | .allocatePage => some s.flat.pageCount
  | .fetchPage p => if p < s.flat.pageCount then some p else none
  | _ => none

/-- The pages an operation writes to the file. -/
def writesBack (capacity : Nat) (s : LruEngine) : EngineOp → List Nat
  | .flushAll => s.order
  | op => ((s.asksFor op).bind (s.evicted capacity)).toList

/-- One operation. -/
def step (capacity : Nat) (s : LruEngine) (op : EngineOp) : LruEngine :=
  ⟨(s.flat.step capacity op).1, (s.asksFor op).elim s.order (s.fetch capacity)⟩

/-- A sequence of operations. -/
def run (capacity : Nat) (ops : List EngineOp) (s : LruEngine) : LruEngine :=
  ops.foldl (step capacity) s

/-- An engine on a file, before its first fetch. -/
def ofFile (file : Option Bytes) : LruEngine := ⟨FlatEngine.ofFile file, []⟩

/-- The operations never write page `p` to the file. -/
def Keeps (capacity p : Nat) : List EngineOp → LruEngine → Prop
  | [], _ => True
  | op :: ops, s => p ∉ s.writesBack capacity op ∧ Keeps capacity p ops (s.step capacity op)

/-- The operations `before` and then `after`, of which the last of `before` is the last to write page
`p` to the file. Where none does, all of them are `after`. -/
structure LastWriteBack (capacity : Nat) (s : LruEngine) (p : Nat) (before after : List EngineOp) :
    Prop where
  last : ∀ ops op, before = ops ++ [op] → p ∈ (s.run capacity ops).writesBack capacity op
  keeps : Keeps capacity p after (s.run capacity before)

/-- What the operations do to page `p` after they last wrote it back leaves it as it was then. -/
def SavedPage (capacity : Nat) (s : LruEngine) (p : Nat) (ops : List EngineOp) : Prop :=
  ∀ before after, ops = before ++ after → s.LastWriteBack capacity p before after →
    (s.run capacity before).pages p = (s.run capacity ops).pages p

/-- **Everything written back.** -/
def WrittenBack (capacity : Nat) (s : LruEngine) (ops : List EngineOp) : Prop :=
  ∀ p, s.SavedPage capacity p ops

/-- The page an operation writes to. An allocation that throws writes no header. -/
def writesTo (capacity : Nat) (s : LruEngine) : EngineOp → Option Nat
  | .allocatePage =>
      if (livePages s.flat.array.handles).card = capacity ∧
          s.flat.pageCount ∉ livePages s.flat.array.handles then none
      else some s.flat.pageCount
  | .write i _ _ => s.flat.array.live i
  | _ => none

/-- The pages written to since they were last written back. -/
def unsaved (capacity : Nat) : List EngineOp → LruEngine → List Nat → List Nat
  | [], _, dirty => dirty
  | op :: ops, s, dirty =>
      unsaved capacity ops (s.step capacity op)
        ((s.writesTo capacity op).toList ++
          dirty.filter fun p => decide (p ∉ s.writesBack capacity op))

variable {capacity : Nat} {s : LruEngine}

theorem flat_run (ops : List EngineOp) (s : LruEngine) :
    (s.run capacity ops).flat = (FlatEngine.run capacity ops s.flat).1 := by
  induction ops generalizing s with
  | nil => rfl
  | cons op ops ih => exact ih _

theorem run_append (ops ops' : List EngineOp) (s : LruEngine) :
    s.run capacity (ops ++ ops') = (s.run capacity ops).run capacity ops' := List.foldl_append

/-- Only a flush writes more than the page it evicts. -/
theorem writesBack_of_ne {op : EngineOp} (h : op ≠ .flushAll) :
    s.writesBack capacity op = ((s.asksFor op).bind (s.evicted capacity)).toList := by
  cases op with
  | flushAll => exact absurd rfl h
  | _ => rfl

/-- Only a cached page is evicted. -/
theorem mem_of_evicted {p q : Nat} (h : s.evicted capacity p = some q) : q ∈ s.order := by
  unfold evicted at h
  split at h
  · exact absurd h (by simp)
  · exact List.mem_reverse.mp (List.mem_of_find?_eq_some h)

/-- The page a fetch evicts is the one that leaves the order. -/
theorem evicted_eq_some_iff (hnodup : s.order.Nodup) {p q : Nat} :
    s.evicted capacity p = some q ↔ q ∈ s.order ∧ q ∉ s.fetch capacity p := by
  unfold fetch
  by_cases hp : p ∈ s.order
  · have hnone : s.evicted capacity p = none := if_pos (Or.inl hp)
    rw [hnone, if_pos hp]
    -- a hit moves a page to the front
    apply iff_of_false (by simp)
    rintro ⟨hq, hout⟩
    rw [List.mem_cons, not_or] at hout
    exact hout.2 ((List.mem_erase_of_ne hout.1).mpr hq)
  rw [if_neg hp]
  by_cases hroom : s.order.length < capacity
  · have hnone : s.evicted capacity p = none := if_pos (Or.inr hroom)
    rw [hnone, if_pos hroom]
    exact iff_of_false (by simp) fun h => h.2 (List.mem_cons_of_mem _ h.1)
  rw [if_neg hroom]
  cases hv : s.evicted capacity p with
  | none => exact iff_of_false (by simp) fun h => h.2 h.1
  | some victim =>
      have hin := mem_of_evicted hv
      simp only [Option.elim_some, Option.some.injEq, List.mem_cons, not_or]
      constructor
      · rintro rfl
        refine ⟨hin, ?_, hnodup.not_mem_erase⟩
        rintro rfl
        exact hp hin
      · rintro ⟨hq, -, hout⟩
        by_contra hne
        exact hout ((List.mem_erase_of_ne (Ne.symm hne)).mpr hq)

theorem keeps_append {p : Nat} (ops ops' : List EngineOp) (s : LruEngine) :
    Keeps capacity p (ops ++ ops') s ↔
      Keeps capacity p ops s ∧ Keeps capacity p ops' (s.run capacity ops) := by
  induction ops generalizing s with
  | nil => exact ⟨fun h => ⟨trivial, h⟩, fun h => h.2⟩
  | cons op ops ih =>
      show _ ∧ Keeps capacity p (ops ++ ops') _ ↔ (_ ∧ Keeps capacity p ops _) ∧ _
      rw [ih, and_assoc]
      rfl

/-- Over every run there is a last write-back of a page, or none at all. -/
theorem exists_lastWriteBack (capacity : Nat) (s : LruEngine) (p : Nat) (ops : List EngineOp) :
    ∃ before after, ops = before ++ after ∧ s.LastWriteBack capacity p before after := by
  induction ops using List.reverseRecOn with
  | nil => exact ⟨[], [], rfl, fun ops op h => by simp at h, trivial⟩
  | append_singleton ops op ih =>
      by_cases hp : p ∈ (s.run capacity ops).writesBack capacity op
      · refine ⟨ops ++ [op], [], (List.append_nil _).symm, fun ops' op' h => ?_, trivial⟩
        obtain ⟨rfl, hop⟩ := List.append_inj' h rfl
        obtain rfl := (List.cons.inj hop).1
        exact hp
      · obtain ⟨before, after, rfl, hlast, hkeeps⟩ := ih
        refine ⟨before, after ++ [op], List.append_assoc _ _ _, hlast, ?_⟩
        rw [run_append] at hp
        exact (keeps_append _ _ _).mpr ⟨hkeeps, hp, trivial⟩

/-! ### Pages not written to -/

/-- An operation changes no page but the one it writes to. -/
theorem pages_step {p : Nat} {op : EngineOp} (h : s.writesTo capacity op ≠ some p) :
    (s.step capacity op).pages p = s.pages p := by
  by_cases hreads : Program.Reads op
  · exact congrFun (Program.FlatEngine.pages_step capacity s.flat hreads) p
  cases op with
  | allocatePage =>
      by_cases hp : p = s.flat.pageCount
      · -- the new page, when the call throws
        subst hp
        have hfull : (livePages s.flat.array.handles).card = capacity ∧
            s.flat.pageCount ∉ livePages s.flat.array.handles := by
          by_contra hroom
          exact h (if_neg hroom)
        have hthrew : s.flat.array.step capacity (.fetch s.flat.pageCount) =
            (s.flat.array, .threw (.runtimeError "Buffer Pool Full: All pages are pinned..")) := by
          simp only [FlatPages.step]
          exact if_pos hfull
        show (s.flat.step capacity .allocatePage).1.array.pages s.flat.pageCount = _
        simp only [FlatEngine.step, hthrew]
        rfl
      · exact FlatEngine.pages_allocatePage capacity s.flat hp
  | write i off bytes =>
      have hflat : s.flat.array.live i ≠ some p := h
      refine Program.pages_step fun j off' bytes' heq => ?_
      cases heq
      exact hflat
  | _ => exact absurd trivial hreads

/-- A page just written back, or not written to, is as it was when it was last written back. -/
theorem savedPage_concat {p : Nat} {ops : List EngineOp} {op : EngineOp}
    (hsaved : p ∈ (s.run capacity ops).writesBack capacity op ∨ s.SavedPage capacity p ops)
    (hwrites : (s.run capacity ops).writesTo capacity op ≠ some p) :
    s.SavedPage capacity p (ops ++ [op]) := by
  have hkept : (s.run capacity (ops ++ [op])).pages p = (s.run capacity ops).pages p := by
    rw [run_append]
    exact pages_step hwrites
  intro before after hsplit hlast
  rcases List.eq_nil_or_concat after with rfl | ⟨after, op', rfl⟩
  · rw [hsplit, List.append_nil]
  -- the last operation is behind the last write-back
  rw [List.concat_eq_append] at hsplit hlast
  rw [← List.append_assoc] at hsplit
  obtain ⟨rfl, hop⟩ := List.append_inj' hsplit rfl
  obtain rfl := (List.cons.inj hop).1
  obtain ⟨hkeeps, hnot, -⟩ := (keeps_append _ _ _).mp hlast.keeps
  rw [← run_append] at hnot
  rw [hkept]
  exact hsaved.resolve_left hnot before after rfl ⟨hlast.last, hkeeps⟩

theorem unsaved_append (ops ops' : List EngineOp) (s : LruEngine) (dirty : List Nat) :
    unsaved capacity (ops ++ ops') s dirty =
      unsaved capacity ops' (s.run capacity ops) (unsaved capacity ops s dirty) := by
  induction ops generalizing s dirty with
  | nil => rfl
  | cons op ops ih => exact ih _ _

/-- A page not written to since it was last written back. -/
theorem savedPage_of_not_mem_unsaved {p : Nat} (ops : List EngineOp)
    (h : p ∉ unsaved capacity ops s []) : s.SavedPage capacity p ops := by
  induction ops using List.reverseRecOn with
  | nil =>
      intro before after hsplit _
      rw [(List.append_eq_nil_iff.mp hsplit.symm).1]
  | append_singleton ops op ih =>
      rw [unsaved_append] at h
      obtain ⟨hwrites, hdirty⟩ := not_or.mp (List.mem_append.not.mp h)
      refine savedPage_concat ?_ fun heq => hwrites (Option.mem_toList.mpr heq)
      by_cases hback : p ∈ (s.run capacity ops).writesBack capacity op
      · exact Or.inl hback
      · refine Or.inr (ih fun hmem => hdirty (List.mem_filter.mpr ⟨hmem, ?_⟩))
        exact decide_eq_true hback

/-- **No write after the last write-back** is enough. -/
theorem writtenBack_of_unsaved {ops : List EngineOp} (h : unsaved capacity ops s [] = []) :
    s.WrittenBack capacity ops := fun p =>
  savedPage_of_not_mem_unsaved ops (by rw [h]; exact List.not_mem_nil)

end LruEngine

/-! ## What a fetch writes to the file -/

namespace PageCache

open FlatPages

variable {c : PageCache}

/-- A fetch writes the page that leaves the cache, and no other. -/
theorem pageAt_fetch (h : Pool c none) (hpol : c.PolicyMember) (hrange : c.InRange) (p q : Nat) :
    pageAt (c.pageCall (.fetch p)).file.bytes q =
      if (c.pageMap.lookup q).isSome ∧ ¬ ((c.pageCall (.fetch p)).pageMap.lookup q).isSome then
        c.visible q
      else pageAt c.file.bytes q := by
  -- a page that stays, or was not there, keeps its place
  have hother : ∀ {m : AList (fun _ : Nat => Nat)} (f : Nat), c.pageMap.lookup p = none →
      m.lookup q = c.pageMap.lookup q →
      ¬ ((c.pageMap.lookup q).isSome ∧ ¬ ((m.insert p f).lookup q).isSome) := by
    rintro m f hp hm ⟨hq, hout⟩
    have hne : q ≠ p := by
      rintro rfl
      rw [hp] at hq
      exact absurd hq (by simp)
    rw [AList.lookup_insert_ne hne, hm] at hout
    exact hout hq
  unfold pageCall
  rcases fetchPage_cases h hpol p with
    ⟨f, c', -, heq, hhit⟩ | ⟨hp, f, c₁, heq, hpool, hp₁, htook⟩ | ⟨-, -, -, c', heq, href⟩
  · simp only [heq]
    rw [hhit.file, hhit.pageMap, if_neg fun hq => hq.2 hq.1]
  · simp only [heq]
    have hinstall : (c₁.installPage p f).file = c₁.file ∧
        (c₁.installPage p f).pageMap = c₁.pageMap.insert p f := ⟨rfl, rfl⟩
    rw [hinstall.1, hinstall.2]
    rcases htook.source with ⟨hfile, hmap⟩ | ⟨victim, hv, -, hfile, hmap⟩
    · -- a free frame
      rw [hfile, if_neg (hother f hp (by rw [hmap]))]
    rw [hfile, hmap, hrange.pageAt_storePage (hrange.in_range victim f hv)]
    by_cases hq : q = victim
    · -- the victim, which is not the page asked for
      subst hq
      have hne : q ≠ p := by
        rintro rfl
        rw [hp] at hv
        exact absurd hv (by simp)
      rw [if_pos ⟨by rw [hv]; rfl, by rw [AList.lookup_insert_ne hne, AList.lookup_erase]; simp⟩,
        Function.update_self, visible_of_resident hv]
    · rw [Function.update_of_ne hq, if_neg (hother f hp (AList.lookup_erase_ne hq))]
  · simp only [heq]
    rw [href.pageMap, href.file, if_neg fun hq => hq.2 hq.1]

/-- Without a policy, a fetch changes the order as the operations tell. -/
theorem order_fetch (h : Pool c none) (hpolicy : c.evictionPolicy = none) {s : LruEngine}
    (horder : c.lruList.toList = s.order)
    (hlive : ∀ q, q ∈ livePages s.flat.array.handles ↔ 0 < c.pinOf q) (p : Nat) :
    (c.pageCall (.fetch p)).lruList.toList = s.fetch c.pool.length p := by
  have hord : Ordered c c.pool.length s.order := horder ▸ h.ordered
  have hfront : TakesFront c.evictionPolicy := Or.inl hpolicy
  unfold LruEngine.fetch pageCall
  by_cases hp : p ∈ s.order
  · obtain ⟨hd, c', heq, hord', -⟩ := hord.fetch_hit hp
    simp only [heq, if_pos hp, hord'.order_eq]
  rw [if_neg hp]
  by_cases hroom : s.order.length < c.pool.length
  · obtain ⟨hd, c', heq, hord', -⟩ := hord.fetch_free hfront.member hp hroom
    simp only [heq, if_pos hroom, hord'.order_eq]
  rw [if_neg hroom]
  have hfull : s.order.length = c.pool.length := by
    have hshared := hord.shared
    omega
  -- the pages without a live handle are the candidates
  have hevicted : s.evicted c.pool.length p = c.unpinnedLru.head? := by
    unfold LruEngine.evicted
    rw [if_neg (not_or.mpr ⟨hp, hroom⟩), hord.unpinnedLru_eq, List.head?_filter]
    congr 1
    funext q
    rw [Bool.eq_iff_iff, decide_eq_true_eq, beq_iff_eq, hlive]
    omega
  rw [hevicted]
  cases hun : c.unpinnedLru with
  | nil =>
      obtain ⟨c', heq, hord', -⟩ := hord.fetch_refused hfront.member hp hfull hun
      simp only [heq, hord'.order_eq, List.head?_nil, Option.elim_none]
  | cons front rest =>
      obtain ⟨hd, c', -, heq, hord', -⟩ := hord.fetch_front hfront hp hfull hun
      simp only [heq, hord'.order_eq, List.head?_cons, Option.elim_some]

end PageCache

/-! ## The operations of the engine -/

namespace Program

open PageCache FlatPages LruEngine

theorem cache_step_fetch (s : Program) (p : Nat) :
    (s.step (.fetch p)).1.cache = s.cache.pageCall (.fetch p) := by
  simp only [Program.step, pageCall]
  cases PageCache.fetchPage p s.cache <;> rfl

/-- Behind the growth of the file an allocation is a fetch, and writes a header to a frame. -/
theorem cache_allocatePage (s : Program) :
    ∃ pool, (s.engineStep .allocatePage).1.cache =
      { s.grown.cache.pageCall (.fetch s.cache.file.pageCount) with pool := pool } := by
  rw [EngineRefines.engineStep_allocatePage]
  simp only [pageCall]
  cases PageCache.fetchPage s.cache.file.pageCount s.grown.cache with
  | ok hd c => exact ⟨_, rfl⟩
  | error err c => exact ⟨_, rfl⟩

/-- The engine shows the pages of the array, and its recency list is the order of the last fetches. -/
structure Shows (capacity : Nat) (s : Program) (m : LruEngine) : Prop where
  refines : EngineRefines s m.flat
  order : s.cache.lruList.toList = m.order
  frames : s.cache.pool.length = capacity
  policy : s.cache.evictionPolicy = none

namespace Shows

variable {capacity : Nat} {s : Program} {m : LruEngine}

theorem member (h : Shows capacity s m) : s.cache.PolicyMember :=
  TakesFront.member (Or.inl h.policy)

theorem live (h : Shows capacity s m) (q : Nat) :
    q ∈ livePages m.flat.array.handles ↔ 0 < s.cache.pinOf q := by
  rw [h.refines.refines.handles]
  exact mem_livePages h.refines.refines.accounted

/-- The pages that the engine shows are those of the array. -/
theorem visible (h : Shows capacity s m) : s.cache.visible = m.pages := h.refines.refines.pages.symm

/-- The cached pages are pages of the file. -/
theorem order_lt (h : Shows capacity s m) {q : Nat} (hq : q ∈ m.order) : q < m.flat.pageCount := by
  rw [← h.order, h.refines.refines.accounted.inv.lruList_exact.2] at hq
  obtain ⟨f, hf⟩ := Option.isSome_iff_exists.mp hq
  rw [← h.refines.count]
  exact h.refines.refines.inRange.in_range q f hf

/-- A page that is not cached is on the file as the array has it. -/
theorem pageAt_of_not_mem (h : Shows capacity s m) {q : Nat} (hq : q ∉ m.order) :
    pageAt s.cache.file.bytes q = m.pages q := by
  rw [← h.visible, visible_of_absent]
  rw [← Option.not_isSome_iff_eq_none, ← h.refines.refines.accounted.inv.lruList_exact.2, h.order]
  exact hq

/-- **A fetch**: the order it leaves, and the page it writes to the file. -/
theorem pageCall (h : Shows capacity s m) (p : Nat) :
    (s.cache.pageCall (.fetch p)).lruList.toList = m.fetch capacity p ∧
      ∀ q, pageAt (s.cache.pageCall (.fetch p)).file.bytes q =
        if q ∈ (m.evicted capacity p).toList then m.pages q
        else pageAt s.cache.file.bytes q := by
  have hacc := h.refines.refines.accounted
  have hnext := (hacc.fetch h.member p).1.inv
  rw [cache_step_fetch] at hnext
  have horder := order_fetch hacc.inv h.policy h.order h.live p
  rw [h.frames] at horder
  have hnodup : m.order.Nodup := by
    rw [← h.order]
    exact hacc.inv.lruList_exact.1
  refine ⟨horder, fun q => ?_⟩
  rw [pageAt_fetch hacc.inv h.member h.refines.refines.inRange p q, h.visible]
  apply if_congr _ rfl rfl
  rw [Option.mem_toList, evicted_eq_some_iff hnodup, ← horder, ← h.order,
    hacc.inv.lruList_exact.2, hnext.lruList_exact.2]

/-- What an operation leaves, from the order and the file behind it. -/
theorem stepped (h : Shows capacity s m) {op : EngineOp}
    (hsmall : op = .allocatePage → m.flat.pageCount + 1 < 2 ^ 20)
    (horder : (s.engineStep op).1.cache.lruList.toList = (m.step capacity op).order) :
    Shows capacity (s.engineStep op).1 (m.step capacity op) := by
  obtain ⟨hrel, -, hshape⟩ := h.refines.step h.member op hsmall
  rw [h.frames] at hrel
  exact ⟨hrel, horder, hshape.capacity.trans h.frames, hshape.policy.trans h.policy⟩

/-- An operation on handles. -/
theorem handleStep (h : Shows capacity s m) {op : EngineOp} (poolOp : PoolOp)
    (hop : OnHandles poolOp) (heq : s.engineStep op = s.step poolOp) (hasks : m.asksFor op = none)
    (hnone : m.writesBack capacity op = []) :
    Shows capacity (s.engineStep op).1 (m.step capacity op) ∧
      ∀ q, pageAt (s.engineStep op).1.cache.file.bytes q =
        if q ∈ m.writesBack capacity op then (m.step capacity op).pages q
        else pageAt s.cache.file.bytes q := by
  refine ⟨h.stepped ?_ ?_, fun q => ?_⟩
  · rintro rfl
    exact absurd hasks (by simp [asksFor])
  · rw [heq, lruList_step s poolOp hop, h.order, LruEngine.step, hasks]
    rfl
  · rw [hnone, if_neg List.not_mem_nil, heq, file_step s poolOp hop]

/-- **One operation** does to the order what it says, and writes the pages it says to the file. -/
theorem step (h : Shows capacity s m) (op : EngineOp)
    (hsmall : op = .allocatePage → m.flat.pageCount + 1 < 2 ^ 20) :
    Shows capacity (s.engineStep op).1 (m.step capacity op) ∧
      ∀ q, pageAt (s.engineStep op).1.cache.file.bytes q =
        if q ∈ m.writesBack capacity op then (m.step capacity op).pages q
        else pageAt s.cache.file.bytes q := by
  cases op with
  | allocatePage =>
      -- the fetch is one of the grown file
      have hgrown : Shows capacity s.grown ⟨{ m.flat with pageCount := m.flat.pageCount + 1 }, m.order⟩ :=
        ⟨h.refines.grown (hsmall rfl), h.order, h.frames, h.policy⟩
      obtain ⟨horder, hfile⟩ := hgrown.pageCall s.cache.file.pageCount
      obtain ⟨pool, hcache⟩ := cache_allocatePage s
      rw [h.refines.count] at horder hfile hcache
      have hnext : Shows capacity (s.engineStep .allocatePage).1 (m.step capacity .allocatePage) := by
        apply h.stepped hsmall
        rw [hcache]
        exact horder
      refine ⟨hnext, fun q => ?_⟩
      have hpage := hfile q
      rw [h.refines.pageAt_grown (hsmall rfl)] at hpage
      rw [hcache]
      apply hpage.trans
      show (if q ∈ (m.evicted capacity m.flat.pageCount).toList then m.pages q else _) =
        if q ∈ (m.evicted capacity m.flat.pageCount).toList then _ else _
      by_cases hq : q ∈ (m.evicted capacity m.flat.pageCount).toList
      · rw [if_pos hq, if_pos hq]
        -- the page evicted is not the new one
        have hlt := h.order_lt (mem_of_evicted (Option.mem_toList.mp hq))
        exact (FlatEngine.pages_allocatePage capacity m.flat hlt.ne).symm
      · rw [if_neg hq, if_neg hq]
  | fetchPage p =>
      have hreads : Reads (.fetchPage p) := trivial
      have hpages : (m.step capacity (.fetchPage p)).pages = m.pages :=
        FlatEngine.pages_step capacity m.flat hreads
      rw [hpages]
      by_cases hp : p < m.flat.pageCount
      · obtain ⟨horder, hfile⟩ := h.pageCall p
        have hasks : m.asksFor (.fetchPage p) = some p := if_pos hp
        have hcache : (s.engineStep (.fetchPage p)).1.cache = s.cache.pageCall (.fetch p) := by
          rw [EngineRefines.engineStep_fetchPage s (by rw [h.refines.count]; exact hp),
            cache_step_fetch]
        refine ⟨h.stepped hsmall ?_, fun q => ?_⟩
        · rw [hcache, horder, LruEngine.step, hasks]
          rfl
        · rw [hcache, hfile q, writesBack_of_ne (by simp), hasks]
          rfl
      · have hasks : m.asksFor (.fetchPage p) = none := if_neg hp
        have hsame : s.engineStep (.fetchPage p) = (s, _) :=
          EngineRefines.engineStep_outOfBounds s (by rw [h.refines.count]; exact hp)
        refine ⟨h.stepped hsmall ?_, fun q => ?_⟩
        · rw [hsame, h.order, LruEngine.step, hasks]
          rfl
        · rw [hsame, writesBack_of_ne (by simp), hasks]
          rfl
  | moveConstruct src => exact h.handleStep (.moveConstruct src) trivial rfl rfl rfl
  | moveAssign dst src => exact h.handleStep (.moveAssign dst src) trivial rfl rfl rfl
  | destroy i => exact h.handleStep (.destroy i) trivial rfl rfl rfl
  | write i off bytes => exact h.handleStep (.write i off bytes) trivial rfl rfl rfl
  | read i => exact h.handleStep (.read i) trivial rfl rfl rfl
  | flushAll =>
      have hnext : Shows capacity (s.engineStep .flushAll).1 (m.step capacity .flushAll) := by
        apply h.stepped hsmall
        obtain ⟨file, heq⟩ := PageCache.flushAll_file s.cache
        show s.cache.flushAll.lruList.toList = m.order
        rw [heq]
        exact h.order
      refine ⟨hnext, fun q => ?_⟩
      have hclean := (clean_iff_visible _).mp (clean_flushAll h.refines.refines.inRange) q
      rw [(visible_flushAll h.refines.refines.inRange).1, h.visible] at hclean
      apply hclean.trans
      show m.pages q = if q ∈ m.order then m.pages q else pageAt s.cache.file.bytes q
      by_cases hq : q ∈ m.order
      · rw [if_pos hq]
      · rw [if_neg hq, h.pageAt_of_not_mem hq]

/-- A sequence of operations. -/
theorem run (h : Shows capacity s m) (ops : List EngineOp) (hfit : PagesFit m.flat.pageCount ops) :
    Shows capacity (engineRun ops s).1 (m.run capacity ops) := by
  induction ops generalizing s m with
  | nil => exact h
  | cons op ops ih =>
      have htail := hfit.tail
      rw [← FlatEngine.pageCount_step capacity m.flat op] at htail
      exact ih (h.step op hfit.head).1 htail

/-- A page that no operation writes back stays on the file as it is. -/
theorem pageAt_run (h : Shows capacity s m) (ops : List EngineOp)
    (hfit : PagesFit m.flat.pageCount ops) {p : Nat} (hkeeps : Keeps capacity p ops m) :
    pageAt (engineRun ops s).1.cache.file.bytes p = pageAt s.cache.file.bytes p := by
  induction ops generalizing s m with
  | nil => rfl
  | cons op ops ih =>
      have htail := hfit.tail
      rw [← FlatEngine.pageCount_step capacity m.flat op] at htail
      obtain ⟨hnext, hfile⟩ := h.step op hfit.head
      calc pageAt (engineRun ops (s.engineStep op).1).1.cache.file.bytes p
          = pageAt (s.engineStep op).1.cache.file.bytes p := ih hnext htail hkeeps.2
        _ = pageAt s.cache.file.bytes p := by rw [hfile p, if_neg hkeeps.1]

end Shows

theorem shows_opened (file : Option Bytes) (capacity : Nat) (observed : Bool)
    (hpages : (file.getD []).length / PAGE_SIZE ≤ 2 ^ 20) :
    Shows capacity (opened file capacity observed) (ofFile file) where
  refines := engineRefines_opened file capacity observed hpages
  order := rfl
  frames := capacity_opened file capacity observed
  policy := rfl

/-- **The page of the file is the page last written back.** -/
theorem pageAt_of_lastWriteBack (file : Option Bytes) (capacity : Nat) (observed : Bool)
    {p : Nat} {before after : List EngineOp}
    (hfit : PagesFit ((file.getD []).length / PAGE_SIZE) (before ++ after))
    (hlast : (ofFile file).LastWriteBack capacity p before after) :
    pageAt (engineRun (before ++ after) (opened file capacity observed)).1.cache.file.bytes p =
      ((ofFile file).run capacity before).pages p := by
  have hstart := shows_opened file capacity observed hfit.1
  obtain ⟨hbefore, hafter⟩ := hfit.append
  rw [engineRun_append]
  refine ((hstart.run before hbefore).pageAt_run after ?_ hlast.keeps).trans ?_
  · rw [flat_run, FlatEngine.pageCount_run]
    exact hafter
  rcases List.eq_nil_or_concat before with rfl | ⟨ops, op, rfl⟩
  · -- never written back: the page the engine found
    exact hstart.pageAt_of_not_mem List.not_mem_nil
  · rw [List.concat_eq_append] at hbefore hlast ⊢
    obtain ⟨hops, hop⟩ := hbefore.append
    have hrun := hstart.run ops hops
    obtain ⟨-, hfile⟩ := hrun.step op (by
      rw [flat_run, FlatEngine.pageCount_run]
      exact hop.head)
    rw [engineRun_append, LruEngine.run_append]
    apply (hfile p).trans
    rw [if_pos (hlast.last ops op rfl)]
    rfl

/-! ## Over whole programs -/

/-- **What survives a shutdown.** Over every file, for every capacity and every program whose page
addresses do not wrap: the program sees what it sees of the array, and a new engine on the file has
the page count of the old one and shows the last bytes written to every page, exactly when no page
was changed by what was written to it after its last write-back, by a flush while it was cached or by
its eviction. -/
theorem shutdown_iff_written_back (file : Option Bytes) (capacity : Nat) (observed : Bool)
    (ops : List EngineOp) (s : Program) (flat : FlatEngine)
    (hfit : PagesFit ((file.getD []).length / PAGE_SIZE) ops)
    (hs : s = (engineRun ops (opened file capacity observed)).1)
    (hflat : flat = (FlatEngine.run capacity ops (FlatEngine.ofFile file)).1) :
    (engineRun ops (opened file capacity observed)).2 =
        (FlatEngine.run capacity ops (FlatEngine.ofFile file)).2 ∧
      (Survives s.cache.file.bytes flat ↔ WrittenBack capacity (ofFile file) ops) := by
  have hstart := shows_opened file capacity observed hfit.1
  obtain ⟨-, hobs, -⟩ := engineRefines_run ops hstart.refines hstart.member hfit
  rw [capacity_opened] at hobs
  have hrun := hstart.run ops hfit
  refine ⟨hobs, ?_⟩
  rw [hs, hflat]
  have hrel := hrun.refines
  rw [flat_run] at hrel
  refine (hrel.survives_iff (by rw [FlatEngine.pageCount_run]; exact hfit.total)).trans ?_
  rw [clean_iff_visible, hrun.visible]
  constructor
  · intro hclean p before after hops hlast
    subst hops
    rw [← hclean p, pageAt_of_lastWriteBack file capacity observed hfit hlast]
  · intro hwritten p
    obtain ⟨before, after, rfl, hlast⟩ := exists_lastWriteBack capacity (ofFile file) p ops
    rw [pageAt_of_lastWriteBack file capacity observed hfit hlast]
    exact hwritten p before after rfl hlast

/-- A page allocated and released is not on the file when the engine goes: a new engine shows zero
bytes where the magic was written. -/
theorem allocated_page_lost :
    ¬ Survives
      (engineRun [.allocatePage, .destroy 0] (opened none 1 false)).1.cache.file.bytes
      (FlatEngine.run 1 [.allocatePage, .destroy 0] (FlatEngine.ofFile none)).1 := by
  intro h
  obtain ⟨hd, e, hfetch, hpage⟩ := (h 1 false le_rfl).2 0 (by decide +kernel)
  obtain ⟨hd', e', hfetch', hpage'⟩ := fetchPage_opened
    (engineRun [.allocatePage, .destroy 0] (opened none 1 false)).1.cache.file.bytes false le_rfl
    (by decide +kernel) (p := 0) (by decide +kernel)
  rw [hfetch] at hfetch'
  cases hfetch'
  -- the first byte of the magic
  have hbytes := congrArg (fun page : RawPage => page.bytes.head?) (hpage.symm.trans hpage')
  exact absurd hbytes (by decide +kernel)

/-- One frame and two new pages: the first is written to, released, and evicted by the allocation of
the second, which is flushed before its handle is let go. -/
theorem shutdown_iff_written_back_evicted :
    Survives
      (engineRun [.allocatePage, .write 0 64 [7], .destroy 0, .allocatePage, .flushAll, .destroy 1]
        (opened none 1 false)).1.cache.file.bytes
      (FlatEngine.run 1
        [.allocatePage, .write 0 64 [7], .destroy 0, .allocatePage, .flushAll, .destroy 1]
        (FlatEngine.ofFile none)).1 :=
  (shutdown_iff_written_back none 1 false
    [.allocatePage, .write 0 64 [7], .destroy 0, .allocatePage, .flushAll, .destroy 1] _ _
    (pagesFit_of_lt (by decide)) rfl rfl).2.mpr (writtenBack_of_unsaved (by decide +kernel))

end Program

end Aqa
