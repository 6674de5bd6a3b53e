/-
# Aqa.Storage.PrefetchScan — when prefetching does not change a scan.

The prefetch threads pin pages while the scan needs a frame. In every state of every schedule the
pages they pin are pages the scan has asked for (`ScanInv`), so that they leave a frame as long as
the file has at most one page more than the cache has frames; then the scan makes the steps it makes
without them, and `turnsLeft` counts down with each of its turns. On a longer file there is a schedule
in which the threads hold every frame when the scan reaches page `capacity`, and its fetch throws.
-/
import Aqa.Storage.Prefetch
import Aqa.Storage.ReaderSpec

namespace Aqa

open Aqa.Lib StorageReader StorageEngine

/-! ## What the scan has before it -/

namespace PrefetchThread

/-- A thread with a handle on a page. -/
def holds (p : Nat) : PrefetchThread → Bool
  | .holding h => h.pageId == p
  | _ => false

/-- The page of a thread that has not ended. -/
def page? : PrefetchThread → Option Nat
  | .started p => some p
  | .holding h => some h.pageId
  | .finished => none

end PrefetchThread

namespace ScanPoint

/-- The pins the scanning thread has on a page. -/
def pins (q : Nat) : ScanPoint → Nat
  | .atSlot pid _ _ _ => if q = pid then 1 else 0
  | .inSlot pid _ _ _ _ => if q = pid then 2 else 0
  | .afterSlots pid _ => if q = pid then 1 else 0
  | _ => 0

/-- The handles and the loop variables fit the page being scanned. -/
def Placed (view : Nat → RawPage) (total : Nat) (pageMap : AList fun _ : Nat => Nat) :
    ScanPoint → Prop
  | .atPage pid => pid ≤ total
  | .atSlot pid page count sid =>
      pid < total ∧ page.pageId = pid ∧ count = slotCount (view pid) ∧ sid ≤ count
  | .inSlot pid page count sid record =>
      pid < total ∧ page.pageId = pid ∧ count = slotCount (view pid) ∧ sid < count ∧
        record.pageId = pid ∧ pageMap.lookup pid = some record.frame
  | .afterSlots pid page => pid < total ∧ page.pageId = pid
  | .done => True
  | .threw _ => False

/-- The visits still to come; `none` when a slot on the way leads outside its page. -/
def rest (view : Nat → RawPage) (total : Nat) : ScanPoint → Option (List (RecordID × Record))
  | .atPage pid => pagesVisits view (total - pid) pid
  | .atSlot pid _ count sid | .inSlot pid _ count sid _ =>
      (slotVisits pid (view pid) (count - sid) sid).bind fun vs =>
        (pagesVisits view (total - (pid + 1)) (pid + 1)).map fun ws => vs ++ ws
  | .afterSlots pid _ => pagesVisits view (total - (pid + 1)) (pid + 1)
  | .done => some []
  | .threw _ => none

end ScanPoint

/-- The turns the scan needs for `n` pages from page `pid` on: a fetch, two turns for each slot, the
start of the prefetch threads, and a release for each page. -/
def pagesTurns (view : Nat → RawPage) : Nat → Nat → Nat
  | 0, _ => 0
  | n + 1, pid => 2 * slotCount (view pid) + 3 + pagesTurns view n (pid + 1)

/-- The turns the scan still needs. -/
def ScanPoint.turnsLeft (view : Nat → RawPage) (total : Nat) : ScanPoint → Nat
  | .atPage pid => pagesTurns view (total - pid) pid + 1
  | .atSlot pid _ count sid => 2 * (count - sid) + 2 + pagesTurns view (total - (pid + 1)) (pid + 1) + 1
  | .inSlot pid _ count sid _ =>
      2 * (count - sid) + 1 + pagesTurns view (total - (pid + 1)) (pid + 1) + 1
  | .afterSlots pid _ => 1 + pagesTurns view (total - (pid + 1)) (pid + 1) + 1
  | .done => 0
  | .threw _ => 0

namespace ScanWorld

variable {σ : Type}

/-- The pins on a page: those of the scanning thread and those of the prefetch threads. -/
def pins (w : ScanWorld σ) (q : Nat) : Nat :=
  w.point.pins q + w.threads.countP (PrefetchThread.holds q)

/-- **The invariant of the scan and its threads**: the pins of the cache are theirs, the file is as at
the start, and the threads work on pages the scan has asked for. -/
structure ScanInv (e₀ : StorageEngine) (w : ScanWorld σ) : Prop where
  ready : w.engine.Ready w.pins
  file : w.engine.file = e₀.file
  capacity : w.engine.cache.pool.length = e₀.cache.pool.length
  total : w.totalPages = e₀.getTotalPages
  asked : ∀ t ∈ w.threads, ∀ p, t.page? = some p → 1 ≤ p ∧ p < e₀.getTotalPages
  first : w.point = .atPage 0 → w.threads = []
  placed : w.point.Placed e₀.view e₀.getTotalPages w.engine.cache.pageMap

theorem scanInv_start {e : StorageEngine} (h : e.Idle) (s : σ) : ScanInv e (start e s) where
  ready := h
  file := rfl
  capacity := rfl
  total := rfl
  asked := by simp [start]
  first _ := rfl
  placed := Nat.zero_le _

/-- A fetch by the scanning thread adds a pin of its own. -/
theorem update_pins_succ {w : ScanWorld σ} {point : ScanPoint} {pid : Nat}
    (h : ∀ q, point.pins q = w.point.pins q + if q = pid then 1 else 0) (q : Nat) :
    Function.update w.pins pid (w.pins pid + 1) q =
      point.pins q + w.threads.countP (PrefetchThread.holds q) := by
  have hsame : Function.update w.pins pid (w.pins pid + 1) =
      fun k => point.pins k + w.threads.countP (PrefetchThread.holds k) := by
    refine Schedule.update_succ_eq fun k => ?_
    unfold pins
    rw [h k]
    omega
  exact congrFun hsame q

/-- A release by the scanning thread takes a pin of its own away. -/
theorem update_pins_pred {w : ScanWorld σ} {point : ScanPoint} {pid : Nat}
    (h : ∀ q, w.point.pins q = point.pins q + if q = pid then 1 else 0) (q : Nat) :
    Function.update w.pins pid (w.pins pid - 1) q =
      point.pins q + w.threads.countP (PrefetchThread.holds q) := by
  have hsame : Function.update w.pins pid (w.pins pid - 1) =
      fun k => point.pins k + w.threads.countP (PrefetchThread.holds k) := by
    refine Schedule.update_pred_eq fun k => ?_
    unfold pins
    rw [h k]
    omega
  exact congrFun hsame q

namespace ScanInv

variable {e₀ : StorageEngine} {w : ScanWorld σ} {pid count sid : Nat} {page record : PageHandle}

theorem total_eq (h : ScanInv e₀ w) : w.engine.getTotalPages = e₀.getTotalPages := by
  unfold getTotalPages
  rw [h.file]

theorem view_eq (h : ScanInv e₀ w) : w.engine.view = e₀.view := by
  funext p
  unfold view
  rw [h.file]

/-! ## The turns of the scanning thread -/

/-- The scan fetches a page for which a frame can be had. -/
theorem fetchTurn (h : ScanInv e₀ w) (callback : Callback σ) (hpoint : w.point = .atPage pid)
    (hlt : pid < e₀.getTotalPages)
    (hroom : ¬ (w.engine.cache.pageMap.lookup pid = none ∧ w.engine.cache.Full)) :
    ∃ page, (w.scanTurn callback).point = .atSlot pid page (slotCount (e₀.view pid)) 0 ∧
      (w.scanTurn callback).threads = w.threads ∧ (w.scanTurn callback).state = w.state ∧
      ScanInv e₀ (w.scanTurn callback) := by
  rcases fetchPage_outcome h.ready (by rw [h.total_eq]; exact hlt) with
    ⟨-, hd, e', heq, hf⟩ | ⟨hnone, hfull, -⟩
  · have hturn : w.scanTurn callback =
        { w with engine := e', point := .atSlot pid hd (slotCount (e₀.view pid)) 0 } := by
      unfold scanTurn
      rw [hpoint]
      simp only
      rw [h.total, if_pos hlt, heq]
      simp only [hf.shows, h.view_eq]
    rw [hturn]
    refine ⟨hd, rfl, rfl, rfl, ?_⟩
    refine ⟨?_, hf.file.trans h.file, hf.capacity.trans h.capacity, h.total, h.asked, ?_, ?_⟩
    · refine hf.ready.congr (update_pins_succ fun q => ?_)
      rw [hpoint]
      simp only [ScanPoint.pins]
      split <;> rfl
    · exact fun hfirst => absurd hfirst (by simp)
    · exact ⟨hlt, hf.pageId, rfl, Nat.zero_le _⟩
  · exact absurd ⟨hnone, hfull⟩ hroom

/-- The scan enters `read_record`: its page is pinned, so the fetch is a hit. -/
theorem slotTurn (h : ScanInv e₀ w) (callback : Callback σ)
    (hpoint : w.point = .atSlot pid page count sid) (hlt : sid < count) :
    ∃ record, (w.scanTurn callback).point = .inSlot pid page count sid record ∧
      (w.scanTurn callback).threads = w.threads ∧ (w.scanTurn callback).state = w.state ∧
      ScanInv e₀ (w.scanTurn callback) := by
  have hplaced := h.placed
  rw [hpoint] at hplaced
  obtain ⟨hpid, hpage, hcount, -⟩ := hplaced
  have hpinned : 0 < w.pins pid := by
    unfold pins
    rw [hpoint]
    simp only [ScanPoint.pins, if_true]
    omega
  rcases fetchPage_outcome h.ready (by rw [h.total_eq]; exact hpid) with
    ⟨-, hd, e', heq, hf⟩ | ⟨hnone, -, -⟩
  · have hturn : w.scanTurn callback =
        { w with engine := e', point := .inSlot pid page count sid hd } := by
      unfold scanTurn
      rw [hpoint]
      simp only
      rw [if_pos hlt, if_neg (by rw [h.total_eq]; omega), heq]
    rw [hturn]
    refine ⟨hd, rfl, rfl, rfl, ?_⟩
    refine ⟨?_, hf.file.trans h.file, hf.capacity.trans h.capacity, h.total, h.asked, ?_, ?_⟩
    · refine hf.ready.congr (update_pins_succ fun q => ?_)
      rw [hpoint]
      simp only [ScanPoint.pins]
      split <;> rfl
    · exact fun hfirst => absurd hfirst (by simp)
    · exact ⟨hpid, hpage, hcount, hlt, hf.pageId, hf.resident⟩
  · rw [← h.ready.pins_eq] at hpinned
    obtain ⟨f, hf⟩ := PageCache.resident_of_pinned hpinned
    rw [hnone] at hf
    exact absurd hf (by simp)

/-- What a scan makes of one slot. -/
def slotVisit (pid sid : Nat) : RecordRead → List (RecordID × Record)
  | .found r => [(⟨pid, sid⟩, r)]
  | _ => []

/-- The scan reads the record, releases its handle, and calls the callback. -/
theorem recordTurn (h : ScanInv e₀ w) (callback : Callback σ)
    (hpoint : w.point = .inSlot pid page count sid record)
    (hinside : parseRecord (e₀.view pid) sid ≠ .outside) :
    (w.scanTurn callback).point = .atSlot pid page count (sid + 1) ∧
      (w.scanTurn callback).threads = w.threads ∧
      (w.scanTurn callback).state =
        runCallback callback (slotVisit pid sid (parseRecord (e₀.view pid) sid)) w.state ∧
      ScanInv e₀ (w.scanTurn callback) := by
  have hplaced := h.placed
  rw [hpoint] at hplaced
  obtain ⟨hpid, hpage, hcount, hlt, hrecord, hres⟩ := hplaced
  -- the frame of the record's page still shows the page as it was
  have hshows : w.engine.pageOf record = e₀.view pid := by
    have hframe := h.ready.coherent.shows pid record.frame hres
    unfold pageOf PageCache.pageOf
    rw [List.getD_eq_getElem?_getD, hframe, Option.getD_some, ← h.view_eq]
    rfl
  obtain ⟨hready, hfile⟩ := releasePage_spec h.ready record
  obtain ⟨hmap, hpool⟩ := releasePage_cache h.ready record
  have hturn : w.scanTurn callback =
      { w with
        engine := w.engine.releasePage record
        point := .atSlot pid page count (sid + 1)
        state := runCallback callback (slotVisit pid sid (parseRecord (e₀.view pid) sid))
          w.state } := by
    unfold scanTurn
    rw [hpoint]
    simp only [hshows]
    cases hparse : parseRecord (e₀.view pid) sid with
    | outside => exact absurd hparse hinside
    | absent => rfl
    | found r => rfl
  rw [hturn]
  refine ⟨rfl, rfl, rfl, ?_⟩
  refine ⟨?_, hfile.trans h.file, ?_, h.total, h.asked, ?_, ⟨hpid, hpage, hcount, hlt⟩⟩
  · -- the handle that is released is the pin that goes
    rw [hrecord] at hready
    refine hready.congr (update_pins_pred fun q => ?_)
    rw [hpoint]
    simp only [ScanPoint.pins]
    split <;> rfl
  · rw [hpool]
    exact h.capacity
  · exact fun hfirst => absurd hfirst (by simp)

/-- A thread that has just been started holds nothing. -/
theorem countP_started (threads : List PrefetchThread) (pages : List Nat) (q : Nat) :
    (threads ++ pages.map PrefetchThread.started).countP (PrefetchThread.holds q) =
      threads.countP (PrefetchThread.holds q) := by
  rw [List.countP_append, Nat.add_eq_left, List.countP_eq_zero]
  intro t ht
  obtain ⟨p, -, rfl⟩ := List.mem_map.mp ht
  simp [PrefetchThread.holds]

/-- The pages asked for are behind the page just scanned, and exist. -/
theorem mem_lookahead {total pid p : Nat} (hp : p ∈ lookahead total pid) : pid < p ∧ p < total := by
  unfold lookahead at hp
  have hlt := List.mem_takeWhile_imp hp
  obtain ⟨k, -, rfl⟩ := List.mem_map.mp ((List.takeWhile_prefix _).subset hp)
  simp only [decide_eq_true_eq] at hlt
  omega

/-- In range, `prefetch_page` starts a thread. -/
theorem prefetch_foldl (e : StorageEngine) (pages : List Nat) (threads : List PrefetchThread)
    (h : ∀ p ∈ pages, p < e.getTotalPages) :
    pages.foldl (fun ts p => e.prefetchPage p ts) threads =
      threads ++ pages.map PrefetchThread.started := by
  induction pages generalizing threads with
  | nil => simp
  | cons p pages ih =>
      have hp := h p List.mem_cons_self
      rw [List.foldl_cons, ih _ fun q hq => h q (List.mem_cons_of_mem _ hq), prefetchPage,
        if_neg (by omega), List.map_cons, List.append_assoc]
      rfl

/-- After the last slot the scan starts the prefetch threads. -/
theorem prefetchTurn (h : ScanInv e₀ w) (callback : Callback σ)
    (hpoint : w.point = .atSlot pid page count count) :
    (w.scanTurn callback).point = .afterSlots pid page ∧
      (w.scanTurn callback).threads =
        w.threads ++ (lookahead e₀.getTotalPages pid).map PrefetchThread.started ∧
      (w.scanTurn callback).state = w.state ∧ ScanInv e₀ (w.scanTurn callback) := by
  have hplaced := h.placed
  rw [hpoint] at hplaced
  obtain ⟨hpid, hpage, hcount, -⟩ := hplaced
  have hturn : w.scanTurn callback =
      { w with
        threads := w.threads ++ (lookahead e₀.getTotalPages pid).map PrefetchThread.started
        point := .afterSlots pid page } := by
    unfold scanTurn
    rw [hpoint]
    simp only
    rw [if_neg (lt_irrefl _), h.total, prefetch_foldl]
    intro p hp
    rw [h.total_eq]
    exact (mem_lookahead hp).2
  rw [hturn]
  refine ⟨rfl, rfl, rfl, ?_⟩
  refine ⟨?_, h.file, h.capacity, h.total, ?_, ?_, ⟨hpid, hpage⟩⟩
  · refine h.ready.congr fun q => ?_
    unfold pins
    rw [hpoint]
    simp only [countP_started]
    rfl
  · intro t ht p hp
    rcases List.mem_append.mp ht with ht | ht
    · exact h.asked t ht p hp
    · obtain ⟨q, hq, rfl⟩ := List.mem_map.mp ht
      cases hp
      have hrange := mem_lookahead hq
      omega
  · exact fun hfirst => absurd hfirst (by simp)

/-- The scan releases its page. -/
theorem releaseTurn (h : ScanInv e₀ w) (callback : Callback σ)
    (hpoint : w.point = .afterSlots pid page) :
    (w.scanTurn callback).point = .atPage (pid + 1) ∧
      (w.scanTurn callback).threads = w.threads ∧ (w.scanTurn callback).state = w.state ∧
      ScanInv e₀ (w.scanTurn callback) := by
  have hplaced := h.placed
  rw [hpoint] at hplaced
  obtain ⟨hpid, hpage⟩ := hplaced
  obtain ⟨hready, hfile⟩ := releasePage_spec h.ready page
  obtain ⟨-, hpool⟩ := releasePage_cache h.ready page
  have hturn : w.scanTurn callback =
      { w with engine := w.engine.releasePage page, point := .atPage (pid + 1) } := by
    unfold scanTurn
    rw [hpoint]
  rw [hturn]
  refine ⟨rfl, rfl, rfl, ?_⟩
  refine ⟨?_, hfile.trans h.file, ?_, h.total, h.asked, ?_, hpid⟩
  · rw [hpage] at hready
    refine hready.congr (update_pins_pred fun q => ?_)
    rw [hpoint]
    simp only [ScanPoint.pins]
    omega
  · rw [hpool]
    exact h.capacity
  · exact fun hfirst => absurd hfirst (by simp)

/-- Behind the last page the scan is done. -/
theorem lastTurn (h : ScanInv e₀ w) (callback : Callback σ)
    (hpoint : w.point = .atPage e₀.getTotalPages) :
    (w.scanTurn callback).point = .done ∧ (w.scanTurn callback).state = w.state ∧
      ScanInv e₀ (w.scanTurn callback) := by
  have hturn : w.scanTurn callback = { w with point := .done } := by
    unfold scanTurn
    rw [hpoint]
    simp only
    rw [h.total, if_neg (lt_irrefl _)]
  rw [hturn]
  refine ⟨rfl, rfl, ?_, h.file, h.capacity, h.total, h.asked, ?_, trivial⟩
  · refine h.ready.congr fun q => ?_
    unfold pins
    rw [hpoint]
    rfl
  · exact fun hfirst => absurd hfirst (by simp)

/-! ## The turns of the prefetch threads -/

/-- A page map that keeps the pinned pages keeps the scan in place. -/
theorem Placed.congr {point : ScanPoint} {view : Nat → RawPage} {total : Nat}
    {m m' : AList fun _ : Nat => Nat} (h : point.Placed view total m)
    (hkept : ∀ p f, 0 < point.pins p → m.lookup p = some f → m'.lookup p = some f) :
    point.Placed view total m' := by
  cases point with
  | inSlot pid page count sid record =>
      obtain ⟨hpid, hpage, hcount, hlt, hrecord, hres⟩ := h
      exact ⟨hpid, hpage, hcount, hlt, hrecord, hkept _ _ (by simp [ScanPoint.pins]) hres⟩
  | atPage pid => exact h
  | atSlot pid page count sid => exact h
  | afterSlots pid page => exact h
  | done => exact h
  | threw err => exact h

/-- The pages of the threads when one of them has taken a step. -/
theorem asked_set (h : ScanInv e₀ w) {i : Nat} {t t' : PrefetchThread}
    (hi : w.threads[i]? = some t) (hpage : ∀ p, t'.page? = some p → t.page? = some p) :
    ∀ u ∈ w.threads.set i t', ∀ p, u.page? = some p → 1 ≤ p ∧ p < e₀.getTotalPages := by
  intro u hu p hp
  rcases List.mem_or_eq_of_mem_set hu with hu | rfl
  · exact h.asked u hu p hp
  · exact h.asked t (List.mem_of_getElem? hi) p (hpage p hp)

/-- A prefetch thread fetches its page, or ends on an exception. -/
theorem startedTurn (h : ScanInv e₀ w) {i p : Nat} (hi : w.threads[i]? = some (.started p)) :
    ScanInv e₀ (w.threadTurn i) ∧ (w.threadTurn i).point = w.point ∧
      (w.threadTurn i).state = w.state ∧
      (¬ w.engine.cache.Full →
        ∃ hd : PageHandle, hd.pageId = p ∧ (w.threadTurn i).threads = w.threads.set i (.holding hd)) := by
  have hp := h.asked _ (List.mem_of_getElem? hi) p rfl
  have hfirst : ∀ t', w.point = .atPage 0 → w.threads.set i t' = [] := by
    intro t' hpoint
    rw [h.first hpoint] at hi
    exact absurd hi (by simp)
  rcases fetchPage_outcome h.ready (by rw [h.total_eq]; exact hp.2) with
    ⟨-, hd, e', heq, hf⟩ | ⟨hnone, hfull, e', heq, hready, hfile, hmap, hpool⟩
  · have hturn : w.threadTurn i =
        { w with engine := e', threads := w.threads.set i (.holding hd) } := by
      unfold threadTurn
      rw [hi]
      simp only [heq]
    rw [hturn]
    refine ⟨⟨?_, hf.file.trans h.file, hf.capacity.trans h.capacity, h.total, ?_, hfirst _, ?_⟩,
      rfl, rfl, fun _ => ⟨hd, hf.pageId, rfl⟩⟩
    · -- the thread's handle is the new pin
      refine hf.ready.congr (congrFun (Schedule.update_succ_eq fun q => ?_))
      have hset := Schedule.countP_set_add hi (.holding hd) (PrefetchThread.holds q)
      simp only [PrefetchThread.holds, hf.pageId, Bool.false_eq_true, if_false, beq_iff_eq,
        eq_comm (a := p)] at hset
      unfold pins
      dsimp only
      omega
    · refine h.asked_set hi ?_
      intro q hq
      rw [← hq]
      simp only [PrefetchThread.page?, hf.pageId]
    · refine Placed.congr h.placed fun q f hpin hq => hf.kept q f ?_ hq
      have hpin : 0 < w.point.pins q := hpin
      unfold pins
      omega
  · have hturn : w.threadTurn i =
        { w with engine := e', threads := w.threads.set i .finished } := by
      unfold threadTurn
      rw [hi]
      simp only [heq]
    rw [hturn]
    refine ⟨⟨?_, hfile.trans h.file, by rw [hpool]; exact h.capacity, h.total, ?_, hfirst _, ?_⟩,
      rfl, rfl, fun hnot => absurd hfull hnot⟩
    · refine hready.congr fun q => ?_
      have hset := Schedule.countP_set_add hi .finished (PrefetchThread.holds q)
      simp only [PrefetchThread.holds, Bool.false_eq_true, if_false] at hset
      simp only [pins]
      omega
    · exact h.asked_set hi fun q hq => absurd hq (by simp [PrefetchThread.page?])
    · exact Placed.congr h.placed fun q f _ hq => by rw [hmap]; exact hq

/-- A prefetch thread drops its handle. -/
theorem holdingTurn (h : ScanInv e₀ w) {i : Nat} {hd : PageHandle}
    (hi : w.threads[i]? = some (.holding hd)) :
    ScanInv e₀ (w.threadTurn i) ∧ (w.threadTurn i).point = w.point ∧
      (w.threadTurn i).state = w.state := by
  obtain ⟨hready, hfile⟩ := releasePage_spec h.ready hd
  obtain ⟨hmap, hpool⟩ := releasePage_cache h.ready hd
  have hturn : w.threadTurn i =
      { w with engine := w.engine.releasePage hd, threads := w.threads.set i .finished } := by
    unfold threadTurn
    rw [hi]
  rw [hturn]
  refine ⟨⟨?_, hfile.trans h.file, by rw [hpool]; exact h.capacity, h.total, ?_, ?_, ?_⟩, rfl, rfl⟩
  · -- the handle was the thread's only pin
    refine hready.congr (congrFun (Schedule.update_pred_eq fun q => ?_))
    have hset := Schedule.countP_set_add hi .finished (PrefetchThread.holds q)
    simp only [PrefetchThread.holds, Bool.false_eq_true, if_false, beq_iff_eq,
      eq_comm (a := hd.pageId)] at hset
    unfold pins
    dsimp only
    omega
  · exact h.asked_set hi fun q hq => absurd hq (by simp [PrefetchThread.page?])
  · intro hpoint
    rw [h.first hpoint] at hi
    exact absurd hi (by simp)
  · exact Placed.congr h.placed fun q f _ hq => by rw [hmap]; exact hq

/-- **A turn of a prefetch thread keeps the invariant** and leaves the scan where it is. -/
theorem threadTurn (h : ScanInv e₀ w) (i : Nat) :
    ScanInv e₀ (w.threadTurn i) ∧ (w.threadTurn i).point = w.point ∧
      (w.threadTurn i).state = w.state := by
  cases hi : w.threads[i]? with
  | none =>
      have hturn : w.threadTurn i = w := by
        unfold ScanWorld.threadTurn
        rw [hi]
      rw [hturn]
      exact ⟨h, rfl, rfl⟩
  | some t =>
      cases t with
      | started p =>
          obtain ⟨hinv, hpoint, hstate, -⟩ := h.startedTurn hi
          exact ⟨hinv, hpoint, hstate⟩
      | holding hd => exact h.holdingTurn hi
      | finished =>
          have hturn : w.threadTurn i = w := by
            unfold ScanWorld.threadTurn
            rw [hi]
          rw [hturn]
          exact ⟨h, rfl, rfl⟩

/-! ## Frames for the scan -/

/-- The pinned pages, for a scan that is about to fetch a page. -/
theorem mem_pinned (h : ScanInv e₀ w) (hpoint : w.point = .atPage pid) {q : Nat}
    (hq : 0 < w.engine.cache.pinOf q) : 1 ≤ q ∧ q < e₀.getTotalPages := by
  rw [h.ready.pins_eq] at hq
  unfold pins at hq
  rw [hpoint] at hq
  -- the scan holds nothing here, so a thread does
  obtain ⟨t, ht, hholds⟩ := List.countP_pos_iff.mp (by simpa [ScanPoint.pins] using hq)
  cases t with
  | holding hd =>
      simp only [PrefetchThread.holds, beq_iff_eq] at hholds
      exact h.asked _ ht q (by simp [PrefetchThread.page?, hholds])
  | started p => simp [PrefetchThread.holds] at hholds
  | finished => simp [PrefetchThread.holds] at hholds

/-- **A frame is left for the scan** as long as the file has at most one page more than the cache has
frames: page 0 is fetched before any thread is started, and a later page leaves the threads at most
`total - 2` pages to pin. -/
theorem room (h : ScanInv e₀ w) (hpoint : w.point = .atPage pid) (hlt : pid < e₀.getTotalPages)
    (hfits : e₀.getTotalPages ≤ e₀.cache.pool.length + 1) :
    ¬ (w.engine.cache.pageMap.lookup pid = none ∧ w.engine.cache.Full) := by
  rintro ⟨hnone, hfull⟩
  obtain ⟨pinned, hpinned⟩ : ∃ pinned : Finset Nat,
      ∀ p, p ∈ pinned ↔ 0 < w.engine.cache.pinOf p := by
    refine ⟨(Finset.Ico 1 e₀.getTotalPages).filter fun p => 0 < w.engine.cache.pinOf p, fun p => ?_⟩
    rw [Finset.mem_filter, Finset.mem_Ico]
    exact ⟨fun hp => hp.2, fun hp => ⟨h.mem_pinned hpoint hp, hp⟩⟩
  have hcard := (PageCache.card_pinned_iff h.ready.coherent.toPool hpinned).mpr hfull
  rw [h.capacity] at hcard
  have hcapacity := h.ready.capacity
  rw [h.capacity] at hcapacity
  -- the threads' pages lie behind page 0 and are not the page of the fetch
  have hsub : pinned ⊆ (Finset.Ico 1 e₀.getTotalPages).erase pid := by
    intro p hp
    have hpos := (hpinned p).mp hp
    rw [Finset.mem_erase, Finset.mem_Ico]
    refine ⟨?_, h.mem_pinned hpoint hpos⟩
    rintro rfl
    rw [PageCache.pinOf, hnone] at hpos
    exact absurd hpos (lt_irrefl 0)
  have hle := Finset.card_le_card hsub
  by_cases hzero : pid = 0
  · -- no thread has been started yet
    subst hzero
    obtain ⟨p, hp⟩ := Finset.card_pos.mp (by omega : 0 < pinned.card)
    have hpos := (hpinned p).mp hp
    rw [h.ready.pins_eq] at hpos
    unfold pins at hpos
    rw [hpoint, h.first hpoint] at hpos
    exact absurd hpos (by simp [ScanPoint.pins])
  · rw [Finset.card_erase_of_mem (by rw [Finset.mem_Ico]; omega), Nat.card_Ico] at hle
    omega

end ScanInv

/-! ## Scans that fit the cache -/

section Fits

variable {view : Nat → RawPage} {total pid count sid : Nat} {page record : PageHandle}

theorem rest_atPage (hlt : pid < total) :
    (ScanPoint.atPage pid).rest view total =
      (ScanPoint.atSlot pid page (slotCount (view pid)) 0).rest view total := by
  unfold ScanPoint.rest
  simp only
  rw [show total - pid = total - (pid + 1) + 1 by omega, Nat.sub_zero]
  simp only [pagesVisits]
  -- entering a page splits its visits off
  cases slotVisits pid (view pid) (slotCount (view pid)) 0 <;> rfl

theorem rest_endSlots :
    (ScanPoint.atSlot pid page count count).rest view total =
      (ScanPoint.afterSlots pid page).rest view total := by
  unfold ScanPoint.rest
  simp only [Nat.sub_self, slotVisits, Option.bind_some, List.nil_append]
  exact Option.map_id'

/-- The visit of a slot, and the visits behind it. -/
theorem rest_inSlot (hlt : sid < count) {vs : List (RecordID × Record)}
    (h : (ScanPoint.inSlot pid page count sid record).rest view total = some vs) :
    parseRecord (view pid) sid ≠ .outside ∧
      ∃ ws, (ScanPoint.atSlot pid page count (sid + 1)).rest view total = some ws ∧
        vs = ScanInv.slotVisit pid sid (parseRecord (view pid) sid) ++ ws := by
  unfold ScanPoint.rest at h ⊢
  simp only at h ⊢
  rw [show count - sid = count - (sid + 1) + 1 by omega] at h
  simp only [slotVisits] at h
  cases hparse : parseRecord (view pid) sid with
  | outside =>
      rw [hparse] at h
      exact absurd h (by simp)
  | absent =>
      rw [hparse] at h
      exact ⟨by simp, vs, h, rfl⟩
  | found r =>
      rw [hparse] at h
      refine ⟨by simp, ?_⟩
      cases hslots : slotVisits pid (view pid) (count - (sid + 1)) (sid + 1) with
      | none =>
          rw [hslots] at h
          exact absurd h (by simp)
      | some us =>
          rw [hslots] at h
          cases hpages : pagesVisits view (total - (pid + 1)) (pid + 1) with
          | none =>
              rw [hpages] at h
              exact absurd h (by simp)
          | some ws =>
              rw [hpages] at h
              refine ⟨us ++ ws, rfl, ?_⟩
              simp only [Option.map_some, Option.bind_some, Option.some.injEq] at h
              rw [← h]
              rfl

end Fits

/-- The scan is under way, and what is still to come takes the callback to `final`. -/
structure Heading (callback : Callback σ) (e₀ : StorageEngine) (final : σ) (w : ScanWorld σ) :
    Prop where
  inv : ScanInv e₀ w
  rest : ∃ vs, w.point.rest e₀.view e₀.getTotalPages = some vs ∧
    runCallback callback vs w.state = final

namespace Heading

variable {callback : Callback σ} {e₀ : StorageEngine} {final : σ} {w : ScanWorld σ}

/-- A turn that delivers nothing. -/
theorem silent (h : Heading callback e₀ final w) {w' : ScanWorld σ} (hinv : ScanInv e₀ w')
    (hstate : w'.state = w.state)
    (hrest : w'.point.rest e₀.view e₀.getTotalPages = w.point.rest e₀.view e₀.getTotalPages) :
    Heading callback e₀ final w' := by
  obtain ⟨vs, hvs, hfinal⟩ := h.rest
  exact ⟨hinv, vs, hrest.trans hvs, by rw [hstate]; exact hfinal⟩

/-- **Each turn of the scanning thread brings the scan one step nearer to its end.** -/
theorem scanTurn (h : Heading callback e₀ final w)
    (hfits : e₀.getTotalPages ≤ e₀.cache.pool.length + 1) :
    Heading callback e₀ final (w.scanTurn callback) ∧
      (w.scanTurn callback).point.turnsLeft e₀.view e₀.getTotalPages =
        w.point.turnsLeft e₀.view e₀.getTotalPages - 1 := by
  have hinv := h.inv
  have hplaced := hinv.placed
  cases hpoint : w.point with
  | atPage pid =>
      rw [hpoint] at hplaced
      rcases Nat.lt_or_eq_of_le hplaced with hlt | rfl
      · -- a page is left to fetch: a frame can be had
        obtain ⟨page, hpt, -, hstate, hinv'⟩ :=
          hinv.fetchTurn callback hpoint hlt (hinv.room hpoint hlt hfits)
        refine ⟨h.silent hinv' hstate (by rw [hpt, hpoint, rest_atPage hlt]), ?_⟩
        rw [hpt]
        unfold ScanPoint.turnsLeft
        simp only
        rw [show e₀.getTotalPages - pid = e₀.getTotalPages - (pid + 1) + 1 by omega]
        simp only [pagesTurns]
        omega
      · obtain ⟨hpt, hstate, hinv'⟩ := hinv.lastTurn callback hpoint
        refine ⟨h.silent hinv' hstate ?_, ?_⟩
        · rw [hpt, hpoint]
          simp only [ScanPoint.rest, Nat.sub_self, pagesVisits]
        · rw [hpt]
          simp only [ScanPoint.turnsLeft, Nat.sub_self, pagesTurns]
  | atSlot pid page count sid =>
      rw [hpoint] at hplaced
      rcases Nat.lt_or_eq_of_le hplaced.2.2.2 with hlt | rfl
      · -- a slot is left, or the page is done
        obtain ⟨record, hpt, -, hstate, hinv'⟩ := hinv.slotTurn callback hpoint hlt
        refine ⟨h.silent hinv' hstate (by rw [hpt, hpoint]; rfl), ?_⟩
        rw [hpt]
        simp only [ScanPoint.turnsLeft]
        omega
      · obtain ⟨hpt, -, hstate, hinv'⟩ := hinv.prefetchTurn callback hpoint
        refine ⟨h.silent hinv' hstate (by rw [hpt, hpoint, rest_endSlots]), ?_⟩
        rw [hpt]
        simp only [ScanPoint.turnsLeft]
        omega
  | inSlot pid page count sid record =>
      rw [hpoint] at hplaced
      obtain ⟨-, -, -, hlt, -⟩ := hplaced
      obtain ⟨vs, hvs, hfinal⟩ := h.rest
      rw [hpoint] at hvs
      -- this turn alone delivers something
      obtain ⟨hinside, ws, hws, rfl⟩ := rest_inSlot hlt hvs
      obtain ⟨hpt, -, hstate, hinv'⟩ := hinv.recordTurn callback hpoint hinside
      refine ⟨⟨hinv', ws, by rw [hpt]; exact hws, ?_⟩, ?_⟩
      · rw [hstate, ← runCallback_append]
        exact hfinal
      · rw [hpt]
        simp only [ScanPoint.turnsLeft]
        omega
  | afterSlots pid page =>
      obtain ⟨hpt, -, hstate, hinv'⟩ := hinv.releaseTurn callback hpoint
      refine ⟨h.silent hinv' hstate (by rw [hpt, hpoint]; rfl), ?_⟩
      rw [hpt]
      simp only [ScanPoint.turnsLeft]
      omega
  | done =>
      have hturn : w.scanTurn callback = w := by
        unfold ScanWorld.scanTurn
        rw [hpoint]
      rw [hturn, hpoint]
      exact ⟨h, rfl⟩
  | threw err =>
      rw [hpoint] at hplaced
      exact absurd hplaced (by simp [ScanPoint.Placed])

/-- Each turn keeps the scan on its way, and the scanning thread's turns count it down. -/
theorem turn (h : Heading callback e₀ final w)
    (hfits : e₀.getTotalPages ≤ e₀.cache.pool.length + 1) (t : Turn) :
    Heading callback e₀ final (w.turn callback t) ∧
      (w.turn callback t).point.turnsLeft e₀.view e₀.getTotalPages =
        if t == .scan then w.point.turnsLeft e₀.view e₀.getTotalPages - 1
        else w.point.turnsLeft e₀.view e₀.getTotalPages := by
  cases t with
  | scan => exact h.scanTurn hfits
  | thread i =>
      obtain ⟨hinv, hpoint, hstate⟩ := h.inv.threadTurn i
      exact ⟨h.silent hinv hstate (congrArg (ScanPoint.rest e₀.view e₀.getTotalPages) hpoint),
        congrArg (ScanPoint.turnsLeft e₀.view e₀.getTotalPages) hpoint⟩

/-- With no turns left the scan is done, and it has delivered everything. -/
theorem done_of_turnsLeft (h : Heading callback e₀ final w)
    (hzero : w.point.turnsLeft e₀.view e₀.getTotalPages = 0) :
    w.point = .done ∧ w.state = final := by
  have hplaced := h.inv.placed
  obtain ⟨vs, hvs, hfinal⟩ := h.rest
  cases hpoint : w.point with
  | done =>
      rw [hpoint] at hvs
      cases hvs
      exact ⟨rfl, hfinal⟩
  | threw err =>
      rw [hpoint] at hplaced
      exact absurd hplaced (by simp [ScanPoint.Placed])
  | atPage pid => simp [hpoint, ScanPoint.turnsLeft] at hzero
  | atSlot pid page count sid => simp [hpoint, ScanPoint.turnsLeft] at hzero
  | inSlot pid page count sid record => simp [hpoint, ScanPoint.turnsLeft] at hzero
  | afterSlots pid page => simp [hpoint, ScanPoint.turnsLeft] at hzero

end Heading

/-- **On a file that fits**, prefetching does not show. -/
theorem prefetchTransparent_of_fits (callback : Callback σ) {e : StorageEngine} (h : e.Idle) (s : σ)
    (hparses : (pagesVisits e.view e.getTotalPages 0).isSome)
    (hfits : e.getTotalPages ≤ e.cache.pool.length + 1) : PrefetchTransparent callback e s := by
  obtain ⟨vs, hvs⟩ := Option.isSome_iff_exists.mp hparses
  obtain ⟨e', -, -, hscan⟩ := scan_found callback h s
  rw [hvs] at hscan
  refine ⟨e', runCallback callback vs s, hscan,
    (start e s).point.turnsLeft e.view e.getTotalPages, ?_⟩
  intro schedule w hw
  have hstart : Heading callback e (runCallback callback vs s) (start e s) :=
    ⟨scanInv_start h s, vs, hvs, rfl⟩
  have hstep : ∀ w t, Heading callback e (runCallback callback vs s) w →
      Heading callback e (runCallback callback vs s) (w.turn callback t) :=
    fun w t hw => (hw.turn hfits t).1
  have hheading := Schedule.run_invariant hstep schedule hstart
  have hrank := Schedule.run_rank hstep
    (fun w => w.point.turnsLeft e.view e.getTotalPages)
    (fun w t hw => (hw.turn hfits t).2) schedule hstart
  rw [show Schedule.run (ScanWorld.turn callback) schedule (start e s) = w from hw.symm]
    at hheading hrank
  constructor
  · intro err herr
    have hplaced := hheading.inv.placed
    rw [herr] at hplaced
    exact hplaced
  · intro hturns
    refine hheading.done_of_turnsLeft ?_
    rw [hrank]
    exact Nat.sub_eq_zero_of_le hturns

end ScanWorld

end Aqa
