/-
# Aqa.Storage.PrefetchFull — a schedule under which prefetching stops a scan.

On a file of at least `capacity + 2` pages the threads can take every frame. The scan runs up to page
`capacity` while the thread of each page behind it fetches its page and keeps it; then the thread of
page `capacity + 1` takes the last frame, and the scan's own fetch throws. `Behind j` is the state
after `j` pages, and `behind_succ` the way from one page to the next. With `prefetchTransparent_of_fits`
this gives the exact condition (`prefetch_transparent_iff`).
-/
import Aqa.Storage.PrefetchScan

namespace Aqa

open Aqa.Lib StorageReader StorageEngine

namespace ScanWorld

variable {σ : Type} (callback : Callback σ) {e₀ : StorageEngine} {w : ScanWorld σ} {pid : Nat}

theorem reaches_scan (w : ScanWorld σ) : Schedule.Reaches (turn callback) w (w.scanTurn callback) :=
  (Schedule.Reaches.refl w).turn Turn.scan

theorem reaches_thread (w : ScanWorld σ) (i : Nat) :
    Schedule.Reaches (turn callback) w (w.threadTurn i) :=
  (Schedule.Reaches.refl w).turn (Turn.thread i)

/-- From slot `sid` of a page the scan reaches the next page, with its threads started. -/
theorem slots_reach {page : PageHandle} {count : Nat} (n : Nat) :
    ∀ (w : ScanWorld σ) (sid : Nat), ScanInv e₀ w → w.point = .atSlot pid page count sid →
      count - sid = n → (w.point.rest e₀.view e₀.getTotalPages).isSome →
      ∃ w', Schedule.Reaches (turn callback) w w' ∧ ScanInv e₀ w' ∧ w'.point = .atPage (pid + 1) ∧
        w'.threads = w.threads ++ (lookahead e₀.getTotalPages pid).map PrefetchThread.started ∧
        (w'.point.rest e₀.view e₀.getTotalPages).isSome := by
  induction n with
  | zero =>
      intro w sid h hpoint hn hrest
      have hplaced := h.placed
      rw [hpoint] at hplaced
      obtain ⟨hpid, -, -, hle⟩ := hplaced
      obtain rfl : sid = count := by omega
      obtain ⟨hpoint₁, hthreads₁, -, h₁⟩ := h.prefetchTurn callback hpoint
      obtain ⟨hpoint₂, hthreads₂, -, h₂⟩ := h₁.releaseTurn callback hpoint₁
      refine ⟨_, (reaches_scan callback w).trans (reaches_scan callback _), h₂, hpoint₂,
        hthreads₂.trans hthreads₁, ?_⟩
      rw [hpoint, rest_endSlots] at hrest
      rw [hpoint₂]
      exact hrest
  | succ n ih =>
      intro w sid h hpoint hn hrest
      obtain ⟨record, hpoint₁, hthreads₁, -, h₁⟩ := h.slotTurn callback hpoint (by omega)
      obtain ⟨vs, hvs⟩ := Option.isSome_iff_exists.mp hrest
      rw [hpoint] at hvs
      have hvs : (ScanPoint.inSlot pid page count sid record).rest e₀.view e₀.getTotalPages =
        some vs := hvs
      obtain ⟨hinside, ws, hws, -⟩ := rest_inSlot (by omega) hvs
      obtain ⟨hpoint₂, hthreads₂, -, h₂⟩ := h₁.recordTurn callback hpoint₁ hinside
      obtain ⟨w', hreach, hinv, hpt, hthreads, hlast⟩ := ih _ (sid + 1) h₂ hpoint₂ (by omega)
        (by rw [hpoint₂, hws]; rfl)
      refine ⟨w', ((reaches_scan callback w).trans (reaches_scan callback _)).trans hreach, hinv, hpt,
        ?_, hlast⟩
      rw [hthreads, hthreads₂, hthreads₁]

/-- From a page for which a frame can be had the scan reaches the next one. -/
theorem page_reach (h : ScanInv e₀ w) (hpoint : w.point = .atPage pid)
    (hlt : pid < e₀.getTotalPages)
    (hroom : ¬ (w.engine.cache.pageMap.lookup pid = none ∧ w.engine.cache.Full))
    (hrest : (w.point.rest e₀.view e₀.getTotalPages).isSome) :
    ∃ w', Schedule.Reaches (turn callback) w w' ∧ ScanInv e₀ w' ∧ w'.point = .atPage (pid + 1) ∧
      w'.threads = w.threads ++ (lookahead e₀.getTotalPages pid).map PrefetchThread.started ∧
      (w'.point.rest e₀.view e₀.getTotalPages).isSome := by
  obtain ⟨page, hpoint₁, hthreads₁, -, h₁⟩ := h.fetchTurn callback hpoint hlt hroom
  obtain ⟨w', hreach, hinv, hpt, hthreads, hlast⟩ := slots_reach callback _ _ 0 h₁
    hpoint₁ rfl (by rw [hpoint₁, ← rest_atPage hlt, ← hpoint]; exact hrest)
  exact ⟨w', (reaches_scan callback w).trans hreach, hinv, hpt, by rw [hthreads, hthreads₁], hlast⟩

/-- The scan is about to fetch page `j`, the pages `1 … j - 1` are pinned by their threads, and the
threads of the next two pages have not run yet. -/
structure Behind (e₀ : StorageEngine) (j : Nat) (w : ScanWorld σ) : Prop where
  inv : ScanInv e₀ w
  point : w.point = .atPage j
  rest : (w.point.rest e₀.view e₀.getTotalPages).isSome
  pinned : ∀ q, 0 < w.engine.cache.pinOf q ↔ 1 ≤ q ∧ q < j
  waiting : 1 ≤ j → .started j ∈ w.threads ∧ .started (j + 1) ∈ w.threads

/-- The pool is full exactly when as many pages are pinned as there are frames. -/
theorem ScanInv.full_iff (h : ScanInv e₀ w) {pinned : Finset Nat}
    (hpinned : ∀ q, 0 < w.engine.cache.pinOf q ↔ q ∈ pinned) :
    w.engine.cache.Full ↔ pinned.card = e₀.cache.pool.length := by
  rw [← PageCache.card_pinned_iff h.ready.coherent.toPool fun q => (hpinned q).symm, h.capacity]

/-- Replacing one thread keeps the others. -/
theorem mem_set_of_ne {threads : List PrefetchThread} {i : Nat} {t u v : PrefetchThread}
    (hi : threads[i]? = some t) (hu : u ∈ threads) (hne : u ≠ t) : u ∈ threads.set i v := by
  obtain ⟨k, hk⟩ := List.mem_iff_getElem?.mp hu
  refine List.mem_iff_getElem?.mpr ⟨k, ?_⟩
  rw [List.getElem?_set_ne, hk]
  rintro rfl
  rw [hi] at hk
  cases hk
  exact hne rfl

/-- A thread that has not run takes a frame for its page, when there is one. -/
theorem ScanInv.take (h : ScanInv e₀ w) {p : Nat} (hmem : PrefetchThread.started p ∈ w.threads)
    (hfull : ¬ w.engine.cache.Full) :
    ∃ w', Schedule.Reaches (turn callback) w w' ∧ ScanInv e₀ w' ∧ w'.point = w.point ∧
      (∀ q, 0 < w'.engine.cache.pinOf q ↔ 0 < w.engine.cache.pinOf q ∨ q = p) ∧
      ∀ u ∈ w.threads, u ≠ .started p → u ∈ w'.threads := by
  obtain ⟨i, hi⟩ := List.mem_iff_getElem?.mp hmem
  obtain ⟨hinv, hpoint, -, htook⟩ := h.startedTurn hi
  obtain ⟨hd, hpage, hthreads⟩ := htook hfull
  refine ⟨_, reaches_thread callback w i, hinv, hpoint, ?_, ?_⟩
  · intro q
    rw [hinv.ready.pins_eq, h.ready.pins_eq]
    have hset := Schedule.countP_set_add hi (.holding hd) (PrefetchThread.holds q)
    simp only [PrefetchThread.holds, hpage, Bool.false_eq_true, if_false, beq_iff_eq] at hset
    unfold pins
    rw [hthreads, hpoint]
    by_cases hq : q = p
    · subst hq
      simp only [if_true] at hset
      simp only [or_true, iff_true]
      omega
    · rw [if_neg (Ne.symm hq)] at hset
      simp only [hq, or_false]
      omega
  · intro u hu hne
    rw [hthreads]
    exact mem_set_of_ne hi hu hne

/-- The two pages behind a page, when they exist. -/
theorem lookahead_eq {total : Nat} (h : pid + 2 < total) : lookahead total pid = [pid + 1, pid + 2] := by
  have hrange : List.range PREFETCH_LOOKAHEAD = [0, 1] := rfl
  have hone : pid + 1 < total := by omega
  unfold lookahead
  simp [hrange, hone, h]

/-- When the scan has processed a page, the pins are as before. -/
theorem Behind.page_reach {j : Nat} (h : Behind e₀ j w) (hj : j < e₀.cache.pool.length)
    (htotal : e₀.cache.pool.length + 2 ≤ e₀.getTotalPages) :
    ∃ w', Schedule.Reaches (turn callback) w w' ∧ ScanInv e₀ w' ∧ w'.point = .atPage (j + 1) ∧
      (w'.point.rest e₀.view e₀.getTotalPages).isSome ∧
      (∀ q, w'.engine.cache.pinOf q = w.engine.cache.pinOf q) ∧
      w'.threads = w.threads ++ [.started (j + 1), .started (j + 2)] := by
  have hpinned : ∀ q, 0 < w.engine.cache.pinOf q ↔ q ∈ Finset.Ico 1 j := fun q => by
    rw [h.pinned q, Finset.mem_Ico]
  have hroom : ¬ w.engine.cache.Full := by
    rw [h.inv.full_iff hpinned, Nat.card_Ico]
    omega
  obtain ⟨w', hreach, hinv, hpoint, hthreads, hrest⟩ := ScanWorld.page_reach callback
    h.inv h.point (by omega) (fun hstop => hroom hstop.2) h.rest
  refine ⟨w', hreach, hinv, hpoint, hrest, ?_, ?_⟩
  · intro q
    rw [hinv.ready.pins_eq, h.inv.ready.pins_eq]
    unfold pins
    rw [hpoint, h.point, hthreads, ScanInv.countP_started]
    rfl
  · rw [hthreads, lookahead_eq (by omega)]
    rfl

/-- Page 0 is processed before any thread has run. -/
theorem behind_one (h : e₀.Idle) (s : σ) (hrest : (pagesVisits e₀.view e₀.getTotalPages 0).isSome)
    (htotal : e₀.cache.pool.length + 2 ≤ e₀.getTotalPages) :
    ∃ w', Schedule.Reaches (turn callback) (start e₀ s) w' ∧ Behind e₀ 1 w' := by
  have hzero : Behind e₀ 0 (start e₀ s) := by
    refine ⟨scanInv_start h s, rfl, hrest, fun q => ?_, fun hpos => absurd hpos (by omega)⟩
    show 0 < e₀.cache.pinOf q ↔ _
    rw [h.pins_eq]
    simp
  obtain ⟨w', hreach, hinv, hpoint, hlast, hpins, hthreads⟩ :=
    hzero.page_reach callback h.capacity htotal
  refine ⟨w', hreach, hinv, hpoint, hlast, fun q => ?_, fun _ => ?_⟩
  · rw [hpins q, hzero.pinned q]
    omega
  · rw [hthreads]
    exact ⟨by simp, by simp⟩

/-- One page further: the scan processes page `j`, and then its thread takes it. -/
theorem behind_succ {j : Nat} (h : Behind e₀ j w) (hpos : 1 ≤ j) (hj : j < e₀.cache.pool.length)
    (htotal : e₀.cache.pool.length + 2 ≤ e₀.getTotalPages) :
    ∃ w', Schedule.Reaches (turn callback) w w' ∧ Behind e₀ (j + 1) w' := by
  obtain ⟨w₁, hreach₁, hinv₁, hpoint₁, hrest₁, hpins₁, hthreads₁⟩ :=
    h.page_reach callback hj htotal
  have hpinned₁ : ∀ q, 0 < w₁.engine.cache.pinOf q ↔ q ∈ Finset.Ico 1 j := fun q => by
    rw [hpins₁ q, h.pinned q, Finset.mem_Ico]
  have hroom : ¬ w₁.engine.cache.Full := by
    rw [hinv₁.full_iff hpinned₁, Nat.card_Ico]
    omega
  have hwaiting : .started j ∈ w₁.threads := by
    rw [hthreads₁]
    exact List.mem_append_left _ (h.waiting hpos).1
  obtain ⟨w₂, hreach₂, hinv₂, hpoint₂, hpins₂, hkept₂⟩ :=
    hinv₁.take callback hwaiting hroom
  refine ⟨w₂, hreach₁.trans hreach₂, hinv₂, hpoint₂.trans hpoint₁, ?_, ?_, fun _ => ⟨?_, ?_⟩⟩
  · rw [hpoint₂]
    exact hrest₁
  · intro q
    rw [hpins₂ q, hpinned₁ q, Finset.mem_Ico]
    omega
  · exact hkept₂ _ (by rw [hthreads₁]; simp) (by simp)
  · refine hkept₂ _ (by rw [hthreads₁]; simp) ?_
    rw [ne_eq, PrefetchThread.started.injEq]
    omega

theorem behind_reach {j : Nat} (h : e₀.Idle) (s : σ)
    (hrest : (pagesVisits e₀.view e₀.getTotalPages 0).isSome)
    (htotal : e₀.cache.pool.length + 2 ≤ e₀.getTotalPages) (hpos : 1 ≤ j)
    (hj : j ≤ e₀.cache.pool.length) :
    ∃ w', Schedule.Reaches (turn callback) (start e₀ s) w' ∧ Behind e₀ j w' := by
  induction j, hpos using Nat.le_induction with
  | base => exact behind_one callback h s hrest htotal
  | succ j hpos ih =>
      obtain ⟨w₁, hreach₁, hbehind₁⟩ := ih (by omega)
      obtain ⟨w₂, hreach₂, hbehind₂⟩ := behind_succ callback hbehind₁ hpos (by omega)
        htotal
      exact ⟨w₂, hreach₁.trans hreach₂, hbehind₂⟩

/-- **On a longer file** there is a schedule under which the scan throws. -/
theorem exists_schedule_throws (h : e₀.Idle) (s : σ)
    (hrest : (pagesVisits e₀.view e₀.getTotalPages 0).isSome)
    (htotal : e₀.cache.pool.length + 2 ≤ e₀.getTotalPages) :
    ∃ schedule err, (run callback schedule (start e₀ s)).point = .threw err := by
  obtain ⟨w₁, hreach₁, hbehind⟩ := behind_reach callback h s hrest htotal
    h.capacity le_rfl
  have hcapacity := h.capacity
  have hpinned₁ : ∀ q, 0 < w₁.engine.cache.pinOf q ↔ q ∈ Finset.Ico 1 e₀.cache.pool.length :=
    fun q => by rw [hbehind.pinned q, Finset.mem_Ico]
  have hroom : ¬ w₁.engine.cache.Full := by
    rw [hbehind.inv.full_iff hpinned₁, Nat.card_Ico]
    omega
  -- the thread two pages ahead takes the last frame
  obtain ⟨w₂, hreach₂, hinv₂, hpoint₂, hpins₂, -⟩ :=
    hbehind.inv.take callback (hbehind.waiting h.capacity).2 hroom
  have hpinned₂ : ∀ q, 0 < w₂.engine.cache.pinOf q ↔
      q ∈ insert (e₀.cache.pool.length + 1) (Finset.Ico 1 e₀.cache.pool.length) := fun q => by
    rw [hpins₂ q, hpinned₁ q, Finset.mem_insert]
    tauto
  have hfull : w₂.engine.cache.Full := by
    rw [hinv₂.full_iff hpinned₂, Finset.card_insert_of_notMem (by simp), Nat.card_Ico]
    omega
  have hnone : w₂.engine.cache.pageMap.lookup e₀.cache.pool.length = none := by
    cases hlook : w₂.engine.cache.pageMap.lookup e₀.cache.pool.length with
    | none => rfl
    | some f =>
        have hpos := Nat.pos_of_ne_zero (hfull.2 _ (by rw [hlook]; rfl))
        exact absurd ((hpinned₂ _).mp hpos) (by simp)
  have hpoint : w₂.point = .atPage e₀.cache.pool.length := hpoint₂.trans hbehind.point
  obtain ⟨schedule, hschedule⟩ := (hreach₁.trans hreach₂).trans (reaches_scan callback w₂)
  refine ⟨schedule, ?_⟩
  show ∃ err, (Schedule.run (turn callback) schedule (start e₀ s)).point = _
  rw [hschedule]
  rcases fetchPage_outcome hinv₂.ready (p := e₀.cache.pool.length)
    (by rw [hinv₂.total_eq]; omega) with ⟨hnot, -⟩ | ⟨-, -, e', heq, -⟩
  · exact absurd ⟨hnone, hfull⟩ hnot
  · refine ⟨.runtimeError "Buffer Pool Full: All pages are pinned..", ?_⟩
    unfold scanTurn
    rw [hpoint]
    simp only
    rw [hinv₂.total, if_pos (by omega), heq]

/-- **When prefetching does not show.** Starting a scan on an engine with no live handles, prefetching
changes nothing under any schedule exactly when the file can be scanned at all and has at most one
page more than the cache has frames. -/
theorem prefetch_transparent_iff (e : StorageEngine) (s : σ) (h : e.Idle) :
    PrefetchTransparent callback e s ↔
      (pagesVisits e.view e.getTotalPages 0).isSome ∧
        e.getTotalPages ≤ e.cache.pool.length + 1 := by
  constructor
  · rintro ⟨e', s', hscan, turns, hall⟩
    have hparses : (pagesVisits e.view e.getTotalPages 0).isSome := by
      obtain ⟨e'', -, -, hends⟩ := scan_found callback h s
      cases hvs : pagesVisits e.view e.getTotalPages 0 with
      | some vs => rfl
      | none =>
          rw [hvs] at hends
          obtain ⟨s'', hends⟩ := hends
          rw [hscan] at hends
          exact absurd hends (by simp)
    refine ⟨hparses, ?_⟩
    by_contra hlong
    obtain ⟨schedule, err, herr⟩ := exists_schedule_throws callback h s hparses (by omega)
    exact (hall schedule _ rfl).1 err herr
  · rintro ⟨hparses, hfits⟩
    exact prefetchTransparent_of_fits callback h s hparses hfits

/-- One frame and two pages with a record each, which a scan collects. -/
theorem prefetch_transparent_two_pages :
    let file : Bytes := List.replicate 64 0 ++ [1, 0, 70, 0, 7, 0, 0, 1, 0, 1, 0, 10, 20] ++
      List.replicate 4083 0 ++ [1, 0, 70, 0, 7, 0, 0, 1, 0, 1, 0, 11, 21] ++ List.replicate 4019 0
    let e := StorageEngine.new (some file) 1 false
    pagesVisits e.view e.getTotalPages 0 =
        some [(⟨0, 0⟩, ⟨[10], [20]⟩), (⟨1, 0⟩, ⟨[11], [21]⟩)] ∧
      PrefetchTransparent (fun rid key value vs => vs ++ [(rid, Record.mk key value)]) e [] := by
  intro file e
  have hvisits : pagesVisits e.view e.getTotalPages 0 =
      some [(⟨0, 0⟩, ⟨[10], [20]⟩), (⟨1, 0⟩, ⟨[11], [21]⟩)] := by
    decide +kernel
  refine ⟨hvisits, (prefetch_transparent_iff _ e [] (idle_new _ _ (by decide))).mpr ⟨?_, ?_⟩⟩
  · rw [hvisits]
    rfl
  · decide +kernel

/-- One frame and three pages: the scan processes page 0, the thread of page 2 takes the frame, and
the fetch of page 1 throws. -/
theorem prefetch_stops_scan :
    ¬ PrefetchTransparent (fun _ _ _ n => n + 1)
      (StorageEngine.new (some (List.replicate 12288 0)) 1 false) 0 := by
  rintro ⟨e', s', -, turns, hall⟩
  have hthrew : (run (fun _ _ _ n => n + 1) [.scan, .scan, .scan, .thread 1, .scan]
      (start (StorageEngine.new (some (List.replicate 12288 0)) 1 false) 0)).point =
      .threw (.runtimeError "Buffer Pool Full: All pages are pinned..") := by
    decide +kernel
  exact (hall _ _ rfl).1 _ hthrew

end ScanWorld

end Aqa
