/-
# Aqa.App.QueryRunner — the read benchmarks, and what the cache makes of them.

Both benchmarks fetch one page after the other, look at its magic and let the handle go. The clock and
the report are left out, and the page ids that the random generator draws are a parameter. On an idle
engine the counters of the cache are those of a recency list (`visits_idle`): a sequential scan that fits
into the cache is free from the second time on, and one that is longer by a single page misses every
page every time (`sequential_scans`).
-/
import Aqa.Lib.Paging
import Aqa.Storage.IdleEngine

namespace Aqa

open Aqa.Lib MappedFile PageCache StorageEngine

namespace QueryRunner

/-- One turn of the loops. -/
def visit (pageId : Nat) : EStateM Error StorageEngine Unit := discard (withPage pageId id)

/-- `QueryRunner::run_sequential_scan`. -/
def runSequentialScan (count : Nat) : EStateM Error StorageEngine Unit :=
  (List.range count).forM visit

/-- `QueryRunner::run_random_access`, with the page ids that `dist(gen)` gives. -/
def runRandomAccess (draw : Nat → Nat) (count : Nat) : EStateM Error StorageEngine Unit :=
  ((List.range count).map draw).forM visit

/-- What visits of pages do to an idle cache. -/
structure Visited (c c' : PageCache) (capacity : Nat) (order us : List Nat) : Prop where
  idle : Idle c' capacity (us.foldl (touch capacity) order)
  visible : c'.visible = c.visible
  count : c'.file.pageCount = c.file.pageCount
  misses : c'.misses = c.misses + lruMisses capacity order us
  hits : c'.hits + c'.misses = c.hits + c.misses + us.length
  clean : Program.Clean c → Program.Clean c'

variable {capacity : Nat} {order : List Nat}

theorem visit_idle {e : StorageEngine} (h : Idle e.cache capacity order) (hcap : 1 ≤ capacity)
    {p : Nat} (hp : p < e.getTotalPages) :
    ∃ e', visit p e = .ok () e' ∧ Visited e.cache e'.cache capacity order [p] := by
  obtain ⟨e', heq, hused⟩ := withPage_idle h hcap hp id
  refine ⟨e', ?_, hused.idle, ?_, hused.count, ?_, ?_, hused.clean⟩
  · simp only [visit, discard, Functor.discard, Functor.mapConst, EStateM.map, Function.comp, heq]
  · rw [hused.visible]
    exact Function.update_eq_self p _
  · rw [hused.misses, lruMisses, lruMisses, Nat.add_zero]
  · rw [hused.misses, hused.hits, List.length_singleton]
    split <;> omega

/-- **Any pages of the file, one after the other.** -/
theorem visits_idle (us : List Nat) {e : StorageEngine} {order : List Nat}
    (h : Idle e.cache capacity order) (hcap : 1 ≤ capacity)
    (hrange : ∀ p ∈ us, p < e.getTotalPages) :
    ∃ e', us.forM visit e = .ok () e' ∧ Visited e.cache e'.cache capacity order us := by
  induction us generalizing e order with
  | nil => exact ⟨e, rfl, h, rfl, rfl, rfl, rfl, id⟩
  | cons p us ih =>
      obtain ⟨e₁, heq₁, h₁⟩ := visit_idle h hcap (hrange p List.mem_cons_self)
      obtain ⟨e₂, heq₂, h₂⟩ := ih h₁.idle fun q hq => by
        show q < e₁.cache.file.pageCount
        rw [h₁.count]
        exact hrange q (List.mem_cons_of_mem p hq)
      refine ⟨e₂, ?_, h₂.idle, h₂.visible.trans h₁.visible, h₂.count.trans h₁.count, ?_, ?_,
        h₂.clean ∘ h₁.clean⟩
      · show EStateM.bind (visit p) (fun _ => us.forM visit) e = _
        simp only [EStateM.bind, heq₁]
        exact heq₂
      · rw [h₂.misses, h₁.misses, Nat.add_assoc, ← lruMisses_append, List.singleton_append]
      · rw [h₂.hits, h₁.hits, Nat.add_assoc, ← List.length_append, List.singleton_append]

/-- `rounds` sequential scans of one engine. -/
def scans (count : Nat) : Nat → EStateM Error StorageEngine Unit
  | 0 => pure ()
  | rounds + 1 => do
      runSequentialScan count
      scans count rounds

/-- Scans behind a first one. -/
theorem scans_idle (count rounds : Nat) (hcap : 1 ≤ capacity) {e : StorageEngine}
    {order : List Nat} (hnodup : order.Nodup) (hlen : order.length ≤ capacity)
    (h : Idle e.cache capacity ((List.range count).foldl (touch capacity) order))
    (hrange : count ≤ e.getTotalPages) :
    ∃ e', scans count rounds e = .ok () e' ∧ e'.cache.visible = e.cache.visible ∧
      e'.cache.misses = e.cache.misses + (if count ≤ capacity then 0 else rounds * count) ∧
      e'.cache.hits + e'.cache.misses = e.cache.hits + e.cache.misses + rounds * count := by
  induction rounds generalizing e order with
  | zero => exact ⟨e, rfl, rfl, by simp, by simp⟩
  | succ rounds ih =>
      obtain ⟨e₁, heq₁, h₁⟩ := visits_idle (List.range count) h hcap fun p hp => by
        rw [List.mem_range] at hp
        omega
      have hcount : e₁.getTotalPages = e.getTotalPages := h₁.count
      obtain ⟨e₂, heq₂, hvis₂, hmisses₂, hhits₂⟩ := ih h.nodup (by have := h.shared; omega) h₁.idle
        (by rw [hcount]; exact hrange)
      have hagain := lruMisses_again hnodup hlen (List.nodup_range (n := count))
      rw [List.length_range] at hagain
      refine ⟨e₂, ?_, hvis₂.trans h₁.visible, ?_, ?_⟩
      · show EStateM.bind (runSequentialScan count) (fun _ => scans count rounds) e = _
        unfold runSequentialScan
        simp only [EStateM.bind, heq₁]
        exact heq₂
      · rw [hmisses₂, h₁.misses, hagain, Nat.succ_mul]
        split <;> omega
      · rw [hhits₂, h₁.hits, List.length_range, Nat.succ_mul]
        omega

/-- **Scanning again.** On an engine behind any program that has let its handles go, every sequential scan
of pages of the file returns and shows what was there. Each page counts as one hit or one miss; from the
second scan on all are hits when the scan fits into the cache, and all are misses when it does not, by
however little. -/
theorem sequential_scans (file : Option Bytes) (capacity : Nat) (hcap : 1 ≤ capacity)
    (observed : Bool) (ops : List EngineOp)
    (hpages : (file.getD []).length / PAGE_SIZE + ops.count .allocatePage < 2 ^ 20)
    (hreleased : ∀ v ∈ (Program.engineRun ops (Program.opened file capacity observed)).1.handles,
      ∀ u ∈ v, u.owns = false)
    (count rounds : Nat)
    (hrange : count ≤
      (Program.engineRun ops (Program.opened file capacity observed)).1.engine.getTotalPages) :
    let e := (Program.engineRun ops (Program.opened file capacity observed)).1.engine
    ∃ e₁ e₂, runSequentialScan count e = .ok () e₁ ∧ scans count rounds e₁ = .ok () e₂ ∧
      e₂.cache.visible = e.cache.visible ∧
      e₁.cache.hits + e₁.cache.misses = e.cache.hits + e.cache.misses + count ∧
      e₂.cache.hits + e₂.cache.misses = e₁.cache.hits + e₁.cache.misses + rounds * count ∧
      e₂.cache.misses = e₁.cache.misses + if count ≤ capacity then 0 else rounds * count := by
  intro e
  have h : Idle e.cache capacity e.cache.lruList.toList :=
    idle_of_program file capacity observed ops hpages hreleased
  obtain ⟨e₁, heq₁, h₁⟩ := visits_idle (List.range count) h hcap fun p hp => by
    rw [List.mem_range] at hp
    exact lt_of_lt_of_le hp hrange
  have hcount : e₁.getTotalPages = e.getTotalPages := h₁.count
  obtain ⟨e₂, heq₂, hvis₂, hmisses₂, hhits₂⟩ := scans_idle count rounds hcap h.nodup
    (by have := h.shared; omega) h₁.idle (by rw [hcount]; exact hrange)
  have hhits₁ := h₁.hits
  rw [List.length_range] at hhits₁
  exact ⟨e₁, e₂, heq₁, heq₂, hvis₂.trans h₁.visible, hhits₁, hhits₂, hmisses₂⟩

/-- Two pages and one frame: three more scans miss six times. -/
theorem sequential_scans_two :
    let e := (Program.engineRun [.allocatePage, .destroy 0, .allocatePage, .destroy 1]
      (Program.opened none 1 false)).1.engine
    ∃ e₁ e₂, runSequentialScan 2 e = .ok () e₁ ∧ scans 2 3 e₁ = .ok () e₂ ∧
      e₂.cache.misses = e₁.cache.misses + 6 := by
  obtain ⟨e₁, e₂, hfirst, hmore, -, -, -, hmisses⟩ := sequential_scans none 1 (by decide) false
    [.allocatePage, .destroy 0, .allocatePage, .destroy 1] (by decide) (by decide +kernel) 2 3
    (by decide +kernel)
  exact ⟨e₁, e₂, hfirst, hmore, hmisses⟩

end QueryRunner

end Aqa
