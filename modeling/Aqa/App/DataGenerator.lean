/-
# Aqa.App.DataGenerator — pages of test data, and which of them reach the file.

The generator writes page after page through the cache, allocating those that the file does not have, and
never flushes. What the random engine and the distribution of the standard library draw is a parameter.
While the engine lives it shows every page that was generated (`Generated.visible`). On the file, when the
engine goes, are only those that have left the cache: all but the last ones, as many as the cache has
frames (`Generated.pageAt_file`).
-/
import Aqa.Storage.IdleEngine

namespace Aqa

open Aqa.Lib MappedFile PageCache StorageEngine

/-! ## The generator -/

/-- `DataGenerator`, with the numbers that `dist(gen)` draws one after the other from a generator with
a given seed. -/
structure DataGenerator where
  seed : Nat
  draw : Nat → Nat → Nat

namespace DataGenerator

/-- `max_intergers`: the words of a payload. -/
def maxIntegers : Nat := (PAGE_SIZE - PAGE_HEADER_SIZE) / 4

/-- One word of `fill_page_payload`, on the page and the count of numbers drawn. -/
def fillWord (g : DataGenerator) (pageId : Nat) (s : RawPage × Nat) (k : Nat) : RawPage × Nat :=
  if k % 4 = 0 then (s.1.write (PAGE_HEADER_SIZE + 4 * k) (leBytes 4 pageId), s.2)
  else
    (s.1.write (PAGE_HEADER_SIZE + 4 * k) (leBytes 4 (g.draw (u32 (g.seed + pageId)) s.2)),
      s.2 + 1)

/-- `DataGenerator::fill_page_payload`. -/
def fillPagePayload (g : DataGenerator) (pageId : Nat) (page : RawPage) : RawPage :=
  ((List.range maxIntegers).foldl (g.fillWord pageId) (page, 0)).1

/-- What `generate_pages` makes of a page: reset, page id, payload. -/
def generatedPage (g : DataGenerator) (i : Nat) : RawPage :=
  g.fillPagePayload i (RawPage.reset.write 4 (leBytes 4 i))

/-- The allocation of a page that the file does not have. -/
def ensurePage (i : Nat) : EStateM Error StorageEngine Unit := fun e =>
  if i ≥ e.getTotalPages then
    match allocatePage e with
    | .ok h e => .ok () (e.releasePage h)
    | .error err e => .error err e
  else .ok () e

/-- The body of the loop of `generate_pages`. -/
def generatePage (g : DataGenerator) (i : Nat) : EStateM Error StorageEngine Unit := do
  ensurePage i
  discard (withPage i fun _ => g.generatedPage i)

/-- `DataGenerator::generate_pages`. -/
def generatePages (g : DataGenerator) (count : Nat) : EStateM Error StorageEngine Unit :=
  (List.range count).forM g.generatePage

/-! ## What a generated page holds -/

/-- The words written so far, with the header as it was. -/
theorem foldl_fillWord (g : DataGenerator) (pageId : Nat) (page : RawPage) (n : Nat)
    (hn : n ≤ maxIntegers) :
    let s := (List.range n).foldl (g.fillWord pageId) (page, 0)
    s.2 = n - (n + 3) / 4 ∧
      (∀ o m, o + m ≤ PAGE_HEADER_SIZE → s.1.read o m = page.read o m) ∧
      ∀ k < n, s.1.readU32 (PAGE_HEADER_SIZE + 4 * k) =
        (if k % 4 = 0 then pageId
          else g.draw (u32 (g.seed + pageId)) (k - (k + 3) / 4)) % 2 ^ 32 := by
  induction n with
  | zero => exact ⟨rfl, fun _ _ _ => rfl, fun k hk => absurd hk (Nat.not_lt_zero k)⟩
  | succ n ih =>
      obtain ⟨hdrawn, hheader, hwords⟩ := ih (by omega)
      have hsize : PAGE_HEADER_SIZE + 4 * n + 4 ≤ PAGE_SIZE := by
        unfold maxIntegers PAGE_HEADER_SIZE PAGE_SIZE at *
        omega
      rw [List.range_succ, List.foldl_append]
      generalize (List.range n).foldl (g.fillWord pageId) (page, 0) = s at hdrawn hheader hwords
      -- either way one word of four bytes is written
      obtain ⟨value, hword, hvalue⟩ : ∃ value, (g.fillWord pageId s n).1 =
          s.1.write (PAGE_HEADER_SIZE + 4 * n) (leBytes 4 value) ∧
          value = if n % 4 = 0 then pageId
            else g.draw (u32 (g.seed + pageId)) (n - (n + 3) / 4) := by
        unfold fillWord
        by_cases hn4 : n % 4 = 0
        · exact ⟨pageId, by rw [if_pos hn4], by rw [if_pos hn4]⟩
        · exact ⟨_, by rw [if_neg hn4], by rw [if_neg hn4, hdrawn]⟩
      have hlen : (leBytes 4 value).length = 4 := length_leBytes 4 value
      refine ⟨?_, ?_, ?_⟩
      · show (g.fillWord pageId s n).2 = _
        unfold fillWord
        split <;> simp only [hdrawn] <;> omega
      · intro o m hom
        show (g.fillWord pageId s n).1.read o m = _
        rw [hword, RawPage.read_write_of_disjoint (by omega), hheader o m hom]
      · intro k hk
        show (g.fillWord pageId s n).1.readU32 _ = _
        rw [hword]
        unfold RawPage.readU32
        by_cases hkn : k = n
        · have hmod : (256 : Nat) ^ 4 = 2 ^ 32 := by decide
          rw [hkn, RawPage.read_write_self' hlen hsize, leNat_leBytes, hvalue, hmod]
        · rw [RawPage.read_write_of_disjoint (by omega)]
          exact hwords k (by omega)

/-- The magic and the first word of a generated page. -/
theorem generatedPage_words (g : DataGenerator) {i : Nat} (hi : i < 2 ^ 32) :
    (g.generatedPage i).readU32 0 = PAGE_MAGIC ∧ (g.generatedPage i).pageId = i ∧
      (g.generatedPage i).readU32 PAGE_HEADER_SIZE = i := by
  obtain ⟨-, hheader, hwords⟩ :=
    foldl_fillWord g i (RawPage.reset.write 4 (leBytes 4 i)) maxIntegers le_rfl
  have hlen : (leBytes 4 i).length = 4 := length_leBytes 4 i
  refine ⟨?_, ?_, ?_⟩
  · show leNat _ = _
    rw [generatedPage, fillPagePayload, hheader 0 4 (by decide),
      RawPage.read_write_of_disjoint (by omega)]
    decide +kernel
  · show leNat _ = _
    rw [generatedPage, fillPagePayload, hheader 4 4 (by decide),
      RawPage.read_write_self' hlen (by decide), leNat_leBytes_of_lt (by simpa using hi)]
  · have hfirst := hwords 0 (by decide)
    rw [if_pos (by decide), Nat.mod_eq_of_lt hi] at hfirst
    exact hfirst

/-! ## What a run of the generator leaves -/

variable {first : Nat → RawPage} {c : PageCache} {capacity : Nat}

/-- The engine behind the first `count` pages. -/
structure Generated (g : DataGenerator) (first : Nat → RawPage) (total : Nat) (c : PageCache)
    (capacity count : Nat) : Prop
    extends Held first c capacity ((List.range count).foldl (touch capacity) []) where
  visible : ∀ p, c.visible p = if p < count then g.generatedPage p else first p
  pages : c.file.pageCount = max total count

/-- The page is there when it is written. -/
theorem Generated.ensure {g : DataGenerator} {total count : Nat} {e : StorageEngine}
    (h : Generated g first total e.cache capacity count) (hcap : 1 ≤ capacity)
    (hsmall : max total (count + 1) < 2 ^ 20) :
    ∃ e' order, ensurePage count e = .ok () e' ∧ Held first e'.cache capacity order ∧
      touch capacity order count = (List.range (count + 1)).foldl (touch capacity) [] ∧
      (∀ p, p ≠ count → e'.cache.visible p = e.cache.visible p) ∧
      (count ∉ order → e'.cache.visible count = first count) ∧
      e'.getTotalPages = max total (count + 1) := by
  have htotal : e.getTotalPages = max total count := h.pages
  have hfirst : e.cache.visible count = first count := by
    rw [h.visible, if_neg (Nat.lt_irrefl count)]
  have horder : touch capacity ((List.range count).foldl (touch capacity) []) count =
      (List.range (count + 1)).foldl (touch capacity) [] := by
    rw [List.range_succ, List.foldl_append]
    rfl
  by_cases hlt : count < e.getTotalPages
  · refine ⟨e, _, ?_, h.toHeld, horder, fun _ _ => rfl, fun _ => hfirst, by omega⟩
    unfold ensurePage
    rw [if_neg (by omega)]
  · obtain ⟨hd, e', heq, hidle, hvis, hpages, hkept⟩ :=
      allocatePage_idle h.idle hcap (by omega : e.getTotalPages + 1 < 2 ^ 20)
    have hcount : e.getTotalPages = count := by omega
    rw [hcount] at hidle hvis hkept
    have hheld := h.toHeld.step hidle hkept fun _ => hfirst
    refine ⟨e'.releasePage hd, _, ?_, hheld, (touch_touch hcap _ _).trans horder, ?_, ?_, ?_⟩
    · unfold ensurePage
      rw [if_pos (by omega)]
      simp only [heq]
    · intro p hp
      rw [hvis, Function.update_of_ne hp]
    · intro hnot
      refine absurd ?_ hnot
      obtain ⟨n, rfl⟩ : ∃ n, capacity = n + 1 := ⟨capacity - 1, by omega⟩
      exact List.mem_cons_self
    · show (e'.releasePage hd).cache.file.pageCount = _
      rw [hpages]
      omega

/-- One page more. -/
theorem Generated.step {g : DataGenerator} {total count : Nat} {e : StorageEngine}
    (h : Generated g first total e.cache capacity count) (hcap : 1 ≤ capacity)
    (hsmall : max total (count + 1) < 2 ^ 20) :
    ∃ e', g.generatePage count e = .ok () e' ∧
      Generated g first total e'.cache capacity (count + 1) := by
  obtain ⟨e₁, order, heq₁, hheld₁, horder, hothers, hnew, hpages⟩ := h.ensure hcap hsmall
  obtain ⟨e₂, heq₂, hused⟩ := withPage_idle hheld₁.idle hcap (by omega : count < e₁.getTotalPages)
    fun _ => g.generatedPage count
  have hheld₂ := hheld₁.step hused.idle hused.kept hnew
  rw [horder] at hheld₂
  refine ⟨e₂, ?_, hheld₂, ?_, hused.count.trans hpages⟩
  · show EStateM.bind (ensurePage count) (fun _ => discard (withPage count _)) e = _
    simp only [EStateM.bind, heq₁, discard, Functor.discard, Functor.mapConst, EStateM.map,
      Function.comp, heq₂]
  · intro p
    rw [hused.visible]
    by_cases hp : p = count
    · rw [hp, Function.update_self, if_pos (Nat.lt_succ_self count)]
    · rw [Function.update_of_ne hp, hothers p hp, h.visible]
      by_cases hlt : p < count
      · rw [if_pos hlt, if_pos (by omega)]
      · rw [if_neg hlt, if_neg (by omega)]

/-- **Any number of pages**, from a new engine on. -/
theorem generatePages_spec (g : DataGenerator) {e : StorageEngine} (hidle : Idle e.cache capacity [])
    (hcap : 1 ≤ capacity) (htotal : e.getTotalPages < 2 ^ 20) {count : Nat}
    (hcount : count < 2 ^ 20) :
    ∃ e', g.generatePages count e = .ok () e' ∧
      Generated g e.cache.visible e.getTotalPages e'.cache capacity count := by
  induction count with
  | zero =>
      refine ⟨e, rfl, ⟨hidle, by simp⟩, fun p => by simp, ?_⟩
      show e.getTotalPages = _
      rw [Nat.max_zero]
  | succ count ih =>
      obtain ⟨e₁, heq₁, h₁⟩ := ih (by omega)
      obtain ⟨e₂, heq₂, h₂⟩ := h₁.step hcap (by omega)
      refine ⟨e₂, ?_, h₂⟩
      have hrange : g.generatePages (count + 1) =
          (g.generatePages count >>= fun _ => [count].forM g.generatePage) := by
        unfold generatePages
        rw [List.range_succ]
        exact List.forM_append
      rw [hrange]
      show EStateM.bind (g.generatePages count) (fun _ => [count].forM g.generatePage) e = _
      simp only [EStateM.bind, heq₁]
      show EStateM.bind (g.generatePage count) (fun _ => pure ()) e₁ = _
      simp only [EStateM.bind, heq₂]
      rfl

/-- The cached pages are the last ones. -/
theorem mem_foldl_touch_range (capacity p count : Nat) :
    p ∈ (List.range count).foldl (touch capacity) [] ↔ p < count ∧ count ≤ p + capacity := by
  have hrange : ∀ n : Nat, recency [] (List.range n) = (List.range n).reverse := by
    intro n
    induction n with
    | zero => rfl
    | succ n ih =>
        rw [List.range_succ, recency_concat, ih, List.erase_of_not_mem (by simp),
          List.reverse_append, List.reverse_singleton, List.singleton_append]
  have htouch := foldl_touch capacity [] (List.range count)
  rw [List.take_nil, hrange] at htouch
  rw [htouch]
  clear htouch hrange
  induction count generalizing capacity with
  | zero => simp
  | succ count ih =>
      rw [List.range_succ, List.reverse_append, List.reverse_singleton, List.singleton_append]
      cases capacity with
      | zero =>
          rw [List.take_zero]
          simp only [List.not_mem_nil, false_iff]
          omega
      | succ capacity =>
          have hbefore : p ∈ (List.range count).reverse.take capacity ↔
              p < count ∧ count ≤ p + capacity := ih capacity
          rw [List.take_succ_cons, List.mem_cons, hbefore]
          omega

/-- **On the file** is every generated page behind which as many came as the cache has frames. -/
theorem Generated.pageAt_file {g : DataGenerator} {total count : Nat}
    (h : Generated g first total c capacity count) (p : Nat) :
    pageAt c.file.bytes p = if p + capacity < count then g.generatedPage p else first p := by
  have hcached := mem_foldl_touch_range capacity p count
  rw [h.toHeld.file, h.visible]
  by_cases hlost : p + capacity < count
  · rw [if_neg (by rw [hcached]; omega), if_pos (by omega), if_pos hlost]
  · rw [if_neg hlost]
    split
    · rfl
    · rename_i hnot
      rw [hcached] at hnot
      rw [if_neg (by omega)]

end DataGenerator

end Aqa
