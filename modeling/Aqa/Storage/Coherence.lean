/-
# Aqa.Storage.Coherence — the page cache shows the file.

`Coherent c hole` is the pool invariant together with the statement that every resident frame holds
what the file holds at its page. Under the invariant a fetch of a page of the file succeeds as soon
as a frame can be had, shows the page, adds one pin to it and leaves the file alone
(`fetchPage_spec`), and the release takes that pin away again (`unpinPage_spec`).
-/
import Aqa.Storage.Pool

namespace Aqa

open Aqa.Lib

namespace PageCache

/-- The pool invariant and the agreement of the resident frames with the file. -/
structure Coherent (c : PageCache) (hole : Option Nat) : Prop extends Pool c hole where
  mapped : c.file.pageCount * PAGE_SIZE ≤ c.file.bytes.length
  in_range : ∀ p f, c.pageMap.lookup p = some f → p < c.file.pageCount
  shows : ∀ p f, c.pageMap.lookup p = some f → c.pool[f]? = some (c.file.loadPage p)

theorem coherent_new {file : MappedFile} (capacity : Nat) (observed : Bool)
    (policy : Option PageEvictionPolicy) (h : file.pageCount * PAGE_SIZE ≤ file.bytes.length) :
    Coherent (new file capacity observed policy) none where
  toPool := pool_new file capacity observed policy
  mapped := h
  in_range := by simp [new]
  shows := by simp [new]

/-- Write-back of a coherent frame writes what the file already has. -/
theorem Took.file_eq {c c' : PageCache} {f : Nat} (htook : Took c c' f) {hole : Option Nat}
    (h : Coherent c hole) : c'.file = c.file := by
  rcases htook.source with ⟨hfile, -⟩ | ⟨victim, hv, -, hfile, -⟩
  · exact hfile
  · rw [hfile, List.getD_eq_getElem?_getD, h.shows victim f hv, Option.getD_some]
    exact MappedFile.storePage_loadPage (h.in_range victim f hv) h.mapped

/-- Loading a page into the frame taken for it. -/
theorem coherent_installPage {c c₁ : PageCache} {p f : Nat} (h : Coherent c none)
    (htook : Took c c₁ f) (hpool : Pool c₁ (some f)) (hp : c₁.pageMap.lookup p = none)
    (hrange : p < c.file.pageCount) : Coherent (c₁.installPage p f) none := by
  obtain ⟨hlt, -, hunused⟩ := hpool.hole_apart f rfl
  have hfile := htook.file_eq h
  refine { pool_installPage hpool hp with mapped := ?_, in_range := ?_, shows := ?_ }
  · show c₁.file.pageCount * PAGE_SIZE ≤ c₁.file.bytes.length
    rw [hfile]
    exact h.mapped
  · intro q g hg
    show q < c₁.file.pageCount
    rw [hfile]
    rcases lookup_insert_eq_some.mp hg with ⟨rfl, _⟩ | ⟨_, hg⟩
    · exact hrange
    · exact h.in_range q g (htook.sub hg)
  · intro q g hg
    show (c₁.pool.set f (c₁.file.loadPage p))[g]? = some (c₁.file.loadPage q)
    rcases lookup_insert_eq_some.mp hg with ⟨rfl, rfl⟩ | ⟨_, hg⟩
    · rw [List.getElem?_set_self hlt]
    · have hne : f ≠ g := by
        rintro rfl
        exact hunused q hg
      rw [List.getElem?_set_ne hne, htook.pool, hfile]
      exact h.shows q g (htook.sub hg)

/-- What a successful fetch of page `p` does. -/
structure Fetched (c c' : PageCache) (p : Nat) (h : PageHandle) : Prop where
  coherent : Coherent c' none
  file : c'.file = c.file
  capacity : c'.pool.length = c.pool.length
  policy : c'.evictionPolicy = c.evictionPolicy
  pageId : h.pageId = p
  shows : c'.pageOf h = c.file.loadPage p
  resident : c'.pageMap.lookup p = some h.frame
  pins : c'.pinOf = Function.update c.pinOf p (c.pinOf p + 1)

/-- A refused fetch leaves a coherent cache as it was. -/
theorem Refused.coherent {c c' : PageCache} (href : Refused c c') (h : Coherent c none) :
    Coherent c' none := by
  refine { href.inv with mapped := ?_, in_range := ?_, shows := ?_ }
  · rw [href.file]
    exact h.mapped
  · rw [href.file, href.pageMap]
    exact h.in_range
  · rw [href.file, href.pageMap, href.pool]
    exact h.shows

/-- **What a fetch of a page of the file can do**: show the page, pinned once more, with the pinned
pages left where they are; or throw, exactly when the pool is full and the page not resident. -/
theorem fetchPage_outcome {c : PageCache} (h : Coherent c none) (hpol : c.PolicyMember) {p : Nat}
    (hrange : p < c.file.pageCount) :
    (¬ (c.pageMap.lookup p = none ∧ Full c) ∧ ∃ hd c', fetchPage p c = .ok hd c' ∧
      Fetched c c' p hd ∧
      ∀ q g, 0 < c.pinOf q → c.pageMap.lookup q = some g → c'.pageMap.lookup q = some g) ∨
    (c.pageMap.lookup p = none ∧ Full c ∧ ∃ c', fetchPage p c =
      .error (.runtimeError "Buffer Pool Full: All pages are pinned..") c' ∧ Refused c c') := by
  rcases fetchPage_cases h.toPool hpol p with
    ⟨f, c', hp, heq, hhit⟩ | ⟨hp, f, c₁, heq, hpool, hp₁, htook⟩ | ⟨hp, hfree, hpinned, hrest⟩
  · left
    have hcoh : Coherent c' none := by
      refine { hhit.inv with mapped := ?_, in_range := ?_, shows := ?_ }
      · rw [hhit.file]
        exact h.mapped
      · rw [hhit.file, hhit.pageMap]
        exact h.in_range
      · rw [hhit.file, hhit.pageMap, hhit.pool]
        exact h.shows
    refine ⟨?_, ⟨p, f⟩, c', heq, ⟨hcoh, hhit.file, by rw [hhit.pool], hhit.policy, rfl, ?_, ?_,
      hhit.pins⟩, ?_⟩
    · rw [hp]
      exact fun hnone => absurd hnone.1 (by simp)
    · unfold pageOf
      rw [hhit.pool, List.getD_eq_getElem?_getD, h.shows p f hp, Option.getD_some]
    · rw [hhit.pageMap]
      exact hp
    · intro q g _ hq
      rw [hhit.pageMap]
      exact hq
  · left
    obtain ⟨hlt, -, -⟩ := hpool.hole_apart f rfl
    have hfile := htook.file_eq h
    refine ⟨fun hstop => htook.not_full h.toPool hpool hstop.2, ⟨p, f⟩, c₁.installPage p f, heq,
      ⟨coherent_installPage h htook hpool hp₁ hrange, hfile, ?_, htook.policy, rfl, ?_, ?_, ?_⟩, ?_⟩
    · simp only [installPage, List.length_set, htook.pool]
    · simp only [pageOf, installPage, List.getD_eq_getElem?_getD, List.getElem?_set_self hlt,
        Option.getD_some, hfile]
    · simp only [installPage, AList.lookup_insert]
    · rw [pinOf_installPage hpool hp₁, htook.pins]
    · intro q g hpin hq
      have hne : q ≠ p := by
        rintro rfl
        rw [hp] at hq
        exact absurd hq (by simp)
      simp only [installPage, AList.lookup_insert_ne hne]
      rw [htook.kept hpin]
      exact hq
  · exact Or.inr ⟨hp, ⟨hfree, hpinned⟩, hrest⟩

/-- **A fetch of a page of the file shows it** when a frame can be had for it. -/
theorem fetchPage_spec {c : PageCache} (h : Coherent c none) (hpol : c.PolicyMember) {p : Nat}
    (hrange : p < c.file.pageCount)
    (hroom : (c.pageMap.lookup p).isSome ∨ c.freeFrames ≠ [] ∨
      ∃ q, (c.pageMap.lookup q).isSome ∧ c.pinOf q = 0) :
    ∃ hd c', fetchPage p c = .ok hd c' ∧ Fetched c c' p hd := by
  rcases fetchPage_outcome h hpol hrange with ⟨-, hd, c', heq, hf, -⟩ | ⟨hp, hfull, -⟩
  · exact ⟨hd, c', heq, hf⟩
  · rcases hroom with hres | hne | ⟨q, hq, hzero⟩
    · rw [hp] at hres
      exact absurd hres (by simp)
    · exact absurd hfull.1 hne
    · exact absurd hzero (hfull.2 q hq)

/-- The release of a handle takes one pin away and changes nothing else. -/
theorem unpinPage_spec {c : PageCache} (h : Coherent c none) (p : Nat) :
    Coherent (c.unpinPage p) none ∧ (c.unpinPage p).file = c.file ∧
      (c.unpinPage p).pool = c.pool ∧ (c.unpinPage p).pageMap = c.pageMap ∧
      (c.unpinPage p).evictionPolicy = c.evictionPolicy ∧
      (c.unpinPage p).pinOf = Function.update c.pinOf p (c.pinOf p - 1) := by
  obtain ⟨hpool, ⟨counts, heq⟩, hpins⟩ := unpinPage_pool h.toPool p
  refine ⟨{ hpool with mapped := ?_, in_range := ?_, shows := ?_ }, ?_, ?_, ?_, ?_, hpins⟩
  · rw [heq]
    exact h.mapped
  · rw [heq]
    exact h.in_range
  · rw [heq]
    exact h.shows
  · rw [heq]
  · rw [heq]
  · rw [heq]
  · rw [heq]

/-- Bytes written behind the mapped pages change no page of the mapping. -/
theorem coherent_append {c : PageCache} (h : Coherent c none) (more : Bytes) :
    Coherent { c with file := { c.file with bytes := c.file.bytes ++ more } } none where
  toPool := { h.toPool with }
  mapped := by
    show c.file.pageCount * PAGE_SIZE ≤ (c.file.bytes ++ more).length
    rw [List.length_append]
    exact le_trans h.mapped (Nat.le_add_right _ _)
  in_range := h.in_range
  shows := by
    intro p f hp
    have hframe := h.shows p f hp
    rw [MappedFile.loadPage_append (h.in_range p f hp) h.mapped]
    exact hframe

/-- Without a frame no page can be fetched. -/
theorem fetchPage_without_frames {c : PageCache} (h : Coherent c none) (hpol : c.PolicyMember)
    {p : Nat} (hrange : p < c.file.pageCount) (hpool : c.pool = []) :
    ∃ c', fetchPage p c =
      .error (.runtimeError "Buffer Pool Full: All pages are pinned..") c' ∧ Refused c c' := by
  rcases fetchPage_outcome h hpol hrange with ⟨-, hd, c', -, hf, -⟩ | ⟨-, -, hrest⟩
  · have hframe := hf.coherent.shows p hd.frame hf.resident
    have hlen := hf.capacity
    rw [hpool, List.length_nil, List.length_eq_zero_iff] at hlen
    rw [hlen] at hframe
    exact absurd hframe (by simp)
  · exact hrest

end PageCache

end Aqa
