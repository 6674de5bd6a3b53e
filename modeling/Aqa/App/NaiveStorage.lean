/-
# Aqa.App.NaiveStorage — the baseline without a cache, and why a cache cannot be told from it.

The benchmarks compare the engine with a store that reads and writes each page of the file directly. On
pages of the file both answer alike, for every number of frames and in every order of reads and writes,
and a flush leaves the file that the direct writes leave, byte for byte
(`cached_pages_as_naive`).
-/
import Aqa.Storage.IdleEngine

namespace Aqa

open Aqa.Lib MappedFile PageCache StorageEngine

/-! ## Reads and writes of the file -/

namespace NaiveStorage

/-- `pread`: the bytes there are, up to so many. -/
def pread (file : Bytes) (off n : Nat) : Bytes := slice file off n

/-- `pwrite`: a gap behind the end of the file fills up with zero bytes. -/
def pwrite (file : Bytes) (off : Nat) (bytes : Bytes) : Bytes :=
  (file ++ List.replicate (off - file.length) 0).take off ++ bytes ++ file.drop (off + bytes.length)

/-- `NaiveStorage::read_page`. A short read clears the page. -/
def readPage (file : Bytes) (pageId : Nat) : RawPage :=
  let bytes := pread file (pageId * PAGE_SIZE) PAGE_SIZE
  if bytes.length ≠ PAGE_SIZE then RawPage.zero else RawPage.ofBytes bytes

/-- `NaiveStorage::write_page`. -/
def writePage (file : Bytes) (pageId : Nat) (page : RawPage) : Bytes :=
  pwrite file (pageId * PAGE_SIZE) page.bytes

end NaiveStorage

/-- A read or a write of a whole page. -/
inductive PageOp where
  | read (pageId : Nat)
  | write (pageId : Nat) (page : RawPage)

/-- The page an operation works on. -/
def PageOp.pageId : PageOp → Nat
  | .read pageId => pageId
  | .write pageId _ => pageId

/-- Operations on the file, with the pages read. -/
def NaiveStorage.run : List PageOp → Bytes → List RawPage × Bytes
  | [], bytes => ([], bytes)
  | .read pageId :: ops, bytes =>
      (NaiveStorage.readPage bytes pageId :: (run ops bytes).1, (run ops bytes).2)
  | .write pageId page :: ops, bytes => run ops (NaiveStorage.writePage bytes pageId page)

/-- Operations on an engine, each through a handle of its own, with the pages read. -/
def StorageEngine.runPages : List PageOp → EStateM Error StorageEngine (List RawPage)
  | [] => pure []
  | .read pageId :: ops => do
      let page ← withPage pageId id
      let pages ← runPages ops
      return page :: pages
  | .write pageId page :: ops => do
      discard (withPage pageId fun _ => page)
      runPages ops

/-! ## Files by their pages -/

/-- A file is its length and its pages, the last one filled up. -/
theorem bytes_eq_of_pageAt {a b : Bytes} (hlen : a.length = b.length)
    (hpages : pageAt a = pageAt b) : a = b := by
  apply List.ext_getElem?
  intro i
  by_cases hi : i < a.length
  · have hpage := congrArg (fun page : RawPage => page.bytes[i % PAGE_SIZE]?)
      (congrFun hpages (i / PAGE_SIZE))
    have hmod : i % PAGE_SIZE < PAGE_SIZE := Nat.mod_lt i (by decide)
    have haddr : i / PAGE_SIZE * PAGE_SIZE + i % PAGE_SIZE = i := Nat.div_add_mod' i PAGE_SIZE
    simp only [pageAt, RawPage.getElem?_ofBytes, if_pos hmod, getElem?_slice, haddr,
      Option.some.injEq] at hpage
    rw [List.getElem?_eq_getElem hi, List.getElem?_eq_getElem (by omega)] at hpage ⊢
    rw [Option.getD_some, Option.getD_some] at hpage
    rw [hpage]
  · rw [List.getElem?_eq_none (by omega), List.getElem?_eq_none (by omega)]

section Naive

variable {file : Bytes} {p : Nat}

theorem readPage_eq (h : (p + 1) * PAGE_SIZE ≤ file.length) :
    NaiveStorage.readPage file p = pageAt file p := by
  have hlen : (slice file (p * PAGE_SIZE) PAGE_SIZE).length = PAGE_SIZE :=
    length_slice (by rw [← Nat.succ_mul]; exact h)
  unfold NaiveStorage.readPage NaiveStorage.pread
  dsimp only
  rw [if_neg (by simpa using hlen)]
  rfl

/-- Inside the file a write is a write in place. -/
theorem writePage_eq (h : (p + 1) * PAGE_SIZE ≤ file.length) (page : RawPage) :
    NaiveStorage.writePage file p page = overwrite file (p * PAGE_SIZE) page.bytes := by
  have hsize := page.size_eq
  have hend : p * PAGE_SIZE + page.bytes.length ≤ file.length := by
    rw [hsize, ← Nat.succ_mul]
    exact h
  unfold NaiveStorage.writePage NaiveStorage.pwrite overwrite
  rw [Nat.sub_eq_zero_of_le (by omega), List.replicate_zero, List.append_nil,
    List.take_of_length_le (i := file.length)]
  simp only [List.length_append, List.length_take, List.length_drop]
  omega

theorem length_writePage (h : (p + 1) * PAGE_SIZE ≤ file.length) (page : RawPage) :
    (NaiveStorage.writePage file p page).length = file.length := by
  rw [writePage_eq h, length_overwrite]

theorem pageAt_writePage (h : (p + 1) * PAGE_SIZE ≤ file.length) (page : RawPage) :
    pageAt (NaiveStorage.writePage file p page) = Function.update (pageAt file) p page := by
  have hsize := page.size_eq
  funext q
  rw [writePage_eq h]
  unfold pageAt
  by_cases hq : q = p
  · rw [hq, Function.update_self, ← hsize,
      slice_overwrite_self (by rw [hsize, ← Nat.succ_mul]; exact h), RawPage.ofBytes_bytes]
  · rw [Function.update_of_ne hq, slice_overwrite_of_disjoint]
    rw [hsize]
    simp only [PAGE_SIZE]
    omega

end Naive

/-! ## The same answers, the same file -/

/-- The engine shows what the file without a cache holds. -/
structure Alike (e : StorageEngine) (capacity : Nat) (order : List Nat) (bytes : Bytes) : Prop where
  idle : Idle e.cache capacity order
  visible : e.cache.visible = pageAt bytes
  length : e.file.bytes.length = bytes.length

variable {capacity : Nat}

/-- The pages of the file lie in it. -/
theorem Alike.inside {e : StorageEngine} {order : List Nat} {bytes : Bytes}
    (h : Alike e capacity order bytes) {p : Nat} (hp : p < e.getTotalPages) :
    (p + 1) * PAGE_SIZE ≤ bytes.length := by
  have hcount : e.getTotalPages = bytes.length / PAGE_SIZE := by
    rw [← h.length]
    exact h.idle.inStep.count
  calc (p + 1) * PAGE_SIZE ≤ bytes.length / PAGE_SIZE * PAGE_SIZE :=
        Nat.mul_le_mul_right _ (by omega)
    _ ≤ bytes.length := Nat.div_mul_le_self _ _

theorem Alike.run (hcap : 1 ≤ capacity) (ops : List PageOp) :
    ∀ {e : StorageEngine} {order : List Nat} {bytes : Bytes}, Alike e capacity order bytes →
      (∀ op ∈ ops, op.pageId < e.getTotalPages) →
      ∃ e' order', runPages ops e = .ok (NaiveStorage.run ops bytes).1 e' ∧
        Alike e' capacity order' (NaiveStorage.run ops bytes).2 := by
  induction ops with
  | nil => exact fun {e order bytes} h _ => ⟨e, order, rfl, h⟩
  | cons op ops ih =>
      intro e order bytes h hrange
      cases op with
      | read p =>
          have hp : p < e.getTotalPages := hrange (.read p) List.mem_cons_self
          have hinside := h.inside hp
          obtain ⟨e₁, heq, hused⟩ := withPage_idle h.idle hcap hp id
          have h₁ : Alike e₁ capacity (touch capacity order p) bytes := by
            refine ⟨hused.idle, ?_, hused.length.trans h.length⟩
            rw [hused.visible, ← h.visible]
            exact Function.update_eq_self p _
          obtain ⟨e₂, order', hrun, h₂⟩ := ih h₁ fun op hop => by
            show op.pageId < e₁.cache.file.pageCount
            rw [hused.count]
            exact hrange op (List.mem_cons_of_mem _ hop)
          refine ⟨e₂, order', ?_, h₂⟩
          have hpage : id (e.cache.visible p) = NaiveStorage.readPage bytes p := by
            rw [readPage_eq hinside, h.visible]
            rfl
          rw [hpage] at heq
          simp only [runPages, bind, EStateM.bind, heq, hrun]
          rfl
      | write p page =>
          have hp : p < e.getTotalPages := hrange (.write p page) List.mem_cons_self
          have hinside := h.inside hp
          obtain ⟨e₁, heq, hused⟩ := withPage_idle h.idle hcap hp fun _ => page
          have h₁ : Alike e₁ capacity (touch capacity order p)
              (NaiveStorage.writePage bytes p page) := by
            refine ⟨hused.idle, ?_, ?_⟩
            · rw [hused.visible, pageAt_writePage hinside, h.visible]
            · rw [length_writePage hinside]
              exact hused.length.trans h.length
          obtain ⟨e₂, order', hrun, h₂⟩ := ih h₁ fun op hop => by
            show op.pageId < e₁.cache.file.pageCount
            rw [hused.count]
            exact hrange op (List.mem_cons_of_mem _ hop)
          refine ⟨e₂, order', ?_, h₂⟩
          simp only [runPages, bind, EStateM.bind, discard, Functor.discard, Functor.mapConst,
            EStateM.map, Function.comp, heq]
          exact hrun

/-- **A cache cannot be told from none.** On a file of fewer than 2^20 pages, with any number of frames
from one on: reads and writes of pages of the file, in any order, return and read through the engine what
they read without a cache, and behind a flush the file is the one that writes without a cache leave. -/
theorem cached_pages_as_naive (file : Option Bytes) (capacity : Nat) (hcap : 1 ≤ capacity)
    (observed : Bool) (hpages : (file.getD []).length / PAGE_SIZE < 2 ^ 20) (ops : List PageOp)
    (hrange : ∀ op ∈ ops, op.pageId < (file.getD []).length / PAGE_SIZE) :
    ∃ e, runPages ops (StorageEngine.new file capacity observed) =
        .ok (NaiveStorage.run ops (file.getD [])).1 e ∧
      e.flushAll.file.bytes = (NaiveStorage.run ops (file.getD [])).2 := by
  have hidle := idle_new file capacity observed hpages
  have hclean : Program.Clean (StorageEngine.new file capacity observed).cache := by
    intro p f hp
    exact absurd hp (by simp [StorageEngine.new, PageCache.new])
  have hstart : Alike (StorageEngine.new file capacity observed) capacity [] (file.getD []) :=
    ⟨hidle, (funext ((Program.clean_iff_visible _).mp hclean)).symm, rfl⟩
  obtain ⟨e, order, hrun, h⟩ := hstart.run hcap ops fun op hop => by
    show op.pageId < u32 _
    rw [u32_of_lt (by omega)]
    exact hrange op hop
  refine ⟨e, hrun, bytes_eq_of_pageAt ?_ ?_⟩
  · rw [← h.length]
    refine flushAll_rule (fun _ c => c.file.bytes.length = e.file.bytes.length) rfl ?_
    rintro p f _ c - - hlen
    exact (length_overwrite _ _ _).trans hlen
  · obtain ⟨hvisible, -, -⟩ := visible_flushAll h.idle.inRange
    have hflushed := Program.clean_flushAll h.idle.inRange
    rw [Program.clean_iff_visible] at hflushed
    rw [← h.visible, ← hvisible]
    exact funext hflushed

/-- Two pages and one frame. -/
theorem cached_pages_as_naive_two :
    ∃ e, runPages [.write 1 RawPage.reset, .read 0, .read 1]
        (StorageEngine.new (some (List.replicate 8192 7)) 1 false) =
        .ok (NaiveStorage.run [.write 1 RawPage.reset, .read 0, .read 1]
          (List.replicate 8192 7)).1 e ∧
      e.flushAll.file.bytes = (NaiveStorage.run [.write 1 RawPage.reset, .read 0, .read 1]
        (List.replicate 8192 7)).2 := by
  refine cached_pages_as_naive (some (List.replicate 8192 7)) 1 (by decide) false ?_
    [.write 1 RawPage.reset, .read 0, .read 1] ?_
  · rw [Option.getD_some, List.length_replicate]
    decide
  · intro op hop
    rw [Option.getD_some, List.length_replicate]
    simp only [List.mem_cons, List.not_mem_nil, or_false] at hop
    rcases hop with rfl | rfl | rfl <;> decide

end Aqa
