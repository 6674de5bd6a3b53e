/-
# Aqa.Storage.DataFile — the data file as a list of pages of records.

`FileHolds base bytes pages` reads a data file as some pages `base` of which nothing is known,
followed by pages that hold the lists of records `pages`. `WriterHolds` relates the writer, with the
file behind it, to a `Pager`: closed pages in the file, the open page in memory, the id of the open
page equal to its position in the file. Every operation of the writer keeps it (`append_spec`,
`destroy_spec`, `new_spec`), and `shown` tells which pages the reading side finds at a page id:
addresses wrap every 2^20 pages.
-/
import Aqa.Storage.ReaderSpec

namespace Aqa

open Aqa.Lib

/-! ## Files of pages -/

/-- The file is the pages `base` followed by pages that hold these records. -/
def FileHolds (base : List RawPage) (bytes : Bytes) (pages : List (List Record)) : Prop :=
  ∃ raw : List RawPage, bytes = ((base ++ raw).map RawPage.bytes).flatten ∧
    List.Forall₂ Slotted.PageHolds raw pages

namespace FileHolds

variable {base : List RawPage} {bytes : Bytes} {pages : List (List Record)}

theorem nil (base : List RawPage) : FileHolds base (base.map RawPage.bytes).flatten [] :=
  ⟨[], by rw [List.append_nil], List.Forall₂.nil⟩

theorem concat (h : FileHolds base bytes pages) {page : RawPage} {recs : List Record}
    (hp : Slotted.PageHolds page recs) :
    FileHolds base (bytes ++ page.bytes) (pages ++ [recs]) := by
  obtain ⟨raw, rfl, hraw⟩ := h
  refine ⟨raw ++ [page], by simp, ?_⟩
  exact List.rel_append hraw (List.Forall₂.cons hp List.Forall₂.nil)

theorem raw_uniform (raw : List RawPage) : ∀ l ∈ raw.map RawPage.bytes, l.length = PAGE_SIZE := by
  intro l hl
  obtain ⟨page, _, rfl⟩ := List.mem_map.mp hl
  exact page.size_eq

theorem length_eq (h : FileHolds base bytes pages) :
    bytes.length = (base.length + pages.length) * PAGE_SIZE := by
  obtain ⟨raw, rfl, hraw⟩ := h
  rw [length_flatten_of_uniform (raw_uniform _), List.length_map, List.length_append,
    hraw.length_eq]

theorem length_div (h : FileHolds base bytes pages) :
    bytes.length / PAGE_SIZE = base.length + pages.length := by
  rw [h.length_eq]
  exact Nat.mul_div_cancel _ (by decide)

theorem pos_iff (h : FileHolds base bytes pages) :
    0 < bytes.length ↔ 0 < base.length + pages.length := by
  rw [h.length_eq]
  simp only [PAGE_SIZE]
  omega

end FileHolds

/-- A file of whole pages is the list of its pages. -/
theorem exists_pages {bytes : Bytes} (h : bytes.length % PAGE_SIZE = 0) :
    ∃ base : List RawPage, bytes = (base.map RawPage.bytes).flatten := by
  have htake : ∀ n, n * PAGE_SIZE ≤ bytes.length →
      bytes.take (n * PAGE_SIZE) = (((List.range n).map (MappedFile.pageAt bytes)).map RawPage.bytes).flatten := by
    intro n
    induction n with
    | zero => simp
    | succ n ih =>
        intro hle
        rw [Nat.succ_mul] at hle ⊢
        have hpage : (MappedFile.pageAt bytes n).bytes = slice bytes (n * PAGE_SIZE) PAGE_SIZE :=
          RawPage.ofBytes_of_length (length_slice hle)
        rw [List.take_add, ih (by omega), List.range_succ]
        simp [hpage, slice]
  refine ⟨(List.range (bytes.length / PAGE_SIZE)).map (MappedFile.pageAt bytes), ?_⟩
  rw [← htake (bytes.length / PAGE_SIZE) (Nat.div_mul_le_self _ _), List.take_of_length_le]
  have := Nat.div_add_mod bytes.length PAGE_SIZE
  rw [h, Nat.mul_comm] at this
  omega

/-- What the pages of a file show at a page id. -/
def shown {α : Type} (pages : List (List α)) (pageId : Nat) : List α :=
  (pages[pageId % 2 ^ 20]?).getD []

/-- Up to 2^20 pages the page ids show the file. -/
theorem flatMap_shown {α : Type} {pages : List (List α)} (h : pages.length ≤ 2 ^ 20) :
    (List.range pages.length).flatMap (shown pages) = pages.flatten := by
  have hget : ∀ p < pages.length, shown pages p = pages.getD p [] := by
    intro p hp
    rw [shown, Nat.mod_eq_of_lt (by omega), List.getD_eq_getElem?_getD]
  rw [List.flatMap_congr fun p hp => hget p (List.mem_range.mp hp), List.flatMap]
  congr 1
  apply List.ext_getElem
  · simp
  · intro p hp hp'
    simp [List.getElem?_eq_getElem hp']

theorem pageAddr_eq (pageId : Nat) :
    MappedFile.pageAddr pageId = pageId % 2 ^ 20 * PAGE_SIZE := by
  simp only [MappedFile.pageAddr, u32, PAGE_SIZE]
  omega

/-- The mapping shows the page at a position of the file. -/
theorem loadPage_raw {f : MappedFile} {raw : List RawPage}
    (hbytes : f.bytes = (raw.map RawPage.bytes).flatten) {p : Nat} {page : RawPage}
    (hp : raw[p % 2 ^ 20]? = some page) : f.loadPage p = page := by
  have hslice : slice f.bytes (MappedFile.pageAddr p) PAGE_SIZE = page.bytes := by
    rw [pageAddr_eq, hbytes]
    apply slice_flatten_of_uniform (FileHolds.raw_uniform raw)
    rw [List.getElem?_map, hp]
    rfl
  rw [MappedFile.loadPage, hslice, RawPage.ofBytes_bytes]

theorem FileHolds.loadPage_base {f : MappedFile} {base : List RawPage}
    {pages : List (List Record)} (h : FileHolds base f.bytes pages) {p : Nat}
    (hp : p % 2 ^ 20 < base.length) : f.loadPage p = base[p % 2 ^ 20] := by
  obtain ⟨raw, hbytes, hraw⟩ := h
  apply loadPage_raw hbytes
  rw [List.getElem?_append_left hp, List.getElem?_eq_getElem hp]

theorem FileHolds.loadPage_from {f : MappedFile} {base : List RawPage}
    {pages : List (List Record)} (h : FileHolds base f.bytes pages) {p : Nat}
    {recs : List Record} (hlo : base.length ≤ p % 2 ^ 20)
    (hp : pages[p % 2 ^ 20 - base.length]? = some recs) :
    Slotted.PageHolds (f.loadPage p) recs := by
  obtain ⟨raw, hbytes, hraw⟩ := h
  obtain ⟨hlt, hrecs⟩ := List.getElem?_eq_some_iff.mp hp
  have hlt' : p % 2 ^ 20 - base.length < raw.length := by rw [hraw.length_eq]; exact hlt
  have hload : f.loadPage p = raw[p % 2 ^ 20 - base.length] := by
    apply loadPage_raw hbytes
    rw [List.getElem?_append_right hlo, List.getElem?_eq_getElem hlt']
  rw [hload, ← hrecs]
  exact hraw.get hlt' hlt

/-- Without unknown pages the mapping shows the records of the file. -/
theorem FileHolds.loadPage {f : MappedFile} {pages : List (List Record)}
    (h : FileHolds [] f.bytes pages) {p : Nat} (hp : p % 2 ^ 20 < pages.length) :
    Slotted.PageHolds (f.loadPage p) (shown pages p) := by
  apply h.loadPage_from (Nat.zero_le _)
  rw [shown, List.length_nil, Nat.sub_zero, List.getElem?_eq_getElem hp, Option.getD_some]

/-! ## The writer -/

/-- The writer and its file, as the pages found in the file, the closed pages and the open one. -/
structure WriterHolds (base : List RawPage) (w : StorageWriter) (bytes : Bytes)
    (p : Pager Record) : Prop where
  file : FileHolds base bytes p.pages
  cur : Slotted.Holds w p.cur
  pageId : w.currentPageId = u32 (base.length + p.pages.length)

namespace StorageWriter

variable {base : List RawPage}

/-- A new writer continues behind the pages of the file. -/
theorem new_spec (file : Option Bytes) {pages : List (List Record)}
    (h : FileHolds base (file.getD []) pages) :
    ∃ w, StorageWriter.new file = (w, file.getD []) ∧
      WriterHolds base w (file.getD []) ⟨pages, []⟩ := by
  by_cases hpos : file.isSome ∧ (file.getD []).length > 0
  · refine ⟨_, by rw [StorageWriter.new, if_pos hpos], h, Slotted.holds_resetCurrentPage _, ?_⟩
    rw [resetCurrentPage, h.length_div]
  · have hnil : file.getD [] = [] := by
      cases file with
      | none => rfl
      | some bytes =>
          rw [← List.length_eq_zero_iff]
          simp only [Option.isSome_some, Option.getD_some, true_and] at hpos
          exact Nat.eq_zero_of_not_pos hpos
    have hzero : base.length + pages.length = 0 := by
      by_contra hne
      have := h.pos_iff.mpr (by omega)
      simp [hnil] at this
    refine ⟨_, by rw [StorageWriter.new, if_neg hpos, hnil], h,
      Slotted.holds_resetCurrentPage _, ?_⟩
    rw [hzero, u32_zero, resetCurrentPage]

/-- The page written to disk is the open page of the pager. -/
theorem writePageToDisk_spec {w : StorageWriter} {bytes : Bytes} {p : Pager Record}
    (h : WriterHolds base w bytes p) :
    FileHolds base (w.writePageToDisk bytes).2 (p.pages ++ [p.cur]) :=
  h.file.concat (Slotted.pageHolds_of_holds h.cur)

theorem nextPage_spec {w : StorageWriter} {bytes : Bytes} {p : Pager Record}
    (h : WriterHolds base w bytes p) :
    WriterHolds base (w.nextPage bytes).1 (w.nextPage bytes).2 p.close := by
  have hfile := writePageToDisk_spec h
  have hid : (w.writePageToDisk bytes).1.currentPageId = u32 (base.length + p.pages.length) := by
    rw [writePageToDisk]
    exact h.pageId
  rw [nextPage]
  generalize w.writePageToDisk bytes = out at hfile hid
  obtain ⟨w', bytes'⟩ := out
  simp only at hfile hid ⊢
  refine ⟨hfile, Slotted.holds_resetCurrentPage _, ?_⟩
  rw [resetCurrentPage]
  simp only [hid, Pager.close, List.length_append, List.length_singleton, u32_succ,
    Nat.add_assoc]

/-- What a writer leaves behind of its pages: the open one too, unless it is empty and not the page
with id 0. -/
def flushed {α : Type} (n : Nat) (p : Pager α) : List (List α) :=
  if p.cur ≠ [] ∨ u32 (n + p.pages.length) = 0 then p.pages ++ [p.cur] else p.pages

/-- When a flush writes. -/
theorem flush_iff {w : StorageWriter} {bytes : Bytes} {p : Pager Record}
    (h : WriterHolds base w bytes p) :
    (w.currentSlotCount > 0 ∨ w.currentPageId = 0) ↔
      (p.cur ≠ [] ∨ u32 (base.length + p.pages.length) = 0) := by
  rw [h.cur.slots, h.pageId, ← List.length_pos_iff]

theorem destroy_spec {w : StorageWriter} {bytes : Bytes} {p : Pager Record}
    (h : WriterHolds base w bytes p) : FileHolds base (w.destroy bytes) (flushed base.length p) := by
  have hcond := flush_iff h
  rw [destroy, flush, flushed]
  by_cases hc : p.cur ≠ [] ∨ u32 (base.length + p.pages.length) = 0
  · rw [if_pos (hcond.mpr hc), if_pos hc]
    exact writePageToDisk_spec h
  · rw [if_neg (fun hw => hc (hcond.mp hw)), if_neg hc]
    exact h.file

/-- The record id an accepted append returns: the last slot of the open page. -/
def lastRid {α : Type} (n : Nat) (p : Pager α) : RecordID :=
  ⟨u32 (n + p.pages.length), p.cur.length - 1⟩

theorem tryInsert_length {page page' : List Record} {r : Record}
    (h : Pager.tryInsert Record.need pageRoom page r = some page') :
    page'.length = page.length + 1 := by
  rw [Pager.tryInsert] at h
  split at h
  · rw [← Option.some.inj h, List.length_append, List.length_singleton]
  · exact absurd h (by simp)

/-- **`append` refines the pager**, in its result as in its effect. -/
theorem append_spec {w : StorageWriter} {bytes : Bytes} {p : Pager Record}
    (h : WriterHolds base w bytes p) (r : Record) :
    ∃ w' bytes', WriterHolds base w' bytes' (Pager.append Record.need pageRoom p r).2 ∧
      append r.key r.value (w, bytes) =
        if (Pager.append Record.need pageRoom p r).1 then
          .ok (lastRid base.length (Pager.append Record.need pageRoom p r).2) (w', bytes')
        else .error (.runtimeError "Record too large for a single page!") (w', bytes') := by
  have hfirst := Slotted.tryInsertInPage_spec h.cur r
  have hnext := nextPage_spec h
  obtain ⟨⟨w₁, bytes₁⟩, hout⟩ : ∃ out, w.nextPage bytes = out := ⟨_, rfl⟩
  rw [hout] at hnext
  have hclosed : Slotted.Holds w₁ [] := hnext.cur
  have hsecond := Slotted.tryInsertInPage_spec hclosed r
  cases hcur : Pager.tryInsert Record.need pageRoom p.cur r with
  | some page =>
      have hpager : Pager.append Record.need pageRoom p r = (true, ⟨p.pages, page⟩) := by
        simp only [Pager.append, hcur]
      rw [hcur] at hfirst
      obtain ⟨w', hins, hholds, hid⟩ := hfirst
      refine ⟨w', bytes, ?_, ?_⟩
      · rw [hpager]
        exact ⟨h.file, hholds, by rw [hid, h.pageId]⟩
      · simp only [hpager, append, hins, hid, h.pageId, lastRid, tryInsert_length hcur,
          Nat.add_sub_cancel, if_true]
  | none =>
      rw [hcur] at hfirst
      cases hfresh : Pager.tryInsert Record.need pageRoom [] r with
      | some page =>
          have hpager : Pager.append Record.need pageRoom p r = (true, ⟨p.close.pages, page⟩) := by
            simp only [Pager.append, hcur, hfresh]
          rw [hfresh] at hsecond
          obtain ⟨w', hins, hholds, hid⟩ := hsecond
          have hid₁ : w₁.currentPageId = u32 (base.length + p.close.pages.length) := hnext.pageId
          refine ⟨w', bytes₁, ?_, ?_⟩
          · rw [hpager]
            exact ⟨hnext.file, hholds, by rw [hid, hnext.pageId]⟩
          · simp only [hpager, append, hfirst, hout, hins, hid, hid₁, lastRid,
              tryInsert_length hfresh, List.length_nil, Nat.add_sub_cancel, if_true]
      | none =>
          have hpager : Pager.append Record.need pageRoom p r = (false, p.close) := by
            simp only [Pager.append, hcur, hfresh]
          rw [hfresh] at hsecond
          refine ⟨w₁, bytes₁, by rw [hpager]; exact hnext, ?_⟩
          simp only [hpager, append, hfirst, hout, hsecond, Bool.false_eq_true, if_false]

/-- An append only adds to the file. -/
theorem append_extends {key value : Bytes} {w w' : StorageWriter} {bytes bytes' : Bytes} {c : Bool}
    {rid : RecordID} {err : Error}
    (h : append key value (w, bytes) = if c then .ok rid (w', bytes') else .error err (w', bytes')) :
    ∃ more, bytes' = bytes ++ more := by
  have hnext : ∃ more, (w.nextPage bytes).2 = bytes ++ more := ⟨_, rfl⟩
  unfold append at h
  split at h
  · cases c
    · exact absurd h (by simp)
    · simp only [if_true, EStateM.Result.ok.injEq, Prod.mk.injEq] at h
      exact ⟨[], by rw [← h.2.2, List.append_nil]⟩
  · obtain ⟨more, hmore⟩ := hnext
    simp only at h
    split at h
    · cases c
      · exact absurd h (by simp)
      · simp only [if_true, EStateM.Result.ok.injEq, Prod.mk.injEq] at h
        exact ⟨more, by rw [← h.2.2, hmore]⟩
    · cases c
      · simp only [Bool.false_eq_true, if_false, EStateM.Result.error.injEq] at h
        exact ⟨more, by rw [← hmore, h.2]⟩
      · exact absurd h (by simp)

end StorageWriter

/-- A record fits a page exactly when key and value have at most 4021 bytes together. -/
theorem need_le_pageRoom_iff (r : Record) :
    Record.need r ≤ pageRoom ↔ r.key.length + r.value.length ≤ 4021 := by
  simp only [Record.need, StorageWriter.recordDataSize, SLOT_SIZE, RECORD_HEADER_SIZE, pageRoom,
    PAGE_SIZE, PAGE_HEADER_SIZE]
  omega

end Aqa
