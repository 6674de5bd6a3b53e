/-
# Aqa.Storage.MappedFile — a file mapped into memory.

`MappedFile` opens a file, remembers its size and maps it shared, so that what a stream appends to
the file later is part of `bytes` while `fileSize` and `pageCount` keep the values of the moment the
mapping was made. Page addresses are computed in `uint32_t`: `page_id * PAGE_SIZE` wraps at 2^32.

System calls are taken to succeed; the failing branches only throw.
-/
import Aqa.Storage.Page

namespace Aqa

open Aqa.Lib

/-- `MappedFile`, together with the current contents of the file it maps. -/
structure MappedFile where
  bytes : Bytes
  fileSize : Nat
  pageCount : Nat

namespace MappedFile

/-- `MappedFile::MappedFile`; `none` is a file that does not exist yet (`O_CREAT`). -/
def new (file : Option Bytes) : MappedFile :=
  let bytes := file.getD []
  { bytes := bytes
    fileSize := bytes.length
    pageCount := u32 (bytes.length / PAGE_SIZE) }

/-- The offset `get_page` adds to the start of the mapping. -/
def pageAddr (pageId : Nat) : Nat := u32 (pageId * PAGE_SIZE)

/-- `memcpy(frame, get_page(page_id), PAGE_SIZE)`. -/
def loadPage (f : MappedFile) (pageId : Nat) : RawPage :=
  RawPage.ofBytes (slice f.bytes (pageAddr pageId) PAGE_SIZE)

/-- `memcpy(get_page(page_id), frame, PAGE_SIZE)`. -/
def storePage (f : MappedFile) (pageId : Nat) (p : RawPage) : MappedFile :=
  { f with bytes := overwrite f.bytes (pageAddr pageId) p.bytes }

/-- `ftruncate`: cut a file, or fill it up with zero bytes. -/
def resize (bytes : Bytes) (size : Nat) : Bytes :=
  bytes.take size ++ List.replicate (size - bytes.length) 0

/-- `MappedFile::grow_file`. The new size is a product of two 32-bit operands. -/
def growFile (f : MappedFile) (newPageCount : Nat) : MappedFile :=
  if newPageCount ≤ f.pageCount then f
  else
    { bytes := resize f.bytes (u32 (newPageCount * PAGE_SIZE))
      fileSize := u32 (newPageCount * PAGE_SIZE)
      pageCount := newPageCount }

theorem length_resize (bytes : Bytes) (size : Nat) : (resize bytes size).length = size := by
  unfold resize
  rw [List.length_append, List.length_take, List.length_replicate]
  omega

/-! ## Pages by position -/

/-- The page at a position of a file. -/
def pageAt (bytes : Bytes) (p : Nat) : RawPage :=
  RawPage.ofBytes (slice bytes (p * PAGE_SIZE) PAGE_SIZE)

/-- Growing a file leaves its pages where they are. -/
theorem pageAt_append {bytes : Bytes} {p : Nat} (h : (p + 1) * PAGE_SIZE ≤ bytes.length)
    (more : Bytes) : pageAt (bytes ++ more) p = pageAt bytes p := by
  unfold pageAt
  rw [slice_append_left (by rw [← Nat.succ_mul]; exact h)]

theorem pageAt_append_page {bytes : Bytes} {p : Nat} (h : bytes.length = p * PAGE_SIZE)
    (page : RawPage) : pageAt (bytes ++ page.bytes) p = page := by
  unfold pageAt
  have hslice := slice_append_right bytes page.bytes 0 PAGE_SIZE
  rw [Nat.add_zero, h, ← page.size_eq, slice_zero_length, page.size_eq] at hslice
  rw [hslice, RawPage.ofBytes_bytes]

/-- Filling a file up with zero bytes leaves its pages where they are, and adds zero pages. -/
theorem pageAt_resize {bytes : Bytes} {size : Nat} (h : bytes.length ≤ size) (p : Nat) :
    pageAt (resize bytes size) p = pageAt bytes p := by
  unfold pageAt resize
  rw [List.take_of_length_le h]
  apply RawPage.ext
  apply List.ext_getElem?
  intro i
  rw [RawPage.getElem?_ofBytes, RawPage.getElem?_ofBytes]
  split
  · rename_i hi
    rw [getElem?_slice, getElem?_slice, if_pos hi, if_pos hi, List.getElem?_append]
    split
    · rfl
    · rename_i hend
      rw [List.getElem?_eq_none (l := bytes) (by omega), List.getElem?_replicate]
      split <;> rfl
  · rfl

/-- Below 2^20 pages the address of a page is its position. -/
theorem pageAddr_of_lt {p : Nat} (h : p < 2 ^ 20) : pageAddr p = p * PAGE_SIZE := by
  unfold pageAddr
  rw [u32_of_lt]
  simp only [PAGE_SIZE]
  omega

theorem loadPage_of_lt {f : MappedFile} {p : Nat} (h : p < 2 ^ 20) :
    f.loadPage p = pageAt f.bytes p := by
  rw [loadPage, pageAddr_of_lt h, pageAt]

/-- A page that is stored is the only one that changes. -/
theorem pageAt_storePage {f : MappedFile} {p q : Nat} (hp : p < 2 ^ 20)
    (hlen : (p + 1) * PAGE_SIZE ≤ f.bytes.length) (page : RawPage) :
    pageAt (f.storePage p page).bytes q = if q = p then page else pageAt f.bytes q := by
  have hpage := page.size_eq
  unfold pageAt storePage
  simp only [pageAddr_of_lt hp]
  by_cases hq : q = p
  · subst hq
    rw [if_pos rfl, ← hpage, slice_overwrite_self (by rw [hpage, ← Nat.succ_mul]; exact hlen),
      RawPage.ofBytes_bytes]
  · rw [if_neg hq, slice_overwrite_of_disjoint]
    rw [hpage]
    simp only [PAGE_SIZE]
    omega

theorem pageAddr_add_le {f : MappedFile} {pageId : Nat} (hp : pageId < f.pageCount)
    (hcount : f.pageCount * PAGE_SIZE ≤ f.bytes.length) :
    pageAddr pageId + PAGE_SIZE ≤ f.bytes.length := by
  have haddr : pageAddr pageId ≤ pageId * PAGE_SIZE := u32_le _
  simp only [PAGE_SIZE] at *
  omega

/-- Bytes written behind the mapped pages are not seen through the mapping. -/
theorem loadPage_append {f : MappedFile} {pageId : Nat} (hp : pageId < f.pageCount)
    (hcount : f.pageCount * PAGE_SIZE ≤ f.bytes.length) (more : Bytes) :
    MappedFile.loadPage { f with bytes := f.bytes ++ more } pageId = f.loadPage pageId := by
  unfold loadPage
  rw [slice_append_left (pageAddr_add_le hp hcount)]

/-- Storing a page as it was loaded changes nothing. -/
theorem storePage_loadPage {f : MappedFile} {pageId : Nat} (hp : pageId < f.pageCount)
    (hcount : f.pageCount * PAGE_SIZE ≤ f.bytes.length) :
    f.storePage pageId (f.loadPage pageId) = f := by
  have hle := pageAddr_add_le hp hcount
  rw [storePage, loadPage, RawPage.ofBytes_of_length (length_slice hle), overwrite_slice_self hle]

end MappedFile

end Aqa
