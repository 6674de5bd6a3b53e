/-
# Aqa.Storage.StorageWriter — appending records to slotted pages.

The writer fills one page in memory. Behind the 64-byte header the payload starts with a 16-bit
slot count; the slot directory grows upwards from byte 66, four bytes a slot, and the records grow
downwards from the end of the page, each a five-byte header followed by key and value. A full page
is appended to the file.

`StorageWriter` holds the writer's memory. The file it appends to is passed along: both open modes
of the stream write at the end of the file as long as nobody else writes to it.
-/
import Aqa.Storage.Page

namespace Aqa

open Aqa.Lib

/-- `SLOT_SIZE`, also `sizeof(SlotEntry)`. -/
def SLOT_SIZE : Nat := 4

/-- `sizeof(RecordHeader)`: the flags byte and two 16-bit lengths, packed. -/
def RECORD_HEADER_SIZE : Nat := 5

/-- `SlotEntry`. -/
structure SlotEntry where
  offset : Nat
  length : Nat
  deriving DecidableEq, Repr

/-- `RecordHeader`. -/
structure RecordHeader where
  metaByte : Nat
  keyLen : Nat
  valLen : Nat
  deriving DecidableEq, Repr

/-- The bytes of a slot entry. -/
def SlotEntry.toBytes (s : SlotEntry) : Bytes := leBytes 2 s.offset ++ leBytes 2 s.length

/-- The bytes of a record header. -/
def RecordHeader.toBytes (h : RecordHeader) : Bytes :=
  leBytes 1 h.metaByte ++ (leBytes 2 h.keyLen ++ leBytes 2 h.valLen)

/-- `StorageWriter`. -/
structure StorageWriter where
  currentPage : RawPage
  currentPageId : Nat
  currentSlotCount : Nat
  freeSpaceOffset : Nat

namespace StorageWriter

/-- The bytes `reset_current_page` leaves in the page buffer. -/
def freshPage (pageId : Nat) : RawPage :=
  ((RawPage.zero.write 0 (leBytes 4 PAGE_MAGIC)).write 4 (leBytes 4 pageId)).write 8
    (leBytes 4 0xFFFFFFFF)

/-- `StorageWriter::reset_current_page`. -/
def resetCurrentPage (w : StorageWriter) : StorageWriter :=
  { w with
    currentPage := freshPage w.currentPageId
    currentSlotCount := 0
    freeSpaceOffset := PAGE_SIZE }

/-- `StorageWriter::StorageWriter` on a file that may not exist. -/
def new (file : Option Bytes) : StorageWriter × Bytes :=
  let fileSize := (file.getD []).length
  if file.isSome ∧ fileSize > 0 then
    (resetCurrentPage ⟨RawPage.reset, u32 (fileSize / PAGE_SIZE), 0, 0⟩, file.getD [])
  else
    (resetCurrentPage ⟨RawPage.reset, 0, 0, 0⟩, [])

/-- `StorageWriter::write_page_to_disk`. -/
def writePageToDisk (w : StorageWriter) (file : Bytes) : StorageWriter × Bytes :=
  let page := w.currentPage.write PAGE_HEADER_SIZE (leBytes 2 w.currentSlotCount)
  ({ w with currentPage := page }, file ++ page.bytes)

/-- `StorageWriter::flush`. -/
def flush (w : StorageWriter) (file : Bytes) : StorageWriter × Bytes :=
  if w.currentSlotCount > 0 ∨ w.currentPageId = 0 then w.writePageToDisk file else (w, file)

/-- Where the slot directory ends, relative to the payload. -/
def slotsEndOffset (w : StorageWriter) : Nat := 2 + w.currentSlotCount * SLOT_SIZE

/-- The size of a record with its header. -/
def recordDataSize (key value : Bytes) : Nat := RECORD_HEADER_SIZE + key.length + value.length

/-- The bytes copied to the page for a record. -/
def recordBytes (key value : Bytes) : Bytes :=
  let header : RecordHeader := ⟨0x00, u16 key.length, u16 value.length⟩
  header.toBytes ++ key ++ value

/-- `StorageWriter::try_insert_in_page`: the slot id when the record fits. -/
def tryInsertInPage (w : StorageWriter) (key value : Bytes) : Option (Nat × StorageWriter) :=
  let recordDataSize := recordDataSize key value
  let requiredSpace := SLOT_SIZE + recordDataSize
  let freeSpace := sizeSub w.freeSpaceOffset (PAGE_HEADER_SIZE + w.slotsEndOffset)
  if freeSpace < requiredSpace then
    none
  else
    let newRecordOffset := u16 (sizeSub w.freeSpaceOffset recordDataSize)
    let slot : SlotEntry := ⟨newRecordOffset, u16 recordDataSize⟩
    let page := (w.currentPage.write newRecordOffset (recordBytes key value)).write
      (PAGE_HEADER_SIZE + w.slotsEndOffset) slot.toBytes
    some (w.currentSlotCount,
      { w with
        currentPage := page
        currentSlotCount := u16 (w.currentSlotCount + 1)
        freeSpaceOffset := newRecordOffset })

/-- Close the current page and start the next one. -/
def nextPage (w : StorageWriter) (file : Bytes) : StorageWriter × Bytes :=
  let written := w.writePageToDisk file
  (resetCurrentPage { written.1 with currentPageId := u32 (written.1.currentPageId + 1) },
    written.2)

/-- `StorageWriter::append`. -/
def append (key value : Bytes) : EStateM Error (StorageWriter × Bytes) RecordID := fun s =>
  match s.1.tryInsertInPage key value with
  | some (slotId, w) => .ok ⟨w.currentPageId, slotId⟩ (w, s.2)
  | none =>
      let next := s.1.nextPage s.2
      match next.1.tryInsertInPage key value with
      | some (slotId, w) => .ok ⟨w.currentPageId, slotId⟩ (w, next.2)
      | none => .error (.runtimeError "Record too large for a single page!") next

/-- `StorageWriter::~StorageWriter`: what it leaves in the file. -/
def destroy (w : StorageWriter) (file : Bytes) : Bytes := (w.flush file).2

end StorageWriter

end Aqa
