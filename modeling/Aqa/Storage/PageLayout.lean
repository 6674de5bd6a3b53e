/-
# Aqa.Storage.PageLayout — the layout of the writer's page, fill pattern by fill pattern.

The slot directory grows up from byte 66 and the records grow down from the end of the page.
`LaidOut` states that as the page buffer shows it: offsets, lengths and headers are read out of the
page, and an insertion is described by its exact, unwrapped numbers. It follows from the layout of
`Aqa.Storage.SlottedPage`, which every append keeps.
-/
import Aqa.Storage.WriterSessions

namespace Aqa

open Aqa.Lib

namespace StorageWriter

/-- Slot `i` of the directory of the open page. -/
def slotAt (w : StorageWriter) (i : Nat) : SlotEntry :=
  StorageReader.readSlot w.currentPage (StorageReader.slotOffset i)

/-- The header in front of the record of slot `i`. -/
def headerOf (w : StorageWriter) (i : Nat) : RecordHeader :=
  StorageReader.readHeader w.currentPage (w.slotAt i).offset

/-- Directory and records do not meet, and no record meets another one or the end of the page. -/
structure Separated (w : StorageWriter) : Prop where
  bounds : 64 + 2 + 4 * w.currentSlotCount ≤ w.freeSpaceOffset ∧ w.freeSpaceOffset ≤ 4096
  inside : ∀ i < w.currentSlotCount,
    w.freeSpaceOffset ≤ (w.slotAt i).offset ∧ (w.slotAt i).offset + (w.slotAt i).length ≤ 4096
  disjoint : ∀ i j, i < j → j < w.currentSlotCount →
    (w.slotAt j).offset + (w.slotAt j).length ≤ (w.slotAt i).offset
  lengths : ∀ i < w.currentSlotCount,
    (w.slotAt i).length = 5 + (w.headerOf i).keyLen + (w.headerOf i).valLen

/-- An insertion without a wrap-around or a cut: the numbers the page gets are those computed, and
what it held before stays. -/
structure Exact (w w' : StorageWriter) (key value : Bytes) (slotId : Nat) : Prop where
  id : slotId = w.currentSlotCount
  narrow : 5 + key.length + value.length < 2 ^ 16 ∧ w.currentSlotCount + 1 < 2 ^ 16
  count : w'.currentSlotCount = w.currentSlotCount + 1
  offset : w'.freeSpaceOffset + (5 + key.length + value.length) = w.freeSpaceOffset
  slot : w'.slotAt slotId = ⟨w'.freeSpaceOffset, 5 + key.length + value.length⟩
  header : w'.headerOf slotId = ⟨0, key.length, value.length⟩
  record : StorageReader.parseRecordAt w'.currentPage w'.freeSpaceOffset = .found ⟨key, value⟩
  slotsKept : ∀ i < w.currentSlotCount,
    w'.currentPage.read (StorageReader.slotOffset i) 4 =
      w.currentPage.read (StorageReader.slotOffset i) 4
  recordsKept : ∀ i < w.currentSlotCount,
    w'.currentPage.read (w.slotAt i).offset (w.slotAt i).length =
      w.currentPage.read (w.slotAt i).offset (w.slotAt i).length

/-- A page that is laid out as it should be, and an insertion into it that keeps to that. -/
structure LaidOut (w : StorageWriter) : Prop where
  separated : w.Separated
  free : sizeSub w.freeSpaceOffset (PAGE_HEADER_SIZE + w.slotsEndOffset) +
    (64 + 2 + 4 * w.currentSlotCount) = w.freeSpaceOffset
  accepts : ∀ key value, (w.tryInsertInPage key value).isSome ↔
    64 + 2 + 4 * (w.currentSlotCount + 1) + (5 + key.length + value.length) ≤ w.freeSpaceOffset
  insertion : ∀ key value slotId w', w.tryInsertInPage key value = some (slotId, w') →
    Exact w w' key value slotId

/-! ## The layout read out of the page -/

variable {w : StorageWriter} {recs : List Record}

theorem slotAt_of_holds (h : Slotted.Holds w recs) {i : Nat} {r : Record} (hi : recs[i]? = some r) :
    w.slotAt i = ⟨Slotted.recordOffset recs i, Slotted.dataSize r⟩ := h.slot i r hi

theorem exists_record (h : Slotted.Holds w recs) {i : Nat} (hi : i < w.currentSlotCount) :
    ∃ r, recs[i]? = some r := by
  rw [h.slots] at hi
  exact ⟨recs[i], List.getElem?_eq_getElem hi⟩

theorem separated_of_holds (h : Slotted.Holds w recs) : w.Separated := by
  obtain ⟨hdir, hused⟩ := Slotted.directory_le h.fits
  have hfree := h.free
  have hslots := h.slots
  simp only [StorageReader.slotOffset, PAGE_SIZE, PAGE_HEADER_SIZE, SLOT_SIZE] at hdir hused hfree
  refine ⟨by omega, ?_, ?_, ?_⟩
  · intro i hi
    obtain ⟨r, hr⟩ := exists_record h hi
    obtain ⟨hlow, hend⟩ := Slotted.region_bounds h.fits hr
    rw [slotAt_of_holds h hr, h.free]
    exact ⟨hlow, hend⟩
  · intro i j hij hj
    obtain ⟨s, hs⟩ := exists_record h hj
    obtain ⟨r, hr⟩ := exists_record h (lt_trans hij hj)
    rw [slotAt_of_holds h hr, slotAt_of_holds h hs]
    exact Slotted.regions_disjoint h.fits hij hs
  · intro i hi
    obtain ⟨r, hr⟩ := exists_record h hi
    obtain ⟨-, hend⟩ := Slotted.region_bounds h.fits hr
    have hheader : w.headerOf i = ⟨0, r.key.length, r.value.length⟩ := by
      rw [headerOf, slotAt_of_holds h hr]
      exact (Slotted.fields_of_region (h.region i r hr) hend).1
    rw [hheader, slotAt_of_holds h hr]
    rfl

/-! ## One insertion -/

/-- The page an accepted record leaves: its bytes and its slot are written, and nothing else. -/
theorem currentPage_tryInsertInPage {key value : Bytes} {slotId : Nat} {w' : StorageWriter}
    (h : w.tryInsertInPage key value = some (slotId, w')) :
    w'.currentPage = (w.currentPage.write w'.freeSpaceOffset (recordBytes key value)).write
      (PAGE_HEADER_SIZE + w.slotsEndOffset)
      (SlotEntry.toBytes ⟨w'.freeSpaceOffset, u16 (recordDataSize key value)⟩) := by
  unfold tryInsertInPage at h
  dsimp only at h
  split at h
  · cases h
  · cases h
    rfl

/-- The bytes below the directory's end and those from the free space's end on stay as they are. -/
theorem read_tryInsertInPage {key value : Bytes} {slotId : Nat} {w' : StorageWriter}
    (h : w.tryInsertInPage key value = some (slotId, w')) {off n : Nat}
    (hfree : w'.freeSpaceOffset + recordDataSize key value ≤ off ∨
      off + n ≤ PAGE_HEADER_SIZE + w.slotsEndOffset)
    (hgap : PAGE_HEADER_SIZE + w.slotsEndOffset + 4 ≤ w'.freeSpaceOffset) :
    w'.currentPage.read off n = w.currentPage.read off n := by
  have hlength : (recordBytes key value).length = recordDataSize key value :=
    Slotted.length_recordBytes ⟨key, value⟩
  have hslotLength : (SlotEntry.toBytes ⟨w'.freeSpaceOffset,
      u16 (recordDataSize key value)⟩).length = 4 := by
    simp [SlotEntry.toBytes]
  rw [currentPage_tryInsertInPage h, RawPage.read_write_of_disjoint (by rw [hslotLength]; omega),
    RawPage.read_write_of_disjoint (by rw [hlength]; omega)]

/-- A record is accepted exactly when its slot and its bytes fit between directory and records. -/
theorem tryInsertInPage_isSome (h : Slotted.Holds w recs) (key value : Bytes) :
    (w.tryInsertInPage key value).isSome ↔
      64 + 2 + 4 * (w.currentSlotCount + 1) + (5 + key.length + value.length) ≤ w.freeSpaceOffset := by
  obtain ⟨hdir, hused⟩ := Slotted.directory_le h.fits
  have hfree := Slotted.freeSpace_eq h
  have hroom := h.fits
  have hoffset := h.free
  have hslots := h.slots
  rw [Slotted.used_eq] at hfree hroom
  simp only [StorageReader.slotOffset, pageRoom, PAGE_SIZE, PAGE_HEADER_SIZE, SLOT_SIZE] at *
  have hsize : recordDataSize key value = 5 + key.length + value.length := rfl
  unfold tryInsertInPage
  dsimp only
  by_cases hfull : sizeSub w.freeSpaceOffset (PAGE_HEADER_SIZE + w.slotsEndOffset) <
      SLOT_SIZE + recordDataSize key value
  · rw [if_pos hfull]
    simp only [PAGE_HEADER_SIZE, SLOT_SIZE] at hfull
    simp only [Option.isSome_none, Bool.false_eq_true, false_iff]
    omega
  · rw [if_neg hfull]
    simp only [PAGE_HEADER_SIZE, SLOT_SIZE] at hfull
    simp only [Option.isSome_some, true_iff]
    omega

/-- An accepted record becomes the last one of the page. -/
theorem holds_tryInsertInPage (h : Slotted.Holds w recs) {key value : Bytes} {slotId : Nat}
    {w' : StorageWriter} (hins : w.tryInsertInPage key value = some (slotId, w')) :
    slotId = recs.length ∧ Slotted.Holds w' (recs ++ [⟨key, value⟩]) := by
  have hspec := Slotted.tryInsertInPage_spec h ⟨key, value⟩
  unfold Pager.tryInsert at hspec
  split at hspec
  · rename_i recs' heq
    obtain ⟨w'', hw'', hholds, -⟩ := hspec
    split at heq
    · cases heq
      rw [hw''] at hins
      cases hins
      exact ⟨rfl, hholds⟩
    · cases heq
  · rw [hspec] at hins
    cases hins

theorem exact_of_holds (h : Slotted.Holds w recs) {key value : Bytes} {slotId : Nat}
    {w' : StorageWriter} (hins : w.tryInsertInPage key value = some (slotId, w')) :
    Exact w w' key value slotId := by
  obtain ⟨hid, hholds⟩ := holds_tryInsertInPage h hins
  have hlast : (recs ++ [(⟨key, value⟩ : Record)])[slotId]? = some ⟨key, value⟩ := by
    rw [hid]
    simp
  have hsize : Slotted.dataSize ⟨key, value⟩ = 5 + key.length + value.length := rfl
  have hdata := Slotted.dataUsed_concat recs ⟨key, value⟩
  obtain ⟨hdir, hused⟩ := Slotted.directory_le hholds.fits
  have hlen : (recs ++ [(⟨key, value⟩ : Record)]).length = recs.length + 1 := by simp
  have hoffset : Slotted.recordOffset (recs ++ [⟨key, value⟩]) slotId = w'.freeSpaceOffset := by
    rw [hid, Slotted.recordOffset_last, hholds.free]
  have hslot : w'.slotAt slotId = ⟨w'.freeSpaceOffset, 5 + key.length + value.length⟩ := by
    rw [slotAt_of_holds hholds hlast, hoffset, hsize]
  have hregion := hholds.region slotId _ hlast
  have hend := (Slotted.region_bounds hholds.fits hlast).2
  rw [hoffset] at hregion hend
  have hfree := h.free
  have hfree' := hholds.free
  have hslots := h.slots
  have hslots' := hholds.slots
  -- the new slot lies behind the directory, the new record in front of the others
  have hgap : PAGE_HEADER_SIZE + w.slotsEndOffset + 4 ≤ w'.freeSpaceOffset := by
    rw [hlen] at hdir
    simp only [StorageReader.slotOffset, slotsEndOffset, PAGE_SIZE, PAGE_HEADER_SIZE, SLOT_SIZE]
      at *
    omega
  have hnew : recordDataSize key value = 5 + key.length + value.length := rfl
  simp only [StorageReader.slotOffset, PAGE_SIZE, PAGE_HEADER_SIZE, SLOT_SIZE] at hdir hused hfree hfree'
  refine ⟨by omega, by omega, by omega, by omega, hslot, ?_, ?_, ?_, ?_⟩
  · rw [headerOf, hslot]
    exact (Slotted.fields_of_region hregion hend).1
  · exact Slotted.parseRecordAt_of_region hregion hend
  · intro i hi
    refine read_tryInsertInPage hins (Or.inr ?_) hgap
    simp only [StorageReader.slotOffset, slotsEndOffset, SLOT_SIZE]
    omega
  · intro i hi
    obtain ⟨hlow, -⟩ := (separated_of_holds h).inside i hi
    exact read_tryInsertInPage hins (Or.inl (by omega)) hgap

theorem laidOut_of_holds (h : Slotted.Holds w recs) : LaidOut w where
  separated := separated_of_holds h
  free := by
    obtain ⟨hlow, -⟩ := (separated_of_holds h).bounds
    simp only [slotsEndOffset, PAGE_HEADER_SIZE, SLOT_SIZE]
    rw [sizeSub_of_le (by omega)]
    omega
  accepts := tryInsertInPage_isSome h
  insertion _ _ _ _ hins := exact_of_holds h hins

/-! ## Runs of appends -/

/-- Every append, accepted or not, leaves a page that holds some records. -/
theorem holds_appendCalls (rs : List Record) (h : Slotted.Holds w recs) (bytes : Bytes) :
    ∃ recs', Slotted.Holds (appendCalls rs (w, bytes)).2.1 recs' := by
  induction rs generalizing w recs bytes with
  | nil => exact ⟨recs, h⟩
  | cons r rs ih =>
      have hnext : Slotted.Holds (w.nextPage bytes).1 [] := Slotted.holds_resetCurrentPage _
      rw [appendCalls]
      unfold append
      dsimp only
      -- the record goes to the open page, to the next one, or to none
      cases hins : w.tryInsertInPage r.key r.value with
      | some out => exact ih (holds_tryInsertInPage h hins).2 bytes
      | none =>
          dsimp only
          cases hins' : (w.nextPage bytes).1.tryInsertInPage r.key r.value with
          | some out => exact ih (holds_tryInsertInPage hnext hins').2 _
          | none => exact ih hnext _

theorem holds_new (file : Option Bytes) : Slotted.Holds (StorageWriter.new file).1 [] := by
  unfold StorageWriter.new
  dsimp only
  split
  · exact Slotted.holds_resetCurrentPage _
  · exact Slotted.holds_resetCurrentPage _

/-- **The page of the writer is laid out as it should be, whatever was appended.** Between two
appends, and also between the two attempts of one append, when the next page has been begun. -/
theorem page_laid_out (file : Option Bytes) (rs : List Record) :
    LaidOut (appendCalls rs (StorageWriter.new file)).2.1 ∧
      ∀ bytes, LaidOut ((appendCalls rs (StorageWriter.new file)).2.1.nextPage bytes).1 := by
  obtain ⟨recs, h⟩ := holds_appendCalls rs (holds_new file) (StorageWriter.new file).2
  exact ⟨laidOut_of_holds h, fun bytes => laidOut_of_holds (Slotted.holds_resetCurrentPage _)⟩

end StorageWriter

end Aqa
