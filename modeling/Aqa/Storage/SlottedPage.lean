/-
# Aqa.Storage.SlottedPage — the slotted page as writer and reader agree on it.

`Layout page recs` says that a page holds the records `recs`: slot `i` of the directory names the
region of record `i`, the regions follow one another downwards from the end of the page, and the
directory ends before the last of them begins. It is what the writer maintains on its page buffer
(`Holds`), what `write_page_to_disk` completes with the slot count (`PageHolds`), and all the reader
needs (`parseRecord_of_holds`).

The one fact about sizes behind it is that directory and records share 4030 bytes: a page of `n`
records takes `Σ (9 + |key| + |value|)` of them. Every narrowing to 16 bits is exact below that.
-/
import Aqa.Lib.Pager
import Aqa.Storage.StorageReader

namespace Aqa

open Aqa.Lib

/-! ## Sizes -/

/-- What a record takes of a page: its slot and its data. -/
def Record.need (r : Record) : Nat := SLOT_SIZE + StorageWriter.recordDataSize r.key r.value

/-- What a page offers: all but the header and the slot count. -/
def pageRoom : Nat := PAGE_SIZE - PAGE_HEADER_SIZE - 2

namespace Slotted

/-- Size of a record's region. -/
def dataSize (r : Record) : Nat := StorageWriter.recordDataSize r.key r.value

/-- Total size of the records of a page. -/
def dataUsed (recs : List Record) : Nat := (recs.map dataSize).sum

/-- Where the region of record `i` starts. -/
def recordOffset (recs : List Record) (i : Nat) : Nat := PAGE_SIZE - dataUsed (recs.take (i + 1))

theorem dataSize_eq (r : Record) : dataSize r = 5 + r.key.length + r.value.length := rfl

theorem dataUsed_concat (recs : List Record) (r : Record) :
    dataUsed (recs ++ [r]) = dataUsed recs + dataSize r := by
  simp [dataUsed]

theorem dataUsed_take_le (recs : List Record) (n : Nat) : dataUsed (recs.take n) ≤ dataUsed recs := by
  have hsplit : dataUsed recs = dataUsed (recs.take n) + dataUsed (recs.drop n) := by
    rw [dataUsed, dataUsed, dataUsed, ← List.sum_append, ← List.map_append, List.take_append_drop]
  omega

theorem dataUsed_take_succ {recs : List Record} {i : Nat} {r : Record} (h : recs[i]? = some r) :
    dataUsed (recs.take (i + 1)) = dataUsed (recs.take i) + dataSize r := by
  rw [List.take_add_one, h, Option.toList_some, dataUsed_concat]

theorem recordOffset_concat {recs : List Record} {i : Nat} (r : Record) (h : i < recs.length) :
    recordOffset (recs ++ [r]) i = recordOffset recs i := by
  rw [recordOffset, recordOffset, List.take_append_of_le_length (by omega)]

theorem recordOffset_last (recs : List Record) (r : Record) :
    recordOffset (recs ++ [r]) recs.length = PAGE_SIZE - dataUsed (recs ++ [r]) := by
  rw [recordOffset, List.take_of_length_le (by simp)]

/-- The room a page's records take, in slots and data. -/
theorem used_eq (recs : List Record) :
    Pager.used Record.need recs = recs.length * SLOT_SIZE + dataUsed recs := by
  induction recs with
  | nil => rfl
  | cons r recs ih =>
      have hcons : Pager.used Record.need (r :: recs)
          = Record.need r + Pager.used Record.need recs := by
        simp [Pager.used]
      have hdata : dataUsed (r :: recs) = dataSize r + dataUsed recs := by simp [dataUsed]
      have hneed : Record.need r = SLOT_SIZE + dataSize r := rfl
      rw [hcons, hdata, hneed, ih, List.length_cons]
      ring

/-! ## The layout -/

/-- Directory and record regions of a page that holds `recs`. -/
structure Layout (page : RawPage) (recs : List Record) : Prop where
  fits : Pager.used Record.need recs ≤ pageRoom
  slot : ∀ i r, recs[i]? = some r →
    StorageReader.readSlot page (StorageReader.slotOffset i) =
      ⟨recordOffset recs i, dataSize r⟩
  region : ∀ i r, recs[i]? = some r →
    page.read (recordOffset recs i) (dataSize r) = StorageWriter.recordBytes r.key r.value

/-- A page as it is on disk: the layout and the slot count. -/
structure PageHolds (page : RawPage) (recs : List Record) : Prop extends Layout page recs where
  count : StorageReader.slotCount page = recs.length

/-- The directory ends before the records begin, and both lie in the page. -/
theorem directory_le {recs : List Record} (h : Pager.used Record.need recs ≤ pageRoom) :
    StorageReader.slotOffset recs.length ≤ PAGE_SIZE - dataUsed recs ∧
      dataUsed recs ≤ PAGE_SIZE := by
  rw [used_eq] at h
  simp only [StorageReader.slotOffset, pageRoom, PAGE_SIZE, PAGE_HEADER_SIZE, SLOT_SIZE] at *
  omega

theorem region_bounds {recs : List Record} (h : Pager.used Record.need recs ≤ pageRoom) {i : Nat}
    {r : Record} (hi : recs[i]? = some r) :
    PAGE_SIZE - dataUsed recs ≤ recordOffset recs i ∧
      recordOffset recs i + dataSize r ≤ PAGE_SIZE := by
  have hle := dataUsed_take_le recs (i + 1)
  have hsucc := dataUsed_take_succ hi
  have hused := (directory_le h).2
  rw [recordOffset]
  omega

theorem length_recordBytes (r : Record) :
    (StorageWriter.recordBytes r.key r.value).length = dataSize r := by
  simp only [StorageWriter.recordBytes, RecordHeader.toBytes, List.length_append, length_leBytes,
    dataSize_eq]

/-- The regions of two records do not meet. -/
theorem regions_disjoint {recs : List Record} (h : Pager.used Record.need recs ≤ pageRoom)
    {i j : Nat} {s : Record} (hij : i < j) (hj : recs[j]? = some s) :
    recordOffset recs j + dataSize s ≤ recordOffset recs i := by
  have hjs := dataUsed_take_succ hj
  have hjle := dataUsed_take_le recs (j + 1)
  have hused := (directory_le h).2
  have hmono : dataUsed (recs.take (i + 1)) ≤ dataUsed (recs.take j) := by
    have heq : recs.take (i + 1) = (recs.take j).take (i + 1) := by
      rw [List.take_take, Nat.min_eq_left (by omega)]
    rw [heq]
    exact dataUsed_take_le _ _
  rw [recordOffset, recordOffset]
  omega

/-! ## Reading -/

theorem readU16_eq {page : RawPage} {off x : Nat} (h : page.read off 2 = leBytes 2 x)
    (hx : x < 2 ^ 16) : page.readU16 off = x := by
  rw [RawPage.readU16, h, leNat_leBytes_of_lt (by simpa using hx)]

/-- A record's region is its header, with the lengths uncut, its key and its value. -/
theorem fields_of_region {page : RawPage} {off : Nat} {r : Record}
    (hregion : page.read off (dataSize r) = StorageWriter.recordBytes r.key r.value)
    (hend : off + dataSize r ≤ PAGE_SIZE) :
    StorageReader.readHeader page off = ⟨0, r.key.length, r.value.length⟩ ∧
      page.read (off + 5) r.key.length = r.key ∧
      page.read (off + 5 + r.key.length) r.value.length = r.value := by
  have hsize := dataSize_eq r
  have hpage : PAGE_SIZE = 4096 := rfl
  have hk : r.key.length < 2 ^ 16 := by omega
  have hv : r.value.length < 2 ^ 16 := by omega
  have hbytes : StorageWriter.recordBytes r.key r.value =
      leBytes 1 0 ++ (leBytes 2 r.key.length ++ (leBytes 2 r.value.length ++
        (r.key ++ r.value))) := by
    simp only [StorageWriter.recordBytes, RecordHeader.toBytes, u16_of_lt hk, u16_of_lt hv,
      List.append_assoc]
  rw [hbytes] at hregion
  rw [show dataSize r = 1 + (2 + (2 + (r.key.length + r.value.length))) by omega] at hregion
  obtain ⟨hmeta, hregion⟩ := slice_split hregion (length_leBytes 1 0)
  obtain ⟨hkey, hregion⟩ := slice_split hregion (length_leBytes 2 _)
  obtain ⟨hval, hregion⟩ := slice_split hregion (length_leBytes 2 _)
  obtain ⟨hkeyBytes, hvalBytes⟩ := slice_split hregion rfl
  have hheader : StorageReader.readHeader page off = ⟨0, r.key.length, r.value.length⟩ := by
    have hflags : leNat (page.read off 1) = 0 := by
      rw [RawPage.read, hmeta]
      rfl
    rw [StorageReader.readHeader, hflags, readU16_eq hkey hk, readU16_eq hval hv]
  exact ⟨hheader, hkeyBytes, hvalBytes⟩

/-- The reader finds in a record's region what the writer put there. -/
theorem parseRecordAt_of_region {page : RawPage} {off : Nat} {r : Record}
    (hregion : page.read off (dataSize r) = StorageWriter.recordBytes r.key r.value)
    (hend : off + dataSize r ≤ PAGE_SIZE) :
    StorageReader.parseRecordAt page off = .found r := by
  obtain ⟨hheader, hkeyRead, hvalRead⟩ := fields_of_region hregion hend
  rw [dataSize_eq] at hend
  simp only [StorageReader.parseRecordAt, hheader, RECORD_HEADER_SIZE]
  rw [if_neg (by decide), if_neg (by omega), hkeyRead, hvalRead]

/-- **The reader inverts the layout.** Slot `i` of a page that holds `recs` gives record `i`; a slot
past the directory gives none. -/
theorem parseRecord_of_holds {page : RawPage} {recs : List Record} (h : PageHolds page recs)
    (i : Nat) :
    StorageReader.parseRecord page i =
      match recs[i]? with
      | some r => .found r
      | none => .absent := by
  have hroom := h.fits
  rw [used_eq] at hroom
  simp only [pageRoom, PAGE_SIZE, PAGE_HEADER_SIZE, SLOT_SIZE] at hroom
  cases hi : recs[i]? with
  | none =>
      have hge : recs.length ≤ i := List.getElem?_eq_none_iff.mp hi
      rw [StorageReader.parseRecord, if_pos (by rw [h.count]; omega)]
  | some r =>
      have hlt : i < recs.length := (List.getElem?_eq_some_iff.mp hi).1
      obtain ⟨_, hend⟩ := region_bounds h.fits hi
      have hpos : 5 ≤ dataSize r := by rw [dataSize_eq]; omega
      have hdir : StorageReader.slotOffset i + SLOT_SIZE ≤ PAGE_SIZE := by
        simp only [StorageReader.slotOffset, PAGE_HEADER_SIZE, SLOT_SIZE, PAGE_SIZE]
        omega
      have hslot := h.slot i r hi
      have hoff : page.readU16 (StorageReader.slotOffset i) = recordOffset recs i :=
        congrArg SlotEntry.offset hslot
      unfold StorageReader.parseRecord
      rw [if_neg (by rw [h.count]; omega), if_neg (by simp only [SLOT_SIZE] at hdir; omega),
        if_neg (by omega), if_neg (by omega), hslot]
      dsimp only
      rw [if_neg (by omega)]
      exact parseRecordAt_of_region (h.region i r hi) hend

/-! ## Writing -/

/-- The writer's memory while its current page holds `recs`. -/
structure Holds (w : StorageWriter) (recs : List Record) : Prop extends
    Layout w.currentPage recs where
  slots : w.currentSlotCount = recs.length
  free : w.freeSpaceOffset = PAGE_SIZE - dataUsed recs

theorem holds_resetCurrentPage (w : StorageWriter) : Holds w.resetCurrentPage [] where
  fits := by simp [Pager.used]
  slot := by simp
  region := by simp
  slots := rfl
  free := rfl

/-- The free space the writer computes, without wrap-around. -/
theorem freeSpace_eq {w : StorageWriter} {recs : List Record} (h : Holds w recs) :
    sizeSub w.freeSpaceOffset (PAGE_HEADER_SIZE + w.slotsEndOffset) =
      pageRoom - Pager.used Record.need recs := by
  obtain ⟨hdir, hused⟩ := directory_le h.fits
  have hroom := h.fits
  rw [used_eq] at hroom ⊢
  rw [h.free, StorageWriter.slotsEndOffset, h.slots]
  simp only [StorageReader.slotOffset, pageRoom, PAGE_SIZE, PAGE_HEADER_SIZE, SLOT_SIZE] at *
  rw [sizeSub_of_le (by omega)]
  omega

/-- A write below the record regions of a page keeps its layout, directory included, when it stays
above the directory. -/
theorem Layout.write_gap {page : RawPage} {recs : List Record} (h : Layout page recs) {off : Nat}
    {bs : Bytes} (hlo : StorageReader.slotOffset recs.length ≤ off)
    (hhi : off + bs.length ≤ PAGE_SIZE - dataUsed recs) : Layout (page.write off bs) recs where
  fits := h.fits
  slot i r hi := by
    have hlt : i < recs.length := (List.getElem?_eq_some_iff.mp hi).1
    have hread : ∀ o, o + 2 ≤ off → (page.write off bs).readU16 o = page.readU16 o := by
      intro o ho
      rw [RawPage.readU16, RawPage.readU16, RawPage.read_write_of_disjoint (Or.inl ho)]
    have hdir : StorageReader.slotOffset i + 4 ≤ StorageReader.slotOffset recs.length := by
      simp only [StorageReader.slotOffset, SLOT_SIZE]
      omega
    rw [← h.slot i r hi, StorageReader.readSlot, StorageReader.readSlot, hread _ (by omega),
      hread _ (by omega)]
  region i r hi := by
    obtain ⟨hlow, _⟩ := region_bounds h.fits hi
    rw [← h.region i r hi, RawPage.read_write_of_disjoint (Or.inr (by omega))]

/-- The slot count stands in front of the directory. -/
theorem Layout.write_count {page : RawPage} {recs : List Record} (h : Layout page recs)
    (n : Nat) : Layout (page.write PAGE_HEADER_SIZE (leBytes 2 n)) recs where
  fits := h.fits
  slot i r hi := by
    have hread : ∀ o, PAGE_HEADER_SIZE + 2 ≤ o →
        (page.write PAGE_HEADER_SIZE (leBytes 2 n)).readU16 o = page.readU16 o := by
      intro o ho
      rw [RawPage.readU16, RawPage.readU16,
        RawPage.read_write_of_disjoint (Or.inr (by rw [length_leBytes]; exact ho))]
    rw [← h.slot i r hi, StorageReader.readSlot, StorageReader.readSlot,
      hread _ (by simp only [StorageReader.slotOffset]; omega),
      hread _ (by simp only [StorageReader.slotOffset]; omega)]
  region i r hi := by
    obtain ⟨hlow, _⟩ := region_bounds h.fits hi
    obtain ⟨hdir, _⟩ := directory_le h.fits
    rw [← h.region i r hi, RawPage.read_write_of_disjoint (Or.inr ?_)]
    rw [length_leBytes]
    simp only [StorageReader.slotOffset] at hdir
    omega

/-- What `write_page_to_disk` appends to the file holds the records of the current page. -/
theorem pageHolds_of_holds {w : StorageWriter} {recs : List Record} (h : Holds w recs) :
    PageHolds (w.currentPage.write PAGE_HEADER_SIZE (leBytes 2 w.currentSlotCount)) recs where
  toLayout := h.toLayout.write_count _
  count := by
    have hroom := h.fits
    rw [used_eq] at hroom
    simp only [pageRoom, PAGE_SIZE, PAGE_HEADER_SIZE, SLOT_SIZE] at hroom
    rw [h.slots]
    apply readU16_eq _ (by omega)
    exact RawPage.read_write_self' (length_leBytes 2 _) (by simp [PAGE_HEADER_SIZE, PAGE_SIZE])

/-- A slot that was written is read back. -/
theorem readSlot_write (page : RawPage) {off : Nat} {slot : SlotEntry} (hoffset : slot.offset < 2 ^ 16)
    (hlength : slot.length < 2 ^ 16) (hin : off + 4 ≤ PAGE_SIZE) :
    StorageReader.readSlot (page.write off slot.toBytes) off = slot := by
  have hlen : slot.toBytes.length = 4 := by simp [SlotEntry.toBytes]
  rw [StorageReader.readSlot]
  congr 1
  · apply readU16_eq _ hoffset
    rw [RawPage.read_write_within (by rw [hlen]; exact hin) (le_refl _) (by omega), Nat.sub_self,
      SlotEntry.toBytes, slice_append_left (by simp)]
    rfl
  · apply readU16_eq _ hlength
    rw [RawPage.read_write_within (by rw [hlen]; exact hin) (by omega) (by omega),
      Nat.add_sub_cancel_left, SlotEntry.toBytes]
    have hslice := slice_append_right (leBytes 2 slot.offset) (leBytes 2 slot.length) 0 2
    rw [length_leBytes] at hslice
    rw [hslice]
    rfl

/-- The writer after a record has been put on its page. -/
theorem layout_insert {page : RawPage} {recs : List Record} (h : Layout page recs) {r : Record}
    (hfits : Pager.used Record.need (recs ++ [r]) ≤ pageRoom) :
    Layout
      ((page.write (PAGE_SIZE - dataUsed (recs ++ [r])) (StorageWriter.recordBytes r.key r.value)).write
        (StorageReader.slotOffset recs.length)
        (SlotEntry.toBytes ⟨PAGE_SIZE - dataUsed (recs ++ [r]), dataSize r⟩))
      (recs ++ [r]) := by
  obtain ⟨hdir, hused⟩ := directory_le hfits
  have hdata := dataUsed_concat recs r
  have hlen : (recs ++ [r]).length = recs.length + 1 := by simp
  have hpage : PAGE_SIZE = 4096 := rfl
  have hslotlen : (SlotEntry.toBytes ⟨PAGE_SIZE - dataUsed (recs ++ [r]), dataSize r⟩).length = 4 := by
    simp [SlotEntry.toBytes]
  have hgap : StorageReader.slotOffset recs.length + 4 ≤ PAGE_SIZE - dataUsed (recs ++ [r]) := by
    rw [hlen] at hdir
    simp only [StorageReader.slotOffset, SLOT_SIZE] at hdir ⊢
    omega
  -- the record goes into the gap, and then the slot in front of it
  have h₁ : Layout (page.write (PAGE_SIZE - dataUsed (recs ++ [r]))
      (StorageWriter.recordBytes r.key r.value)) recs :=
    h.write_gap (by omega) (by rw [length_recordBytes]; omega)
  have h₂ : Layout ((page.write (PAGE_SIZE - dataUsed (recs ++ [r]))
      (StorageWriter.recordBytes r.key r.value)).write (StorageReader.slotOffset recs.length)
      (SlotEntry.toBytes ⟨PAGE_SIZE - dataUsed (recs ++ [r]), dataSize r⟩)) recs :=
    h₁.write_gap le_rfl (by rw [hslotlen]; omega)
  have hold : ∀ i s, (recs ++ [r])[i]? = some s → i ≠ recs.length → recs[i]? = some s := by
    intro i s hi hne
    have hlt : i < (recs ++ [r]).length := (List.getElem?_eq_some_iff.mp hi).1
    rw [List.getElem?_append_left (by omega)] at hi
    exact hi
  refine ⟨hfits, ?_, ?_⟩
  · intro i s hi
    by_cases hlast : i = recs.length
    · subst hlast
      have hs : s = r := by simpa using hi.symm
      subst hs
      have hoff : PAGE_SIZE - dataUsed (recs ++ [s]) < 2 ^ 16 := by omega
      have hsz : dataSize s < 2 ^ 16 := by omega
      rw [recordOffset_last]
      exact readSlot_write _ hoff hsz (by omega)
    · have hi' := hold i s hi hlast
      rw [recordOffset_concat r (List.getElem?_eq_some_iff.mp hi').1]
      exact h₂.slot i s hi'
  · intro i s hi
    by_cases hlast : i = recs.length
    · subst hlast
      have hs : s = r := by simpa using hi.symm
      subst hs
      rw [recordOffset_last, RawPage.read_write_of_disjoint (Or.inr (by rw [hslotlen]; omega))]
      exact RawPage.read_write_self' (length_recordBytes s) (by omega)
    · have hi' := hold i s hi hlast
      rw [recordOffset_concat r (List.getElem?_eq_some_iff.mp hi').1]
      exact h₂.region i s hi'

/-- **`try_insert_in_page` refines the pager.** It accepts exactly when slot and data fit, and then
the page holds the record behind the others. -/
theorem tryInsertInPage_spec {w : StorageWriter} {recs : List Record} (h : Holds w recs)
    (r : Record) :
    match Pager.tryInsert Record.need pageRoom recs r with
    | some recs' => ∃ w', w.tryInsertInPage r.key r.value = some (recs.length, w') ∧
        Holds w' recs' ∧ w'.currentPageId = w.currentPageId
    | none => w.tryInsertInPage r.key r.value = none := by
  have hfree := freeSpace_eq h
  have hroom := h.fits
  have hneed : Record.need r = SLOT_SIZE + StorageWriter.recordDataSize r.key r.value := rfl
  rw [Pager.tryInsert]
  split
  · rename_i recs' heq
    split at heq
    · rename_i hle
      simp only [Option.some.injEq] at heq
      subst heq
      have hfits : Pager.used Record.need (recs ++ [r]) ≤ pageRoom := by
        simpa [Pager.used] using hle
      obtain ⟨hdir, hused⟩ := directory_le hfits
      have hdata := dataUsed_concat recs r
      have hpage : PAGE_SIZE = 4096 := rfl
      have hsz : StorageWriter.recordDataSize r.key r.value = dataSize r := rfl
      have hslots : recs.length + 1 < 2 ^ 16 := by
        simp only [StorageReader.slotOffset, SLOT_SIZE, List.length_append, List.length_singleton]
          at hdir
        omega
      have hoff : u16 (sizeSub w.freeSpaceOffset (StorageWriter.recordDataSize r.key r.value)) =
          PAGE_SIZE - dataUsed (recs ++ [r]) := by
        rw [hsz, h.free, sizeSub_of_le (by omega), u16_of_lt (by omega)]
        omega
      have hlen : u16 (StorageWriter.recordDataSize r.key r.value) = dataSize r := by
        rw [hsz, u16_of_lt (by omega)]
      have hslotpos : PAGE_HEADER_SIZE + w.slotsEndOffset =
          StorageReader.slotOffset recs.length := by
        rw [StorageWriter.slotsEndOffset, h.slots, StorageReader.slotOffset, Nat.add_assoc]
      -- nothing is cut to 16 bits or wraps, so the writer writes what `layout_insert` says
      have hlay := layout_insert h.toLayout hfits
      refine ⟨⟨_, w.currentPageId, recs.length + 1, PAGE_SIZE - dataUsed (recs ++ [r])⟩, ?_,
        ⟨hlay, by simp, rfl⟩, rfl⟩
      simp only [StorageWriter.tryInsertInPage]
      rw [if_neg (by rw [hfree]; omega)]
      simp only [hoff, hlen, hslotpos, h.slots, u16_of_lt hslots]
      rfl
    · exact absurd heq (by simp)
  · rename_i heq
    split at heq
    · exact absurd heq (by simp)
    · simp only [StorageWriter.tryInsertInPage]
      rw [if_pos (by rw [hfree]; omega)]

end Slotted

end Aqa
