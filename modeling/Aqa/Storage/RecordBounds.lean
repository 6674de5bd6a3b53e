/-
# Aqa.Storage.RecordBounds — which bytes the record parser reads.

`read_record` follows pointers into the mapping. `parseInMemory` is its part behind the fetch over
the memory from the page's first byte on, with every window it loads; behind the page stands
whatever the process has mapped there. `parseInMemory_spec` ties it to `parseRecord`, and
`parse_stays_inside_iff` says on which pages the parser stays inside.
-/
import Aqa.Storage.StorageReader

namespace Aqa

open Aqa.Lib

/-! ## Memory -/

/-- The memory from the first byte of a page on. -/
abbrev Memory := Nat → UInt8

namespace Memory

/-- The `n` bytes at an offset. -/
def load (mem : Memory) (off n : Nat) : Bytes := (List.range n).map fun i => mem (off + i)

/-- The `uint16_t` at an offset. -/
def loadU16 (mem : Memory) (off : Nat) : Nat := leNat (mem.load off 2)

/-- The memory begins with the bytes of a page. -/
def Shows (mem : Memory) (page : RawPage) : Prop :=
  ∀ i, i < PAGE_SIZE → page.bytes[i]? = some (mem i)

/-- Inside the page memory and page agree. -/
theorem load_eq {mem : Memory} {page : RawPage} (h : mem.Shows page) {off n : Nat}
    (hend : off + n ≤ PAGE_SIZE) : mem.load off n = page.read off n := by
  apply List.ext_getElem?
  intro i
  rw [load, RawPage.read, getElem?_slice, List.getElem?_map]
  by_cases hi : i < n
  · rw [if_pos hi, h (off + i) (by omega), List.getElem?_range hi]
    rfl
  · rw [if_neg hi, List.getElem?_eq_none (by rw [List.length_range]; omega)]
    rfl

theorem loadU16_eq {mem : Memory} {page : RawPage} (h : mem.Shows page) {off : Nat}
    (hend : off + 2 ≤ PAGE_SIZE) : mem.loadU16 off = page.readU16 off := by
  rw [loadU16, RawPage.readU16, load_eq h hend]

end Memory

/-- A window of memory that is read. -/
structure Load where
  off : Nat
  len : Nat
  deriving DecidableEq, Repr

/-- The window covers an offset. -/
def Load.Reads (l : Load) (i : Nat) : Prop := l.off ≤ i ∧ i < l.off + l.len

/-- What a run of the parser returns and what it has read. -/
structure RecordParse where
  result : Option Record
  loads : List Load
  deriving DecidableEq, Repr

/-- No byte behind the page has been read. -/
def RecordParse.InPage (p : RecordParse) : Prop :=
  ∀ l ∈ p.loads, ∀ i, l.Reads i → i < PAGE_SIZE

namespace StorageReader

/-! ## The parser over memory -/

/-- The record header at an offset. -/
def headerAt (mem : Memory) (off : Nat) : RecordHeader :=
  ⟨leNat (mem.load off 1), mem.loadU16 (off + 1), mem.loadU16 (off + 3)⟩

/-- The end of `read_record`: `meta`, then the lengths and the bytes of key and value. `loads` is
what has been read before. -/
def parseRegion (mem : Memory) (off : Nat) (loads : List Load) : RecordParse :=
  let header := headerAt mem off
  let loads := loads ++ [⟨off, 1⟩]
  if header.metaByte = 0x01 then ⟨none, loads⟩
  else
    let keyPtr := off + RECORD_HEADER_SIZE
    let valPtr := keyPtr + header.keyLen
    ⟨some ⟨mem.load keyPtr header.keyLen, mem.load valPtr header.valLen⟩,
      loads ++ [⟨off + 1, 2⟩, ⟨keyPtr, header.keyLen⟩, ⟨off + 3, 2⟩, ⟨valPtr, header.valLen⟩]⟩

/-- The part of `read_record` behind the fetch, on the memory `raw_data` points to. -/
def parseInMemory (mem : Memory) (slotId : Nat) : RecordParse :=
  let count : Load := ⟨PAGE_HEADER_SIZE, 2⟩
  let entry := slotOffset slotId
  if slotId ≥ mem.loadU16 PAGE_HEADER_SIZE then ⟨none, [count]⟩
  -- `slot->offset >= PAGE_SIZE` ends the test before the length is read
  else if mem.loadU16 entry ≥ PAGE_SIZE then ⟨none, [count, ⟨entry, 2⟩]⟩
  else
    let loads : List Load := [count, ⟨entry, 2⟩, ⟨entry + 2, 2⟩]
    if mem.loadU16 entry + mem.loadU16 (entry + 2) > PAGE_SIZE then ⟨none, loads⟩
    else parseRegion mem (mem.loadU16 entry) loads

/-! ## The parser over memory and the parser over a page -/

theorem inPage_of_le {p : RecordParse} (h : ∀ l ∈ p.loads, l.off + l.len ≤ PAGE_SIZE) :
    p.InPage := by
  intro l hl i hi
  have hend := h l hl
  have hlt := hi.2
  omega

theorem not_inPage_of_mem {p : RecordParse} {l : Load} (hl : l ∈ p.loads) (hlen : 0 < l.len)
    (hend : PAGE_SIZE < l.off + l.len) : ¬ p.InPage := by
  intro h
  have hlast := h l hl (l.off + l.len - 1) ⟨by omega, by omega⟩
  omega

section Shows

variable {mem : Memory} {page : RawPage} (hmem : mem.Shows page)
include hmem

theorem headerAt_metaByte {off : Nat} (hoff : off < PAGE_SIZE) :
    (headerAt mem off).metaByte = (readHeader page off).metaByte := by
  show leNat (mem.load off 1) = leNat (page.read off 1)
  rw [Memory.load_eq hmem hoff]

theorem headerAt_eq {off : Nat} (hend : off + RECORD_HEADER_SIZE ≤ PAGE_SIZE) :
    headerAt mem off = readHeader page off := by
  unfold RECORD_HEADER_SIZE at hend
  rw [headerAt, readHeader, Memory.load_eq hmem (by omega), Memory.loadU16_eq hmem (by omega),
    Memory.loadU16_eq hmem (by omega)]

/-- `parseRecordAt` is the end of the parser, as long as that stays in the page. -/
theorem parseRegion_spec {off : Nat} (hoff : off < PAGE_SIZE) {loads : List Load}
    (hloads : ∀ l ∈ loads, l.off + l.len ≤ PAGE_SIZE) :
    match parseRecordAt page off with
    | .absent => (parseRegion mem off loads).result = none ∧ (parseRegion mem off loads).InPage
    | .found r => (parseRegion mem off loads).result = some r ∧ (parseRegion mem off loads).InPage
    | .outside => ¬ (parseRegion mem off loads).InPage := by
  have hmeta := headerAt_metaByte hmem hoff
  have hpage : PAGE_SIZE = 4096 := rfl
  have hsize : RECORD_HEADER_SIZE = 5 := rfl
  unfold parseRecordAt parseRegion
  dsimp only
  by_cases hdeleted : (readHeader page off).metaByte = 0x01
  · rw [if_pos hdeleted, if_pos (hmeta.trans hdeleted)]
    refine ⟨rfl, inPage_of_le ?_⟩
    intro l hl
    rcases List.mem_append.mp hl with hl | hl
    · exact hloads l hl
    · rw [List.mem_singleton.mp hl]
      exact hoff
  · have hkept : ¬ (headerAt mem off).metaByte = 0x01 := fun h => hdeleted (hmeta.symm.trans h)
    rw [if_neg hdeleted, if_neg hkept]
    by_cases hheader : off + RECORD_HEADER_SIZE ≤ PAGE_SIZE
    · rw [headerAt_eq hmem hheader]
      by_cases hend : off + RECORD_HEADER_SIZE + (readHeader page off).keyLen +
          (readHeader page off).valLen > PAGE_SIZE
      · -- key or value run over the end of the page
        rw [if_pos hend]
        dsimp only
        by_cases hval : (readHeader page off).valLen = 0
        · exact not_inPage_of_mem (l := ⟨off + RECORD_HEADER_SIZE, (readHeader page off).keyLen⟩)
            (by simp) (by dsimp only; omega) (by dsimp only; omega)
        · exact not_inPage_of_mem (l := ⟨off + RECORD_HEADER_SIZE + (readHeader page off).keyLen,
            (readHeader page off).valLen⟩) (by simp) (by dsimp only; omega) (by dsimp only; omega)
      · rw [if_neg hend]
        dsimp only
        rw [Memory.load_eq hmem (by omega), Memory.load_eq hmem (by omega)]
        refine ⟨rfl, inPage_of_le ?_⟩
        intro l hl
        simp only [List.mem_append, List.mem_cons, List.not_mem_nil, or_false] at hl
        rcases hl with (hl | rfl) | rfl | rfl | rfl | rfl
        · exact hloads l hl
        all_goals dsimp only; omega
    · -- the header itself runs over the end
      rw [if_pos (by omega)]
      dsimp only
      exact not_inPage_of_mem (l := ⟨off + 3, 2⟩) (by simp) Nat.two_pos (by dsimp only; omega)

/-- **`parseRecord` is the parser over memory.** It calls `outside` the runs that read a byte behind
the page, and has the result of all others. -/
theorem parseInMemory_spec (slotId : Nat) :
    match parseRecord page slotId with
    | .absent => (parseInMemory mem slotId).result = none ∧ (parseInMemory mem slotId).InPage
    | .found r => (parseInMemory mem slotId).result = some r ∧ (parseInMemory mem slotId).InPage
    | .outside => ¬ (parseInMemory mem slotId).InPage := by
  have hcount : mem.loadU16 PAGE_HEADER_SIZE = slotCount page := Memory.loadU16_eq hmem (by decide)
  have hpage : PAGE_SIZE = 4096 := rfl
  have hstart : PAGE_HEADER_SIZE = 64 := rfl
  unfold parseRecord parseInMemory
  dsimp only
  rw [hcount]
  by_cases habsent : slotId ≥ slotCount page
  · rw [if_pos habsent, if_pos habsent]
    refine ⟨rfl, inPage_of_le ?_⟩
    intro l hl
    rw [List.mem_singleton.mp hl]
    decide
  rw [if_neg habsent, if_neg habsent]
  by_cases hentry : slotOffset slotId + 2 > PAGE_SIZE
  · rw [if_pos hentry]
    dsimp only
    -- every run behind the count reads the offset of the slot
    apply not_inPage_of_mem (l := ⟨slotOffset slotId, 2⟩) _ Nat.two_pos hentry
    unfold parseRegion
    dsimp only
    split_ifs <;> simp
  rw [if_neg hentry, Memory.loadU16_eq hmem (by omega)]
  by_cases hrefused : page.readU16 (slotOffset slotId) ≥ PAGE_SIZE
  · rw [if_pos hrefused, if_pos hrefused]
    refine ⟨rfl, inPage_of_le ?_⟩
    intro l hl
    simp only [List.mem_cons, List.not_mem_nil, or_false] at hl
    rcases hl with rfl | rfl <;> dsimp only <;> omega
  rw [if_neg hrefused, if_neg hrefused]
  by_cases hlength : slotOffset slotId + SLOT_SIZE > PAGE_SIZE
  · rw [if_pos hlength]
    dsimp only
    apply not_inPage_of_mem (l := ⟨slotOffset slotId + 2, 2⟩) _ Nat.two_pos (by
      unfold SLOT_SIZE at hlength
      dsimp only
      omega)
    unfold parseRegion
    dsimp only
    split_ifs <;> simp
  have hslot : SLOT_SIZE = 4 := rfl
  rw [if_neg hlength, Memory.loadU16_eq hmem (by omega)]
  have hloads : ∀ l ∈ ([⟨PAGE_HEADER_SIZE, 2⟩, ⟨slotOffset slotId, 2⟩,
      ⟨slotOffset slotId + 2, 2⟩] : List Load), l.off + l.len ≤ PAGE_SIZE := by
    intro l hl
    simp only [List.mem_cons, List.not_mem_nil, or_false] at hl
    rcases hl with rfl | rfl | rfl <;> dsimp only <;> omega
  unfold readSlot
  dsimp only
  by_cases hrange : page.readU16 (slotOffset slotId) + page.readU16 (slotOffset slotId + 2) > PAGE_SIZE
  · rw [if_pos hrange, if_pos hrange]
    exact ⟨rfl, inPage_of_le hloads⟩
  · rw [if_neg hrange, if_neg hrange]
    exact parseRegion_spec hmem (by omega) hloads

end Shows

/-! ## Staying inside -/

/-- A parse stays inside: it reads no byte behind the page, and a record it returns belongs to a slot
whose entry lies in the page, whose range lies in the page, and whose range holds header, key and
value. -/
def StaysInside (mem : Memory) (slotId : Nat) : Prop :=
  (parseInMemory mem slotId).InPage ∧
    ((parseInMemory mem slotId).result = none ∨
      let slot : SlotEntry :=
        ⟨mem.loadU16 (slotOffset slotId), mem.loadU16 (slotOffset slotId + 2)⟩
      let header := headerAt mem slot.offset
      slotOffset slotId + SLOT_SIZE ≤ PAGE_SIZE ∧ slot.offset + slot.length ≤ PAGE_SIZE ∧
        RECORD_HEADER_SIZE + header.keyLen + header.valLen ≤ slot.length)

/-- A slot the parser can be trusted with: it is not in the directory, or its offset lies in the page
and is refused, or the entry lies in the page and the range is refused, or the record is deleted, or
the lengths of the record header fit into the slot. -/
def SlotSound (page : RawPage) (slotId : Nat) : Prop :=
  let entry := slotOffset slotId
  let slot := readSlot page entry
  let header := readHeader page slot.offset
  slotCount page ≤ slotId ∨
    entry + 2 ≤ PAGE_SIZE ∧ PAGE_SIZE ≤ slot.offset ∨
    entry + SLOT_SIZE ≤ PAGE_SIZE ∧
      (PAGE_SIZE < slot.offset + slot.length ∨ header.metaByte = 0x01 ∨
        RECORD_HEADER_SIZE + header.keyLen + header.valLen ≤ slot.length)

/-- Behind the directory's checks, a record that is not deleted stays inside when its lengths fit. -/
theorem staysInside_iff_of_range {mem : Memory} {page : RawPage} (hmem : mem.Shows page)
    {slotId : Nat} (hcount : slotId < slotCount page)
    (hentry : slotOffset slotId + SLOT_SIZE ≤ PAGE_SIZE)
    (hoff : (readSlot page (slotOffset slotId)).offset < PAGE_SIZE)
    (hrange : (readSlot page (slotOffset slotId)).offset +
      (readSlot page (slotOffset slotId)).length ≤ PAGE_SIZE) :
    StaysInside mem slotId ↔
      (readHeader page (readSlot page (slotOffset slotId)).offset).metaByte = 0x01 ∨
        RECORD_HEADER_SIZE + (readHeader page (readSlot page (slotOffset slotId)).offset).keyLen +
          (readHeader page (readSlot page (slotOffset slotId)).offset).valLen ≤
            (readSlot page (slotOffset slotId)).length := by
  have hsize : SLOT_SIZE = 4 := rfl
  have hspec := parseInMemory_spec hmem slotId
  have hslot : (⟨mem.loadU16 (slotOffset slotId), mem.loadU16 (slotOffset slotId + 2)⟩ : SlotEntry) =
      readSlot page (slotOffset slotId) := by
    rw [readSlot, Memory.loadU16_eq hmem (by omega), Memory.loadU16_eq hmem (by omega)]
  unfold StaysInside
  rw [hslot]
  unfold parseRecord at hspec
  rw [if_neg (by omega), if_neg (by omega),
    if_neg (show ¬ page.readU16 (slotOffset slotId) ≥ PAGE_SIZE from Nat.not_le.mpr hoff),
    if_neg (by omega)] at hspec
  dsimp only at hspec ⊢
  rw [if_neg (by omega)] at hspec
  generalize readSlot page (slotOffset slotId) = slot at hoff hrange hspec ⊢
  unfold parseRecordAt at hspec
  dsimp only at hspec
  by_cases hdeleted : (readHeader page slot.offset).metaByte = 0x01
  · rw [if_pos hdeleted] at hspec
    exact ⟨fun _ => Or.inl hdeleted, fun _ => ⟨hspec.2, Or.inl hspec.1⟩⟩
  rw [if_neg hdeleted] at hspec
  by_cases hend : slot.offset + RECORD_HEADER_SIZE + (readHeader page slot.offset).keyLen +
      (readHeader page slot.offset).valLen > PAGE_SIZE
  · rw [if_pos hend] at hspec
    refine ⟨fun h => absurd h.1 hspec, fun h => ?_⟩
    have hfits := h.resolve_left hdeleted
    omega
  · rw [if_neg hend] at hspec
    rw [headerAt_eq hmem (by omega)]
    constructor
    · rintro ⟨-, hnone | ⟨-, -, hfits⟩⟩
      · rw [hspec.1] at hnone
        exact absurd hnone (by simp)
      · exact Or.inr hfits
    · intro h
      exact ⟨hspec.2, Or.inr ⟨hentry, hrange, h.resolve_left hdeleted⟩⟩

theorem staysInside_iff {mem : Memory} {page : RawPage} (hmem : mem.Shows page) (slotId : Nat) :
    StaysInside mem slotId ↔ SlotSound page slotId := by
  have hspec := parseInMemory_spec hmem slotId
  have hsize : SLOT_SIZE = 4 := rfl
  have hoffset : (readSlot page (slotOffset slotId)).offset = page.readU16 (slotOffset slotId) := rfl
  unfold SlotSound
  dsimp only
  by_cases habsent : slotCount page ≤ slotId
  · unfold parseRecord at hspec
    rw [if_pos habsent] at hspec
    exact ⟨fun _ => Or.inl habsent, fun _ => ⟨hspec.2, Or.inl hspec.1⟩⟩
  unfold parseRecord at hspec
  rw [if_neg habsent] at hspec
  by_cases hentry : slotOffset slotId + 2 > PAGE_SIZE
  · rw [if_pos hentry] at hspec
    exact ⟨fun h => absurd h.1 hspec, fun h => by omega⟩
  rw [if_neg hentry] at hspec
  by_cases hrefused : page.readU16 (slotOffset slotId) ≥ PAGE_SIZE
  · rw [if_pos hrefused] at hspec
    exact ⟨fun _ => Or.inr (Or.inl ⟨by omega, hrefused⟩), fun _ => ⟨hspec.2, Or.inl hspec.1⟩⟩
  rw [if_neg hrefused] at hspec
  by_cases hlength : slotOffset slotId + SLOT_SIZE > PAGE_SIZE
  · rw [if_pos hlength] at hspec
    exact ⟨fun h => absurd h.1 hspec, fun h => by omega⟩
  rw [if_neg hlength] at hspec
  dsimp only at hspec
  by_cases hrange : (readSlot page (slotOffset slotId)).offset +
      (readSlot page (slotOffset slotId)).length > PAGE_SIZE
  · rw [if_pos hrange] at hspec
    exact ⟨fun _ => Or.inr (Or.inr ⟨by omega, Or.inl hrange⟩),
      fun _ => ⟨hspec.2, Or.inl hspec.1⟩⟩
  · rw [staysInside_iff_of_range hmem (by omega) (by omega) (by omega) (by omega)]
    constructor
    · exact fun h => Or.inr (Or.inr ⟨by omega, Or.inr h⟩)
    · rintro (h | h | ⟨-, h | h⟩)
      · exact absurd h habsent
      · exact absurd h.2 (by omega)
      · exact absurd h hrange
      · exact h

/-- **When the parser stays inside its page.** For every page and whatever stands behind it in memory:
a slot is read inside the page exactly when it is sound; and a scan reads inside the page exactly when
every slot below the slot count is. -/
theorem parse_stays_inside_iff (mem : Memory) (page : RawPage) (hmem : mem.Shows page) :
    (∀ slotId, StaysInside mem slotId ↔ SlotSound page slotId) ∧
      ((∀ slotId, slotId < slotCount page → StaysInside mem slotId) ↔
        ∀ slotId, slotId < slotCount page → SlotSound page slotId) :=
  ⟨staysInside_iff hmem, forall₂_congr fun slotId _ => staysInside_iff hmem slotId⟩

/-- A page of one slot and a record header where the slot says. -/
def pageOfHeader (slot : SlotEntry) (header : RecordHeader) : RawPage :=
  ((RawPage.zero.write PAGE_HEADER_SIZE (leBytes 2 1)).write (slotOffset 0) slot.toBytes).write
    slot.offset header.toBytes

/-- A page in memory with zeros behind it. -/
def memoryOf (page : RawPage) : Memory := fun i => page.bytes.getD i 0

theorem memoryOf_shows (page : RawPage) : (memoryOf page).Shows page := by
  intro i hi
  have hlt : i < page.bytes.length := by rw [page.size_eq]; exact hi
  rw [memoryOf, List.getD_eq_getElem _ _ hlt, List.getElem?_eq_getElem hlt]

/-- A page whose one record fits into its slot. -/
theorem parse_stays_inside_iff_fitting :
    (∀ slotId, StaysInside (memoryOf (pageOfHeader ⟨4000, 8⟩ ⟨0, 1, 2⟩)) slotId ↔
        SlotSound (pageOfHeader ⟨4000, 8⟩ ⟨0, 1, 2⟩) slotId) ∧
      ((∀ slotId, slotId < slotCount (pageOfHeader ⟨4000, 8⟩ ⟨0, 1, 2⟩) →
          StaysInside (memoryOf (pageOfHeader ⟨4000, 8⟩ ⟨0, 1, 2⟩)) slotId) ↔
        ∀ slotId, slotId < slotCount (pageOfHeader ⟨4000, 8⟩ ⟨0, 1, 2⟩) →
          SlotSound (pageOfHeader ⟨4000, 8⟩ ⟨0, 1, 2⟩) slotId) :=
  parse_stays_inside_iff _ _ (memoryOf_shows _)

/-- **A read behind the page.** Slot 0 names 5 bytes at 4000, and the header there claims a key of
200: the key is read up to byte 4205. -/
theorem key_read_behind_page :
    slotCount (pageOfHeader ⟨4000, 5⟩ ⟨0, 200, 0⟩) = 1 ∧
      ¬ StaysInside (memoryOf (pageOfHeader ⟨4000, 5⟩ ⟨0, 200, 0⟩)) 0 := by
  refine ⟨by decide +kernel, ?_⟩
  rw [staysInside_iff (memoryOf_shows _)]
  unfold SlotSound
  decide +kernel

end StorageReader

end Aqa
