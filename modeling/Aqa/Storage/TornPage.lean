/-
# Aqa.Storage.TornPage — a session on a file that ends inside a page.

The writer takes its page id from the length of the file, rounded down to whole pages, and its stream
appends at the end of the file. On a file that ends inside a page the two differ: the page written
first stands behind the torn bytes, and the reader finds it shifted. `torn_page_safe_iff` says that
the sessions on a file are safe exactly when its length is a multiple of the page size.
-/
import Aqa.Storage.WriterSessions

namespace Aqa

open Aqa.Lib StorageReader

/-! ## Reads on one reader -/

/-- How `read_record` ends on a reader of a file. -/
def readReturn (f : MappedFile) (rid : RecordID) : ReaderReturn :=
  if rid.pageId ≥ f.pageCount then .record none
  else
    match parseRecord (f.loadPage rid.pageId) rid.slotId with
    | .absent => .record none
    | .found r => .record (some r)
    | .outside => .threw (.undefinedBehaviour "read outside the page")

/-- What a reader has read before plays no part in its answers. -/
theorem readerCalls_readRecord (rids : List RecordID) {e : StorageEngine} (h : e.Idle) :
    readerCalls (rids.map ReaderCall.readRecord) e = rids.map (readReturn e.file) := by
  induction rids generalizing e with
  | nil => rfl
  | cons rid rids ih =>
      rw [List.map_cons, List.map_cons]
      by_cases hp : rid.pageId ≥ e.getTotalPages
      · have hread : readRecord rid e = .ok none e := by rw [readRecord, if_pos hp]
        have hreturn : readReturn e.file rid = .record none := if_pos hp
        simp only [readerCalls, hread]
        rw [ih h, hreturn]
      · obtain ⟨e', hidle, hfile, hread⟩ := readRecord_spec h rid (Nat.not_le.mp hp)
          (Or.inr fun _ => rfl)
        have hreturn : readReturn e.file rid =
            match parseRecord (e.view rid.pageId) rid.slotId with
            | .absent => .record none
            | .found r => .record (some r)
            | .outside => .threw (.undefinedBehaviour "read outside the page") :=
          if_neg hp
        rw [hreturn, ← hfile, ← ih hidle]
        cases hparse : parseRecord (e.view rid.pageId) rid.slotId with
        | absent =>
            rw [hparse] at hread
            simp only [readerCalls, hread]
        | found r =>
            rw [hparse] at hread
            simp only [readerCalls, hread]
        | outside =>
            rw [hparse] at hread
            simp only [readerCalls, hread]

/-! ## Safe sessions -/

/-- A session on a file is safe: a reader opened behind it, whatever else it reads, resolves every
returned record id to what was appended, and the record ids on the whole pages that were there before
as a reader opened before the session did. -/
def SessionSafe (bs : Bytes) (rs : List Record) : Prop :=
  ∀ (capacity : Nat) (observed : Bool) (rids : List RecordID), 1 ≤ capacity →
    let calls := rids.map ReaderCall.readRecord
    let before := readerCalls calls (StorageEngine.new (some bs) capacity observed)
    let after :=
      readerCalls calls (StorageEngine.new (some (session rs (some bs)).2) capacity observed)
    ∀ (i : Nat) (rid : RecordID), rids[i]? = some rid →
      (∀ r, (rid, r) ∈ accepted (session rs (some bs)).1 → after[i]? = some (ReaderReturn.record (some r))) ∧
        (rid.pageId < bs.length / PAGE_SIZE → after[i]? = before[i]?)

theorem sessionSafe_iff (bs : Bytes) (rs : List Record) :
    SessionSafe bs rs ↔
      ∀ rid,
        (∀ r, (rid, r) ∈ accepted (session rs (some bs)).1 →
          readReturn (MappedFile.new (some (session rs (some bs)).2)) rid = .record (some r)) ∧
        (rid.pageId < bs.length / PAGE_SIZE →
          readReturn (MappedFile.new (some (session rs (some bs)).2)) rid =
            readReturn (MappedFile.new (some bs)) rid) := by
  have hcalls : ∀ (file : Option Bytes) (capacity : Nat) (observed : Bool) (rids : List RecordID),
      1 ≤ capacity →
      readerCalls (rids.map ReaderCall.readRecord) (StorageEngine.new file capacity observed) =
        rids.map (readReturn (MappedFile.new file)) := fun file capacity observed rids hcap =>
    readerCalls_readRecord rids (StorageEngine.idle_new file observed hcap)
  constructor
  · intro h rid
    have hone := h 1 false [rid] le_rfl
    dsimp only at hone
    rw [hcalls _ 1 false _ le_rfl, hcalls _ 1 false _ le_rfl] at hone
    obtain ⟨hnew, hold⟩ := hone 0 rid rfl
    exact ⟨fun r hr => Option.some.inj (hnew r hr), fun hp => Option.some.inj (hold hp)⟩
  · intro h capacity observed rids hcap
    dsimp only
    rw [hcalls _ _ _ _ hcap, hcalls _ _ _ _ hcap]
    intro i rid hi
    rw [List.getElem?_map, List.getElem?_map, hi, Option.map_some, Option.map_some]
    obtain ⟨hnew, hold⟩ := h rid
    exact ⟨fun r hr => congrArg some (hnew r hr), fun hp => congrArg some (hold hp)⟩

/-! ## Files of whole pages -/

/-- Behind whole pages a session is safe while the file has at most 2^20 pages. -/
theorem sessionSafe_of_pages (base : List RawPage) (rs : List Record)
    (hsize : (session rs (some (base.map RawPage.bytes).flatten)).2.length / PAGE_SIZE ≤ 2 ^ 20) :
    SessionSafe (base.map RawPage.bytes).flatten rs := by
  rw [sessionSafe_iff]
  have hbase := FileHolds.nil base
  obtain ⟨w, hnew, hholds⟩ := StorageWriter.new_spec
    (some (base.map RawPage.bytes).flatten) hbase
  rw [Option.getD_some] at hnew hholds
  obtain ⟨-, -, p, hp, hvisits⟩ := appendCalls_spec rs hholds
  have hfile := StorageWriter.destroy_spec hp
  have hstored : storedVisits base.length (StorageWriter.flushed base.length p) =
      accepted (appendCalls rs (w, (base.map RawPage.bytes).flatten)).1 := by
    rw [storedVisits_flushed, hvisits]
    rfl
  unfold session at hsize ⊢
  rw [hnew] at hsize ⊢
  dsimp only at hsize ⊢
  rw [hfile.length_div] at hsize
  generalize StorageWriter.flushed base.length p = pages at hfile hstored hsize
  generalize appendCalls rs (w, (base.map RawPage.bytes).flatten) = out at hfile hstored ⊢
  generalize out.2.1.destroy out.2.2 = bytes at hfile ⊢
  have hcount : (MappedFile.new (some bytes)).pageCount = base.length + pages.length := by
    show u32 (bytes.length / PAGE_SIZE) = _
    rw [hfile.length_div, u32_of_lt (by omega)]
  have hcount' : (MappedFile.new (some (base.map RawPage.bytes).flatten)).pageCount =
      base.length := by
    show u32 ((base.map RawPage.bytes).flatten.length / PAGE_SIZE) = _
    rw [hbase.length_div, List.length_nil, Nat.add_zero, u32_of_lt (by omega)]
  intro rid
  constructor
  · intro r hr
    rw [← hstored] at hr
    obtain ⟨i, recs, hi, hpage, hrec⟩ := mem_storedVisits hr
    dsimp only at hpage hrec
    have hlt := (List.getElem?_eq_some_iff.mp hi).1
    rw [u32_of_lt (by omega)] at hpage
    have hmod : rid.pageId % 2 ^ 20 = base.length + i := by rw [hpage, Nat.mod_eq_of_lt (by omega)]
    have hholds : Slotted.PageHolds ((MappedFile.new (some bytes)).loadPage rid.pageId) recs := by
      apply hfile.loadPage_from
      · omega
      · rw [hmod, Nat.add_sub_cancel_left, hi]
    unfold readReturn
    rw [if_neg (by omega), Slotted.parseRecord_of_holds hholds, hrec]
  · intro hrid
    rw [hbase.length_div, List.length_nil, Nat.add_zero] at hrid
    have hmod : rid.pageId % 2 ^ 20 = rid.pageId := Nat.mod_eq_of_lt (by omega)
    have hafter : (MappedFile.new (some bytes)).loadPage rid.pageId = base[rid.pageId] := by
      rw [hfile.loadPage_base (by omega)]
      simp only [hmod]
    have hbefore : (MappedFile.new (some (base.map RawPage.bytes).flatten)).loadPage rid.pageId =
        base[rid.pageId] := by
      rw [FileHolds.loadPage_base (f := MappedFile.new (some (base.map RawPage.bytes).flatten))
        hbase (by omega)]
      simp only [hmod]
    unfold readReturn
    rw [if_neg (by omega), if_neg (by omega), hafter, hbefore]

/-! ## Files that end inside a page -/

/-- The page of a session that appends one record of an empty key and a value of one byte. -/
def oneBytePage (pageId : Nat) (v : UInt8) : RawPage :=
  (((StorageWriter.freshPage pageId).write 4090 (StorageWriter.recordBytes [] [v])).write 66
    (SlotEntry.toBytes ⟨4090, 6⟩)).write PAGE_HEADER_SIZE (leBytes 2 1)

/-- On a fresh page the record takes the last six bytes. -/
theorem tryInsertInPage_oneByte (page : RawPage) (pageId : Nat) (v : UInt8) :
    StorageWriter.tryInsertInPage ⟨page, pageId, 0, PAGE_SIZE⟩ [] [v] =
      some (0, ⟨(page.write 4090 (StorageWriter.recordBytes [] [v])).write 66
        (SlotEntry.toBytes ⟨4090, 6⟩), pageId, 1, 4090⟩) := by
  have hsize : StorageWriter.recordDataSize [] [v] = 6 := rfl
  have hroom : ¬ sizeSub PAGE_SIZE (PAGE_HEADER_SIZE + (2 + 0 * SLOT_SIZE)) < SLOT_SIZE + 6 := by
    rw [sizeSub_of_le (by decide)]
    decide
  have hoff : u16 (sizeSub PAGE_SIZE 6) = 4090 := by
    rw [sizeSub_of_le (by decide), u16_of_lt (by decide)]
    rfl
  have hlen : u16 6 = 6 := u16_of_lt (by decide)
  have hone : u16 (0 + 1) = 1 := u16_of_lt (by decide)
  unfold StorageWriter.tryInsertInPage
  dsimp only [StorageWriter.slotsEndOffset]
  rw [hsize, if_neg hroom, hoff, hlen, hone]
  rfl

/-- The session writes that page behind the bytes of the file. -/
theorem session_oneByte {bs : Bytes} (hpos : 0 < bs.length) (hsize : bs.length / PAGE_SIZE < 2 ^ 32)
    (v : UInt8) :
    session [⟨[], [v]⟩] (some bs) =
      ([(⟨[], [v]⟩, .ok ⟨bs.length / PAGE_SIZE, 0⟩)],
        bs ++ (oneBytePage (bs.length / PAGE_SIZE) v).bytes) := by
  have hnew : StorageWriter.new (some bs) =
      (⟨StorageWriter.freshPage (bs.length / PAGE_SIZE), bs.length / PAGE_SIZE, 0, PAGE_SIZE⟩,
        bs) := by
    unfold StorageWriter.new StorageWriter.resetCurrentPage
    dsimp only [Option.getD_some]
    rw [if_pos ⟨rfl, hpos⟩, u32_of_lt hsize]
  have hinsert := tryInsertInPage_oneByte (StorageWriter.freshPage (bs.length / PAGE_SIZE))
    (bs.length / PAGE_SIZE) v
  unfold session
  rw [hnew]
  simp only [appendCalls, StorageWriter.append, hinsert]
  unfold StorageWriter.destroy StorageWriter.flush
  rw [if_pos (Or.inl Nat.one_pos)]
  rfl

/-- Two such pages differ in the last byte only. -/
theorem oneBytePage_eq_of_lt (pageId : Nat) (v v' : UInt8) {i : Nat} (hi : i < 4095) :
    (oneBytePage pageId v).bytes[i]? = (oneBytePage pageId v').bytes[i]? := by
  have hrec : ∀ j < 5, (StorageWriter.recordBytes [] [v])[j]? =
      (StorageWriter.recordBytes [] [v'])[j]? := by
    intro j hj
    have hlen : (RecordHeader.toBytes ⟨0, u16 0, u16 1⟩).length = 5 := by
      simp [RecordHeader.toBytes]
    show (RecordHeader.toBytes ⟨0, u16 0, u16 1⟩ ++ [] ++ [v])[j]? =
      (RecordHeader.toBytes ⟨0, u16 0, u16 1⟩ ++ [] ++ [v'])[j]?
    rw [List.append_nil, List.getElem?_append_left (by omega),
      List.getElem?_append_left (by omega)]
  have hlength : ∀ b : UInt8, (StorageWriter.recordBytes [] [b]).length = 6 := by
    intro b
    simp [StorageWriter.recordBytes, RecordHeader.toBytes]
  unfold oneBytePage RawPage.write
  dsimp only
  rw [getElem?_overwrite, getElem?_overwrite, getElem?_overwrite, getElem?_overwrite,
    getElem?_overwrite, getElem?_overwrite]
  simp only [length_overwrite, hlength]
  by_cases hrange : 4090 ≤ i ∧ i < 4090 + 6 ∧ i < (StorageWriter.freshPage pageId).bytes.length
  · rw [if_pos hrange, if_pos hrange, hrec (i - 4090) (by omega)]
  · rw [if_neg hrange, if_neg hrange]

/-- Behind a torn page the reader sees nothing of the last byte. -/
theorem loadPage_torn {bs : Bytes} (hsize : bs.length / PAGE_SIZE < 2 ^ 20)
    (htorn : ¬ PAGE_SIZE ∣ bs.length) (v v' : UInt8) :
    let p := bs.length / PAGE_SIZE
    (MappedFile.new (some (bs ++ (oneBytePage p v).bytes))).loadPage p =
      (MappedFile.new (some (bs ++ (oneBytePage p v').bytes))).loadPage p := by
  intro p
  have hpage : PAGE_SIZE = 4096 := rfl
  have hdiv := Nat.div_add_mod bs.length PAGE_SIZE
  have hmod : 0 < bs.length % PAGE_SIZE :=
    Nat.pos_of_ne_zero fun h => htorn (Nat.dvd_of_mod_eq_zero h)
  have hshown : ∀ w : UInt8, (MappedFile.new (some (bs ++ (oneBytePage p w).bytes))).loadPage p =
      MappedFile.pageAt (bs ++ (oneBytePage p w).bytes) p := fun w =>
    MappedFile.loadPage_of_lt hsize
  rw [hshown, hshown, MappedFile.pageAt, MappedFile.pageAt]
  refine congrArg RawPage.ofBytes (List.ext_getElem? ?_)
  intro i
  rw [getElem?_slice, getElem?_slice]
  split
  · rename_i hi
    rcases Nat.lt_or_ge (p * PAGE_SIZE + i) bs.length with hlt | hge
    · rw [List.getElem?_append_left hlt, List.getElem?_append_left hlt]
    · rw [List.getElem?_append_right hge, List.getElem?_append_right hge]
      -- the shift by the torn bytes keeps the last byte out of the window
      apply oneBytePage_eq_of_lt
      have hp : p * PAGE_SIZE = PAGE_SIZE * (bs.length / PAGE_SIZE) := Nat.mul_comm _ _
      omega
  · rfl

/-- On a file that ends inside a page one of two appends is lost. -/
theorem exists_unsafe_of_torn {bs : Bytes} (hsize : bs.length / PAGE_SIZE < 2 ^ 20)
    (htorn : ¬ PAGE_SIZE ∣ bs.length) :
    ∃ rs, (session rs (some bs)).2.length / PAGE_SIZE ≤ 2 ^ 20 ∧ ¬ SessionSafe bs rs := by
  have hpos : 0 < bs.length := Nat.pos_of_ne_zero fun h => htorn (by rw [h]; exact dvd_zero _)
  have hpages : ∀ v : UInt8, (session [⟨[], [v]⟩] (some bs)).2.length / PAGE_SIZE =
      bs.length / PAGE_SIZE + 1 := by
    intro v
    rw [session_oneByte hpos (by omega), List.length_append, RawPage.size_eq]
    exact Nat.add_div_right _ (by decide)
  by_contra hall
  push Not at hall
  -- both sessions return the same record id, and the reader sees the same page under it
  have hreads : ∀ v : UInt8, readReturn (MappedFile.new (some (bs ++
      (oneBytePage (bs.length / PAGE_SIZE) v).bytes))) ⟨bs.length / PAGE_SIZE, 0⟩ =
      .record (some ⟨[], [v]⟩) := by
    intro v
    have hsafe := (sessionSafe_iff bs _).mp (hall [⟨[], [v]⟩] (by rw [hpages]; omega))
      ⟨bs.length / PAGE_SIZE, 0⟩
    rw [session_oneByte hpos (by omega)] at hsafe
    exact hsafe.1 _ (by simp [accepted])
  have hcount : ∀ v : UInt8, (MappedFile.new (some (bs ++
      (oneBytePage (bs.length / PAGE_SIZE) v).bytes))).pageCount = bs.length / PAGE_SIZE + 1 := by
    intro v
    have hlen := hpages v
    rw [session_oneByte hpos (by omega)] at hlen
    show u32 ((bs ++ (oneBytePage (bs.length / PAGE_SIZE) v).bytes).length / PAGE_SIZE) = _
    rw [hlen, u32_of_lt (by omega)]
  have hzero := hreads 0
  have hone := hreads 1
  unfold readReturn at hzero hone
  rw [hcount] at hzero hone
  rw [loadPage_torn hsize htorn 0 1, hone] at hzero
  exact absurd hzero (by decide)

/-- **When a torn page does no harm.** For every file of fewer than 2^20 pages: all sessions that
keep it within 2^20 pages are safe exactly when the file consists of whole pages. -/
theorem torn_page_safe_iff (bs : Bytes) (hsize : bs.length / PAGE_SIZE < 2 ^ 20) :
    (∀ rs, (session rs (some bs)).2.length / PAGE_SIZE ≤ 2 ^ 20 → SessionSafe bs rs) ↔
      PAGE_SIZE ∣ bs.length := by
  constructor
  · intro hall
    by_contra htorn
    obtain ⟨rs, hle, hunsafe⟩ := exists_unsafe_of_torn hsize htorn
    exact hunsafe (hall rs hle)
  · intro hdvd rs hle
    obtain ⟨base, rfl⟩ := exists_pages (Nat.mod_eq_zero_of_dvd hdvd)
    exact sessionSafe_of_pages base rs hle

/-- A file of one page. -/
theorem torn_page_safe_iff_one_page :
    (∀ rs, (session rs (some (List.replicate 4096 0))).2.length / PAGE_SIZE ≤ 2 ^ 20 →
      SessionSafe (List.replicate 4096 0) rs) ↔
      PAGE_SIZE ∣ (List.replicate 4096 (0 : UInt8)).length :=
  torn_page_safe_iff (List.replicate 4096 0) (by decide +kernel)

/-- **A record lost behind a torn page.** The file has one byte; the append returns page 0, slot 0,
and the reader, one byte off, finds no record there. -/
theorem append_lost_behind_torn_page : ¬ SessionSafe [0] [⟨[1], [2]⟩] := by
  rw [sessionSafe_iff]
  intro h
  have hread := (h ⟨0, 0⟩).1 ⟨[1], [2]⟩ (by decide +kernel)
  exact absurd hread (by decide +kernel)

end Aqa
