/-
# Aqa.Storage.WriterFlush — calling `flush` between appends.

A flush appends a copy of the open page to the file and leaves the writer on that page with its id.
From then on the file is one page ahead of the writer: whatever is written next carries the id of
the position before it. `FlushesIdle` says of a sequence of calls that every flush in it finds the
open page empty and some page in front of it, so that it writes nothing; these are the sequences
after which ids and positions agree (`flush_any_time_iff`).

The session starts on any file of whole pages. What those pages hold is unknown; a scan reads them
too, and ends there when one of them sends it outside the page (`Scannable`).
-/
import Aqa.Storage.WriterSessions

namespace Aqa

open Aqa.Lib StorageReader MappedFile

/-! ## Sessions with flushes -/

/-- A public call on a writer. -/
inductive WriterOp where
  | append (r : Record)
  | flush
  deriving DecidableEq, Repr

/-- The calls of one session, with the results of its appends. -/
def writerOps : List WriterOp → StorageWriter × Bytes → List AppendCall × (StorageWriter × Bytes)
  | [], s => ([], s)
  | .append r :: ops, s =>
      let out := appendCalls [r] s
      (out.1 ++ (writerOps ops out.2).1, (writerOps ops out.2).2)
  | .flush :: ops, s => writerOps ops (s.1.flush s.2)

/-- A session: construct on the file, append and flush, destruct. -/
def flushSession (ops : List WriterOp) (file : Option Bytes) : List AppendCall × Bytes :=
  let out := writerOps ops (StorageWriter.new file)
  (out.1, out.2.1.destroy out.2.2)

/-- What a session that starts behind `n` pages promises: the pages it writes carry the ids of their
positions, every record id it returned reads back, and a scan finds on its pages each accepted
append once. -/
structure FlushAnyTime (n : Nat) (calls : List AppendCall) (file : Bytes) : Prop where
  ids : ∀ p, n ≤ p → (p + 1) * PAGE_SIZE ≤ file.length → (pageAt file p).pageId = p
  resolves : ∀ v ∈ accepted calls, ∀ (capacity : Nat) (observed : Bool), 1 ≤ capacity →
    ∃ e, readRecord v.1 (StorageEngine.new (some file) capacity observed) = .ok (some v.2) e
  scanned : ∀ (capacity : Nat) (observed : Bool), 1 ≤ capacity → ∃ e vs,
    scan (fun rid key value vs => vs ++ [(rid, Record.mk key value)])
        (StorageEngine.new (some file) capacity observed, []) = .ok () (e, vs) ∧
      (vs.filter fun v => decide (n ≤ v.1.pageId)).Perm (accepted calls)

/-- Every flush finds the open page empty, behind some page: at the start on a file with a page, or
after an append that threw. -/
def FlushesIdle : Prop → List WriterOp → Prop
  | _, [] => True
  | _, .append r :: ops => FlushesIdle (4021 < r.key.length + r.value.length) ops
  | blank, .flush :: ops => blank ∧ FlushesIdle blank ops

/-- No slot of the pages of a file leads outside its page. -/
def Scannable (file : Bytes) : Prop :=
  (pagesVisits (pageAt file) (file.length / PAGE_SIZE) 0).isSome

instance (file : Bytes) : Decidable (Scannable file) :=
  inferInstanceAs (Decidable ((pagesVisits (pageAt file) (file.length / PAGE_SIZE) 0).isSome = true))

/-! ## Page ids -/

section PageIds

theorem pageId_write {page : RawPage} {off : Nat} (h : 8 ≤ off) (bs : Bytes) :
    (page.write off bs).pageId = page.pageId := by
  unfold RawPage.pageId RawPage.readU32
  rw [RawPage.read_write_of_disjoint (Or.inl h)]

theorem pageId_freshPage {pageId : Nat} (h : pageId < 2 ^ 32) :
    (StorageWriter.freshPage pageId).pageId = pageId := by
  unfold StorageWriter.freshPage
  rw [pageId_write (le_refl 8)]
  unfold RawPage.pageId RawPage.readU32
  rw [RawPage.read_write_self' (length_leBytes 4 _) (by decide), leNat_leBytes_of_lt h]

/-- A record is put behind the header. -/
theorem pageId_tryInsertInPage {w w' : StorageWriter} {recs : List Record}
    (h : Slotted.Holds w recs) {r : Record} {sid : Nat}
    (hins : w.tryInsertInPage r.key r.value = some (sid, w')) :
    w'.currentPage.pageId = w.currentPage.pageId := by
  have hfree := Slotted.freeSpace_eq h
  have hroom := h.fits
  have hused := Slotted.used_eq recs
  unfold StorageWriter.tryInsertInPage at hins
  simp only at hins
  split at hins
  · exact absurd hins (by simp)
  · rename_i hfits
    rw [hfree] at hfits
    simp only [Option.some.injEq, Prod.mk.injEq] at hins
    obtain ⟨-, rfl⟩ := hins
    simp only [pageRoom, PAGE_SIZE, PAGE_HEADER_SIZE, SLOT_SIZE] at hfits hroom hused
    have hoff : 8 ≤ u16 (sizeSub w.freeSpaceOffset
        (StorageWriter.recordDataSize r.key r.value)) := by
      rw [h.free]
      simp only [PAGE_SIZE]
      rw [sizeSub_of_le (by omega), u16_of_lt (by omega)]
      omega
    simp only
    rw [pageId_write (by simp only [PAGE_HEADER_SIZE]; omega), pageId_write hoff]

end PageIds

/-! ## One call -/

/-- The writer is on a page with these records, and the header carries the writer's page id. -/
structure OnPage (w : StorageWriter) (recs : List Record) : Prop where
  holds : Slotted.Holds w recs
  id : w.currentPage.pageId = w.currentPageId
  lt : w.currentPageId < 2 ^ 32

section OneCall

variable {w : StorageWriter} {recs : List Record}

theorem onPage_resetCurrentPage (h : w.currentPageId < 2 ^ 32) : OnPage w.resetCurrentPage [] := by
  have hid := pageId_freshPage h
  refine ⟨Slotted.holds_resetCurrentPage w, ?_, ?_⟩
  · unfold StorageWriter.resetCurrentPage
    exact hid
  · unfold StorageWriter.resetCurrentPage
    exact h

theorem onPage_new (file : Option Bytes) : OnPage (StorageWriter.new file).1 [] := by
  unfold StorageWriter.new
  simp only
  split
  · exact onPage_resetCurrentPage (u32_lt _)
  · exact onPage_resetCurrentPage (by decide)

/-- What reaches the file is a page with the writer's page id; the writer stays on it. -/
theorem writePageToDisk_onPage (h : OnPage w recs) (bytes : Bytes) :
    ∃ (w' : StorageWriter) (page : RawPage), w.writePageToDisk bytes = (w', bytes ++ page.bytes) ∧
      OnPage w' recs ∧ page.pageId = w.currentPageId ∧ w'.currentPageId = w.currentPageId ∧
      w'.currentSlotCount = w.currentSlotCount := by
  have hlay := h.holds.toLayout.write_count w.currentSlotCount
  obtain ⟨page, hpage⟩ : ∃ page, w.currentPage.write PAGE_HEADER_SIZE
    (leBytes 2 w.currentSlotCount) = page := ⟨_, rfl⟩
  have hid : page.pageId = w.currentPageId := by
    rw [← hpage, pageId_write (by decide), h.id]
  rw [hpage] at hlay
  refine ⟨{ w with currentPage := page }, page, ?_, ⟨⟨hlay, h.holds.slots, h.holds.free⟩, hid, h.lt⟩,
    hid, rfl, rfl⟩
  unfold StorageWriter.writePageToDisk
  rw [hpage]

theorem nextPage_onPage (h : OnPage w recs) (bytes : Bytes) :
    ∃ (w' : StorageWriter) (page : RawPage), w.nextPage bytes = (w', bytes ++ page.bytes) ∧
      OnPage w' [] ∧ page.pageId = w.currentPageId ∧ w'.currentPageId = u32 (w.currentPageId + 1) := by
  obtain ⟨w', page, hwrite, -, hid, hcur, -⟩ := writePageToDisk_onPage h bytes
  refine ⟨_, page, ?_, onPage_resetCurrentPage (w := { w' with
    currentPageId := u32 (w.currentPageId + 1) }) (u32_lt _), hid, rfl⟩
  unfold StorageWriter.nextPage
  rw [hwrite]
  simp only [hcur]

theorem tryInsertInPage_onPage (h : OnPage w recs) {r : Record} {sid : Nat} {w' : StorageWriter}
    (hins : w.tryInsertInPage r.key r.value = some (sid, w')) :
    OnPage w' (recs ++ [r]) ∧ w'.currentPageId = w.currentPageId := by
  have hspec := Slotted.tryInsertInPage_spec h.holds r
  have hpage := pageId_tryInsertInPage h.holds hins
  unfold Pager.tryInsert at hspec
  split at hspec
  · rename_i recs' heq
    obtain ⟨w'', hins', hholds, hid⟩ := hspec
    rw [hins] at hins'
    simp only [Option.some.injEq, Prod.mk.injEq] at hins'
    obtain ⟨-, rfl⟩ := hins'
    split at heq
    · simp only [Option.some.injEq] at heq
      subst heq
      exact ⟨⟨hholds, by rw [hpage, hid, h.id], by rw [hid]; exact h.lt⟩, hid⟩
    · exact absurd heq (by simp)
  · rw [hspec] at hins
    exact absurd hins (by simp)

/-- An append stays on the page, or puts the page in the file and moves on to the next one. -/
theorem appendCalls_onPage (h : OnPage w recs) (bytes : Bytes) (r : Record) :
    ∃ w', (∃ recs', OnPage w' recs') ∧
      (((appendCalls [r] (w, bytes)).2 = (w', bytes) ∧ 0 < w'.currentSlotCount ∧
          w'.currentPageId = w.currentPageId) ∨
        ∃ page : RawPage, (appendCalls [r] (w, bytes)).2 = (w', bytes ++ page.bytes) ∧
          page.pageId = w.currentPageId ∧ w'.currentPageId = u32 (w.currentPageId + 1)) := by
  cases hfirst : w.tryInsertInPage r.key r.value with
  | some out =>
      obtain ⟨sid, w'⟩ := out
      obtain ⟨hon, hid⟩ := tryInsertInPage_onPage h hfirst
      refine ⟨w', ⟨_, hon⟩, Or.inl ⟨?_, ?_, hid⟩⟩
      · simp only [appendCalls, StorageWriter.append, hfirst]
      · rw [hon.holds.slots]
        simp
  | none =>
      obtain ⟨w₁, page, hnext, hon₁, hpage, hid₁⟩ := nextPage_onPage h bytes
      cases hsecond : w₁.tryInsertInPage r.key r.value with
      | some out =>
          obtain ⟨sid, w'⟩ := out
          obtain ⟨hon, hid⟩ := tryInsertInPage_onPage hon₁ hsecond
          refine ⟨w', ⟨_, hon⟩, Or.inr ⟨page, ?_, hpage, by rw [hid, hid₁]⟩⟩
          simp only [appendCalls, StorageWriter.append, hfirst, hnext, hsecond]
      | none =>
          refine ⟨w₁, ⟨_, hon₁⟩, Or.inr ⟨page, ?_, hpage, hid₁⟩⟩
          simp only [appendCalls, StorageWriter.append, hfirst, hnext, hsecond]

/-- A flush writes the open page, or does nothing. -/
theorem flush_onPage (h : OnPage w recs) (bytes : Bytes) :
    (w.currentSlotCount = 0 ∧ w.currentPageId ≠ 0 ∧ w.flush bytes = (w, bytes)) ∨
      ∃ (w' : StorageWriter) (page : RawPage), w.flush bytes = (w', bytes ++ page.bytes) ∧
        OnPage w' recs ∧ page.pageId = w.currentPageId ∧ w'.currentPageId = w.currentPageId ∧
        (0 < w'.currentSlotCount ∨ w'.currentPageId = 0) := by
  unfold StorageWriter.flush
  by_cases hc : w.currentSlotCount > 0 ∨ w.currentPageId = 0
  · right
    obtain ⟨w', page, hwrite, hon, hpage, hid, hslots⟩ := writePageToDisk_onPage h bytes
    refine ⟨w', page, by rw [if_pos hc, hwrite], hon, hpage, hid, ?_⟩
    rw [hslots, hid]
    exact hc
  · left
    rw [if_neg hc]
    rw [not_or] at hc
    exact ⟨by omega, hc.2, rfl⟩

end OneCall

/-! ## A flush that writes -/

/-- Some page behind the first `n` carries an id that is not its position. -/
def Misplaced (n : Nat) (bytes : Bytes) : Prop :=
  ∃ p, n ≤ p ∧ (p + 1) * PAGE_SIZE ≤ bytes.length ∧ (pageAt bytes p).pageId ≠ p

/-- The file is ahead of a writer that has something to write. -/
structure Lagging (n : Nat) (w : StorageWriter) (bytes : Bytes) : Prop where
  onPage : ∃ recs, OnPage w recs
  behind : ∃ k, n ≤ k ∧ bytes.length = k * PAGE_SIZE ∧ w.currentPageId < k
  pending : 0 < w.currentSlotCount ∨ w.currentPageId = 0

section Lagging

variable {n : Nat} {w : StorageWriter} {bytes : Bytes}

theorem Misplaced.append (h : Misplaced n bytes) (more : Bytes) : Misplaced n (bytes ++ more) := by
  obtain ⟨p, hn, hlen, hid⟩ := h
  refine ⟨p, hn, ?_, ?_⟩
  · rw [List.length_append]
    omega
  · rw [pageAt_append hlen]
    exact hid

/-- Whatever page a lagging writer puts in the file is misplaced there. -/
theorem Lagging.misplaced (h : Lagging n w bytes) {page : RawPage}
    (hpage : page.pageId = w.currentPageId) : Misplaced n (bytes ++ page.bytes) := by
  obtain ⟨k, hn, hlen, hlt⟩ := h.behind
  refine ⟨k, hn, ?_, ?_⟩
  · rw [List.length_append, hlen, page.size_eq, Nat.succ_mul]
  · rw [pageAt_append_page hlen, hpage]
    omega

/-- After a flush that wrote, the writer lags. -/
theorem lagging_of_flush {w' : StorageWriter} {recs : List Record} {k : Nat}
    (hon : OnPage w' recs) (hn : n ≤ k) (hlen : bytes.length = k * PAGE_SIZE) {page : RawPage}
    (hid : w'.currentPageId ≤ k) (hpending : 0 < w'.currentSlotCount ∨ w'.currentPageId = 0) :
    Lagging n w' (bytes ++ page.bytes) where
  onPage := ⟨recs, hon⟩
  behind := by
    refine ⟨k + 1, by omega, ?_, by omega⟩
    rw [List.length_append, hlen, page.size_eq, Nat.succ_mul]
  pending := hpending

theorem appendCalls_misplaced (h : Misplaced n bytes ∨ Lagging n w bytes) (r : Record)
    (hon : ∃ recs, OnPage w recs) :
    (∃ recs, OnPage (appendCalls [r] (w, bytes)).2.1 recs) ∧
      (Misplaced n (appendCalls [r] (w, bytes)).2.2 ∨
        Lagging n (appendCalls [r] (w, bytes)).2.1 (appendCalls [r] (w, bytes)).2.2) := by
  obtain ⟨recs, hon⟩ := hon
  obtain ⟨w', hon', hcases⟩ := appendCalls_onPage hon bytes r
  rcases hcases with ⟨heq, hslots, hid⟩ | ⟨page, heq, hpage, -⟩
  · rw [heq]
    refine ⟨hon', h.imp_right fun hlag => ⟨hon', ?_, Or.inl hslots⟩⟩
    obtain ⟨k, hn, hlen, hlt⟩ := hlag.behind
    exact ⟨k, hn, hlen, by rw [hid]; exact hlt⟩
  · rw [heq]
    refine ⟨hon', Or.inl ?_⟩
    rcases h with hmis | hlag
    · exact hmis.append _
    · exact hlag.misplaced hpage

theorem flush_misplaced (h : Misplaced n bytes ∨ Lagging n w bytes) (hon : ∃ recs, OnPage w recs) :
    (∃ recs, OnPage (w.flush bytes).1 recs) ∧ Misplaced n (w.flush bytes).2 := by
  obtain ⟨recs, hon⟩ := hon
  rcases flush_onPage hon bytes with ⟨hslots, hid, heq⟩ | ⟨w', page, heq, hon', hpage, -, -⟩
  · rw [heq]
    refine ⟨⟨recs, hon⟩, ?_⟩
    rcases h with hmis | hlag
    · exact hmis
    · have hpending := hlag.pending
      omega
  · rw [heq]
    refine ⟨⟨recs, hon'⟩, ?_⟩
    rcases h with hmis | hlag
    · exact hmis.append _
    · exact hlag.misplaced hpage

/-- A lagging writer leaves a misplaced page behind, whatever is called on it. -/
theorem writerOps_misplaced (ops : List WriterOp) {w : StorageWriter} {bytes : Bytes}
    (h : Misplaced n bytes ∨ Lagging n w bytes) (hon : ∃ recs, OnPage w recs) :
    Misplaced n ((writerOps ops (w, bytes)).2.1.destroy (writerOps ops (w, bytes)).2.2) := by
  induction ops generalizing w bytes with
  | nil => exact (flush_misplaced h hon).2
  | cons op ops ih =>
      cases op with
      | append r =>
          obtain ⟨hon', h'⟩ := appendCalls_misplaced h r hon
          exact ih h' hon'
      | flush =>
          obtain ⟨hon', h'⟩ := flush_misplaced h hon
          exact ih (Or.inl h') hon'

end Lagging

/-! ## Flushes that write nothing -/

theorem flushesIdle_congr {blank blank' : Prop} (h : blank ↔ blank') (ops : List WriterOp) :
    FlushesIdle blank ops ↔ FlushesIdle blank' ops := by
  rw [propext h]

/-- The writer and its file in step with a pager, the ids of the new pages with their positions. -/
structure Tidy (base : List RawPage) (w : StorageWriter) (bytes : Bytes) (p : Pager Record) :
    Prop where
  holds : WriterHolds base w bytes p
  onPage : OnPage w p.cur
  ids : ∀ q, base.length ≤ q → q < base.length + p.pages.length →
    (pageAt bytes q).pageId = u32 q

/-- The flushes of a run find this when they write nothing. -/
def Blank (n : Nat) (p : Pager Record) : Prop := p.cur = [] ∧ 0 < n + p.pages.length

section Tidy

variable {base : List RawPage} {w : StorageWriter} {bytes : Bytes} {p : Pager Record}

theorem tidy_new {file : Option Bytes} (h : file.getD [] = (base.map RawPage.bytes).flatten) :
    ∃ w, StorageWriter.new file = (w, file.getD []) ∧ Tidy base w (file.getD []) ⟨[], []⟩ := by
  have hfile : FileHolds base (file.getD []) [] := h ▸ FileHolds.nil base
  obtain ⟨w, hnew, hholds⟩ := StorageWriter.new_spec _ hfile
  have hon := onPage_new file
  rw [hnew] at hon
  refine ⟨w, hnew, hholds, hon, ?_⟩
  intro q hlo hhi
  rw [List.length_nil] at hhi
  omega

theorem Tidy.length_eq (h : Tidy base w bytes p) :
    bytes.length = (base.length + p.pages.length) * PAGE_SIZE := h.holds.file.length_eq

/-- The page a writer puts in the file gets the id of its position. -/
theorem ids_append_page (h : Tidy base w bytes p) {page : RawPage}
    (hpage : page.pageId = w.currentPageId) :
    ∀ q, base.length ≤ q → q < base.length + (p.pages.length + 1) →
      (pageAt (bytes ++ page.bytes) q).pageId = u32 q := by
  intro q hlo hhi
  have hlen := h.length_eq
  by_cases hq : q = base.length + p.pages.length
  · subst hq
    rw [pageAt_append_page hlen, hpage, h.holds.pageId]
  · rw [pageAt_append]
    · exact h.ids q hlo (by omega)
    · rw [hlen]
      exact Nat.mul_le_mul_right _ (by omega)

/-- A file that stayed as it was, or got the page of the writer, has the ids of its positions. -/
theorem ids_of_move (h : Tidy base w bytes p) {bytes' : Bytes} {n : Nat}
    (hlen : bytes'.length = (base.length + n) * PAGE_SIZE)
    (hmove : bytes' = bytes ∨
      ∃ page : RawPage, bytes' = bytes ++ page.bytes ∧ page.pageId = w.currentPageId) :
    ∀ q, base.length ≤ q → q < base.length + n → (pageAt bytes' q).pageId = u32 q := by
  have hold := h.length_eq
  rcases hmove with rfl | ⟨page, rfl, hpage⟩
  · rw [← Nat.eq_of_mul_eq_mul_right (by decide) (hold.symm.trans hlen)]
    exact h.ids
  · rw [List.length_append, page.size_eq, hold, ← Nat.succ_mul] at hlen
    have hcount := Nat.eq_of_mul_eq_mul_right (by decide) hlen
    rw [← hcount, Nat.succ_eq_add_one, Nat.add_assoc]
    exact ids_append_page h hpage

/-- One append keeps everything in step and stores the record when it is accepted. -/
theorem appendCalls_tidy (h : Tidy base w bytes p) (r : Record) :
    ∃ p', Tidy base (appendCalls [r] (w, bytes)).2.1 (appendCalls [r] (w, bytes)).2.2 p' ∧
      (Blank base.length p' ↔ 4021 < r.key.length + r.value.length) ∧
      pagerVisits base.length p' =
        pagerVisits base.length p ++ accepted (appendCalls [r] (w, bytes)).1 := by
  obtain ⟨w', bytes', hholds, heq⟩ := StorageWriter.append_spec h.holds r
  have hstored := pagerVisits_append base.length p r
  have haccepts := Pager.append_accepts_iff Record.need pageRoom p r
  rw [need_le_pageRoom_iff] at haccepts
  obtain ⟨w'', ⟨recs'', hon⟩, hmove⟩ := appendCalls_onPage h.onPage bytes r
  have hstate : (appendCalls [r] (w, bytes)).2 = (w', bytes') := by
    by_cases hok : (Pager.append Record.need pageRoom p r).1 = true
    · rw [if_pos hok] at heq
      simp only [appendCalls, heq]
    · rw [if_neg hok] at heq
      simp only [appendCalls, heq]
  rw [hstate] at hmove ⊢
  -- both accounts of the append end in the same writer
  have hw : w'' = w' := by
    rcases hmove with ⟨heq', -⟩ | ⟨page, heq', -⟩
    · exact (congrArg Prod.fst heq').symm
    · exact (congrArg Prod.fst heq').symm
  subst hw
  have hids : ∀ q, base.length ≤ q →
      q < base.length + (Pager.append Record.need pageRoom p r).2.pages.length →
      (pageAt bytes' q).pageId = u32 q := by
    apply ids_of_move h hholds.file.length_eq
    rcases hmove with ⟨hsame, -⟩ | ⟨page, hgrown, hpage, -⟩
    · exact Or.inl (congrArg Prod.snd hsame)
    · exact Or.inr ⟨page, congrArg Prod.snd hgrown, hpage⟩
  refine ⟨_, ⟨hholds, ⟨hholds.cur, hon.id, hon.lt⟩, hids⟩, ?_, ?_⟩
  · rcases Pager.append_cases Record.need pageRoom p r with
      ⟨hfit, _, hout⟩ | ⟨hfit, _, hout⟩ | ⟨hbig, hout⟩
    · rw [need_le_pageRoom_iff] at hfit
      simp [Blank, hout]
      omega
    · rw [need_le_pageRoom_iff] at hfit
      simp [Blank, hout]
      omega
    · have hbig : 4021 < r.key.length + r.value.length := by
        have := need_le_pageRoom_iff r
        omega
      simp [Blank, hout, hbig]
  · rw [hstored]
    congr 1
    by_cases hfits : r.key.length + r.value.length ≤ 4021
    · rw [if_pos (haccepts.mpr hfits)] at heq ⊢
      simp [appendCalls, heq, accepted]
    · rw [if_neg (fun htrue => hfits (haccepts.mp htrue))] at heq ⊢
      simp [appendCalls, heq, accepted]

/-- A file only grows. -/
theorem length_le_writerOps (ops : List WriterOp) {w : StorageWriter} {recs : List Record}
    (h : OnPage w recs) (bytes : Bytes) :
    bytes.length ≤ (writerOps ops (w, bytes)).2.2.length := by
  induction ops generalizing w recs bytes with
  | nil => exact le_refl _
  | cons op ops ih =>
      cases op with
      | append r =>
          obtain ⟨w', ⟨recs', hon⟩, hmove⟩ := appendCalls_onPage h bytes r
          unfold writerOps
          rcases hmove with ⟨heq, -⟩ | ⟨page, heq, -⟩
          · simp only [heq]
            exact ih hon bytes
          · simp only [heq]
            have hlen := ih hon (bytes ++ page.bytes)
            rw [List.length_append] at hlen
            omega
      | flush =>
          unfold writerOps
          rcases flush_onPage h bytes with ⟨-, -, heq⟩ | ⟨w', page, heq, hon, -⟩
          · simp only [heq]
            exact ih h bytes
          · simp only [heq]
            have hlen := ih hon (bytes ++ page.bytes)
            rw [List.length_append] at hlen
            omega

/-- **Idle flushes are invisible**: the session is a session of its appends. -/
theorem writerOps_idle (ops : List WriterOp) {w : StorageWriter} {bytes : Bytes} {p : Pager Record}
    (h : Tidy base w bytes p) (hidle : FlushesIdle (Blank base.length p) ops)
    (hsize : (writerOps ops (w, bytes)).2.2.length < 2 ^ 32 * PAGE_SIZE) :
    ∃ p', Tidy base (writerOps ops (w, bytes)).2.1 (writerOps ops (w, bytes)).2.2 p' ∧
      pagerVisits base.length p' =
        pagerVisits base.length p ++ accepted (writerOps ops (w, bytes)).1 := by
  induction ops generalizing w bytes p with
  | nil => exact ⟨p, h, by simp [writerOps, accepted]⟩
  | cons op ops ih =>
      cases op with
      | append r =>
          obtain ⟨p₁, htidy, hblank, hvisits⟩ := appendCalls_tidy h r
          obtain ⟨p', hp', hrest⟩ := ih htidy ((flushesIdle_congr hblank ops).mpr hidle) hsize
          refine ⟨p', hp', ?_⟩
          unfold writerOps
          rw [hrest, hvisits, List.append_assoc, accepted, accepted, accepted,
            List.filterMap_append]
      | flush =>
          obtain ⟨⟨hcur, hpos⟩, hidle⟩ := hidle
          -- the file has fewer than 2^32 pages, so the id of the open page is not 0
          have hnoop : w.flush bytes = (w, bytes) := by
            rcases flush_onPage h.onPage bytes with ⟨-, -, heq⟩ | ⟨w', page, heq, hon, -, hid, hpend⟩
            · exact heq
            · have hlen := length_le_writerOps ops hon (bytes ++ page.bytes)
              unfold writerOps at hsize
              rw [heq] at hsize
              rw [List.length_append, h.length_eq] at hlen
              have hlt : (base.length + p.pages.length) * PAGE_SIZE < 2 ^ 32 * PAGE_SIZE := by
                omega
              have hlt := lt_of_mul_lt_mul_right hlt (Nat.zero_le _)
              rw [hon.holds.slots, hcur, hid, h.holds.pageId, u32_of_lt hlt] at hpend
              simp only [List.length_nil] at hpend
              omega
          unfold writerOps at hsize ⊢
          simp only [hnoop] at hsize ⊢
          exact ih h hidle hsize

/-- What the destructor leaves. -/
theorem destroy_tidy (h : Tidy base w bytes p) :
    ∀ q, base.length ≤ q → q < base.length + (StorageWriter.flushed base.length p).length →
      (pageAt (w.destroy bytes) q).pageId = u32 q := by
  apply ids_of_move h (StorageWriter.destroy_spec h.holds).length_eq
  unfold StorageWriter.destroy
  rcases flush_onPage h.onPage bytes with ⟨-, -, heq⟩ | ⟨w', page, heq, -, hpage, -⟩
  · exact Or.inl (congrArg Prod.snd heq)
  · exact Or.inr ⟨page, congrArg Prod.snd heq, hpage⟩

/-- A flush that is not idle leaves a misplaced page behind. -/
theorem writerOps_not_idle (ops : List WriterOp) {w : StorageWriter} {bytes : Bytes}
    {p : Pager Record} (h : Tidy base w bytes p) (hbusy : ¬ FlushesIdle (Blank base.length p) ops) :
    Misplaced base.length
      ((writerOps ops (w, bytes)).2.1.destroy (writerOps ops (w, bytes)).2.2) := by
  induction ops generalizing w bytes p with
  | nil => exact absurd trivial hbusy
  | cons op ops ih =>
      cases op with
      | append r =>
          obtain ⟨p₁, htidy, hblank, -⟩ := appendCalls_tidy h r
          exact ih htidy fun hidle => hbusy ((flushesIdle_congr hblank ops).mp hidle)
      | flush =>
          unfold writerOps
          rcases flush_onPage h.onPage bytes with
            ⟨hslots, hid, heq⟩ | ⟨w', page, heq, hon, hpage, hid, hpend⟩
          · rw [heq]
            apply ih h
            intro hidle
            refine hbusy ⟨⟨?_, ?_⟩, hidle⟩
            · rw [h.onPage.holds.slots] at hslots
              exact List.length_eq_zero_iff.mp hslots
            · rw [h.holds.pageId] at hid
              apply Nat.pos_of_ne_zero
              intro hzero
              exact hid (by rw [hzero, u32_zero])
          · rw [heq]
            apply writerOps_misplaced ops (Or.inr _) ⟨_, hon⟩
            apply lagging_of_flush hon (Nat.le_add_right _ _) h.length_eq _ hpend
            rw [hid, h.holds.pageId]
            exact u32_le _

end Tidy

/-! ## Reading the session back -/

/-- The visits of stored pages, page by page. -/
theorem flatMap_pageVisits_eq (n : Nat) (pages : List (List Record))
    (hsize : n + pages.length ≤ 2 ^ 32) :
    ((List.range' n pages.length).flatMap fun p =>
      pageVisits p ((pages[p - n]?).getD [])) = storedVisits n pages := by
  induction pages using List.reverseRecOn with
  | nil => rfl
  | append_singleton pages recs ih =>
      rw [List.length_append, List.length_singleton] at hsize ⊢
      have hfront : ((List.range' n pages.length).flatMap fun p =>
          pageVisits p (((pages ++ [recs])[p - n]?).getD [])) = storedVisits n pages := by
        rw [← ih (by omega)]
        apply List.flatMap_congr
        intro p hp
        have hmem := List.mem_range'_1.mp hp
        rw [List.getElem?_append_left (by omega)]
      rw [List.range'_concat, List.flatMap_append, hfront, storedVisits_concat]
      simp [u32_of_lt (show n + pages.length < 2 ^ 32 by omega)]

/-- A file shows its unknown pages and then the records it holds. -/
theorem pagesVisits_fileHolds {f : MappedFile} {base : List RawPage} {pages : List (List Record)}
    (h : FileHolds base f.bytes pages) (hsize : base.length + pages.length ≤ 2 ^ 20) :
    pagesVisits f.loadPage (base.length + pages.length) 0 =
      (pagesVisits f.loadPage base.length 0).map fun vs => vs ++ storedVisits base.length pages := by
  have hpages : pagesVisits f.loadPage pages.length base.length =
      some (storedVisits base.length pages) := by
    rw [pagesVisits_of_holds (fun p => (pages[p - base.length]?).getD []) pages.length,
      flatMap_pageVisits_eq _ _ (by omega)]
    intro p hlo hhi
    have hlt : p - base.length < pages.length := by omega
    apply h.loadPage_from
    · rw [Nat.mod_eq_of_lt (by omega)]
      exact hlo
    · rw [Nat.mod_eq_of_lt (by omega), List.getElem?_eq_getElem hlt, Option.getD_some]
  rw [pagesVisits_add, Nat.zero_add, hpages]
  cases pagesVisits f.loadPage base.length 0 with
  | none => rfl
  | some vs => rfl

/-- The unknown pages are the same in every file that begins with them. -/
theorem pagesVisits_base {f : MappedFile} {base : List RawPage} {pages : List (List Record)}
    (h : FileHolds base f.bytes pages) (hsize : base.length ≤ 2 ^ 20) {bytes : Bytes}
    (hbytes : bytes = (base.map RawPage.bytes).flatten) :
    pagesVisits f.loadPage base.length 0 = pagesVisits (pageAt bytes) (bytes.length / PAGE_SIZE) 0 := by
  have hold : FileHolds base bytes [] := hbytes ▸ FileHolds.nil base
  have hcount := hold.length_div
  rw [List.length_nil, Nat.add_zero] at hcount
  rw [hcount]
  apply pagesVisits_congr
  intro p _ hp
  have hmod : p % 2 ^ 20 = p := Nat.mod_eq_of_lt (by omega)
  rw [h.loadPage_base (by omega), ← loadPage_of_lt (f := ⟨bytes, 0, 0⟩) (by omega)]
  have hbase := FileHolds.loadPage_base (f := ⟨bytes, 0, 0⟩) hold (p := p) (by omega)
  exact hbase.symm

section Session

variable {base : List RawPage} {file : Bytes} {calls : List AppendCall}
  {pages : List (List Record)}

/-- The engine a reader opens on a file of the session. -/
theorem reader_total (h : FileHolds base file pages) (hsize : base.length + pages.length ≤ 2 ^ 20)
    (capacity : Nat) (observed : Bool) :
    (StorageEngine.new (some file) capacity observed).getTotalPages =
      base.length + pages.length := by
  show u32 (file.length / PAGE_SIZE) = _
  rw [h.length_div, u32_of_lt (by omega)]

/-- What a scan of the session's file parses: the unknown pages, and then what the session stored. -/
theorem pagesVisits_session (h : FileHolds base file pages)
    (hsize : base.length + pages.length ≤ 2 ^ 20) (capacity : Nat) (observed : Bool) :
    pagesVisits (StorageEngine.new (some file) capacity observed).view
        (StorageEngine.new (some file) capacity observed).getTotalPages 0 =
      (pagesVisits (pageAt (base.map RawPage.bytes).flatten)
        ((base.map RawPage.bytes).flatten.length / PAGE_SIZE) 0).map
          fun vs => vs ++ storedVisits base.length pages := by
  have hview : (StorageEngine.new (some file) capacity observed).view =
      (MappedFile.new (some file)).loadPage := rfl
  rw [reader_total h hsize, hview, pagesVisits_fileHolds (f := MappedFile.new (some file)) h hsize,
    pagesVisits_base (f := MappedFile.new (some file)) h (by omega) rfl]

/-- The visits of the unknown pages lie in front of the session's. -/
theorem filter_unknown {vs : List (RecordID × Record)}
    (hvs : pagesVisits (pageAt (base.map RawPage.bytes).flatten)
      ((base.map RawPage.bytes).flatten.length / PAGE_SIZE) 0 = some vs) :
    vs.filter (fun v => decide (base.length ≤ v.1.pageId)) = [] := by
  have hcount := (FileHolds.nil base).length_div
  rw [List.length_nil, Nat.add_zero] at hcount
  rw [hcount] at hvs
  rw [List.filter_eq_nil_iff]
  intro v hv
  have hlt := pageId_of_mem_pagesVisits _ _ _ hvs v hv
  simp
  omega

theorem filter_stored (hsize : base.length + pages.length ≤ 2 ^ 20) :
    (storedVisits base.length pages).filter (fun v => decide (base.length ≤ v.1.pageId)) =
      storedVisits base.length pages := by
  rw [List.filter_eq_self]
  intro v hv
  obtain ⟨i, recs, hi, hpage, -⟩ := mem_storedVisits hv
  have hlt := (List.getElem?_eq_some_iff.mp hi).1
  rw [hpage, u32_of_lt (by omega)]
  simp

/-- A session whose pages are stored under the returned ids keeps its promise when the pages before
it can be scanned. -/
theorem flushAnyTime_of_stored (h : FileHolds base file pages)
    (hsize : base.length + pages.length ≤ 2 ^ 20)
    (hids : ∀ q, base.length ≤ q → q < base.length + pages.length → (pageAt file q).pageId = q)
    (hstored : storedVisits base.length pages = accepted calls)
    (hscan : Scannable ((base.map RawPage.bytes).flatten)) :
    FlushAnyTime base.length calls file where
  ids p hlo hlen := by
    rw [h.length_eq] at hlen
    exact hids p hlo (Nat.le_of_mul_le_mul_right hlen (by decide))
  resolves v hv capacity observed hcap := by
    have hidle := StorageEngine.idle_new (some file) observed hcap
    rw [← hstored] at hv
    obtain ⟨i, recs, hi, hpage, hrec⟩ := mem_storedVisits hv
    have hlt := (List.getElem?_eq_some_iff.mp hi).1
    rw [u32_of_lt (by omega)] at hpage
    have hmod : (base.length + i) % 2 ^ 20 = base.length + i := Nat.mod_eq_of_lt (by omega)
    have hholds : Slotted.PageHolds
        ((StorageEngine.new (some file) capacity observed).view v.1.pageId) recs := by
      rw [hpage]
      apply FileHolds.loadPage_from h
      · omega
      · rw [hmod, Nat.add_sub_cancel_left, hi]
    obtain ⟨e, -, -, hread⟩ := readRecord_of_holds hidle
      (by rw [reader_total h hsize, hpage]; omega) (Or.inr fun _ => rfl) hholds
    exact ⟨e, by rw [hread, hrec]⟩
  scanned capacity observed hcap := by
    have hidle := StorageEngine.idle_new (some file) observed hcap
    obtain ⟨vs, hvs⟩ := Option.isSome_iff_exists.mp hscan
    obtain ⟨e, -, -, heq⟩ := scan_found
      (fun rid key value vs => vs ++ [(rid, Record.mk key value)]) hidle []
    rw [pagesVisits_session h hsize, hvs] at heq
    refine ⟨e, _, heq, ?_⟩
    rw [runCallback_collect, List.nil_append, List.filter_append, filter_unknown hvs,
      filter_stored hsize, hstored]
    exact List.Perm.refl _

/-- A promise kept means that the pages before the session can be scanned. -/
theorem scannable_of_flushAnyTime (h : FileHolds base file pages)
    (hsize : base.length + pages.length ≤ 2 ^ 20) (hkept : FlushAnyTime base.length calls file) :
    Scannable ((base.map RawPage.bytes).flatten) := by
  have hidle := StorageEngine.idle_new (some file) false (show 0 < 1 from Nat.one_pos)
  obtain ⟨e, vs, hscan, -⟩ := hkept.scanned 1 false le_rfl
  obtain ⟨e', -, -, heq⟩ := scan_found
    (fun rid key value vs => vs ++ [(rid, Record.mk key value)]) hidle []
  unfold Scannable
  rw [pagesVisits_session h hsize] at heq
  cases hfound : pagesVisits (pageAt (base.map RawPage.bytes).flatten)
      ((base.map RawPage.bytes).flatten.length / PAGE_SIZE) 0 with
  | some vs => rfl
  | none =>
      rw [hfound] at heq
      obtain ⟨s, heq⟩ := heq
      rw [hscan] at heq
      exact absurd heq (by simp)

end Session

end Aqa
