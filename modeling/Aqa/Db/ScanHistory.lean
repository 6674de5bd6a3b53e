/-
# Aqa.Db.ScanHistory — what `Database::scan` delivers.

A scan reads the pages the engine mapped when the database was opened. The puts of the running
session are in none of them, and every open writes the whole log behind the pages once more.
`scan_agrees_iff` says when a scan agrees with the put history all the same, and
`reopening_idempotent_iff` when scans behind any number of reopenings deliver the history once.
-/
import Aqa.Db.CleanRestart

namespace Aqa

open Aqa.Lib StorageReader

/-! ## States of a session -/

/-- The states of a session in which nothing has thrown, with what it has put so far. -/
inductive SessionState (cfg : Config) (disk : Disk) : Database → List Record → Prop where
  | opened {db : Database} : Database.new cfg disk = .ok db → SessionState cfg disk db []
  | call {db db' : Database} {puts : List Record} {c : DbCall} {a : Option Bytes} :
      SessionState cfg disk db puts → Database.call c db = .ok a db' →
      SessionState cfg disk db' (puts ++ putsOf [c])
  | scan {db db' : Database} {puts : List Record} {visits : List (RecordID × Record)} :
      SessionState cfg disk db puts → Database.scan db = .ok visits db' →
      SessionState cfg disk db' puts

theorem SessionState.calls {cfg : Config} {disk : Disk} (cs : List DbCall) :
    ∀ {db db' : Database} {puts : List Record} {answers : List (Option Bytes)},
      SessionState cfg disk db puts → Database.calls cs db = .ok answers db' →
      SessionState cfg disk db' (puts ++ putsOf cs) := by
  induction cs with
  | nil =>
      intro db db' puts answers h heq
      cases heq
      rw [show putsOf [] = [] from rfl, List.append_nil]
      exact h
  | cons c cs ih =>
      intro db db' puts answers h heq
      simp only [Database.calls, bind, EStateM.bind] at heq
      cases hcall : Database.call c db with
      | error err db₁ =>
          rw [hcall] at heq
          exact absurd heq (by simp)
      | ok a db₁ =>
          rw [hcall] at heq
          simp only at heq
          cases hcalls : Database.calls cs db₁ with
          | error err db₂ =>
              rw [hcalls] at heq
              exact absurd heq (by simp)
          | ok as db₂ =>
              rw [hcalls] at heq
              cases heq
              rw [show c :: cs = [c] ++ cs from rfl, putsOf, List.filterMap_append,
                ← List.append_assoc]
              exact ih (h.call hcall) hcalls

/-- Folded in visit order, a later visit of a key overwriting an earlier one, a scan gives the last
put of every key. -/
def ScanAgrees (db : Database) (history : List Record) : Prop :=
  ∃ visits db', Database.scan db = .ok visits db' ∧
    ∀ k, (insertAll ∅ (entries (visits.map Prod.snd))).lookup k = lastWrite (entries history) k

/-- The records on the pages that the addresses of the mapped page ids lead to. -/
def addressed (pages : List (List Record)) : List Record :=
  (List.range (u32 pages.length)).flatMap (shown pages)

theorem addressed_of_le {pages : List (List Record)} (h : pages.length ≤ 2 ^ 20) :
    addressed pages = pages.flatten := by
  rw [addressed, u32_of_lt (by omega), flatMap_shown h]

theorem mem_flatten_of_mem_addressed {pages : List (List Record)} {r : Record}
    (h : r ∈ addressed pages) : r ∈ pages.flatten := by
  obtain ⟨p, -, hr⟩ := List.mem_flatMap.mp h
  rw [shown] at hr
  cases hpage : pages[p % 2 ^ 20]? with
  | none =>
      rw [hpage] at hr
      exact absurd hr (by simp)
  | some page =>
      rw [hpage] at hr
      exact List.mem_flatten.mpr ⟨page, List.mem_of_getElem? hpage, hr⟩

theorem addressed_of_flatten_nil {pages : List (List Record)} (h : pages.flatten = []) :
    addressed pages = [] := by
  apply List.eq_nil_iff_forall_not_mem.mpr
  intro r hr
  have hmem := mem_flatten_of_mem_addressed hr
  rw [h] at hmem
  exact absurd hmem (by simp)

theorem Session.map_visited (s : Session) :
    s.visited.map Prod.snd = addressed s.mapped := map_snd_visits _ _

/-- A scan collects what the mapped pages show. -/
theorem Database.Holds.scan_visits {db : Database} {s : Session} (h : db.Holds (fun _ => 0) s)
    (hf : s.total = 0 ∨ 0 < s.frames) :
    ∃ db', Database.scan db = .ok s.visited db' ∧ db'.Holds (fun _ => 0) s := by
  obtain ⟨e, hscan, hholds⟩ := h.scan
    (fun rid key value visits => visits ++ [(rid, Record.mk key value)]) hf []
  rw [runCallback_collect, List.nil_append] at hscan
  refine ⟨{ db with engine := e }, ?_, hholds⟩
  unfold Database.scan
  rw [hscan]

/-- Whatever happens in a session, the pages it has mapped stay as they are. -/
theorem SessionState.holds {cfg : Config} {disk : Disk} {pages : List (List Record)} {log : Bytes}
    (hshows : disk.Shows pages log) {db : Database} {puts : List Record}
    (h : SessionState cfg disk db puts) :
    ∃ s, db.Holds (fun _ => 0) s ∧ s.mapped = pages ∧ (s.total = 0 ∨ 0 < s.frames) := by
  induction h with
  | opened hnew =>
      obtain ⟨hopens, hholds⟩ := Database.holds_of_new hshows hnew
      exact ⟨_, hholds, (Session.opened_frame cfg pages log).1, hopens.frame_opened⟩
  | @call db db' puts c a _ hcall ih =>
      obtain ⟨s, hholds, hmapped, hf⟩ := ih
      obtain ⟨-, hholds', -⟩ := hholds.call_ok hf hcall
      obtain ⟨hmapped', -, hframes⟩ := s.run_frame [c]
      have htotal : (s.after c).total = s.total :=
        congrArg (fun m : List (List Record) => u32 m.length) hmapped'
      refine ⟨s.after c, hholds', hmapped'.trans hmapped, ?_⟩
      rw [htotal, show (s.after c).frames = s.frames from hframes]
      exact hf
  | scan _ hscan ih =>
      obtain ⟨s, hholds, hmapped, hf⟩ := ih
      obtain ⟨db₁, heq, hholds₁⟩ := hholds.scan_visits hf
      rw [heq] at hscan
      cases hscan
      exact ⟨s, hholds₁, hmapped, hf⟩

/-! ## Agreement with the history -/

/-- A scan agrees with a history when the pages it reads do. -/
theorem scanAgrees_of_holds {db : Database} {s : Session} (h : db.Holds (fun _ => 0) s)
    (hf : s.total = 0 ∨ 0 < s.frames) (history : List Record) :
    ScanAgrees db history ↔
      ∀ k, lastWrite (entries (addressed s.mapped)) k = lastWrite (entries history) k := by
  obtain ⟨db', hscan, -⟩ := h.scan_visits hf
  unfold ScanAgrees
  constructor
  · rintro ⟨visits, db₁, heq, hfold⟩ k
    rw [hscan] at heq
    cases heq
    rw [← hfold k, lookup_insertAll_empty, s.map_visited]
  · intro hpages
    refine ⟨s.visited, db', hscan, ?_⟩
    intro k
    rw [lookup_insertAll_empty, s.map_visited, hpages k]

/-- **When a scan agrees with the put history.** In every state of a session, behind any sessions
that were closed normally: the fold of a scan is the map of the last puts exactly when the pages the
engine has mapped show them. Up to 2^20 pages that is when the session has left every key at the
value it had before. -/
theorem scan_agrees_iff {disk : Disk} {earlier : List Record} (hclosed : ClosedCleanly disk earlier)
    {cfg : Config} {db : Database} {puts : List Record} (hstate : SessionState cfg disk db puts) :
    ∃ pages, disk.Shows pages (disk.wal.getD []) ∧
      (ScanAgrees db (earlier ++ puts) ↔
        ∀ k, lastWrite (entries (addressed pages)) k = lastWrite (entries (earlier ++ puts)) k) ∧
      (pages.length ≤ 2 ^ 20 →
        (ScanAgrees db (earlier ++ puts) ↔
          ∀ k, lastWrite (entries earlier) k = lastWrite (entries (earlier ++ puts)) k)) := by
  obtain ⟨pages, hclean⟩ := hclosed.cleanFiles
  obtain ⟨s, hholds, hmapped, hf⟩ := hstate.holds hclean.shows
  have hiff := scanAgrees_of_holds hholds hf (earlier ++ puts)
  rw [hmapped] at hiff
  refine ⟨pages, hclean.shows, hiff, ?_⟩
  intro hsize
  rw [hiff, addressed_of_le hsize]
  constructor
  · intro h k
    rw [← hclean.upToDate k, h k]
  · intro h k
    rw [hclean.upToDate k, h k]

/-- A session puts a record and is closed; the next one puts the same value again, and its scan
delivers the record. -/
theorem scan_agrees_iff_put_again :
    ∃ disk db visits db', ClosedCleanly disk [⟨[1], [2]⟩] ∧
      SessionState ⟨1, 1, false⟩ disk db [⟨[1], [2]⟩] ∧ Database.scan db = .ok visits db' ∧
      visits ≠ [] ∧ ScanAgrees db ([⟨[1], [2]⟩] ++ [⟨[1], [2]⟩]) := by
  have hfits : Record.need ⟨[1], [2]⟩ ≤ pageRoom := by simp [need_le_pageRoom_iff]
  obtain ⟨disk, hclosed, hfiles⟩ := cleanFiles_empty.session ClosedCleanly.new
    ⟨1, 1, false⟩ le_rfl le_rfl [.put [1] [2]] (by simp [putsOf, need_le_pageRoom_iff])
  obtain ⟨hopens, db₀, hnew, hholds⟩ := hfiles.opens ⟨1, 1, false⟩ le_rfl le_rfl
  obtain ⟨hmapped, hcapacity, -⟩ := Session.opened_frame ⟨1, 1, false⟩ _ (disk.wal.getD [])
  obtain ⟨db, hput, -, heq⟩ := hholds.put (by rw [hcapacity]) ⟨[1], [2]⟩
  rw [if_pos hfits] at heq
  have hcall : Database.call (.put [1] [2]) db₀ = .ok none db := by
    simp only [Database.call, bind, EStateM.bind, heq]
    rfl
  have hstate : SessionState ⟨1, 1, false⟩ disk db [⟨[1], [2]⟩] :=
    (SessionState.opened hnew).call hcall
  have hput_closed : ClosedCleanly disk [⟨[1], [2]⟩] := hclosed
  obtain ⟨pages, hshows, -, hiff⟩ := scan_agrees_iff hput_closed hstate
  have hone : pages.length = 1 := by
    have hlen := hshows.data.length_eq.symm.trans hfiles.shows.data.length_eq
    rw [List.length_nil, Nat.zero_add, Nat.zero_add] at hlen
    exact Nat.eq_of_mul_eq_mul_right (by decide) hlen
  have hagrees : ScanAgrees db ([⟨[1], [2]⟩] ++ [⟨[1], [2]⟩]) := by
    refine (hiff (by rw [hone]; decide)).mpr fun k => ?_
    by_cases hk : ([1] : Bytes) = k <;> simp [entries, Record.entry, lastWrite, hk]
  obtain ⟨visits, db', hscan, hfold⟩ := hagrees
  refine ⟨disk, db, visits, db', hclosed, hstate, hscan, ?_, visits, db', hscan, hfold⟩
  rintro rfl
  exact absurd (hfold [1]) (by decide)

/-- A put into a new database is not scanned. -/
theorem scan_misses_put :
    ∃ db₀ db, ClosedCleanly Disk.empty [] ∧ Database.new ⟨1, 1, false⟩ Disk.empty = .ok db₀ ∧
      Database.call (.put [1] [2]) db₀ = .ok none db ∧
      SessionState ⟨1, 1, false⟩ Disk.empty db [⟨[1], [2]⟩] ∧ ¬ScanAgrees db [⟨[1], [2]⟩] := by
  obtain ⟨hopens, db₀, hnew, hholds⟩ := cleanFiles_empty.opens ⟨1, 1, false⟩ le_rfl le_rfl
  obtain ⟨hmapped, hcapacity, -⟩ := Session.opened_frame ⟨1, 1, false⟩ [] (Disk.empty.wal.getD [])
  have hfits : Record.need ⟨[1], [2]⟩ ≤ pageRoom := by simp [need_le_pageRoom_iff]
  obtain ⟨db, hput, -, heq⟩ := hholds.put (by rw [hcapacity]) ⟨[1], [2]⟩
  rw [if_pos hfits] at heq
  have hcall : Database.call (.put [1] [2]) db₀ = .ok none db := by
    simp only [Database.call, bind, EStateM.bind, heq]
    rfl
  refine ⟨db₀, db, ClosedCleanly.new, hnew, hcall, (SessionState.opened hnew).call hcall, ?_⟩
  have htotal : ∀ s : Session, s.mapped = [] → s.total = 0 := by
    intro s hs
    rw [Session.total, hs, List.length_nil, u32_zero]
  rw [scanAgrees_of_holds (hput hfits) (Or.inl (htotal _ hmapped))]
  intro hagrees
  have hkey := hagrees [1]
  rw [show ((Session.opened ⟨1, 1, false⟩ [] (Disk.empty.wal.getD [])).put ⟨[1], [2]⟩).mapped = []
    from hmapped, addressed_of_le (Nat.zero_le _)] at hkey
  exact absurd hkey (by decide)

/-! ## Opening again and again -/

/-- A number of times opened and closed, nothing put. -/
inductive Reopened (disk : Disk) : Nat → Disk → Prop where
  | zero : Reopened disk 0 disk
  | succ {n : Nat} {disk' : Disk} {cfg : Config} {db : Database} :
      Reopened disk n disk' → Database.new cfg disk' = .ok db → Reopened disk (n + 1) db.destroy

/-- What a scan right after opening delivers. -/
def ScansAs (disk : Disk) (recs : List Record) : Prop :=
  ∃ cfg db visits db', Database.new cfg disk = .ok db ∧ Database.scan db = .ok visits db' ∧
    recs = visits.map Prod.snd

theorem ScansAs.eq {disk : Disk} {pages : List (List Record)} {log : Bytes} {recs : List Record}
    (h : ScansAs disk recs) (hshows : disk.Shows pages log) : recs = addressed pages := by
  obtain ⟨cfg, db, visits, db', hnew, hscan, rfl⟩ := h
  obtain ⟨hopens, hholds⟩ := Database.holds_of_new hshows hnew
  obtain ⟨db₁, heq, -⟩ := hholds.scan_visits hopens.frame_opened
  rw [heq] at hscan
  cases hscan
  rw [Session.map_visited, (Session.opened_frame cfg pages log).1]

theorem CleanFiles.scansAs {disk : Disk} {pages : List (List Record)} {history : List Record}
    (h : CleanFiles disk pages history) : ScansAs disk (addressed pages) := by
  obtain ⟨hopens, db, hnew, hholds⟩ := h.opens ⟨1, 1, false⟩ le_rfl le_rfl
  obtain ⟨db', hscan, -⟩ := hholds.scan_visits hopens.frame_opened
  refine ⟨_, db, _, db', hnew, hscan, ?_⟩
  rw [Session.map_visited, (Session.opened_frame _ pages _).1]

/-- Clean files that are opened and closed with no call in between: the replay has written the whole
history once more. -/
theorem CleanFiles.opened_destroy {disk : Disk} {pages : List (List Record)} {history : List Record}
    (h : CleanFiles disk pages history) {cfg : Config} {db : Database}
    (hnew : Database.new cfg disk = .ok db) :
    CleanFiles db.destroy (StorageWriter.flushed 0
      (Pager.appendAll Record.need pageRoom ⟨pages, []⟩ history)) history := by
  obtain ⟨hopens, hholds⟩ := Database.holds_of_new h.shows hnew
  have hwrote := Session.wrote_opened hopens h.logged
  have hfiles := h.destroy hholds (by rw [List.append_nil]; exact hwrote)
  rw [hwrote.pager, List.append_nil] at hfiles
  exact hfiles

/-- Clean files can be opened and closed once more. -/
theorem CleanFiles.reopen {disk : Disk} {pages : List (List Record)} {history : List Record}
    (h : CleanFiles disk pages history) : ∃ disk', Reopened disk 1 disk' ∧
      CleanFiles disk' (StorageWriter.flushed 0
        (Pager.appendAll Record.need pageRoom ⟨pages, []⟩ history)) history := by
  obtain ⟨-, db, hnew, -⟩ := h.opens ⟨1, 1, false⟩ le_rfl le_rfl
  exact ⟨db.destroy, Reopened.zero.succ hnew, h.opened_destroy hnew⟩

/-- Of the first 2^32 pages only the first may be empty. -/
def Packed (pages : List (List Record)) : Prop :=
  ∀ i page, pages[i]? = some page → i % 2 ^ 32 ≠ 0 → page ≠ []

/-- What a writer that continues behind some pages leaves there. -/
theorem flushed_split (pages : List (List Record)) {recs : List Record}
    (hfits : ∀ r ∈ recs, Record.need r ≤ pageRoom) :
    ∃ more, StorageWriter.flushed 0 (Pager.appendAll Record.need pageRoom ⟨pages, []⟩ recs) =
        pages ++ more ∧ more.flatten = recs ∧
      ∀ i page, more[i]? = some page → (pages.length + i) % 2 ^ 32 ≠ 0 → page ≠ [] := by
  obtain ⟨q, hq⟩ : ∃ q, Pager.appendAll Record.need pageRoom ⟨[], []⟩ recs = q := ⟨_, rfl⟩
  have hshift := Pager.appendAll_shift Record.need pageRoom pages ⟨[], []⟩ recs
  rw [List.append_nil, hq] at hshift
  have hclosed : ∀ page ∈ q.pages, page ≠ [] := by
    intro page hpage
    rw [← hq] at hpage
    exact (Pager.ne_nil_of_mem_pages_appendAll hfits hpage).resolve_left (by simp)
  rw [hshift]
  unfold StorageWriter.flushed
  rw [List.length_append, Nat.zero_add]
  -- `flush` writes the open page when it holds a record, or when its id is 0
  by_cases hcond : q.cur ≠ [] ∨ u32 (pages.length + q.pages.length) = 0
  · rw [if_pos hcond]
    refine ⟨q.pages ++ [q.cur], by simp, ?_, ?_⟩
    · rw [← hq, List.flatten_append, List.flatten_singleton]
      exact Pager.contents_appendAll_of_fits (p := ⟨[], []⟩) hfits
    · intro i page hi hne
      -- a closed page, or the open one
      by_cases hlt : i < q.pages.length
      · rw [List.getElem?_append_left hlt] at hi
        exact hclosed page (List.mem_of_getElem? hi)
      · rw [List.getElem?_append_right (Nat.not_lt.mp hlt)] at hi
        have hzero : i - q.pages.length = 0 := by
          by_contra hpos
          rw [List.getElem?_eq_none (by simp; omega)] at hi
          exact absurd hi (by simp)
        rw [hzero] at hi
        simp only [List.getElem?_cons_zero, Option.some.injEq] at hi
        rcases hcond with hcur | hwrap
        · rw [← hi]
          exact hcur
        · rw [u32] at hwrap
          exact absurd hwrap (by rw [show i = q.pages.length by omega] at hne; exact hne)
  · rw [if_neg hcond]
    have hcur : q.cur = [] := by
      by_contra hne
      exact hcond (Or.inl hne)
    refine ⟨q.pages, rfl, ?_, fun i page hi _ => hclosed page (List.mem_of_getElem? hi)⟩
    have hcontents := Pager.contents_appendAll_of_fits (p := (⟨[], []⟩ : Pager Record)) hfits
    rw [hq, Pager.contents, hcur, List.append_nil] at hcontents
    exact hcontents

theorem Packed.append {pages more : List (List Record)} (h : Packed pages)
    (hmore : ∀ i page, more[i]? = some page → (pages.length + i) % 2 ^ 32 ≠ 0 → page ≠ []) :
    Packed (pages ++ more) := by
  intro i page hi hne
  by_cases hlt : i < pages.length
  · rw [List.getElem?_append_left hlt] at hi
    exact h i page hi hne
  · rw [List.getElem?_append_right (Nat.not_lt.mp hlt)] at hi
    exact hmore _ page hi (by rw [Nat.add_sub_cancel' (Nat.not_lt.mp hlt)]; exact hne)

/-- Sessions that were closed normally leave such files. -/
theorem ClosedCleanly.packed {disk : Disk} {history : List Record} (h : ClosedCleanly disk history) :
    ∃ pages, CleanFiles disk pages history ∧ Packed pages := by
  induction h with
  | new => exact ⟨[], cleanFiles_empty, by intro i page hi; simp at hi⟩
  | @session disk history cfg db db' cs answers _ hnew hcalls ih =>
      obtain ⟨pages, hclean, hpacked⟩ := ih
      obtain ⟨hopens, hholds⟩ := Database.holds_of_new hclean.shows hnew
      obtain ⟨-, hholds', hfits, -⟩ := hholds.calls_ok cs hopens.frame_opened hcalls
      have hwrote := (Session.wrote_opened hopens hclean.logged).run hfits
      have hfiles := hclean.destroy hholds' hwrote
      obtain ⟨more, heq, -, hmore⟩ := flushed_split pages hwrote.fits
      rw [hwrote.pager, heq] at hfiles
      exact ⟨_, hfiles, hpacked.append hmore⟩

/-- **Every open writes the whole history once more.** -/
theorem Reopened.files {disk disk' : Disk} {pages : List (List Record)} {history : List Record}
    (h : CleanFiles disk pages history) (hpacked : Packed pages) {n : Nat}
    (hre : Reopened disk n disk') :
    ∃ more, CleanFiles disk' (pages ++ more) history ∧ Packed (pages ++ more) ∧
      more.flatten = (List.replicate n history).flatten := by
  induction hre with
  | zero => exact ⟨[], by rw [List.append_nil]; exact h, by rw [List.append_nil]; exact hpacked, rfl⟩
  | @succ n disk' cfg db _ hnew ih =>
      obtain ⟨more, hclean, hpacked', hflatten⟩ := ih
      have hfiles := hclean.opened_destroy hnew
      obtain ⟨once, heq, honce, hmore⟩ := flushed_split (pages ++ more) hclean.fits
      rw [heq] at hfiles
      refine ⟨more ++ once, ?_, ?_, ?_⟩
      · rw [← List.append_assoc]
        exact hfiles
      · rw [← List.append_assoc]
        exact hpacked'.append hmore
      · rw [List.flatten_append, hflatten, honce, List.replicate_succ', List.flatten_append,
          List.flatten_singleton]

/-! ## More pages, more records -/

/-- The pages found at first are found again, and then those of the further page ids. -/
theorem addressed_append {pages more : List (List Record)} (hne : pages ≠ [])
    (hlt : pages.length + more.length < 2 ^ 32) :
    addressed (pages ++ more) = addressed pages ++
      (List.range more.length).flatMap fun i => shown (pages ++ more) (pages.length + i) := by
  have hpos := List.length_pos_iff.mpr hne
  unfold addressed
  rw [List.length_append, u32_of_lt hlt, u32_of_lt (by omega), List.range_add, List.flatMap_append,
    List.flatMap_map]
  congr 1
  apply List.flatMap_congr
  intro p hp
  have hmod : p % 2 ^ 20 < pages.length :=
    lt_of_le_of_lt (Nat.mod_le _ _) (List.mem_range.mp hp)
  rw [shown, shown, List.getElem?_append_left hmod]

theorem Packed.shown_ne_nil {pages : List (List Record)} (h : Packed pages) {p : Nat}
    (hp : p < pages.length) (hmod : p % 2 ^ 20 ≠ 0) : shown pages p ≠ [] := by
  have hlt : p % 2 ^ 20 < pages.length := lt_of_le_of_lt (Nat.mod_le _ _) hp
  have hget := List.getElem?_eq_getElem hlt
  rw [shown, hget, Option.getD_some]
  exact h _ _ hget (by omega)

theorem le_length_flatMap_range {α : Type} (f : Nat → List α) (n : Nat)
    (h : ∀ p < n, p ≠ 0 → f p ≠ []) : n - 1 ≤ ((List.range n).flatMap f).length := by
  induction n with
  | zero => exact Nat.zero_le _
  | succ n ih =>
      have ih := ih fun p hp => h p (by omega)
      rw [List.range_succ, List.flatMap_append, List.length_append, List.flatMap_singleton]
      by_cases hn : n = 0
      · omega
      · have hpos := List.length_pos_iff.mpr (h n (by omega) hn)
        omega

/-- A file of 2^20 pages shows at least so many records, but for page 0. -/
theorem Packed.le_length_addressed {pages : List (List Record)} (h : Packed pages)
    (hlen : 2 ^ 20 ≤ pages.length) (hlt : pages.length < 2 ^ 32) :
    2 ^ 20 - 1 ≤ (addressed pages).length := by
  have hfirst : 2 ^ 20 - 1 ≤ ((List.range (2 ^ 20)).flatMap (shown pages)).length := by
    apply le_length_flatMap_range
    intro p hp hne
    exact h.shown_ne_nil (by omega) (by omega)
  obtain ⟨n, hn⟩ : ∃ n, pages.length = 2 ^ 20 + n := ⟨pages.length - 2 ^ 20, by omega⟩
  rw [addressed, u32_of_lt hlt, hn, List.range_add, List.flatMap_append, List.length_append]
  omega

/-- Pages behind others that show no record more: there is at most one, at a multiple of 2^20. -/
theorem Packed.length_more {pages more : List (List Record)} (h : Packed (pages ++ more))
    (hne : pages ≠ []) (hlt : pages.length + more.length < 2 ^ 32)
    (hsame : (addressed (pages ++ more)).length = (addressed pages).length) :
    more.length ≤ 1 ∧ ∀ i < more.length, (pages.length + i) % 2 ^ 20 = 0 := by
  rw [addressed_append hne hlt, List.length_append] at hsame
  have hempty : ∀ i < more.length, shown (pages ++ more) (pages.length + i) = [] := by
    intro i hi
    have hnil : ((List.range more.length).flatMap fun i =>
        shown (pages ++ more) (pages.length + i)) = [] := List.length_eq_zero_iff.mp (by omega)
    exact List.flatMap_eq_nil_iff.mp hnil i (List.mem_range.mpr hi)
  have hmod : ∀ i < more.length, (pages.length + i) % 2 ^ 20 = 0 := by
    intro i hi
    by_contra hmod
    exact h.shown_ne_nil (by rw [List.length_append]; omega) hmod (hempty i hi)
  refine ⟨?_, hmod⟩
  -- two neighbours are not both multiples
  by_contra htwo
  have h₀ := hmod 0 (by omega)
  have h₁ := hmod 1 (by omega)
  omega

/-- A page has few records. -/
theorem FileHolds.length_page {bytes : Bytes} {pages : List (List Record)}
    (h : FileHolds [] bytes pages) {page : List Record} (hpage : page ∈ pages) :
    page.length < 2 ^ 10 := by
  obtain ⟨raw, -, hraw⟩ := h
  obtain ⟨i, hi, rfl⟩ := List.getElem_of_mem hpage
  have hfits := (hraw.get (by rw [hraw.length_eq]; exact hi) hi).fits
  rw [List.get_eq_getElem, Slotted.used_eq] at hfits
  simp only [pageRoom, PAGE_SIZE, PAGE_HEADER_SIZE, SLOT_SIZE] at hfits
  omega

/-- **Reopening multiplies a history.** Behind any sessions that were closed normally and any number
of reopenings, as long as page numbers fit 32 bits: the scan delivers what it delivered after the
first reopening, each put once and in put order, exactly when there was no put. -/
theorem reopening_idempotent_iff {disk disk' : Disk} {history : List Record}
    (hclosed : ClosedCleanly disk history) {n : Nat} (hn : 1 ≤ n) (hre : Reopened disk n disk')
    (hsize : (disk'.data.getD []).length < 2 ^ 32 * PAGE_SIZE) {first later : List Record}
    (hfirst : ScansAs disk first) (hlater : ScansAs disk' later) :
    (later.map Record.entry = first.map Record.entry ∧
      first.map Record.entry = history.map Record.entry) ↔ history = [] := by
  obtain ⟨pages, hclean, hpacked⟩ := hclosed.packed
  obtain ⟨more, hclean', hpacked', hmore⟩ := hre.files hclean hpacked
  rw [hfirst.eq hclean.shows, hlater.eq hclean'.shows]
  have hlen := hclean'.shows.data.length_eq
  rw [List.length_nil, Nat.zero_add, List.length_append] at hlen
  have hlt : pages.length + more.length < 2 ^ 32 := by
    rw [hlen] at hsize
    exact Nat.lt_of_mul_lt_mul_right hsize
  constructor
  · rintro ⟨hsame, honce⟩
    by_contra hne
    have hpages : pages ≠ [] := by
      rintro rfl
      obtain ⟨r, hr⟩ := List.exists_mem_of_ne_nil history hne
      have hkey := (hclean.upToDate.keys_iff r.key).mpr (List.mem_map_of_mem hr)
      exact absurd hkey (by simp)
    have hlengths := congrArg List.length hsame
    rw [List.length_map, List.length_map] at hlengths
    obtain ⟨hone, hmod⟩ := hpacked'.length_more hpages hlt hlengths
    -- one page more: the whole history fits on it
    have hrecs : history.length ≤ more.flatten.length := by
      rw [hmore, List.length_flatten, List.map_replicate, List.sum_replicate, smul_eq_mul]
      exact Nat.le_mul_of_pos_left _ hn
    have hpos := List.length_pos_iff.mpr hne
    obtain ⟨page, rfl⟩ : ∃ page, more = [page] := by
      apply List.length_eq_one_iff.mp
      have hsome : more ≠ [] := by
        rintro rfl
        exact absurd hrecs (by simp; omega)
      have hmorepos := List.length_pos_iff.mpr hsome
      omega
    -- but the pages in front of it are a multiple of 2^20, with a record each
    have hshort := hclean'.shows.data.length_page (by simp : page ∈ pages ++ [page])
    have h₀ := hmod 0 (by simp)
    have hlong := hpacked.le_length_addressed
      (by have := List.length_pos_iff.mpr hpages; omega) (by omega)
    have hsamelen := congrArg List.length honce
    simp only [List.length_map, List.flatten_singleton] at hsamelen hrecs
    omega
  · intro hnil
    have hflatten : pages.flatten = [] := by
      apply List.eq_nil_iff_forall_not_mem.mpr
      intro r hr
      have hkey := (hclean.upToDate.keys_iff r.key).mp (List.mem_map_of_mem hr)
      rw [hnil] at hkey
      exact absurd hkey (by simp)
    have hflatten' : (pages ++ more).flatten = [] := by
      rw [List.flatten_append, hflatten, hmore, hnil]
      simp
    rw [addressed_of_flatten_nil hflatten, addressed_of_flatten_nil hflatten', hnil]
    exact ⟨rfl, rfl⟩

/-- An empty database, opened and closed once. -/
theorem reopening_idempotent_iff_empty :
    ∃ disk' first later, Reopened Disk.empty 1 disk' ∧ ScansAs Disk.empty first ∧
      ScansAs disk' later ∧ later.map Record.entry = first.map Record.entry := by
  obtain ⟨disk', hre, hfiles⟩ := cleanFiles_empty.reopen
  refine ⟨disk', _, _, hre, cleanFiles_empty.scansAs, hfiles.scansAs, ?_⟩
  have hlen := hfiles.shows.data.length_eq
  exact ((reopening_idempotent_iff ClosedCleanly.new le_rfl hre (by rw [hlen]; decide +kernel)
    cleanFiles_empty.scansAs hfiles.scansAs).mpr rfl).1

/-- One put: the second reopening delivers it twice. -/
theorem reopening_delivers_twice :
    ∃ disk disk' first later, ClosedCleanly disk [⟨[1], [2]⟩] ∧ Reopened disk 1 disk' ∧
      ScansAs disk first ∧ ScansAs disk' later ∧ first.map Record.entry = [([1], [2])] ∧
      later.map Record.entry = [([1], [2]), ([1], [2])] := by
  obtain ⟨disk, hclosed, hfiles⟩ := cleanFiles_empty.session ClosedCleanly.new
    ⟨1, 1, false⟩ le_rfl le_rfl [.put [1] [2]]
    (by simp [putsOf, need_le_pageRoom_iff])
  obtain ⟨disk', hre, hfiles'⟩ := hfiles.reopen
  refine ⟨disk, disk', _, _, hclosed, hre, hfiles.scansAs, hfiles'.scansAs, ?_, ?_⟩
  · rw [addressed_of_le (by decide +kernel)]
    decide +kernel
  · rw [addressed_of_le (by decide +kernel)]
    decide +kernel

end Aqa
