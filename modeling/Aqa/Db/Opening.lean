/-
# Aqa.Db.Opening — constructing a database, closing it, losing it.

`Disk.Shows` reads the two files of a closed database as pages of records and a log. The constructor
replays the readable records of the log behind those pages and rebuilds the index from the pages
alone: `Session.opened` is that computation on sessions, `new_cases` says that the constructor does
it exactly when every record fits and the caches have the places they need. `destroy` and `files`
are what a normal end and a crash leave on disk.
-/
import Aqa.Db.Session
import Aqa.Index.Rebuild

namespace Aqa

open Aqa.Lib StorageReader

/-- The record a frame carries. -/
def WalRecord.record (r : WalRecord) : Record := ⟨r.key, r.value⟩

/-- The files hold these pages and this log. -/
structure Disk.Shows (disk : Disk) (pages : List (List Record)) (log : Bytes) : Prop where
  data : FileHolds [] (disk.data.getD []) pages
  wal : disk.wal.getD [] = log

theorem Disk.shows_empty : Disk.empty.Shows [] [] where
  data := FileHolds.nil []
  wal := rfl

namespace Session

/-- The records a replay of the log delivers. -/
def replayable (log : Bytes) : List Record := (WalManager.readable log).map WalRecord.record

/-- The members as they are constructed. -/
def start (cfg : Config) (pages : List (List Record)) (log : Bytes) : Session where
  mapped := pages
  pager := ⟨pages, []⟩
  log := log
  lsn := 0
  placed := []
  cached := []
  capacity := cfg.recordCacheSize
  frames := cfg.cacheSizePages

/-- Records replayed one after the other. -/
def replayed (s : Session) (recs : List Record) : Session := recs.foldl stored s

/-- The LSN counter behind a replay. -/
def counted (s : Session) : Session :=
  { s with lsn := WalManager.maxLsn s.lsn (WalManager.readable s.log) }

/-- What a scan of the mapped pages visits. -/
def visited (s : Session) : List (RecordID × Record) := visits (shown s.mapped) s.total

/-- The index rebuilt from the mapped pages, when there are any. -/
def recovered (s : Session) : Session :=
  if 0 < s.total then { s with placed := s.visited.map fun v => (v.2.key, v.1) } else s

/-- The session a constructor opens. -/
def opened (cfg : Config) (pages : List (List Record)) (log : Bytes) : Session :=
  ((start cfg pages log).replayed (replayable log)).counted.recovered

/-- What the constructor needs to succeed. -/
structure Opens (cfg : Config) (pages : List (List Record)) (log : Bytes) : Prop where
  fits : ∀ r ∈ replayable log, Record.need r ≤ pageRoom
  place : replayable log ≠ [] → 1 ≤ cfg.recordCacheSize
  frame : 0 < u32 pages.length → 0 < cfg.cacheSizePages

/-! ## What replaying leaves alone -/

section Frame

variable (s : Session) (recs : List Record)

theorem replayed_concat (r : Record) : s.replayed (recs ++ [r]) = (s.replayed recs).stored r := by
  rw [replayed, List.foldl_append]
  rfl

/-- Replaying changes the writer, the index and the record cache only. -/
theorem replayed_frame :
    (s.replayed recs).mapped = s.mapped ∧ (s.replayed recs).log = s.log ∧
      (s.replayed recs).lsn = s.lsn ∧ (s.replayed recs).capacity = s.capacity ∧
      (s.replayed recs).frames = s.frames := by
  induction recs using List.reverseRecOn with
  | nil => exact ⟨rfl, rfl, rfl, rfl, rfl⟩
  | append_singleton recs r ih =>
      rw [replayed_concat]
      exact ih

theorem pager_replayed :
    (s.replayed recs).pager = Pager.appendAll Record.need pageRoom s.pager recs := by
  induction recs using List.reverseRecOn with
  | nil => rfl
  | append_singleton recs r ih =>
      rw [replayed_concat, Pager.appendAll_concat, ← ih]
      rfl

theorem cached_replayed :
    (s.replayed recs).cached = lruUses s.capacity s.cached (recs.map Record.entry) := by
  induction recs using List.reverseRecOn with
  | nil => rfl
  | append_singleton recs r ih =>
      have hcap := (replayed_frame s recs).2.2.2.1
      rw [replayed_concat, List.map_append, List.map_singleton, lruUses_concat, ← ih, ← hcap]
      rfl

theorem keys_placed_replayed :
    (s.replayed recs).placed.map Prod.fst = s.placed.map Prod.fst ++ recs.map Record.key := by
  induction recs using List.reverseRecOn with
  | nil => rw [List.map_nil, List.append_nil]; rfl
  | append_singleton recs r ih =>
      have hplaced : ((s.replayed recs).stored r).placed.map Prod.fst =
          (s.replayed recs).placed.map Prod.fst ++ [r.key] := by
        simp [stored, used, indexed, appended]
      rw [replayed_concat, hplaced, ih, List.map_append, List.map_singleton, List.append_assoc]

end Frame

/-- The sizes and the mapping of a session that was opened. -/
theorem opened_frame (cfg : Config) (pages : List (List Record)) (log : Bytes) :
    (opened cfg pages log).mapped = pages ∧
      (opened cfg pages log).capacity = cfg.recordCacheSize ∧
      (opened cfg pages log).frames = cfg.cacheSizePages := by
  obtain ⟨hmapped, -, -, hcap, hframes⟩ := replayed_frame (start cfg pages log) (replayable log)
  have hrecovered : ∀ s : Session, s.recovered.mapped = s.mapped ∧
      s.recovered.capacity = s.capacity ∧ s.recovered.frames = s.frames := by
    intro s
    unfold recovered
    split <;> exact ⟨rfl, rfl, rfl⟩
  obtain ⟨h₁, h₂, h₃⟩ := hrecovered ((start cfg pages log).replayed (replayable log)).counted
  exact ⟨h₁.trans hmapped, h₂.trans hcap, h₃.trans hframes⟩

theorem Opens.frame_opened {cfg : Config} {pages : List (List Record)} {log : Bytes}
    (h : Opens cfg pages log) :
    (opened cfg pages log).total = 0 ∨ 0 < (opened cfg pages log).frames := by
  obtain ⟨hmapped, -, hframes⟩ := opened_frame cfg pages log
  rw [total, hmapped, hframes]
  rcases Nat.eq_zero_or_pos (u32 pages.length) with hzero | hpos
  · exact Or.inl hzero
  · exact Or.inr (h.frame hpos)

end Session

namespace Database

variable {cfg : Config} {disk : Disk} {pages : List (List Record)} {log : Bytes}

/-! ## The members -/

theorem holds_members (cfg : Config) (h : disk.Shows pages log) :
    (members cfg disk).Holds (fun _ => 0) (Session.start cfg pages log) := by
  obtain ⟨w, hw, hwriter⟩ := StorageWriter.new_spec
    (some (disk.data.getD [])) h.data
  have hlen := h.data.length_div
  have hmembers : members cfg disk =
      ⟨StorageEngine.new disk.data cfg.cacheSizePages cfg.observed, w, Index.new,
        LruCache.new cfg.recordCacheSize none, WalManager.new disk.wal⟩ := by
    have hfile : (StorageEngine.new disk.data cfg.cacheSizePages cfg.observed).file.bytes =
        disk.data.getD [] := rfl
    simp only [members, hfile, hw]
    rfl
  rw [hmembers]
  exact
    { coherent := StorageEngine.coherent_new _ _ _
      policy := rfl
      pins_eq := StorageEngine.pinOf_new _ _ _
      frames := by simp [StorageEngine.new, PageCache.new, Session.start]
      total := by
        show u32 ((disk.data.getD []).length / PAGE_SIZE) = u32 pages.length
        rw [hlen, List.length_nil, Nat.zero_add]
      writer := hwriter
      kept := List.prefix_rfl
      logFile := congrArg some h.wal
      logEnd := Or.inl rfl
      lsn := rfl
      index := rfl
      cache := LruCache.lruHolds_new _
      capacity := rfl }

/-! ## The replay -/

/-- Records that fit are replayed. -/
theorem deliver_replayVisitor {pins : Nat → Nat} (recs : List WalRecord) :
    ∀ (db : Database) (s : Session) (count lsn : Nat), db.Holds pins s →
      (∀ r ∈ recs.map WalRecord.record, Record.need r ≤ pageRoom) →
      (recs ≠ [] → 1 ≤ s.capacity) →
      ∃ db', WalManager.deliver replayVisitor recs count (lsn, db) =
          .ok (count + recs.length) (WalManager.maxLsn lsn recs, db') ∧
        db'.Holds pins (s.replayed (recs.map WalRecord.record)) := by
  induction recs with
  | nil =>
      intro db s count lsn h _ _
      exact ⟨db, rfl, h⟩
  | cons rec recs ih =>
      intro db s count lsn h hfits hcap
      have hcap := hcap (by simp)
      obtain ⟨db₁, heq₁, h₁⟩ := h.replayVisitor hcap rec
        (hfits rec.record (by simp))
      obtain ⟨db₂, heq₂, h₂⟩ := ih db₁ (s.stored rec.record) (count + 1)
        (if rec.lsn > lsn then rec.lsn else lsn) h₁
        (fun r hr => hfits r (by simp only [List.map_cons, List.mem_cons]; exact Or.inr hr))
        (fun _ => hcap)
      refine ⟨db₂, ?_, h₂⟩
      have hmax : (if rec.lsn > lsn then rec.lsn else lsn) = max lsn rec.lsn := by
        rw [Nat.max_def]
        split <;> split <;> omega
      simp only [WalManager.deliver, heq₁]
      rw [heq₂, hmax, List.length_cons]
      congr 1
      omega

/-- A record that does not fit, or the want of a place in the record cache, stops the replay. -/
theorem deliver_replayVisitor_error {pins : Nat → Nat} (recs : List WalRecord) :
    ∀ (db : Database) (s : Session) (count lsn : Nat), db.Holds pins s →
      ((∃ r ∈ recs.map WalRecord.record, ¬ Record.need r ≤ pageRoom) ∨
        (recs ≠ [] ∧ s.capacity = 0)) →
      ∃ err out, WalManager.deliver replayVisitor recs count (lsn, db) = .error err out := by
  induction recs with
  | nil =>
      intro db s count lsn _ hbad
      rcases hbad with ⟨r, hr, -⟩ | ⟨hne, -⟩
      · exact absurd hr (by simp)
      · exact absurd rfl hne
  | cons rec recs ih =>
      intro db s count lsn h hbad
      by_cases hfits : Record.need rec.record ≤ pageRoom
      · by_cases hcap : 1 ≤ s.capacity
        · obtain ⟨db₁, heq₁, h₁⟩ := h.replayVisitor hcap rec hfits
          have hrest : ∃ r ∈ recs.map WalRecord.record, ¬ Record.need r ≤ pageRoom := by
            rcases hbad with ⟨r, hr, hn⟩ | ⟨-, hzero⟩
            · rw [List.map_cons, List.mem_cons] at hr
              rcases hr with rfl | hr
              · exact absurd hfits hn
              · exact ⟨r, hr, hn⟩
            · omega
          simp only [WalManager.deliver, heq₁]
          exact ih db₁ (s.stored rec.record) _ _ h₁ (Or.inl hrest)
        · obtain ⟨db₁, h₁, heq₁⟩ := h.writerAppend rec.record
          rw [if_pos hfits] at heq₁
          obtain ⟨db₂, heq₂, h₂⟩ := h₁.indexInsert rec.key
            (StorageWriter.lastRid 0 (s.appended rec.record).pager)
          have heq₃ := h₂.cachePut_without_place (by
            show s.capacity = 0
            omega) rec.key rec.value
          simp only [WalRecord.record] at heq₁ heq₂
          simp only [WalManager.deliver, Database.replayVisitor, bind, EStateM.bind, heq₁, heq₂,
            heq₃]
          exact ⟨_, _, rfl⟩
      · obtain ⟨db₁, -, heq₁⟩ := h.writerAppend rec.record
        rw [if_neg hfits] at heq₁
        simp only [WalRecord.record] at heq₁
        simp only [WalManager.deliver, Database.replayVisitor, bind, EStateM.bind, heq₁]
        exact ⟨_, _, rfl⟩

namespace Holds

variable {db : Database} {pins : Nat → Nat} {s : Session}

theorem replayWal (h : db.Holds pins s)
    (hfits : ∀ r ∈ Session.replayable s.log, Record.need r ≤ pageRoom)
    (hcap : Session.replayable s.log ≠ [] → 1 ≤ s.capacity) :
    ∃ db', Database.replayWal db = .ok (WalManager.readable s.log).length db' ∧
      db'.Holds pins (s.replayed (Session.replayable s.log)).counted := by
  obtain ⟨db₁, heq₁, h₁⟩ := deliver_replayVisitor (WalManager.readable s.log) db s 0
    db.wal.currentLsn h hfits (fun hne => hcap (by simpa [Session.replayable] using hne))
  refine ⟨{ db₁ with wal := { db.wal with
      logFile := .app
      currentLsn := WalManager.maxLsn db.wal.currentLsn (WalManager.readable s.log) } }, ?_, ?_⟩
  · simp only [Database.replayWal, WalManager.replay_eq _ h.logFile, heq₁, Nat.zero_add]
  · obtain ⟨-, hlog, hlsn, -⟩ := Session.replayed_frame s (Session.replayable s.log)
    refine { h₁ with logFile := ?_, logEnd := Or.inl rfl, lsn := ?_ }
    · show db.wal.file = some (s.replayed (Session.replayable s.log)).log
      rw [hlog]
      exact h.logFile
    · show WalManager.maxLsn db.wal.currentLsn (WalManager.readable s.log) =
        WalManager.maxLsn (s.replayed (Session.replayable s.log)).lsn
          (WalManager.readable (s.replayed (Session.replayable s.log)).log)
      rw [hlog, hlsn, h.lsn]

theorem replayWal_error (h : db.Holds pins s)
    (hbad : (∃ r ∈ Session.replayable s.log, ¬ Record.need r ≤ pageRoom) ∨
      (Session.replayable s.log ≠ [] ∧ s.capacity = 0)) :
    ∃ err db', Database.replayWal db = .error err db' := by
  obtain ⟨err, ⟨lsn, db₁⟩, heq⟩ := deliver_replayVisitor_error (WalManager.readable s.log) db s 0
    db.wal.currentLsn h (by
      rcases hbad with hbad | ⟨hne, hzero⟩
      · exact Or.inl hbad
      · exact Or.inr ⟨by simpa [Session.replayable] using hne, hzero⟩)
  simp only [Database.replayWal, WalManager.replay_eq _ h.logFile, heq]
  exact ⟨_, _, rfl⟩

/-! ## The rebuild of the index -/

/-- Scanning collects what the mapped pages show. -/
theorem scan {σ : Type} (callback : Callback σ) (h : db.Holds (fun _ => 0) s)
    (hf : s.total = 0 ∨ 0 < s.frames) (acc : σ) :
    ∃ e, StorageReader.scan callback (db.engine, acc) =
        .ok () (e, runCallback callback s.visited acc) ∧
      Holds { db with engine := e } (fun _ => 0) s := by
  rcases hf with hzero | hf
  · have hvisited : s.visited = [] := by
      rw [Session.visited, hzero]
      rfl
    refine ⟨db.engine, ?_, h⟩
    unfold StorageReader.scan
    rw [h.total, hzero, hvisited]
    rfl
  · obtain ⟨e, hidle, hfile, heq⟩ := StorageReader.scan_spec callback (h.ready hf)
      (shown s.mapped) (fun p hp => h.view_holds (by rw [← h.total]; exact hp)) acc
    rw [h.total] at heq
    exact ⟨e, heq, h.ofReady hf hidle hfile⟩

theorem recover (h : db.Holds (fun _ => 0) s) (hf : 0 < s.total → 0 < s.frames) :
    ∃ db', Database.recover db = .ok () db' ∧ db'.Holds (fun _ => 0) s.recovered := by
  unfold Database.recover Session.recovered
  rw [h.total]
  by_cases htotal : 0 < s.total
  · obtain ⟨e, hscan, h₁⟩ := h.scan (fun rid key _ ix => Index.insert ix key rid)
      (Or.inr (hf htotal)) Index.new
    simp only [if_pos htotal, Index.rebuild, hscan]
    refine ⟨_, rfl, { h₁ with index := ?_ }⟩
    exact Index.runCallback_insert _ _
  · rw [if_neg htotal, if_neg htotal]
    exact ⟨db, rfl, h⟩

/-- Without a frame the pages cannot be scanned; nothing that a destructor writes is touched. -/
theorem recover_error (h : db.Holds (fun _ => 0) s) (htotal : 0 < s.total)
    (hf : s.frames = 0) :
    ∃ err db', Database.recover db = .error err db' ∧ db'.destroy = db.destroy := by
  have hpool : db.engine.cache.pool = [] := by
    have hframes := h.frames
    rw [hf] at hframes
    exact List.length_eq_zero_iff.mp (by omega)
  have hpol : db.engine.cache.PolicyMember := by
    intro policy heq
    rw [h.policy] at heq
    exact absurd heq (by simp)
  have hrange : 0 < db.engine.cache.file.pageCount := by
    have := h.total
    unfold StorageEngine.getTotalPages StorageEngine.file at this
    omega
  obtain ⟨c', hfetch, hrefused⟩ := PageCache.fetchPage_without_frames h.coherent hpol hrange hpool
  obtain ⟨n, hn⟩ : ∃ n, s.total = n + 1 := ⟨s.total - 1, by omega⟩
  have hscan : StorageReader.scan (fun rid key _ ix => Index.insert ix key rid)
      (db.engine, Index.new) = .error
        (.runtimeError "Buffer Pool Full: All pages are pinned..") (⟨c'⟩, Index.new) := by
    unfold StorageReader.scan
    rw [h.total, hn]
    simp only [StorageReader.scanPages, StorageReader.scanPage, StorageEngine.fetchPage, hfetch]
    rw [if_neg (by rw [h.total]; omega)]
  unfold Database.recover
  rw [h.total, if_pos htotal]
  simp only [Index.rebuild, hscan]
  refine ⟨_, _, rfl, ?_⟩
  show Disk.mk (some (db.writer.destroy c'.file.bytes)) db.wal.file = db.destroy
  rw [hrefused.file]
  rfl

end Holds

/-! ## The constructor -/

/-- **What the constructor does**: it opens the session of the files when it can, and throws
otherwise. -/
theorem new_cases (cfg : Config) (h : disk.Shows pages log) :
    (Session.Opens cfg pages log ∧ ∃ db, new cfg disk = .ok db ∧
      db.Holds (fun _ => 0) (Session.opened cfg pages log)) ∨
    (¬ Session.Opens cfg pages log ∧ ∃ out, new cfg disk = .error out) := by
  have hstart := holds_members cfg h
  by_cases hreplay : (∀ r ∈ Session.replayable log, Record.need r ≤ pageRoom) ∧
      (Session.replayable log ≠ [] → 1 ≤ cfg.recordCacheSize)
  · obtain ⟨db₁, heq₁, h₁⟩ := hstart.replayWal hreplay.1 hreplay.2
    obtain ⟨hmapped, -, -, -, hframes⟩ :=
      Session.replayed_frame (Session.start cfg pages log) (Session.replayable log)
    have htotal : ((Session.start cfg pages log).replayed
        (Session.replayable log)).counted.total = u32 pages.length :=
      congrArg (fun mapped : List (List Record) => u32 mapped.length) hmapped
    by_cases hframe : 0 < u32 pages.length → 0 < cfg.cacheSizePages
    · left
      obtain ⟨db₂, heq₂, h₂⟩ := h₁.recover (by
        intro hpos
        show 0 < ((Session.start cfg pages log).replayed (Session.replayable log)).frames
        rw [hframes]
        exact hframe (by rw [← htotal]; exact hpos))
      refine ⟨⟨hreplay.1, hreplay.2, hframe⟩, db₂, ?_, h₂⟩
      simp only [new, bind, EStateM.bind, heq₁, heq₂]
    · right
      refine ⟨fun hopens => hframe hopens.frame, ?_⟩
      obtain ⟨err, db₂, heq₂, -⟩ := h₁.recover_error (by
        have hpos : 0 < u32 pages.length := by
          by_contra hn
          exact hframe fun hy => absurd hy hn
        exact htotal ▸ hpos) (by
        show ((Session.start cfg pages log).replayed (Session.replayable log)).frames = 0
        rw [hframes]
        by_contra hn
        exact hframe fun _ => Nat.pos_of_ne_zero hn)
      exact ⟨_, by simp only [new, bind, EStateM.bind, heq₁, heq₂]; rfl⟩
  · right
    refine ⟨fun hopens => hreplay ⟨hopens.fits, hopens.place⟩, ?_⟩
    obtain ⟨err, db₁, heq₁⟩ := hstart.replayWal_error (by
      rcases not_and_or.mp hreplay with hbad | hbad
      · left
        push Not at hbad
        obtain ⟨r, hr, hn⟩ := hbad
        exact ⟨r, hr, by omega⟩
      · right
        push Not at hbad
        exact ⟨hbad.1, by
          show cfg.recordCacheSize = 0
          omega⟩)
    exact ⟨_, by simp only [new, bind, EStateM.bind, heq₁]; rfl⟩

/-- An open database stands for the session of its files. -/
theorem holds_of_new (h : disk.Shows pages log) {db : Database} (hnew : new cfg disk = .ok db) :
    Session.Opens cfg pages log ∧ db.Holds (fun _ => 0) (Session.opened cfg pages log) := by
  rcases new_cases cfg h with ⟨hopens, db', heq, hholds⟩ | ⟨-, out, heq⟩
  · rw [hnew] at heq
    cases heq
    exact ⟨hopens, hholds⟩
  · rw [hnew] at heq
    exact absurd heq (by simp)

/-! ## The files left behind -/

/-- A normal end flushes the open page. -/
theorem Holds.shows_destroy {db : Database} {pins : Nat → Nat} {s : Session}
    (h : db.Holds pins s) : db.destroy.Shows (StorageWriter.flushed 0 s.pager) s.log where
  data := StorageWriter.destroy_spec h.writer
  wal := by
    show db.wal.file.getD [] = s.log
    rw [h.logFile]
    rfl

/-- A crash leaves the closed pages. -/
theorem Holds.shows_files {db : Database} {pins : Nat → Nat} {s : Session}
    (h : db.Holds pins s) : db.files.Shows s.pager.pages s.log where
  data := h.writer.file
  wal := by
    show db.wal.file.getD [] = s.log
    rw [h.logFile]
    rfl

end Database

end Aqa
