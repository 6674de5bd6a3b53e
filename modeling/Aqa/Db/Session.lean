/-
# Aqa.Db.Session — what an open database stands for.

A `Session` is a database with its bytes read: the pages the engine mapped, the pages the writer has
closed and the one it has open, the log, the inserts into the index since it was cleared, and the
entries of the record cache. `Holds` relates a database to its session. Each call of a put or a get
on a component keeps the relation, and what it does to the session is one line.
-/
import Aqa.Cache.LruSpec
import Aqa.Db.Database
import Aqa.Storage.DataFile
import Aqa.Wal.Replay

namespace Aqa

open Aqa.Lib

/-- Key and value of a record. -/
def Record.entry (r : Record) : Bytes × Bytes := (r.key, r.value)

/-- A database with its bytes read. -/
structure Session where
  mapped : List (List Record)
  pager : Pager Record
  log : Bytes
  lsn : Nat
  placed : List (Bytes × RecordID)
  cached : List (Bytes × Bytes)
  capacity : Nat
  frames : Nat

namespace Session

/-! ## Writing -/

/-- The number of pages the engine counts. -/
def total (s : Session) : Nat := u32 s.mapped.length

/-- A frame at the end of the log. -/
def logged (s : Session) (key value : Bytes) : Session :=
  { s with
    log := s.log ++ WalManager.frameBytes (u64 (s.lsn + 1)) key value
    lsn := u64 (s.lsn + 1) }

/-- A record handed to the writer. -/
def appended (s : Session) (r : Record) : Session :=
  { s with pager := (Pager.append Record.need pageRoom s.pager r).2 }

/-- An insert into the index. -/
def indexed (s : Session) (key : Bytes) (rid : RecordID) : Session :=
  { s with placed := s.placed ++ [(key, rid)] }

/-- A use of the record cache. -/
def used (s : Session) (key value : Bytes) : Session :=
  { s with cached := lruPut s.capacity s.cached key value }

/-- What a replayed record does: page, index, record cache. -/
def stored (s : Session) (r : Record) : Session :=
  ((s.appended r).indexed r.key (StorageWriter.lastRid 0 (s.appended r).pager)).used r.key r.value

/-- What a put does. -/
def put (s : Session) (r : Record) : Session := (s.logged r.key r.value).stored r

/-! ## Reading -/

/-- The record a record id leads to. -/
def recordAt (s : Session) (rid : RecordID) : Option Record :=
  if rid.pageId < s.total then (shown s.mapped rid.pageId)[rid.slotId]? else none

/-- The value a record gives for a key. -/
def valueFor (key : Bytes) (r : Record) : Option Bytes := if r.key = key then some r.value else none

/-- What index and pages know of a key. -/
def found (s : Session) (key : Bytes) : Option Bytes :=
  (lastWrite s.placed key).bind fun rid => (s.recordAt rid).bind (valueFor key)

/-- The answer of a get. -/
def answer (s : Session) (key : Bytes) : Option Bytes :=
  (cachedValue s.cached key).or (s.found key)

/-- What a get does. -/
def got (s : Session) (key : Bytes) : Session :=
  match s.answer key with
  | some value => s.used key value
  | none => s

end Session

namespace Database

/-- The database stands for this session, with these pins on the pages. -/
structure Holds (db : Database) (pins : Nat → Nat) (s : Session) : Prop where
  coherent : db.engine.cache.Coherent none
  policy : db.engine.cache.evictionPolicy = none
  pins_eq : db.engine.cache.pinOf = pins
  frames : 0 < db.engine.cache.pool.length ↔ 0 < s.frames
  total : db.engine.getTotalPages = s.total
  writer : WriterHolds [] db.writer db.engine.file.bytes s.pager
  kept : s.mapped <+: s.pager.pages
  logFile : db.wal.file = some s.log
  logEnd : db.wal.AtEnd s.log
  lsn : db.wal.currentLsn = s.lsn
  index : db.index.map = insertAll ∅ s.placed
  cache : db.recordCache.LruHolds s.cached
  capacity : db.recordCache.capacity = s.capacity

namespace Holds

variable {db : Database} {pins : Nat → Nat} {s : Session}

theorem ready (h : db.Holds pins s) (hf : 0 < s.frames) : db.engine.Ready pins where
  coherent := h.coherent
  policy := h.policy
  pins_eq := h.pins_eq
  capacity := h.frames.mpr hf

/-- An engine that was only read from. -/
theorem ofReady (h : db.Holds pins s) (hf : 0 < s.frames) {e : StorageEngine} {pins' : Nat → Nat}
    (hready : e.Ready pins') (hfile : e.file = db.engine.file) :
    Holds { db with engine := e } pins' s where
  coherent := hready.coherent
  policy := hready.policy
  pins_eq := hready.pins_eq
  frames := iff_of_true hready.capacity hf
  total := by
    rw [← h.total]
    exact congrArg MappedFile.pageCount hfile
  writer := by
    show WriterHolds [] db.writer e.file.bytes s.pager
    rw [hfile]
    exact h.writer
  kept := h.kept
  logFile := h.logFile
  logEnd := h.logEnd
  lsn := h.lsn
  index := h.index
  cache := h.cache
  capacity := h.capacity

/-- A mapped page shows the records it had when it was mapped. -/
theorem view_holds (h : db.Holds pins s) {p : Nat} (hp : p < s.total) :
    Slotted.PageHolds (db.engine.view p) (shown s.mapped p) := by
  have hlen : p < s.mapped.length := lt_of_lt_of_le hp (u32_le _)
  have hmod : p % 2 ^ 20 < s.mapped.length := lt_of_le_of_lt (Nat.mod_le _ _) hlen
  have hpage := h.writer.file.loadPage
    (lt_of_lt_of_le hmod h.kept.length_le : p % 2 ^ 20 < s.pager.pages.length)
  have hshown : shown s.pager.pages p = shown s.mapped p := by
    unfold shown
    obtain ⟨more, hmore⟩ := h.kept
    rw [← hmore, List.getElem?_append_left hmod]
  rw [hshown] at hpage
  exact hpage

/-! ## The calls of a put -/

theorem walAppend (h : db.Holds pins s) (key value : Bytes) :
    ∃ db', Database.walAppend key value db = .ok () db' ∧ db'.Holds pins (s.logged key value) := by
  refine ⟨_, rfl, ?_⟩
  obtain ⟨hfile, hend, hlsn⟩ := WalManager.write_atEnd
    (m := { db.wal with currentLsn := u64 (db.wal.currentLsn + 1) }) h.logFile h.logEnd
    (WalManager.frameBytes (u64 (db.wal.currentLsn + 1)) key value)
  have hlog : (s.logged key value).log =
      s.log ++ WalManager.frameBytes (u64 (db.wal.currentLsn + 1)) key value := by
    rw [h.lsn]
    rfl
  exact
    { h with
      logFile := by rw [hlog]; exact hfile
      logEnd := by rw [hlog]; exact hend
      lsn := hlsn.trans (congrArg (fun n => u64 (n + 1)) h.lsn) }

/-- **The writer of a session refines its pager**, and refuses what does not fit a page. -/
theorem writerAppend (h : db.Holds pins s) (r : Record) :
    ∃ db', db'.Holds pins (s.appended r) ∧
      Database.writerAppend r.key r.value db =
        if Record.need r ≤ pageRoom then
          .ok (StorageWriter.lastRid 0 (s.appended r).pager) db'
        else .error (.runtimeError "Record too large for a single page!") db' := by
  obtain ⟨w', bytes', hwriter, heq⟩ := StorageWriter.append_spec h.writer r
  obtain ⟨more, rfl⟩ := StorageWriter.append_extends heq
  have haccepts := Pager.append_accepts_iff Record.need pageRoom s.pager r
  have hholds : Holds { db with
      writer := w', engine := db.engine.setBytes (db.engine.file.bytes ++ more) } pins
      (s.appended r) :=
    { h with
      coherent := PageCache.coherent_append h.coherent more
      writer := hwriter
      kept := h.kept.trans (Pager.prefix_pages_append _ _) }
  refine ⟨_, hholds, ?_⟩
  by_cases hfits : Record.need r ≤ pageRoom
  · rw [if_pos (haccepts.mpr hfits)] at heq
    rw [if_pos hfits, Database.writerAppend, heq]
    rfl
  · rw [if_neg fun htrue => hfits (haccepts.mp htrue)] at heq
    rw [if_neg hfits, Database.writerAppend, heq]

theorem indexInsert (h : db.Holds pins s) (key : Bytes) (rid : RecordID) :
    ∃ db', Database.indexInsert key rid db = .ok () db' ∧ db'.Holds pins (s.indexed key rid) := by
  refine ⟨_, rfl, { h with index := ?_ }⟩
  show db.index.map.insert key rid = insertAll ∅ (s.placed ++ [(key, rid)])
  rw [insertAll_concat, ← h.index]

theorem cachePut (h : db.Holds pins s) (hcap : 1 ≤ s.capacity) (key value : Bytes) :
    ∃ db', Database.cachePut key value db = .ok () db' ∧ db'.Holds pins (s.used key value) ∧
      db'.engine = db.engine := by
  obtain ⟨c', hput, hcapacity, hholds⟩ := h.cache.put (by rw [h.capacity]; exact hcap) key value
  refine ⟨{ db with recordCache := c' }, by simp only [Database.cachePut, hput], ?_, rfl⟩
  rw [h.capacity] at hholds
  exact { h with cache := hholds, capacity := hcapacity.trans h.capacity }

/-- Without a place in the record cache a put of it is undefined, and leaves the database alone. -/
theorem cachePut_without_place (h : db.Holds pins s) (hcap : s.capacity = 0) (key value : Bytes) :
    Database.cachePut key value db =
      .error (.undefinedBehaviour "iters_lru[victim_idx] past the end") db := by
  have hnil : s.cached = [] := by
    have hbound := h.cache.bound
    rw [h.capacity, hcap] at hbound
    exact List.length_eq_zero_iff.mp (Nat.le_zero.mp hbound)
  have hholds := h.cache
  rw [hnil] at hholds
  simp only [Database.cachePut,
    LruCache.put_of_capacity_zero hholds.toLinked (h.capacity.trans hcap) key value]

/-! ## Replay and put -/

theorem replayVisitor (h : db.Holds pins s) (hcap : 1 ≤ s.capacity) (rec : WalRecord)
    (hfits : Record.need ⟨rec.key, rec.value⟩ ≤ pageRoom) :
    ∃ db', Database.replayVisitor rec db = .ok () db' ∧
      db'.Holds pins (s.stored ⟨rec.key, rec.value⟩) := by
  obtain ⟨db₁, h₁, heq₁⟩ := h.writerAppend ⟨rec.key, rec.value⟩
  rw [if_pos hfits] at heq₁
  obtain ⟨db₂, heq₂, h₂⟩ := h₁.indexInsert rec.key
    (StorageWriter.lastRid 0 (s.appended ⟨rec.key, rec.value⟩).pager)
  obtain ⟨db₃, heq₃, h₃, -⟩ := h₂.cachePut hcap rec.key rec.value
  refine ⟨db₃, ?_, h₃⟩
  simp only [Database.replayVisitor, bind, EStateM.bind, heq₁, heq₂, heq₃]

theorem put (h : db.Holds pins s) (hcap : 1 ≤ s.capacity) (r : Record) :
    ∃ db', (Record.need r ≤ pageRoom → db'.Holds pins (s.put r)) ∧
      (¬ Record.need r ≤ pageRoom →
        db'.Holds pins ((s.logged r.key r.value).appended r)) ∧
      Database.put r.key r.value db =
        if Record.need r ≤ pageRoom then .ok () db'
        else .error (.runtimeError "Record too large for a single page!") db' := by
  obtain ⟨db₀, heq₀, h₀⟩ := h.walAppend r.key r.value
  obtain ⟨db₁, h₁, heq₁⟩ := h₀.writerAppend r
  by_cases hfits : Record.need r ≤ pageRoom
  · rw [if_pos hfits] at heq₁
    obtain ⟨db₂, heq₂, h₂⟩ := h₁.indexInsert r.key
      (StorageWriter.lastRid 0 ((s.logged r.key r.value).appended r).pager)
    obtain ⟨db₃, heq₃, h₃, -⟩ := h₂.cachePut hcap r.key r.value
    refine ⟨db₃, fun _ => h₃, fun hn => absurd hfits hn, ?_⟩
    rw [if_pos hfits]
    simp only [Database.put, bind, EStateM.bind, heq₀, heq₁, heq₂, heq₃]
  · rw [if_neg hfits] at heq₁
    refine ⟨db₁, fun hy => absurd hy hfits, fun _ => h₁, ?_⟩
    rw [if_neg hfits]
    simp only [Database.put, bind, EStateM.bind, heq₀, heq₁]

/-! ## Get -/

theorem cacheGet (h : db.Holds pins s) (key : Bytes) :
    (db.recordCache.get key).1 = cachedValue s.cached key ∧
      Holds { db with recordCache := (db.recordCache.get key).2 } pins
        (match cachedValue s.cached key with
          | some value => s.used key value
          | none => s) := by
  obtain ⟨hvalue, hcapacity, hholds⟩ := h.cache.get key
  refine ⟨hvalue, ?_⟩
  cases hcached : cachedValue s.cached key with
  | none =>
      rw [hcached] at hholds
      exact { h with cache := hholds, capacity := hcapacity.trans h.capacity }
  | some value =>
      rw [hcached, h.capacity] at hholds
      exact { h with cache := hholds, capacity := hcapacity.trans h.capacity }

theorem indexLookup (h : db.Holds pins s) (key : Bytes) :
    db.index.lookup key = lastWrite s.placed key := by
  rw [Index.lookup, h.index, lookup_insertAll_empty]

theorem indexSize (h : db.Holds pins s) :
    db.index.size = (s.placed.map Prod.fst).toFinset.card := by
  rw [Index.size, h.index, keyCount_insertAll_empty]

/-- Reading a record between two calls. -/
theorem readRecord (h : db.Holds (fun _ => 0) s) (hf : s.total = 0 ∨ 0 < s.frames)
    (rid : RecordID) :
    ∃ e, StorageReader.readRecord rid db.engine = .ok (s.recordAt rid) e ∧
      Holds { db with engine := e } (fun _ => 0) s := by
  by_cases hp : rid.pageId < s.total
  · have hpos : 0 < s.frames := by omega
    obtain ⟨e, hidle, hfile, heq⟩ := StorageReader.readRecord_of_holds (h.ready hpos)
      (by rw [h.total]; exact hp) (Or.inr fun _ => rfl) (h.view_holds hp)
    refine ⟨e, ?_, h.ofReady hpos hidle hfile⟩
    rw [heq, Session.recordAt, if_pos hp]
  · refine ⟨db.engine, ?_, h⟩
    rw [StorageReader.readRecord, if_pos (by rw [h.total]; omega), Session.recordAt, if_neg hp]

/-- The part of a get behind the record cache. -/
theorem getFromPages (h : db.Holds (fun _ => 0) s) (hf : s.total = 0 ∨ 0 < s.frames) {key : Bytes}
    (hcap : s.found key ≠ none → 1 ≤ s.capacity) :
    ∃ db', Database.getFromPages key db = .ok (s.found key) db' ∧
      db'.Holds (fun _ => 0)
        (match s.found key with
          | some value => s.used key value
          | none => s) := by
  have hfound : s.found key =
      (lastWrite s.placed key).bind fun rid => (s.recordAt rid).bind (Session.valueFor key) := rfl
  rw [Database.getFromPages, h.indexLookup]
  cases hrid : lastWrite s.placed key with
  | none =>
      simp only [hfound, hrid, Option.bind_none]
      exact ⟨db, rfl, h⟩
  | some rid =>
      obtain ⟨e, hread, h₁⟩ := h.readRecord hf rid
      rw [hrid, Option.bind_some] at hfound
      simp only [onEngine, hread]
      cases hrec : s.recordAt rid with
      | none =>
          rw [hrec, Option.bind_none] at hfound
          rw [hfound]
          exact ⟨_, rfl, h₁⟩
      | some r =>
          rw [hrec, Option.bind_some, Session.valueFor] at hfound
          by_cases hkey : r.key = key
          · rw [if_pos hkey] at hfound
            obtain ⟨db₂, heq₂, h₂, -⟩ := h₁.cachePut (hcap (by simp [hfound])) key r.value
            simp only [if_pos hkey, heq₂, hfound]
            exact ⟨db₂, rfl, h₂⟩
          · rw [if_neg hkey] at hfound
            simp only [if_neg hkey, hfound]
            exact ⟨_, rfl, h₁⟩

/-- Without a place in the record cache a record that is found cannot be entered. -/
theorem getFromPages_without_place (h : db.Holds (fun _ => 0) s)
    (hf : s.total = 0 ∨ 0 < s.frames) (hcap : s.capacity = 0) {key : Bytes}
    (hfound : s.found key ≠ none) :
    ∃ err db', Database.getFromPages key db = .error err db' := by
  unfold Session.found at hfound
  rw [Database.getFromPages, h.indexLookup]
  cases hrid : lastWrite s.placed key with
  | none =>
      rw [hrid] at hfound
      exact absurd rfl hfound
  | some rid =>
      obtain ⟨e, hread, h₁⟩ := h.readRecord hf rid
      rw [hrid, Option.bind_some] at hfound
      cases hrec : s.recordAt rid with
      | none =>
          rw [hrec] at hfound
          exact absurd rfl hfound
      | some r =>
          rw [hrec, Option.bind_some, Session.valueFor] at hfound
          by_cases hkey : r.key = key
          · simp only [onEngine, hread, hrec, if_pos hkey, h₁.cachePut_without_place hcap]
            exact ⟨_, _, rfl⟩
          · rw [if_neg hkey] at hfound
            exact absurd rfl hfound

/-- **`get` answers from the record cache, else from the mapped pages**, and what it answers is used
in the record cache. -/
theorem get (h : db.Holds (fun _ => 0) s) (hf : s.total = 0 ∨ 0 < s.frames) {key : Bytes}
    (hcap : s.found key ≠ none → 1 ≤ s.capacity) :
    ∃ db', Database.get key db = .ok (s.answer key) db' ∧ db'.Holds (fun _ => 0) (s.got key) := by
  obtain ⟨hvalue, h₁⟩ := h.cacheGet key
  obtain ⟨⟨out, c⟩, hget⟩ : ∃ out, db.recordCache.get key = out := ⟨_, rfl⟩
  rw [hget] at hvalue h₁
  simp only at hvalue h₁
  subst hvalue
  simp only [Database.get, hget, Session.got, Session.answer]
  cases hcached : cachedValue s.cached key with
  | some value =>
      rw [hcached] at h₁
      exact ⟨_, rfl, h₁⟩
  | none =>
      rw [hcached] at h₁
      exact h₁.getFromPages hf hcap

theorem get_without_place (h : db.Holds (fun _ => 0) s) (hf : s.total = 0 ∨ 0 < s.frames)
    (hcap : s.capacity = 0) {key : Bytes} (hfound : s.found key ≠ none) :
    ∃ err db', Database.get key db = .error err db' := by
  obtain ⟨hvalue, h₁⟩ := h.cacheGet key
  have hcached : cachedValue s.cached key = none := by
    have hbound := h.cache.bound
    rw [h.capacity, hcap] at hbound
    rw [List.length_eq_zero_iff.mp (Nat.le_zero.mp hbound)]
    rfl
  obtain ⟨⟨out, c⟩, hget⟩ : ∃ out, db.recordCache.get key = out := ⟨_, rfl⟩
  rw [hget, hcached] at hvalue h₁
  simp only at hvalue h₁
  subst hvalue
  simp only [Database.get, hget]
  exact h₁.getFromPages_without_place hf hcap hfound

end Holds

end Database

end Aqa
