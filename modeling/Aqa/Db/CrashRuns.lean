/-
# Aqa.Db.CrashRuns — sessions that end in a crash.

`Lived` lists the files that sessions can leave behind when any of them may end in a crash: between
two calls, between the calls a put makes, and while the constructor replays the log. A crash keeps the
frames and the whole pages written so far. Every session writes the puts of the log onto the pages
once more, from the first one on, and gets as far as it gets: `copies` numbers the records on the
pages by the puts they are copies of, in page and slot order (`Lived.files`).
-/
import Aqa.Db.OwnWrites

namespace Aqa

open Aqa.Lib StorageReader

/-! ## Files determine their pages -/

theorem FileHolds.unique {bytes : Bytes} {pages pages' : List (List Record)}
    (h : FileHolds [] bytes pages) (h' : FileHolds [] bytes pages') : pages = pages' := by
  have hlen := h.length_eq.symm.trans h'.length_eq
  rw [List.length_nil, Nat.zero_add, Nat.zero_add] at hlen
  have hlength : pages.length = pages'.length := Nat.eq_of_mul_eq_mul_right (by decide) hlen
  obtain ⟨raw, hbytes, hraw⟩ := h
  obtain ⟨raw', hbytes', hraw'⟩ := h'
  have hsame : raw = raw' := by
    apply List.ext_getElem (by rw [hraw.length_eq, hraw'.length_eq, hlength])
    intro i hi hi'
    apply RawPage.ext
    have hslice := fun (r : List RawPage) (hr : i < r.length) =>
      slice_flatten_of_uniform (FileHolds.raw_uniform r) (i := i) (l := r[i].bytes)
        (by rw [List.getElem?_map, List.getElem?_eq_getElem hr]; rfl)
    rw [← hslice raw hi, ← hslice raw' hi']
    rw [List.nil_append] at hbytes hbytes'
    rw [← hbytes, ← hbytes']
  subst hsame
  apply List.ext_getElem hlength
  intro i hi hi'
  have hpage := hraw.get (by rw [hraw.length_eq]; exact hi) hi
  have hpage' := hraw'.get (by rw [hraw'.length_eq]; exact hi') hi'
  rw [List.get_eq_getElem, List.get_eq_getElem] at hpage hpage'
  -- a slot cannot be parsed as two records
  have hparse := hpage.count.symm.trans hpage'.count
  apply List.ext_getElem hparse
  intro j hj hj'
  have hfound := Slotted.parseRecord_of_holds hpage j
  have hfound' := Slotted.parseRecord_of_holds hpage' j
  rw [List.getElem?_eq_getElem hj] at hfound
  rw [List.getElem?_eq_getElem hj'] at hfound'
  rw [hfound] at hfound'
  simpa using hfound'

/-! ## Where a crash can fall -/

/-- The calls of a put, in order. -/
inductive PutPoint where
  | wal
  | page
  | index
  | cache
  deriving DecidableEq, Repr

namespace Database

/-- A put up to one of its calls. -/
def putUpTo (point : PutPoint) (key value : Bytes) : EStateM Error Database Unit :=
  match point with
  | .wal => walAppend key value
  | .page => do
      walAppend key value
      let _ ← writerAppend key value
  | .index => do
      walAppend key value
      let rid ← writerAppend key value
      indexInsert key rid
  | .cache => put key value

/-- The visit of a replayed record up to one of its calls; it writes nothing to the log. -/
def visitUpTo (point : PutPoint) (rec : WalRecord) : EStateM Error Database Unit :=
  match point with
  | .wal => pure ()
  | .page => do let _ ← writerAppend rec.key rec.value
  | .index => do
      let rid ← writerAppend rec.key rec.value
      indexInsert rec.key rid
  | .cache => replayVisitor rec

/-- The replay of some records. -/
def replayRecords : List WalRecord → EStateM Error Database Unit
  | [] => pure ()
  | rec :: recs => do
      replayVisitor rec
      replayRecords recs

/-- `replay` in the constructor hands the readable records to the visitor one after the other. -/
theorem deliver_replayRecords (recs : List WalRecord) :
    ∀ (db db' : Database) (count lsn : Nat), replayRecords recs db = .ok () db' →
      WalManager.deliver replayVisitor recs count (lsn, db) =
        .ok (count + recs.length) (WalManager.maxLsn lsn recs, db') := by
  induction recs with
  | nil =>
      intro db db' count lsn h
      cases h
      rfl
  | cons rec recs ih =>
      intro db db' count lsn h
      simp only [replayRecords, bind, EStateM.bind] at h
      cases hvisit : replayVisitor rec db with
      | error err db₁ =>
          rw [hvisit] at h
          exact absurd h (by simp)
      | ok u db₁ =>
          rw [hvisit] at h
          have hmax : (if rec.lsn > lsn then rec.lsn else lsn) = max lsn rec.lsn := by
            rw [Nat.max_def]
            split <;> split <;> omega
          simp only [WalManager.deliver, hvisit]
          rw [ih db₁ db' (count + 1) _ h, hmax, List.length_cons]
          congr 1
          omega

end Database

/-! ## Runs -/

/-- Number of records a session has got onto whole pages. -/
def written (pages pages' : List (List Record)) : Nat := pages'.flatten.length - pages.flatten.length

theorem written_of_flatten {pages pages' : List (List Record)} {recs : List Record}
    (h : pages'.flatten = pages.flatten ++ recs) : written pages pages' = recs.length := by
  rw [written, h, List.length_append, Nat.add_sub_cancel_left]

/-- Files that sessions leave, closed or crashed: the pages in them, the puts whose frame is in the
log, and for each record on the pages the put it is a copy of. A constructor that throws closes the
files too. `Allowed` restricts the crashes, by the copies on the earlier pages, the puts in the log and
the number of records written. -/
inductive Lived (Allowed : List Nat → List Record → Nat → Prop) :
    Disk → List (List Record) → List Record → List Nat → Prop where
  | new : Lived Allowed Disk.empty [] [] []
  | closed {disk : Disk} {pages pages' : List (List Record)} {logged puts : List Record}
      {copies : List Nat} {cfg : Config} {db : Database} :
      Lived Allowed disk pages logged copies → SessionState cfg disk db puts →
      db.destroy.Shows pages' (db.destroy.wal.getD []) →
      Lived Allowed db.destroy pages' (logged ++ puts)
        (copies ++ List.range (written pages pages'))
  | refused {disk disk' : Disk} {pages pages' : List (List Record)} {logged : List Record}
      {copies : List Nat} {cfg : Config} {err : Error} :
      Lived Allowed disk pages logged copies → 1 ≤ cfg.recordCacheSize →
      Database.new cfg disk = .error (err, disk') → disk'.Shows pages' (disk'.wal.getD []) →
      Lived Allowed disk' pages' logged (copies ++ List.range (written pages pages'))
  | crashed {disk : Disk} {pages pages' : List (List Record)} {logged puts : List Record}
      {copies : List Nat} {cfg : Config} {db : Database} :
      Lived Allowed disk pages logged copies → SessionState cfg disk db puts →
      db.files.Shows pages' (db.files.wal.getD []) →
      Allowed copies (logged ++ puts) (written pages pages') →
      Lived Allowed db.files pages' (logged ++ puts) (copies ++ List.range (written pages pages'))
  | crashedInPut {disk : Disk} {pages pages' : List (List Record)} {logged puts : List Record}
      {copies : List Nat} {cfg : Config} {db db' : Database} {point : PutPoint} {r : Record} :
      Lived Allowed disk pages logged copies → SessionState cfg disk db puts →
      Record.need r ≤ pageRoom → Database.putUpTo point r.key r.value db = .ok () db' →
      db'.files.Shows pages' (db'.files.wal.getD []) →
      Allowed copies (logged ++ puts ++ [r]) (written pages pages') →
      Lived Allowed db'.files pages' (logged ++ puts ++ [r])
        (copies ++ List.range (written pages pages'))
  | crashedInReplay {disk : Disk} {pages pages' : List (List Record)} {logged : List Record}
      {copies : List Nat} {cfg : Config} {db db' : Database} {point : PutPoint} {n : Nat}
      {rec : WalRecord} :
      Lived Allowed disk pages logged copies →
      (WalManager.readable (disk.wal.getD []))[n]? = some rec →
      Database.replayRecords ((WalManager.readable (disk.wal.getD [])).take n)
        (Database.members cfg disk) = .ok () db →
      Database.visitUpTo point rec db = .ok () db' →
      db'.files.Shows pages' (db'.files.wal.getD []) →
      Allowed copies logged (written pages pages') →
      Lived Allowed db'.files pages' logged (copies ++ List.range (written pages pages'))

/-- Every crash is allowed. -/
def AnyCrash (_ : List Nat) (_ : List Record) (_ : Nat) : Prop := True

/-- Runs whose crashes are allowed otherwise. -/
theorem Lived.imp {Allowed Allowed' : List Nat → List Record → Nat → Prop} {disk : Disk}
    {pages : List (List Record)} {logged : List Record} {copies : List Nat}
    (h : Lived Allowed disk pages logged copies)
    (hallow : ∀ {disk pages logged copies}, Lived Allowed' disk pages logged copies →
      ∀ more n, Allowed copies (logged ++ more) n → Allowed' copies (logged ++ more) n) :
    Lived Allowed' disk pages logged copies := by
  induction h with
  | new => exact .new
  | closed _ hstate hshows ih => exact ih.closed hstate hshows
  | refused _ hplaces hnew hshows ih => exact ih.refused hplaces hnew hshows
  | crashed _ hstate hshows hallowed ih =>
      exact ih.crashed hstate hshows (hallow ih _ _ hallowed)
  | @crashedInPut _ _ _ logged puts _ _ _ _ _ r _ hstate hr hput hshows hallowed ih =>
      refine ih.crashedInPut hstate hr hput hshows ?_
      rw [List.append_assoc] at hallowed ⊢
      exact hallow ih _ _ hallowed
  | @crashedInReplay _ _ _ logged _ _ _ _ _ _ _ _ hrec hreplay hvisit hshows hallowed ih =>
      have hnil := hallow ih [] _ (by rw [List.append_nil]; exact hallowed)
      rw [List.append_nil] at hnil
      exact ih.crashedInReplay hrec hreplay hvisit hshows hnil

/-! ## Sessions that have got so far -/

/-- A session that has handed the first `m` of the logged puts to the writer. -/
structure Session.Streams (s : Session) (pages : List (List Record)) (recs : List Record) (m : Nat) :
    Prop where
  le : m ≤ recs.length
  pager : s.pager = Pager.appendAll Record.need pageRoom ⟨pages, []⟩ (recs.take m)
  fits : ∀ r ∈ recs, Record.need r ≤ pageRoom
  log : Logged s.log recs

namespace Session.Streams

variable {s : Session} {pages : List (List Record)} {recs : List Record} {m : Nat}

theorem ofWrote (h : s.Wrote recs pages) : s.Streams pages recs recs.length where
  le := le_rfl
  pager := by rw [List.take_length, h.pager]
  fits := h.fits
  log := h.log

theorem fits_take (h : s.Streams pages recs m) : ∀ r ∈ recs.take m, Record.need r ≤ pageRoom :=
  fun r hr => h.fits r (List.mem_of_mem_take hr)

/-- The closed pages hold a first part of what was handed over. -/
theorem flatten_pages (h : s.Streams pages recs m) :
    written pages s.pager.pages ≤ recs.length ∧
      s.pager.pages.flatten = pages.flatten ++ recs.take (written pages s.pager.pages) := by
  have hcontents := Pager.contents_appendAll_of_fits (p := ⟨pages, []⟩) h.fits_take
  rw [← h.pager] at hcontents
  simp only [Pager.contents, List.append_nil] at hcontents
  obtain ⟨more, hmore⟩ := h.pager ▸
    Pager.prefix_pages_appendAll Record.need pageRoom ⟨pages, []⟩ (recs.take m)
  have hflatten : s.pager.pages.flatten = pages.flatten ++ more.flatten := by
    rw [← hmore, List.flatten_append]
  rw [hflatten, List.append_assoc] at hcontents
  have hprefix : more.flatten <+: recs.take m := ⟨_, List.append_cancel_left hcontents⟩
  have hwritten : written pages s.pager.pages = more.flatten.length := by
    rw [written, hflatten, List.length_append]
    omega
  have hall := hprefix.trans (List.take_prefix m recs)
  rw [hwritten, hflatten]
  exact ⟨hall.length_le, by rw [List.prefix_iff_eq_take.mp hall, List.length_take,
    Nat.min_eq_left hall.length_le]⟩

end Session.Streams

namespace Database.Holds

variable {db db' : Database} {pins : Nat → Nat} {s : Session} {pages : List (List Record)}
  {recs : List Record}

/-- A put up to one of its calls. -/
theorem putUpTo (h : db.Holds pins s) (hs : s.Wrote recs pages) {point : PutPoint} {r : Record}
    (hr : Record.need r ≤ pageRoom) (heq : Database.putUpTo point r.key r.value db = .ok () db') :
    ∃ s' m, db'.Holds pins s' ∧ s'.Streams pages (recs ++ [r]) m := by
  have hput : (s.put r).Streams pages (recs ++ [r]) (recs ++ [r]).length :=
    Session.Streams.ofWrote (hs.put hr)
  obtain ⟨db₀, heq₀, h₀⟩ := h.walAppend r.key r.value
  obtain ⟨db₁, h₁, heq₁⟩ := h₀.writerAppend r
  rw [if_pos hr] at heq₁
  cases point with
  | wal =>
      have hsame : db₀ = db' := by
        have := heq₀.symm.trans heq
        simpa using this
      subst hsame
      refine ⟨_, recs.length, h₀, ?_, ?_, (hs.put hr).fits, (hs.put hr).log⟩
      · simp
      · rw [List.take_left]
        exact hs.pager
  | page =>
      simp only [Database.putUpTo, bind, EStateM.bind, heq₀, heq₁, pure, EStateM.pure] at heq
      cases heq
      exact ⟨_, _, h₁, hput.le, hput.pager, hput.fits, hput.log⟩
  | index =>
      obtain ⟨db₂, heq₂, h₂⟩ := h₁.indexInsert r.key
        (StorageWriter.lastRid 0 ((s.logged r.key r.value).appended r).pager)
      simp only [Database.putUpTo, bind, EStateM.bind, heq₀, heq₁, heq₂] at heq
      cases heq
      exact ⟨_, _, h₂, hput.le, hput.pager, hput.fits, hput.log⟩
  | cache =>
      obtain ⟨-, -, hholds⟩ := h.put_ok (r := r) heq
      exact ⟨_, _, hholds, hput⟩

theorem replayVisitor_ok (h : db.Holds pins s) {rec : WalRecord}
    (hr : Record.need rec.record ≤ pageRoom)
    (heq : Database.replayVisitor rec db = .ok () db') : db'.Holds pins (s.stored rec.record) := by
  by_cases hcap : 1 ≤ s.capacity
  · obtain ⟨db₁, heq₁, h₁⟩ := h.replayVisitor hcap rec hr
    rw [heq] at heq₁
    cases heq₁
    exact h₁
  · obtain ⟨db₁, h₁, heq₁⟩ := h.writerAppend rec.record
    rw [if_pos hr] at heq₁
    obtain ⟨db₂, heq₂, h₂⟩ := h₁.indexInsert rec.key
      (StorageWriter.lastRid 0 (s.appended rec.record).pager)
    have heq₃ := h₂.cachePut_without_place (Nat.eq_zero_of_not_pos hcap) rec.key rec.value
    simp only [WalRecord.record] at heq₁ heq₂
    simp only [Database.replayVisitor, bind, EStateM.bind, heq₁, heq₂, heq₃] at heq
    exact absurd heq (by simp)

theorem replayRecords_ok (rs : List WalRecord) :
    ∀ {db db' : Database} {s : Session}, db.Holds pins s →
      (∀ r ∈ rs, Record.need r.record ≤ pageRoom) → Database.replayRecords rs db = .ok () db' →
      db'.Holds pins (s.replayed (rs.map WalRecord.record)) := by
  induction rs with
  | nil =>
      intro db db' s h _ heq
      cases heq
      exact h
  | cons rec rs ih =>
      intro db db' s h hfits heq
      simp only [Database.replayRecords, bind, EStateM.bind] at heq
      cases hvisit : Database.replayVisitor rec db with
      | error err db₁ =>
          rw [hvisit] at heq
          exact absurd heq (by simp)
      | ok u db₁ =>
          rw [hvisit] at heq
          have h₁ := h.replayVisitor_ok (hfits rec (by simp)) hvisit
          exact ih h₁ (fun r hr => hfits r (List.mem_cons_of_mem _ hr)) heq

/-- A visit up to one of its calls. -/
theorem visitUpTo (h : db.Holds pins s) {point : PutPoint} {rec : WalRecord}
    (hr : Record.need rec.record ≤ pageRoom) (heq : Database.visitUpTo point rec db = .ok () db') :
    ∃ s', db'.Holds pins s' ∧ s'.log = s.log ∧
      (s'.pager = s.pager ∨ s'.pager = (s.appended rec.record).pager) := by
  obtain ⟨db₁, h₁, heq₁⟩ := h.writerAppend rec.record
  rw [if_pos hr] at heq₁
  simp only [WalRecord.record] at heq₁
  cases point with
  | wal =>
      cases heq
      exact ⟨s, h, rfl, Or.inl rfl⟩
  | page =>
      simp only [Database.visitUpTo, bind, EStateM.bind, heq₁, pure, EStateM.pure] at heq
      cases heq
      exact ⟨_, h₁, rfl, Or.inr rfl⟩
  | index =>
      obtain ⟨db₂, heq₂, h₂⟩ := h₁.indexInsert rec.key
        (StorageWriter.lastRid 0 (s.appended rec.record).pager)
      simp only [WalRecord.record] at heq₂
      simp only [Database.visitUpTo, bind, EStateM.bind, heq₁, heq₂] at heq
      cases heq
      exact ⟨_, h₂, rfl, Or.inr rfl⟩
  | cache => exact ⟨_, h.replayVisitor_ok hr heq, rfl, Or.inr rfl⟩

end Database.Holds

/-- What a session has put, it has written after what the log held. -/
theorem SessionState.wrote {cfg : Config} {disk : Disk} {pages : List (List Record)}
    {logged : List Record} (hshows : disk.Shows pages (disk.wal.getD []))
    (hlog : Logged (disk.wal.getD []) logged) {db : Database} {puts : List Record}
    (h : SessionState cfg disk db puts) :
    ∃ s, db.Holds (fun _ => 0) s ∧ s.Wrote (logged ++ puts) pages ∧
      (s.total = 0 ∨ 0 < s.frames) := by
  induction h with
  | opened hnew =>
      obtain ⟨hopens, hholds⟩ := Database.holds_of_new hshows hnew
      have hwrote := Session.wrote_opened hopens hlog
      rw [← List.append_nil logged] at hwrote
      exact ⟨_, hholds, hwrote, hopens.frame_opened⟩
  | @call db db' puts c a _ hcall ih =>
      obtain ⟨s, hholds, hwrote, hf⟩ := ih
      obtain ⟨-, hholds', hfits⟩ := hholds.call_ok hf hcall
      obtain ⟨hmapped, -, hframes⟩ := s.run_frame [c]
      have htotal : (s.after c).total = s.total :=
        congrArg (fun m : List (List Record) => u32 m.length) hmapped
      have hrun := hwrote.run hfits
      rw [List.append_assoc] at hrun
      refine ⟨s.after c, hholds', hrun, ?_⟩
      rw [htotal, show (s.after c).frames = s.frames from hframes]
      exact hf
  | scan _ hscan ih =>
      obtain ⟨s, hholds, hwrote, hf⟩ := ih
      obtain ⟨db₁, heq, hholds₁⟩ := hholds.scan_visits hf
      rw [heq] at hscan
      cases hscan
      exact ⟨s, hholds₁, hwrote, hf⟩

/-! ## The files of such runs -/

/-- What the files hold: the log is the frames of the puts, and the pages hold the copies in order. -/
structure LivedFiles (disk : Disk) (pages : List (List Record)) (logged : List Record)
    (copies : List Nat) : Prop where
  shows : disk.Shows pages (disk.wal.getD [])
  log : Logged (disk.wal.getD []) logged
  fits : ∀ r ∈ logged, Record.need r ≤ pageRoom
  copied : pages.flatten.map some = copies.map fun i => logged[i]?

theorem map_getElem?_range {α : Type} (l : List α) {n : Nat} (h : n ≤ l.length) :
    (List.range n).map (fun i => l[i]?) = (l.take n).map some := by
  apply List.ext_getElem (by rw [List.length_map, List.length_map, List.length_range,
    List.length_take, Nat.min_eq_left h])
  intro i hi _
  rw [List.length_map, List.length_range] at hi
  simp [List.getElem?_eq_getElem (lt_of_lt_of_le hi h)]

namespace LivedFiles

variable {disk disk' : Disk} {pages pages' : List (List Record)} {logged recs : List Record}
  {copies : List Nat}

/-- A copy is a copy of a put. -/
theorem lt_length (h : LivedFiles disk pages logged copies) {i : Nat} (hi : i ∈ copies) :
    i < logged.length := by
  have hmem : logged[i]? ∈ pages.flatten.map some := by
    rw [h.copied]
    exact List.mem_map_of_mem hi
  obtain ⟨r, -, hr⟩ := List.mem_map.mp hmem
  exact (List.getElem?_eq_some_iff.mp hr.symm).1

/-- One more session, which got so far. -/
theorem extend (h : LivedFiles disk pages logged copies) (hmore : logged <+: recs)
    (hshows : disk'.Shows pages' (disk'.wal.getD [])) (hlog : Logged (disk'.wal.getD []) recs)
    (hfits : ∀ r ∈ recs, Record.need r ≤ pageRoom) (hle : written pages pages' ≤ recs.length)
    (hflatten : pages'.flatten = pages.flatten ++ recs.take (written pages pages')) :
    LivedFiles disk' pages' recs (copies ++ List.range (written pages pages')) where
  shows := hshows
  log := hlog
  fits := hfits
  copied := by
    have hold : copies.map (fun i => recs[i]?) = copies.map fun i => logged[i]? := by
      apply List.map_congr_left
      intro i hi
      obtain ⟨more, rfl⟩ := hmore
      rw [List.getElem?_append_left (h.lt_length hi)]
    rw [hflatten, List.map_append, h.copied, List.map_append, hold, map_getElem?_range recs hle]

/-- A session that has written everything it was handed. -/
theorem close (h : LivedFiles disk pages logged copies) (hmore : logged <+: recs)
    (hshows : disk'.Shows pages' (disk'.wal.getD [])) (hlog : Logged (disk'.wal.getD []) recs)
    (hfits : ∀ r ∈ recs, Record.need r ≤ pageRoom) (hflatten : pages'.flatten = pages.flatten ++ recs) :
    LivedFiles disk' pages' recs (copies ++ List.range (written pages pages')) := by
  have hwritten := written_of_flatten hflatten
  refine h.extend hmore hshows hlog hfits (le_of_eq hwritten) ?_
  rw [hwritten, List.take_length, hflatten]

/-- A constructor that throws has replayed the whole log, and its writer flushes. -/
theorem refused (h : LivedFiles disk pages logged copies) {cfg : Config}
    (hplaces : 1 ≤ cfg.recordCacheSize) {err : Error}
    (hnew : Database.new cfg disk = .error (err, disk')) :
    disk'.Shows (StorageWriter.flushed 0 (Pager.appendAll Record.need pageRoom ⟨pages, []⟩ logged))
      (disk.wal.getD []) := by
  have hreplayable := h.log.replayable
  obtain ⟨db₁, heq₁, h₁⟩ := (Database.holds_members cfg h.shows).replayWal
    (by
      show ∀ r ∈ Session.replayable (disk.wal.getD []), Record.need r ≤ pageRoom
      rw [hreplayable]
      exact h.fits) (fun _ => hplaces)
  have hdisk := h₁.shows_destroy
  -- only the scan for the index is left to throw
  by_cases hframe : 0 < (((Session.start cfg pages (disk.wal.getD [])).replayed
      (Session.replayable (disk.wal.getD []))).counted).total → 0 < cfg.cacheSizePages
  · obtain ⟨db₂, heq₂, -⟩ := h₁.recover (by
      intro hpos
      show 0 < ((Session.start cfg pages (disk.wal.getD [])).replayed _).frames
      rw [(Session.replayed_frame _ _).2.2.2.2]
      exact hframe hpos)
    simp only [Database.new, bind, EStateM.bind, heq₁, heq₂] at hnew
    exact absurd hnew (by simp)
  · obtain ⟨hpos, hzero⟩ := Classical.not_imp.mp hframe
    obtain ⟨err', db₂, heq₂, hdestroy⟩ := h₁.recover_error hpos (by
      show ((Session.start cfg pages (disk.wal.getD [])).replayed _).frames = 0
      rw [(Session.replayed_frame _ _).2.2.2.2]
      exact Nat.eq_zero_of_not_pos hzero)
    simp only [Database.new, bind, EStateM.bind, heq₁, heq₂] at hnew
    cases hnew
    rw [hdestroy]
    refine ⟨?_, hdisk.wal.trans (Session.replayed_frame _ _).2.1⟩
    have hpager := Session.pager_replayed (Session.start cfg pages (disk.wal.getD []))
      (Session.replayable (disk.wal.getD []))
    rw [hreplayable] at hpager
    rw [← show _ = Pager.appendAll Record.need pageRoom ⟨pages, []⟩ logged from hpager, ← hreplayable]
    exact hdisk.data

/-- A session that is closed has written every put. -/
theorem flatten_closed (h : LivedFiles disk pages logged copies) {cfg : Config} {db : Database}
    {puts : List Record} (hstate : SessionState cfg disk db puts)
    (hshows : db.destroy.Shows pages' (db.destroy.wal.getD [])) :
    pages'.flatten = pages.flatten ++ (logged ++ puts) := by
  obtain ⟨s, hholds, hwrote, -⟩ := hstate.wrote h.shows h.log
  rw [hshows.data.unique hholds.shows_destroy.data]
  exact hwrote.flatten_flushed

theorem flatten_refused (h : LivedFiles disk pages logged copies) {cfg : Config}
    (hplaces : 1 ≤ cfg.recordCacheSize) {err : Error}
    (hnew : Database.new cfg disk = .error (err, disk'))
    (hshows : disk'.Shows pages' (disk'.wal.getD [])) :
    pages'.flatten = pages.flatten ++ logged := by
  rw [hshows.data.unique (h.refused hplaces hnew).data, Aqa.flatten_flushed,
    Pager.contents_appendAll_of_fits h.fits]
  simp [Pager.contents]

/-- A crash of a session that got so far. -/
theorem crash (h : LivedFiles disk pages logged copies) {db : Database} {pins : Nat → Nat}
    {s : Session} {m : Nat} (hholds : db.Holds pins s) (hs : s.Streams pages recs m)
    (hmore : logged <+: recs) (hshows : db.files.Shows pages' (db.files.wal.getD [])) :
    LivedFiles db.files pages' recs (copies ++ List.range (written pages pages')) := by
  have hdisk := hholds.shows_files
  have hpages : pages' = s.pager.pages := hshows.data.unique hdisk.data
  obtain ⟨hle, hflatten⟩ := hs.flatten_pages
  rw [← hpages] at hle hflatten
  refine h.extend hmore hshows ?_ hs.fits hle hflatten
  rw [hdisk.wal]
  exact hs.log

/-- A replay that got so far. -/
theorem streams_replay (h : LivedFiles disk pages logged copies) {cfg : Config} {db db' : Database}
    {point : PutPoint} {n : Nat} {rec : WalRecord}
    (hrec : (WalManager.readable (disk.wal.getD []))[n]? = some rec)
    (hreplay : Database.replayRecords ((WalManager.readable (disk.wal.getD [])).take n)
      (Database.members cfg disk) = .ok () db)
    (hvisit : Database.visitUpTo point rec db = .ok () db') :
    ∃ s m, db'.Holds (fun _ => 0) s ∧ s.Streams pages logged m := by
  obtain ⟨readable, hreadable⟩ : ∃ rs, WalManager.readable (disk.wal.getD []) = rs := ⟨_, rfl⟩
  rw [hreadable] at hrec hreplay
  have hrecs : readable.map WalRecord.record = logged := by
    rw [← hreadable]
    exact h.log.replayable
  have hfits : ∀ r ∈ readable, Record.need r.record ≤ pageRoom := by
    intro r hr
    apply h.fits
    rw [← hrecs]
    exact List.mem_map_of_mem hr
  have hstart := Database.holds_members cfg h.shows
  have hholds := hstart.replayRecords_ok _ (fun r hr => hfits r (List.mem_of_mem_take hr)) hreplay
  obtain ⟨s', hholds', hlog, hpager⟩ := hholds.visitUpTo (hfits rec (List.mem_of_getElem? hrec)) hvisit
  rw [List.map_take, hrecs] at hlog hpager
  have hlt : n < logged.length := by
    rw [← hrecs, List.length_map]
    exact (List.getElem?_eq_some_iff.mp hrec).1
  have hnext : logged.take (n + 1) = logged.take n ++ [rec.record] := by
    have hget : logged[n]? = some rec.record := by
      rw [← hrecs, List.getElem?_map, hrec]
      rfl
    rw [List.take_add_one, hget]
    rfl
  have hreplayed := Session.pager_replayed (Session.start cfg pages (disk.wal.getD []))
    (logged.take n)
  have hlogged : Logged s'.log logged := by
    rw [hlog, (Session.replayed_frame _ _).2.1]
    exact h.log
  rcases hpager with hpager | hpager
  · exact ⟨s', n, hholds', le_of_lt hlt, hpager.trans hreplayed, h.fits, hlogged⟩
  · refine ⟨s', n + 1, hholds', hlt, ?_, h.fits, hlogged⟩
    rw [hnext, Pager.appendAll_concat, hpager, Session.appended, hreplayed]
    rfl

/-- With a place in each cache the files can be opened. -/
theorem opens (h : LivedFiles disk pages logged copies) (cfg : Config)
    (hframes : 1 ≤ cfg.cacheSizePages) (hplaces : 1 ≤ cfg.recordCacheSize) :
    Session.Opens cfg pages (disk.wal.getD []) ∧ ∃ db, Database.new cfg disk = .ok db ∧
      db.Holds (fun _ => 0) (Session.opened cfg pages (disk.wal.getD [])) :=
  h.shows.opens h.log h.fits cfg hframes hplaces

end LivedFiles

/-- **Every session copies a first part of the puts onto the pages once more.** -/
theorem Lived.files {Allowed : List Nat → List Record → Nat → Prop} {disk : Disk}
    {pages : List (List Record)} {logged : List Record} {copies : List Nat}
    (h : Lived Allowed disk pages logged copies) : LivedFiles disk pages logged copies := by
  induction h with
  | new => exact ⟨Disk.shows_empty, logged_nil, by simp, rfl⟩
  | @closed disk pages pages' logged puts copies cfg db _ hstate hshows ih =>
      obtain ⟨s, hholds, hwrote, -⟩ := hstate.wrote ih.shows ih.log
      refine ih.close (List.prefix_append _ _) hshows ?_ hwrote.fits (ih.flatten_closed hstate hshows)
      rw [hholds.shows_destroy.wal]
      exact hwrote.log
  | @refused disk disk' pages pages' logged copies cfg err _ hplaces hnew hshows ih =>
      refine ih.close List.prefix_rfl hshows ?_ ih.fits (ih.flatten_refused hplaces hnew hshows)
      rw [(ih.refused hplaces hnew).wal]
      exact ih.log
  | @crashed disk pages pages' logged puts copies cfg db _ hstate hshows _ ih =>
      obtain ⟨s, hholds, hwrote, -⟩ := hstate.wrote ih.shows ih.log
      exact ih.crash hholds (Session.Streams.ofWrote hwrote) (List.prefix_append _ _) hshows
  | @crashedInPut disk pages pages' logged puts copies cfg db db' point r _ hstate hr hput hshows _ ih =>
      obtain ⟨s, hholds, hwrote, -⟩ := hstate.wrote ih.shows ih.log
      obtain ⟨s', m, hholds', hstreams⟩ := hholds.putUpTo hwrote hr hput
      refine ih.crash hholds' hstreams ?_ hshows
      rw [List.append_assoc]
      exact List.prefix_append _ _
  | @crashedInReplay disk pages pages' logged copies cfg db db' point n rec _ hrec hreplay hvisit
      hshows _ ih =>
      obtain ⟨s', m, hholds', hstreams⟩ := ih.streams_replay hrec hreplay hvisit
      exact ih.crash hholds' hstreams List.prefix_rfl hshows

/-- One more session that is closed, and one that ends in a crash between two calls. -/
theorem Lived.session {Allowed : List Nat → List Record → Nat → Prop} {disk : Disk}
    {pages : List (List Record)} {logged : List Record} {copies : List Nat}
    (h : Lived Allowed disk pages logged copies) (cs : List DbCall)
    (hfits : ∀ r ∈ putsOf cs, Record.need r ≤ pageRoom) {p : Pager Record}
    (hp : Pager.appendAll Record.need pageRoom ⟨pages, []⟩ (logged ++ putsOf cs) = p) :
    (∃ disk', Lived Allowed disk' (StorageWriter.flushed 0 p) (logged ++ putsOf cs)
        (copies ++ List.range (written pages (StorageWriter.flushed 0 p)))) ∧
      (Allowed copies (logged ++ putsOf cs) (written pages p.pages) →
        ∃ disk', Lived Allowed disk' p.pages (logged ++ putsOf cs)
          (copies ++ List.range (written pages p.pages))) := by
  have hfiles := h.files
  obtain ⟨hopens, db, hnew, hholds⟩ := hfiles.opens ⟨1, 1, false⟩ le_rfl le_rfl
  obtain ⟨-, hcap, -⟩ := Session.opened_frame ⟨1, 1, false⟩ pages (disk.wal.getD [])
  obtain ⟨answers, db', hcalls, hholds'⟩ := hholds.calls_of_fits cs hopens.frame_opened
    (le_of_eq hcap.symm) hfits
  have hstate := (SessionState.opened hnew).calls cs hcalls
  have hwrote := (Session.wrote_opened hopens hfiles.log).run hfits
  have hclosed := hholds'.shows_destroy
  have hcrashed := hholds'.shows_files
  rw [← hclosed.wal, hwrote.pager, hp] at hclosed
  rw [← hcrashed.wal, hwrote.pager, hp] at hcrashed
  exact ⟨⟨_, h.closed hstate hclosed⟩, fun hallowed => ⟨_, h.crashed hstate hcrashed hallowed⟩⟩

end Aqa
