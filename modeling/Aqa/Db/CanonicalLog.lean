/-
# Aqa.Db.CanonicalLog — the log of many sessions is the log of one.

Sessions that are closed, that crash, or that are refused leave no trace in the log but their frames: a
replay gives the LSN counter back its value, and a put writes its frame first. So behind any run of
sessions the log is byte for byte what one manager writes for the logged puts.
-/
import Aqa.Db.CrashRuns
import Aqa.Wal.Damage

namespace Aqa

open Aqa.Lib

/-- The frames with the LSNs 1, 2, 3, … are those of one manager. -/
theorem WalManager.stamped_eq_mapIdx (kvs : List (Bytes × Bytes)) :
    ∀ {lsn : Nat}, lsn + kvs.length < 2 ^ 64 →
      stamped lsn kvs = kvs.mapIdx fun i kv => ⟨lsn + i + 1, kv.1, kv.2⟩ := by
  induction kvs with
  | nil => exact fun _ => rfl
  | cons kv kvs ih =>
      intro lsn h
      rw [List.length_cons] at h
      rw [stamped, u64_of_lt (by omega), List.mapIdx_cons, ih (by omega)]
      congr 2
      funext i kv
      congr 1
      omega

theorem WalManager.stamped_zero {kvs : List (Bytes × Bytes)} (h : kvs.length < 2 ^ 64) :
    stamped 0 kvs = numbered kvs := by
  rw [stamped_eq_mapIdx kvs (by rw [Nat.zero_add]; exact h), numbered]
  congr 1
  funext i kv
  rw [Nat.zero_add]

theorem WalManager.readable_logOf {recs : List Record} (hlen : recs.length < 2 ^ 64)
    (hfits : ∀ r ∈ recs, Record.need r ≤ pageRoom) :
    readable (logOf (entries recs)) = numbered (entries recs) := by
  have hheaders : ∀ f ∈ stamped 0 (entries recs), FitsHeader f := by
    apply stamped_fits
    intro kv hkv
    obtain ⟨r, hr, rfl⟩ := List.mem_map.mp hkv
    have hroom := hfits r hr
    rw [need_le_pageRoom_iff] at hroom
    exact ⟨by show r.key.length ≤ 65535; omega, by show r.value.length ≤ 65535; omega⟩
  rw [logOf_eq, readable, Framing.readAll_encodeAll hheaders]
  exact stamped_zero (by rw [entries, List.length_map]; exact hlen)

/-- The log of a session, and its LSN counter, are those of one manager that appended these puts. -/
structure Session.Numbered (s : Session) (recs : List Record) : Prop where
  log : s.log = WalManager.logOf (entries recs)
  lsn : s.lsn = recs.length

namespace Session.Numbered

variable {s : Session} {recs : List Record}

/-- A put writes the next frame. -/
theorem logged (h : s.Numbered recs) (r : Record) (hlt : recs.length + 1 < 2 ^ 64) :
    (s.logged r.key r.value).Numbered (recs ++ [r]) := by
  have hlength : (entries recs).length = recs.length := List.length_map _
  have hcount : u64 (s.lsn + 1) = recs.length + 1 := by rw [h.lsn, u64_of_lt hlt]
  constructor
  · show s.log ++ WalManager.frameBytes (u64 (s.lsn + 1)) r.key r.value = _
    rw [h.log, hcount, entries_append]
    show _ = WalManager.logOf (entries recs ++ [(r.key, r.value)])
    rw [WalManager.logOf_eq, WalManager.logOf_eq, WalManager.stamped_zero (by omega),
      WalManager.stamped_zero (by simp; omega), WalManager.numbered_concat,
      Framing.encodeAll_append, Framing.encodeAll_cons, Framing.encodeAll_nil, List.append_nil,
      hlength]
    rfl
  · show u64 (s.lsn + 1) = (recs ++ [r]).length
    rw [hcount, List.length_append, List.length_singleton]

theorem congr {s' : Session} (h : s.Numbered recs) (hlog : s'.log = s.log) (hlsn : s'.lsn = s.lsn) :
    s'.Numbered recs := ⟨hlog.trans h.log, hlsn.trans h.lsn⟩

/-- The constructor counts as far as the log goes. -/
theorem opened (cfg : Config) (pages : List (List Record)) (hlen : recs.length < 2 ^ 64)
    (hfits : ∀ r ∈ recs, Record.need r ≤ pageRoom) :
    (Session.opened cfg pages (WalManager.logOf (entries recs))).Numbered recs := by
  refine ⟨(Session.stream_opened _ _ _).2, ?_⟩
  obtain ⟨log, hlog⟩ : ∃ log, WalManager.logOf (entries recs) = log := ⟨_, rfl⟩
  have hlsn : (Session.opened cfg pages log).lsn = WalManager.maxLsn 0 (WalManager.readable log) := by
    obtain ⟨-, hsame, hzero, -⟩ := Session.replayed_frame (Session.start cfg pages log)
      (Session.replayable log)
    have hcounted : ((Session.start cfg pages log).replayed (Session.replayable log)).counted.lsn =
        WalManager.maxLsn 0 (WalManager.readable log) := by
      unfold Session.counted
      rw [hsame, hzero]
      rfl
    rw [← hcounted]
    unfold Session.opened Session.recovered
    split <;> rfl
  rw [hlog, hlsn, ← hlog, WalManager.readable_logOf hlen hfits, WalManager.maxLsn_numbered]
  show max 0 (entries recs).length = recs.length
  rw [entries, List.length_map]
  omega

end Session.Numbered

/-! ## Sessions -/

/-- What the constructor establishes and every call keeps, given the puts so far, holds in every
state of a session: a scan changes nothing. -/
theorem SessionState.invariant {cfg : Config} {disk : Disk} {pages : List (List Record)} {log : Bytes}
    (Inv : Session → List Record → Prop) (hshows : disk.Shows pages log)
    (hopened : Inv (Session.opened cfg pages log) [])
    (hcall : ∀ {s : Session} {puts : List Record} (c : DbCall),
      Inv s puts → Inv (s.after c) (puts ++ putsOf [c]))
    {db : Database} {puts : List Record} (h : SessionState cfg disk db puts) :
    ∃ s, db.Holds (fun _ => 0) s ∧ Inv s puts ∧ (s.total = 0 ∨ 0 < s.frames) := by
  induction h with
  | opened hnew =>
      obtain ⟨hopens, hholds⟩ := Database.holds_of_new hshows hnew
      exact ⟨_, hholds, hopened, hopens.frame_opened⟩
  | @call db db' puts c a _ hreturns ih =>
      obtain ⟨s, hholds, hinv, hf⟩ := ih
      obtain ⟨-, hholds', -⟩ := hholds.call_ok hf hreturns
      obtain ⟨hmapped, -, hframes⟩ := s.run_frame [c]
      have htotal : (s.after c).total = s.total :=
        congrArg (fun m : List (List Record) => u32 m.length) hmapped
      refine ⟨s.after c, hholds', hcall c hinv, ?_⟩
      rw [htotal, show (s.after c).frames = s.frames from hframes]
      exact hf
  | scan _ hscan ih =>
      obtain ⟨s, hholds, hinv, hf⟩ := ih
      obtain ⟨db₁, heq, hholds₁⟩ := hholds.scan_visits hf
      rw [heq] at hscan
      cases hscan
      exact ⟨s, hholds₁, hinv, hf⟩

/-- A session that is at work. -/
theorem SessionState.numbered {cfg : Config} {disk : Disk} {pages : List (List Record)}
    {logged : List Record} (hshows : disk.Shows pages (disk.wal.getD []))
    (hlog : disk.wal.getD [] = WalManager.logOf (entries logged))
    (hfits : ∀ r ∈ logged, Record.need r ≤ pageRoom) {db : Database} {puts : List Record}
    (h : SessionState cfg disk db puts) (hlen : (logged ++ puts).length < 2 ^ 64) :
    ∃ s, db.Holds (fun _ => 0) s ∧ s.Numbered (logged ++ puts) := by
  rw [hlog] at hshows
  apply Exists.imp (fun s hs => ⟨hs.1, hs.2.1 hlen⟩) (h.invariant
    (fun s puts => (logged ++ puts).length < 2 ^ 64 → s.Numbered (logged ++ puts)) hshows ?_ ?_)
  · intro hlt
    rw [List.append_nil] at hlt ⊢
    exact Session.Numbered.opened cfg pages hlt hfits
  · intro s puts c hinv hlt
    rw [← List.append_assoc] at hlt ⊢
    cases c with
    | get key =>
        obtain ⟨-, -, hlog', hlsn', -⟩ := s.got_frame key
        rw [show putsOf [DbCall.get key] = [] from rfl, List.append_nil] at hlt ⊢
        exact (hinv hlt).congr hlog' hlsn'
    | put key value =>
        rw [show putsOf [DbCall.put key value] = [⟨key, value⟩] from rfl, List.length_append,
          List.length_singleton] at hlt
        exact ((hinv (by omega)).logged ⟨key, value⟩ hlt).congr rfl rfl

namespace Database

variable {db db' : Database} {key value : Bytes}

theorem wal_writerAppend {rid : RecordID} (h : writerAppend key value db = .ok rid db') :
    db'.wal = db.wal := by
  unfold writerAppend at h
  split at h
  · cases h
    rfl
  · exact absurd h (by simp)

theorem wal_cachePut (h : cachePut key value db = .ok () db') : db'.wal = db.wal := by
  unfold cachePut at h
  split at h
  · cases h
    rfl
  · exact absurd h (by simp)

/-- A visit of a replayed record writes no frame. -/
theorem wal_visitUpTo {point : PutPoint} {rec : WalRecord} (h : visitUpTo point rec db = .ok () db') :
    db'.wal = db.wal := by
  cases point with
  | wal =>
      cases h
      rfl
  | page =>
      simp only [visitUpTo, bind, EStateM.bind] at h
      cases happend : writerAppend rec.key rec.value db with
      | error err db₁ =>
          rw [happend] at h
          exact absurd h (by simp)
      | ok rid db₁ =>
          rw [happend] at h
          cases h
          exact wal_writerAppend happend
  | index =>
      simp only [visitUpTo, bind, EStateM.bind] at h
      cases happend : writerAppend rec.key rec.value db with
      | error err db₁ =>
          rw [happend] at h
          exact absurd h (by simp)
      | ok rid db₁ =>
          rw [happend] at h
          rw [← wal_writerAppend happend]
          cases h
          rfl
  | cache =>
      simp only [visitUpTo, replayVisitor, bind, EStateM.bind] at h
      cases happend : writerAppend rec.key rec.value db with
      | error err db₁ =>
          rw [happend] at h
          exact absurd h (by simp)
      | ok rid db₁ =>
          rw [happend] at h
          rw [← wal_writerAppend happend]
          exact (wal_cachePut h).trans rfl

theorem wal_replayRecords (recs : List WalRecord) :
    ∀ {db db' : Database}, replayRecords recs db = .ok () db' → db'.wal = db.wal := by
  induction recs with
  | nil =>
      intro db db' h
      cases h
      rfl
  | cons rec recs ih =>
      intro db db' h
      simp only [replayRecords, bind, EStateM.bind] at h
      cases hvisit : replayVisitor rec db with
      | error err db₁ =>
          rw [hvisit] at h
          exact absurd h (by simp)
      | ok u db₁ =>
          rw [hvisit] at h
          have hfirst : db₁.wal = db.wal := by
            apply wal_visitUpTo
            exact (show visitUpTo .cache rec db = .ok () db₁ from hvisit)
          rw [ih h, hfirst]

/-- A put writes its frame, and is then what a visit of its record is. -/
theorem putUpTo_eq {point : PutPoint} (lsn : Nat) {db₁ : Database}
    (h : walAppend key value db = .ok () db₁) :
    putUpTo point key value db = visitUpTo point ⟨lsn, key, value⟩ db₁ := by
  cases point with
  | wal => exact h
  | page | index | cache =>
      simp only [putUpTo, visitUpTo, put, replayVisitor, bind, EStateM.bind, h]

end Database

/-! ## Runs -/

/-- **The log of many sessions is the log of one.** Behind any run of sessions that are closed, refused,
or crash, between two calls, inside a put, or inside the constructor's replay, the log is byte for byte
that of a single manager which appended the logged puts one after the other; the frames carry the LSNs
1, 2, 3, … without a gap. -/
theorem log_canonical {Allowed : List Nat → List Record → Nat → Prop} {disk : Disk}
    {pages : List (List Record)} {logged : List Record} {copies : List Nat}
    (h : Lived Allowed disk pages logged copies) (hlen : logged.length < 2 ^ 64) :
    disk.wal.getD [] = WalManager.logOf (entries logged) ∧
      (WalManager.readable (disk.wal.getD [])).map WalRecord.lsn = List.range' 1 logged.length := by
  have hfits := h.files.fits
  have hlog : disk.wal.getD [] = WalManager.logOf (entries logged) := by
    clear hfits
    induction h with
    | new => rfl
    | @closed disk pages pages' logged puts copies cfg db hlived hstate hshows ih =>
        rw [List.length_append] at hlen
        obtain ⟨s, hholds, hnumbered⟩ := hstate.numbered hlived.files.shows (ih (by omega))
          hlived.files.fits (by rw [List.length_append]; exact hlen)
        rw [hholds.shows_destroy.wal, hnumbered.log]
    | @refused disk disk' pages pages' logged copies cfg err hlived hplaces hnew hshows ih =>
        rw [(hlived.files.refused hplaces hnew).wal]
        exact ih hlen
    | @crashed disk pages pages' logged puts copies cfg db hlived hstate hshows _ ih =>
        rw [List.length_append] at hlen
        obtain ⟨s, hholds, hnumbered⟩ := hstate.numbered hlived.files.shows (ih (by omega))
          hlived.files.fits (by rw [List.length_append]; exact hlen)
        rw [hholds.shows_files.wal, hnumbered.log]
    | @crashedInPut disk pages pages' logged puts copies cfg db db' point r hlived hstate hr hput hshows
        _ ih =>
        rw [List.length_append, List.length_singleton, List.length_append] at hlen
        obtain ⟨s, hholds, hnumbered⟩ := hstate.numbered hlived.files.shows (ih (by omega))
          hlived.files.fits (by rw [List.length_append]; omega)
        obtain ⟨db₁, hwal, h₁⟩ := hholds.walAppend r.key r.value
        rw [Database.putUpTo_eq 0 hwal] at hput
        have hsame : db'.files.wal = db₁.files.wal :=
          congrArg WalManager.file (Database.wal_visitUpTo hput)
        rw [hsame, h₁.shows_files.wal]
        exact (hnumbered.logged r (by rw [List.length_append]; omega)).log
    | @crashedInReplay disk pages pages' logged copies cfg db db' point n rec hlived hrec hreplay
        hvisit hshows _ ih =>
        have hkept : db'.wal = WalManager.new disk.wal := by
          rw [Database.wal_visitUpTo hvisit, Database.wal_replayRecords _ hreplay]
          rfl
        have hfile : db'.files.wal = some (disk.wal.getD []) := by
          show db'.wal.file = _
          rw [hkept]
          rfl
        rw [hfile]
        exact ih hlen
  refine ⟨hlog, ?_⟩
  have hentries : (entries logged).length = logged.length := List.length_map _
  have hcount : 0 + (entries logged).length < 2 ^ 64 := by omega
  rw [hlog, WalManager.readable_logOf hlen hfits, ← WalManager.stamped_zero (by omega),
    WalManager.map_lsn_stamped _ hcount, hentries]

/-- A put and a crash. -/
theorem log_canonical_one_put :
    ∃ disk pages copies, Lived AnyCrash disk pages [⟨[1], [2]⟩] copies ∧
      disk.wal.getD [] = WalManager.logOf (entries [⟨[1], [2]⟩]) ∧
      (WalManager.readable (disk.wal.getD [])).map WalRecord.lsn = [1] := by
  obtain ⟨disk, hlived⟩ := ((.new : Lived AnyCrash _ _ _ _).session [.put [1] [2]]
    (by simp [putsOf, need_le_pageRoom_iff]) rfl).2 trivial
  exact ⟨disk, _, _, hlived, log_canonical hlived (by decide)⟩

end Aqa
