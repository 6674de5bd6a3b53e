/-
# Aqa.Db.FailedPut — what is left of a put that throws.

`put` writes the frame before the page writer refuses the record, and the writer has closed its page by
then. `World` lets a client do everything it can with the database and its files; `NoEffect` says that
none of it tells a state from another. A put that throws is always found out
(`failed_put_harmless_iff`): by the constructor that replays its frame, by a scan of the page that was
closed early, or by a later put that the replay does not reach.
-/
import Aqa.Db.CrashRuns
import Aqa.Wal.Damage

namespace Aqa

open Aqa.Lib StorageReader

/-! ## What a client sees -/

/-- A database that is open, or the files of one that is not. -/
inductive World where
  | running (db : Database)
  | shut (disk : Disk)

/-- What a client does, crashes included. -/
inductive Action where
  | call (c : DbCall)
  | scan
  | count
  | close
  | crash
  | reopen (cfg : Config)

/-- What a client sees of an action. -/
inductive Seen where
  | answer (a : Except Error (Option Bytes))
  | visits (vs : Except Error (List (RecordID × Record)))
  | count (n : Nat)
  | opened (err : Option Error)
  | nothing

namespace World

/-- One action. An open needs closed files, everything else an open database. -/
def act : World → Action → World × Seen
  | running db, .call c =>
      match Database.call c db with
      | .ok a db => (running db, .answer (.ok a))
      | .error err db => (running db, .answer (.error err))
  | running db, .scan =>
      match Database.scan db with
      | .ok vs db => (running db, .visits (.ok vs))
      | .error err db => (running db, .visits (.error err))
  | running db, .count => (running db, .count db.getRecordCount)
  | running db, .close => (shut db.destroy, .nothing)
  | running db, .crash => (shut db.files, .nothing)
  | shut disk, .reopen cfg =>
      match Database.new cfg disk with
      | .ok db => (running db, .opened none)
      | .error (err, disk) => (shut disk, .opened (some err))
  | w, _ => (w, .nothing)

/-- Some actions one after the other. -/
def observe : World → List Action → List Seen
  | _, [] => []
  | w, a :: as => (w.act a).2 :: observe (w.act a).1 as

end World

/-- Nothing a client can do tells the second database from the first. -/
def NoEffect (db db' : Database) : Prop :=
  ∀ actions, (World.running db).observe actions = (World.running db').observe actions

namespace NoEffect

variable {db db' e : Database}

/-- What is seen of the first action. -/
theorem seen (h : NoEffect db db') (a : Action) :
    ((World.running db).act a).2 = ((World.running db').act a).2 := by
  have hone := h [a]
  simp only [World.observe, List.cons.injEq, and_true] at hone
  exact hone

/-- The databases behind a crash and an open. -/
theorem reopen (h : NoEffect db db') {cfg : Config} (hnew : Database.new cfg db.files = .ok e) :
    ∃ e', Database.new cfg db'.files = .ok e' ∧ NoEffect e e' := by
  have hafter := fun as => h (.crash :: .reopen cfg :: as)
  simp only [World.observe, World.act, hnew, List.cons.injEq, true_and] at hafter
  cases hnew' : Database.new cfg db'.files with
  | error out =>
      have hopened := (hafter []).1
      rw [hnew'] at hopened
      exact absurd hopened (by simp)
  | ok e' =>
      refine ⟨e', rfl, ?_⟩
      intro as
      have hrest := (hafter as).2
      rw [hnew'] at hrest
      exact hrest

theorem call (h : NoEffect db db') {c : DbCall} {a : Option Bytes}
    (heq : Database.call c db = .ok a e) :
    ∃ e', Database.call c db' = .ok a e' ∧ NoEffect e e' := by
  have hafter := fun as => h (.call c :: as)
  simp only [World.observe, World.act, heq, List.cons.injEq] at hafter
  cases heq' : Database.call c db' with
  | error err e' =>
      have hanswer := (hafter []).1
      rw [heq'] at hanswer
      exact absurd hanswer (by simp)
  | ok a' e' =>
      simp only [heq'] at hafter
      have hanswer := (hafter []).1
      simp only [Seen.answer.injEq, Except.ok.injEq] at hanswer
      subst hanswer
      exact ⟨e', rfl, fun as => (hafter as).2⟩

theorem scan (h : NoEffect db db') {vs vs' : List (RecordID × Record)} {e' : Database}
    (heq : Database.scan db = .ok vs e) (heq' : Database.scan db' = .ok vs' e') : vs = vs' := by
  have hseen := h.seen .scan
  simp only [World.act, heq, heq', Seen.visits.injEq, Except.ok.injEq] at hseen
  exact hseen

end NoEffect

/-! ## What a put leaves that throws -/

/-- Behind a log of whole frames a frame is replayed as far as its lengths reach, or ends the replay. -/
theorem Logged.replayable_frame {log : Bytes} {recs : List Record} (h : Logged log recs)
    {lsn : Nat} (hlsn : lsn < 2 ^ 64) (key value rest : Bytes) :
    Session.replayable (log ++ (WalManager.frameBytes lsn key value ++ rest)) =
      if WalManager.Legible ⟨lsn, key, value⟩ then
        recs ++ (WalManager.truncated ⟨lsn, key, value⟩).record :: Session.replayable rest
      else recs := by
  obtain ⟨frames, rfl, hfits, rfl⟩ := h
  have hframe : WalManager.walFraming.decode (WalManager.frameBytes lsn key value ++ rest) =
      if WalManager.Legible ⟨lsn, key, value⟩ then
        some (WalManager.truncated ⟨lsn, key, value⟩, rest) else none :=
    WalManager.parseFrame_frameBytes (r := ⟨lsn, key, value⟩) hlsn rest
  rw [Session.replayable, WalManager.readable, Framing.readAll_encodeAll_append hfits, List.map_append]
  by_cases hlegible : WalManager.Legible ⟨lsn, key, value⟩
  · rw [if_pos hlegible] at hframe ⊢
    rw [Framing.readAll_of_decode_some hframe]
    rfl
  · rw [if_neg hlegible] at hframe ⊢
    rw [Framing.readAll_of_decode_none hframe, List.map_nil, List.append_nil]

/-- A put of what does not fit has written its frame and closed the open page. -/
theorem Database.Holds.put_refused {db : Database} {pins : Nat → Nat} {s : Session}
    (h : db.Holds pins s) {r : Record} (hr : ¬Record.need r ≤ pageRoom) :
    ∃ db', Database.put r.key r.value db =
        .error (.runtimeError "Record too large for a single page!") db' ∧
      db'.files.Shows (s.pager.pages ++ [s.pager.cur])
        (s.log ++ WalManager.frameBytes (u64 (s.lsn + 1)) r.key r.value) := by
  obtain ⟨db₀, heq₀, h₀⟩ := h.walAppend r.key r.value
  obtain ⟨db₁, h₁, heq₁⟩ := h₀.writerAppend r
  rw [if_neg hr] at heq₁
  refine ⟨db₁, by simp only [Database.put, bind, EStateM.bind, heq₀, heq₁], ?_⟩
  have hpages : ((s.logged r.key r.value).appended r).pager.pages =
      s.pager.pages ++ [s.pager.cur] := by
    show (Pager.append Record.need pageRoom s.pager r).2.pages = _
    rcases Pager.append_cases Record.need pageRoom s.pager r with ⟨hfits, -⟩ | ⟨hfits, -⟩ | ⟨-, heq⟩
    · exact absurd hfits hr
    · exact absurd hfits hr
    · rw [heq]
  rw [← hpages]
  exact h₁.shows_files

/-- A put of what fits does not throw, but for the want of a place in the record cache. -/
theorem Database.Holds.put_of_fits {db db' : Database} {pins : Nat → Nat} {s : Session}
    (h : db.Holds pins s) {r : Record} (hr : Record.need r ≤ pageRoom) {what : String} :
    Database.put r.key r.value db ≠ .error (.runtimeError what) db' := by
  intro heq
  obtain ⟨db₀, heq₀, h₀⟩ := h.walAppend r.key r.value
  obtain ⟨db₁, h₁, heq₁⟩ := h₀.writerAppend r
  rw [if_pos hr] at heq₁
  obtain ⟨db₂, heq₂, h₂⟩ := h₁.indexInsert r.key
    (StorageWriter.lastRid 0 ((s.logged r.key r.value).appended r).pager)
  by_cases hcap : 1 ≤ s.capacity
  · obtain ⟨db₃, heq₃, -⟩ := h₂.cachePut hcap r.key r.value
    simp only [Database.put, bind, EStateM.bind, heq₀, heq₁, heq₂, heq₃] at heq
    exact absurd heq (by simp)
  · have heq₃ := h₂.cachePut_without_place (Nat.eq_zero_of_not_pos hcap) r.key r.value
    simp only [Database.put, bind, EStateM.bind, heq₀, heq₁, heq₂, heq₃] at heq
    exact absurd heq (by simp)

/-! ## Reading after an open -/

/-- A get right after an open with one place in the record cache. -/
theorem Database.get_opened {disk : Disk} {pages : List (List Record)} {log : Bytes}
    (hshows : disk.Shows pages log) {db : Database} (hnew : Database.new ⟨1, 1, false⟩ disk = .ok db)
    (k : Bytes) :
    ∃ db', Database.call (.get k) db =
      .ok ((cachedValue (lruUses 1 [] (entries (Session.replayable log))) k).or
        (lastWrite (entries (addressed pages)) k)) db' := by
  obtain ⟨hopens, hholds⟩ := holds_of_new hshows hnew
  obtain ⟨-, hcap, -⟩ := Session.opened_frame ⟨1, 1, false⟩ pages log
  obtain ⟨db', hget, -⟩ := hholds.get hopens.frame_opened
    fun _ : Session.found _ k ≠ none => by rw [hcap]
  rw [Session.answer, Session.cached_opened, Session.found_opened] at hget
  exact ⟨db', hget⟩

/-- The answers to a get right after an open. -/
theorem NoEffect.answers {disk disk' : Disk} {pages pages' : List (List Record)} {log log' : Bytes}
    {db db' : Database} (h : NoEffect db db') (hshows : disk.Shows pages log)
    (hshows' : disk'.Shows pages' log') (hnew : Database.new ⟨1, 1, false⟩ disk = .ok db)
    (hnew' : Database.new ⟨1, 1, false⟩ disk' = .ok db') (k : Bytes) :
    (cachedValue (lruUses 1 [] (entries (Session.replayable log))) k).or
        (lastWrite (entries (addressed pages)) k) =
      (cachedValue (lruUses 1 [] (entries (Session.replayable log'))) k).or
        (lastWrite (entries (addressed pages')) k) := by
  obtain ⟨_, hget⟩ := Database.get_opened hshows hnew k
  obtain ⟨_, hget'⟩ := Database.get_opened hshows' hnew' k
  obtain ⟨_, hsame, -⟩ := h.call hget
  rw [hget', EStateM.Result.ok.injEq] at hsame
  exact hsame.1.symm

/-- The last replayed record is in the record cache. -/
theorem cachedValue_last (recs : List Record) (r : Record) :
    cachedValue (lruUses 1 [] (entries (recs ++ [r]))) r.key = some r.value := by
  rw [entries_append, show entries [r] = [r.entry] from rfl, lruUses_concat]
  exact cachedValue_lruPut_self le_rfl _ _ _

/-! ## Telling the difference -/

/-- The files before and after a put that throws, behind these puts. -/
structure RefusedPut (db db' : Database) (s : Session) (recs : List Record) (r : Record) : Prop where
  before : db.files.Shows s.pager.pages s.log
  after : db'.files.Shows (s.pager.pages ++ [s.pager.cur])
    (s.log ++ WalManager.frameBytes (u64 (s.lsn + 1)) r.key r.value)
  log : Logged s.log recs
  fits : ∀ r ∈ recs, Record.need r ≤ pageRoom
  refused : ¬Record.need r ≤ pageRoom

namespace RefusedPut

variable {db db' e e' : Database} {s : Session} {recs : List Record} {r : Record}

/-- Without the put the files can be opened again. -/
theorem opens (h : RefusedPut db db' s recs r) :
    ∃ e, Database.new ⟨1, 1, false⟩ db.files = .ok e := by
  obtain ⟨-, e, hnew, -⟩ := h.before.opens h.log h.fits ⟨1, 1, false⟩ le_rfl le_rfl
  exact ⟨e, hnew⟩

/-- What the replay behind the put delivers. -/
theorem replayable (h : RefusedPut db db' s recs r) :
    Session.replayable (s.log ++ WalManager.frameBytes (u64 (s.lsn + 1)) r.key r.value) =
      if WalManager.Legible ⟨u64 (s.lsn + 1), r.key, r.value⟩ then
        recs ++ [(WalManager.truncated ⟨u64 (s.lsn + 1), r.key, r.value⟩).record]
      else recs := by
  have hframe := h.log.replayable_frame (u64_lt (s.lsn + 1)) r.key r.value []
  rw [List.append_nil] at hframe
  rw [hframe]
  rfl

/-- A frame with both lengths in 16 bits is replayed in full, and the constructor throws. -/
theorem reopen_throws (h : RefusedPut db db' s recs r)
    (hshort : r.key.length < 2 ^ 16 ∧ r.value.length < 2 ^ 16) (cfg : Config) :
    ∃ out, Database.new cfg db'.files = .error out := by
  rcases Database.new_cases cfg h.after with ⟨hopens, -⟩ | ⟨-, hthrows⟩
  · have hfits : WalManager.FitsHeader ⟨u64 (s.lsn + 1), r.key, r.value⟩ :=
      ⟨u64_lt _, hshort.1, hshort.2⟩
    have hreplay := hopens.fits
    rw [h.replayable, if_pos (WalManager.legible_of_fits hfits),
      WalManager.truncated_of_fits hfits] at hreplay
    exact absurd (hreplay r (by simp [WalRecord.record])) h.refused
  · exact hthrows

theorem seen_of_short (h : RefusedPut db db' s recs r)
    (hshort : r.key.length < 2 ^ 16 ∧ r.value.length < 2 ^ 16) : ¬NoEffect db db' := by
  intro hsame
  obtain ⟨e, hnew⟩ := h.opens
  obtain ⟨e', hnew', -⟩ := hsame.reopen hnew
  obtain ⟨out, hthrows⟩ := h.reopen_throws hshort ⟨1, 1, false⟩
  rw [hnew'] at hthrows
  exact absurd hthrows (by simp)

/-- A page that was open is closed early, and scanned in the next session. -/
theorem seen_of_open_page (h : RefusedPut db db' s recs r) (hcur : s.pager.cur ≠ [])
    (hsize : s.pager.pages.length < 2 ^ 20) : ¬NoEffect db db' := by
  intro hsame
  obtain ⟨e, hnew⟩ := h.opens
  obtain ⟨e', hnew', hsame'⟩ := hsame.reopen hnew
  obtain ⟨hopens, hholds⟩ := Database.holds_of_new h.before hnew
  obtain ⟨hopens', hholds'⟩ := Database.holds_of_new h.after hnew'
  obtain ⟨_, hscan, -⟩ := hholds.scan_visits hopens.frame_opened
  obtain ⟨_, hscan', -⟩ := hholds'.scan_visits hopens'.frame_opened
  have hvisits := congrArg (List.map Prod.snd) (hsame'.scan hscan hscan')
  rw [Session.map_visited, Session.map_visited, (Session.opened_frame _ _ _).1,
    (Session.opened_frame _ _ _).1, addressed_of_le (le_of_lt hsize),
    addressed_of_le (by rw [List.length_append]; exact hsize), List.flatten_append,
    List.flatten_singleton] at hvisits
  exact hcur (List.self_eq_append_right.mp hvisits)

/-- In a database without puts the replay delivers something new, or none of the puts to come. -/
theorem seen_of_new (h : RefusedPut db db' s [] r) (hpages : s.pager.pages.flatten = [])
    (hcur : s.pager.cur = []) : ¬NoEffect db db' := by
  intro hsame
  have hafter := h.after
  rw [hcur] at hafter
  obtain ⟨e, hnew⟩ := h.opens
  obtain ⟨e', hnew', hsame'⟩ := hsame.reopen hnew
  have hreplay := h.replayable
  by_cases hlegible : WalManager.Legible ⟨u64 (s.lsn + 1), r.key, r.value⟩
  · -- what is left of the record is found
    rw [if_pos hlegible] at hreplay
    obtain ⟨t, ht⟩ : ∃ t, (WalManager.truncated ⟨u64 (s.lsn + 1), r.key, r.value⟩).record = t :=
      ⟨_, rfl⟩
    have hget := hsame'.answers h.before hafter hnew hnew' t.key
    rw [hreplay, ht, cachedValue_last, h.log.replayable, addressed_of_flatten_nil hpages] at hget
    exact absurd hget (by simp [entries, lruUses, cachedValue])
  · -- the next put is not replayed
    rw [if_neg hlegible] at hreplay
    obtain ⟨hopens, hholds⟩ := Database.holds_of_new h.before hnew
    obtain ⟨hopens', hholds'⟩ := Database.holds_of_new hafter hnew'
    have hfits : Record.need ⟨[], [0]⟩ ≤ pageRoom := by simp [need_le_pageRoom_iff]
    obtain ⟨e₁, hput, -, heq⟩ := hholds.put
      (by rw [(Session.opened_frame _ _ _).2.1]) ⟨[], [0]⟩
    rw [if_pos hfits] at heq
    have hcall : Database.call (.put [] [0]) e = .ok none e₁ := by
      simp only [Database.call, bind, EStateM.bind, heq]
      rfl
    obtain ⟨e₁', hcall', hsame₁⟩ := hsame'.call hcall
    obtain ⟨-, hholds₁', -⟩ := hholds'.call_ok hopens'.frame_opened hcall'
    have hwrote := (Session.wrote_opened hopens h.log).put hfits
    have hshows₁ := (hput hfits).shows_files
    have hshows₁' := hholds₁'.shows_files
    obtain ⟨-, f, hf, -⟩ := hshows₁.opens hwrote.log hwrote.fits ⟨1, 1, false⟩ le_rfl le_rfl
    obtain ⟨f', hf', hsame₂⟩ := hsame₁.reopen hf
    have hget := hsame₂.answers hshows₁ hshows₁' hf hf' []
    obtain ⟨hpager, hlog⟩ := Session.stream_opened ⟨1, 1, false⟩ (s.pager.pages ++ [[]])
      (s.log ++ WalManager.frameBytes (u64 (s.lsn + 1)) r.key r.value)
    obtain ⟨s', hs'⟩ : ∃ s', Session.opened ⟨1, 1, false⟩ (s.pager.pages ++ [[]])
      (s.log ++ WalManager.frameBytes (u64 (s.lsn + 1)) r.key r.value) = s' := ⟨_, rfl⟩
    rw [hs'] at hpager hlog hget
    have hunread : Session.replayable (s'.after (.put [] [0])).log = [] := by
      show Session.replayable (s'.log ++ WalManager.frameBytes (u64 (s'.lsn + 1)) [] [0]) = []
      rw [hlog, List.append_assoc, h.log.replayable_frame (u64_lt _), if_neg hlegible]
    have hempty : (s'.after (.put [] [0])).pager.pages.flatten = [] := by
      show (Pager.append Record.need pageRoom s'.pager ⟨[], [0]⟩).2.pages.flatten = []
      rw [hpager, hreplay, Pager.appendAll_nil]
      rcases Pager.append_cases Record.need pageRoom ⟨s.pager.pages ++ [[]], []⟩ ⟨[], [0]⟩ with
        ⟨-, -, heq⟩ | ⟨-, -, heq⟩ | ⟨-, heq⟩
      · rw [heq]
        simp [hpages]
      · rw [heq]
        simp [hpages]
      · rw [heq]
        simp [hpages]
    rw [hwrote.log.replayable, cachedValue_last [] ⟨[], [0]⟩, hunread,
      addressed_of_flatten_nil hempty] at hget
    exact absurd hget (by simp [entries, lruUses, cachedValue])

end RefusedPut

/-! ## Failed puts -/

/-- If this put throws, nothing tells that it was called. -/
def FailsHarmlessly (db : Database) (key value : Bytes) : Prop :=
  ∀ what db', Database.put key value db = .error (.runtimeError what) db' → NoEffect db db'

/-- A put that throws in a session in which nothing has thrown before. -/
theorem SessionState.refusedPut {cfg : Config} {disk : Disk} {pages : List (List Record)}
    {logged puts : List Record} {copies : List Nat} {db : Database}
    (hfiles : LivedFiles disk pages logged copies) (h : SessionState cfg disk db puts) {r : Record}
    (hr : ¬Record.need r ≤ pageRoom) :
    ∃ s db', db.Holds (fun _ => 0) s ∧ s.Wrote (logged ++ puts) pages ∧
      Database.put r.key r.value db =
        .error (.runtimeError "Record too large for a single page!") db' ∧
      RefusedPut db db' s (logged ++ puts) r := by
  obtain ⟨s, hholds, hwrote, -⟩ := h.wrote hfiles.shows hfiles.log
  obtain ⟨db', hput, hafter⟩ := hholds.put_refused hr
  exact ⟨s, db', hholds, hwrote, hput, hholds.shows_files, hafter, hwrote.log, hwrote.fits, hr⟩

/-- **When a failed put has no effect.** Behind any sessions, closed or crashed, and in every state of a
session in which nothing has thrown before: a put of a record that fits a page does not throw, and,
for lengths below 2^16 or a data file below 2^20 pages, a put of any other record throws and can be
told from its absence. -/
theorem failed_put_harmless_iff {disk : Disk} {pages : List (List Record)} {logged : List Record}
    {copies : List Nat} (hlived : Lived AnyCrash disk pages logged copies) {cfg : Config}
    {db : Database} {puts : List Record} (hstate : SessionState cfg disk db puts)
    (key value : Bytes) :
    (Record.need ⟨key, value⟩ ≤ pageRoom → FailsHarmlessly db key value) ∧
      (key.length < 2 ^ 16 ∧ value.length < 2 ^ 16 ∨
          (db.files.data.getD []).length < 2 ^ 20 * PAGE_SIZE →
        (FailsHarmlessly db key value ↔ Record.need ⟨key, value⟩ ≤ pageRoom)) := by
  have hfiles := hlived.files
  have hharmless : Record.need ⟨key, value⟩ ≤ pageRoom → FailsHarmlessly db key value := by
    intro hfits what db' hput
    obtain ⟨s, hholds, -⟩ := hstate.wrote hfiles.shows hfiles.log
    exact absurd hput (hholds.put_of_fits (r := ⟨key, value⟩) hfits)
  refine ⟨hharmless, fun hsize => ⟨?_, hharmless⟩⟩
  intro hfails
  by_contra hr
  obtain ⟨s, db', hholds, hwrote, hput, hrefused⟩ := hstate.refusedPut hfiles hr
  have hsame := hfails _ _ hput
  rcases hsize with hshort | hsmall
  · exact hrefused.seen_of_short hshort hsame
  · by_cases hnone : logged ++ puts = []
    · -- nothing was put, so nothing is on the pages
      obtain ⟨rfl, rfl⟩ := List.append_eq_nil_iff.mp hnone
      have hflatten : pages.flatten = [] := by
        apply List.eq_nil_iff_forall_not_mem.mpr
        intro x hx
        have hcopy : some x ∈ pages.flatten.map some := List.mem_map_of_mem hx
        rw [hfiles.copied] at hcopy
        obtain ⟨i, -, hi⟩ := List.mem_map.mp hcopy
        exact absurd hi (by simp)
      have hpager := hwrote.pager
      rw [List.append_nil, Pager.appendAll_nil] at hpager
      rw [List.append_nil] at hrefused
      exact hrefused.seen_of_new (by rw [hpager]; exact hflatten) (by rw [hpager]) hsame
    · have hcur : s.pager.cur ≠ [] := by
        rw [hwrote.pager]
        exact Pager.cur_appendAll_ne_nil hwrote.fits hnone
      have hlen := hrefused.before.data.length_eq
      rw [List.length_nil, Nat.zero_add] at hlen
      rw [hlen] at hsmall
      exact hrefused.seen_of_open_page hcur (Nat.lt_of_mul_lt_mul_right hsmall) hsame

/-- A put of a record that fits, in a new database. -/
theorem failed_put_harmless_iff_fitting :
    ∃ db, Database.new ⟨1, 1, false⟩ Disk.empty = .ok db ∧ FailsHarmlessly db [1] [2] := by
  obtain ⟨-, db, hnew, -⟩ := cleanFiles_empty.opens ⟨1, 1, false⟩ le_rfl le_rfl
  exact ⟨db, hnew, (failed_put_harmless_iff Lived.new (SessionState.opened hnew) [1] [2]).1
    (by simp [need_le_pageRoom_iff])⟩

/-- A record of one byte too many in a new database: behind a crash the database cannot be opened any
more, and without the put it can. -/
theorem failed_put_stops_constructor :
    ∃ db db' out e, Lived AnyCrash Disk.empty [] [] [] ∧
      SessionState ⟨1, 1, false⟩ Disk.empty db [] ∧
      Database.put [1] (List.replicate 4021 0) db =
        .error (.runtimeError "Record too large for a single page!") db' ∧
      Database.new ⟨1, 1, false⟩ db'.files = .error out ∧
      Database.new ⟨1, 1, false⟩ db.files = .ok e ∧
      ¬FailsHarmlessly db [1] (List.replicate 4021 0) := by
  obtain ⟨-, db, hnew, -⟩ := cleanFiles_empty.opens ⟨1, 1, false⟩ le_rfl le_rfl
  have hlived : Lived AnyCrash Disk.empty [] [] [] := Lived.new
  have hstate := SessionState.opened hnew
  have hlong : ∀ value : Bytes, value.length = 4021 → ¬Record.need ⟨[1], value⟩ ≤ pageRoom := by
    intro value hlen
    rw [need_le_pageRoom_iff]
    show ¬1 + value.length ≤ 4021
    omega
  have hr := hlong (List.replicate 4021 0) List.length_replicate
  have hshort : ([1] : Bytes).length < 2 ^ 16 ∧ (List.replicate 4021 (0 : UInt8)).length < 2 ^ 16 :=
    ⟨by decide, lt_of_eq_of_lt List.length_replicate (by decide)⟩
  obtain ⟨s, db', -, -, hput, hrefused⟩ := hstate.refusedPut hlived.files hr
  obtain ⟨out, hthrows⟩ := hrefused.reopen_throws hshort ⟨1, 1, false⟩
  obtain ⟨e, hopens⟩ := hrefused.opens
  exact ⟨db, db', out, e, hlived, hstate, hput, hthrows, hopens,
    fun hfails => hrefused.seen_of_short hshort (hfails _ _ hput)⟩

end Aqa
