/-
# Aqa.Db.CleanSessions — sessions that are opened, used and closed.

`ClosedCleanly disk history` says that the files on disk are the work of sessions that were all
closed normally, in which no call threw, and which put `history`. Such files hold a log of exactly
these puts (`Logged`) and pages whose newest record of each key is the newest put of it
(`UpToDate`): every open appends the whole history again, behind whatever was there.
-/
import Aqa.Db.Opening

namespace Aqa

open Aqa.Lib StorageReader

/-- The puts of some records. -/
def entries (recs : List Record) : List (Bytes × Bytes) := recs.map Record.entry

theorem entries_append (recs more : List Record) :
    entries (recs ++ more) = entries recs ++ entries more := List.map_append

theorem keys_entries (recs : List Record) : (entries recs).map Prod.fst = recs.map Record.key := by
  unfold entries
  rw [List.map_map]
  rfl

/-! ## The log -/

/-- The log consists of the frames of these records. -/
def Logged (log : Bytes) (recs : List Record) : Prop :=
  ∃ frames : List WalRecord, log = WalManager.walFraming.encodeAll frames ∧
    (∀ f ∈ frames, WalManager.FitsHeader f) ∧ frames.map WalRecord.record = recs

theorem logged_nil : Logged [] [] := ⟨[], rfl, by simp, rfl⟩

theorem Logged.replayable {log : Bytes} {recs : List Record} (h : Logged log recs) :
    Session.replayable log = recs := by
  obtain ⟨frames, rfl, hfits, rfl⟩ := h
  rw [Session.replayable, WalManager.readable, Framing.readAll_encodeAll hfits]

/-- A record that fits a page has a frame that can be read. -/
theorem Logged.append {log : Bytes} {recs : List Record} (h : Logged log recs) {r : Record}
    (hr : Record.need r ≤ pageRoom) (n : Nat) :
    Logged (log ++ WalManager.frameBytes (u64 n) r.key r.value) (recs ++ [r]) := by
  obtain ⟨frames, rfl, hfits, rfl⟩ := h
  rw [need_le_pageRoom_iff] at hr
  refine ⟨frames ++ [⟨u64 n, r.key, r.value⟩], ?_, ?_, by simp [WalRecord.record]⟩
  · rw [Framing.encodeAll_append, Framing.encodeAll_cons, Framing.encodeAll_nil, List.append_nil]
    rfl
  · intro f hf
    rcases List.mem_append.mp hf with hf | hf
    · exact hfits f hf
    · rw [List.mem_singleton.mp hf]
      exact ⟨u64_lt n, by simp only; omega, by simp only; omega⟩

/-! ## Calls -/

/-- A call of a client. -/
inductive DbCall where
  | put (key value : Bytes)
  | get (key : Bytes)
  deriving DecidableEq, Repr

/-- The puts among some calls. -/
def putsOf (calls : List DbCall) : List Record :=
  calls.filterMap fun
    | .put key value => some ⟨key, value⟩
    | .get _ => none

namespace Database

/-- One call, with what a get returns. -/
def call : DbCall → EStateM Error Database (Option Bytes)
  | .put key value => do
      put key value
      pure none
  | .get key => get key

/-- Calls one after the other, up to the first exception. -/
def calls : List DbCall → EStateM Error Database (List (Option Bytes))
  | [] => pure []
  | c :: cs => do
      let a ← call c
      let as ← calls cs
      pure (a :: as)

end Database

/-- The files left by sessions that were closed normally and in which nothing threw. -/
inductive ClosedCleanly : Disk → List Record → Prop where
  | new : ClosedCleanly Disk.empty []
  | session {disk : Disk} {history : List Record} {cfg : Config} {db db' : Database}
      {cs : List DbCall} {answers : List (Option Bytes)} :
      ClosedCleanly disk history → Database.new cfg disk = .ok db →
      Database.calls cs db = .ok answers db' → ClosedCleanly db'.destroy (history ++ putsOf cs)

namespace Session

/-- What a call does to a session. -/
def after (s : Session) : DbCall → Session
  | .put key value => s.put ⟨key, value⟩
  | .get key => s.got key

/-- What a call returns. -/
def returns (s : Session) : DbCall → Option Bytes
  | .put _ _ => none
  | .get key => s.answer key

/-- What calls do to a session. -/
def run (s : Session) (cs : List DbCall) : Session := cs.foldl after s

theorem got_frame (s : Session) (key : Bytes) :
    (s.got key).mapped = s.mapped ∧ (s.got key).pager = s.pager ∧ (s.got key).log = s.log ∧
      (s.got key).lsn = s.lsn ∧ (s.got key).placed = s.placed ∧
      (s.got key).capacity = s.capacity ∧ (s.got key).frames = s.frames := by
  unfold got
  split <;> exact ⟨rfl, rfl, rfl, rfl, rfl, rfl, rfl⟩

/-- Calls leave the mapping and the sizes alone. -/
theorem run_frame (s : Session) (cs : List DbCall) :
    (s.run cs).mapped = s.mapped ∧ (s.run cs).capacity = s.capacity ∧
      (s.run cs).frames = s.frames := by
  induction cs generalizing s with
  | nil => exact ⟨rfl, rfl, rfl⟩
  | cons c cs ih =>
      obtain ⟨hmapped, hcap, hframes⟩ := ih (s.after c)
      have hstep : (s.after c).mapped = s.mapped ∧ (s.after c).capacity = s.capacity ∧
          (s.after c).frames = s.frames := by
        cases c with
        | put key value => exact ⟨rfl, rfl, rfl⟩
        | get key =>
            obtain ⟨h₁, -, -, -, -, h₂, h₃⟩ := s.got_frame key
            exact ⟨h₁, h₂, h₃⟩
      exact ⟨hmapped.trans hstep.1, hcap.trans hstep.2.1, hframes.trans hstep.2.2⟩

/-- The pages and the log of a session, with the records put into it so far. -/
structure Wrote (s : Session) (recs : List Record) (pages : List (List Record)) : Prop where
  pager : s.pager = Pager.appendAll Record.need pageRoom ⟨pages, []⟩ recs
  fits : ∀ r ∈ recs, Record.need r ≤ pageRoom
  log : Logged s.log recs

end Session

namespace Database.Holds

variable {db db' : Database} {s : Session}

/-- A put that returns was of a record that fits, into a cache with a place. -/
theorem put_ok {pins : Nat → Nat} (h : db.Holds pins s) {r : Record}
    (heq : Database.put r.key r.value db = .ok () db') :
    Record.need r ≤ pageRoom ∧ 1 ≤ s.capacity ∧ db'.Holds pins (s.put r) := by
  by_cases hcap : 1 ≤ s.capacity
  · obtain ⟨db₁, hholds, -, hput⟩ := h.put hcap r
    rw [heq] at hput
    by_cases hfits : Record.need r ≤ pageRoom
    · rw [if_pos hfits] at hput
      cases hput
      exact ⟨hfits, hcap, hholds hfits⟩
    · rw [if_neg hfits] at hput
      exact absurd hput (by simp)
  · exfalso
    obtain ⟨db₀, heq₀, h₀⟩ := h.walAppend r.key r.value
    obtain ⟨db₁, h₁, heq₁⟩ := h₀.writerAppend r
    by_cases hfits : Record.need r ≤ pageRoom
    · rw [if_pos hfits] at heq₁
      obtain ⟨db₂, heq₂, h₂⟩ := h₁.indexInsert r.key
        (StorageWriter.lastRid 0 ((s.logged r.key r.value).appended r).pager)
      have heq₃ := h₂.cachePut_without_place (Nat.eq_zero_of_not_pos hcap) r.key r.value
      simp only [Database.put, bind, EStateM.bind, heq₀, heq₁, heq₂, heq₃] at heq
      exact absurd heq (by simp)
    · rw [if_neg hfits] at heq₁
      simp only [Database.put, bind, EStateM.bind, heq₀, heq₁] at heq
      exact absurd heq (by simp)

/-- A get that returns gives the answer of the session, whatever the record cache has room for. -/
theorem get_ok (h : db.Holds (fun _ => 0) s) (hf : s.total = 0 ∨ 0 < s.frames) {key : Bytes}
    {a : Option Bytes} (heq : Database.get key db = .ok a db') :
    a = s.answer key ∧ db'.Holds (fun _ => 0) (s.got key) := by
  by_cases hcap : s.found key ≠ none → 1 ≤ s.capacity
  · obtain ⟨db₁, hget, hholds⟩ := h.get hf hcap
    rw [heq] at hget
    cases hget
    exact ⟨rfl, hholds⟩
  · obtain ⟨hfound, hzero⟩ := Classical.not_imp.mp hcap
    obtain ⟨err, db₁, hget⟩ := h.get_without_place hf (Nat.eq_zero_of_not_pos hzero) hfound
    rw [heq] at hget
    exact absurd hget (by simp)

theorem call_ok (h : db.Holds (fun _ => 0) s) (hf : s.total = 0 ∨ 0 < s.frames) {c : DbCall}
    {a : Option Bytes} (heq : Database.call c db = .ok a db') :
    a = s.returns c ∧ db'.Holds (fun _ => 0) (s.after c) ∧
      ∀ r ∈ putsOf [c], Record.need r ≤ pageRoom := by
  cases c with
  | put key value =>
      simp only [Database.call, bind, EStateM.bind] at heq
      cases hput : Database.put key value db with
      | error err db₁ =>
          rw [hput] at heq
          exact absurd heq (by simp)
      | ok u db₁ =>
          rw [hput] at heq
          cases heq
          obtain ⟨hfits, -, hholds⟩ := h.put_ok (r := ⟨key, value⟩) hput
          refine ⟨rfl, hholds, ?_⟩
          intro r hr
          simp only [putsOf, List.filterMap_cons, List.filterMap_nil, List.mem_singleton] at hr
          rw [hr]
          exact hfits
  | get key =>
      obtain ⟨ha, hholds⟩ := h.get_ok hf heq
      exact ⟨ha, hholds, by simp [putsOf]⟩

/-- With a place in the record cache calls return as long as they put what fits. -/
theorem calls_of_fits (cs : List DbCall) :
    ∀ {db : Database} {s : Session}, db.Holds (fun _ => 0) s → (s.total = 0 ∨ 0 < s.frames) →
      1 ≤ s.capacity → (∀ r ∈ putsOf cs, Record.need r ≤ pageRoom) →
      ∃ answers db', Database.calls cs db = .ok answers db' ∧
        db'.Holds (fun _ => 0) (s.run cs) := by
  induction cs with
  | nil =>
      intro db s h _ _ _
      exact ⟨[], db, rfl, h⟩
  | cons c cs ih =>
      intro db s h hf hcap hfits
      obtain ⟨hmapped, hcapacity, hframes⟩ := s.run_frame [c]
      have hf₁ : (s.after c).total = 0 ∨ 0 < (s.after c).frames := by
        rw [show (s.after c).total = s.total from
          congrArg (fun m : List (List Record) => u32 m.length) hmapped,
          show (s.after c).frames = s.frames from hframes]
        exact hf
      have hcap₁ : 1 ≤ (s.after c).capacity := hcapacity.symm ▸ hcap
      have hfits₁ : ∀ r ∈ putsOf cs, Record.need r ≤ pageRoom := by
        intro r hr
        apply hfits r
        rw [show c :: cs = [c] ++ cs from rfl, putsOf, List.filterMap_append]
        exact List.mem_append_right _ hr
      have hcall : ∃ a db₁, Database.call c db = .ok a db₁ ∧
          db₁.Holds (fun _ => 0) (s.after c) := by
        cases c with
        | put key value =>
            have hr : Record.need ⟨key, value⟩ ≤ pageRoom := hfits _ (by simp [putsOf])
            obtain ⟨db₁, hholds, -, heq⟩ := h.put hcap ⟨key, value⟩
            rw [if_pos hr] at heq
            refine ⟨none, db₁, ?_, hholds hr⟩
            simp only [Database.call, bind, EStateM.bind, heq]
            rfl
        | get key =>
            obtain ⟨db₁, heq, hholds⟩ := h.get hf fun _ : s.found key ≠ none => hcap
            exact ⟨_, db₁, heq, hholds⟩
      obtain ⟨a, db₁, heq₁, h₁⟩ := hcall
      obtain ⟨as, db₂, heq₂, h₂⟩ := ih h₁ hf₁ hcap₁ hfits₁
      refine ⟨a :: as, db₂, ?_, h₂⟩
      simp only [Database.calls, bind, EStateM.bind, heq₁, heq₂]
      rfl

/-- Calls that all return give what the session gives, and put only what fits. -/
theorem calls_ok (cs : List DbCall) :
    ∀ {db db' : Database} {s : Session} {answers : List (Option Bytes)},
      db.Holds (fun _ => 0) s → (s.total = 0 ∨ 0 < s.frames) →
      Database.calls cs db = .ok answers db' →
      answers.length = cs.length ∧ db'.Holds (fun _ => 0) (s.run cs) ∧
        (∀ r ∈ putsOf cs, Record.need r ≤ pageRoom) ∧
        ∀ i c a, cs[i]? = some c → answers[i]? = some a → a = (s.run (cs.take i)).returns c := by
  induction cs with
  | nil =>
      intro db db' s answers h hf heq
      cases heq
      exact ⟨rfl, h, by simp [putsOf], by simp⟩
  | cons c cs ih =>
      intro db db' s answers h hf heq
      simp only [Database.calls, bind, EStateM.bind] at heq
      cases hcall : Database.call c db with
      | error err db₁ =>
          rw [hcall] at heq
          exact absurd heq (by simp)
      | ok a db₁ =>
          rw [hcall] at heq
          simp only at heq
          cases hcalls : Database.calls cs db₁ with
          | error err db₂ =>
              rw [hcalls] at heq
              exact absurd heq (by simp)
          | ok as db₂ =>
              rw [hcalls] at heq
              cases heq
              obtain ⟨ha, h₁, hput⟩ := h.call_ok hf hcall
              obtain ⟨hmapped, -, hframes⟩ := s.run_frame [c]
              have hf₁ : (s.after c).total = 0 ∨ 0 < (s.after c).frames := by
                have htotal : (s.after c).total = s.total :=
                  congrArg (fun m : List (List Record) => u32 m.length) hmapped
                rw [htotal, show (s.after c).frames = s.frames from hframes]
                exact hf
              obtain ⟨hlen, h₂, hputs, hreturns⟩ := ih h₁ hf₁ hcalls
              refine ⟨by rw [List.length_cons, List.length_cons, hlen], h₂, ?_, ?_⟩
              · intro r hr
                rw [show c :: cs = [c] ++ cs from rfl, putsOf, List.filterMap_append] at hr
                rcases List.mem_append.mp hr with hr | hr
                · exact hput r hr
                · exact hputs r hr
              · intro i c' a' hc' ha'
                cases i with
                | zero =>
                    simp only [List.getElem?_cons_zero, Option.some.injEq] at hc' ha'
                    subst hc' ha'
                    exact ha
                | succ i => exact hreturns i c' a' hc' ha'

end Database.Holds

/-! ## Pages and log of a session -/

namespace Session

variable {s : Session} {recs : List Record} {pages : List (List Record)} {log : Bytes}

/-- The pages and the log of a session that was opened. -/
theorem stream_opened (cfg : Config) (pages : List (List Record)) (log : Bytes) :
    (opened cfg pages log).pager =
        Pager.appendAll Record.need pageRoom ⟨pages, []⟩ (replayable log) ∧
      (opened cfg pages log).log = log := by
  have hpager := pager_replayed (start cfg pages log) (replayable log)
  have hlog := (replayed_frame (start cfg pages log) (replayable log)).2.1
  unfold opened recovered
  split <;> exact ⟨hpager, hlog⟩

theorem wrote_opened {cfg : Config} (hopens : Opens cfg pages log) (hlog : Logged log recs) :
    (opened cfg pages log).Wrote recs pages := by
  obtain ⟨hpager, hsame⟩ := stream_opened cfg pages log
  have hfits := hopens.fits
  rw [hlog.replayable] at hpager hfits
  exact ⟨hpager, hfits, by rw [hsame]; exact hlog⟩

theorem Wrote.put (h : s.Wrote recs pages) {r : Record} (hr : Record.need r ≤ pageRoom) :
    (s.put r).Wrote (recs ++ [r]) pages where
  pager := by
    rw [Pager.appendAll_concat, ← h.pager]
    rfl
  fits := by
    intro x hx
    rcases List.mem_append.mp hx with hx | hx
    · exact h.fits x hx
    · rw [List.mem_singleton.mp hx]
      exact hr
  log := h.log.append hr _

theorem Wrote.got (h : s.Wrote recs pages) (key : Bytes) : (s.got key).Wrote recs pages := by
  obtain ⟨-, hpager, hlog, -⟩ := s.got_frame key
  exact ⟨hpager.trans h.pager, h.fits, by rw [hlog]; exact h.log⟩

theorem Wrote.run (h : s.Wrote recs pages) {cs : List DbCall}
    (hfits : ∀ r ∈ putsOf cs, Record.need r ≤ pageRoom) :
    (s.run cs).Wrote (recs ++ putsOf cs) pages := by
  induction cs generalizing s recs with
  | nil =>
      show s.Wrote (recs ++ []) pages
      rw [List.append_nil]
      exact h
  | cons c cs ih =>
      cases c with
      | put key value =>
          have hputs : putsOf (.put key value :: cs) = ⟨key, value⟩ :: putsOf cs := rfl
          rw [hputs] at hfits ⊢
          have := ih (h.put (r := ⟨key, value⟩) (hfits _ (by simp)))
            fun r hr => hfits r (List.mem_cons_of_mem _ hr)
          rwa [List.append_assoc, List.singleton_append] at this
      | get key => exact ih (h.got key) hfits

end Session

theorem flatten_flushed {α : Type} (n : Nat) (p : Pager α) :
    (StorageWriter.flushed n p).flatten = p.contents := by
  unfold StorageWriter.flushed Pager.contents
  split
  · simp
  · rename_i hcond
    have hnil : p.cur = [] := by
      by_contra hne
      exact hcond (Or.inl hne)
    rw [hnil, List.append_nil]

/-- The records a session leaves on the pages: those that were there, the replayed ones and its
own. -/
theorem Session.Wrote.flatten_flushed {s : Session} {recs : List Record}
    {pages : List (List Record)} (h : s.Wrote recs pages) :
    (StorageWriter.flushed 0 s.pager).flatten = pages.flatten ++ recs := by
  rw [Aqa.flatten_flushed, h.pager, Pager.contents_appendAll_of_fits h.fits]
  simp [Pager.contents]

/-! ## Closed files -/

/-- The newest record of each key on the pages is the newest put of it. -/
def UpToDate (pages : List (List Record)) (history : List Record) : Prop :=
  ∀ k, lastWrite (entries pages.flatten) k = lastWrite (entries history) k

theorem UpToDate.keys_iff {pages : List (List Record)} {history : List Record}
    (h : UpToDate pages history) (k : Bytes) :
    k ∈ pages.flatten.map Record.key ↔ k ∈ history.map Record.key := by
  rw [← keys_entries, ← keys_entries, ← lastWrite_isSome_iff, ← lastWrite_isSome_iff, h k]

/-- A history that is written again, with more behind it, makes the pages up to date again. -/
theorem UpToDate.rewrite {pages : List (List Record)} {history : List Record}
    (h : UpToDate pages history) {pages' : List (List Record)} {more : List Record}
    (hpages : pages'.flatten = pages.flatten ++ (history ++ more)) :
    UpToDate pages' (history ++ more) := by
  intro k
  rw [hpages, entries_append]
  apply lastWrite_append_of_subset
  rw [keys_entries, keys_entries, List.map_append]
  intro j hj
  exact List.mem_append_left _ ((h.keys_iff j).mp hj)

/-- **What clean sessions leave on disk**: the history in the log, and pages up to date with it. -/
structure CleanFiles (disk : Disk) (pages : List (List Record)) (history : List Record) : Prop where
  shows : disk.Shows pages (disk.wal.getD [])
  logged : Logged (disk.wal.getD []) history
  fits : ∀ r ∈ history, Record.need r ≤ pageRoom
  upToDate : UpToDate pages history

theorem cleanFiles_empty : CleanFiles Disk.empty [] [] where
  shows := Disk.shows_empty
  logged := logged_nil
  fits := by simp
  upToDate _ := rfl

theorem CleanFiles.destroy {disk : Disk} {pages : List (List Record)} {history more : List Record}
    (h : CleanFiles disk pages history) {db : Database} {pins : Nat → Nat} {s : Session}
    (hdb : db.Holds pins s) (hs : s.Wrote (history ++ more) pages) :
    CleanFiles db.destroy (StorageWriter.flushed 0 s.pager) (history ++ more) := by
  have hshows := hdb.shows_destroy
  refine ⟨?_, ?_, hs.fits, h.upToDate.rewrite hs.flatten_flushed⟩
  · rw [hshows.wal]
    exact hshows
  · rw [hshows.wal]
    exact hs.log

/-- With a place in each cache the files of puts that fit can be opened. -/
theorem Disk.Shows.opens {disk : Disk} {pages : List (List Record)} {log : Bytes}
    {logged : List Record} (h : disk.Shows pages log) (hlog : Logged log logged)
    (hfits : ∀ r ∈ logged, Record.need r ≤ pageRoom) (cfg : Config)
    (hframes : 1 ≤ cfg.cacheSizePages) (hplaces : 1 ≤ cfg.recordCacheSize) :
    Session.Opens cfg pages log ∧ ∃ db, Database.new cfg disk = .ok db ∧
      db.Holds (fun _ => 0) (Session.opened cfg pages log) := by
  have hopens : Session.Opens cfg pages log := by
    refine ⟨?_, fun _ => hplaces, fun _ => hframes⟩
    rw [hlog.replayable]
    exact hfits
  rcases Database.new_cases cfg h with ⟨-, hdb⟩ | ⟨hnot, -⟩
  · exact ⟨hopens, hdb⟩
  · exact absurd hopens hnot

theorem CleanFiles.opens {disk : Disk} {pages : List (List Record)} {history : List Record}
    (h : CleanFiles disk pages history) (cfg : Config) (hframes : 1 ≤ cfg.cacheSizePages)
    (hplaces : 1 ≤ cfg.recordCacheSize) :
    Session.Opens cfg pages (disk.wal.getD []) ∧ ∃ db, Database.new cfg disk = .ok db ∧
      db.Holds (fun _ => 0) (Session.opened cfg pages (disk.wal.getD [])) :=
  h.shows.opens h.logged h.fits cfg hframes hplaces

/-- A session of calls that put what fits can be added to clean files. -/
theorem CleanFiles.session {disk : Disk} {pages : List (List Record)} {history : List Record}
    (h : CleanFiles disk pages history) (hclosed : ClosedCleanly disk history) (cfg : Config)
    (hframes : 1 ≤ cfg.cacheSizePages) (hplaces : 1 ≤ cfg.recordCacheSize) (cs : List DbCall)
    (hfits : ∀ r ∈ putsOf cs, Record.need r ≤ pageRoom) :
    ∃ disk', ClosedCleanly disk' (history ++ putsOf cs) ∧
      CleanFiles disk' (StorageWriter.flushed 0
        (Pager.appendAll Record.need pageRoom ⟨pages, []⟩ (history ++ putsOf cs)))
        (history ++ putsOf cs) := by
  obtain ⟨hopens, db, hnew, hdb⟩ := h.opens cfg hframes hplaces
  obtain ⟨-, hcapacity, -⟩ := Session.opened_frame cfg pages (disk.wal.getD [])
  obtain ⟨answers, db', hcalls, hdb'⟩ := hdb.calls_of_fits cs hopens.frame_opened
    (by rw [hcapacity]; exact hplaces) hfits
  have hwrote := (Session.wrote_opened hopens h.logged).run hfits
  have hfiles := h.destroy hdb' hwrote
  rw [hwrote.pager] at hfiles
  exact ⟨_, hclosed.session hnew hcalls, hfiles⟩

theorem ClosedCleanly.cleanFiles {disk : Disk} {history : List Record}
    (h : ClosedCleanly disk history) : ∃ pages, CleanFiles disk pages history := by
  induction h with
  | new => exact ⟨[], cleanFiles_empty⟩
  | @session disk history cfg db db' cs answers _ hnew hcalls ih =>
      obtain ⟨pages, hclean⟩ := ih
      obtain ⟨hopens, hholds⟩ := Database.holds_of_new hclean.shows hnew
      have hframe : (Session.opened cfg pages (disk.wal.getD [])).total = 0 ∨
          0 < (Session.opened cfg pages (disk.wal.getD [])).frames := hopens.frame_opened
      obtain ⟨-, hholds', hfits, -⟩ := hholds.calls_ok cs hframe hcalls
      have hwrote := (Session.wrote_opened hopens hclean.logged).run hfits
      exact ⟨_, hclean.destroy hholds' hwrote⟩

end Aqa
