/-
# Aqa.Db.CleanRestart — what a database answers after sessions that were closed.

The index is rebuilt from the pages the engine shows, `Session.seen`; up to 2^20 pages these are the
pages of the file (`seen_eq`), so that the index leads to the newest record of each key. The record
cache was fed with the replayed history and refills with what the pages say. Both know the last put
of each key, and keep knowing it while there are only gets (`Reads.got`).
-/
import Aqa.Db.CleanSessions

namespace Aqa

open Aqa.Lib StorageReader

namespace Session

/-- The records the mapped pages show, in page and slot order. -/
def seen (s : Session) : List Record := s.visited.map Prod.snd

theorem seen_eq {s : Session} (h : s.mapped.length ≤ 2 ^ 20) : s.seen = s.mapped.flatten := by
  have htotal : s.total = s.mapped.length := u32_of_lt (by omega)
  rw [seen, visited, map_snd_visits, htotal, flatMap_shown h]

/-- The index holds what a scan of the mapped pages found. -/
def Rebuilt (s : Session) : Prop := s.placed = s.visited.map fun v => (v.2.key, v.1)

theorem recordAt_of_mem {s : Session} {v : RecordID × Record} (hv : v ∈ s.visited) :
    s.recordAt v.1 = some v.2 := by
  obtain ⟨hp, hr⟩ := mem_visits.mp hv
  rw [recordAt, if_pos hp, hr]

/-- **The index leads to the newest record seen.** -/
theorem Rebuilt.found {s : Session} (h : s.Rebuilt) (k : Bytes) :
    s.found k = lastWrite (entries s.seen) k := by
  -- both sides look for the last visit of the key
  have hplaced : s.placed =
      (s.visited.map fun v => (v.2.key, v)).map fun e => (e.1, e.2.1) := by
    rw [h, List.map_map]
    rfl
  have hentries : entries s.seen =
      (s.visited.map fun v => (v.2.key, v)).map fun e => (e.1, e.2.2.value) := by
    rw [entries, seen, List.map_map, List.map_map]
    rfl
  rw [Session.found, hplaced, hentries, lastWrite_map (fun v : RecordID × Record => v.1),
    lastWrite_map (fun v : RecordID × Record => v.2.value)]
  cases hlast : lastWrite (s.visited.map fun v => (v.2.key, v)) k with
  | none => rfl
  | some v =>
      obtain ⟨w, hw, heq⟩ := List.mem_map.mp (mem_of_lastWrite hlast)
      simp only [Prod.mk.injEq] at heq
      obtain ⟨hkey, rfl⟩ := heq
      simp only [Option.map_some, Option.bind_some, recordAt_of_mem hw, valueFor, if_pos hkey]

theorem Rebuilt.keys {s : Session} (h : s.Rebuilt) :
    s.placed.map Prod.fst = s.seen.map Record.key := by
  rw [h, seen, List.map_map, List.map_map]
  rfl

/-- A database that maps pages has its index from them; one that maps none has what it replayed. -/
theorem rebuilt_opened (cfg : Config) {pages : List (List Record)} {log : Bytes}
    (h : 0 < u32 pages.length ∨ replayable log = []) : (opened cfg pages log).Rebuilt := by
  have htotal : ((start cfg pages log).replayed (replayable log)).counted.total =
      u32 pages.length :=
    congrArg (fun m : List (List Record) => u32 m.length) (replayed_frame _ _).1
  unfold opened recovered
  by_cases hpos : 0 < ((start cfg pages log).replayed (replayable log)).counted.total
  · rw [if_pos hpos]
    rfl
  · rw [if_neg hpos]
    rw [htotal] at hpos
    rw [h.resolve_left hpos, Rebuilt, visited,
      show ((start cfg pages log).replayed []).counted.total = 0 from Nat.eq_zero_of_not_pos hpos]
    rfl

theorem cached_opened (cfg : Config) (pages : List (List Record)) (log : Bytes) :
    (opened cfg pages log).cached =
      lruUses cfg.recordCacheSize [] (entries (replayable log)) := by
  have hrecovered : ∀ s : Session, s.recovered.cached = s.cached := by
    intro s
    unfold recovered
    split <;> rfl
  rw [opened, hrecovered]
  exact cached_replayed (start cfg pages log) (replayable log)

/-! ## Reading only -/

/-- Cache and index know the last write of every key of a history. -/
structure Reads (s : Session) (recs : List Record) : Prop where
  cached : Current s.cached (entries recs)
  found : ∀ k, s.found k = lastWrite (entries recs) k

theorem Reads.answer {s : Session} {recs : List Record} (h : s.Reads recs) (k : Bytes) :
    s.answer k = lastWrite (entries recs) k := by
  rw [Session.answer, h.found]
  cases hcached : cachedValue s.cached k with
  | none => rfl
  | some v => rw [h.cached.newest k v hcached, Option.some_or]

theorem Reads.got {s : Session} {recs : List Record} (h : s.Reads recs) (key : Bytes) :
    (s.got key).Reads recs := by
  have hfound : ∀ k, (s.got key).found k = s.found k := by
    intro k
    obtain ⟨hmapped, -, -, -, hplaced, -⟩ := s.got_frame key
    rw [Session.found, Session.found, hplaced]
    unfold recordAt total
    rw [hmapped]
  refine ⟨?_, fun k => (hfound k).trans (h.found k)⟩
  unfold Session.got
  cases hanswer : s.answer key with
  | none => exact h.cached
  | some v =>
      rw [h.answer] at hanswer
      exact h.cached.read s.capacity hanswer

/-- The index of a database opened on files that clean sessions left behind. -/
theorem rebuilt_of_upToDate (cfg : Config) {pages : List (List Record)} {log : Bytes}
    {history : List Record} (hlog : Logged log history) (hpages : UpToDate pages history)
    (hsize : pages.length < 2 ^ 32) : (opened cfg pages log).Rebuilt := by
  apply rebuilt_opened
  rcases Nat.eq_zero_or_pos pages.length with hzero | hpos
  · right
    rw [hlog.replayable]
    rw [List.length_eq_zero_iff.mp hzero] at hpages
    apply List.map_eq_nil_iff.mp
    apply List.eq_nil_iff_forall_not_mem.mpr
    intro k hk
    exact absurd ((hpages.keys_iff k).mpr hk) (by simp)
  · left
    rw [u32_of_lt hsize]
    exact hpos

/-- The database opened on files that clean sessions left behind. -/
theorem reads_opened {cfg : Config} {pages : List (List Record)} {log : Bytes}
    {history : List Record} (hlog : Logged log history) (hpages : UpToDate pages history)
    (hsize : pages.length ≤ 2 ^ 20) : (opened cfg pages log).Reads history := by
  have hmapped := (opened_frame cfg pages log).1
  have hrebuilt := rebuilt_of_upToDate cfg hlog hpages (by omega)
  refine ⟨?_, fun k => ?_⟩
  · rw [cached_opened, hlog.replayable]
    exact current_lruUses _ _
  · rw [hrebuilt.found, seen_eq (by rw [hmapped]; exact hsize), hmapped, hpages k]

/-- The keys of the index are those of the history. -/
theorem keys_opened {cfg : Config} {pages : List (List Record)} {log : Bytes}
    {history : List Record} (hlog : Logged log history) (hpages : UpToDate pages history)
    (hsize : pages.length ≤ 2 ^ 20) :
    ((opened cfg pages log).placed.map Prod.fst).toFinset = (history.map Record.key).toFinset := by
  have hmapped := (opened_frame cfg pages log).1
  have hrebuilt := rebuilt_of_upToDate cfg hlog hpages (by omega)
  rw [hrebuilt.keys, seen_eq (by rw [hmapped]; exact hsize), hmapped]
  ext k
  rw [List.mem_toFinset, List.mem_toFinset, hpages.keys_iff k]

end Session

/-- Gets one after the other. -/
theorem Session.Reads.calls {history : List Record} (keys : List Bytes) :
    ∀ {db : Database} {s : Session}, db.Holds (fun _ => 0) s → (s.total = 0 ∨ 0 < s.frames) →
      1 ≤ s.capacity → s.Reads history →
      ∃ db', Database.calls (keys.map .get) db =
          .ok (keys.map (lastWrite (entries history))) db' ∧
        db'.index.size = (s.placed.map Prod.fst).toFinset.card := by
  induction keys with
  | nil =>
      intro db s h _ _ _
      exact ⟨db, rfl, h.indexSize⟩
  | cons key keys ih =>
      intro db s h hf hcap hreads
      obtain ⟨hmapped, -, -, -, hplaced, hcapacity, hframes⟩ := s.got_frame key
      obtain ⟨db₁, heq₁, h₁⟩ := h.get hf fun _ : s.found key ≠ none => hcap
      obtain ⟨db₂, heq₂, hsize⟩ := ih h₁ (by
        unfold Session.total
        rw [hmapped, hframes]
        exact hf) (by rw [hcapacity]; exact hcap) (hreads.got key)
      refine ⟨db₂, ?_, by rw [hsize, hplaced]⟩
      simp only [List.map_cons, Database.calls, Database.call, bind, EStateM.bind, heq₁, heq₂,
        hreads.answer key]
      rfl

namespace Database

/-- **A clean restart finds every last put.** After any sessions that were closed normally and in
which nothing threw, on a data file of fewer than 2^20 pages and with any caches, the next open
succeeds, every sequence of gets returns the last put of each key, and the record count is the number
of distinct keys. -/
theorem clean_restart {disk : Disk} {history : List Record} (hclosed : ClosedCleanly disk history)
    (cfg : Config) (hframes : 1 ≤ cfg.cacheSizePages) (hplaces : 1 ≤ cfg.recordCacheSize)
    (hsize : (disk.data.getD []).length < 2 ^ 20 * PAGE_SIZE) :
    ∃ db, new cfg disk = .ok db ∧ ∀ keys : List Bytes, ∃ db',
      calls (keys.map .get) db = .ok (keys.map (lastWrite (entries history))) db' ∧
        db'.getRecordCount = (history.map Record.key).toFinset.card := by
  obtain ⟨pages, hclean⟩ := hclosed.cleanFiles
  have hpages : pages.length ≤ 2 ^ 20 := by
    have hlen := hclean.shows.data.length_eq
    rw [List.length_nil, Nat.zero_add] at hlen
    rw [hlen] at hsize
    exact le_of_lt (Nat.lt_of_mul_lt_mul_right hsize)
  obtain ⟨-, hcapacity, -⟩ := Session.opened_frame cfg pages (disk.wal.getD [])
  obtain ⟨hopens, db, hnew, hdb⟩ := hclean.opens cfg hframes hplaces
  refine ⟨db, hnew, fun keys => ?_⟩
  obtain ⟨db', hcalls, hcount⟩ := Session.Reads.calls keys hdb hopens.frame_opened
    (by rw [hcapacity]; exact hplaces)
    (Session.reads_opened hclean.logged hclean.upToDate hpages)
  refine ⟨db', hcalls, ?_⟩
  rw [getRecordCount, hcount, Session.keys_opened hclean.logged hclean.upToDate hpages]

/-- A key put twice in one session, with room for a single record in the cache of the next. -/
theorem clean_restart_overwritten :
    ∃ disk db, ClosedCleanly disk [⟨[1], [2]⟩, ⟨[1], [3]⟩] ∧
      new ⟨1, 1, false⟩ disk = .ok db ∧ ∀ keys : List Bytes, ∃ db',
        calls (keys.map .get) db =
            .ok (keys.map (lastWrite (entries [⟨[1], [2]⟩, ⟨[1], [3]⟩]))) db' ∧
          db'.getRecordCount = 1 := by
  obtain ⟨disk, hclosed, hfiles⟩ := cleanFiles_empty.session ClosedCleanly.new
    ⟨1, 1, false⟩ le_rfl le_rfl [.put [1] [2], .put [1] [3]]
    (by simp [putsOf, need_le_pageRoom_iff])
  have hlen := hfiles.shows.data.length_eq
  obtain ⟨db, hnew, hgets⟩ := clean_restart hclosed ⟨1, 1, false⟩ le_rfl le_rfl (by
    rw [hlen]
    decide +kernel)
  exact ⟨disk, db, hclosed, hnew, hgets⟩

end Database

end Aqa
