/-
# Aqa.Db.Durability — what is read after a crash.

The database that is opened on the files of a crash answers from the record cache, which the replay
has filled with the last puts, and behind it from the pages that were on disk before the replay.
`crash_durable_iff` says when the two together know every put: when the record cache keeps all keys,
or the pages show the last put of each.
-/
import Aqa.Db.CrashRuns

namespace Aqa

open Aqa.Lib StorageReader

/-! ## Gets one after the other -/

/-- What any sequence of gets answers, and the record count behind it. -/
def Database.AnswersAll (db : Database) (history : List Record) : Prop :=
  ∀ keys : List Bytes, ∃ db',
    Database.calls (keys.map .get) db = .ok (keys.map (lastWrite (entries history))) db' ∧
      db'.getRecordCount = (history.map Record.key).toFinset.card

namespace Session

variable {s : Session}

theorem run_gets_frame (s : Session) (keys : List Bytes) :
    (s.run (keys.map .get)).mapped = s.mapped ∧ (s.run (keys.map .get)).placed = s.placed ∧
      (s.run (keys.map .get)).capacity = s.capacity := by
  induction keys using List.reverseRecOn with
  | nil => exact ⟨rfl, rfl, rfl⟩
  | append_singleton keys key ih =>
      rw [List.map_append, List.map_singleton, run_concat]
      obtain ⟨hmapped, -, -, -, hplaced, hcap, -⟩ := (s.run (keys.map .get)).got_frame key
      exact ⟨hmapped.trans ih.1, hplaced.trans ih.2.1, hcap.trans ih.2.2⟩

/-- What index and pages know of a key does not change. -/
theorem found_run_gets (s : Session) (keys : List Bytes) (k : Bytes) :
    (s.run (keys.map .get)).found k = s.found k := by
  obtain ⟨hmapped, hplaced, -⟩ := s.run_gets_frame keys
  rw [found, found, hplaced]
  unfold recordAt total
  rw [hmapped]

/-- Gets keep what each of them keeps. -/
theorem run_gets_keep (Keeps : Session → Prop) (hgot : ∀ s k, Keeps s → Keeps (s.got k))
    (h : Keeps s) (keys : List Bytes) : Keeps (s.run (keys.map .get)) := by
  induction keys using List.reverseRecOn with
  | nil => exact h
  | append_singleton keys key ih =>
      rw [List.map_append, List.map_singleton, run_concat]
      exact hgot _ key ih

end Session

/-- Answering all gets, said about sessions. -/
theorem Database.Holds.answersAll_iff {db : Database} {s : Session} (h : db.Holds (fun _ => 0) s)
    (hf : s.total = 0 ∨ 0 < s.frames) (hcap : 1 ≤ s.capacity) (history : List Record) :
    db.AnswersAll history ↔
      (∀ (keys : List Bytes) (k : Bytes),
          (s.run (keys.map .get)).answer k = lastWrite (entries history) k) ∧
        (s.placed.map Prod.fst).toFinset.card = (history.map Record.key).toFinset.card := by
  have hrun : ∀ keys : List Bytes, ∃ answers db',
      Database.calls (keys.map .get) db = .ok answers db' ∧ answers.length = keys.length ∧
        (∀ (i : Nat) (k : Bytes) (a : Option Bytes), keys[i]? = some k → answers[i]? = some a →
          a = (s.run ((keys.take i).map .get)).answer k) ∧
        db'.getRecordCount = (s.placed.map Prod.fst).toFinset.card := by
    intro keys
    have hnone : putsOf (keys.map .get) = [] := by
      rw [putsOf, List.filterMap_map]
      exact List.filterMap_eq_nil_iff.mpr fun _ _ => rfl
    obtain ⟨answers, db', heq, -⟩ := h.calls_of_fits (keys.map .get) hf hcap (by simp [hnone])
    obtain ⟨hlen, hholds, -, hanswers⟩ := h.calls_ok _ hf heq
    rw [List.length_map] at hlen
    refine ⟨answers, db', heq, hlen, ?_, ?_⟩
    · intro i k a hk ha
      have hanswer := hanswers i (.get k) a (by rw [List.getElem?_map, hk]; rfl) ha
      rw [← List.map_take] at hanswer
      exact hanswer
    · rw [getRecordCount, hholds.indexSize, (s.run_gets_frame keys).2.1]
  constructor
  · intro hall
    constructor
    · intro keys k
      obtain ⟨answers, db₁, heq₁, hlen, hanswers, -⟩ := hrun (keys ++ [k])
      obtain ⟨db₂, heq₂, -⟩ := hall (keys ++ [k])
      rw [heq₁] at heq₂
      cases heq₂
      have hlast := hanswers keys.length k (lastWrite (entries history) k) (by simp) (by simp)
      rw [List.take_left] at hlast
      exact hlast.symm
    · obtain ⟨answers, db₁, heq₁, -, -, hcount⟩ := hrun []
      obtain ⟨db₂, heq₂, hcard⟩ := hall []
      rw [heq₁] at heq₂
      cases heq₂
      exact hcount.symm.trans hcard
  · rintro ⟨hanswer, hcard⟩ keys
    obtain ⟨answers, db', heq, hlen, hanswers, hcount⟩ := hrun keys
    refine ⟨db', ?_, hcount.trans hcard⟩
    rw [heq]
    congr 1
    apply List.ext_getElem (by rw [hlen, List.length_map])
    intro i hi hi'
    rw [List.length_map] at hi'
    rw [hanswers i keys[i] answers[i] (List.getElem?_eq_getElem hi') (List.getElem?_eq_getElem hi),
      hanswer, List.getElem_map]

/-! ## Keys that stay in the record cache -/

/-- The record cache holds the last write of every key, and the pages show no other key. -/
structure Session.Remembers (s : Session) (recs : List Record) : Prop where
  current : Current s.cached (entries recs)
  keys : ∀ k, k ∈ s.cached.map Prod.fst ↔ k ∈ recs.map Record.key
  room : s.cached.length ≤ s.capacity
  unknown : ∀ k, k ∉ recs.map Record.key → s.found k = none

namespace Session.Remembers

variable {s : Session} {recs : List Record}

theorem answer (h : s.Remembers recs) (k : Bytes) : s.answer k = lastWrite (entries recs) k := by
  rw [Session.answer]
  cases hcached : cachedValue s.cached k with
  | some v => rw [h.current.newest k v hcached, Option.some_or]
  | none =>
      have hnot := mt (h.keys k).mpr ((cachedValue_eq_none_iff _ _).mp hcached)
      rw [h.unknown k hnot, Option.none_or, eq_comm, lastWrite_eq_none_iff, keys_entries]
      exact hnot

/-- A get uses a key that is in the cache already. -/
theorem got (h : s.Remembers recs) (key : Bytes) : (s.got key).Remembers recs := by
  have hfound : ∀ k, (s.got key).found k = s.found k := s.found_run_gets [key]
  unfold Session.got
  cases hanswer : s.answer key with
  | none => exact h
  | some v =>
      rw [h.answer] at hanswer
      have hmem : key ∈ s.cached.map Prod.fst := by
        rw [h.keys, ← keys_entries, ← lastWrite_isSome_iff, hanswer]
        rfl
      refine ⟨h.current.read s.capacity hanswer, ?_, length_lruPut_le _ _ _ _, h.unknown⟩
      intro k
      rw [← h.keys k]
      exact mem_keys_lruPut_of_mem h.current.nodup h.room hmem v k

end Session.Remembers

/-! ## Keys that leave the record cache -/

/-- While every get is answered, gets of keys of the history use them. -/
theorem Session.cached_run_gets {s : Session} {recs : List Record}
    (hnodup : (s.cached.map Prod.fst).Nodup)
    (hanswer : ∀ (keys : List Bytes) (k : Bytes),
      (s.run (keys.map .get)).answer k = lastWrite (entries recs) k)
    {keys : List Bytes} (hkeys : ∀ k ∈ keys, k ∈ recs.map Record.key) :
    ((s.run (keys.map .get)).cached.map Prod.fst).Nodup ∧
      (s.run (keys.map .get)).cached.map Prod.fst =
        keys.foldl (touch s.capacity) (s.cached.map Prod.fst) := by
  induction keys using List.reverseRecOn with
  | nil => exact ⟨hnodup, rfl⟩
  | append_singleton keys key ih =>
      obtain ⟨hnd, heq⟩ := ih fun k hk => hkeys k (List.mem_append_left _ hk)
      obtain ⟨v, hv⟩ : ∃ v, lastWrite (entries recs) key = some v :=
        exists_lastWrite (by rw [keys_entries]; exact hkeys key (by simp))
      have hgot : ((s.run (keys.map .get)).got key).cached =
          lruPut s.capacity (s.run (keys.map .get)).cached key v := by
        rw [← (s.run_gets_frame keys).2.2]
        unfold Session.got
        rw [hanswer keys key, hv]
        rfl
      rw [List.map_append, List.map_singleton, Session.run_concat]
      show (((s.run (keys.map .get)).got key).cached.map Prod.fst).Nodup ∧
        ((s.run (keys.map .get)).got key).cached.map Prod.fst = _
      rw [hgot, List.foldl_append, keys_lruPut hnd, heq]
      refine ⟨?_, rfl⟩
      rw [← heq, ← keys_lruPut hnd _ _ v]
      exact nodup_keys_lruPut hnd _ _ _

/-- With more keys than places each of them can be driven out by gets of the others. -/
theorem Session.exists_gets_evict {s : Session} {recs : List Record}
    (hcached : s.cached = lruUses s.capacity [] (entries recs))
    (hanswer : ∀ (keys : List Bytes) (k : Bytes),
      (s.run (keys.map .get)).answer k = lastWrite (entries recs) k)
    (hmany : s.capacity < (recs.map Record.key).toFinset.card) {k : Bytes}
    (hk : k ∈ recs.map Record.key) :
    ∃ keys : List Bytes, k ∉ (s.run (keys.map .get)).cached.map Prod.fst := by
  -- a get of the key itself, then of all others
  obtain ⟨others, hothers⟩ : ∃ l, ((recs.map Record.key).toFinset.erase k).toList = l := ⟨_, rfl⟩
  have hmem : ∀ j ∈ others, j ≠ k ∧ j ∈ recs.map Record.key := by
    intro j hj
    rw [← hothers, Finset.mem_toList, Finset.mem_erase, List.mem_toFinset] at hj
    exact hj
  have hcard : others.toFinset.card = (recs.map Record.key).toFinset.card - 1 := by
    rw [← hothers, Finset.toList_toFinset, Finset.card_erase_of_mem (List.mem_toFinset.mpr hk)]
  have hinit : s.cached.map Prod.fst = (recency [] (recs.map Record.key)).take s.capacity := by
    rw [hcached, keys_lruUses (l := []) List.nodup_nil (Nat.zero_le _), keys_entries]
    rfl
  have hnodup : (s.cached.map Prod.fst).Nodup := by
    rw [hcached]
    exact nodup_keys_lruUses (l := []) List.nodup_nil _ _
  refine ⟨k :: others, ?_⟩
  rw [(Session.cached_run_gets hnodup hanswer (by
      intro j hj
      rcases List.mem_cons.mp hj with rfl | hj
      · exact hk
      · exact (hmem j hj).2)).2, hinit, foldl_touch,
    show k :: others = ([] ++ [k]) ++ others from rfl, recency_append, recency_concat, recency_nil,
    mem_take_recency_iff (nodup_recency List.nodup_nil _) fun hmem' => (hmem k hmem').1 rfl, hcard]
  omega

/-! ## Opening after a crash -/

/-- The mapped pages hold copies of puts only. -/
theorem LivedFiles.keys_addressed {disk : Disk} {pages : List (List Record)} {logged : List Record}
    {copies : List Nat} (h : LivedFiles disk pages logged copies) {k : Bytes}
    (hk : k ∈ (addressed pages).map Record.key) : k ∈ logged.map Record.key := by
  obtain ⟨r, hr, rfl⟩ := List.mem_map.mp hk
  have hcopy : some r ∈ pages.flatten.map some :=
    List.mem_map_of_mem (mem_flatten_of_mem_addressed hr)
  rw [h.copied] at hcopy
  obtain ⟨i, -, hi⟩ := List.mem_map.mp hcopy
  exact List.mem_map_of_mem (List.mem_of_getElem? hi)

/-- The keys of the index of a database that was opened: those on the mapped pages, or, when none are
mapped, those of the log. -/
theorem Session.keys_index_opened (cfg : Config) (pages : List (List Record)) {log : Bytes}
    {logged : List Record} (hlog : Logged log logged) :
    (opened cfg pages log).placed.map Prod.fst =
      if u32 pages.length = 0 then logged.map Record.key
      else (addressed pages).map Record.key := by
  obtain ⟨hmapped, -⟩ := opened_frame cfg pages log
  by_cases hzero : u32 pages.length = 0
  · have htotal : ((start cfg pages log).replayed (replayable log)).counted.total = 0 := by
      rw [← hzero]
      exact congrArg (fun m : List (List Record) => u32 m.length) (replayed_frame _ _).1
    rw [if_pos hzero, opened, recovered, if_neg (by omega)]
    show ((start cfg pages log).replayed (replayable log)).placed.map Prod.fst = _
    rw [keys_placed_replayed, hlog.replayable]
    rfl
  · rw [if_neg hzero, (rebuilt_opened cfg (Or.inl (Nat.pos_of_ne_zero hzero))).keys, seen,
      map_visited, hmapped]

section Opened

variable {disk : Disk} {pages : List (List Record)} {logged : List Record} {copies : List Nat}
  {s : Session}

/-- Mapped pages with as many keys as were put hold just these keys. -/
theorem LivedFiles.keys_addressed_iff (h : LivedFiles disk pages logged copies)
    (hcount : ((addressed pages).map Record.key).toFinset.card =
      (logged.map Record.key).toFinset.card) (k : Bytes) :
    k ∈ (addressed pages).map Record.key ↔ k ∈ logged.map Record.key := by
  have hsame : ((addressed pages).map Record.key).toFinset = (logged.map Record.key).toFinset := by
    apply Finset.eq_of_subset_of_card_le
    · intro k hk
      rw [List.mem_toFinset] at hk ⊢
      exact h.keys_addressed hk
    · exact le_of_eq hcount.symm
  rw [← List.mem_toFinset, hsame, List.mem_toFinset]

/-- With more keys than places the pages themselves answer every get, once the others have driven its
key out of the record cache. -/
theorem LivedFiles.newest_of_answers (h : LivedFiles disk pages logged copies)
    (hcached : s.cached = lruUses s.capacity [] (entries logged))
    (hfound : ∀ k, s.found k = lastWrite (entries (addressed pages)) k)
    (hanswer : ∀ (keys : List Bytes) (k : Bytes),
      (s.run (keys.map .get)).answer k = lastWrite (entries logged) k)
    (hmany : s.capacity < (logged.map Record.key).toFinset.card) (k : Bytes) :
    lastWrite (entries (addressed pages)) k = lastWrite (entries logged) k := by
  by_cases hk : k ∈ logged.map Record.key
  · obtain ⟨keys, hout⟩ := Session.exists_gets_evict hcached hanswer hmany hk
    have hget := hanswer keys k
    rw [Session.answer, (cachedValue_eq_none_iff _ _).mpr hout, Option.none_or,
      Session.found_run_gets, hfound] at hget
    exact hget
  · -- a key that was never put is on no page
    rw [(lastWrite_eq_none_iff (entries logged) k).mpr (by rw [keys_entries]; exact hk),
      lastWrite_eq_none_iff, keys_entries]
    exact fun hmem => hk (h.keys_addressed hmem)

/-- With a place for each key the record cache remembers everything that was replayed. -/
theorem LivedFiles.remembers (h : LivedFiles disk pages logged copies)
    (hcached : s.cached = lruUses s.capacity [] (entries logged))
    (hfound : ∀ k, s.found k = lastWrite (entries (addressed pages)) k)
    (hfew : (logged.map Record.key).toFinset.card ≤ s.capacity) : s.Remembers logged := by
  have hkeys : s.cached.map Prod.fst = recency [] (logged.map Record.key) := by
    rw [hcached, keys_lruUses (l := []) List.nodup_nil (Nat.zero_le _), keys_entries]
    exact List.take_of_length_le (by rw [List.map_nil, length_recency]; exact hfew)
  refine ⟨?_, ?_, ?_, ?_⟩
  · rw [hcached]
    exact current_lruUses _ _
  · intro k
    rw [hkeys, mem_recency_iff]
    simp
  · rw [← List.length_map (f := Prod.fst), hkeys, length_recency]
    exact hfew
  · intro k hk
    rw [hfound, lastWrite_eq_none_iff, keys_entries]
    exact fun hmem => hk (h.keys_addressed hmem)

end Opened

/-- **When the puts survive a crash.** For every run of puts, closings, crashes and reopenings and any
sizes of the caches: after the next successful open all gets, in any order, return the last logged put
of their key and the record count is the number of keys put, exactly when the pages mapped at that
open, if any, hold every key, and the record cache has a place for each key or the pages show the last
put of each. -/
theorem crash_durable_iff {disk : Disk} {pages : List (List Record)} {logged : List Record}
    {copies : List Nat} (hlived : Lived AnyCrash disk pages logged copies)
    {cfg : Config} (hplaces : 1 ≤ cfg.recordCacheSize) {db : Database}
    (hnew : Database.new cfg disk = .ok db) :
    db.AnswersAll logged ↔
      (u32 pages.length = 0 ∨
        ∀ k, k ∈ (addressed pages).map Record.key ↔ k ∈ logged.map Record.key) ∧
      ((logged.map Record.key).toFinset.card ≤ cfg.recordCacheSize ∨
        ∀ k, lastWrite (entries (addressed pages)) k = lastWrite (entries logged) k) := by
  have hfiles := hlived.files
  obtain ⟨hopens, hholds⟩ := Database.holds_of_new hfiles.shows hnew
  obtain ⟨-, hcap, -⟩ := Session.opened_frame cfg pages (disk.wal.getD [])
  have hkeys := Session.keys_index_opened cfg pages hfiles.log
  have hcached := Session.cached_opened cfg pages (disk.wal.getD [])
  rw [hfiles.log.replayable, ← hcap] at hcached
  have hfound : ∀ k, (Session.opened cfg pages (disk.wal.getD [])).found k =
      lastWrite (entries (addressed pages)) k := Session.found_opened
  rw [hholds.answersAll_iff hopens.frame_opened (by rw [hcap]; exact hplaces), hkeys, ← hcap]
  obtain ⟨s, hs⟩ : ∃ s, Session.opened cfg pages (disk.wal.getD []) = s := ⟨_, rfl⟩
  rw [hs] at hcached hfound ⊢
  constructor
  · rintro ⟨hanswer, hcount⟩
    constructor
    · by_cases hzero : u32 pages.length = 0
      · exact Or.inl hzero
      · rw [if_neg hzero] at hcount
        exact Or.inr (hfiles.keys_addressed_iff hcount)
    · rcases Nat.lt_or_ge s.capacity (logged.map Record.key).toFinset.card with hmany | hfew
      · exact Or.inr (hfiles.newest_of_answers hcached hfound hanswer hmany)
      · exact Or.inl hfew
  · rintro ⟨hall, hnewest⟩
    refine ⟨?_, ?_⟩
    · -- both reasons to answer right are kept by every get
      rcases hnewest with hfew | hpages
      · exact fun keys k => (Session.run_gets_keep (fun s => s.Remembers logged)
          (fun _ key h => h.got key) (hfiles.remembers hcached hfound hfew) keys).answer k
      · have hcurrent : Current s.cached (entries logged) := by
          rw [hcached]
          exact current_lruUses _ _
        have hreads : s.Reads logged := ⟨hcurrent, fun k => (hfound k).trans (hpages k)⟩
        exact fun keys k => (Session.run_gets_keep (fun s => s.Reads logged)
          (fun _ key h => h.got key) hreads keys).answer k
    · by_cases hzero : u32 pages.length = 0
      · rw [if_pos hzero]
      · rw [if_neg hzero]
        congr 1
        ext k
        rw [List.mem_toFinset, List.mem_toFinset, hall.resolve_left hzero k]

/-- A put, a crash, and an open. -/
theorem crash_durable_iff_one_put :
    ∃ disk db, Lived AnyCrash disk [] [⟨[1], [2]⟩] [] ∧
      Database.new ⟨1, 1, false⟩ disk = .ok db ∧ db.AnswersAll [⟨[1], [2]⟩] := by
  obtain ⟨disk, hlived⟩ := ((.new : Lived AnyCrash _ _ _ _).session [.put [1] [2]]
    (by simp [putsOf, need_le_pageRoom_iff]) rfl).2 trivial
  obtain ⟨-, db, hnew, -⟩ := hlived.files.opens ⟨1, 1, false⟩ le_rfl le_rfl
  refine ⟨disk, db, hlived, hnew, (crash_durable_iff hlived le_rfl hnew).mpr ⟨Or.inl ?_, Or.inl ?_⟩⟩
  · exact u32_zero
  · decide

/-- Room for one record: of two puts before a crash the first is not found. -/
theorem crash_loses_put :
    ∃ disk db, Lived AnyCrash disk [] [⟨[1], [2]⟩, ⟨[3], [4]⟩] [] ∧
      Database.new ⟨1, 1, false⟩ disk = .ok db ∧ ¬db.AnswersAll [⟨[1], [2]⟩, ⟨[3], [4]⟩] := by
  obtain ⟨disk, hlived⟩ := ((.new : Lived AnyCrash _ _ _ _).session [.put [1] [2], .put [3] [4]]
    (by simp [putsOf, need_le_pageRoom_iff]) rfl).2 trivial
  obtain ⟨hopens, db, hnew, hholds⟩ := hlived.files.opens ⟨1, 1, false⟩ le_rfl le_rfl
  refine ⟨disk, db, hlived, hnew, ?_⟩
  rw [hholds.answersAll_iff hopens.frame_opened (by
    rw [(Session.opened_frame ⟨1, 1, false⟩ _ _).2.1])]
  rintro ⟨hanswer, -⟩
  have hget := hanswer [] [1]
  simp only [List.map_nil, Session.run, List.foldl_nil] at hget
  rw [Session.answer, Session.cached_opened, Session.found_opened, hlived.files.log.replayable] at hget
  exact absurd hget (by decide +kernel)

end Aqa
