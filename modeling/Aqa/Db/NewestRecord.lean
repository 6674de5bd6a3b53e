/-
# Aqa.Db.NewestRecord — which record of a key the rebuilt index finds.

The scan for the index keeps the last record of each key in page and slot order. That is a copy of the
newest put as long as every session that writes some puts again also passes the newest copy of them
that is on the pages already. A crash in between leaves an older copy behind a newer one:
`rebuild_newest` says exactly which crashes do.
-/
import Aqa.Db.CrashRuns

namespace Aqa

open Aqa.Lib StorageReader

/-! ## Copies -/

/-- The key of a put. -/
def keyAt (logged : List Record) (p : Nat) : Option Bytes := (logged[p]?).map Record.key

/-- The last copy of each key is of the newest put among the copies of that key. -/
def NewestLast (logged : List Record) (copies : List Nat) : Prop :=
  ∀ before p after, copies = before ++ p :: after →
    (∀ q ∈ after, keyAt logged q ≠ keyAt logged p) →
    ∀ q ∈ before, keyAt logged q = keyAt logged p → q ≤ p

/-- The first `n` puts are past every copy of their keys. -/
def CopiesPast (copies : List Nat) (logged : List Record) (n : Nat) : Prop :=
  ∀ p ∈ copies, ∀ i < n, keyAt logged i = keyAt logged p → p < n

/-- A crash that leaves the newest copies last. -/
def LeavesNewestLast (copies : List Nat) (logged : List Record) (n : Nat) : Prop :=
  NewestLast logged (copies ++ List.range n)

theorem newestLast_nil (logged : List Record) : NewestLast logged [] := by
  intro before p after hsplit
  exact absurd hsplit (by simp)

/-- More puts do not matter to the copies there are. -/
theorem NewestLast.mono {logged : List Record} {copies : List Nat} (h : NewestLast logged copies)
    (more : List Record) (hlt : ∀ p ∈ copies, p < logged.length) :
    NewestLast (logged ++ more) copies := by
  have hkey : ∀ p ∈ copies, keyAt (logged ++ more) p = keyAt logged p := by
    intro p hp
    rw [keyAt, keyAt, List.getElem?_append_left (hlt p hp)]
  intro before p after hsplit hafter q hq heq
  have hp : p ∈ copies := by simp [hsplit]
  have hqc : q ∈ copies := by simp [hsplit, hq]
  rw [hkey q hqc, hkey p hp] at heq
  refine h before p after hsplit ?_ q hq heq
  intro x hx
  rw [← hkey x (by simp [hsplit, hx]), ← hkey p hp]
  exact hafter x hx

/-- **Writing the first puts once more** keeps the newest copies last exactly when it passes them. -/
theorem newestLast_append_range_iff {logged : List Record} {copies : List Nat} {n : Nat}
    (h : NewestLast logged copies) :
    NewestLast logged (copies ++ List.range n) ↔ CopiesPast copies logged n := by
  constructor
  · intro hlast p hp i hi heq
    -- the last of the new copies of the key
    obtain ⟨before, after, hsplit, hnot⟩ := exists_last_use
      (List.mem_map_of_mem (List.mem_range.mpr hi) : keyAt logged i ∈ (List.range n).map (keyAt logged))
    obtain ⟨front, rest, hrange, -, hrest⟩ := List.map_eq_append_iff.mp hsplit
    obtain ⟨m, back, rfl, hm, rfl⟩ := List.map_eq_cons_iff.mp hrest
    have hle := hlast (copies ++ front) m back (by rw [hrange, List.append_assoc]) (by
      intro q hq hqm
      exact hnot (by rw [← hm, ← hqm]; exact List.mem_map_of_mem hq)) p (by simp [hp])
      (by rw [hm, heq])
    have hmn : m < n := List.mem_range.mp (by rw [hrange]; simp)
    omega
  · intro hpast before p after hsplit hafter q hq heq
    have hnew : ∀ front, List.range n = front ++ p :: after → q ∈ copies ++ front → q ≤ p := by
      intro front hrange hq
      have hp : p < n := List.mem_range.mp (by rw [hrange]; simp)
      have hsorted := List.pairwise_lt_range (n := n)
      rw [hrange, List.pairwise_append] at hsorted
      -- the copy is one of the new ones, in front of the last
      have hqn : q ∈ front ++ p :: after := by
        rw [← hrange, List.mem_range]
        rcases List.mem_append.mp hq with hq | hq
        · exact hpast q hq p hp heq.symm
        · exact List.mem_range.mp (by rw [hrange]; simp [hq])
      rcases List.mem_append.mp hqn with hfront | hrest
      · exact le_of_lt (hsorted.2.2 q hfront p (by simp))
      · rcases List.mem_cons.mp hrest with rfl | hback
        · exact le_rfl
        · exact absurd heq (hafter q hback)
    rcases List.append_eq_append_iff.mp hsplit with ⟨front, rfl, hrange⟩ | ⟨back, hcopies, hrest⟩
    · exact hnew front hrange hq
    · cases back with
      | nil =>
          rw [List.append_nil] at hcopies
          exact hnew [] hrest.symm (by rw [hcopies, List.append_nil]; exact hq)
      | cons b back =>
          rw [List.cons_append, List.cons.injEq] at hrest
          obtain ⟨rfl, rfl⟩ := hrest
          exact h before p back hcopies
            (fun x hx => hafter x (List.mem_append_left _ hx)) q hq heq

/-- A session that writes every put passes every copy. -/
theorem copiesPast_length {disk : Disk} {pages : List (List Record)} {logged more : List Record}
    {copies : List Nat} (h : LivedFiles disk pages logged copies) {n : Nat}
    (hn : logged.length ≤ n) : CopiesPast copies more n :=
  fun _ hp _ _ _ => lt_of_lt_of_le (h.lt_length hp) hn

/-! ## Runs -/

/-- **Crashes that pass every copy leave the newest copies last.** -/
theorem Lived.newestLast {disk : Disk} {pages : List (List Record)} {logged : List Record}
    {copies : List Nat} (h : Lived CopiesPast disk pages logged copies) :
    NewestLast logged copies := by
  induction h with
  | new => exact newestLast_nil []
  | @closed disk pages pages' logged puts copies cfg db hlived hstate hshows ih =>
      have hfiles := hlived.files
      have hold := ih.mono puts fun p hp => hfiles.lt_length hp
      rw [newestLast_append_range_iff hold]
      apply copiesPast_length hfiles
      rw [written_of_flatten (hfiles.flatten_closed hstate hshows), List.length_append]
      exact Nat.le_add_right _ _
  | @refused disk disk' pages pages' logged copies cfg err hlived hplaces hnew hshows ih =>
      have hfiles := hlived.files
      rw [newestLast_append_range_iff ih]
      apply copiesPast_length hfiles
      rw [written_of_flatten (hfiles.flatten_refused hplaces hnew hshows)]
  | @crashed disk pages pages' logged puts copies cfg db hlived hstate hshows hallowed ih =>
      have hold := ih.mono puts fun p hp => hlived.files.lt_length hp
      exact (newestLast_append_range_iff hold).mpr hallowed
  | @crashedInPut disk pages pages' logged puts copies cfg db db' point r hlived _ _ _ _ hallowed ih =>
      have hold := ih.mono (puts ++ [r]) fun p hp => hlived.files.lt_length hp
      rw [← List.append_assoc] at hold
      exact (newestLast_append_range_iff hold).mpr hallowed
  | @crashedInReplay disk pages pages' logged copies cfg db db' point n rec _ _ _ _ _ hallowed ih =>
      exact (newestLast_append_range_iff ih).mpr hallowed

/-- The runs in which every crash leaves the newest copies last. -/
theorem lived_copiesPast_iff {disk : Disk} {pages : List (List Record)} {logged : List Record}
    {copies : List Nat} :
    Lived LeavesNewestLast disk pages logged copies ↔ Lived CopiesPast disk pages logged copies := by
  have hstep : ∀ {disk pages logged copies}, Lived CopiesPast disk pages logged copies →
      ∀ more n, LeavesNewestLast copies (logged ++ more) n ↔ CopiesPast copies (logged ++ more) n := by
    intro disk pages logged copies h more n
    exact newestLast_append_range_iff (h.newestLast.mono more fun p hp => h.files.lt_length hp)
  have hpast : ∀ {disk pages logged copies}, Lived LeavesNewestLast disk pages logged copies →
      Lived CopiesPast disk pages logged copies := by
    intro disk pages logged copies h
    exact h.imp fun hlived more n => (hstep hlived more n).mp
  constructor
  · exact hpast
  · intro h
    exact h.imp fun hlived more n => (hstep (hpast hlived) more n).mpr

/-! ## The rebuilt index -/

/-- The keys of the copies are those of the visits of a scan. -/
theorem LivedFiles.map_keyAt {disk : Disk} {pages : List (List Record)} {logged : List Record}
    {copies : List Nat} (h : LivedFiles disk pages logged copies) (hsize : pages.length ≤ 2 ^ 20) :
    copies.map (keyAt logged) =
      (visits (shown pages) pages.length).map fun v => some v.2.key := by
  have hvisits : (visits (shown pages) pages.length).map Prod.snd = pages.flatten := by
    rw [map_snd_visits, flatMap_shown hsize]
  have hcopied := congrArg (List.map (Option.map Record.key)) h.copied
  rw [List.map_map, List.map_map, ← hvisits, List.map_map] at hcopied
  exact hcopied.symm

/-- **An index that was rebuilt finds the record visited last.** -/
theorem Database.lookup_rebuilt {cfg : Config} {disk : Disk} {pages : List (List Record)}
    (hshows : disk.Shows pages (disk.wal.getD [])) {db : Database}
    (hnew : Database.new cfg disk = .ok db) (hpages : pages ≠ []) (hsize : pages.length ≤ 2 ^ 20)
    (k : Bytes) :
    db.index.lookup k =
      lastWrite ((visits (shown pages) pages.length).map fun v => (v.2.key, v.1)) k := by
  obtain ⟨hopens, hholds⟩ := Database.holds_of_new hshows hnew
  have hmapped := (Session.opened_frame cfg pages (disk.wal.getD [])).1
  have hlen : u32 pages.length = pages.length := u32_of_lt (by omega)
  have hpos : 0 < u32 pages.length := by
    rw [hlen]
    exact List.length_pos_iff.mpr hpages
  rw [hholds.indexLookup, Session.rebuilt_opened cfg (Or.inl hpos), Session.visited, Session.total,
    hmapped, hlen]

/-- **When the rebuilt index never finds an overwritten value.** The runs of puts, closings, crashes and
reopenings in which every crash leaves the newest copy of each key last are those in which every
crashed session, with `n` records on whole pages, had passed all copies of the keys of the first `n`
puts. In these runs the last copy of a key is always of its newest put on the pages, and an index that
is rebuilt from at most 2^20 pages leads to it. -/
theorem rebuild_newest (disk : Disk) (pages : List (List Record)) (logged : List Record)
    (copies : List Nat) :
    (Lived LeavesNewestLast disk pages logged copies ↔ Lived CopiesPast disk pages logged copies) ∧
      (Lived CopiesPast disk pages logged copies →
        NewestLast logged copies ∧
          ∀ (cfg : Config) (db : Database), Database.new cfg disk = .ok db → pages ≠ [] →
            pages.length ≤ 2 ^ 20 → ∀ (k : Bytes) (rid : RecordID), db.index.lookup k = some rid →
              ∃ i p : Nat, ((visits (shown pages) pages.length)[i]?).map Prod.fst = some rid ∧
                copies[i]? = some p ∧ keyAt logged p = some k ∧
                ∀ q ∈ copies, keyAt logged q = some k → q ≤ p) := by
  refine ⟨lived_copiesPast_iff, ?_⟩
  intro hlived
  refine ⟨hlived.newestLast, ?_⟩
  intro cfg db hnew hpages hsize k rid hlookup
  have hfiles := hlived.files
  rw [Database.lookup_rebuilt hfiles.shows hnew hpages hsize] at hlookup
  obtain ⟨before, after, hsplit, hnot⟩ := exists_split_of_lastWrite hlookup
  -- the visits split where the index found the key, and the copies with them
  obtain ⟨front, rest, hvisits, hfront, hrest⟩ := List.map_eq_append_iff.mp hsplit
  obtain ⟨v, back, rfl, hv, rfl⟩ := List.map_eq_cons_iff.mp hrest
  have hkeys := hfiles.map_keyAt hsize
  rw [hvisits, List.map_append, List.map_cons] at hkeys
  obtain ⟨copies₁, copies₂, rfl, hkeys₁, hkeys₂⟩ := List.map_eq_append_iff.mp hkeys
  obtain ⟨p, copies₃, rfl, hp, hkeys₃⟩ := List.map_eq_cons_iff.mp hkeys₂
  simp only [Prod.mk.injEq] at hv
  obtain ⟨hkey, rfl⟩ := hv
  rw [hkey] at hp
  have hlen : copies₁.length = front.length := by
    have hlens := congrArg List.length hkeys₁
    rw [List.length_map, List.length_map] at hlens
    exact hlens
  have hbehind : ∀ q ∈ copies₃, keyAt logged q ≠ some k := by
    intro q hq heq
    have hmem : some k ∈ back.map fun v => some v.2.key := by
      rw [← hkeys₃, ← heq]
      exact List.mem_map_of_mem hq
    obtain ⟨w, hw, hwk⟩ := List.mem_map.mp hmem
    apply hnot
    rw [List.map_map]
    exact List.mem_map.mpr ⟨w, hw, Option.some.inj hwk⟩
  refine ⟨front.length, p, ?_, ?_, hp, ?_⟩
  · rw [hvisits, List.getElem?_append_right le_rfl, Nat.sub_self]
    rfl
  · rw [← hlen, List.getElem?_append_right le_rfl, Nat.sub_self]
    rfl
  · intro q hq heq
    rcases List.mem_append.mp hq with hq | hq
    · exact hlived.newestLast copies₁ p copies₃ rfl (by rw [hp]; exact hbehind) q hq (by rw [hp, heq])
    · rcases List.mem_cons.mp hq with rfl | hq
      · exact le_rfl
      · exact absurd heq (hbehind q hq)

/-- Records of more than half a page: each takes a page. -/
theorem appendAll_two {a b : Record} (pages : List (List Record)) (ha : Record.need a ≤ pageRoom)
    (hb : Record.need b ≤ pageRoom) (hab : pageRoom < Record.need a + Record.need b) :
    Pager.appendAll Record.need pageRoom ⟨pages, []⟩ [a, b] = ⟨pages ++ [[a]], [b]⟩ := by
  have hno : ¬Record.need a + Record.need b ≤ pageRoom := Nat.not_le.mpr hab
  simp [Pager.appendAll, Pager.append, Pager.tryInsert, Pager.used, Pager.close, ha, hb, hno]

/-- A key with two values of 3000 bytes. -/
def bigPut (v : UInt8) : Record := ⟨[1], List.replicate 3000 v⟩

theorem bigPut_fits (v : UInt8) : Record.need (bigPut v) ≤ pageRoom := by
  rw [need_le_pageRoom_iff]
  show 1 + (List.replicate 3000 v).length ≤ 4021
  rw [List.length_replicate]
  decide

theorem appendAll_bigPut (pages : List (List Record)) :
    Pager.appendAll Record.need pageRoom ⟨pages, []⟩ [bigPut 0, bigPut 1] =
      ⟨pages ++ [[bigPut 0]], [bigPut 1]⟩ := by
  apply appendAll_two pages (bigPut_fits 0) (bigPut_fits 1)
  simp only [Record.need, StorageWriter.recordDataSize, bigPut, List.length_replicate]
  decide

theorem lived_bigPut (Allowed : List Nat → List Record → Nat → Prop) :
    ∃ disk, Lived Allowed disk [[bigPut 0], [bigPut 1]] [bigPut 0, bigPut 1] [0, 1] :=
  (Lived.new.session [.put (bigPut 0).key (bigPut 0).value, .put (bigPut 1).key (bigPut 1).value]
    (by
      intro r hr
      have hmem : r ∈ [bigPut 0, bigPut 1] := hr
      rcases List.mem_pair.mp hmem with rfl | rfl <;> exact bigPut_fits _) (appendAll_bigPut [])).1

/-- The key put twice, and the files closed. -/
theorem rebuild_newest_closed :
    ∃ disk db, Lived CopiesPast disk [[bigPut 0], [bigPut 1]] [bigPut 0, bigPut 1] [0, 1] ∧
      Database.new ⟨1, 1, false⟩ disk = .ok db ∧
      ∀ rid, db.index.lookup [1] = some rid → ∃ i p : Nat, ([0, 1][i]? = some p) ∧ 1 ≤ p := by
  obtain ⟨disk, hlived⟩ := lived_bigPut CopiesPast
  obtain ⟨-, db, hnew, -⟩ := hlived.files.opens ⟨1, 1, false⟩ le_rfl le_rfl
  refine ⟨disk, db, hlived, hnew, ?_⟩
  intro rid hrid
  obtain ⟨i, p, -, hi, -, hmax⟩ :=
    ((rebuild_newest disk _ _ _).2 hlived).2 _ db hnew (by simp) (by simp) [1] rid hrid
  exact ⟨i, p, hi, hmax 1 (by simp) rfl⟩

/-- **A crash brings an old value back.** The files are opened once more, and the crash falls when the
first put has been written again and the second has not. -/
theorem crash_resurrects_put :
    ∃ disk db, Lived AnyCrash disk [[bigPut 0], [bigPut 1], [bigPut 0]]
        [bigPut 0, bigPut 1] [0, 1, 0] ∧
      Database.new ⟨1, 1, false⟩ disk = .ok db ∧ db.index.lookup [1] = some ⟨2, 0⟩ ∧
      ¬NewestLast [bigPut 0, bigPut 1] [0, 1, 0] := by
  obtain ⟨disk₁, hlived₁⟩ := lived_bigPut AnyCrash
  obtain ⟨disk, hlived⟩ := (hlived₁.session [] (by simp [putsOf])
    (appendAll_bigPut [[bigPut 0], [bigPut 1]])).2 trivial
  obtain ⟨-, db, hnew, -⟩ := hlived.files.opens ⟨1, 1, false⟩ le_rfl le_rfl
  refine ⟨disk, db, hlived, hnew, ?_, ?_⟩
  · rw [Database.lookup_rebuilt hlived.files.shows hnew (by simp) (by simp)]
    decide +kernel
  · intro hlast
    have hle := hlast [0, 1] 0 [] rfl (by simp) 1 (by simp) rfl
    omega

end Aqa
