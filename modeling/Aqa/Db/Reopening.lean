/-
# Aqa.Db.Reopening — what any run of sessions leaves for the next one.

The constructor replays the log into the page writer and then rebuilds the index from the mapped pages.
Three questions about the files of a run: can they be opened again, how many records does the session
then count, and what does a scan deliver. Whatever has crashed, only a cache without a place stands in
the way of opening; the count lacks the keys that the log has and the mapped pages do not; and each
session that was closed has written all puts so far once more.
-/
import Aqa.Db.CanonicalLog
import Aqa.Db.DurableMap

namespace Aqa

open Aqa.Lib

/-! ## Opening -/

/-- The keys of the index in any state of a session. -/
theorem SessionState.recordCount {cfg : Config} {disk : Disk} {pages : List (List Record)}
    {logged : List Record} (hshows : disk.Shows pages (disk.wal.getD []))
    (hlog : Logged (disk.wal.getD []) logged) {db : Database} {puts : List Record}
    (h : SessionState cfg disk db puts) :
    db.getRecordCount =
      (((if u32 pages.length = 0 then logged else addressed pages) ++ puts).map
        Record.key).toFinset.card := by
  have hkeys := Session.keys_index_opened cfg pages hlog
  obtain ⟨s, hholds, hplaced, -⟩ := h.invariant
    (fun s puts => s.placed.map Prod.fst =
      ((if u32 pages.length = 0 then logged else addressed pages) ++ puts).map Record.key) hshows
    (by
      rw [hkeys, List.append_nil]
      split <;> rfl)
    (by
      intro s puts c hinv
      rw [← List.append_assoc, List.map_append, ← hinv]
      cases c with
      | get key =>
          obtain ⟨-, -, -, -, hplaced, -⟩ := s.got_frame key
          rw [show (s.after (.get key)).placed = s.placed from hplaced]
          exact (List.append_nil _).symm
      | put key value =>
          show (s.placed ++ [_]).map Prod.fst = _
          rw [List.map_append]
          rfl)
  rw [Database.getRecordCount, hholds.indexSize, hplaced]

/-- **What `get_record_count` counts.** In any state of a session behind any run of sessions that are
closed, refused, or crash, it is at most the number of keys that were put, and it is that number exactly
if no page is mapped or each key of the log is on a mapped page or was put again in this session. -/
theorem record_count_iff {Allowed : List Nat → List Record → Nat → Prop} {disk : Disk}
    {pages : List (List Record)} {logged : List Record} {copies : List Nat}
    (h : Lived Allowed disk pages logged copies) {cfg : Config} {db : Database} {puts : List Record}
    (hstate : SessionState cfg disk db puts) :
    db.getRecordCount ≤ ((logged ++ puts).map Record.key).toFinset.card ∧
      (db.getRecordCount = ((logged ++ puts).map Record.key).toFinset.card ↔
        u32 pages.length = 0 ∨
          ∀ r ∈ logged, r.key ∈ (addressed pages ++ puts).map Record.key) := by
  have hfiles := h.files
  rw [hstate.recordCount hfiles.shows hfiles.log]
  by_cases hzero : u32 pages.length = 0
  · rw [if_pos hzero]
    exact ⟨le_rfl, fun _ => Or.inl hzero, fun _ => rfl⟩
  · rw [if_neg hzero]
    have hsub : ((addressed pages ++ puts).map Record.key).toFinset ⊆
        ((logged ++ puts).map Record.key).toFinset := by
      intro k hk
      rw [List.mem_toFinset, List.map_append, List.mem_append] at hk ⊢
      exact hk.imp_left hfiles.keys_addressed
    refine ⟨Finset.card_le_card hsub, fun hcount => Or.inr fun r hr => ?_, fun hall => ?_⟩
    · have hsame := Finset.eq_of_subset_of_card_le hsub (le_of_eq hcount.symm)
      rw [← List.mem_toFinset, hsame, List.mem_toFinset, List.map_append]
      exact List.mem_append_left _ (List.mem_map_of_mem hr)
    · apply congrArg Finset.card
      apply Finset.Subset.antisymm hsub
      intro k hk
      rw [List.mem_toFinset, List.map_append, List.mem_append] at hk
      rw [List.mem_toFinset]
      rcases hk with hk | hk
      · obtain ⟨r, hr, rfl⟩ := List.mem_map.mp hk
        exact hall.resolve_left hzero r hr
      · rw [List.map_append]
        exact List.mem_append_right _ hk

/-- A put, a crash, and an open. -/
theorem record_count_iff_one_put :
    ∃ disk db, Lived AnyCrash disk [] [⟨[1], [2]⟩] [] ∧
      SessionState ⟨1, 1, false⟩ disk db [] ∧ db.getRecordCount = 1 := by
  obtain ⟨disk, hlived⟩ := ((.new : Lived AnyCrash _ _ _ _).session [.put [1] [2]]
    (by simp [putsOf, need_le_pageRoom_iff]) rfl).2 trivial
  obtain ⟨-, db, hnew, -⟩ := hlived.files.opens ⟨1, 1, false⟩ le_rfl le_rfl
  exact ⟨disk, db, hlived, .opened hnew,
    (record_count_iff hlived (.opened hnew)).2.mpr (Or.inl u32_zero)⟩

/-! ## What a scan delivers -/

/-- The pages behind a session that was closed: all puts so far are written once more. -/
def rewritten (pages : List (List Record)) (history : List Record) : List (List Record) :=
  StorageWriter.flushed 0 (Pager.appendAll Record.need pageRoom ⟨pages, []⟩ history)

/-- The pages behind sessions that were closed. -/
def pagesAfter (pages : List (List Record)) (history : List Record) :
    List SessionPlan → List (List Record)
  | [] => pages
  | p :: ps => pagesAfter (rewritten pages (history ++ p.puts)) (history ++ p.puts) ps

theorem flatten_rewritten (pages : List (List Record)) {history : List Record}
    (hfits : ∀ r ∈ history, Record.need r ≤ pageRoom) :
    (rewritten pages history).flatten = pages.flatten ++ history := by
  rw [rewritten, flatten_flushed, Pager.contents_appendAll_of_fits hfits]
  simp [Pager.contents]

theorem flatten_pagesAfter (plans : List SessionPlan) :
    ∀ (pages : List (List Record)) (history : List Record),
      (∀ r ∈ history ++ plans.flatMap SessionPlan.puts, Record.need r ≤ pageRoom) →
      (pagesAfter pages history plans).flatten =
        pages.flatten ++ (List.range plans.length).flatMap fun i =>
          history ++ (plans.take (i + 1)).flatMap SessionPlan.puts := by
  induction plans with
  | nil =>
      intro pages history _
      simp [pagesAfter]
  | cons p ps ih =>
      intro pages history hfits
      rw [List.flatMap_cons, ← List.append_assoc] at hfits
      have hfirst : ∀ r ∈ history ++ p.puts, Record.need r ≤ pageRoom :=
        fun r hr => hfits r (List.mem_append_left _ hr)
      -- the first session, and then the later ones, each with its puts in front
      rw [pagesAfter, ih _ _ hfits, flatten_rewritten pages hfirst, List.length_cons,
        List.range_succ_eq_map, List.flatMap_cons, List.flatMap_map, List.append_assoc]
      congr 2
      · simp
      · apply List.flatMap_congr
        intro i _
        rw [List.take_succ_cons, List.flatMap_cons, List.append_assoc]

/-- A session that was closed. -/
theorem CleanFiles.planned {disk disk' : Disk} {pages : List (List Record)} {history : List Record}
    (h : CleanFiles disk pages history) {p : SessionPlan} (hclose : p.ending = .close)
    {answers : List (Option Bytes)} (hrun : Database.session p disk = some (answers, disk')) :
    CleanFiles disk' (rewritten pages (history ++ p.puts)) (history ++ p.puts) := by
  have hputs : p.puts = putsOf p.calls := by
    unfold SessionPlan.puts
    rw [hclose]
  unfold Database.session at hrun
  cases hnew : Database.new p.cfg disk with
  | error out =>
      rw [hnew] at hrun
      exact absurd hrun (by simp)
  | ok db =>
      obtain ⟨hopens, hholds⟩ := Database.holds_of_new h.shows hnew
      simp only [hnew] at hrun
      cases hcalls : Database.calls p.calls db with
      | error err db' =>
          rw [hcalls] at hrun
          exact absurd hrun (by simp)
      | ok out db' =>
          simp only [hcalls, hclose, Database.ended, Option.map_some, Option.some.injEq] at hrun
          cases hrun
          obtain ⟨-, hholds', hfits, -⟩ := hholds.calls_ok p.calls hopens.frame_opened hcalls
          have hwrote := (Session.wrote_opened hopens h.logged).run hfits
          have hleft := h.destroy hholds' hwrote
          rw [hwrote.pager] at hleft
          rw [hputs]
          exact hleft

theorem CleanFiles.sessions (plans : List SessionPlan) :
    ∀ {disk disk' : Disk} {pages : List (List Record)} {history : List Record}
      {answers : List (List (Option Bytes))}, CleanFiles disk pages history →
      (∀ p ∈ plans, p.ending = .close) →
      Database.sessions plans disk = some (answers, disk') →
      CleanFiles disk' (pagesAfter pages history plans)
        (history ++ plans.flatMap SessionPlan.puts) := by
  induction plans with
  | nil =>
      intro disk disk' pages history answers h _ hrun
      cases hrun
      rw [List.flatMap_nil, List.append_nil]
      exact h
  | cons p ps ih =>
      intro disk disk' pages history answers h hclose hrun
      rw [Database.sessions] at hrun
      obtain ⟨⟨out, disk₁⟩, hfirst, hrest⟩ := Option.bind_eq_some_iff.mp hrun
      obtain ⟨⟨outs, disk₂⟩, hsessions, heq⟩ := Option.map_eq_some_iff.mp hrest
      cases heq
      have h₁ := h.planned (hclose p List.mem_cons_self) hfirst
      rw [List.flatMap_cons, ← List.append_assoc]
      exact ih h₁ (fun q hq => hclose q (List.mem_cons_of_mem p hq)) hsessions

/-- **The pages grow with the square of the sessions.** Behind any sessions on a new database that were
closed normally and in which nothing threw, with a data file of at most 2^20 pages, the scan of the next
session delivers for each session in turn all puts up to its end: those of the first session as often as
there were sessions, those of the last one once. -/
theorem scan_after_sessions {plans : List SessionPlan} (hclose : ∀ p ∈ plans, p.ending = .close)
    {answers : List (List (Option Bytes))} {disk : Disk}
    (hrun : Database.sessions plans Disk.empty = some (answers, disk))
    (hsize : (disk.data.getD []).length ≤ 2 ^ 20 * PAGE_SIZE) {recs : List Record}
    (hscan : ScansAs disk recs) :
    recs = (List.range plans.length).flatMap fun i =>
      (plans.take (i + 1)).flatMap SessionPlan.puts := by
  have hfiles := cleanFiles_empty.sessions plans hclose hrun
  have hlen := hfiles.shows.data.length_eq
  rw [List.length_nil, Nat.zero_add] at hlen
  have hle : (pagesAfter [] [] plans).length ≤ 2 ^ 20 := by
    rw [hlen] at hsize
    exact Nat.le_of_mul_le_mul_right hsize (by decide)
  rw [hscan.eq hfiles.shows, addressed_of_le hle, flatten_pagesAfter plans [] [] hfiles.fits]
  rfl

/-- Two sessions with a put each: the first put is delivered twice. -/
theorem scan_after_sessions_two :
    ∃ answers disk recs, Database.sessions
      [⟨⟨1, 1, false⟩, [.put [1] [2]], .close⟩, ⟨⟨1, 1, false⟩, [.put [1] [3]], .close⟩] Disk.empty =
        some (answers, disk) ∧ ScansAs disk recs ∧
      recs = [⟨[1], [2]⟩, ⟨[1], [2]⟩, ⟨[1], [3]⟩] := by
  obtain ⟨disk, hrun⟩ := Lived.sessions
    [⟨⟨1, 1, false⟩, [.put [1] [2]], .close⟩, ⟨⟨1, 1, false⟩, [.put [1] [3]], .close⟩] .new
    (by decide) (by
      intro i p hp
      rcases i with _ | _ | i
      · cases hp
        decide
      · cases hp
        decide
      · simp at hp)
  have hfiles := cleanFiles_empty.sessions _ (by decide) hrun
  refine ⟨_, disk, _, hrun, hfiles.scansAs, ?_⟩
  have hscan := scan_after_sessions (by decide) hrun (by
    rw [hfiles.shows.data.length_eq]
    decide +kernel) hfiles.scansAs
  rw [hscan]
  rfl

end Aqa
