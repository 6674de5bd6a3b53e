/-
# Aqa.Index.Rebuild — the index built by a scan and the one kept up to date.

A rebuilt index maps each key to the record id of its last record in scan order. Since a session
stores its accepted records behind the others, under the ids it returned, entering these ids into the
index of the file as it was gives the index of the file as it is afterwards.
-/
import Aqa.Index.Index
import Aqa.Storage.WriterSessions

namespace Aqa

open Aqa.Lib StorageReader

/-- The entries of an index that visits of records make. -/
def indexEntries (vs : List (RecordID × Record)) : List (Bytes × RecordID) :=
  vs.map fun v => (v.2.key, v.1)

theorem indexEntries_append (vs ws : List (RecordID × Record)) :
    indexEntries (vs ++ ws) = indexEntries vs ++ indexEntries ws := List.map_append

namespace Index

/-- Entering the record ids of some accepted appends. -/
def insertAccepted (ix : Index) (calls : List AppendCall) : Index :=
  (accepted calls).foldl (fun ix a => ix.insert a.2.key a.1) ix

theorem map_insertAccepted (ix : Index) (calls : List AppendCall) :
    (ix.insertAccepted calls).map = insertAll ix.map (indexEntries (accepted calls)) := by
  unfold insertAccepted
  generalize accepted calls = vs
  induction vs generalizing ix with
  | nil => rfl
  | cons v vs ih => exact ih _

theorem runCallback_insert (vs : List (RecordID × Record)) (ix : Index) :
    (runCallback (fun rid key _ ix => Index.insert ix key rid) vs ix).map =
      insertAll ix.map (indexEntries vs) := by
  induction vs generalizing ix with
  | nil => rfl
  | cons v vs ih => exact ih _

/-- A rebuild enters what the file stores. -/
theorem rebuild_spec {file : Option Bytes} {pages : List (List Record)}
    (hfile : FileHolds [] (file.getD []) pages) (hsize : pages.length < 2 ^ 20) {capacity : Nat}
    (hcap : 1 ≤ capacity) (observed : Bool) (old : Index) :
    ∃ e ix, rebuild (StorageEngine.new file capacity observed, old) = .ok () (e, ix) ∧
      ix.map = insertAll ∅ (indexEntries (storedVisits 0 pages)) := by
  let e := StorageEngine.new file capacity observed
  have hcount : e.getTotalPages = pages.length := by
    show u32 ((file.getD []).length / PAGE_SIZE) = _
    rw [hfile.length_div, List.length_nil, Nat.zero_add, u32_of_lt (by omega)]
  have hpage : ∀ p < e.getTotalPages, Slotted.PageHolds (e.view p) (shown pages p) := by
    intro p hp
    rw [hcount] at hp
    exact FileHolds.loadPage (f := e.file) hfile (by rw [Nat.mod_eq_of_lt (by omega)]; exact hp)
  obtain ⟨e', -, -, hscan⟩ := scan_spec (fun rid key _ ix => Index.insert ix key rid)
    (StorageEngine.idle_new file observed hcap) (shown pages) hpage Index.new
  rw [hcount, visits_shown hsize] at hscan
  exact ⟨e', _, hscan, runCallback_insert _ _⟩

end Index

/-- A file that writer sessions have left behind: each was closed, or cut off after some appends with
its open page lost. -/
inductive WrittenFile : Option Bytes → Prop where
  | missing : WrittenFile none
  | closed {file : Option Bytes} (h : WrittenFile file) (rs : List Record) :
      WrittenFile (some (session rs file).2)
  | cutOff {file : Option Bytes} (h : WrittenFile file) (rs : List Record) :
      WrittenFile (some (appendCalls rs (StorageWriter.new file)).2.2)

/-- Such a file is a file of pages of records. -/
theorem WrittenFile.pages {file : Option Bytes} (h : WrittenFile file) :
    ∃ pages, FileHolds [] (file.getD []) pages := by
  induction h with
  | missing => exact ⟨[], FileHolds.nil []⟩
  | closed h rs ih =>
      obtain ⟨pages, hpages⟩ := ih
      obtain ⟨-, -, pages', hpages', -⟩ := session_spec rs hpages
      exact ⟨pages', hpages'⟩
  | cutOff h rs ih =>
      obtain ⟨pages, hpages⟩ := ih
      obtain ⟨w, hnew, hholds⟩ := StorageWriter.new_spec _ hpages
      obtain ⟨-, -, p, hp, -⟩ := appendCalls_spec rs hholds
      rw [hnew]
      exact ⟨p.pages, hp.file⟩

theorem length_le_session (rs : List Record) {file : Option Bytes} {pages : List (List Record)}
    (h : FileHolds [] (file.getD []) pages) :
    (file.getD []).length ≤ (session rs file).2.length := by
  obtain ⟨w, hnew, -⟩ := StorageWriter.new_spec _ h
  rw [session, hnew]
  exact le_trans (length_le_appendCalls rs w _) (length_le_destroy _ _)

/-- **The rebuilt index and the incremental one agree.** For every file that writer sessions have left
and every sequence of appends in a new session: the index rebuilt from the file before the session,
with the record id of every accepted append entered into it, maps every key like the index rebuilt
from the file after the session, and is of the same size. -/
theorem rebuilt_index_agrees {file : Option Bytes} (h : WrittenFile file) (rs : List Record)
    (hsize : (session rs file).2.length < 2 ^ 20 * PAGE_SIZE) (capacity capacity' : Nat)
    (hcap : 1 ≤ capacity) (hcap' : 1 ≤ capacity') (observed observed' : Bool) (old old' : Index) :
    ∃ e ix e' ix',
      Index.rebuild (StorageEngine.new file capacity observed, old) = .ok () (e, ix) ∧
        Index.rebuild (StorageEngine.new (some (session rs file).2) capacity' observed', old') =
          .ok () (e', ix') ∧
        (∀ key, (ix.insertAccepted (session rs file).1).lookup key = ix'.lookup key) ∧
        (ix.insertAccepted (session rs file).1).size = ix'.size := by
  obtain ⟨pages, hpages⟩ := h.pages
  obtain ⟨-, -, pages', hpages', hvisits⟩ := session_spec rs hpages
  have hlength := length_le_session rs hpages
  have hlt' : pages'.length < 2 ^ 20 := by
    rw [hpages'.length_eq, List.length_nil, Nat.zero_add] at hsize
    exact lt_of_mul_lt_mul_right hsize (Nat.zero_le _)
  have hlt : pages.length < 2 ^ 20 := by
    have hsize' := lt_of_le_of_lt hlength hsize
    rw [hpages.length_eq, List.length_nil, Nat.zero_add] at hsize'
    exact lt_of_mul_lt_mul_right hsize' (Nat.zero_le _)
  obtain ⟨e, ix, hrebuild, hmap⟩ := Index.rebuild_spec hpages hlt hcap observed old
  have hfile : FileHolds [] ((some (session rs file).2).getD []) pages' := hpages'
  obtain ⟨e', ix', hrebuild', hmap'⟩ := Index.rebuild_spec hfile hlt' hcap' observed' old'
  -- both indexes enter the same record ids in the same order
  have hsame : (ix.insertAccepted (session rs file).1).map = ix'.map := by
    rw [Index.map_insertAccepted, hmap, hmap', ← insertAll_append, ← indexEntries_append, hvisits]
  refine ⟨e, ix, e', ix', hrebuild, hrebuild', fun key => ?_, ?_⟩
  · rw [Index.lookup, Index.lookup, hsame]
  · rw [Index.size, Index.size, hsame]

/-- A key of the starting file is written again, and a new one. -/
theorem rebuilt_index_agrees_two :
    let file := some (session [⟨[1], [2]⟩] none).2
    ∃ e ix e' ix', Index.rebuild (StorageEngine.new file 1 false, .new) = .ok () (e, ix) ∧
      Index.rebuild (StorageEngine.new
        (some (session [⟨[1], [3]⟩, ⟨[4], [5]⟩] file).2) 1 false, .new) = .ok () (e', ix') ∧
      (∀ key, (ix.insertAccepted (session [⟨[1], [3]⟩, ⟨[4], [5]⟩] file).1).lookup key =
        ix'.lookup key) ∧
      (ix.insertAccepted (session [⟨[1], [3]⟩, ⟨[4], [5]⟩] file).1).size = ix'.size :=
  rebuilt_index_agrees (WrittenFile.missing.closed [⟨[1], [2]⟩]) [⟨[1], [3]⟩, ⟨[4], [5]⟩]
    (by decide +kernel) 1 1 (by decide) (by decide) false false .new .new

end Aqa
