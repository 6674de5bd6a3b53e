/-
# Aqa.Index.RebuiltIndex — the index rebuilt from any file.

A rebuild enters the records of a scan, and a scan is all point reads. So on any data file on which no
record id leads out of its page the index leads each key to the last record id, by page and slot, that
`read_record` resolves to a record of that key, and has no other keys.
-/
import Aqa.Index.Rebuild
import Aqa.Storage.PointReads

namespace Aqa

open Aqa.Lib StorageReader

theorem RecordID.Before.asymm {a b : RecordID} (h : a.Before b) : ¬ b.Before a := by
  unfold Before at h ⊢
  omega

/-- The last visit of a key, when visits are in order. -/
theorem lastWrite_indexEntries_iff {vs : List (RecordID × Record)}
    (hordered : vs.Pairwise fun v w => v.1.Before w.1) (key : Bytes) (rid : RecordID) :
    lastWrite (indexEntries vs) key = some rid ↔
      ∃ r : Record, r.key = key ∧ (rid, r) ∈ vs ∧
        ∀ rid' r', (rid', r') ∈ vs → r'.key = key → rid' = rid ∨ rid'.Before rid := by
  induction vs using List.reverseRecOn with
  | nil => simp [indexEntries]
  | append_singleton vs v ih =>
      obtain ⟨hfirst, -, hlast⟩ := List.pairwise_append.mp hordered
      rw [indexEntries_append]
      show lastWrite (indexEntries vs ++ [(v.2.key, v.1)]) key = some rid ↔ _
      rw [lastWrite_concat]
      by_cases hkey : v.2.key = key
      · -- the last visit has the key
        rw [if_pos hkey, Option.some.injEq]
        constructor
        · rintro rfl
          refine ⟨v.2, hkey, by simp, fun rid' r' hmem _ => ?_⟩
          rcases List.mem_append.mp hmem with hmem | hmem
          · exact Or.inr (hlast _ hmem v (by simp))
          · exact Or.inl (congrArg Prod.fst (List.mem_singleton.mp hmem))
        · rintro ⟨r, -, hmem, hmax⟩
          rcases List.mem_append.mp hmem with hmem | hmem
          · have hbefore := hlast _ hmem v (by simp)
            rcases hmax v.1 v.2 (by simp) hkey with heq | hback
            · exact heq
            · exact absurd hback hbefore.asymm
          · exact (congrArg Prod.fst (List.mem_singleton.mp hmem)).symm
      · rw [if_neg hkey, ih hfirst]
        refine exists_congr fun r => and_congr_right fun hr => ?_
        have hmem : ∀ rid' r', r'.key = key → ((rid', r') ∈ vs ++ [v] ↔ (rid', r') ∈ vs) := by
          intro rid' r' hr'
          rw [List.mem_append, List.mem_singleton]
          refine or_iff_left fun heq => hkey ?_
          rw [← heq]
          exact hr'
        rw [hmem rid r hr]
        refine and_congr_right fun _ => forall_congr' fun rid' => forall_congr' fun r' => ?_
        constructor
        · exact fun h hin hr' => h ((hmem rid' r' hr').mp hin) hr'
        · exact fun h hin hr' => h ((hmem rid' r' hr').mpr hin) hr'

/-- The records that `read_record` returns are the visits. -/
theorem readRecord_some_iff {e : StorageEngine} (h : e.Idle) (hinside : ReadsInside e)
    {vs : List (RecordID × Record)} (hfinds : Finds e.view (Counted e) vs) (rid : RecordID)
    (r : Record) : (∃ e₁, readRecord rid e = .ok (some r) e₁) ↔ (rid, r) ∈ vs := by
  obtain ⟨answer, e₁, heq, -, -, hanswer⟩ := readRecord_of_finds h hinside hfinds rid
  rw [← hanswer r, heq]
  constructor
  · rintro ⟨e₂, hsame⟩
    cases hsame
    rfl
  · rintro rfl
    exact ⟨e₁, rfl⟩

end Aqa
