/-
# Aqa.Storage.PointReads — a scan is all point reads.

Whatever bytes a data file has, `scan` and `read_record` follow the same slots. When none of them leads
out of its page, a scan visits the records that `read_record` returns, each once, by page and slot; deleted
records and slots that are refused are in neither. Behind a slot that leads out of its page the memory
next to the frame is read, and nothing is said about that.
-/
import Aqa.Storage.ReaderSpec

namespace Aqa

/-- The order in which a scan comes by. -/
def RecordID.Before (a b : RecordID) : Prop :=
  a.pageId < b.pageId ∨ a.pageId = b.pageId ∧ a.slotId < b.slotId

namespace StorageReader

open StorageEngine

/-- What reading a record id gives, on the pages that a file shows. -/
def readAt (view : Nat → RawPage) (rid : RecordID) : RecordRead :=
  parseRecord (view rid.pageId) rid.slotId

/-- Visits that are all the records found at some ids, in order; no id leads outside its page. -/
structure Finds (view : Nat → RawPage) (within : RecordID → Prop) (vs : List (RecordID × Record)) :
    Prop where
  mem : ∀ rid r, (rid, r) ∈ vs ↔ within rid ∧ readAt view rid = .found r
  inside : ∀ rid, within rid → readAt view rid ≠ .outside
  ordered : vs.Pairwise fun v w => v.1.Before w.1

namespace Finds

variable {view : Nat → RawPage} {within within' : RecordID → Prop} {vs ws : List (RecordID × Record)}

theorem none (hnone : ∀ rid, ¬ within rid) : Finds view within [] where
  mem rid r := by simp [hnone rid]
  inside rid h := absurd h (hnone rid)
  ordered := List.Pairwise.nil

theorem one {rid : RecordID} {r : Record} (h : readAt view rid = .found r) :
    Finds view (fun id => id = rid) [(rid, r)] where
  mem id r' := by
    rw [List.mem_singleton, Prod.mk.injEq]
    apply and_congr_right
    intro hid
    rw [hid, h, RecordRead.found.injEq]
    exact eq_comm
  inside id hid := by
    rw [hid, h]
    exact fun h => RecordRead.noConfusion h
  ordered := List.pairwise_singleton _ _

theorem absent {rid : RecordID} (h : readAt view rid = .absent) :
    Finds view (fun id => id = rid) [] where
  mem id r := by
    apply iff_of_false List.not_mem_nil
    rintro ⟨rfl, hfound⟩
    rw [h] at hfound
    exact RecordRead.noConfusion hfound
  inside id hid := by
    rw [hid, h]
    exact fun h => RecordRead.noConfusion h
  ordered := List.Pairwise.nil

/-- Further ids behind the first ones. -/
theorem append (h : Finds view within vs) (h' : Finds view within' ws)
    (hbefore : ∀ a b, within a → within' b → a.Before b) :
    Finds view (fun id => within id ∨ within' id) (vs ++ ws) where
  mem rid r := by rw [List.mem_append, h.mem, h'.mem, or_and_right]
  inside rid hid := hid.elim (h.inside rid) (h'.inside rid)
  ordered := by
    refine List.pairwise_append.mpr ⟨h.ordered, h'.ordered, fun v hv w hw => ?_⟩
    exact hbefore v.1 w.1 ((h.mem v.1 v.2).mp hv).1 ((h'.mem w.1 w.2).mp hw).1

theorem congr (h : Finds view within vs) (heq : ∀ id, within' id ↔ within id) :
    Finds view within' vs where
  mem rid r := by rw [h.mem, heq]
  inside rid hid := h.inside rid ((heq rid).mp hid)
  ordered := h.ordered

end Finds

/-! ## The two loops -/

/-- The inner loop finds what is in its slots, or meets a slot that leads outside the page. -/
theorem slotVisits_finds (view : Nat → RawPage) (pid n : Nat) :
    ∀ sid, (∃ vs, slotVisits pid (view pid) n sid = some vs ∧
        Finds view (fun id => id.pageId = pid ∧ sid ≤ id.slotId ∧ id.slotId < sid + n) vs) ∨
      slotVisits pid (view pid) n sid = none ∧ ∃ i, readAt view ⟨pid, i⟩ = .outside := by
  induction n with
  | zero =>
      intro sid
      exact Or.inl ⟨[], rfl, Finds.none fun id h => by omega⟩
  | succ n ih =>
      intro sid
      -- the first slot and the others
      have hids : ∀ id : RecordID, (id.pageId = pid ∧ sid ≤ id.slotId ∧ id.slotId < sid + (n + 1)) ↔
          id = ⟨pid, sid⟩ ∨ (id.pageId = pid ∧ sid + 1 ≤ id.slotId ∧ id.slotId < sid + 1 + n) := by
        rintro ⟨p, i⟩
        rw [RecordID.mk.injEq]
        dsimp only
        omega
      have hbefore : ∀ a b : RecordID, a = ⟨pid, sid⟩ →
          (b.pageId = pid ∧ sid + 1 ≤ b.slotId ∧ b.slotId < sid + 1 + n) → a.Before b := by
        rintro a b rfl ⟨hpage, hslot, -⟩
        exact Or.inr ⟨hpage.symm, hslot⟩
      rw [slotVisits, show parseRecord (view pid) sid = readAt view ⟨pid, sid⟩ from rfl]
      cases hparse : readAt view ⟨pid, sid⟩ with
      | outside => exact Or.inr ⟨rfl, sid, hparse⟩
      | absent =>
          rcases ih (sid + 1) with ⟨vs, heq, hfinds⟩ | hout
          · exact Or.inl ⟨vs, heq, ((Finds.absent hparse).append hfinds hbefore).congr hids⟩
          · exact Or.inr hout
      | found r =>
          rcases ih (sid + 1) with ⟨vs, heq, hfinds⟩ | ⟨heq, hout⟩
          · refine Or.inl ⟨_, ?_, ((Finds.one hparse).append hfinds hbefore).congr hids⟩
            dsimp only
            rw [heq]
            rfl
          · refine Or.inr ⟨?_, hout⟩
            dsimp only
            rw [heq]
            rfl

/-- The outer loop finds what is on its pages. -/
theorem pagesVisits_finds (view : Nat → RawPage) (n : Nat) :
    ∀ pid, (∃ vs, pagesVisits view n pid = some vs ∧
        Finds view (fun id => (pid ≤ id.pageId ∧ id.pageId < pid + n) ∧
          id.slotId < slotCount (view id.pageId)) vs) ∨
      pagesVisits view n pid = none ∧
        ∃ p i, (pid ≤ p ∧ p < pid + n) ∧ readAt view ⟨p, i⟩ = .outside := by
  induction n with
  | zero =>
      intro pid
      exact Or.inl ⟨[], rfl, Finds.none fun id h => by omega⟩
  | succ n ih =>
      intro pid
      rw [pagesVisits]
      rcases slotVisits_finds view pid (slotCount (view pid)) 0 with ⟨vs, heq, hfirst⟩ | ⟨heq, i, hout⟩
      · rw [heq]
        dsimp only
        rcases ih (pid + 1) with ⟨ws, heq', hrest⟩ | ⟨heq', p, i, hp, hout⟩
        · refine Or.inl ⟨vs ++ ws, by rw [heq']; rfl, (hfirst.append hrest ?_).congr fun id => ?_⟩
          · rintro a b ⟨ha, -, -⟩ ⟨⟨hb, -⟩, -⟩
            exact Or.inl (by omega)
          · constructor
            · rintro ⟨⟨hlow, hhigh⟩, hslot⟩
              rcases Nat.lt_or_eq_of_le hlow with hlater | rfl
              · exact Or.inr ⟨⟨hlater, by omega⟩, hslot⟩
              · exact Or.inl ⟨rfl, Nat.zero_le _, by omega⟩
            · rintro (⟨rfl, -, hslot⟩ | ⟨⟨hlow, hhigh⟩, hslot⟩)
              · exact ⟨⟨Nat.le_refl _, by omega⟩, by omega⟩
              · exact ⟨⟨by omega, by omega⟩, hslot⟩
        · exact Or.inr ⟨by rw [heq']; rfl, p, i, ⟨by omega, by omega⟩, hout⟩
      · rw [heq]
        exact Or.inr ⟨rfl, pid, i, ⟨Nat.le_refl _, by omega⟩, hout⟩

/-! ## Scan and point reads -/

/-- A slot the page does not count is not read. -/
theorem readAt_of_slotCount_le {view : Nat → RawPage} {rid : RecordID}
    (h : slotCount (view rid.pageId) ≤ rid.slotId) : readAt view rid = .absent := by
  rw [readAt, parseRecord, if_pos h]

/-- No record id of the file leads `read_record` outside the page. -/
def ReadsInside (e : StorageEngine) : Prop :=
  ∀ rid : RecordID, rid.pageId < e.getTotalPages → readAt e.view rid ≠ .outside

/-- On a file of one page the counted slots decide. -/
theorem readsInside_of_one {e : StorageEngine} (hone : e.getTotalPages = 1)
    (hslots : ∀ i < slotCount (e.view 0), parseRecord (e.view 0) i ≠ .outside) : ReadsInside e := by
  rintro ⟨p, i⟩ hp
  obtain rfl : p = 0 := Nat.lt_one_iff.mp (hone ▸ hp)
  by_cases hi : slotCount (e.view 0) ≤ i
  · rw [readAt_of_slotCount_le hi]
    exact fun h => RecordRead.noConfusion h
  · exact hslots i (by omega)

/-- The record ids that the pages count. -/
def Counted (e : StorageEngine) (rid : RecordID) : Prop :=
  rid.pageId < e.getTotalPages ∧ rid.slotId < slotCount (e.view rid.pageId)

/-- A scan that stays inside finds the records at the counted ids. -/
theorem exists_visits {e : StorageEngine} (hinside : ReadsInside e) :
    ∃ vs, pagesVisits e.view e.getTotalPages 0 = some vs ∧ Finds e.view (Counted e) vs := by
  rcases pagesVisits_finds e.view e.getTotalPages 0 with ⟨vs, hvisits, hfinds⟩ | ⟨-, p, i, hp, hout⟩
  · refine ⟨vs, hvisits, hfinds.congr fun id => ?_⟩
    unfold Counted
    omega
  · have hlt : p < e.getTotalPages := by omega
    exact absurd hout (hinside ⟨p, i⟩ hlt)

/-- A `read_record` that stays inside returns the visit of its id. -/
theorem readRecord_of_finds {e : StorageEngine} (h : e.Idle) (hinside : ReadsInside e)
    {vs : List (RecordID × Record)} (hfinds : Finds e.view (Counted e) vs) (rid : RecordID) :
    ∃ answer e', readRecord rid e = .ok answer e' ∧ e'.Idle ∧ e'.file = e.file ∧
      ∀ r, answer = some r ↔ (rid, r) ∈ vs := by
  by_cases hpage : rid.pageId < e.getTotalPages
  · obtain ⟨e', hidle, hfile, heq⟩ := readRecord_spec h rid hpage (Or.inr fun _ => rfl)
    have hcounted : readAt e.view rid ≠ .absent → Counted e rid := by
      intro hne
      refine ⟨hpage, ?_⟩
      by_contra hslot
      exact hne (readAt_of_slotCount_le (by omega))
    cases hparse : readAt e.view rid with
    | absent =>
        rw [show parseRecord (e.view rid.pageId) rid.slotId = .absent from hparse] at heq
        refine ⟨none, e', heq, hidle, hfile, fun r => ?_⟩
        rw [hfinds.mem, hparse]
        simp
    | found record =>
        rw [show parseRecord (e.view rid.pageId) rid.slotId = .found record from hparse] at heq
        refine ⟨some record, e', heq, hidle, hfile, fun r => ?_⟩
        rw [hfinds.mem, hparse, Option.some.injEq, RecordRead.found.injEq]
        exact (and_iff_right (hcounted (by rw [hparse]; simp))).symm
    | outside => exact absurd hparse (hinside rid hpage)
  · have hnone : readRecord rid e = .ok none e := by
      rw [readRecord, if_pos (by omega)]
    refine ⟨none, e, hnone, h, rfl, fun r => ?_⟩
    rw [hfinds.mem]
    apply iff_of_false (by simp)
    rintro ⟨⟨hlt, -⟩, -⟩
    exact hpage hlt

end StorageReader

end Aqa
