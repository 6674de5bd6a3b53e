/-
# Aqa.Lib.History — what a sequence of key-value writes says about a key.

A history is a list of writes, oldest first. `lastWrite h k` is the value of the newest write of
`k`, the specification of every map kept up to date by those writes: an association list fed with
them (`lookup_foldl_insert`), a log replayed over an older copy (`lastWrite_append`), and the
number of keys such a map holds (`keys_foldl_insert`).
-/
import Aqa.Lib.Bytes

namespace Aqa.Lib

variable {κ ν : Type*} [DecidableEq κ]

/-- The value of the newest write of `k`. -/
def lastWrite : List (κ × ν) → κ → Option ν
  | [], _ => none
  | e :: h, k => (lastWrite h k).or (if e.1 = k then some e.2 else none)

@[simp]
theorem lastWrite_nil (k : κ) : lastWrite ([] : List (κ × ν)) k = none := rfl

/-- The newest write wins: a later history overrides an earlier one. -/
theorem lastWrite_append (h₁ h₂ : List (κ × ν)) (k : κ) :
    lastWrite (h₁ ++ h₂) k = (lastWrite h₂ k).or (lastWrite h₁ k) := by
  induction h₁ with
  | nil => simp
  | cons e h₁ ih => rw [List.cons_append, lastWrite, lastWrite, ih, Option.or_assoc]

theorem lastWrite_concat (h : List (κ × ν)) (e : κ × ν) (k : κ) :
    lastWrite (h ++ [e]) k = if e.1 = k then some e.2 else lastWrite h k := by
  rw [lastWrite_append]
  simp only [lastWrite, Option.none_or]
  split <;> simp

theorem lastWrite_eq_none_iff (h : List (κ × ν)) (k : κ) :
    lastWrite h k = none ↔ k ∉ h.map Prod.fst := by
  induction h with
  | nil => simp
  | cons e h ih =>
      rw [lastWrite, Option.or_eq_none_iff, ih, List.map_cons, List.mem_cons]
      split
      · rename_i heq
        simp [heq]
      · rename_i hne
        simp [Ne.symm hne]

theorem lastWrite_isSome_iff (h : List (κ × ν)) (k : κ) :
    (lastWrite h k).isSome ↔ k ∈ h.map Prod.fst := by
  rw [← not_iff_not, Option.not_isSome_iff_eq_none, lastWrite_eq_none_iff]

theorem exists_lastWrite {h : List (κ × ν)} {k : κ} (hk : k ∈ h.map Prod.fst) :
    ∃ v, lastWrite h k = some v :=
  Option.isSome_iff_exists.mp ((lastWrite_isSome_iff h k).mpr hk)

theorem mem_of_lastWrite {h : List (κ × ν)} {k : κ} {v : ν} (hl : lastWrite h k = some v) :
    (k, v) ∈ h := by
  induction h with
  | nil => simp at hl
  | cons e h ih =>
      rw [lastWrite, Option.or_eq_some_iff] at hl
      rcases hl with hl | ⟨_, hl⟩
      · exact List.mem_cons_of_mem _ (ih hl)
      · split at hl
        · rename_i heq
          simp only [Option.some.injEq] at hl
          subst heq hl
          simp
        · simp at hl

/-- Behind the last write of a key the key is not written. -/
theorem exists_split_of_lastWrite {h : List (κ × ν)} {k : κ} {v : ν}
    (hl : lastWrite h k = some v) :
    ∃ before after, h = before ++ (k, v) :: after ∧ k ∉ after.map Prod.fst := by
  induction h with
  | nil => simp at hl
  | cons e h ih =>
      rw [lastWrite] at hl
      cases hrest : lastWrite h k with
      | some w =>
          rw [hrest, Option.some_or] at hl
          cases hl
          obtain ⟨before, after, rfl, hnot⟩ := ih hrest
          exact ⟨e :: before, after, rfl, hnot⟩
      | none =>
          rw [hrest, Option.none_or] at hl
          split at hl
          · rename_i hkey
            cases hl
            exact ⟨[], h, by rw [← hkey]; rfl, (lastWrite_eq_none_iff h k).mp hrest⟩
          · exact absurd hl (by simp)

/-- A history behind which a second one writes every key again is forgotten. -/
theorem lastWrite_append_of_subset {h₁ h₂ : List (κ × ν)}
    (hsub : h₁.map Prod.fst ⊆ h₂.map Prod.fst) (k : κ) :
    lastWrite (h₁ ++ h₂) k = lastWrite h₂ k := by
  rw [lastWrite_append]
  by_cases hk : k ∈ h₂.map Prod.fst
  · obtain ⟨v, hv⟩ := exists_lastWrite hk
    rw [hv, Option.some_or]
  · have hk₁ : k ∉ h₁.map Prod.fst := fun hmem => hk (hsub hmem)
    rw [(lastWrite_eq_none_iff h₂ k).mpr hk, (lastWrite_eq_none_iff h₁ k).mpr hk₁]
    rfl

/-- Writing values through a function. -/
theorem lastWrite_map {μ : Type*} (f : ν → μ) (h : List (κ × ν)) (k : κ) :
    lastWrite (h.map (fun e => (e.1, f e.2))) k = (lastWrite h k).map f := by
  induction h with
  | nil => rfl
  | cons e h ih =>
      rw [List.map_cons, lastWrite, lastWrite, ih, Option.map_or]
      congr 1
      split <;> rfl

/-! ## Association lists fed with a history -/

section AList

/-- Insert every write of a history, oldest first. -/
def insertAll (m : AList (fun _ : κ => ν)) (h : List (κ × ν)) : AList (fun _ : κ => ν) :=
  h.foldl (fun m e => m.insert e.1 e.2) m

@[simp]
theorem insertAll_nil (m : AList (fun _ : κ => ν)) : insertAll m [] = m := rfl

theorem insertAll_append (m : AList (fun _ : κ => ν)) (h₁ h₂ : List (κ × ν)) :
    insertAll m (h₁ ++ h₂) = insertAll (insertAll m h₁) h₂ := List.foldl_append

theorem insertAll_concat (m : AList (fun _ : κ => ν)) (h : List (κ × ν)) (e : κ × ν) :
    insertAll m (h ++ [e]) = (insertAll m h).insert e.1 e.2 := by
  rw [insertAll_append]
  rfl

/-- A map fed with a history answers with the newest write. -/
theorem lookup_insertAll (m : AList (fun _ : κ => ν)) (h : List (κ × ν)) (k : κ) :
    (insertAll m h).lookup k = (lastWrite h k).or (m.lookup k) := by
  induction h using List.reverseRecOn with
  | nil => simp
  | append_singleton h e ih =>
      rw [insertAll_concat, lastWrite_concat]
      by_cases hk : e.1 = k
      · subst hk
        rw [AList.lookup_insert, if_pos rfl, Option.some_or]
      · rw [AList.lookup_insert_ne (Ne.symm hk), if_neg hk, ih]

theorem lookup_insertAll_empty (h : List (κ × ν)) (k : κ) :
    (insertAll (∅ : AList (fun _ : κ => ν)) h).lookup k = lastWrite h k := by
  rw [lookup_insertAll, AList.lookup_empty, Option.or_none]

/-- Number of keys a map holds. -/
def keyCount (m : AList (fun _ : κ => ν)) : Nat := m.entries.length

theorem keyCount_eq_card (m : AList (fun _ : κ => ν)) : keyCount m = m.keys.toFinset.card := by
  rw [List.toFinset_card_of_nodup m.keys_nodup, AList.keys, List.keys, List.length_map, keyCount]

theorem mem_keys_insertAll (m : AList (fun _ : κ => ν)) (h : List (κ × ν)) (k : κ) :
    k ∈ (insertAll m h).keys ↔ k ∈ h.map Prod.fst ∨ k ∈ m.keys := by
  rw [← AList.mem_keys, ← AList.mem_keys, ← AList.lookup_isSome, ← AList.lookup_isSome,
    lookup_insertAll, Option.isSome_or, Bool.or_eq_true, lastWrite_isSome_iff]

/-- A map fed from empty with a history holds as many keys as the history writes. -/
theorem keyCount_insertAll_empty (h : List (κ × ν)) :
    keyCount (insertAll (∅ : AList (fun _ : κ => ν)) h) = (h.map Prod.fst).toFinset.card := by
  rw [keyCount_eq_card]
  congr 1
  ext k
  rw [List.mem_toFinset, List.mem_toFinset, mem_keys_insertAll]
  simp [AList.keys_empty]

end AList

end Aqa.Lib
