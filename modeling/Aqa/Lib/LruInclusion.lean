/-
# Aqa.Lib.LruInclusion — caches of two sizes.

Two caches that drop the least recently used key and are used alike: the smaller one holds some of the
keys of the larger one, in the same order (`Within`). That stays so when the larger one alone is used
for a key it holds, as happens when the smaller one has lost it.
-/
import Aqa.Lib.Recency

namespace Aqa.Lib

variable {κ : Type*} [DecidableEq κ]

/-- The tails that do not fit are dropped: a list keeps the order of the one it is in. -/
theorem sublist_dropLast {α : Type*} {l l' : List α} (h : l.Sublist l') :
    l.dropLast.Sublist l'.dropLast := by
  have hrev := (List.reverse_sublist.mpr h).tail
  rw [List.tail_reverse, List.tail_reverse] at hrev
  exact List.reverse_sublist.mp hrev

/-- The keys of a cache of capacity `cap` beside those of one of capacity `cap'`: it holds some of them
in the same order, and all of them unless it is full. -/
structure Within (cap cap' : Nat) (l l' : List κ) : Prop where
  sublist : l.Sublist l'
  full : l.length = cap ∨ l = l'
  nodup : l'.Nodup
  length_le : l'.length ≤ cap'

theorem nodup_touch {l : List κ} (h : l.Nodup) (cap : Nat) (k : κ) : (touch cap l k).Nodup := by
  refine List.Nodup.sublist (List.take_sublist _ _) (List.nodup_cons.mpr ⟨?_, h.erase k⟩)
  exact fun hmem => ((List.Nodup.mem_erase_iff h).mp hmem).1 rfl

/-- A use of a full cache keeps it full. -/
theorem length_touch {cap : Nat} {l : List κ} (hlen : l.length = cap) (k : κ) :
    (touch cap l k).length = cap := by
  have hshort := List.length_erase_le (a := k) (l := l)
  have hlong := List.le_length_erase (a := k) (l := l)
  rw [touch, List.length_take, List.length_cons]
  omega

namespace Within

variable {cap cap' : Nat} {l l' : List κ}

omit [DecidableEq κ] in
/-- The first keys in the order of last use. -/
theorem take (hle : cap ≤ cap') {us : List κ} (hnd : us.Nodup) :
    Within cap cap' (us.take cap) (us.take cap') where
  sublist := List.take_sublist_take_left hle
  full := by
    rcases Nat.le_total cap us.length with hlong | hshort
    · exact Or.inl (List.length_take_of_le hlong)
    · right
      rw [List.take_of_length_le hshort, List.take_of_length_le (le_trans hshort hle)]
  nodup := hnd.sublist (List.take_sublist _ _)
  length_le := List.length_take_le _ _

omit [DecidableEq κ] in
theorem mem (h : Within cap cap' l l') {k : κ} (hk : k ∈ l) : k ∈ l' := h.sublist.subset hk

theorem sublist_touch (h : Within cap cap' l l') (hle : cap ≤ cap') (k : κ) :
    (touch cap l k).Sublist (touch cap' l' k) := by
  rcases h.full with hfull | rfl
  · have hcons : (k :: l.erase k).Sublist (k :: l'.erase k) := (h.sublist.erase k).cons_cons k
    by_cases hroom : (k :: l'.erase k).length ≤ cap'
    · rw [touch, touch, List.take_of_length_le hroom]
      exact (List.take_sublist _ _).trans hcons
    · -- both caches lose their last key
      have hout' : k ∉ l' := by
        intro hmem
        rw [List.length_cons, List.length_erase_of_mem hmem] at hroom
        have hpos := List.length_pos_of_mem hmem
        have hlen := h.length_le
        omega
      have hout : k ∉ l := fun hmem => hout' (h.mem hmem)
      rw [List.erase_of_not_mem hout'] at hroom hcons
      rw [List.erase_of_not_mem hout] at hcons
      have hlen : (k :: l').length = cap' + 1 := by
        have hlen := h.length_le
        rw [List.length_cons] at hroom ⊢
        omega
      have hdrop := sublist_dropLast hcons
      rw [List.dropLast_eq_take, List.dropLast_eq_take, hlen, List.length_cons, hfull] at hdrop
      rw [touch, touch, List.erase_of_not_mem hout, List.erase_of_not_mem hout']
      exact hdrop
  · exact List.take_sublist_take_left hle

/-- A key that both caches use. -/
theorem touch (h : Within cap cap' l l') (hle : cap ≤ cap') (k : κ) :
    Within cap cap' (touch cap l k) (touch cap' l' k) where
  sublist := h.sublist_touch hle k
  full := by
    rcases h.full with hfull | rfl
    · exact Or.inl (length_touch hfull k)
    · rcases Nat.le_total cap (k :: l.erase k).length with hlong | hshort
      · exact Or.inl (List.length_take_of_le hlong)
      · right
        rw [Lib.touch, Lib.touch, List.take_of_length_le hshort,
          List.take_of_length_le (le_trans hshort hle)]
  nodup := nodup_touch h.nodup cap' k
  length_le := List.length_take_le _ _

/-- A key that the larger cache alone uses. -/
theorem touch_larger (h : Within cap cap' l l') {k : κ} (hk : k ∉ l) (hk' : k ∈ l') :
    Within cap cap' l (Lib.touch cap' l' k) where
  sublist := by
    have hpos := List.length_pos_of_mem hk'
    have hroom : (k :: l'.erase k).length ≤ cap' := by
      have hlen := h.length_le
      rw [List.length_cons, List.length_erase_of_mem hk']
      omega
    have herase := h.sublist.erase k
    rw [List.erase_of_not_mem hk] at herase
    rw [Lib.touch, List.take_of_length_le hroom]
    exact herase.cons k
  full := by
    apply h.full.imp_right
    intro heq
    rw [heq] at hk
    exact absurd hk' hk
  nodup := nodup_touch h.nodup cap' k
  length_le := List.length_take_le _ _

end Within

end Aqa.Lib
