/-
# Aqa.Lib.Paging — how far least-recently-used replacement is from any other.

A cache of at most `h` keys that serves one key after the other may do what it likes, with any
knowledge of what comes, as long as it drops at most one key for a key it does not hold and none for
one it holds (`Serves`). The recency list of `k ≥ h` keys misses at most `k / (k - h + 1)` times as often,
up to the misses that fill it (`DemandRun.lruMisses_le`).

The proof weighs the list against the other cache: a key of the list that the other cache does not hold
counts the more the longer the list would keep it (`debt`). A key dropped by the other cache adds at most
`k`; a key that the full list misses takes at least `k - h + 1` away, since all keys move back one place
and at least so many of them are not held by the other cache.
-/
import Mathlib.Data.Finset.Card
import Mathlib.Data.List.Dedup
import Aqa.Lib.Recency

namespace Aqa.Lib

variable {κ : Type*} [DecidableEq κ]

/-! ## Two caches on the same keys -/

/-- The misses of a recency list of at most `k` keys that starts as `l`. -/
def lruMisses (k : Nat) : List κ → List κ → Nat
  | _, [] => 0
  | l, x :: us => (if x ∈ l then 0 else 1) + lruMisses k (touch k l x) us

theorem lruMisses_append (k : Nat) (l us vs : List κ) :
    lruMisses k l (us ++ vs) = lruMisses k l us + lruMisses k (us.foldl (touch k) l) vs := by
  induction us generalizing l with
  | nil => rw [List.nil_append, lruMisses, Nat.zero_add, List.foldl_nil]
  | cons x us ih => rw [List.cons_append, lruMisses, lruMisses, ih, List.foldl_cons, Nat.add_assoc]

theorem lruMisses_concat (k : Nat) (us : List κ) (x : κ) :
    lruMisses k [] (us ++ [x]) =
      lruMisses k [] us + if x ∈ (recency [] us).take k then 0 else 1 := by
  have htouch := foldl_touch k [] us
  rw [List.take_nil] at htouch
  rw [lruMisses_append, htouch, lruMisses, lruMisses, Nat.add_zero]

/-- **The same keys again**: a list of distinct keys that fits is kept, and one that does not is
missed at every key, since each is dropped before its turn comes. -/
theorem lruMisses_again {k : Nat} {l us : List κ} (hl : l.Nodup) (hlen : l.length ≤ k)
    (hus : us.Nodup) :
    lruMisses k (us.foldl (touch k) l) us = if us.length ≤ k then 0 else us.length := by
  -- over the keys served again so far
  suffices hprefix : ∀ a b, us = a ++ b →
      lruMisses k (us.foldl (touch k) l) a = if us.length ≤ k then 0 else a.length by
    exact hprefix us [] (List.append_nil us).symm
  intro a
  induction a using List.reverseRecOn with
  | nil =>
      intro b _
      split <;> rfl
  | append_singleton a x ih =>
      intro b heq
      have hsplit : us = a ++ x :: b := by rw [heq, List.append_assoc, List.singleton_append]
      have hmisses := ih (x :: b) hsplit
      have horder : a.foldl (touch k) (us.foldl (touch k) l) =
          (recency (x :: (recency l a).erase x) (b ++ a)).take k := by
        have hall := foldl_touch k l (us ++ a)
        rw [List.take_of_length_le hlen, List.foldl_append] at hall
        rw [hall, hsplit, List.append_assoc, List.cons_append, recency_append]
        rfl
      have hnodup := hus
      rw [hsplit, List.nodup_append] at hnodup
      obtain ⟨ha, hxb, hapart⟩ := hnodup
      obtain ⟨hx, hb⟩ := List.nodup_cons.mp hxb
      have hnot : x ∉ b ++ a := by
        rw [List.mem_append]
        rintro (hmem | hmem)
        · exact hx hmem
        · exact hapart x hmem x List.mem_cons_self rfl
      have hcard : (b ++ a).toFinset.card + 1 = us.length := by
        rw [List.toFinset_card_of_nodup, hsplit, List.length_append, List.length_append,
          List.length_cons]
        · omega
        · exact List.nodup_append.mpr ⟨hb, ha, fun y hy z hz heq =>
            hapart z hz y (List.mem_cons_of_mem x hy) heq.symm⟩
      have hheld : x ∈ a.foldl (touch k) (us.foldl (touch k) l) ↔ us.length ≤ k := by
        rw [horder, mem_take_recency_iff (nodup_recency hl a) hnot]
        omega
      rw [lruMisses_append, hmisses, lruMisses, lruMisses, List.length_append,
        List.length_singleton]
      by_cases hfits : us.length ≤ k
      · rw [if_pos hfits, if_pos hfits, if_pos (hheld.mpr hfits)]
      · rw [if_neg hfits, if_neg hfits, if_neg (fun hmem => hfits (hheld.mp hmem)), Nat.add_zero]

/-- What a cache of at most `h` keys may do for a key. -/
structure Serves (h : Nat) (S S' : Finset κ) (x : κ) : Prop where
  served : x ∈ S'
  fits : S'.card ≤ h
  keeps : x ∈ S → S ⊆ S'
  dropsOne : ∃ y, S ⊆ insert y S'

/-- A cache of at most `h` keys behind the keys served, and its misses. -/
inductive DemandRun (h : Nat) : List κ → Finset κ → Nat → Prop where
  | nil : DemandRun h [] ∅ 0
  | serve {us : List κ} {S S' : Finset κ} {misses : Nat} {x : κ} :
      DemandRun h us S misses → Serves h S S' x →
        DemandRun h (us ++ [x]) S' (misses + if x ∈ S then 0 else 1)

/-! ## The weight of a list against a set -/

/-- The keys of a list that are not in the set, weighed by the places they have left. -/
def debt : Nat → List κ → Finset κ → Nat
  | _, [], _ => 0
  | k, a :: l, S => (if a ∈ S then 0 else k) + debt (k - 1) l S

variable {k h : Nat} {l : List κ} {S S' : Finset κ} {x : κ}

theorem debt_mono {k k' : Nat} (hle : k ≤ k') (l : List κ) (S : Finset κ) :
    debt k l S ≤ debt k' l S := by
  induction l generalizing k k' with
  | nil => exact le_rfl
  | cons a l ih =>
      have hrest := ih (Nat.sub_le_sub_right hle 1)
      simp only [debt]
      split <;> omega

/-- More keys in the set weigh less. -/
theorem debt_anti (k : Nat) (hsub : ∀ a ∈ l, a ∈ S → a ∈ S') : debt k l S' ≤ debt k l S := by
  induction l generalizing k with
  | nil => exact le_rfl
  | cons a l ih =>
      have hrest := ih (k - 1) fun b hb => hsub b (List.mem_cons_of_mem a hb)
      simp only [debt]
      by_cases ha : a ∈ S
      · rw [if_pos (hsub a List.mem_cons_self ha), if_pos ha]
        omega
      · rw [if_neg ha]
        split <;> omega

theorem debt_take (k n : Nat) (l : List κ) (S : Finset κ) : debt k (l.take n) S ≤ debt k l S := by
  induction l generalizing k n with
  | nil => rw [List.take_nil]
  | cons a l ih =>
      cases n with
      | zero => exact Nat.zero_le _
      | succ n => exact Nat.add_le_add_left (ih (k - 1) n) _

/-- A key that leaves the set weighs at most `k`. -/
theorem debt_drop {y : κ} (hsub : S ⊆ insert y S') (hnodup : l.Nodup) (k : Nat) :
    debt k l S' ≤ debt k l S + k := by
  induction l generalizing k with
  | nil => exact Nat.zero_le _
  | cons a l ih =>
      obtain ⟨ha, hrest⟩ := List.nodup_cons.mp hnodup
      simp only [debt]
      by_cases hay : a = y
      · -- the key stands here, and the rest weighs no more than before
        have hsame : debt (k - 1) l S' ≤ debt (k - 1) l S := by
          apply debt_anti (k - 1)
          intro b hb hbS
          refine (Finset.mem_insert.mp (hsub hbS)).resolve_left ?_
          rintro rfl
          exact ha (hay ▸ hb)
        split <;> split <;> omega
      · have hle := ih hrest (k - 1)
        by_cases haS : a ∈ S
        · rw [if_pos haS, if_pos ((Finset.mem_insert.mp (hsub haS)).resolve_left hay)]
          omega
        · rw [if_neg haS]
          split <;> omega

/-- A key of the set weighs nothing in front, and moves the keys before it back. -/
theorem debt_front (k : Nat) (l : List κ) (S : Finset κ) (x : κ) :
    debt (k - 1) (l.erase x) S ≤ debt k l S := by
  induction l generalizing k with
  | nil => exact le_rfl
  | cons a l ih =>
      by_cases hax : a = x
      · rw [hax, List.erase_cons_head]
        exact Nat.le_add_left _ _
      · have hle := ih (k - 1)
        rw [List.erase_cons_tail (by simpa using hax)]
        simp only [debt]
        split <;> omega

/-- A place back takes one from every key that is not in the set. -/
theorem debt_back (hlen : l.length ≤ k) :
    debt (k - 1) l S + (l.filter (· ∉ S)).length ≤ debt k l S := by
  induction l generalizing k with
  | nil => exact le_rfl
  | cons a l ih =>
      rw [List.length_cons] at hlen
      have hle := ih (k := k - 1) (by omega)
      by_cases ha : a ∈ S
      · rw [List.filter_cons_of_neg (by simpa using ha)]
        simp only [debt, if_pos ha]
        omega
      · rw [List.filter_cons_of_pos (by simpa using ha), List.length_cons]
        simp only [debt, if_neg ha]
        omega

/-- A list without a key that the set has: so many of its keys are not in the set. -/
theorem length_le_filter_not_mem (hnodup : l.Nodup) (hx : x ∉ l) (hxS : x ∈ S)
    (hfits : S.card ≤ h) : l.length + 1 ≤ (l.filter (· ∉ S)).length + h := by
  have hheld : (l.filter (· ∈ S)).length ≤ (S.erase x).card := by
    rw [← List.toFinset_card_of_nodup (hnodup.filter _)]
    apply Finset.card_le_card
    intro a ha
    rw [List.mem_toFinset, List.mem_filter, decide_eq_true_eq] at ha
    refine Finset.mem_erase.mpr ⟨?_, ha.2⟩
    rintro rfl
    exact hx ha.1
  have hsplit := List.length_eq_length_filter_add (l := l) (fun a => decide (a ∈ S))
  have hpos := Finset.card_pos.mpr ⟨x, hxS⟩
  rw [Finset.card_erase_of_mem hxS] at hheld
  have hnot : (l.filter fun a => !decide (a ∈ S)) = l.filter (· ∉ S) := by
    apply List.filter_congr
    intro a _
    simp
  rw [hnot] at hsplit
  omega

/-! ## One key, and all keys -/

/-- What one key adds on both sides. -/
theorem Serves.debt_le (hs : Serves h S S' x) (hle : h ≤ k) (hnodup : l.Nodup)
    (hlen : l.length ≤ k) :
    (k - h + 1) * (if x ∈ l then 0 else 1) + debt k (touch k l x) S' + (k - h + 1) * l.length ≤
      debt k l S + k * (if x ∈ S then 0 else 1) + (k - h + 1) * (touch k l x).length := by
  -- the other cache first
  have hother : debt k l S' ≤ debt k l S + k * (if x ∈ S then 0 else 1) := by
    by_cases hxS : x ∈ S
    · rw [if_pos hxS, Nat.mul_zero, Nat.add_zero]
      exact debt_anti k fun a _ ha => hs.keeps hxS ha
    · obtain ⟨y, hsub⟩ := hs.dropsOne
      rw [if_neg hxS, Nat.mul_one]
      exact debt_drop hsub hnodup k
  have htouch : debt k (touch k l x) S' ≤ debt (k - 1) (l.erase x) S' := by
    refine (debt_take k k (x :: l.erase x) S').trans ?_
    rw [debt, if_pos hs.served, Nat.zero_add]
  by_cases hx : x ∈ l
  · have hfront := debt_front k l S' x
    have hlen' : (touch k l x).length = l.length := by
      have hpos := List.length_pos_of_mem hx
      have herase := List.length_erase_of_mem hx
      rw [touch_of_room (by omega), List.length_cons]
      omega
    rw [if_pos hx, hlen', Nat.mul_zero]
    omega
  rw [if_neg hx, Nat.mul_one]
  rw [List.erase_of_not_mem hx] at htouch
  by_cases hroom : l.length < k
  · -- the list grows
    have hmono := debt_mono (Nat.sub_le k 1) l S'
    have hlen' : (touch k l x).length = l.length + 1 := by
      rw [touch_of_room (by rw [List.erase_of_not_mem hx]; exact hroom), List.length_cons,
        List.erase_of_not_mem hx]
    rw [hlen', Nat.mul_add, Nat.mul_one]
    omega
  · -- the list drops its last key
    have hback := debt_back (k := k) (S := S') hlen
    have hmany := length_le_filter_not_mem hnodup hx hs.served hs.fits
    have hlen' : (touch k l x).length = l.length := by
      rw [touch, List.length_take, List.length_cons, List.erase_of_not_mem hx]
      omega
    rw [hlen']
    omega

theorem DemandRun.debt_le {us : List κ} {misses : Nat} (hrun : DemandRun h us S misses)
    (hle : h ≤ k) :
    (k - h + 1) * lruMisses k [] us + debt k ((recency [] us).take k) S ≤
      k * misses + (k - h + 1) * ((recency [] us).take k).length := by
  induction hrun with
  | nil => simp [debt, lruMisses]
  | @serve us S S' misses x _ hs ih =>
      have hstep := hs.debt_le hle
        ((List.take_sublist k _).nodup (nodup_recency List.nodup_nil us))
        (List.length_take_le k (recency [] us))
      have htouch : touch k ((recency [] us).take k) x = (recency [] (us ++ [x])).take k := by
        rw [touch_take, recency_concat]
        rfl
      rw [htouch] at hstep
      rw [lruMisses_concat, Nat.mul_add, Nat.mul_add]
      omega

/-- **Recency lists are competitive**: against any cache of at most as many keys. -/
theorem DemandRun.lruMisses_le {us : List κ} {misses : Nat} (hrun : DemandRun h us S misses)
    (hle : h ≤ k) :
    (k - h + 1) * lruMisses k [] us ≤ k * misses + (k - h + 1) * k := by
  have hdebt := hrun.debt_le hle
  have hlen := Nat.mul_le_mul_left (k - h + 1) (List.length_take_le k (recency [] us))
  omega

end Aqa.Lib
