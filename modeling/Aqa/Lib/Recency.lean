/-
# Aqa.Lib.Recency — least-recently-used lists.

`recency init us` is the order in which keys were last used: most recent first, over a starting
order `init`. A cache of capacity `cap` that moves a used key to the front and drops the last one
when full holds exactly the first `cap` keys of that order (`foldl_touch`). A key used once and
not again stays among them while fewer than `cap` other keys are used (`mem_take_recency_iff`).

`lruPut` is the same cache with values. A read that finds a value refreshes the entry, which is
`lruPut` of the value read, so one operation covers writes, hits and refills. A cache that sees every
write, and refills with the newest value only, is `Current`: it never holds an older one.
-/
import Aqa.Lib.History

namespace Aqa.Lib

variable {κ ν : Type*} [DecidableEq κ]

/-! ## The order of last use -/

/-- Move a used key to the front of a cache of capacity `cap`. -/
def touch (cap : Nat) (l : List κ) (k : κ) : List κ := (k :: l.erase k).take cap

/-- The keys in order of last use, most recent first. -/
def recency (init us : List κ) : List κ := us.foldl (fun l k => k :: l.erase k) init

@[simp]
theorem recency_nil (init : List κ) : recency init [] = init := rfl

theorem recency_append (init us vs : List κ) :
    recency init (us ++ vs) = recency (recency init us) vs := List.foldl_append

theorem recency_concat (init us : List κ) (k : κ) :
    recency init (us ++ [k]) = k :: (recency init us).erase k := by
  rw [recency_append]
  rfl

theorem nodup_recency {init : List κ} (h : init.Nodup) (us : List κ) : (recency init us).Nodup := by
  induction us using List.reverseRecOn with
  | nil => exact h
  | append_singleton us k ih =>
      rw [recency_concat, List.nodup_cons]
      exact ⟨fun hmem => ((List.Nodup.mem_erase_iff ih).mp hmem).1 rfl, ih.erase k⟩

theorem mem_recency_iff {init : List κ} {us : List κ} {k : κ} :
    k ∈ recency init us ↔ k ∈ us ∨ k ∈ init := by
  induction us using List.reverseRecOn with
  | nil => simp
  | append_singleton us j ih =>
      rw [recency_concat, List.mem_cons, List.mem_append, List.mem_singleton]
      by_cases hj : k = j
      · simp [hj]
      · rw [List.mem_erase_of_ne hj, ih]
        tauto

/-- Dropping the tail before a use is the same as dropping it afterwards. -/
theorem touch_take (cap : Nat) (l : List κ) (k : κ) :
    touch cap (l.take cap) k = touch cap l k := by
  cases cap with
  | zero => simp [touch]
  | succ n =>
      simp only [touch, List.take_succ_cons, List.cons.injEq, true_and]
      induction l generalizing n with
      | nil => simp
      | cons x xs ih =>
          rw [List.take_succ_cons]
          by_cases hx : x = k
          · subst hx
            rw [List.erase_cons_head, List.erase_cons_head, List.take_take, Nat.min_self]
          · have hbeq : ¬ (x == k) = true := by simpa using hx
            rw [List.erase_cons_tail hbeq, List.erase_cons_tail hbeq]
            cases n with
            | zero => simp
            | succ m =>
                rw [List.take_succ_cons, List.take_succ_cons, ih m]

/-- **A bounded recency list is a prefix of the unbounded one.** -/
theorem foldl_touch (cap : Nat) (init us : List κ) :
    us.foldl (touch cap) (init.take cap) = (recency init us).take cap := by
  induction us using List.reverseRecOn with
  | nil => rfl
  | append_singleton us k ih =>
      rw [List.foldl_append, ih, List.foldl_cons, List.foldl_nil, touch_take, recency_concat]
      rfl

/-- The keys used after `k` stand before it, and nothing else does. -/
theorem recency_cons_of_not_mem {us : List κ} {k : κ} (l : List κ) (hk : k ∉ us) :
    ∃ before after, recency (k :: l) us = before ++ k :: after ∧
      before.Nodup ∧ ∀ j, j ∈ before ↔ j ∈ us := by
  induction us using List.reverseRecOn with
  | nil => exact ⟨[], l, rfl, List.nodup_nil, by simp⟩
  | append_singleton us j ih =>
      have hkus : k ∉ us := fun hmem => hk (List.mem_append_left _ hmem)
      have hne : j ≠ k := fun heq => hk (by simp [heq])
      obtain ⟨before, after, heq, hbnd, hmem⟩ := ih hkus
      rw [recency_concat, heq]
      by_cases hj : j ∈ before
      · refine ⟨j :: before.erase j, after, ?_, ?_, ?_⟩
        · rw [List.erase_append_left _ hj, List.cons_append]
        · rw [List.nodup_cons]
          exact ⟨fun hmem' => ((List.Nodup.mem_erase_iff hbnd).mp hmem').1 rfl, hbnd.erase j⟩
        · intro i
          rw [List.mem_cons, List.mem_append, List.mem_singleton, List.Nodup.mem_erase_iff hbnd,
            hmem i]
          have := (hmem j).mp hj
          grind
      · refine ⟨j :: before, after.erase j, ?_, ?_, ?_⟩
        · have hbeq : ¬ (k == j) = true := by simpa using Ne.symm hne
          rw [List.erase_append_right _ hj, List.erase_cons_tail hbeq, List.cons_append]
        · exact List.nodup_cons.mpr ⟨hj, hbnd⟩
        · intro i
          rw [List.mem_cons, List.mem_append, List.mem_singleton, hmem i]
          tauto

omit [DecidableEq κ] in
theorem mem_take_append_cons_iff {before after : List κ} {k : κ} {cap : Nat}
    (hnd : (before ++ k :: after).Nodup) :
    k ∈ (before ++ k :: after).take cap ↔ before.length < cap := by
  constructor
  · intro hmem
    by_contra hlt
    have hk : k ∉ before := by
      intro hb
      exact (List.nodup_append.mp hnd).2.2 k hb k (by simp) rfl
    rw [List.take_append_of_le_length (by omega)] at hmem
    exact hk (List.mem_of_mem_take hmem)
  · intro hlt
    rw [List.take_append, List.mem_append]
    right
    obtain ⟨n, hn⟩ : ∃ n, cap - before.length = n + 1 := ⟨cap - before.length - 1, by omega⟩
    rw [hn, List.take_succ_cons]
    exact List.mem_cons_self

/-- **Eviction criterion.** After its last use a key stays in a cache of capacity `cap` exactly
while fewer than `cap` distinct keys are used. -/
theorem mem_take_recency_iff {init us : List κ} {k : κ} {cap : Nat} (hnd : init.Nodup)
    (hk : k ∉ us) :
    k ∈ (recency (k :: init.erase k) us).take cap ↔ us.toFinset.card < cap := by
  have hcons : (k :: init.erase k).Nodup := List.nodup_cons.mpr
    ⟨fun hmem => ((List.Nodup.mem_erase_iff hnd).mp hmem).1 rfl, hnd.erase k⟩
  obtain ⟨before, after, heq, hbnd, hmem⟩ := recency_cons_of_not_mem (init.erase k) hk
  have hcard : us.toFinset.card = before.length := by
    rw [← List.toFinset_card_of_nodup hbnd]
    congr 1
    ext j
    rw [List.mem_toFinset, List.mem_toFinset, hmem j]
  have hnd' := nodup_recency hcons us
  rw [heq] at hnd' ⊢
  rw [mem_take_append_cons_iff hnd', hcard]

/-- The last use of `b` lies before a use of `a`. -/
def StalerThan (us : List κ) (b a : κ) : Prop :=
  ∃ before after, us = before ++ b :: after ∧ b ∉ after ∧ a ∈ after

omit [DecidableEq κ] in
/-- A key that has been used has a last use. -/
theorem exists_last_use {us : List κ} {k : κ} (h : k ∈ us) :
    ∃ before after, us = before ++ k :: after ∧ k ∉ after := by
  obtain ⟨after, before, heq, hnot⟩ := List.eq_append_cons_of_mem (List.mem_reverse.mpr h)
  refine ⟨before.reverse, after.reverse, ?_, by rw [List.mem_reverse]; exact hnot⟩
  rw [← List.reverse_reverse us, heq, List.reverse_append, List.reverse_cons, List.append_assoc]
  rfl

/-- In the order of last use whatever stands behind a key is staler. -/
theorem pairwise_recency (us : List κ) :
    (recency [] us).Pairwise fun a b => StalerThan us b a := by
  induction us using List.reverseRecOn with
  | nil => exact List.Pairwise.nil
  | append_singleton us k ih =>
      have hnodup := nodup_recency List.nodup_nil us
      have hne : ∀ b ∈ (recency [] us).erase k, b ≠ k ∧ b ∈ us := by
        intro b hb
        obtain ⟨hbk, hmem⟩ := (List.Nodup.mem_erase_iff hnodup).mp hb
        exact ⟨hbk, (mem_recency_iff.mp hmem).resolve_right (by simp)⟩
      rw [recency_concat, List.pairwise_cons]
      constructor
      · intro b hb
        obtain ⟨hbk, hus⟩ := hne b hb
        obtain ⟨before, after, rfl, hafter⟩ := exists_last_use hus
        refine ⟨before, after ++ [k], by simp, ?_, by simp⟩
        simp [hafter, hbk]
      · apply (ih.sublist (List.erase_sublist)).imp_of_mem
        rintro a b - hb ⟨before, after, heq, hafter, ha⟩
        refine ⟨before, after ++ [k], by simp [heq], ?_, by simp [ha]⟩
        simp [hafter, (hne b hb).1]

theorem length_recency (us : List κ) : (recency [] us).length = us.toFinset.card := by
  rw [← List.toFinset_card_of_nodup (nodup_recency List.nodup_nil us)]
  congr 1
  ext j
  rw [List.mem_toFinset, List.mem_toFinset, mem_recency_iff]
  simp

/-- A full cache makes room by losing its last key. -/
theorem touch_of_full {cap : Nat} {init : List κ} {x k : κ} (hcap : cap = init.length + 1)
    (hk : k ∉ init ++ [x]) : touch cap (init ++ [x]) k = k :: init := by
  rw [touch, List.erase_of_not_mem hk, hcap, List.take_succ_cons, List.take_left]

/-- While there is room nothing is lost. -/
theorem touch_of_room {cap : Nat} {l : List κ} {k : κ} (hroom : (l.erase k).length < cap) :
    touch cap l k = k :: l.erase k := by
  rw [touch, List.take_of_length_le (by rw [List.length_cons]; omega)]

/-- A key just used is in front, and stays there. -/
theorem touch_touch {cap : Nat} (hcap : 1 ≤ cap) (l : List κ) (k : κ) :
    touch cap (touch cap l k) k = touch cap l k := by
  obtain ⟨n, rfl⟩ : ∃ n, cap = n + 1 := ⟨cap - 1, by omega⟩
  simp only [touch, List.take_succ_cons, List.erase_cons_head, List.take_take, Nat.min_self]

/-! ## The cache with values -/

/-- The value a cache holds for `k`. -/
def cachedValue : List (κ × ν) → κ → Option ν
  | [], _ => none
  | e :: l, k => if e.1 = k then some e.2 else cachedValue l k

/-- The entries of the other keys. -/
def dropKey (l : List (κ × ν)) (k : κ) : List (κ × ν) := l.filter (fun e => e.1 ≠ k)

/-- Use `k` with value `v` in a cache of capacity `cap`. -/
def lruPut (cap : Nat) (l : List (κ × ν)) (k : κ) (v : ν) : List (κ × ν) :=
  ((k, v) :: dropKey l k).take cap

theorem keys_dropKey {l : List (κ × ν)} (h : (l.map Prod.fst).Nodup) (k : κ) :
    (dropKey l k).map Prod.fst = (l.map Prod.fst).erase k := by
  induction l with
  | nil => rfl
  | cons e l ih =>
      rw [List.map_cons, List.nodup_cons] at h
      have ih' := ih h.2
      rw [dropKey] at ih' ⊢
      by_cases he : e.1 = k
      · subst he
        rw [List.filter_cons_of_neg (by simp), ih', List.map_cons, List.erase_cons_head,
          List.erase_of_not_mem h.1]
      · have hbeq : ¬ (e.1 == k) = true := by simpa using he
        rw [List.filter_cons_of_pos (by simpa using he), List.map_cons, ih', List.map_cons,
          List.erase_cons_tail hbeq]

theorem mem_keys_dropKey {l : List (κ × ν)} {k j : κ} :
    j ∈ (dropKey l k).map Prod.fst ↔ j ∈ l.map Prod.fst ∧ j ≠ k := by
  constructor
  · intro hj
    obtain ⟨e, he, rfl⟩ := List.mem_map.mp hj
    obtain ⟨hmem, hne⟩ := List.mem_filter.mp he
    exact ⟨List.mem_map_of_mem hmem, by simpa using hne⟩
  · rintro ⟨hj, hne⟩
    obtain ⟨e, he, rfl⟩ := List.mem_map.mp hj
    exact List.mem_map_of_mem (List.mem_filter.mpr ⟨he, by simpa using hne⟩)

/-- Dropping a key that is there drops one entry. -/
theorem length_dropKey {l : List (κ × ν)} (h : (l.map Prod.fst).Nodup) {k : κ}
    (hk : k ∈ l.map Prod.fst) : (dropKey l k).length + 1 = l.length := by
  have herase := congrArg List.length (keys_dropKey h k)
  rw [List.length_map, List.length_erase_of_mem hk, List.length_map] at herase
  have hpos := List.length_pos_of_mem hk
  rw [List.length_map] at hpos
  omega

/-- Dropping a key that is not there drops nothing. -/
theorem dropKey_of_not_mem {l : List (κ × ν)} {k : κ} (hk : k ∉ l.map Prod.fst) :
    dropKey l k = l := by
  rw [dropKey, List.filter_eq_self]
  intro e he
  simp only [ne_eq, decide_eq_true_eq]
  rintro rfl
  exact hk (List.mem_map_of_mem he)

/-- Dropping the key of the last entry drops the last entry. -/
theorem dropKey_getLast {l : List (κ × ν)} (h : (l.map Prod.fst).Nodup) (hne : l ≠ []) :
    dropKey l (l.getLast hne).1 = l.dropLast := by
  obtain ⟨init, e, rfl⟩ := (List.eq_nil_or_concat l).resolve_left hne
  simp only [List.concat_eq_append] at h ⊢
  rw [List.getLast_append_singleton, List.dropLast_concat]
  rw [List.map_append, List.map_singleton, List.nodup_append] at h
  have hkept : dropKey init e.1 = init := by
    apply dropKey_of_not_mem
    exact fun hmem => h.2.2 e.1 hmem e.1 (by simp) rfl
  have hdropped : dropKey [e] e.1 = [] := by simp [dropKey]
  unfold dropKey at hkept hdropped ⊢
  rw [List.filter_append, hkept, hdropped, List.append_nil]

theorem keys_lruPut {l : List (κ × ν)} (h : (l.map Prod.fst).Nodup) (cap : Nat) (k : κ) (v : ν) :
    (lruPut cap l k v).map Prod.fst = touch cap (l.map Prod.fst) k := by
  rw [lruPut, List.map_take, List.map_cons, keys_dropKey h, touch]

/-- Using a key that is there keeps the keys. -/
theorem mem_keys_lruPut_of_mem {l : List (κ × ν)} (h : (l.map Prod.fst).Nodup) {cap : Nat}
    (hroom : l.length ≤ cap) {k : κ} (hk : k ∈ l.map Prod.fst) (v : ν) (j : κ) :
    j ∈ (lruPut cap l k v).map Prod.fst ↔ j ∈ l.map Prod.fst := by
  have hpos := List.length_pos_of_mem hk
  rw [List.length_map] at hpos
  rw [keys_lruPut h, touch_of_room (by
    rw [List.length_erase_of_mem hk, List.length_map]
    omega), List.mem_cons, h.mem_erase_iff]
  by_cases hj : j = k
  · simp [hj, hk]
  · simp [hj]

theorem nodup_keys_lruPut {l : List (κ × ν)} (h : (l.map Prod.fst).Nodup) (cap : Nat) (k : κ)
    (v : ν) : ((lruPut cap l k v).map Prod.fst).Nodup := by
  rw [keys_lruPut h, touch]
  apply List.Nodup.sublist (List.take_sublist _ _)
  exact List.nodup_cons.mpr ⟨fun hmem => ((List.Nodup.mem_erase_iff h).mp hmem).1 rfl, h.erase k⟩

theorem length_lruPut_le (cap : Nat) (l : List (κ × ν)) (k : κ) (v : ν) :
    (lruPut cap l k v).length ≤ cap := by
  rw [lruPut, List.length_take]
  exact Nat.min_le_left _ _

theorem cachedValue_eq_some_iff {l : List (κ × ν)} (h : (l.map Prod.fst).Nodup) {k : κ} {v : ν} :
    cachedValue l k = some v ↔ (k, v) ∈ l := by
  induction l with
  | nil => simp [cachedValue]
  | cons e l ih =>
      rw [List.map_cons, List.nodup_cons] at h
      rw [cachedValue, List.mem_cons]
      by_cases he : e.1 = k
      · subst he
        have hnot : (e.1, v) ∉ l := fun hmem => h.1 (List.mem_map.mpr ⟨_, hmem, rfl⟩)
        simp only [if_pos, Option.some.injEq]
        constructor
        · rintro rfl
          exact Or.inl rfl
        · rintro (heq | hmem)
          · rw [← heq]
          · exact absurd hmem hnot
      · rw [if_neg he, ih h.2]
        constructor
        · exact Or.inr
        · rintro (heq | hmem)
          · exact absurd (by rw [← heq]) he
          · exact hmem

theorem cachedValue_isSome_iff (l : List (κ × ν)) (k : κ) :
    (cachedValue l k).isSome ↔ k ∈ l.map Prod.fst := by
  induction l with
  | nil => simp [cachedValue]
  | cons e l ih =>
      rw [cachedValue, List.map_cons, List.mem_cons]
      by_cases he : e.1 = k
      · simp [he]
      · rw [if_neg he, ih]
        simp [Ne.symm he]

theorem cachedValue_eq_none_iff (l : List (κ × ν)) (k : κ) :
    cachedValue l k = none ↔ k ∉ l.map Prod.fst := by
  rw [← cachedValue_isSome_iff, Option.not_isSome_iff_eq_none]

/-- A use makes its own value readable, whatever the cache held. -/
theorem cachedValue_lruPut_self {cap : Nat} (hcap : 1 ≤ cap) (l : List (κ × ν)) (k : κ) (v : ν) :
    cachedValue (lruPut cap l k v) k = some v := by
  obtain ⟨n, rfl⟩ : ∃ n, cap = n + 1 := ⟨cap - 1, by omega⟩
  rw [lruPut, List.take_succ_cons, cachedValue, if_pos rfl]

/-- A use of one key never changes the value of another; at most it evicts it. -/
theorem cachedValue_lruPut_of_ne {cap : Nat} {l : List (κ × ν)} (h : (l.map Prod.fst).Nodup)
    {k j : κ} (hne : j ≠ k) (v : ν) {w : ν} (hj : cachedValue (lruPut cap l k v) j = some w) :
    cachedValue l j = some w := by
  rw [cachedValue_eq_some_iff (nodup_keys_lruPut h cap k v)] at hj
  have hmem := List.mem_of_mem_take hj
  rcases List.mem_cons.mp hmem with heq | hmem
  · exact absurd (congrArg Prod.fst heq) hne
  · exact (cachedValue_eq_some_iff h).mpr (List.mem_filter.mp hmem).1

/-- A run of uses, oldest first. -/
def lruUses (cap : Nat) (l : List (κ × ν)) (us : List (κ × ν)) : List (κ × ν) :=
  us.foldl (fun l e => lruPut cap l e.1 e.2) l

theorem lruUses_concat (cap : Nat) (l us : List (κ × ν)) (e : κ × ν) :
    lruUses cap l (us ++ [e]) = lruPut cap (lruUses cap l us) e.1 e.2 := by
  rw [lruUses, List.foldl_append]
  rfl

theorem nodup_keys_lruUses {l : List (κ × ν)} (h : (l.map Prod.fst).Nodup) (cap : Nat)
    (us : List (κ × ν)) : ((lruUses cap l us).map Prod.fst).Nodup := by
  induction us using List.reverseRecOn with
  | nil => exact h
  | append_singleton us e ih =>
      rw [lruUses_concat]
      exact nodup_keys_lruPut ih cap e.1 e.2

/-- The cached keys of a run are the first `cap` keys in order of last use. -/
theorem keys_lruUses {cap : Nat} {l : List (κ × ν)} (h : (l.map Prod.fst).Nodup)
    (hlen : l.length ≤ cap) (us : List (κ × ν)) :
    (lruUses cap l us).map Prod.fst =
      (recency (l.map Prod.fst) (us.map Prod.fst)).take cap := by
  rw [← foldl_touch]
  rw [List.take_of_length_le (by rw [List.length_map]; exact hlen)]
  induction us using List.reverseRecOn with
  | nil => rfl
  | append_singleton us e ih =>
      rw [lruUses_concat, keys_lruPut (nodup_keys_lruUses h cap us), ih, List.map_append,
        List.foldl_append]
      rfl

/-! ## Caches that hold the newest values -/

theorem eq_or_of_cachedValue_lruPut {cap : Nat} {l : List (κ × ν)} (h : (l.map Prod.fst).Nodup)
    {k j : κ} {v w : ν} (hj : cachedValue (lruPut cap l k v) j = some w) :
    (j = k ∧ w = v) ∨ (j ≠ k ∧ cachedValue l j = some w) := by
  by_cases hne : j = k
  · left
    subst hne
    rcases Nat.eq_zero_or_pos cap with rfl | hcap
    · simp [lruPut, cachedValue] at hj
    · rw [cachedValue_lruPut_self hcap] at hj
      exact ⟨rfl, (Option.some.inj hj).symm⟩
  · exact Or.inr ⟨hne, cachedValue_lruPut_of_ne h hne v hj⟩

/-- Every cached value is the one written last. -/
structure Current (l h : List (κ × ν)) : Prop where
  nodup : (l.map Prod.fst).Nodup
  newest : ∀ k v, cachedValue l k = some v → lastWrite h k = some v

theorem current_nil (h : List (κ × ν)) : Current [] h where
  nodup := List.nodup_nil
  newest := by simp [cachedValue]

/-- A write goes through the cache. -/
theorem Current.write {l h : List (κ × ν)} (hc : Current l h) (cap : Nat) (k : κ) (v : ν) :
    Current (lruPut cap l k v) (h ++ [(k, v)]) where
  nodup := nodup_keys_lruPut hc.nodup cap k v
  newest := by
    intro j w hj
    rw [lastWrite_concat]
    rcases eq_or_of_cachedValue_lruPut hc.nodup hj with ⟨rfl, rfl⟩ | ⟨hne, hj⟩
    · rw [if_pos rfl]
    · rw [if_neg (Ne.symm hne)]
      exact hc.newest j w hj

/-- A read enters the newest value. -/
theorem Current.read {l h : List (κ × ν)} (hc : Current l h) (cap : Nat) {k : κ} {v : ν}
    (hv : lastWrite h k = some v) : Current (lruPut cap l k v) h where
  nodup := nodup_keys_lruPut hc.nodup cap k v
  newest := by
    intro j w hj
    rcases eq_or_of_cachedValue_lruPut hc.nodup hj with ⟨rfl, rfl⟩ | ⟨-, hj⟩
    · exact hv
    · exact hc.newest j w hj

theorem current_lruUses (cap : Nat) (us : List (κ × ν)) : Current (lruUses cap [] us) us := by
  induction us using List.reverseRecOn with
  | nil => exact current_nil []
  | append_singleton us e ih =>
      rw [lruUses_concat]
      exact ih.write cap e.1 e.2

end Aqa.Lib
