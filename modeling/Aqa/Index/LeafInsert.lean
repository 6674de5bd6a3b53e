/-
# Aqa.Index.LeafInsert — a leaf page as a sorted map.

The entries of a leaf page are the pairs below `size`. As long as their keys increase, the binary
search of `Insert` finds the place of a new key, the shifting loop opens it, and the keys increase
again (`insert_spec`). Over a run of inserts the entries are the accepted calls in key order, and
every later call with a key the page holds finds the first value (`Inserted`).
-/
import Aqa.Index.BPlusTreePage
import Mathlib.Data.List.Induction

namespace Aqa

open Aqa.Lib

namespace BPlusTreeLeafPage

variable {K V : Type*}

/-- The entries of a page. -/
def stored (p : BPlusTreeLeafPage K V) : List (K × V) := (List.range p.size).map p.array

/-- The keys of the entries. -/
def storedKeys (p : BPlusTreeLeafPage K V) : List K := p.stored.map Prod.fst

@[simp]
theorem length_stored (p : BPlusTreeLeafPage K V) : p.stored.length = p.size := by
  simp [stored]

@[simp]
theorem length_storedKeys (p : BPlusTreeLeafPage K V) : p.storedKeys.length = p.size := by
  simp [storedKeys]

theorem getElem_stored (p : BPlusTreeLeafPage K V) {i : Nat} (hi : i < p.stored.length) :
    p.stored[i] = p.array i := by
  simp [stored]

theorem getElem_storedKeys (p : BPlusTreeLeafPage K V) {i : Nat} (hi : i < p.storedKeys.length) :
    p.storedKeys[i] = p.keyAt i := by
  simp [storedKeys, stored, keyAt]

/-! ## The shifting loop -/

/-- The loop moves the slots behind `index` up by one, as far as it was started. -/
theorem shift_eq (index n : Nat) (array : Nat → K × V) (j : Nat) :
    shift index n array j = if index < j ∧ j ≤ n then array (j - 1) else array j := by
  induction n generalizing array with
  | zero =>
      rw [shift, if_neg (by omega)]
  | succ n ih =>
      rw [shift]
      by_cases hbehind : n + 1 > index
      · rw [if_pos hbehind, ih]
        by_cases hlast : j = n + 1
        · -- the slot that was written first
          subst hlast
          rw [if_neg (by omega), Function.update_self, if_pos ⟨hbehind, Nat.le_refl _⟩]
          rfl
        · by_cases hmoved : index < j ∧ j ≤ n
          · rw [if_pos hmoved, if_pos (by omega), Function.update_of_ne (by omega)]
          · rw [if_neg hmoved, if_neg (by omega), Function.update_of_ne hlast]
      · rw [if_neg hbehind, if_neg (by omega)]

theorem size_place (p : BPlusTreeLeafPage K V) (index : Nat) (e : K × V) :
    (p.place index e).size = p.size + 1 := rfl

theorem array_place (p : BPlusTreeLeafPage K V) (index : Nat) (e : K × V) :
    (p.place index e).array = Function.update (shift index p.size p.array) index e := rfl

/-- Placing an entry inserts it into the list of entries. -/
theorem stored_place (p : BPlusTreeLeafPage K V) {index : Nat} (hindex : index ≤ p.size)
    (e : K × V) : (p.place index e).stored = p.stored.insertIdx index e := by
  apply List.ext_getElem
  · rw [List.length_insertIdx_of_le_length (by rw [length_stored]; exact hindex), length_stored,
      length_stored, size_place]
  · intro j hj hj'
    rw [getElem_stored, array_place]
    rw [length_stored, size_place] at hj
    rcases Nat.lt_trichotomy j index with hlt | rfl | hgt
    · rw [Function.update_of_ne (by omega), shift_eq, if_neg (by omega),
        List.getElem_insertIdx_of_lt hlt, getElem_stored]
    · rw [Function.update_self, List.getElem_insertIdx_self]
    · rw [Function.update_of_ne (by omega), shift_eq, if_pos (by omega),
        List.getElem_insertIdx_of_gt hgt, getElem_stored]

/-- No slot behind the new entries is written. -/
theorem array_place_of_gt (p : BPlusTreeLeafPage K V) {index : Nat} (hindex : index ≤ p.size)
    (e : K × V) {j : Nat} (hj : p.size < j) : (p.place index e).array j = p.array j := by
  rw [array_place, Function.update_of_ne (by omega), shift_eq, if_neg (by omega)]

theorem mem_stored_iff {p : BPlusTreeLeafPage K V} {e : K × V} :
    e ∈ p.stored ↔ ∃ i < p.size, p.array i = e := by
  simp [stored]

/-- The keys of a page with a new entry at an index. -/
theorem keyAt_place (p : BPlusTreeLeafPage K V) {index : Nat} (e : K × V) {j : Nat}
    (hj : j ≤ p.size) :
    (p.place index e).keyAt j =
      if j < index then p.keyAt j else if j = index then e.1 else p.keyAt (j - 1) := by
  unfold keyAt
  rw [array_place]
  by_cases hlt : j < index
  · rw [if_pos hlt, Function.update_of_ne (by omega), shift_eq, if_neg (by omega)]
  · rw [if_neg hlt]
    by_cases hidx : j = index
    · rw [if_pos hidx, hidx, Function.update_self]
    · rw [if_neg hidx, Function.update_of_ne hidx, shift_eq, if_pos (by omega)]

/-! ## Entries in order -/

variable (comparator : K → K → Prop)

/-- Keys the comparator does not tell apart. -/
def Equivalent (a b : K) : Prop := ¬ comparator a b ∧ ¬ comparator b a

instance [DecidableRel comparator] (a b : K) : Decidable (Equivalent comparator a b) := inferInstanceAs (Decidable (_ ∧ _))

/-- The keys of the entries increase. -/
def Sorted (p : BPlusTreeLeafPage K V) : Prop := p.storedKeys.Pairwise comparator

/-- A page that takes no entry with this key: it is full, or has one with an equivalent key. -/
def Refuses (p : BPlusTreeLeafPage K V) (key : K) : Prop :=
  (p.size : Int) ≥ p.maxSize ∨ ∃ e ∈ p.stored, Equivalent comparator e.1 key

variable {comparator}

theorem sorted_iff {p : BPlusTreeLeafPage K V} :
    p.Sorted comparator ↔ ∀ i j, i < j → j < p.size → comparator (p.keyAt i) (p.keyAt j) := by
  unfold Sorted
  rw [List.pairwise_iff_getElem]
  constructor
  · intro h i j hij hj
    have hlt := h i j (by rw [length_storedKeys]; omega) (by rw [length_storedKeys]; exact hj) hij
    rwa [getElem_storedKeys, getElem_storedKeys] at hlt
  · intro h i j hi hj hij
    rw [getElem_storedKeys, getElem_storedKeys]
    rw [length_storedKeys] at hj
    exact h i j hij hj

/-- Whatever a page refuses, it refuses with one entry more. -/
theorem Refuses.place {q : BPlusTreeLeafPage K V} {k : K} (h : q.Refuses comparator k)
    {index : Nat} (hindex : index ≤ q.size) (e : K × V) :
    (q.place index e).Refuses comparator k := by
  rcases h with hfull | ⟨e', he', heq⟩
  · refine Or.inl ?_
    show ((q.size + 1 : Nat) : Int) ≥ q.maxSize
    omega
  · refine Or.inr ⟨e', ?_, heq⟩
    rw [stored_place q hindex, List.mem_insertIdx (by rw [length_stored]; exact hindex)]
    exact Or.inr he'

/-! ## Runs -/

variable [DecidableRel comparator]

/-- The page after some calls of `Insert`. -/
def inserts (comparator : K → K → Prop) [DecidableRel comparator] (p : BPlusTreeLeafPage K V) (calls : List (K × V)) :
    BPlusTreeLeafPage K V :=
  calls.foldl (fun p call => (p.insert comparator call.1 call.2).2) p

/-- The calls that did not return -1. -/
def accepted (comparator : K → K → Prop) [DecidableRel comparator] (p : BPlusTreeLeafPage K V) :
    List (K × V) → List (K × V)
  | [] => []
  | call :: calls =>
      let out := p.insert comparator call.1 call.2
      (if out.1 = -1 then [] else [call]) ++ accepted comparator out.2 calls

theorem inserts_concat (p : BPlusTreeLeafPage K V) (calls : List (K × V)) (call : K × V) :
    p.inserts comparator (calls ++ [call]) =
      ((p.inserts comparator calls).insert comparator call.1 call.2).2 := by
  rw [inserts, List.foldl_append]
  rfl

theorem accepted_concat (p : BPlusTreeLeafPage K V) (calls : List (K × V)) (call : K × V) :
    p.accepted comparator (calls ++ [call]) = p.accepted comparator calls ++
      if ((p.inserts comparator calls).insert comparator call.1 call.2).1 = -1 then []
      else [call] := by
  induction calls generalizing p with
  | nil => exact List.append_nil _
  | cons c calls ih =>
      rw [List.cons_append, accepted, accepted, ih, List.append_assoc]
      rfl

/-- What a run of inserts has made of a page that had no entries. -/
structure Inserted (comparator : K → K → Prop) [DecidableRel comparator]
    (fresh : BPlusTreeLeafPage K V) (calls : List (K × V)) (p : BPlusTreeLeafPage K V)
    (acc : List (K × V)) : Prop where
  sorted : p.Sorted comparator
  size : (p.size : Int) ≤ p.maxSize
  maxSize : p.maxSize = fresh.maxSize
  perm : p.stored.Perm acc
  refuses : ∀ call ∈ calls, p.Refuses comparator call.1
  first : ∀ e ∈ acc, (calls.find? fun call => Equivalent comparator call.1 e.1) = some e
  behind : ∀ i : Nat, p.maxSize ≤ i → p.array i = fresh.array i

theorem inserted_nil {fresh : BPlusTreeLeafPage K V} (hsize : fresh.size = 0)
    (hmax : 0 ≤ fresh.maxSize) : Inserted comparator fresh [] fresh [] where
  sorted := by simp [Sorted, storedKeys, stored, hsize]
  size := by rw [hsize]; exact hmax
  maxSize := rfl
  perm := by simp [stored, hsize]
  refuses := by simp
  first := by simp
  behind _ _ := rfl

/-! ## The search -/

variable [IsStrictWeakOrder K comparator] {p : BPlusTreeLeafPage K V}

/-- **`KeyIndex` counts the smaller keys.** -/
theorem keyIndex_eq (h : p.Sorted comparator) (key : K) :
    p.keyIndex comparator key = p.storedKeys.countP fun k => comparator k key := by
  have heq := BinarySearch.lowerBound_eq_countP comparator h
    (fun i hi => (p.getElem_storedKeys hi).symm) key
  rw [length_storedKeys] at heq
  exact heq

theorem keyIndex_le (h : p.Sorted comparator) (key : K) :
    p.keyIndex comparator key ≤ p.size := by
  rw [keyIndex_eq h, ← p.length_storedKeys]
  exact List.countP_le_length

/-- The keys below the index are the smaller ones. -/
theorem keyAt_lt_iff (h : p.Sorted comparator) (key : K) {i : Nat} (hi : i < p.size) :
    comparator (p.keyAt i) key ↔ i < p.keyIndex comparator key := by
  have hsplit : p.storedKeys.Pairwise fun a b =>
      decide (comparator b key) = true → decide (comparator a key) = true := by
    refine h.imp ?_
    intro a b hab hb
    exact decide_eq_true (IsTrans.trans a b key hab (of_decide_eq_true hb))
  have hi' : i < p.storedKeys.length := by rwa [length_storedKeys]
  have hiff := BinarySearch.satisfies_iff_lt_countP hsplit hi'
  rw [p.getElem_storedKeys hi', decide_eq_true_iff] at hiff
  rw [hiff, keyIndex_eq h]

/-- An equivalent key is at the index `KeyIndex` gives. -/
theorem keyIndex_of_equivalent (h : p.Sorted comparator) {key : K} {i : Nat} (hi : i < p.size)
    (heq : Equivalent comparator (p.keyAt i) key) : p.keyIndex comparator key = i := by
  have hle : ¬ i < p.keyIndex comparator key := fun hlt => heq.1 ((keyAt_lt_iff h key hi).mpr hlt)
  by_contra hne
  -- the key at the index would lie below the equivalent one, and so below the key itself
  have hlt : p.keyIndex comparator key < i := by omega
  rcases BinarySearch.lt_or_lt_of_lt (sorted_iff.mp h _ _ hlt hi) key with hbelow | habove
  · have := (keyAt_lt_iff h key (by omega)).mp hbelow
    omega
  · exact heq.2 habove

/-- A key that no entry is equivalent to takes its place among the others. -/
theorem sorted_place (h : p.Sorted comparator) {key : K} (value : V)
    (hnew : ∀ i < p.size, ¬ Equivalent comparator (p.keyAt i) key) :
    (p.place (p.keyIndex comparator key) (key, value)).Sorted comparator := by
  have habove : ∀ i < p.size, p.keyIndex comparator key ≤ i → comparator key (p.keyAt i) := by
    intro i hi hle
    by_contra hnot
    refine hnew i hi ⟨fun hlt => ?_, hnot⟩
    have := (keyAt_lt_iff h key hi).mp hlt
    omega
  have hbelow : ∀ i < p.size, i < p.keyIndex comparator key → comparator (p.keyAt i) key :=
    fun i hi hlt => (keyAt_lt_iff h key hi).mpr hlt
  rw [sorted_iff]
  intro i j hij hj
  rw [size_place] at hj
  rw [keyAt_place p _ (by omega), keyAt_place p _ (by omega)]
  by_cases hi : i < p.keyIndex comparator key
  · rw [if_pos hi]
    by_cases hj' : j < p.keyIndex comparator key
    · rw [if_pos hj']
      exact sorted_iff.mp h i j hij (by have := keyIndex_le h key; omega)
    · rw [if_neg hj']
      split
      · exact hbelow i (by have := keyIndex_le h key; omega) hi
      · exact sorted_iff.mp h i (j - 1) (by omega) (by omega)
  · rw [if_neg hi, if_neg (show ¬ j < p.keyIndex comparator key by omega),
      if_neg (show ¬ j = p.keyIndex comparator key by omega)]
    split
    · exact habove (j - 1) (by omega) (by omega)
    · exact sorted_iff.mp h (i - 1) (j - 1) (by omega) (by omega)

/-! ## Inserting -/

/-- **One insert**: the page refuses the key, or the entry takes its place. -/
theorem insert_spec (h : p.Sorted comparator) (key : K) (value : V) :
    (p.Refuses comparator key ∧ p.insert comparator key value = (-1, p)) ∨
      (¬ p.Refuses comparator key ∧
        p.insert comparator key value =
          ((p.size : Int) + 1, p.place (p.keyIndex comparator key) (key, value)) ∧
        (p.place (p.keyIndex comparator key) (key, value)).Sorted comparator) := by
  unfold insert
  dsimp only
  by_cases hfull : (p.size : Int) ≥ p.maxSize
  · rw [if_pos hfull]
    exact Or.inl ⟨Or.inl hfull, rfl⟩
  · rw [if_neg hfull]
    by_cases hfound : p.keyIndex comparator key < p.size ∧
        ¬ comparator (p.keyAt (p.keyIndex comparator key)) key ∧
          ¬ comparator key (p.keyAt (p.keyIndex comparator key))
    · rw [if_pos hfound]
      exact Or.inl ⟨Or.inr ⟨_, mem_stored_iff.mpr ⟨_, hfound.1, rfl⟩, hfound.2⟩, rfl⟩
    · rw [if_neg hfound]
      -- an equivalent key would be found at the index of the search
      have hnew : ∀ i < p.size, ¬ Equivalent comparator (p.keyAt i) key := by
        intro i hi heq
        apply hfound
        rw [keyIndex_of_equivalent h hi heq]
        exact ⟨hi, heq⟩
      refine Or.inr ⟨?_, rfl, sorted_place h value hnew⟩
      rintro (hfull' | ⟨e, he, heq⟩)
      · exact hfull hfull'
      · obtain ⟨i, hi, rfl⟩ := mem_stored_iff.mp he
        exact hnew i hi heq

/-- **One call more.** -/
theorem Inserted.insert {fresh : BPlusTreeLeafPage K V} {calls acc : List (K × V)}
    (h : Inserted comparator fresh calls p acc) (call : K × V) :
    Inserted comparator fresh (calls ++ [call]) (p.insert comparator call.1 call.2).2
      (acc ++ if (p.insert comparator call.1 call.2).1 = -1 then [] else [call]) := by
  have hfind : ∀ e ∈ acc,
      ((calls ++ [call]).find? fun c => Equivalent comparator c.1 e.1) = some e := by
    intro e he
    rw [List.find?_append, h.first e he]
    rfl
  rcases insert_spec h.sorted call.1 call.2 with ⟨hrefuses, heq⟩ | ⟨haccepts, heq, hsorted⟩
  · rw [heq, if_pos rfl, List.append_nil]
    refine ⟨h.sorted, h.size, h.maxSize, h.perm, ?_, hfind, h.behind⟩
    intro c hc
    rcases List.mem_append.mp hc with hc | hc
    · exact h.refuses c hc
    · cases List.mem_singleton.mp hc
      exact hrefuses
  · have hindex := keyIndex_le h.sorted call.1
    have hroom : (p.size : Int) < p.maxSize := by
      by_contra hnot
      exact haccepts (Or.inl (by omega))
    have hself : Equivalent comparator call.1 call.1 :=
      ⟨Std.Irrefl.irrefl call.1, Std.Irrefl.irrefl call.1⟩
    rw [heq, if_neg (show ¬ (p.size : Int) + 1 = -1 by omega)]
    have hstored := stored_place p hindex call
    refine ⟨hsorted, ?_, h.maxSize, ?_, ?_, ?_, ?_⟩
    · show ((p.size + 1 : Nat) : Int) ≤ p.maxSize
      omega
    · show (p.place _ call).stored.Perm _
      rw [hstored]
      refine (List.perm_insertIdx call p.stored (by rw [length_stored]; exact hindex)).trans ?_
      exact ((h.perm.cons call).trans (List.perm_append_singleton call acc).symm)
    · intro c hc
      rcases List.mem_append.mp hc with hc | hc
      · exact (h.refuses c hc).place hindex _
      · cases List.mem_singleton.mp hc
        refine Or.inr ⟨call, ?_, hself⟩
        show call ∈ (p.place _ call).stored
        rw [hstored, List.mem_insertIdx (by rw [length_stored]; exact hindex)]
        exact Or.inl rfl
    · intro e he
      rcases List.mem_append.mp he with he | he
      · exact hfind e he
      · cases List.mem_singleton.mp he
        -- an earlier call with an equivalent key would make the page refuse this one
        have hnone : (calls.find? fun c => Equivalent comparator c.1 call.1) = none := by
          rw [List.find?_eq_none]
          intro c hc heq'
          have heq' := of_decide_eq_true heq'
          rcases h.refuses c hc with hfull | ⟨e, he, hequiv⟩
          · exact haccepts (Or.inl hfull)
          · exact haccepts (Or.inr ⟨e, he,
              IsStrictWeakOrder.incomp_trans e.1 c.1 call.1 hequiv heq'⟩)
        rw [List.find?_append, hnone]
        simp [hself]
    · intro i hi
      rw [← h.behind i hi]
      refine array_place_of_gt p hindex _ ?_
      have hi' : p.maxSize ≤ (i : Int) := hi
      omega

theorem inserted_run {fresh : BPlusTreeLeafPage K V} (hsize : fresh.size = 0)
    (hmax : 0 ≤ fresh.maxSize) (calls : List (K × V)) :
    Inserted comparator fresh calls (fresh.inserts comparator calls)
      (fresh.accepted comparator calls) := by
  induction calls using List.reverseRecOn with
  | nil => exact inserted_nil hsize hmax
  | append_singleton calls call ih =>
      rw [inserts_concat, accepted_concat]
      exact ih.insert call

/-- **A leaf page is a sorted map of bounded size.** For every `max_size` that fits the page and
every run of inserts into a fresh page: the keys increase and are never more than `max_size`, the
entries are the accepted calls, `KeyIndex` counts the smaller keys and finds each accepted key with
the value of the first call with it, and the next call is refused, with nothing changed, exactly if
the page is full or holds an equivalent key. No slot behind the page is written. -/
theorem leaf_page_sorted_map (comparator : K → K → Prop) [DecidableRel comparator]
    [IsStrictWeakOrder K comparator] (pairSize : Nat) (raw : BPlusTreeLeafPage K V)
    (pageId parentId maxSize : Int) (hlow : 0 ≤ maxSize) (hhigh : maxSize ≤ calculatedMax pairSize)
    (calls : List (K × V)) :
    let fresh := raw.init pairSize pageId parentId maxSize
    let p := fresh.inserts comparator calls
    let acc := fresh.accepted comparator calls
    p.Sorted comparator ∧
      p.maxSize = (if maxSize = 0 then (calculatedMax pairSize : Int) else maxSize) ∧
      (p.size : Int) ≤ p.maxSize ∧
      p.stored.Perm acc ∧
      (∀ k, p.keyIndex comparator k = p.storedKeys.countP fun k' => comparator k' k) ∧
      (∀ e ∈ acc, p.stored[p.keyIndex comparator e.1]? = some e ∧
        (calls.find? fun call => Equivalent comparator call.1 e.1) = some e) ∧
      (∀ k v, (p.Refuses comparator k ∧ p.insert comparator k v = (-1, p)) ∨
        (¬ p.Refuses comparator k ∧ (p.insert comparator k v).1 = (p.size : Int) + 1 ∧
          (p.insert comparator k v).2.size = p.size + 1)) ∧
      ∀ i : Nat, calculatedMax pairSize ≤ i → p.array i = raw.array i := by
  intro fresh p acc
  have hmax : fresh.maxSize = if maxSize = 0 then (calculatedMax pairSize : Int) else maxSize := rfl
  have hpos : 0 ≤ fresh.maxSize := by
    rw [hmax]
    split <;> omega
  have h : Inserted comparator fresh calls p acc := inserted_run rfl hpos calls
  refine ⟨h.sorted, h.maxSize.trans hmax, h.size, h.perm, keyIndex_eq h.sorted, ?_, ?_, ?_⟩
  · intro e he
    refine ⟨?_, h.first e he⟩
    obtain ⟨i, hi, hget⟩ := mem_stored_iff.mp (h.perm.mem_iff.mpr he)
    have hkey : p.keyAt i = e.1 := by rw [keyAt, hget]
    have hself : Equivalent comparator (p.keyAt i) e.1 := by
      rw [hkey]
      exact ⟨Std.Irrefl.irrefl e.1, Std.Irrefl.irrefl e.1⟩
    have hlt : i < p.stored.length := by rwa [length_stored]
    rw [keyIndex_of_equivalent h.sorted hi hself, List.getElem?_eq_getElem hlt, getElem_stored,
      hget]
  · intro k v
    rcases insert_spec h.sorted k v with hrefused | ⟨haccepts, heq, -⟩
    · exact Or.inl hrefused
    · rw [heq]
      exact Or.inr ⟨haccepts, rfl, rfl⟩
  · intro i hi
    have hbound : p.maxSize ≤ (i : Int) := by
      rw [h.maxSize, hmax]
      split <;> omega
    exact h.behind i hbound

/-- Four calls, one of them a duplicate and one too many. -/
theorem leaf_page_sorted_map_three :
    let raw : BPlusTreeLeafPage Int Int := ⟨⟨.invalidPage, 0, 0, 0, 0, 0⟩, 0, fun _ => (0, 0)⟩
    let p := (raw.init 8 1 (-1) 2).inserts (· < ·) [(5, 50), (3, 30), (5, 51), (9, 90)]
    p.stored = [(3, 30), (5, 50)] ∧ (p.size : Int) ≤ p.maxSize := by
  have h := leaf_page_sorted_map (· < · : Int → Int → Prop) 8
    ⟨⟨.invalidPage, 0, 0, 0, 0, 0⟩, 0, fun _ => (0, 0)⟩ 1 (-1) 2 (by decide) (by decide)
    [(5, 50), (3, 30), (5, 51), (9, 90)]
  exact ⟨by decide, h.2.2.1⟩

end BPlusTreeLeafPage

end Aqa
