/-
# Aqa.Index.PageUpdates — entries that come in another order, are replaced or are moved.

What the pages owe to code that maintains a tree. A leaf page depends on the set of its entries only,
not on the order of the inserts. In an internal page `ValueIndex` finds the child that `Lookup` has
followed; a child put in its place takes over its keys and no others; and a separator that is moved
hands over the keys between its old and its new place, to the one neighbour or the other.
-/
import Aqa.Index.InternalLookup
import Aqa.Index.LeafInsert

namespace Aqa

open Aqa.Lib

/-! ## Leaf pages -/

namespace BPlusTreeLeafPage

variable {K V : Type*} {comparator : K → K → Prop} [DecidableRel comparator]
  [IsStrictWeakOrder K comparator]

/-- Entries with keys that the comparator tells apart are all taken as long as there is room. -/
theorem accepted_of_distinct {fresh : BPlusTreeLeafPage K V} (hsize : fresh.size = 0)
    {calls : List (K × V)}
    (hdistinct : calls.Pairwise fun a b => ¬ Equivalent comparator a.1 b.1)
    (hroom : (calls.length : Int) ≤ fresh.maxSize) :
    fresh.accepted comparator calls = calls := by
  induction calls using List.reverseRecOn with
  | nil => rfl
  | append_singleton calls call ih =>
      rw [List.length_append, List.length_singleton] at hroom
      obtain ⟨hbefore, -, hlast⟩ := List.pairwise_append.mp hdistinct
      have hacc := ih hbefore (by omega)
      have hrun : Inserted comparator fresh calls (fresh.inserts comparator calls)
          (fresh.accepted comparator calls) := inserted_run hsize (by omega) calls
      rw [hacc] at hrun
      have hlength : (fresh.inserts comparator calls).size = calls.length := by
        rw [← length_stored, hrun.perm.length_eq]
      have haccepts : ¬ (fresh.inserts comparator calls).Refuses comparator call.1 := by
        rintro (hfull | ⟨e, he, hequiv⟩)
        · rw [hlength, hrun.maxSize] at hfull
          omega
        · exact hlast e (hrun.perm.mem_iff.mp he) call (List.mem_singleton.mpr rfl) hequiv
      rw [accepted_concat, hacc]
      rcases insert_spec hrun.sorted call.1 call.2 with ⟨hrefuses, -⟩ | ⟨-, heq, -⟩
      · exact absurd hrefuses haccepts
      · rw [heq, if_neg (by dsimp only; omega)]

/-- **The order of the inserts does not matter.** Any two orders of entries whose keys the comparator
tells apart, with room for all of them on a page just initialised, leave the same entries at the same
indexes, and write no slot behind the page. -/
theorem leaf_page_insert_order (comparator : K → K → Prop) [DecidableRel comparator]
    [IsStrictWeakOrder K comparator] (pairSize : Nat) (raw : BPlusTreeLeafPage K V)
    (pageId parentId maxSize : Int) (hhigh : maxSize ≤ calculatedMax pairSize)
    {calls calls' : List (K × V)} (hperm : calls.Perm calls')
    (hdistinct : calls.Pairwise fun a b => ¬ Equivalent comparator a.1 b.1)
    (hroom : (calls.length : Int) ≤ (raw.init pairSize pageId parentId maxSize).maxSize) :
    let fresh := raw.init pairSize pageId parentId maxSize
    (fresh.inserts comparator calls).stored = (fresh.inserts comparator calls').stored ∧
      (fresh.inserts comparator calls).stored.Perm calls ∧
      ∀ i : Nat, calculatedMax pairSize ≤ i → (fresh.inserts comparator calls).array i = raw.array i := by
  intro fresh
  have hdistinct' : calls'.Pairwise fun a b => ¬ Equivalent comparator a.1 b.1 :=
    hperm.pairwise hdistinct fun h hequiv => h ⟨hequiv.2, hequiv.1⟩
  have hpos : 0 ≤ fresh.maxSize := Int.le_trans (Int.natCast_nonneg _) hroom
  have hrun : Inserted comparator fresh calls (fresh.inserts comparator calls)
      (fresh.accepted comparator calls) := inserted_run rfl hpos calls
  have hrun' : Inserted comparator fresh calls' (fresh.inserts comparator calls')
      (fresh.accepted comparator calls') := inserted_run rfl hpos calls'
  rw [accepted_of_distinct rfl hdistinct hroom] at hrun
  rw [accepted_of_distinct rfl hdistinct' (by rw [← hperm.length_eq]; exact hroom)] at hrun'
  have hsorted : (fresh.inserts comparator calls).stored.Pairwise fun a b => comparator a.1 b.1 :=
    List.pairwise_map.mp hrun.sorted
  have hsorted' : (fresh.inserts comparator calls').stored.Pairwise fun a b => comparator a.1 b.1 :=
    List.pairwise_map.mp hrun'.sorted
  refine ⟨?_, hrun.perm, ?_⟩
  · apply List.Perm.eq_of_pairwise ?_ hsorted hsorted'
    · exact hrun.perm.trans (hperm.trans hrun'.perm.symm)
    · intro a b _ _ hab hba
      exact absurd hba (Std.Asymm.asymm _ _ hab)
  · intro i hi
    have hmax : fresh.maxSize = if maxSize = 0 then (calculatedMax pairSize : Int) else maxSize := rfl
    have hbound : (fresh.inserts comparator calls).maxSize ≤ (i : Int) := by
      rw [hrun.maxSize, hmax]
      split <;> omega
    exact hrun.behind i hbound

/-- Three entries in two orders. -/
theorem leaf_page_insert_order_three :
    let raw : BPlusTreeLeafPage Int Int := ⟨⟨.invalidPage, 0, 0, 0, 0, 0⟩, 0, fun _ => (0, 0)⟩
    ((raw.init 8 1 (-1) 4).inserts (· < ·) [(5, 50), (3, 30), (9, 90)]).stored =
      ((raw.init 8 1 (-1) 4).inserts (· < ·) [(9, 90), (5, 50), (3, 30)]).stored :=
  (leaf_page_insert_order (· < · : Int → Int → Prop) 8
    ⟨⟨.invalidPage, 0, 0, 0, 0, 0⟩, 0, fun _ => (0, 0)⟩ 1 (-1) 4 (by decide) (by decide)
    (by decide) (by decide)).1

end BPlusTreeLeafPage

/-! ## Internal pages -/

namespace BPlusTreeInternalPage

variable {K V : Type*} {p : BPlusTreeInternalPage K V}

/-- `ValueIndex` finds the first child with a value. -/
theorem valueIndexFrom_eq [DecidableEq V] {i : Nat} {value : V} (hvalue : p.valueAt i = value)
    (n first : Nat) (hfirst : first ≤ i) (hlast : i < first + n)
    (hbefore : ∀ j, first ≤ j → j < i → p.valueAt j ≠ value) :
    p.valueIndexFrom value n first = i := by
  induction n generalizing first with
  | zero => omega
  | succ n ih =>
      rw [valueIndexFrom]
      rcases Nat.lt_or_eq_of_le hfirst with hlt | rfl
      · rw [if_neg (hbefore first (Nat.le_refl first) hlt)]
        exact ih (first + 1) hlt (by omega) fun j hj => hbefore j (by omega)
      · rw [if_pos hvalue]

/-! ### Replacing a child -/

theorem valueAt_setValueAt (p : BPlusTreeInternalPage K V) (i : Nat) (value : V) (j : Nat) :
    (p.setValueAt i value).valueAt j = if j = i then value else p.valueAt j := by
  show (Function.update p.array i ((p.array i).1, value) j).2 = _
  by_cases hj : j = i
  · rw [if_pos hj, hj, Function.update_self]
  · rw [if_neg hj, Function.update_of_ne hj]
    rfl

theorem keyAt_setValueAt (p : BPlusTreeInternalPage K V) (i : Nat) (value : V) (j : Nat) :
    (p.setValueAt i value).keyAt j = p.keyAt j := by
  show (Function.update p.array i ((p.array i).1, value) j).1 = _
  by_cases hj : j = i
  · rw [hj, Function.update_self]
    rfl
  · rw [Function.update_of_ne hj]
    rfl

variable {comparator : K → K → Prop} [DecidableRel comparator]

/-- Routing looks at the keys only. -/
theorem childIndex_setValueAt (i : Nat) (value : V) (key : K) :
    (p.setValueAt i value).childIndex comparator key = p.childIndex comparator key := by
  unfold childIndex
  rw [show (p.setValueAt i value).keyAt = p.keyAt from funext (keyAt_setValueAt p i value)]
  rfl

/-- **A child is replaced where `Lookup` has found it.** On a page of at least one child, all of them
different, whose separators do not decrease, `ValueIndex` of the child that a key is routed to is the
index of the last child that admits the key, and with another child set there exactly the keys that
went to the old one go to the new one. -/
theorem internal_page_replace_child [Inhabited V] [DecidableEq V] (comparator : K → K → Prop)
    [DecidableRel comparator] [IsStrictWeakOrder K comparator] (p : BPlusTreeInternalPage K V)
    (hsize : 1 ≤ p.size) (h : p.Ordered comparator)
    (hdistinct : ∀ i j, i < j → j < p.size → p.valueAt i ≠ p.valueAt j) (key : K) (value : V) :
    ∃ i < p.size, p.valueIndex (p.lookup comparator key) = i ∧ p.Admits comparator key i ∧
      (∀ j < p.size, p.Admits comparator key j → j ≤ i) ∧
      ∀ key', (p.setValueAt i value).lookup comparator key' =
        if p.lookup comparator key' = p.lookup comparator key then value
        else p.lookup comparator key' := by
  obtain ⟨hlt, hadmits, hlast⟩ := childIndex_spec h hsize key
  refine ⟨p.childIndex comparator key, hlt, ?_, hadmits, hlast, fun key' => ?_⟩
  · rw [lookup_eq hsize, valueIndex]
    apply valueIndexFrom_eq rfl p.size 0 (Nat.zero_le _) (by omega)
    intro j _ hj
    exact hdistinct j _ hj hlt
  · obtain ⟨hlt', -⟩ := childIndex_spec h hsize key'
    have hsame : p.valueAt (p.childIndex comparator key') = p.valueAt (p.childIndex comparator key) ↔
        p.childIndex comparator key' = p.childIndex comparator key := by
      refine ⟨fun heq => ?_, fun heq => by rw [heq]⟩
      by_contra hne
      rcases Nat.lt_or_gt_of_ne hne with hbefore | hbehind
      · exact hdistinct _ _ hbefore hlt heq
      · exact hdistinct _ _ hbehind hlt' heq.symm
    rw [lookup_eq (p := p.setValueAt _ _) hsize, lookup_eq hsize, lookup_eq hsize,
      childIndex_setValueAt, valueAt_setValueAt]
    by_cases heq : p.childIndex comparator key' = p.childIndex comparator key
    · rw [if_pos heq, if_pos (hsame.mpr heq)]
    · rw [if_neg heq, if_neg fun hvalue => heq (hsame.mp hvalue)]

/-- Three children, the second one replaced. -/
theorem internal_page_replace_child_three :
    let p : BPlusTreeInternalPage Int Int :=
      ⟨⟨.internalPage, 0, 3, 3, -1, 1⟩, fun i => (5 * (i : Int), 10 + (i : Int))⟩
    p.valueIndex (p.lookup (· < ·) 7) = 1 ∧
      ∀ key', (p.setValueAt 1 99).lookup (· < ·) key' =
        if p.lookup (· < ·) key' = p.lookup (· < ·) 7 then 99 else p.lookup (· < ·) key' := by
  intro p
  obtain ⟨i, -, hindex, -, -, hall⟩ := internal_page_replace_child (· < · : Int → Int → Prop) p
    (by decide) (by
      intro i j hi hij hj
      show ¬ 5 * (j : Int) < 5 * (i : Int)
      omega) (by
      intro i j hij hj
      show 10 + (i : Int) ≠ 10 + (j : Int)
      omega) 7 99
  have hone : p.valueIndex (p.lookup (· < ·) 7) = 1 := by decide
  have hi : i = 1 := by
    rw [hone] at hindex
    omega
  rw [hi] at hall
  exact ⟨hone, hall⟩

/-! ### Moving a separator -/

theorem valueAt_setKeyAt (p : BPlusTreeInternalPage K V) (i : Nat) (key : K) (j : Nat) :
    (p.setKeyAt i key).valueAt j = p.valueAt j := by
  show (Function.update p.array i (key, (p.array i).2) j).2 = _
  by_cases hj : j = i
  · rw [hj, Function.update_self]
    rfl
  · rw [Function.update_of_ne hj]
    rfl

theorem keyAt_setKeyAt (p : BPlusTreeInternalPage K V) (i : Nat) (key : K) (j : Nat) :
    (p.setKeyAt i key).keyAt j = if j = i then key else p.keyAt j := by
  show (Function.update p.array i (key, (p.array i).2) j).1 = _
  by_cases hj : j = i
  · rw [if_pos hj, hj, Function.update_self]
  · rw [if_neg hj, Function.update_of_ne hj]
    rfl

variable [IsStrictWeakOrder K comparator] {q : BPlusTreeInternalPage K V} {i : Nat}

/-- A key between two places of one separator: it goes to the child behind the lower place, and to the
one before the higher place. -/
theorem childIndex_between (hp : p.Ordered comparator) (hq : q.Ordered comparator)
    (hsize : q.size = p.size) (hkeys : ∀ j, j ≠ i → q.keyAt j = p.keyAt j) (hi : 1 ≤ i)
    (hlt : i < p.size) {key : K} (hbehind : ¬ comparator key (p.keyAt i))
    (hbefore : comparator key (q.keyAt i)) :
    p.childIndex comparator key = i ∧ q.childIndex comparator key = i - 1 := by
  constructor
  · apply childIndex_eq hp (by omega) hlt (Or.inr hbehind)
    intro j hj hadmits
    by_contra hgt
    rcases hadmits with hzero | hnot
    · omega
    · rcases BinarySearch.lt_or_lt_of_lt hbefore (q.keyAt j) with hless | hless
      · rw [hkeys j (by omega)] at hless
        exact hnot hless
      · exact hq i j hi (by omega) (by omega) hless
  · apply childIndex_eq hq (by omega) (by omega)
    · by_cases hfirst : i - 1 = 0
      · exact Or.inl hfirst
      · right
        rw [hkeys (i - 1) (by omega)]
        intro hless
        rcases BinarySearch.lt_or_lt_of_lt hless (p.keyAt i) with hbelow | habove
        · exact hbehind hbelow
        · exact hp (i - 1) i (by omega) (by omega) hlt habove
    · intro j hj hadmits
      by_contra hgt
      exact hq.not_admits hi (by omega) hj hbefore hadmits

/-- A key on the same side of both places stays with its child. -/
theorem childIndex_same_side (hp : p.Ordered comparator) (hq : q.Ordered comparator)
    (hsize : q.size = p.size) (hkeys : ∀ j, j ≠ i → q.keyAt j = p.keyAt j) (hpos : 1 ≤ p.size)
    {key : K} (hside : comparator key (q.keyAt i) ↔ comparator key (p.keyAt i)) :
    q.childIndex comparator key = p.childIndex comparator key := by
  have hsame : ∀ j, q.Admits comparator key j ↔ p.Admits comparator key j := by
    intro j
    by_cases hj : j = i
    · rw [hj, Admits, hside, Admits]
    · rw [Admits, hkeys j hj, Admits]
  obtain ⟨hlt, hadmits, hlast⟩ := childIndex_spec hp hpos key
  apply childIndex_eq hq (by omega) (by omega) ((hsame _).mpr hadmits)
  intro j hj hadmits'
  exact hlast j (by omega) ((hsame j).mp hadmits')

/-- **A separator that is moved hands over the keys in between.** On a page whose separators do not
decrease before and after `setKeyAt(i, key)`, a search key on the same side of the old and of the new
separator finds the same child; one that the old separator admits and the new one does not goes from
child `i` to the one before it; and one that the new separator admits and the old one did not comes from
the child before `i` to child `i`. -/
theorem internal_page_move_separator [Inhabited V] (comparator : K → K → Prop)
    [DecidableRel comparator] [IsStrictWeakOrder K comparator] (p : BPlusTreeInternalPage K V)
    {i : Nat} (hi : 1 ≤ i) (hlt : i < p.size) (h : p.Ordered comparator) (separator : K)
    (hmoved : (p.setKeyAt i separator).Ordered comparator) (key : K) :
    ((comparator key separator ↔ comparator key (p.keyAt i)) →
        (p.setKeyAt i separator).lookup comparator key = p.lookup comparator key) ∧
      (¬ comparator key (p.keyAt i) → comparator key separator →
        p.lookup comparator key = p.valueAt i ∧
          (p.setKeyAt i separator).lookup comparator key = p.valueAt (i - 1)) ∧
      (comparator key (p.keyAt i) → ¬ comparator key separator →
        p.lookup comparator key = p.valueAt (i - 1) ∧
          (p.setKeyAt i separator).lookup comparator key = p.valueAt i) := by
  have hat : (p.setKeyAt i separator).keyAt i = separator := by
    rw [keyAt_setKeyAt, if_pos rfl]
  have hothers : ∀ j, j ≠ i → (p.setKeyAt i separator).keyAt j = p.keyAt j := by
    intro j hj
    rw [keyAt_setKeyAt, if_neg hj]
  have hsize : (p.setKeyAt i separator).size = p.size := rfl
  have hnew : (p.setKeyAt i separator).lookup comparator key =
      p.valueAt ((p.setKeyAt i separator).childIndex comparator key) := by
    rw [lookup_eq (by omega), valueAt_setKeyAt]
  rw [hnew, lookup_eq (by omega)]
  refine ⟨fun hside => ?_, fun hbehind hbefore => ?_, fun hbefore hbehind => ?_⟩
  · rw [← hat] at hside
    rw [childIndex_same_side h hmoved hsize hothers (by omega) hside]
  · rw [← hat] at hbefore
    obtain ⟨hold, hchild⟩ := childIndex_between h hmoved hsize hothers hi hlt hbehind hbefore
    rw [hold, hchild]
    exact ⟨rfl, rfl⟩
  · rw [← hat] at hbehind
    obtain ⟨hchild, hold⟩ := childIndex_between hmoved h hsize.symm
      (fun j hj => (hothers j hj).symm) hi (by omega) hbehind hbefore
    rw [hold, hchild]
    exact ⟨rfl, rfl⟩

/-- Three children, the separator before the second one moved from 5 to 3: 4 changes sides. -/
theorem internal_page_move_separator_three :
    let p : BPlusTreeInternalPage Int Int :=
      ⟨⟨.internalPage, 0, 3, 3, -1, 1⟩, fun i => (5 * (i : Int), 10 + (i : Int))⟩
    p.lookup (· < ·) 4 = 10 ∧ (p.setKeyAt 1 3).lookup (· < ·) 4 = 11 := by
  intro p
  have hordered : p.Ordered (· < ·) := by
    intro i j hi hij hj
    show ¬ 5 * (j : Int) < 5 * (i : Int)
    omega
  have hmoved : (p.setKeyAt 1 3).Ordered (· < ·) := by
    intro i j hi hij hj
    rw [keyAt_setKeyAt, keyAt_setKeyAt, if_neg (by omega)]
    show ¬ 5 * (j : Int) < if i = 1 then 3 else 5 * (i : Int)
    split <;> omega
  exact (internal_page_move_separator (· < · : Int → Int → Prop) p (Nat.le_refl 1) (by decide)
    hordered 3 hmoved 4).2.2 (by decide) (by decide)

end BPlusTreeInternalPage

end Aqa
