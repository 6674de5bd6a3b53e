/-
# Aqa.Storage.PageAddressing — offsets and sizes that wrap at 2^32.

`get_page` and `grow_file` multiply a 32-bit page number by the 32-bit page size and use the product
as a 64-bit quantity. The product is exact below 2^20 pages: an address is the position of its page
exactly for page ids below 2^20, a grown file has its full size exactly for page counts below 2^20.

A run maps a file, grows it and stores pages through it. `AddressingSafe` asks for exact addresses
in every state of the run and for an exact size after every growth; the run has it exactly when the
file starts with at most 2^20 pages and is never grown to 2^20 pages or more
(`page_addressing_iff`).
-/
import Aqa.Storage.MappedFile

namespace Aqa

open Aqa.Lib

namespace MappedFile

/-! ## Exact addresses and sizes -/

/-- Every page of the file is addressed at its position, inside the mapping and apart from the
others. -/
structure PagesExact (f : MappedFile) : Prop where
  addr : ∀ p < f.pageCount, pageAddr p = p * PAGE_SIZE
  mapped : ∀ p < f.pageCount, pageAddr p + PAGE_SIZE ≤ f.fileSize
  apart : ∀ p < f.pageCount, ∀ q < f.pageCount, p ≠ q →
    pageAddr p + PAGE_SIZE ≤ pageAddr q ∨ pageAddr q + PAGE_SIZE ≤ pageAddr p

/-- Growing to `n` pages gives a file of that size, not a shorter one, with the old pages. -/
structure GrowExact (f : MappedFile) (n : Nat) : Prop where
  length : (f.growFile n).bytes.length = n * PAGE_SIZE
  grows : f.bytes.length ≤ (f.growFile n).bytes.length
  keeps : ∀ p < f.pageCount, pageAt (f.growFile n).bytes p = pageAt f.bytes p

/-- A call on a mapped file; its arguments are of type `uint32_t`. -/
inductive Op where
  | growFile (newPageCount : UInt32)
  | storePage (pageId : UInt32) (page : RawPage)

/-- The state after a call. -/
def Op.run (f : MappedFile) : Op → MappedFile
  | .growFile n => f.growFile n.toNat
  | .storePage p page => f.storePage p.toNat page

/-- Exact addresses in every state of a run, an exact size after every growth. -/
def AddressingSafe : List Op → MappedFile → Prop
  | [], f => f.PagesExact
  | .growFile n :: ops, f =>
      f.PagesExact ∧ (f.pageCount < n.toNat → f.GrowExact n.toNat) ∧
        AddressingSafe ops (Op.run f (.growFile n))
  | op :: ops, f => f.PagesExact ∧ AddressingSafe ops (Op.run f op)

/-! ## The product -/

/-- The 32-bit product is the product exactly below 2^20. -/
theorem u32_mul_pageSize_iff (n : Nat) : u32 (n * PAGE_SIZE) = n * PAGE_SIZE ↔ n < 2 ^ 20 := by
  unfold u32 PAGE_SIZE
  omega

theorem pageAddr_eq_iff (p : Nat) : pageAddr p = p * PAGE_SIZE ↔ p < 2 ^ 20 :=
  u32_mul_pageSize_iff p

/-! ## States -/

/-- The file and the mapping agree, and at most a part of a page stands behind the last page. -/
structure InStep (f : MappedFile) : Prop where
  size : f.fileSize = f.bytes.length
  count : f.pageCount = f.bytes.length / PAGE_SIZE

theorem inStep_new (file : Option Bytes) (h : (file.getD []).length / PAGE_SIZE < 2 ^ 32) :
    InStep (MappedFile.new file) where
  size := rfl
  count := u32_of_lt h

theorem InStep.storePage {f : MappedFile} (h : InStep f) (p : Nat) (page : RawPage) :
    InStep (f.storePage p page) where
  size := by
    unfold MappedFile.storePage
    rw [length_overwrite]
    exact h.size
  count := by
    unfold MappedFile.storePage
    rw [length_overwrite]
    exact h.count

theorem InStep.growFile {f : MappedFile} (h : InStep f) {n : Nat} (hn : n < 2 ^ 20) :
    InStep (f.growFile n) := by
  unfold MappedFile.growFile
  split
  · exact h
  · refine ⟨(length_resize _ _).symm, ?_⟩
    rw [length_resize, (u32_mul_pageSize_iff n).mpr hn]
    exact (Nat.mul_div_cancel n (by decide)).symm

/-- A file in step grows by one page, and keeps the others. -/
theorem InStep.growFile_one {f : MappedFile} (h : InStep f) (hsmall : f.pageCount + 1 < 2 ^ 20) :
    (f.growFile (u32 (f.pageCount + 1))).pageCount = f.pageCount + 1 ∧
      (f.growFile (u32 (f.pageCount + 1))).bytes.length = (f.pageCount + 1) * PAGE_SIZE ∧
      pageAt (f.growFile (u32 (f.pageCount + 1))).bytes = pageAt f.bytes := by
  have hlen : f.bytes.length ≤ (f.pageCount + 1) * PAGE_SIZE := by
    have hdiv := h.count
    have hmod := Nat.div_add_mod f.bytes.length PAGE_SIZE
    have hlt := Nat.mod_lt f.bytes.length (show 0 < PAGE_SIZE by decide)
    unfold PAGE_SIZE at *
    omega
  have hgrow : f.growFile (u32 (f.pageCount + 1)) =
      ⟨resize f.bytes ((f.pageCount + 1) * PAGE_SIZE), (f.pageCount + 1) * PAGE_SIZE,
        f.pageCount + 1⟩ := by
    unfold MappedFile.growFile
    rw [u32_of_lt (by omega), if_neg (by omega), (u32_mul_pageSize_iff _).mpr hsmall]
  rw [hgrow]
  exact ⟨rfl, length_resize _ _, funext fun p => pageAt_resize hlen p⟩

/-- In step, addresses are exact as long as there are at most 2^20 pages. -/
theorem pagesExact_iff {f : MappedFile} (h : InStep f) : f.PagesExact ↔ f.pageCount ≤ 2 ^ 20 := by
  constructor
  · intro hexact
    by_contra hlarge
    have haddr := (pageAddr_eq_iff _).mp (hexact.addr (2 ^ 20) (by omega))
    exact absurd haddr (by decide)
  · intro hsmall
    have haddr : ∀ p < f.pageCount, pageAddr p = p * PAGE_SIZE :=
      fun p hp => (pageAddr_eq_iff p).mpr (by omega)
    refine ⟨haddr, ?_, ?_⟩
    · intro p hp
      have hcount := Nat.div_mul_le_self f.bytes.length PAGE_SIZE
      rw [haddr p hp, h.size]
      rw [h.count] at hp
      calc p * PAGE_SIZE + PAGE_SIZE = (p + 1) * PAGE_SIZE := (Nat.succ_mul _ _).symm
        _ ≤ f.bytes.length / PAGE_SIZE * PAGE_SIZE := Nat.mul_le_mul_right _ hp
        _ ≤ f.bytes.length := hcount
    · intro p hp q hq hne
      rw [haddr p hp, haddr q hq]
      unfold PAGE_SIZE
      omega

/-- Growing is exact below 2^20 pages, from any state in step, and never from there on. -/
theorem growExact_iff {f : MappedFile} (h : InStep f) {n : Nat} (hn : f.pageCount < n) :
    f.GrowExact n ↔ n < 2 ^ 20 := by
  have hgrow : (f.growFile n).bytes = resize f.bytes (u32 (n * PAGE_SIZE)) := by
    unfold MappedFile.growFile
    rw [if_neg (by omega)]
  constructor
  · intro hexact
    have hlen := hexact.length
    rw [hgrow, length_resize] at hlen
    exact (u32_mul_pageSize_iff n).mp hlen
  · intro hsmall
    rw [(u32_mul_pageSize_iff n).mpr hsmall] at hgrow
    have hle : f.bytes.length ≤ n * PAGE_SIZE := by
      have hdiv := Nat.div_add_mod f.bytes.length PAGE_SIZE
      have hmod := Nat.mod_lt f.bytes.length (show 0 < PAGE_SIZE by decide)
      rw [h.count] at hn
      unfold PAGE_SIZE at *
      omega
    refine ⟨by rw [hgrow, length_resize], by rw [hgrow, length_resize]; exact hle, ?_⟩
    intro p hp
    rw [hgrow, resize, List.take_of_length_le hle]
    apply pageAt_append
    rw [h.count] at hp
    calc (p + 1) * PAGE_SIZE ≤ f.bytes.length / PAGE_SIZE * PAGE_SIZE := Nat.mul_le_mul_right _ hp
      _ ≤ f.bytes.length := Nat.div_mul_le_self _ _

/-! ## Runs -/

/-- The page counts a run grows to. -/
def Within (count : Nat) (ops : List Op) : Prop :=
  ∀ n, Op.growFile n ∈ ops → n.toNat ≤ count ∨ n.toNat < 2 ^ 20

theorem within_cons_growFile {count : Nat} {n : UInt32} {ops : List Op} :
    Within count (.growFile n :: ops) ↔
      (n.toNat ≤ count ∨ n.toNat < 2 ^ 20) ∧ Within count ops := by
  unfold Within
  constructor
  · intro h
    exact ⟨h n (by simp), fun m hm => h m (List.mem_cons_of_mem _ hm)⟩
  · rintro ⟨hn, h⟩ m hm
    rcases List.mem_cons.mp hm with heq | hm
    · cases heq
      exact hn
    · exact h m hm

theorem within_cons_storePage {count : Nat} {p : UInt32} {page : RawPage} {ops : List Op} :
    Within count (.storePage p page :: ops) ↔ Within count ops := by
  unfold Within
  simp

/-- Growing below 2^20 pages does not change which further growths are exact. -/
theorem within_of_grown {count n : Nat} (hlt : count < n) (hn : n < 2 ^ 20) (ops : List Op) :
    Within n ops ↔ Within count ops := by
  unfold Within
  refine forall_congr' fun m => imp_congr_right fun _ => ?_
  omega

theorem addressingSafe_iff (ops : List Op) {f : MappedFile} (h : InStep f) :
    AddressingSafe ops f ↔ f.pageCount ≤ 2 ^ 20 ∧ Within f.pageCount ops := by
  induction ops generalizing f with
  | nil =>
      unfold AddressingSafe
      rw [pagesExact_iff h]
      simp [Within]
  | cons op ops ih =>
      cases op with
      | growFile n =>
          show f.PagesExact ∧ (f.pageCount < n.toNat → f.GrowExact n.toNat) ∧
              AddressingSafe ops (f.growFile n.toNat) ↔ _
          rw [pagesExact_iff h, within_cons_growFile]
          by_cases hle : n.toNat ≤ f.pageCount
          · have hsame : f.growFile n.toNat = f := if_pos hle
            rw [hsame, ih h]
            constructor
            · rintro ⟨hcount, -, -, hrest⟩
              exact ⟨hcount, Or.inl hle, hrest⟩
            · rintro ⟨hcount, -, hrest⟩
              exact ⟨hcount, fun hlt => absurd hlt (by omega), hcount, hrest⟩
          · have hlt : f.pageCount < n.toNat := by omega
            by_cases hn : n.toNat < 2 ^ 20
            · have hcount : (f.growFile n.toNat).pageCount = n.toNat := by
                unfold MappedFile.growFile
                rw [if_neg hle]
              rw [ih (h.growFile hn), hcount, growExact_iff h hlt, within_of_grown hlt hn]
              constructor
              · rintro ⟨hsmall, -, -, hrest⟩
                exact ⟨hsmall, Or.inr hn, hrest⟩
              · rintro ⟨hsmall, -, hrest⟩
                exact ⟨hsmall, fun _ => hn, by omega, hrest⟩
            · -- the growth takes effect and its size wraps
              constructor
              · rintro ⟨-, hexact, -⟩
                exact absurd ((growExact_iff h hlt).mp (hexact hlt)) hn
              · rintro ⟨-, hbound, -⟩
                omega
      | storePage p page =>
          show f.PagesExact ∧ AddressingSafe ops (f.storePage p.toNat page) ↔ _
          rw [pagesExact_iff h, within_cons_storePage, ih (h.storePage _ _)]
          constructor
          · rintro ⟨hcount, -, hrest⟩
            exact ⟨hcount, hrest⟩
          · rintro ⟨hcount, hrest⟩
            exact ⟨hcount, hcount, hrest⟩

/-- **When page addressing does not wrap.** On any file of fewer than 2^32 pages, a run keeps all
addresses and sizes exact exactly when the file has at most 2^20 pages and no growth that takes
effect reaches 2^20 pages. -/
theorem page_addressing_iff (file : Option Bytes) (ops : List Op)
    (hcount : (file.getD []).length / PAGE_SIZE < 2 ^ 32) :
    AddressingSafe ops (MappedFile.new file) ↔
      (file.getD []).length / PAGE_SIZE ≤ 2 ^ 20 ∧
        ∀ n, Op.growFile n ∈ ops →
          n.toNat ≤ (file.getD []).length / PAGE_SIZE ∨ n.toNat < 2 ^ 20 := by
  have hstep := inStep_new _ hcount
  rw [addressingSafe_iff ops hstep, hstep.count]
  rfl

/-- Growing a new file to 2^20 pages leaves it empty, and page 2^20 has the address of page 0. -/
theorem page_addressing_wraps :
    ¬ AddressingSafe [.growFile 1048576] (MappedFile.new none) ∧
      pageAddr (2 ^ 20) = pageAddr 0 := by
  refine ⟨fun h => ?_, by decide +kernel⟩
  have hlen := (h.2.1 (by decide +kernel)).length
  unfold MappedFile.growFile at hlen
  rw [if_neg (by decide +kernel), length_resize] at hlen
  exact absurd hlen (by decide +kernel)

/-- A new file grown twice, with a page stored in between. -/
theorem page_addressing_small :
    AddressingSafe [.growFile 2, .storePage 1 RawPage.zero, .growFile 1048575]
      (MappedFile.new none) :=
  (page_addressing_iff none [.growFile 2, .storePage 1 RawPage.zero, .growFile 1048575]
    (by decide)).mpr ⟨by decide, by
      intro n hn
      simp only [List.mem_cons, reduceCtorEq, Op.growFile.injEq, List.not_mem_nil, or_false,
        false_or] at hn
      rcases hn with rfl | rfl
      · exact Or.inr (by decide)
      · exact Or.inr (by decide)⟩

end MappedFile

end Aqa
