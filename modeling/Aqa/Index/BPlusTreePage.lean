/-
# Aqa.Index.BPlusTreePage — B+ tree leaf and internal pages.

A page is a header and an array of pairs that runs from the header to the end of the page. The array
is modelled as memory, a pair at every index: `size` of them are entries, the others are whatever the
memory held. The pages are generic in keys, values and the comparator, and stand on their own; no
part of the database uses them yet.
-/
import Aqa.Lib.BinarySearch
import Mathlib.Logic.Function.Basic

namespace Aqa

open Aqa.Lib

/-- `IndexPageType`. -/
inductive IndexPageType where
  | invalidPage
  | leafPage
  | internalPage
  deriving DecidableEq, Repr

/-- `BPlusTreePage`. -/
structure BPlusTreePage where
  pageType : IndexPageType
  lsn : Int
  size : Nat
  maxSize : Int
  parentPageId : Int
  pageId : Int
  deriving DecidableEq, Repr

/-- `LEAF_PAGE_HEADER_SIZE`. -/
def LEAF_PAGE_HEADER_SIZE : Nat := 28

/-- `INTERNAL_PAGE_HEADER_SIZE`. -/
def INTERNAL_PAGE_HEADER_SIZE : Nat := 24

/-- `BPlusTreeLeafPage`. -/
structure BPlusTreeLeafPage (K V : Type*) extends BPlusTreePage where
  nextPageId : Int
  array : Nat → K × V

/-- `BPlusTreeInternalPage`. -/
structure BPlusTreeInternalPage (K V : Type*) extends BPlusTreePage where
  array : Nat → K × V

/-- `std::less<int>`, the comparator the pages are instantiated with. -/
instance instIsStrictWeakOrderIntLt : IsStrictWeakOrder Int (· < ·) where
  irrefl := Int.lt_irrefl
  trans _ _ _ := Int.lt_trans
  incomp_trans := by
    intro a b c
    omega

/-! ## Leaf pages -/

namespace BPlusTreeLeafPage

variable {K V : Type*}

/-- Number of pairs of a size that fit behind the header. -/
def calculatedMax (pairSize : Nat) : Nat := (4096 - LEAF_PAGE_HEADER_SIZE) / pairSize

/-- `Init`, with the size of a pair. The entries and the LSN stay what they were. -/
def init (pairSize : Nat) (pageId parentId maxSize : Int) (p : BPlusTreeLeafPage K V) :
    BPlusTreeLeafPage K V :=
  { p with
    pageType := .leafPage
    size := 0
    pageId := pageId
    parentPageId := parentId
    nextPageId := -1
    maxSize := if maxSize = 0 then calculatedMax pairSize else maxSize }

/-- `KeyAt`. -/
def keyAt (p : BPlusTreeLeafPage K V) (index : Nat) : K := (p.array index).1

/-- `ValueAt`. -/
def valueAt (p : BPlusTreeLeafPage K V) (index : Nat) : V := (p.array index).2

variable (comparator : K → K → Prop) [DecidableRel comparator]

/-- `KeyIndex`. -/
def keyIndex (p : BPlusTreeLeafPage K V) (key : K) : Nat :=
  BinarySearch.lowerBound comparator p.keyAt 0 p.size key

/-- The loop of `Insert`: from index `i` down to the one behind `index`, every slot takes over the
one before it. -/
def shift (index : Nat) : Nat → (Nat → K × V) → Nat → K × V
  | 0, array => array
  | i + 1, array =>
      if i + 1 > index then shift index i (Function.update array (i + 1) (array i)) else array

/-- The part of `Insert` that changes the page: the entry takes its place at an index. -/
def place (p : BPlusTreeLeafPage K V) (index : Nat) (entry : K × V) : BPlusTreeLeafPage K V :=
  { p with
    size := p.size + 1
    array := Function.update (shift index p.size p.array) index entry }

/-- `Insert`. -/
def insert (key : K) (value : V) (p : BPlusTreeLeafPage K V) : Int × BPlusTreeLeafPage K V :=
  if (p.size : Int) ≥ p.maxSize then (-1, p)
  else
    let index := p.keyIndex comparator key
    if index < p.size ∧ ¬ comparator (p.keyAt index) key ∧ ¬ comparator key (p.keyAt index) then
      (-1, p)
    else ((p.size : Int) + 1, p.place index (key, value))

end BPlusTreeLeafPage

/-! ## Internal pages -/

namespace BPlusTreeInternalPage

variable {K V : Type*}

/-- `KeyAt`. -/
def keyAt (p : BPlusTreeInternalPage K V) (index : Nat) : K := (p.array index).1

/-- `setKeyAt`. -/
def setKeyAt (p : BPlusTreeInternalPage K V) (index : Nat) (key : K) : BPlusTreeInternalPage K V :=
  { p with array := Function.update p.array index (key, (p.array index).2) }

/-- `ValueAt`. -/
def valueAt (p : BPlusTreeInternalPage K V) (index : Nat) : V := (p.array index).2

/-- `setValueAt`. -/
def setValueAt (p : BPlusTreeInternalPage K V) (index : Nat) (value : V) :
    BPlusTreeInternalPage K V :=
  { p with array := Function.update p.array index ((p.array index).1, value) }

/-- The loop of `ValueIndex` over some entries from index `i` on. -/
def valueIndexFrom [DecidableEq V] (p : BPlusTreeInternalPage K V) (value : V) : Nat → Nat → Int
  | 0, _ => -1
  | n + 1, i => if p.valueAt i = value then i else p.valueIndexFrom value n (i + 1)

/-- `ValueIndex`. -/
def valueIndex [DecidableEq V] (p : BPlusTreeInternalPage K V) (value : V) : Int :=
  p.valueIndexFrom value p.size 0

variable (comparator : K → K → Prop) [DecidableRel comparator]

/-- The index whose value `Lookup` returns: one before the first entry, from the second on, whose key
is greater. -/
def childIndex (p : BPlusTreeInternalPage K V) (key : K) : Nat :=
  BinarySearch.upperBound comparator p.keyAt 1 p.size key - 1

/-- `Lookup`. -/
def lookup [Inhabited V] (p : BPlusTreeInternalPage K V) (key : K) : V :=
  if p.size = 0 then default else p.valueAt (p.childIndex comparator key)

end BPlusTreeInternalPage

end Aqa
