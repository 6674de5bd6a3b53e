/-
# Aqa.Storage.Page — raw pages, record ids and the machine integers of the storage layer.

A page is 4096 bytes: a 64-byte `PageHeader` and a payload. `RawPage` carries its length as a
field. Header fields and slots are read and written at their byte offsets, little-endian, as the
compiled structs lay them out on the supported targets.

Unsigned arithmetic is on `Nat` with the reduction written out where the source narrows or can
wrap: `u16`, `u32` for the narrowing conversions, `sizeSub` for a `size_t` subtraction. They are
irreducible, and `sizeSub` borrows only when it has to, so that no unification counts up to 2^64.
-/
import Aqa.Lib.Bytes

namespace Aqa

open Aqa.Lib

/-- `std::vector<uint8_t>`. -/
abbrev Bytes := List UInt8

/-! ## Machine integers -/

/-- Conversion to `uint16_t`. -/
@[irreducible]
def u16 (n : Nat) : Nat := n % 2 ^ 16

/-- Conversion to `uint32_t`. -/
@[irreducible]
def u32 (n : Nat) : Nat := n % 2 ^ 32

/-- Conversion to `uint64_t`. -/
@[irreducible]
def u64 (n : Nat) : Nat := n % 2 ^ 64

/-- Subtraction in `size_t`. -/
@[irreducible]
def sizeSub (a b : Nat) : Nat := if b ≤ a then a - b else a + 2 ^ 64 - b

theorem u16_of_lt {n : Nat} (h : n < 2 ^ 16) : u16 n = n := by
  rw [u16, Nat.mod_eq_of_lt h]

theorem u32_of_lt {n : Nat} (h : n < 2 ^ 32) : u32 n = n := by
  rw [u32, Nat.mod_eq_of_lt h]

theorem u64_of_lt {n : Nat} (h : n < 2 ^ 64) : u64 n = n := by
  rw [u64, Nat.mod_eq_of_lt h]

theorem u16_lt (n : Nat) : u16 n < 2 ^ 16 := by
  rw [u16]
  exact Nat.mod_lt _ (by decide)

theorem u32_lt (n : Nat) : u32 n < 2 ^ 32 := by
  rw [u32]
  exact Nat.mod_lt _ (by decide)

theorem u64_lt (n : Nat) : u64 n < 2 ^ 64 := by
  rw [u64]
  exact Nat.mod_lt _ (by decide)

@[simp]
theorem u32_zero : u32 0 = 0 := u32_of_lt (by decide)

/-- A counter kept in `uint32_t` is the count, narrowed. -/
theorem u32_succ (n : Nat) : u32 (u32 n + 1) = u32 (n + 1) := by
  rw [u32, u32, u32, Nat.mod_add_mod]

theorem u32_le (n : Nat) : u32 n ≤ n := by
  rw [u32]
  exact Nat.mod_le n _

/-- Without borrow a `size_t` subtraction is the subtraction of naturals. -/
theorem sizeSub_of_le {a b : Nat} (hb : b ≤ a) : sizeSub a b = a - b := by
  rw [sizeSub, if_pos hb]

/-! ## Errors -/

/-- How a call can end other than by returning: an exception of type `std::runtime_error`, or a
step to which the language gives no meaning. -/
inductive Error where
  | runtimeError (what : String)
  | undefinedBehaviour (what : String)
  deriving DecidableEq, Repr

/-! ## Pages -/

/-- `PAGE_SIZE`. -/
def PAGE_SIZE : Nat := 4096

/-- `PAGE_MAGIC`, the bytes "AQAD". -/
def PAGE_MAGIC : Nat := 0x41514144

/-- `sizeof(PageHeader)`. -/
def PAGE_HEADER_SIZE : Nat := 64

/-- `RecordID`. -/
structure RecordID where
  pageId : Nat
  slotId : Nat
  deriving DecidableEq, Repr

/-- `Record`. -/
structure Record where
  key : Bytes
  value : Bytes
  deriving DecidableEq, Repr

/-- `RawPage`: exactly `PAGE_SIZE` bytes. -/
structure RawPage where
  bytes : Bytes
  size_eq : bytes.length = PAGE_SIZE

namespace RawPage

@[ext]
theorem ext {p q : RawPage} (h : p.bytes = q.bytes) : p = q := by
  cases p
  cases q
  cases h
  rfl

/-- The page that `memset(…, 0, PAGE_SIZE)` leaves. -/
def zero : RawPage := ⟨List.replicate PAGE_SIZE 0, List.length_replicate⟩

/-- The page found in 4096 bytes of memory. Bytes beyond the end of a file read as zero, which is
how the last page of a mapping is filled up. -/
def ofBytes (bs : Bytes) : RawPage :=
  ⟨(bs ++ List.replicate PAGE_SIZE 0).take PAGE_SIZE, by
    rw [List.length_take, List.length_append, List.length_replicate]
    omega⟩

/-- `memcpy` into the page. -/
def write (p : RawPage) (off : Nat) (bs : Bytes) : RawPage :=
  ⟨overwrite p.bytes off bs, by rw [length_overwrite, p.size_eq]⟩

/-- The bytes of the page at an offset. -/
def read (p : RawPage) (off n : Nat) : Bytes := slice p.bytes off n

/-- A `uint16_t` of the page. -/
def readU16 (p : RawPage) (off : Nat) : Nat := leNat (p.read off 2)

/-- A `uint32_t` of the page. -/
def readU32 (p : RawPage) (off : Nat) : Nat := leNat (p.read off 4)

/-- `RawPage::reset`. -/
def reset : RawPage := zero.write 0 (leBytes 4 PAGE_MAGIC)

/-- `header.page_id`. -/
def pageId (p : RawPage) : Nat := p.readU32 4

theorem ofBytes_of_length {bs : Bytes} (h : bs.length = PAGE_SIZE) : (ofBytes bs).bytes = bs := by
  rw [ofBytes]
  simp only
  rw [← h, List.take_left]

/-- A page shows zero bytes where the memory it was found in ends. -/
theorem getElem?_ofBytes (bs : Bytes) (i : Nat) :
    (ofBytes bs).bytes[i]? = if i < PAGE_SIZE then some (bs[i]?.getD 0) else none := by
  show ((bs ++ List.replicate PAGE_SIZE 0).take PAGE_SIZE)[i]? = _
  rw [List.getElem?_take]
  split
  · rw [List.getElem?_append]
    split
    · rename_i hi
      rw [List.getElem?_eq_getElem hi, Option.getD_some]
    · rename_i hi
      rw [List.getElem?_replicate, if_pos (by omega), List.getElem?_eq_none (by omega),
        Option.getD_none]
  · rfl

@[simp]
theorem ofBytes_bytes (p : RawPage) : ofBytes p.bytes = p :=
  RawPage.ext (ofBytes_of_length p.size_eq)

/-- Reading back what was written. -/
theorem read_write_self {p : RawPage} {off : Nat} {bs : Bytes}
    (h : off + bs.length ≤ PAGE_SIZE) : (p.write off bs).read off bs.length = bs :=
  slice_overwrite_self (by rw [p.size_eq]; exact h)

theorem read_write_self' {p : RawPage} {off n : Nat} {bs : Bytes} (hn : bs.length = n)
    (h : off + n ≤ PAGE_SIZE) : (p.write off bs).read off n = bs := by
  subst hn
  exact read_write_self h

/-- A write changes no byte outside its window. -/
theorem read_write_of_disjoint {p : RawPage} {off o n : Nat} {bs : Bytes}
    (h : o + n ≤ off ∨ off + bs.length ≤ o) : (p.write off bs).read o n = p.read o n :=
  slice_overwrite_of_disjoint h

theorem read_write_within {p : RawPage} {off o n : Nat} {bs : Bytes}
    (h : off + bs.length ≤ PAGE_SIZE) (ho : off ≤ o) (hn : o + n ≤ off + bs.length) :
    (p.write off bs).read o n = slice bs (o - off) n :=
  slice_overwrite_within (by rw [p.size_eq]; exact h) ho hn

end RawPage

end Aqa
