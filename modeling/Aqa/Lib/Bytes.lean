/-
# Aqa.Lib.Bytes — slices, in-place overwrites and little-endian words of a byte sequence.

A memory block or a file is a `List`. Two operations cover what `memcpy`, `read` and `write` do to
one: `slice` reads a window, `overwrite` replaces a window and never changes the length (whatever
would fall past the end is dropped). Their laws are the usual ones of an array under disjoint and
overlapping windows, stated once for all element types.

`leBytes` and `leNat` are the little-endian encoding of a natural number in a fixed number of
bytes and its inverse. Encoding truncates to the width, so the round trip is modulo `256 ^ w`.
-/
import Mathlib

namespace Aqa.Lib

/-! ## Windows of a sequence -/

section Window

variable {α : Type*}

/-- The `n` elements of `l` from position `off` on (fewer when `l` ends before). -/
def slice (l : List α) (off n : Nat) : List α := (l.drop off).take n

/-- `l` with the window at `off` replaced by `xs`; elements past the end of `l` are dropped. -/
def overwrite (l : List α) (off : Nat) (xs : List α) : List α :=
  (l.take off ++ xs ++ l.drop (off + xs.length)).take l.length

@[simp]
theorem length_overwrite (l : List α) (off : Nat) (xs : List α) :
    (overwrite l off xs).length = l.length := by
  simp only [overwrite, List.length_take, List.length_append, List.length_drop]
  omega

theorem length_slice {l : List α} {off n : Nat} (h : off + n ≤ l.length) :
    (slice l off n).length = n := by
  simp only [slice, List.length_take, List.length_drop]
  omega

theorem length_slice_le (l : List α) (off n : Nat) : (slice l off n).length ≤ n := by
  simp only [slice, List.length_take]
  omega

theorem getElem?_slice (l : List α) (off n i : Nat) :
    (slice l off n)[i]? = if i < n then l[off + i]? else none := by
  rw [slice, List.getElem?_take]
  split
  · rw [List.getElem?_drop]
  · rfl

theorem getElem?_overwrite (l : List α) (off : Nat) (xs : List α) (i : Nat) :
    (overwrite l off xs)[i]? =
      if off ≤ i ∧ i < off + xs.length ∧ i < l.length then xs[i - off]? else l[i]? := by
  rw [overwrite, List.getElem?_take]
  by_cases hi : i < l.length
  · rw [if_pos hi, List.append_assoc]
    rcases Nat.lt_or_ge i off with hlt | hge
    · rw [List.getElem?_append_left (by rw [List.length_take]; omega), List.getElem?_take,
        if_pos hlt, if_neg (by omega)]
    · have hlen : (l.take off).length = off := by rw [List.length_take]; omega
      rw [List.getElem?_append_right (by omega), hlen]
      by_cases hx : i - off < xs.length
      · rw [List.getElem?_append_left hx, if_pos (by omega)]
      · rw [List.getElem?_append_right (by omega), List.getElem?_drop, if_neg (by omega)]
        congr 1
        omega
  · rw [if_neg hi, if_neg (by omega), List.getElem?_eq_none (by omega)]

/-- Reading back the window just written. -/
theorem slice_overwrite_self {l : List α} {off : Nat} {xs : List α}
    (h : off + xs.length ≤ l.length) : slice (overwrite l off xs) off xs.length = xs := by
  apply List.ext_getElem?
  intro i
  rw [getElem?_slice]
  split
  · rw [getElem?_overwrite, if_pos (by omega)]
    congr 1
    omega
  · rw [List.getElem?_eq_none (by omega)]

/-- A write leaves every window it does not meet as it was. -/
theorem slice_overwrite_of_disjoint {l : List α} {off o n : Nat} {xs : List α}
    (h : o + n ≤ off ∨ off + xs.length ≤ o) :
    slice (overwrite l off xs) o n = slice l o n := by
  apply List.ext_getElem?
  intro i
  rw [getElem?_slice, getElem?_slice]
  split
  · rw [getElem?_overwrite, if_neg (by omega)]
  · rfl

/-- A window inside the written one reads the matching part of what was written. -/
theorem slice_overwrite_within {l : List α} {off o n : Nat} {xs : List α}
    (h : off + xs.length ≤ l.length) (ho : off ≤ o) (hn : o + n ≤ off + xs.length) :
    slice (overwrite l off xs) o n = slice xs (o - off) n := by
  apply List.ext_getElem?
  intro i
  rw [getElem?_slice, getElem?_slice]
  split
  · rw [getElem?_overwrite, if_pos (by omega)]
    congr 1
    omega
  · rfl

/-- Writing back what a window already holds changes nothing. -/
theorem overwrite_slice_self {l : List α} {off n : Nat} (h : off + n ≤ l.length) :
    overwrite l off (slice l off n) = l := by
  apply List.ext_getElem?
  intro i
  rw [getElem?_overwrite, length_slice h]
  split
  · rw [getElem?_slice, if_pos (by omega)]
    congr 1
    omega
  · rfl

theorem slice_append_left {l₁ l₂ : List α} {off n : Nat} (h : off + n ≤ l₁.length) :
    slice (l₁ ++ l₂) off n = slice l₁ off n := by
  rw [slice, slice, List.drop_append_of_le_length (by omega),
    List.take_append_of_le_length (by rw [List.length_drop]; omega)]

theorem slice_append_right (l₁ l₂ : List α) (off n : Nat) :
    slice (l₁ ++ l₂) (l₁.length + off) n = slice l₂ off n := by
  rw [slice, slice, List.drop_append, Nat.add_sub_cancel_left, List.drop_eq_nil_of_le (by omega),
    List.nil_append]

/-- A window that spells a concatenation splits where the concatenation does. -/
theorem slice_split {l xs ys : List α} {off n m : Nat} (h : slice l off (n + m) = xs ++ ys)
    (hn : xs.length = n) : slice l off n = xs ∧ slice l (off + n) m = ys := by
  have htake : slice l off n = (slice l off (n + m)).take n := by
    rw [slice, slice, List.take_take, Nat.min_eq_left (by omega)]
  have hdrop : slice l (off + n) m = (slice l off (n + m)).drop n := by
    rw [slice, slice, List.drop_take, List.drop_drop, Nat.add_sub_cancel_left]
  rw [htake, hdrop, h, ← hn, List.take_left, List.drop_left]
  exact ⟨rfl, rfl⟩

@[simp]
theorem slice_zero_length (l : List α) : slice l 0 l.length = l := by
  rw [slice, List.drop_zero, List.take_length]

/-- Position `i` of a concatenation of blocks of one size `n` starts at `i * n`. -/
theorem slice_flatten_of_uniform {n : Nat} {ls : List (List α)} (hn : ∀ l ∈ ls, l.length = n)
    {i : Nat} {l : List α} (hi : ls[i]? = some l) : slice ls.flatten (i * n) n = l := by
  induction ls generalizing i with
  | nil => simp at hi
  | cons x xs ih =>
      have hx : x.length = n := hn x (by simp)
      rw [List.flatten_cons]
      cases i with
      | zero =>
          simp only [List.getElem?_cons_zero, Option.some.injEq] at hi
          subst hi
          rw [Nat.zero_mul, slice_append_left (by omega), ← hx, slice_zero_length]
      | succ i =>
          rw [List.getElem?_cons_succ] at hi
          have hpos : (i + 1) * n = x.length + i * n := by rw [hx]; ring
          rw [hpos, slice_append_right]
          exact ih (fun l hl => hn l (by simp [hl])) hi

theorem length_flatten_of_uniform {n : Nat} {ls : List (List α)} (hn : ∀ l ∈ ls, l.length = n) :
    ls.flatten.length = ls.length * n := by
  induction ls with
  | nil => simp
  | cons x xs ih =>
      rw [List.flatten_cons, List.length_append, ih (fun l hl => hn l (by simp [hl])),
        hn x (by simp), List.length_cons]
      ring

theorem slice_add (l : List α) (off n m : Nat) :
    slice l off (n + m) = slice l off n ++ slice l (off + n) m := by
  rw [slice, slice, slice, List.take_add, List.drop_drop]

/-- Changing one element changes no window beside it. -/
theorem slice_set_of_not_mem {l : List α} {i n : Nat} (off : Nat) (b : α) (h : i < off ∨ off + n ≤ i) :
    slice (l.set i b) off n = slice l off n := by
  apply List.ext_getElem?
  intro j
  rw [getElem?_slice, getElem?_slice]
  split
  · rw [List.getElem?_set_ne (by omega)]
  · rfl

/-- Inside a window it changes that element of the window. -/
theorem slice_set_of_mem {l : List α} {i off n : Nat} (b : α) (hlo : off ≤ i) (hhi : i < off + n) :
    slice (l.set i b) off n = (slice l off n).set (i - off) b := by
  apply List.ext_getElem?
  intro j
  have hlen : i - off < (slice l off n).length ↔ i < l.length := by
    simp only [slice, List.length_take, List.length_drop]
    omega
  rw [getElem?_slice, List.getElem?_set, List.getElem?_set, getElem?_slice]
  simp only [hlen]
  by_cases hj : i - off = j
  · rw [if_pos (by omega), if_pos (by omega), if_pos hj]
  · rw [if_neg hj]
    split
    · rw [if_neg (by omega)]
    · rfl

theorem set_ne_self {l : List α} {i : Nat} {a b : α} (hi : l[i]? = some a) (hb : b ≠ a) :
    l.set i b ≠ l := by
  intro heq
  have hlt : i < l.length := (List.getElem?_eq_some_iff.mp hi).1
  have hset : (l.set i b)[i]? = some b := List.getElem?_set_self hlt
  rw [heq, hi] at hset
  exact hb (Option.some.inj hset).symm

/-- Every window that holds the changed element changes. -/
theorem slice_set_ne {l : List α} {i off n : Nat} {a b : α} (hi : l[i]? = some a) (hb : b ≠ a)
    (hlo : off ≤ i) (hhi : i < off + n) : slice (l.set i b) off n ≠ slice l off n := by
  have hget : (slice l off n)[i - off]? = some a := by
    rw [getElem?_slice, if_pos (by omega), Nat.add_sub_cancel' hlo, hi]
  rw [slice_set_of_mem b hlo hhi]
  exact set_ne_self hget hb

end Window

/-! ## Little-endian words -/

/-- The `w` low bytes of `x`, least significant first. -/
def leBytes : Nat → Nat → List UInt8
  | 0, _ => []
  | w + 1, x => UInt8.ofNat x :: leBytes w (x / 256)

/-- The number a little-endian byte sequence spells. -/
def leNat : List UInt8 → Nat
  | [] => 0
  | b :: bs => b.toNat + 256 * leNat bs

@[simp]
theorem length_leBytes (w x : Nat) : (leBytes w x).length = w := by
  induction w generalizing x with
  | zero => rfl
  | succ w ih => rw [leBytes, List.length_cons, ih]

/-- Decoding an encoded number gives it back modulo the width. -/
theorem leNat_leBytes (w x : Nat) : leNat (leBytes w x) = x % 256 ^ w := by
  induction w generalizing x with
  | zero => simp [leBytes, leNat, Nat.mod_one]
  | succ w ih =>
      have hb : (UInt8.ofNat x).toNat = x % 256 := UInt8.toNat_ofNat'
      rw [leBytes, leNat, ih, hb, Nat.pow_succ, Nat.mul_comm (256 ^ w) 256, Nat.mod_mul]

theorem leNat_leBytes_of_lt {w x : Nat} (h : x < 256 ^ w) : leNat (leBytes w x) = x := by
  rw [leNat_leBytes, Nat.mod_eq_of_lt h]

theorem leNat_lt (bs : List UInt8) : leNat bs < 256 ^ bs.length := by
  induction bs with
  | nil => simp [leNat]
  | cons b bs ih =>
      have hb : b.toNat < 256 := b.toNat_lt
      rw [leNat, List.length_cons, Nat.pow_succ]
      omega

/-- Encoding a decoded sequence at its own width gives the sequence back. -/
theorem leBytes_leNat (bs : List UInt8) : leBytes bs.length (leNat bs) = bs := by
  induction bs with
  | nil => rfl
  | cons b bs ih =>
      have hb : b.toNat < 256 := b.toNat_lt
      have hdiv : (b.toNat + 256 * leNat bs) / 256 = leNat bs := by omega
      have hlow : UInt8.ofNat (b.toNat + 256 * leNat bs) = b := by
        apply UInt8.toNat_inj.mp
        rw [UInt8.toNat_ofNat']
        omega
      rw [List.length_cons, leNat, leBytes, hdiv, ih, hlow]

/-- Byte sequences of one length are told apart by the number they spell. -/
theorem leNat_inj {xs ys : List UInt8} (hlen : xs.length = ys.length) (h : leNat xs = leNat ys) :
    xs = ys := by
  rw [← leBytes_leNat xs, ← leBytes_leNat ys, hlen, h]

/-- The number at a window that holds the changed byte changes. -/
theorem leNat_slice_set_ne {bs : List UInt8} {i off n : Nat} {a b : UInt8} (hi : bs[i]? = some a)
    (hb : b ≠ a) (hlo : off ≤ i) (hhi : i < off + n) :
    leNat (slice (bs.set i b) off n) ≠ leNat (slice bs off n) := by
  intro heq
  have hlen : (slice (bs.set i b) off n).length = (slice bs off n).length := by
    rw [slice_set_of_mem b hlo hhi, List.length_set]
  exact slice_set_ne hi hb hlo hhi (leNat_inj hlen heq)

theorem leNat_append (xs ys : List UInt8) :
    leNat (xs ++ ys) = leNat xs + 256 ^ xs.length * leNat ys := by
  induction xs with
  | nil => simp [leNat]
  | cons x xs ih =>
      rw [List.cons_append, leNat, leNat, ih, List.length_cons, Nat.pow_succ]
      ring

theorem leBytes_leNat_of_length {w : Nat} {bs : List UInt8} (h : bs.length = w) :
    leBytes w (leNat bs) = bs := by
  rw [← h, leBytes_leNat]

end Aqa.Lib
