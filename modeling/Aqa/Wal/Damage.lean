/-
# Aqa.Wal.Damage — changed bytes, long records and torn tails.

Three ways in which the file a replay finds is not the file a careful writer left: one byte has been
changed, a record was longer than its 16-bit length fields can say, or a crash cut the last frame and
a new manager went on behind the cut. The section on each shows exactly when replay still delivers
what it should, and one input on which it does not.

The checksum is the mixed LSN plus the sum of the bytes of key and value. It does not cover the
length fields, so a changed length goes unnoticed when the bytes it lets in or out sum to zero.
-/
import Aqa.Wal.Replay

namespace Aqa

open Aqa.Lib

namespace WalManager

/-! ## Logs of appends -/

/-- Appends on one manager, in order. -/
def appendMany (m : WalManager) (kvs : List (Bytes × Bytes)) : WalManager :=
  kvs.foldl (fun m kv => (m.append kv.1 kv.2).2) m

/-- The records of a sequence of appends on a manager whose LSN counter stands at `lsn`. -/
def stamped : Nat → List (Bytes × Bytes) → List WalRecord
  | _, [] => []
  | lsn, kv :: kvs => ⟨u64 (lsn + 1), kv.1, kv.2⟩ :: stamped (u64 (lsn + 1)) kvs

/-- The log file after a sequence of appends on a new manager. -/
def logOf (kvs : List (Bytes × Bytes)) : Bytes := (appendMany (new none) kvs).file.getD []

/-- The records a replay of a log file visits. -/
def visits (bytes : Bytes) : List WalRecord :=
  match replay collect (new (some bytes), []) with
  | .ok _ (_, recs) => recs
  | .error _ (_, recs) => recs

theorem visits_eq (bytes : Bytes) : visits bytes = readable bytes := by
  have hfile : (new (some bytes)).file = some bytes := rfl
  rw [visits, replay_collect hfile, List.nil_append]

theorem appendMany_spec (kvs : List (Bytes × Bytes)) {m : WalManager} {bytes : Bytes}
    (hfile : m.file = some bytes) (hend : m.AtEnd bytes) :
    (appendMany m kvs).file =
      some (bytes ++ walFraming.encodeAll (stamped m.currentLsn kvs)) := by
  induction kvs generalizing m bytes with
  | nil => rw [appendMany, List.foldl_nil, stamped, Framing.encodeAll_nil, List.append_nil, hfile]
  | cons kv kvs ih =>
      obtain ⟨hfile', hend', hcur'⟩ := write_atEnd
        (m := { m with currentLsn := u64 (m.currentLsn + 1) }) hfile hend
        (frameBytes (u64 (m.currentLsn + 1)) kv.1 kv.2)
      have hih := ih hfile' hend'
      rw [hcur', List.append_assoc] at hih
      exact hih

theorem logOf_eq (kvs : List (Bytes × Bytes)) :
    logOf kvs = walFraming.encodeAll (stamped 0 kvs) := by
  have hspec := appendMany_spec kvs (show (new none).file = some [] from rfl) (Or.inl rfl)
  rw [logOf, hspec, Option.getD_some, List.nil_append]
  rfl

theorem mem_stamped {lsn : Nat} {kvs : List (Bytes × Bytes)} {r : WalRecord}
    (h : r ∈ stamped lsn kvs) : r.lsn < 2 ^ 64 ∧ (r.key, r.value) ∈ kvs := by
  induction kvs generalizing lsn with
  | nil => simp [stamped] at h
  | cons kv kvs ih =>
      rw [stamped] at h
      rcases List.mem_cons.mp h with rfl | h
      · exact ⟨u64_lt _, by simp⟩
      · exact ⟨(ih h).1, List.mem_cons_of_mem _ (ih h).2⟩

theorem stamped_fits {lsn : Nat} {kvs : List (Bytes × Bytes)}
    (h : ∀ kv ∈ kvs, kv.1.length ≤ 65535 ∧ kv.2.length ≤ 65535) :
    ∀ r ∈ stamped lsn kvs, FitsHeader r := by
  intro r hr
  obtain ⟨hlsn, hmem⟩ := mem_stamped hr
  obtain ⟨hk, hv⟩ := h _ hmem
  simp only at hk hv
  exact ⟨hlsn, by omega, by omega⟩

/-! ## Byte sums -/

theorem byteSum_le (bs : Bytes) : byteSum bs ≤ 255 * bs.length := by
  induction bs with
  | nil => simp [byteSum]
  | cons b bs ih =>
      have hb : b.toNat < 256 := b.toNat_lt
      have hsum : byteSum (b :: bs) = b.toNat + byteSum bs := by simp [byteSum]
      rw [hsum, List.length_cons]
      omega

theorem byteSum_set {bs : Bytes} {i : Nat} {a : UInt8} (b : UInt8) (h : bs[i]? = some a) :
    byteSum (bs.set i b) + a.toNat = byteSum bs + b.toNat := by
  induction bs generalizing i with
  | nil => simp at h
  | cons x xs ih =>
      have hcons : ∀ (y : UInt8) (ys : Bytes), byteSum (y :: ys) = y.toNat + byteSum ys := by
        intro y ys
        simp [byteSum]
      cases i with
      | zero =>
          simp only [List.getElem?_cons_zero, Option.some.injEq] at h
          subst h
          rw [List.set_cons_zero, hcons, hcons]
          omega
      | succ i =>
          rw [List.getElem?_cons_succ] at h
          have hih := ih h
          rw [List.set_cons_succ, hcons, hcons]
          omega

/-- A 64-bit number is mixed as the exclusive or of its halves. -/
theorem mix_leNat {xs ys : Bytes} (hx : xs.length = 4) (hy : ys.length = 4) :
    mix 0 (leNat (xs ++ ys)) = leNat xs ^^^ leNat ys := by
  have hxlt : leNat xs < 2 ^ 32 := by
    have := leNat_lt xs
    rwa [hx] at this
  have hylt : leNat ys < 2 ^ 32 := by
    have := leNat_lt ys
    rwa [hy] at this
  have hsplit : leNat (xs ++ ys) = leNat xs + 2 ^ 32 * leNat ys := by
    rw [leNat_append, hx]
    rfl
  have hlow : leNat (xs ++ ys) &&& 0xFFFFFFFF = leNat xs := by
    have hmask : (0xFFFFFFFF : Nat) = 2 ^ 32 - 1 := by decide
    rw [hmask, Nat.and_two_pow_sub_one_eq_mod, hsplit]
    omega
  have hhigh : leNat (xs ++ ys) >>> 32 = leNat ys := by
    rw [Nat.shiftRight_eq_div_pow, hsplit]
    omega
  rw [mix, hlow, hhigh, Nat.zero_xor, u32_of_lt hxlt, u32_of_lt (Nat.xor_lt_two_pow hxlt hylt)]

/-! ## Checksums -/

theorem calculateChecksum_eq_iff {lsn : Nat} {k v k' v' : Bytes} :
    calculateChecksum lsn k v = calculateChecksum lsn k' v' ↔
      u32 (byteSum k + byteSum v) = u32 (byteSum k' + byteSum v') := by
  rw [calculateChecksum_eq, calculateChecksum_eq, u32, u32, u32, u32]
  omega

theorem calculateChecksum_ne_of_mix {lsn lsn' : Nat} {k v : Bytes} (h : mix 0 lsn' ≠ mix 0 lsn) :
    calculateChecksum lsn' k v ≠ calculateChecksum lsn k v := by
  have hlt : mix 0 lsn < 2 ^ 32 := u32_lt _
  have hlt' : mix 0 lsn' < 2 ^ 32 := u32_lt _
  rw [calculateChecksum_eq, calculateChecksum_eq, u32, u32]
  omega

/-- The byte sum of a record whose lengths fit their fields fits 32 bits. -/
theorem byteSum_lt {bs : Bytes} (h : bs.length < 2 ^ 17) : byteSum bs < 2 ^ 32 := by
  have hle := byteSum_le bs
  omega

theorem byteSum_slice_add (g : Bytes) (off k v : Nat) :
    byteSum (slice g off k) + byteSum (slice g (off + k) v) = byteSum (slice g off (k + v)) := by
  rw [slice_add, byteSum_append]

/-! ## One changed byte -/

section Changed

variable {g : Bytes} {r : WalRecord} {rest : Bytes} {o : Nat} {a b : UInt8}

/-- A changed byte of an LSN changes what is mixed of it: the half that holds the byte changes, and
the other one stays. -/
theorem mix_set_ne (hlen : 12 ≤ g.length) (ha : g[o]? = some a) (hb : b ≠ a) (hlo : 4 ≤ o)
    (hhi : o < 12) : mix 0 (leNat (slice (g.set o b) 4 8)) ≠ mix 0 (leNat (slice g 4 8)) := by
  have hhalves : ∀ g' : Bytes, g'.length = g.length →
      mix 0 (leNat (slice g' 4 8)) = leNat (slice g' 4 4) ^^^ leNat (slice g' 8 4) := by
    intro g' hg'
    rw [slice_add g' 4 4 4, mix_leNat (length_slice (by omega)) (length_slice (by omega))]
  rw [hhalves _ List.length_set, hhalves g rfl]
  intro heq
  rcases Nat.lt_or_ge o 8 with hlow | hhigh
  · rw [slice_set_of_not_mem 8 b (by omega)] at heq
    exact leNat_slice_set_ne ha hb hlo (by omega) (Nat.xor_left_injective heq)
  · rw [slice_set_of_not_mem 4 b (by omega)] at heq
    exact leNat_slice_set_ne ha hb hhigh (by omega) (Nat.xor_right_injective heq)

/-- A changed byte of a window changes the byte sum of the window. -/
theorem byteSum_slice_set_ne {off n : Nat} (ha : g[o]? = some a) (hb : b ≠ a) (hlo : off ≤ o)
    (hhi : o < off + n) : byteSum (slice (g.set o b) off n) ≠ byteSum (slice g off n) := by
  have hget : (slice g off n)[o - off]? = some a := by
    rw [getElem?_slice, if_pos (by omega), Nat.add_sub_cancel' hlo, ha]
  have hset := byteSum_set b hget
  have hab : a.toNat ≠ b.toNat := fun heq => hb (UInt8.toNat_inj.mp heq).symm
  rw [slice_set_of_mem b hlo hhi]
  omega

/-- A change outside the length fields keeps the frame where it is and spoils its checksum. -/
theorem parseFrame_set_of_not_length (hfits : FitsHeader r)
    (ho : o < (frameBytes r.lsn r.key r.value).length)
    (ha : (frameBytes r.lsn r.key r.value ++ rest)[o]? = some a) (hb : b ≠ a)
    (hout : o < 12 ∨ 16 ≤ o) :
    parseFrame ((frameBytes r.lsn r.key r.value ++ rest).set o b) = none := by
  have hframe := frameBytes_of_fits hfits
  have hlen := length_frameWith (calculateChecksum r.lsn r.key r.value) r.lsn r.key r.value
  rw [← hframe] at hlen
  obtain ⟨h0, h4, h12, h14, h16, hval⟩ := slices_frameWith
    (calculateChecksum r.lsn r.key r.value) r.lsn r.key r.value rest
  rw [← hframe] at h0 h4 h12 h14 h16 hval
  generalize hg : frameBytes r.lsn r.key r.value ++ rest = g at *
  have hglen : 16 + r.key.length + r.value.length ≤ g.length := by
    rw [← hg, List.length_append, hlen]
    omega
  have hk : leNat (slice (g.set o b) 12 2) = r.key.length := by
    rw [slice_set_of_not_mem _ b (by omega), h12, leNat_leBytes_of_lt (by simpa using hfits.2.1)]
  have hv : leNat (slice (g.set o b) 14 2) = r.value.length := by
    rw [slice_set_of_not_mem _ b (by omega), h14, leNat_leBytes_of_lt (by simpa using hfits.2.2)]
  have hsum : leNat (slice g 0 4) = calculateChecksum r.lsn r.key r.value := by
    rw [h0, leNat_leBytes_of_lt (by simpa using calculateChecksum_lt _ _ _)]
  have hlsn : leNat (slice g 4 8) = r.lsn := by
    rw [h4, leNat_leBytes_of_lt (by simpa using hfits.1)]
  -- what is left is a comparison of checksums
  suffices hne : calculateChecksum (leNat (slice (g.set o b) 4 8))
      (slice (g.set o b) 16 r.key.length) (slice (g.set o b) (16 + r.key.length) r.value.length) ≠
      leNat (slice (g.set o b) 0 4) by
    rw [parseFrame, hk, hv, parseBody, if_neg (by rw [List.length_set]; omega), if_neg hne]
  rcases Nat.lt_or_ge o 4 with hlt | hge
  · -- the stored checksum
    have hother := leNat_slice_set_ne ha hb (Nat.zero_le o) (show o < 0 + 4 by omega)
    rw [slice_set_of_not_mem 4 b (by omega), slice_set_of_not_mem 16 b (by omega),
      slice_set_of_not_mem (16 + r.key.length) b (by omega), hlsn, h16, hval, ← hsum]
    exact hother.symm
  · rw [slice_set_of_not_mem 0 b (by omega), hsum]
    rcases Nat.lt_or_ge o 12 with hlt | hge'
    · -- one half of the LSN
      have hmix := mix_set_ne (by omega) ha hb hge hlt
      rw [hlsn] at hmix
      rw [slice_set_of_not_mem 16 b (by omega),
        slice_set_of_not_mem (16 + r.key.length) b (by omega), h16, hval]
      exact calculateChecksum_ne_of_mix hmix
    · -- a byte of key or value
      have hne := byteSum_slice_set_ne ha hb (show 16 ≤ o by omega)
        (show o < 16 + (r.key.length + r.value.length) by omega)
      have hlength : ∀ g' : Bytes, (slice g' 16 (r.key.length + r.value.length)).length < 2 ^ 17 := by
        intro g'
        have hle := length_slice_le g' 16 (r.key.length + r.value.length)
        obtain ⟨-, hkl, hvl⟩ := hfits
        omega
      have hbody : byteSum r.key + byteSum r.value =
          byteSum (slice g 16 (r.key.length + r.value.length)) := by
        rw [← byteSum_slice_add, h16, hval]
      rw [slice_set_of_not_mem 4 b (by omega), hlsn, Ne, calculateChecksum_eq_iff, byteSum_slice_add,
        hbody, u32_of_lt (byteSum_lt (hlength _)), u32_of_lt (byteSum_lt (hlength _))]
      exact hne

/-- The window that a frame's changed length fields open lies in the file and has the byte sum of the
record written there. -/
def SumKept (bytes : Bytes) (start : Nat) (r : WalRecord) : Prop :=
  start + 16 + leNat (slice bytes (start + 12) 2) + leNat (slice bytes (start + 14) 2) ≤
      bytes.length ∧
    byteSum (slice bytes (start + 16)
        (leNat (slice bytes (start + 12) 2) + leNat (slice bytes (start + 14) 2))) =
      byteSum r.key + byteSum r.value

instance (bytes : Bytes) (start : Nat) (r : WalRecord) : Decidable (SumKept bytes start r) :=
  inferInstanceAs (Decidable (_ ∧ _))

/-- A changed length field goes unnoticed exactly when the byte sum is kept, and then another record
is read. -/
theorem parseFrame_set_of_length (hfits : FitsHeader r)
    (ha : (frameBytes r.lsn r.key r.value ++ rest)[o]? = some a) (hb : b ≠ a)
    (hlo : 12 ≤ o) (hhi : o < 16) :
    if SumKept ((frameBytes r.lsn r.key r.value ++ rest).set o b) 0 r then
      ∃ r' rest', parseFrame ((frameBytes r.lsn r.key r.value ++ rest).set o b) =
        some (r', rest') ∧ r' ≠ r
    else parseFrame ((frameBytes r.lsn r.key r.value ++ rest).set o b) = none := by
  have hframe := frameBytes_of_fits hfits
  have hlen := length_frameWith (calculateChecksum r.lsn r.key r.value) r.lsn r.key r.value
  rw [← hframe] at hlen
  obtain ⟨h0, h4, h12, h14, -, -⟩ := slices_frameWith
    (calculateChecksum r.lsn r.key r.value) r.lsn r.key r.value rest
  rw [← hframe] at h0 h4 h12 h14
  generalize hg : frameBytes r.lsn r.key r.value ++ rest = g at *
  have hglen : 16 ≤ g.length := by
    rw [← hg, List.length_append, hlen]
    omega
  have hsum : leNat (slice (g.set o b) 0 4) = calculateChecksum r.lsn r.key r.value := by
    rw [slice_set_of_not_mem _ b (by omega), h0,
      leNat_leBytes_of_lt (by simpa using calculateChecksum_lt _ _ _)]
  have hlsn : leNat (slice (g.set o b) 4 8) = r.lsn := by
    rw [slice_set_of_not_mem _ b (by omega), h4, leNat_leBytes_of_lt (by simpa using hfits.1)]
  -- one of the two lengths is not what was written
  have hother : leNat (slice (g.set o b) 12 2) ≠ r.key.length ∨
      leNat (slice (g.set o b) 14 2) ≠ r.value.length := by
    have hk : leNat (slice g 12 2) = r.key.length := by
      rw [h12, leNat_leBytes_of_lt (by simpa using hfits.2.1)]
    have hv : leNat (slice g 14 2) = r.value.length := by
      rw [h14, leNat_leBytes_of_lt (by simpa using hfits.2.2)]
    rcases Nat.lt_or_ge o 14 with hlt | hge
    · left
      rw [← hk]
      exact leNat_slice_set_ne ha hb hlo (by omega)
    · right
      rw [← hv]
      exact leNat_slice_set_ne ha hb hge (by omega)
  have hklt : leNat (slice (g.set o b) 12 2) < 2 ^ 16 := by
    have := leNat_lt (slice (g.set o b) 12 2)
    rwa [length_slice (by rw [List.length_set]; omega)] at this
  have hvlt : leNat (slice (g.set o b) 14 2) < 2 ^ 16 := by
    have := leNat_lt (slice (g.set o b) 14 2)
    rwa [length_slice (by rw [List.length_set]; omega)] at this
  have hkept : SumKept (g.set o b) 0 r ↔
      16 + leNat (slice (g.set o b) 12 2) + leNat (slice (g.set o b) 14 2) ≤ (g.set o b).length ∧
        byteSum (slice (g.set o b) 16
          (leNat (slice (g.set o b) 12 2) + leNat (slice (g.set o b) 14 2))) =
        byteSum r.key + byteSum r.value := by
    simp only [SumKept, Nat.zero_add]
  have hparse : parseFrame (g.set o b) = parseBody (g.set o b)
      (leNat (slice (g.set o b) 12 2)) (leNat (slice (g.set o b) 14 2)) := rfl
  rw [hparse]
  simp only [hkept]
  clear hkept hparse
  generalize leNat (slice (g.set o b) 12 2) = k at *
  generalize leNat (slice (g.set o b) 14 2) = v at *
  rw [parseBody, hlsn, hsum]
  -- both sums are below 2^32, so that equal checksums mean equal sums
  have hchecksum : calculateChecksum r.lsn (slice (g.set o b) 16 k)
      (slice (g.set o b) (16 + k) v) = calculateChecksum r.lsn r.key r.value ↔
      byteSum (slice (g.set o b) 16 (k + v)) = byteSum r.key + byteSum r.value := by
    have hslice := length_slice_le (g.set o b) 16 (k + v)
    have hkey := byteSum_le r.key
    have hval := byteSum_le r.value
    obtain ⟨_, hkl, hvl⟩ := hfits
    rw [calculateChecksum_eq_iff, byteSum_slice_add, u32_of_lt (byteSum_lt (by omega)),
      u32_of_lt (by omega)]
  by_cases hfit : 16 + k + v ≤ (g.set o b).length
  · rw [if_neg (Nat.not_lt.mpr hfit)]
    by_cases hkept : byteSum (slice (g.set o b) 16 (k + v)) = byteSum r.key + byteSum r.value
    · rw [if_pos ⟨hfit, hkept⟩, if_pos (hchecksum.mpr hkept)]
      refine ⟨_, _, rfl, ?_⟩
      intro heq
      have hk := congrArg (fun x => x.key.length) heq
      have hv := congrArg (fun x => x.value.length) heq
      simp only at hk hv
      rw [length_slice (by omega)] at hk hv
      omega
    · rw [if_neg (fun h => hkept h.2), if_neg (fun h => hkept (hchecksum.mp h))]
  · rw [if_neg (fun h => hfit h.1), if_pos (Nat.not_le.mp hfit)]

end Changed

/-- The changed byte lies in a length field of a record, and the window it opens keeps the record's
byte sum. -/
def LengthSlip (kvs : List (Bytes × Bytes)) (i : Nat) (b : UInt8) : Prop :=
  ∃ pre r post, stamped 0 kvs = pre ++ r :: post ∧
    (walFraming.encodeAll pre).length + 12 ≤ i ∧ i < (walFraming.encodeAll pre).length + 16 ∧
    SumKept ((logOf kvs).set i b) (walFraming.encodeAll pre).length r

/-- **When one changed byte goes unnoticed.** For every log of appends with lengths within 16 bits
and every change of one byte, replay visits a prefix of the records appended if and only if the
change is not one of a length field that keeps the byte sum. -/
theorem corruption_detected_iff (kvs : List (Bytes × Bytes))
    (hfits : ∀ kv ∈ kvs, kv.1.length ≤ 65535 ∧ kv.2.length ≤ 65535) (i : Nat) (a b : UInt8)
    (ha : (logOf kvs)[i]? = some a) (hb : b ≠ a) :
    visits ((logOf kvs).set i b) <+: stamped 0 kvs ↔ ¬ LengthSlip kvs i b := by
  have hvalid : ∀ r ∈ stamped 0 kvs, FitsHeader r := stamped_fits hfits
  have hlt : i < (logOf kvs).length := (List.getElem?_eq_some_iff.mp ha).1
  have hlog := logOf_eq kvs
  obtain ⟨pre, r, post, hrecs, hlo, hhi⟩ := walFraming.exists_frame_of_lt
    (by rw [← hlog]; exact hlt)
  have hencode : walFraming.encode r = frameBytes r.lsn r.key r.value := rfl
  rw [hencode] at hhi
  have hr : FitsHeader r := hvalid r (by rw [hrecs]; simp)
  have hpre : ∀ s ∈ pre, FitsHeader s := fun s hs => hvalid s (by rw [hrecs]; simp [hs])
  have hbytes : logOf kvs = walFraming.encodeAll pre ++
      (frameBytes r.lsn r.key r.value ++ walFraming.encodeAll post) := by
    rw [hlog, hrecs, Framing.encodeAll_append, Framing.encodeAll_cons]
    rfl
  obtain ⟨o, rfl⟩ := Nat.exists_eq_add_of_le hlo
  have ho : o < (frameBytes r.lsn r.key r.value).length := by omega
  have hset : (logOf kvs).set ((walFraming.encodeAll pre).length + o) b =
      walFraming.encodeAll pre ++
        (frameBytes r.lsn r.key r.value ++ walFraming.encodeAll post).set o b := by
    rw [hbytes, List.set_append_right _ _ (by omega), Nat.add_sub_cancel_left]
  have hao : (frameBytes r.lsn r.key r.value ++ walFraming.encodeAll post)[o]? = some a := by
    rw [hbytes, List.getElem?_append_right (by omega), Nat.add_sub_cancel_left] at ha
    exact ha
  have hkept : SumKept ((logOf kvs).set ((walFraming.encodeAll pre).length + o) b)
      (walFraming.encodeAll pre).length r ↔
      SumKept ((frameBytes r.lsn r.key r.value ++ walFraming.encodeAll post).set o b) 0 r := by
    rw [hset, SumKept, SumKept]
    simp only [Nat.add_assoc, slice_append_right, Nat.zero_add, List.length_append,
      Nat.add_le_add_iff_left]
  have hread := Framing.readAll_encodeAll_append (F := walFraming) hpre
    ((frameBytes r.lsn r.key r.value ++ walFraming.encodeAll post).set o b)
  have hvisits : visits ((logOf kvs).set ((walFraming.encodeAll pre).length + o) b) =
      pre ++ readable ((frameBytes r.lsn r.key r.value ++ walFraming.encodeAll post).set o b) := by
    rw [visits_eq, hset, readable, hread]
    rfl
  -- the frame that holds the position is the only one a slip can be about
  have hslip : LengthSlip kvs ((walFraming.encodeAll pre).length + o) b ↔
      12 ≤ o ∧ o < 16 ∧
        SumKept ((frameBytes r.lsn r.key r.value ++ walFraming.encodeAll post).set o b) 0 r := by
    rw [← hkept]
    constructor
    · rintro ⟨pre', r', post', heq, hlo', hhi', hsum⟩
      have hr' : FitsHeader r' := hvalid r' (by rw [heq]; simp)
      have hlen' : 16 ≤ (walFraming.encode r').length := by
        rw [show walFraming.encode r' = frameBytes r'.lsn r'.key r'.value from rfl,
          frameBytes_of_fits hr', length_frameWith]
        omega
      obtain ⟨rfl, rfl⟩ := walFraming.frame_unique (hrecs.symm.trans heq) hlo hhi
        (by omega) (by omega)
      exact ⟨by omega, by omega, hsum⟩
    · rintro ⟨h12, h16, hsum⟩
      exact ⟨pre, r, post, hrecs, by omega, by omega, hsum⟩
  rw [hvisits, hslip, hrecs]
  by_cases hlength : 12 ≤ o ∧ o < 16
  · have hparse := parseFrame_set_of_length hr hao hb hlength.1 hlength.2
    by_cases hsum : SumKept
        ((frameBytes r.lsn r.key r.value ++ walFraming.encodeAll post).set o b) 0 r
    · rw [if_pos hsum] at hparse
      obtain ⟨r', rest', hparse, hne⟩ := hparse
      have hdecode : walFraming.decode
          ((frameBytes r.lsn r.key r.value ++ walFraming.encodeAll post).set o b) =
          some (r', rest') := hparse
      rw [readable, Framing.readAll_of_decode_some hdecode]
      constructor
      · intro hprefix
        rw [List.prefix_append_right_inj, List.cons_prefix_cons] at hprefix
        exact absurd hprefix.1 hne
      · intro hnot
        exact absurd ⟨hlength.1, hlength.2, hsum⟩ hnot
    · rw [if_neg hsum] at hparse
      have hdecode : walFraming.decode
          ((frameBytes r.lsn r.key r.value ++ walFraming.encodeAll post).set o b) = none := hparse
      rw [readable, Framing.readAll_of_decode_none hdecode, List.append_nil]
      exact ⟨fun _ h => hsum h.2.2, fun _ => List.prefix_append _ _⟩
  · have hparse : walFraming.decode
        ((frameBytes r.lsn r.key r.value ++ walFraming.encodeAll post).set o b) = none :=
      parseFrame_set_of_not_length hr ho hao hb (by omega)
    rw [readable, Framing.readAll_of_decode_none hparse, List.append_nil]
    exact ⟨fun _ h => hlength ⟨h.1, h.2.1⟩, fun _ => List.prefix_append _ _⟩

/-- **A corruption that is replayed.** The value of the only record is one zero byte; with its length
field changed from 1 to 0 the record is delivered with an empty value. -/
theorem corruption_replayed :
    (logOf [([1], [0])])[14]? = some 1 ∧
      ¬ visits ((logOf [([1], [0])]).set 14 0) <+: stamped 0 [([1], [0])] := by
  decide +kernel

/-- A changed byte of a value. -/
theorem corruption_detected_value_byte :
    visits ((logOf [([1], [0])]).set 17 5) <+: stamped 0 [([1], [0])] ↔
      ¬ LengthSlip [([1], [0])] 17 5 :=
  corruption_detected_iff [([1], [0])] (by decide) 17 0 5 (by decide +kernel) (by decide)

/-! ## Records longer than their length fields -/

instance (r : WalRecord) : Decidable (FitsHeader r) := inferInstanceAs (Decidable (_ ∧ _ ∧ _))

/-- What is left of a record in its frame. -/
def truncated (r : WalRecord) : WalRecord :=
  ⟨r.lsn, r.key.take (u16 r.key.length), r.value.take (u16 r.value.length)⟩

/-- The bytes left out of the frame sum to zero modulo 2^32. -/
def Legible (r : WalRecord) : Prop :=
  u32 (byteSum r.key + byteSum r.value) =
    u32 (byteSum (truncated r).key + byteSum (truncated r).value)

instance (r : WalRecord) : Decidable (Legible r) := inferInstanceAs (Decidable (_ = _))

theorem truncated_of_fits {r : WalRecord} (h : FitsHeader r) : truncated r = r := by
  rw [truncated, u16_of_lt h.2.1, u16_of_lt h.2.2, List.take_length, List.take_length]

theorem legible_of_fits {r : WalRecord} (h : FitsHeader r) : Legible r := by
  rw [Legible, truncated_of_fits h]

/-- A frame, whatever the size of its record, decodes to what is left of the record when that is
legible, and not at all otherwise. -/
theorem parseFrame_frameBytes {r : WalRecord} (hlsn : r.lsn < 2 ^ 64) (rest : Bytes) :
    parseFrame (frameBytes r.lsn r.key r.value ++ rest) =
      if Legible r then some (truncated r, rest) else none := by
  have hlen : ∀ bs : Bytes, (bs.take (u16 bs.length)).length < 2 ^ 16 := by
    intro bs
    have := u16_lt bs.length
    rw [List.length_take]
    omega
  have hlegible : calculateChecksum r.lsn (truncated r).key (truncated r).value =
      calculateChecksum r.lsn r.key r.value ↔ Legible r := by
    rw [calculateChecksum_eq_iff, Legible, eq_comm]
  rw [frameBytes, parseFrame_frameWith rest (calculateChecksum_lt _ _ _) hlsn (hlen _) (hlen _)]
  have htrunc : calculateChecksum r.lsn (r.key.take (u16 r.key.length))
      (r.value.take (u16 r.value.length)) =
      calculateChecksum r.lsn (truncated r).key (truncated r).value := rfl
  simp only [htrunc, hlegible]
  rfl

/-- **Replay stops at the first record that is not legible**, and delivers what is left of those in
front of it. -/
theorem visits_logOf (kvs : List (Bytes × Bytes)) :
    visits (logOf kvs) =
      ((stamped 0 kvs).takeWhile fun r => decide (Legible r)).map truncated := by
  rw [visits_eq, logOf_eq]
  have hlsn : ∀ r ∈ stamped 0 kvs, r.lsn < 2 ^ 64 := fun r hr => (mem_stamped hr).1
  generalize stamped 0 kvs = recs at hlsn
  induction recs with
  | nil => rfl
  | cons r recs ih =>
      have hdecode : walFraming.decode (walFraming.encodeAll (r :: recs)) =
          if Legible r then some (truncated r, walFraming.encodeAll recs) else none :=
        parseFrame_frameBytes (hlsn r (by simp)) _
      by_cases hr : Legible r
      · rw [if_pos hr] at hdecode
        rw [readable, Framing.readAll_of_decode_some hdecode, List.takeWhile_cons,
          if_pos (decide_eq_true hr), List.map_cons, ← ih (fun s hs => hlsn s (by simp [hs]))]
        rfl
      · rw [if_neg hr] at hdecode
        rw [readable, Framing.readAll_of_decode_none hdecode, List.takeWhile_cons,
          if_neg (by simpa using hr), List.map_nil]

/-- Below 2^64 appends the LSNs are consecutive. -/
theorem map_lsn_stamped {lsn : Nat} (kvs : List (Bytes × Bytes))
    (h : lsn + kvs.length < 2 ^ 64) :
    (stamped lsn kvs).map WalRecord.lsn = List.range' (lsn + 1) kvs.length := by
  induction kvs generalizing lsn with
  | nil => rfl
  | cons kv kvs ih =>
      rw [List.length_cons] at h
      rw [stamped, u64_of_lt (by omega), List.map_cons, ih (by omega), List.length_cons,
        List.range'_succ]

/-- **When long records hide others.** For every sequence of appends, of any lengths, the records that
fit their length fields are all delivered, in order, if and only if every record in front of one of
them is legible. -/
theorem fitting_delivered_iff (kvs : List (Bytes × Bytes)) (hlen : kvs.length < 2 ^ 64) :
    ((stamped 0 kvs).filter fun r => decide (FitsHeader r)).Sublist (visits (logOf kvs)) ↔
      ∀ pre r post, stamped 0 kvs = pre ++ r :: post → (∃ s ∈ post, FitsHeader s) →
        Legible r := by
  have hnodup : ((stamped 0 kvs).map WalRecord.lsn).Nodup := by
    rw [map_lsn_stamped _ (by omega)]
    exact List.nodup_range'
  rw [visits_logOf]
  generalize stamped 0 kvs = recs at hnodup
  constructor
  · rintro hsub pre r post rfl ⟨s, hs, hfits⟩
    by_contra hr
    have hmem : s ∈ (pre ++ r :: post).filter fun r => decide (FitsHeader r) := by
      simp [hs, hfits]
    obtain ⟨t, ht, hts⟩ := List.mem_map.mp (hsub.subset hmem)
    -- `t` is delivered, so it stands in front of `r`, while `s` stands behind
    have hpre : t ∈ pre := by
      have htake : (pre ++ r :: post).takeWhile (fun r => decide (Legible r)) <+: pre := by
        rw [List.takeWhile_append]
        split
        · rw [List.takeWhile_cons, if_neg (by simpa using hr), List.append_nil]
        · exact List.takeWhile_prefix _
      exact htake.subset ht
    have hsame : t.lsn = s.lsn := by rw [← hts, truncated]
    rw [List.map_append, List.nodup_append] at hnodup
    exact hnodup.2.2 t.lsn (List.mem_map_of_mem hpre) s.lsn
      (List.mem_map_of_mem (List.mem_cons_of_mem _ hs)) hsame
  · intro hall
    have hfront : ∀ l : List WalRecord,
        (l.filter fun r => decide (FitsHeader r)).Sublist (l.map truncated) := by
      intro l
      induction l with
      | nil => exact List.Sublist.slnil
      | cons r l ih =>
          rw [List.filter_cons, List.map_cons]
          split
          · rename_i hfits
            rw [truncated_of_fits (by simpa using hfits)]
            exact ih.cons_cons r
          · exact ih.cons _
    have hsplit := List.takeWhile_append_dropWhile (p := fun r => decide (Legible r)) (l := recs)
    have hrest : (recs.dropWhile fun r => decide (Legible r)).filter
        (fun r => decide (FitsHeader r)) = [] := by
      cases hdrop : recs.dropWhile fun r => decide (Legible r) with
      | nil => rfl
      | cons r post =>
          have hr : ¬ Legible r := by
            have hhead := List.head_dropWhile_not (l := recs) (fun r => decide (Legible r))
              (by rw [hdrop]; simp)
            simp only [hdrop, List.head_cons] at hhead
            simpa using hhead
          rw [hdrop] at hsplit
          rw [List.filter_eq_nil_iff]
          intro s hs
          rcases List.mem_cons.mp hs with rfl | hs
          · simpa using fun hfits => hr (legible_of_fits hfits)
          · simpa using fun hfits => hr (hall _ r post hsplit.symm ⟨s, hs, hfits⟩)
    have hkeep : recs.filter (fun r => decide (FitsHeader r)) =
        (recs.takeWhile fun r => decide (Legible r)).filter fun r => decide (FitsHeader r) := by
      conv_lhs => rw [← hsplit]
      rw [List.filter_append, hrest, List.append_nil]
    rw [hkeep]
    exact hfront _

/-- Behind a value of 65536 bytes with a byte sum of 65536 nothing is delivered. -/
theorem hidden_behind {value : Bytes} (hlen : value.length = 65536)
    (hsum : byteSum value = 65536) :
    ¬ ((stamped 0 [([], value), ([1], [2])]).filter fun r => decide (FitsHeader r)).Sublist
      (visits (logOf [([], value), ([1], [2])])) := by
  have hlong : ¬ Legible ⟨u64 (0 + 1), [], value⟩ := by
    have hzero : u16 65536 = 0 := by
      rw [u16]
      norm_num
    rw [Legible, truncated]
    simp only [hlen, hzero, List.take_zero, List.take_nil, hsum]
    decide +kernel
  rw [visits_logOf, stamped, List.takeWhile_cons, if_neg (by simpa using hlong), List.map_nil,
    List.sublist_nil]
  have hmem : (⟨u64 (u64 (0 + 1) + 1), [1], [2]⟩ : WalRecord) ∈
      (((⟨u64 (0 + 1), [], value⟩ : WalRecord) :: stamped (u64 (0 + 1)) [([1], [2])]).filter
        fun r => decide (FitsHeader r)) := by
    rw [List.mem_filter]
    refine ⟨by simp [stamped], ?_⟩
    exact decide_eq_true ⟨u64_lt _, by simp, by simp⟩
  exact List.ne_nil_of_mem hmem

/-- **A long record that hides another.** -/
theorem fitting_hidden :
    ¬ ((stamped 0 [([], List.replicate 65536 1), ([1], [2])]).filter
        fun r => decide (FitsHeader r)).Sublist
      (visits (logOf [([], List.replicate 65536 1), ([1], [2])])) := by
  apply hidden_behind List.length_replicate
  rw [byteSum, List.map_replicate, List.sum_replicate]
  rfl

/-- A value of zero bytes is left out of its frame and of no checksum, however long it is: the records
around it are delivered. -/
theorem fitting_delivered_zeros :
    ((stamped 0 [([1], [2]), ([3], List.replicate 65536 0), ([4], [5])]).filter
        fun r => decide (FitsHeader r)).Sublist
      (visits (logOf [([1], [2]), ([3], List.replicate 65536 0), ([4], [5])])) := by
  -- of the value only its length and its sum matter
  obtain ⟨value, hvalue⟩ : ∃ value : Bytes, List.replicate 65536 0 = value := ⟨_, rfl⟩
  have hlen : value.length = 65536 := by rw [← hvalue, List.length_replicate]
  have hsum : byteSum value = 0 := by
    rw [← hvalue, byteSum, List.map_replicate, List.sum_replicate]
    rfl
  have hzero : u16 65536 = 0 := by
    rw [u16]
    norm_num
  rw [hvalue]
  refine (fitting_delivered_iff [([1], [2]), ([3], value), ([4], [5])]
    (by simp)).mpr fun pre r post hsplit _ => ?_
  have hr : r ∈ stamped 0 [([1], [2]), ([3], value), ([4], [5])] := by
    rw [hsplit]
    simp
  simp only [stamped, List.mem_cons, List.not_mem_nil, or_false] at hr
  rcases hr with rfl | rfl | rfl
  · exact legible_of_fits (by decide +kernel)
  · rw [Legible, truncated]
    simp only [hlen, hzero, hsum, List.take_zero]
    decide +kernel
  · exact legible_of_fits (by decide +kernel)

/-! ## Torn tails -/

/-- A new manager on the first `n` bytes of a log, after the replay with which a database starts. -/
def restarted (n : Nat) (kvs : List (Bytes × Bytes)) : WalManager :=
  WalOp.run (new (some ((logOf kvs).take n))) .replay

/-- The records wholly contained in the first `n` bytes of a log. -/
def containedIn (n : Nat) (kvs : List (Bytes × Bytes)) : List WalRecord :=
  walFraming.wholeWithin n (stamped 0 kvs)

/-- The bytes behind them. -/
def tornBytes (n : Nat) (kvs : List (Bytes × Bytes)) : Bytes :=
  walFraming.tornTail n (stamped 0 kvs)

/-- What a replay visits after a log was cut, reopened, replayed and continued. -/
def visitsAfterCut (n : Nat) (kvs later : List (Bytes × Bytes)) : List WalRecord :=
  visits ((appendMany (restarted n kvs) later).file.getD [])

/-- All records fit their length fields, and the torn bytes followed by the later frames spell the
later frames again, with a remainder that no frame begins. That is so when nothing is torn and when
nothing is appended later. -/
def TornTailHarmless (n : Nat) (kvs later : List (Bytes × Bytes)) : Prop :=
  (∀ r ∈ containedIn n kvs, FitsHeader r) ∧
    (∀ kv ∈ later, kv.1.length ≤ 65535 ∧ kv.2.length ≤ 65535) ∧
    ∃ rest, tornBytes n kvs ++
        walFraming.encodeAll (stamped (containedIn n kvs).length later) =
          walFraming.encodeAll (stamped (containedIn n kvs).length later) ++ rest ∧
      ¬ ∃ r rest', FitsHeader r ∧ rest = frameBytes r.lsn r.key r.value ++ rest'

/-- A proper prefix of a frame does not parse, not even of the frame of a long record. -/
theorem parseFrame_of_strict_prefix {r : WalRecord} {bs rest : Bytes}
    (h : frameBytes r.lsn r.key r.value = bs ++ rest) (hne : rest ≠ []) :
    parseFrame bs = none := by
  cases hparse : parseFrame bs with
  | none => rfl
  | some out =>
      obtain ⟨s, left⟩ := out
      obtain ⟨hfits, rfl⟩ := parseFrame_sound hparse
      rw [frameBytes_of_fits hfits, frameBytes, List.append_assoc] at h
      have hsize : ∀ x : Bytes, (x.take (u16 x.length)).length < 2 ^ 16 := by
        intro x
        have := u16_lt x.length
        rw [List.length_take]
        omega
      -- both sides state their lengths at the same place
      have hall := slices_frameWith (calculateChecksum r.lsn r.key r.value) r.lsn
        (r.key.take (u16 r.key.length)) (r.value.take (u16 r.value.length)) []
      have hall' := slices_frameWith (calculateChecksum s.lsn s.key s.value) s.lsn s.key s.value
        (left ++ rest)
      rw [List.append_nil, h] at hall
      have hk := congrArg leNat (hall.2.2.1.symm.trans hall'.2.2.1)
      have hv := congrArg leNat (hall.2.2.2.1.symm.trans hall'.2.2.2.1)
      rw [leNat_leBytes_of_lt (by simpa using hsize r.key),
        leNat_leBytes_of_lt (by simpa using hfits.2.1)] at hk
      rw [leNat_leBytes_of_lt (by simpa using hsize r.value),
        leNat_leBytes_of_lt (by simpa using hfits.2.2)] at hv
      have hlen := congrArg List.length h
      rw [length_frameWith, List.length_append, length_frameWith, List.length_append] at hlen
      have hpos := List.length_pos_of_ne_nil hne
      omega

theorem decode_tornBytes (n : Nat) (kvs : List (Bytes × Bytes)) :
    walFraming.decode (tornBytes n kvs) = none := by
  rcases Framing.tornTail_cases (F := walFraming) n (stamped 0 kvs) with
    hnil | ⟨r, _, rest, hne, heq⟩
  · rw [tornBytes, hnil]
    exact Framing.decode_nil
  · exact parseFrame_of_strict_prefix heq hne

@[simp]
theorem length_stamped (lsn : Nat) (kvs : List (Bytes × Bytes)) :
    (stamped lsn kvs).length = kvs.length := by
  induction kvs generalizing lsn with
  | nil => rfl
  | cons kv kvs ih => rw [stamped, List.length_cons, List.length_cons, ih]

theorem map_stamped (lsn : Nat) (kvs : List (Bytes × Bytes)) :
    (stamped lsn kvs).map (fun r => (r.key, r.value)) = kvs := by
  induction kvs generalizing lsn with
  | nil => rfl
  | cons kv kvs ih => rw [stamped, List.map_cons, ih]

theorem take_stamped (lsn k : Nat) (kvs : List (Bytes × Bytes)) :
    (stamped lsn kvs).take k = stamped lsn (kvs.take k) := by
  induction kvs generalizing lsn k with
  | nil => simp [stamped]
  | cons kv kvs ih =>
      cases k with
      | zero => rfl
      | succ k => rw [stamped, List.take_succ_cons, List.take_succ_cons, stamped, ih]

/-- The contained records are the first appends. -/
theorem containedIn_eq (n : Nat) (kvs : List (Bytes × Bytes)) :
    containedIn n kvs = stamped 0 (kvs.take (containedIn n kvs).length) ∧
      (containedIn n kvs).length ≤ kvs.length := by
  have hprefix := walFraming.prefix_wholeWithin n (stamped 0 kvs)
  refine ⟨?_, ?_⟩
  · rw [← take_stamped]
    exact List.prefix_iff_eq_take.mp hprefix
  · have hle := hprefix.length_le
    rwa [length_stamped] at hle

/-- The highest LSN of a sequence of appends. -/
theorem maxLsn_stamped {kvs : List (Bytes × Bytes)} (h : kvs.length < 2 ^ 64) :
    maxLsn 0 (stamped 0 kvs) = kvs.length := by
  have hmap : maxLsn 0 (stamped 0 kvs) =
      ((stamped 0 kvs).map WalRecord.lsn).foldl max 0 := by
    rw [maxLsn, List.foldl_map]
  have hrange : ∀ n, (List.range' (0 + 1) n).foldl max 0 = n := by
    intro n
    induction n with
    | zero => rfl
    | succ n ih =>
        rw [List.range'_concat, List.foldl_append, ih]
        simp
        omega
  rw [hmap, map_lsn_stamped _ (by omega), hrange]

theorem take_logOf (n : Nat) (kvs : List (Bytes × Bytes)) :
    (logOf kvs).take n = walFraming.encodeAll (containedIn n kvs) ++ tornBytes n kvs := by
  rw [logOf_eq]
  exact Framing.take_encodeAll n (stamped 0 kvs)

/-- When the contained records fit, the replay at the restart reads them and nothing else. -/
theorem restarted_spec {n : Nat} {kvs : List (Bytes × Bytes)} (hlen : kvs.length < 2 ^ 64)
    (hfits : ∀ r ∈ containedIn n kvs, FitsHeader r) :
    (restarted n kvs).currentLsn = (containedIn n kvs).length := by
  have hread : readable ((logOf kvs).take n) = containedIn n kvs := by
    rw [readable, take_logOf, Framing.readAll_unique (F := walFraming) hfits (decode_tornBytes n kvs)]
  obtain ⟨heq, hle⟩ := containedIn_eq n kvs
  have hfile : (new (some ((logOf kvs).take n))).file = some ((logOf kvs).take n) := rfl
  have hlsn : (restarted n kvs).currentLsn = maxLsn 0 (containedIn n kvs) := by
    rw [restarted, WalOp.run, replay_collect hfile, hread]
    rfl
  rw [hlsn]
  conv_lhs => rw [heq]
  rw [maxLsn_stamped (by rw [List.length_take]; omega), List.length_take, Nat.min_eq_left hle]

/-- What the later appends leave in the file. -/
theorem visitsAfterCut_eq (n : Nat) (kvs later : List (Bytes × Bytes)) :
    visitsAfterCut n kvs later =
      readable (walFraming.encodeAll (containedIn n kvs) ++ (tornBytes n kvs ++
        walFraming.encodeAll (stamped (restarted n kvs).currentLsn later))) := by
  have hfile : (new (some ((logOf kvs).take n))).file = some ((logOf kvs).take n) := rfl
  have hrun : (restarted n kvs).file = some ((logOf kvs).take n) ∧
      (restarted n kvs).logFile = .app := by
    rw [restarted, WalOp.run, replay_collect hfile]
    exact ⟨rfl, rfl⟩
  rw [visitsAfterCut, visits_eq, appendMany_spec later hrun.1 (Or.inl hrun.2), Option.getD_some,
    take_logOf, List.append_assoc]

/-- **When a torn tail is survived.** For every log, every cut and every list of later appends, the
replay visits exactly the contained records and then the later ones, under strictly increasing LSNs,
if and only if the torn tail is harmless. -/
theorem torn_tail_survived_iff (n : Nat) (kvs later : List (Bytes × Bytes))
    (hlen : kvs.length + later.length < 2 ^ 64) :
    (visitsAfterCut n kvs later =
          containedIn n kvs ++ stamped (restarted n kvs).currentLsn later ∧
        ((visitsAfterCut n kvs later).map WalRecord.lsn).Pairwise (· < ·)) ↔
      TornTailHarmless n kvs later := by
  have hstop : ∀ bytes : Bytes, walFraming.decode bytes = none ↔
      ¬ ∃ r rest, FitsHeader r ∧ bytes = frameBytes r.lsn r.key r.value ++ rest := by
    intro bytes
    constructor
    · rintro hnone ⟨r, rest, hfits, heq⟩
      have hsome := walFraming.decode_encode rest hfits
      rw [show walFraming.encode r = frameBytes r.lsn r.key r.value from rfl, ← heq, hnone] at hsome
      exact absurd hsome (by simp)
    · intro hnot
      cases hd : walFraming.decode bytes with
      | none => rfl
      | some out =>
          obtain ⟨hfits, heq⟩ := walFraming.decode_sound
            (show walFraming.decode bytes = some (out.1, out.2) from hd)
          exact absurd ⟨out.1, out.2, hfits, heq⟩ hnot
  rw [visitsAfterCut_eq]
  constructor
  · rintro ⟨hvisits, -⟩
    have hvalid := (walFraming.readAll_sound (walFraming.encodeAll (containedIn n kvs) ++
      (tornBytes n kvs ++
        walFraming.encodeAll (stamped (restarted n kvs).currentLsn later)))).1
    rw [readable] at hvisits
    rw [hvisits] at hvalid
    have hfits : ∀ r ∈ containedIn n kvs, FitsHeader r :=
      fun r hr => hvalid r (List.mem_append_left _ hr)
    rw [restarted_spec (by omega) hfits] at hvisits hvalid
    refine ⟨hfits, ?_, ?_⟩
    · intro kv hkv
      obtain ⟨r, hr, hkey, hval⟩ : ∃ r ∈ stamped (containedIn n kvs).length later,
          r.key = kv.1 ∧ r.value = kv.2 := by
        rw [← map_stamped (containedIn n kvs).length later, List.mem_map] at hkv
        obtain ⟨r, hr, rfl⟩ := hkv
        exact ⟨r, hr, rfl, rfl⟩
      obtain ⟨-, hk, hv⟩ := hvalid r (List.mem_append_right _ hr)
      rw [hkey] at hk
      rw [hval] at hv
      omega
    · rw [Framing.readAll_encodeAll_append (F := walFraming) hfits] at hvisits
      have hlater := List.append_cancel_left hvisits
      obtain ⟨-, hbytes, hrest⟩ := walFraming.readAll_sound (tornBytes n kvs ++
        walFraming.encodeAll (stamped (containedIn n kvs).length later))
      rw [hlater] at hbytes
      exact ⟨_, hbytes, (hstop _).mp hrest⟩
  · rintro ⟨hfits, hlater, rest, hbytes, hrest⟩
    have hvalid : ∀ r ∈ stamped (containedIn n kvs).length later, FitsHeader r :=
      stamped_fits hlater
    obtain ⟨heq, hle⟩ := containedIn_eq n kvs
    have hread : readable (walFraming.encodeAll (containedIn n kvs) ++ (tornBytes n kvs ++
        walFraming.encodeAll (stamped (containedIn n kvs).length later))) =
        containedIn n kvs ++ stamped (containedIn n kvs).length later := by
      rw [readable, Framing.readAll_encodeAll_append (F := walFraming) hfits, hbytes,
        Framing.readAll_unique (F := walFraming) hvalid ((hstop rest).mpr hrest)]
    rw [restarted_spec (by omega) hfits, hread]
    refine ⟨rfl, ?_⟩
    have hfirst : (containedIn n kvs).map WalRecord.lsn =
        List.range' 1 (containedIn n kvs).length := by
      conv_lhs => rw [heq]
      rw [map_lsn_stamped _ (by rw [List.length_take]; omega), List.length_take,
        Nat.min_eq_left hle]
    rw [List.map_append, hfirst, map_lsn_stamped _ (by omega), Nat.add_comm _ 1,
      List.range'_append_1]
    exact List.pairwise_lt_range'

/-- **A record lost behind a torn tail.** The frame of the first record loses its last byte; the
record appended after the restart is never read. -/
theorem torn_tail_hides :
    ¬ (visitsAfterCut 17 [([1], [2])] [([3], [4])] =
          containedIn 17 [([1], [2])] ++ stamped (restarted 17 [([1], [2])]).currentLsn [([3], [4])] ∧
        ((visitsAfterCut 17 [([1], [2])] [([3], [4])]).map WalRecord.lsn).Pairwise (· < ·)) := by
  decide +kernel

/-- A cut on a frame boundary. -/
theorem torn_tail_survived_boundary :
    (visitsAfterCut 18 [([1], [2])] [([3], [4])] =
          containedIn 18 [([1], [2])] ++ stamped (restarted 18 [([1], [2])]).currentLsn [([3], [4])] ∧
        ((visitsAfterCut 18 [([1], [2])] [([3], [4])]).map WalRecord.lsn).Pairwise (· < ·)) ↔
      TornTailHarmless 18 [([1], [2])] [([3], [4])] :=
  torn_tail_survived_iff 18 [([1], [2])] [([3], [4])] (by decide)

end WalManager

end Aqa
