/-
# Aqa.Wal.Frames — the log format is a framing.

`parseFrame` reads a frame off the front of a byte string without a stream: sixteen bytes of header,
then as many bytes of key and value as the header says, then the checksum. `readFrame_eq` shows that
the loop body of `replay` does the same through the flags of an `ifstream`, and `walFraming` that
`parseFrame` and `frameBytes` are inverse to each other on records whose fields fit the header. The
laws of logs of frames then come from `Framing`.
-/
import Aqa.Lib.Framing
import Aqa.Wal.WalManager

namespace Aqa

open Aqa.Lib

/-! ## The stream -/

namespace IStream

theorem read_of_le {bs : Bytes} {n : Nat} (h : n ≤ bs.length) :
    (ofBytes bs).read n = (bs.take n, ofBytes (bs.drop n)) := by
  rw [ofBytes, read, if_neg (by simp), if_pos h]
  rfl

theorem read_of_lt {bs : Bytes} {n : Nat} (h : bs.length < n) :
    (ofBytes bs).read n = (bs, ⟨[], true, true⟩) := by
  rw [ofBytes, read, if_neg (by simp), if_neg (Nat.not_le.mpr h)]

theorem read_failed (rest : Bytes) (eofbit : Bool) (n : Nat) :
    read ⟨rest, eofbit, true⟩ n = ([], ⟨rest, eofbit, true⟩) := by
  simp only [read, Bool.or_true, if_true]

@[simp]
theorem hasNext_ofBytes (bs : Bytes) : (ofBytes bs).hasNext = !bs.isEmpty := rfl

end IStream

namespace WalManager

/-! ## Parsing a frame -/

/-- The frame at the front of a byte string, with key and value of the given lengths. The fixed part
of a frame has sixteen bytes. -/
def parseBody (bs : Bytes) (kLen vLen : Nat) : Option (WalRecord × Bytes) :=
  if bs.length < 16 + kLen + vLen then none
  else if calculateChecksum (leNat (slice bs 4 8)) (slice bs 16 kLen) (slice bs (16 + kLen) vLen) =
      leNat (slice bs 0 4) then
    some (⟨leNat (slice bs 4 8), slice bs 16 kLen, slice bs (16 + kLen) vLen⟩,
      bs.drop (16 + kLen + vLen))
  else none

/-- The frame at the front of a byte string, and what is behind it. -/
def parseFrame (bs : Bytes) : Option (WalRecord × Bytes) :=
  parseBody bs (leNat (slice bs 12 2)) (leNat (slice bs 14 2))

/-- The body of a frame, of whatever length it has, is read as the source reads it. -/
theorem read_guarded (bs : Bytes) (n : Nat) :
    (if n > 0 then (IStream.ofBytes bs).read n else ([], IStream.ofBytes bs)) =
      if n ≤ bs.length then (bs.take n, IStream.ofBytes (bs.drop n))
      else (bs, ⟨[], true, true⟩) := by
  by_cases hn : n > 0
  · rw [if_pos hn]
    by_cases hle : n ≤ bs.length
    · rw [if_pos hle, IStream.read_of_le hle]
    · rw [if_neg hle, IStream.read_of_lt (by omega)]
  · have hzero : n = 0 := by omega
    subst hzero
    simp

/-- A header that is cut short ends the loop. -/
theorem readFrame_short {bs : Bytes} (h : bs.length < 16) :
    readFrame (IStream.ofBytes bs) = none := by
  by_cases h4 : bs.length < 4
  · simp only [readFrame, IStream.read_of_lt h4, IStream.read_failed, if_true]
  · by_cases h8 : (bs.drop 4).length < 8
    · simp only [readFrame, IStream.read_of_le (Nat.not_lt.mp h4), IStream.read_of_lt h8,
        IStream.read_failed, if_true]
    · by_cases h2 : ((bs.drop 4).drop 8).length < 2
      · simp only [readFrame, IStream.read_of_le (Nat.not_lt.mp h4),
          IStream.read_of_le (Nat.not_lt.mp h8), IStream.read_of_lt h2, IStream.read_failed,
          if_true]
      · have h2' : (((bs.drop 4).drop 8).drop 2).length < 2 := by
          simp only [List.length_drop] at *
          omega
        simp only [readFrame, IStream.read_of_le (Nat.not_lt.mp h4),
          IStream.read_of_le (Nat.not_lt.mp h8), IStream.read_of_le (Nat.not_lt.mp h2),
          IStream.read_of_lt h2', if_true]

/-- **The loop body of `replay` parses one frame.** -/
theorem readFrame_eq (bs : Bytes) :
    readFrame (IStream.ofBytes bs) =
      (parseFrame bs).map fun out => (out.1, IStream.ofBytes out.2) := by
  by_cases hlen : bs.length < 16
  · rw [readFrame_short hlen, parseFrame, parseBody, if_pos (by omega), Option.map_none]
  · have h4 : 4 ≤ bs.length := by omega
    have h8 : 8 ≤ (bs.drop 4).length := by rw [List.length_drop]; omega
    have h2 : 2 ≤ ((bs.drop 4).drop 8).length := by simp only [List.length_drop]; omega
    have h2' : 2 ≤ (((bs.drop 4).drop 8).drop 2).length := by
      simp only [List.length_drop]
      omega
    have hk : (((bs.drop 4).drop 8).take 2) = slice bs 12 2 := by simp [slice]
    have hv : ((((bs.drop 4).drop 8).drop 2).take 2) = slice bs 14 2 := by simp [slice]
    have hbody : (((bs.drop 4).drop 8).drop 2).drop 2 = bs.drop 16 := by simp
    have hlsn : (bs.drop 4).take 8 = slice bs 4 8 := rfl
    have hsum : bs.take 4 = slice bs 0 4 := rfl
    simp only [readFrame, IStream.read_of_le h4, IStream.read_of_le h8, IStream.read_of_le h2,
      IStream.read_of_le h2', hk, hv, hbody, hlsn, hsum, read_guarded]
    rw [parseFrame]
    generalize leNat (slice bs 12 2) = k
    generalize leNat (slice bs 14 2) = v
    have heof : ∀ l : Bytes, (IStream.ofBytes l).eofbit = false := fun _ => rfl
    have hfail : ∀ l : Bytes, (IStream.ofBytes l).failbit = false := fun _ => rfl
    rw [parseBody, if_neg (by rw [heof]; simp)]
    by_cases hkey : k ≤ (bs.drop 16).length
    · rw [if_pos hkey]
      simp only [read_guarded]
      by_cases hval : v ≤ ((bs.drop 16).drop k).length
      · have hfits : ¬ bs.length < 16 + k + v := by
          simp only [List.length_drop] at hkey hval
          omega
        have hkeyBytes : (bs.drop 16).take k = slice bs 16 k := rfl
        have hvalBytes : ((bs.drop 16).drop k).take v = slice bs (16 + k) v := by
          rw [slice, List.drop_drop]
        have hrest : ((bs.drop 16).drop k).drop v = bs.drop (16 + k + v) := by
          rw [List.drop_drop, List.drop_drop, Nat.add_assoc]
        rw [if_pos hval, if_neg hfits, hkeyBytes, hvalBytes, hrest, if_neg (by rw [hfail]; simp)]
        by_cases hcs : calculateChecksum (leNat (slice bs 4 8)) (slice bs 16 k)
            (slice bs (16 + k) v) = leNat (slice bs 0 4)
        · rw [if_pos hcs, if_neg (not_not_intro hcs), Option.map_some]
        · rw [if_neg hcs, if_pos hcs, Option.map_none]
      · have hshort : bs.length < 16 + k + v := by
          simp only [List.length_drop] at hval
          omega
        rw [if_neg hval, if_pos hshort]
        rfl
    · have hshort : bs.length < 16 + k + v := by
        simp only [List.length_drop] at hkey
        omega
      rw [if_neg hkey, if_pos hshort]
      simp only [IStream.read_failed, ite_self, if_true, Option.map_none]

/-! ## The checksum -/

/-- Sum of the bytes of a sequence. -/
def byteSum (bs : Bytes) : Nat := (bs.map UInt8.toNat).sum

@[simp]
theorem byteSum_append (xs ys : Bytes) : byteSum (xs ++ ys) = byteSum xs + byteSum ys := by
  simp [byteSum]

theorem addBytes_eq (checksum : Nat) (bs : Bytes) (h : checksum < 2 ^ 32) :
    addBytes checksum bs = u32 (checksum + byteSum bs) := by
  induction bs generalizing checksum with
  | nil => simp [addBytes, byteSum, u32_of_lt h]
  | cons b bs ih =>
      have hstep : addBytes checksum (b :: bs) = addBytes (u32 (checksum + b.toNat)) bs := rfl
      have hsum : byteSum (b :: bs) = b.toNat + byteSum bs := by simp [byteSum]
      rw [hstep, ih _ (u32_lt _), hsum, u32, u32, u32, Nat.mod_add_mod, Nat.add_assoc]

/-- The checksum is the mixed LSN plus the bytes of key and value, modulo 2^32. -/
theorem calculateChecksum_eq (lsn : Nat) (key value : Bytes) :
    calculateChecksum lsn key value = u32 (mix 0 lsn + (byteSum key + byteSum value)) := by
  have hmix : mix 0 lsn < 2 ^ 32 := u32_lt _
  rw [calculateChecksum, addBytes_eq _ _ hmix, addBytes_eq _ _ (u32_lt _), u32, u32,
    Nat.mod_add_mod, Nat.add_assoc, u32]

theorem calculateChecksum_lt (lsn : Nat) (key value : Bytes) :
    calculateChecksum lsn key value < 2 ^ 32 := by
  rw [calculateChecksum_eq]
  exact u32_lt _

/-! ## The framing -/

/-- The fields of a record fit the header of a frame. -/
def FitsHeader (r : WalRecord) : Prop :=
  r.lsn < 2 ^ 64 ∧ r.key.length < 2 ^ 16 ∧ r.value.length < 2 ^ 16

theorem length_frameWith (checksum lsn : Nat) (key value : Bytes) :
    (frameWith checksum lsn key value).length = 16 + key.length + value.length := by
  simp only [frameWith, List.length_append, length_leBytes]
  omega

/-- The fields of a frame, read back by position whatever follows it. -/
theorem slices_frameWith (checksum lsn : Nat) (key value rest : Bytes) :
    slice (frameWith checksum lsn key value ++ rest) 0 4 = leBytes 4 checksum ∧
      slice (frameWith checksum lsn key value ++ rest) 4 8 = leBytes 8 lsn ∧
      slice (frameWith checksum lsn key value ++ rest) 12 2 = leBytes 2 key.length ∧
      slice (frameWith checksum lsn key value ++ rest) 14 2 = leBytes 2 value.length ∧
      slice (frameWith checksum lsn key value ++ rest) 16 key.length = key ∧
      slice (frameWith checksum lsn key value ++ rest) (16 + key.length) value.length = value := by
  have hall : slice (frameWith checksum lsn key value ++ rest) 0
      (4 + (8 + (2 + (2 + (key.length + value.length))))) =
      leBytes 4 checksum ++ (leBytes 8 lsn ++ (leBytes 2 key.length ++
        (leBytes 2 value.length ++ (key ++ value)))) := by
    have hlen : 4 + (8 + (2 + (2 + (key.length + value.length)))) =
        (frameWith checksum lsn key value).length := by
      rw [length_frameWith]
      omega
    rw [slice_append_left (by omega), hlen, slice_zero_length]
    rfl
  obtain ⟨hsum, hall⟩ := slice_split hall (length_leBytes 4 _)
  obtain ⟨hlsn, hall⟩ := slice_split hall (length_leBytes 8 _)
  obtain ⟨hk, hall⟩ := slice_split hall (length_leBytes 2 _)
  obtain ⟨hv, hall⟩ := slice_split hall (length_leBytes 2 _)
  obtain ⟨hkey, hvalue⟩ := slice_split hall rfl
  exact ⟨hsum, hlsn, hk, hv, hkey, hvalue⟩

/-- A frame parses when its checksum is that of its fields. -/
theorem parseFrame_frameWith {checksum lsn : Nat} {key value : Bytes} (rest : Bytes)
    (hsum : checksum < 2 ^ 32) (hlsn : lsn < 2 ^ 64) (hk : key.length < 2 ^ 16)
    (hv : value.length < 2 ^ 16) :
    parseFrame (frameWith checksum lsn key value ++ rest) =
      if calculateChecksum lsn key value = checksum then some (⟨lsn, key, value⟩, rest)
      else none := by
  obtain ⟨h0, h4, h12, h14, h16, hval⟩ := slices_frameWith checksum lsn key value rest
  have hlen := length_frameWith checksum lsn key value
  have hdrop : (frameWith checksum lsn key value ++ rest).drop
      (16 + key.length + value.length) = rest := by
    rw [← hlen, List.drop_left]
  rw [parseFrame, h12, h14, leNat_leBytes_of_lt (by simpa using hk),
    leNat_leBytes_of_lt (by simpa using hv), parseBody, h0, h4, h16, hval, hdrop,
    leNat_leBytes_of_lt (by simpa using hlsn), leNat_leBytes_of_lt (by simpa using hsum),
    if_neg (by rw [List.length_append, hlen]; omega)]

/-- The bytes written for a record that fits the header. -/
theorem frameBytes_of_fits {r : WalRecord} (h : FitsHeader r) :
    frameBytes r.lsn r.key r.value =
      frameWith (calculateChecksum r.lsn r.key r.value) r.lsn r.key r.value := by
  rw [frameBytes, u16_of_lt h.2.1, u16_of_lt h.2.2, List.take_length, List.take_length]

/-- Whatever parses is a frame with a matching checksum, followed by the rest. -/
theorem parseFrame_sound {bs rest : Bytes} {r : WalRecord} (h : parseFrame bs = some (r, rest)) :
    FitsHeader r ∧ bs = frameBytes r.lsn r.key r.value ++ rest := by
  rw [parseFrame, parseBody] at h
  split at h
  · exact absurd h (by simp)
  · rename_i hlen
    split at h
    · rename_i hsum
      simp only [Option.some.injEq, Prod.mk.injEq] at h
      obtain ⟨rfl, rfl⟩ := h
      have hk : leNat (slice bs 12 2) < 2 ^ 16 := by
        have := leNat_lt (slice bs 12 2)
        rwa [length_slice (by omega)] at this
      have hv : leNat (slice bs 14 2) < 2 ^ 16 := by
        have := leNat_lt (slice bs 14 2)
        rwa [length_slice (by omega)] at this
      have hl : leNat (slice bs 4 8) < 2 ^ 64 := by
        have := leNat_lt (slice bs 4 8)
        rwa [length_slice (by omega)] at this
      have hkey : (slice bs 16 (leNat (slice bs 12 2))).length = leNat (slice bs 12 2) :=
        length_slice (by omega)
      have hval : (slice bs (16 + leNat (slice bs 12 2)) (leNat (slice bs 14 2))).length =
          leNat (slice bs 14 2) := length_slice (by omega)
      have hfits : FitsHeader ⟨leNat (slice bs 4 8), slice bs 16 (leNat (slice bs 12 2)),
          slice bs (16 + leNat (slice bs 12 2)) (leNat (slice bs 14 2))⟩ :=
        ⟨hl, by rw [hkey]; exact hk, by rw [hval]; exact hv⟩
      refine ⟨hfits, ?_⟩
      have hbytes := frameBytes_of_fits hfits
      simp only at hbytes
      rw [hbytes, hsum, frameWith, hkey, hval,
        leBytes_leNat_of_length (length_slice (by omega)),
        leBytes_leNat_of_length (length_slice (by omega)),
        leBytes_leNat_of_length (length_slice (by omega)),
        leBytes_leNat_of_length (length_slice (by omega))]
      simp only [slice, List.append_assoc]
      have hpiece : ∀ off n : Nat, (bs.drop off).take n ++ bs.drop (off + n) = bs.drop off := by
        intro off n
        rw [← List.drop_drop, List.take_append_drop]
      rw [hpiece, hpiece, hpiece 14, hpiece 12, hpiece 4, hpiece 0, List.drop_zero]
    · exact absurd h (by simp)

/-- **The log format as a framing.** -/
def walFraming : Framing WalRecord UInt8 where
  Valid := FitsHeader
  encode r := frameBytes r.lsn r.key r.value
  decode := parseFrame
  encode_ne_nil := by
    intro r h hnil
    rw [frameBytes_of_fits h] at hnil
    have hlen := congrArg List.length hnil
    rw [length_frameWith, List.length_nil] at hlen
    omega
  decode_encode := by
    intro r rest h
    rw [frameBytes_of_fits h, parseFrame_frameWith rest (calculateChecksum_lt _ _ _) h.1 h.2.1 h.2.2,
      if_pos rfl]
  decode_sound := parseFrame_sound

end WalManager

end Aqa
