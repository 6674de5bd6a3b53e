/-
# Aqa.Wal.WalManager — the write-ahead log.

A frame is checksum (4 bytes), LSN (8), key length (2), value length (2), key, value, in the byte
order of the machine (little-endian). The lengths are narrowed to 16 bits and that many bytes of key
and value are written, while the checksum covers both vectors in full.

`replay` closes the append stream, reads the file through an `ifstream` and hands each frame to a
visitor. The loop is driven by the stream's flags: a short header sets `eof`, a short body sets
`fail`, and either ends the loop, as does a checksum that does not match. A visitor that throws
leaves the append stream closed.
-/
import Aqa.Storage.Page

namespace Aqa

open Aqa.Lib

/-- `WalRecord`. -/
structure WalRecord where
  lsn : Nat
  key : Bytes
  value : Bytes
  deriving DecidableEq, Repr

/-- State of the output stream on the log: closed, opened with `app`, or opened with `trunc` and
standing at a position. -/
inductive LogStream where
  | closed
  | app
  | out (pos : Nat)
  deriving DecidableEq, Repr

/-- `WalManager`, with the contents of the log file (`none` when there is no such file). -/
structure WalManager where
  file : Option Bytes
  logFile : LogStream
  currentLsn : Nat
  deriving DecidableEq, Repr

/-! ## Input streams -/

/-- The part of `std::ifstream` the loop uses: the unread bytes and two flags. -/
structure IStream where
  rest : Bytes
  eofbit : Bool
  failbit : Bool
  deriving DecidableEq, Repr

namespace IStream

/-- A freshly opened stream. -/
def ofBytes (bs : Bytes) : IStream := ⟨bs, false, false⟩

/-- `peek() != EOF`. -/
def hasNext (r : IStream) : Bool := !r.eofbit && !r.failbit && !r.rest.isEmpty

/-- `read(buf, n)`: the bytes stored and the stream after. -/
def read (r : IStream) (n : Nat) : Bytes × IStream :=
  if r.eofbit || r.failbit then ([], { r with failbit := true })
  else if n ≤ r.rest.length then (r.rest.take n, { r with rest := r.rest.drop n })
  else (r.rest, ⟨[], true, true⟩)

end IStream

namespace WalManager

/-! ## Frames -/

/-- One step of the lambda `mix`. -/
def mix (checksum v : Nat) : Nat := u32 (u32 (checksum ^^^ (v &&& 0xFFFFFFFF)) ^^^ (v >>> 32))

/-- `for (uint8_t b : bs) checksum += b`. -/
def addBytes (checksum : Nat) (bs : Bytes) : Nat :=
  bs.foldl (fun checksum b => u32 (checksum + b.toNat)) checksum

/-- `WalManager::calculate_checksum`. -/
def calculateChecksum (lsn : Nat) (key value : Bytes) : Nat :=
  addBytes (addBytes (mix 0 lsn) key) value

/-- The bytes of a frame with a given checksum. -/
def frameWith (checksum lsn : Nat) (key value : Bytes) : Bytes :=
  leBytes 4 checksum ++ (leBytes 8 lsn ++ (leBytes 2 key.length ++ (leBytes 2 value.length ++
    (key ++ value))))

/-- The bytes `append` writes: `k_len` bytes of the key and `v_len` bytes of the value under the
checksum of both in full. -/
def frameBytes (lsn : Nat) (key value : Bytes) : Bytes :=
  frameWith (calculateChecksum lsn key value) lsn (key.take (u16 key.length))
    (value.take (u16 value.length))

/-! ## Writing -/

/-- `WalManager::WalManager`. -/
def new (file : Option Bytes) : WalManager := ⟨some (file.getD []), .app, 0⟩

/-- `log_file_.write` and `log_file_.flush`; a closed stream swallows the bytes. -/
def write (m : WalManager) (bs : Bytes) : WalManager :=
  match m.logFile with
  | .closed => m
  | .app => { m with file := some (m.file.getD [] ++ bs) }
  | .out pos =>
      let old := m.file.getD []
      { m with
        file := some (old.take pos ++ bs ++ old.drop (pos + bs.length))
        logFile := .out (pos + bs.length) }

/-- `WalManager::append`: the LSN returned and the manager after. -/
def append (m : WalManager) (key value : Bytes) : Nat × WalManager :=
  let lsn := u64 (m.currentLsn + 1)
  (lsn, { m with currentLsn := lsn }.write (frameBytes lsn key value))

/-- `WalManager::truncate`. -/
def truncate (_ : WalManager) : WalManager := ⟨some [], .out 0, 0⟩

/-! ## Reading -/

/-- The body of the loop of `replay` up to the call of the visitor: the record and the stream behind
it, or `none` where the loop breaks. -/
def readFrame (r : IStream) : Option (WalRecord × IStream) :=
  let (checksumBytes, r) := r.read 4
  let (lsnBytes, r) := r.read 8
  let (kLenBytes, r) := r.read 2
  let (vLenBytes, r) := r.read 2
  if r.eofbit then none
  else
    let kLen := leNat kLenBytes
    let vLen := leNat vLenBytes
    let (key, r) := if kLen > 0 then r.read kLen else ([], r)
    let (value, r) := if vLen > 0 then r.read vLen else ([], r)
    if r.failbit then none
    else if calculateChecksum (leNat lsnBytes) key value ≠ leNat checksumBytes then none
    else some (⟨leNat lsnBytes, key, value⟩, r)

/-- The loop of `replay`, on the LSN counter and the visitor's state; the result is the count. The
fuel is the number of unread bytes, of which every frame takes at least sixteen. -/
def replayLoop {ε σ : Type} (visitor : WalRecord → EStateM ε σ Unit) :
    Nat → IStream → Nat → EStateM ε (Nat × σ) Nat
  | 0, _, count => fun s => .ok count s
  | fuel + 1, r, count => fun (lsn, s) =>
      if r.hasNext then
        match readFrame r with
        | none => .ok count (lsn, s)
        | some (rec, r) =>
            match visitor rec s with
            | .error err s => .error err (lsn, s)
            | .ok () s =>
                replayLoop visitor fuel r (count + 1) (if rec.lsn > lsn then rec.lsn else lsn, s)
      else .ok count (lsn, s)

/-- `WalManager::replay`. -/
def replay {ε σ : Type} (visitor : WalRecord → EStateM ε σ Unit) : EStateM ε (WalManager × σ) Nat :=
  fun (m, s) =>
    match m.file with
    | none => .ok 0 ({ m with file := some [], logFile := .app }, s)
    | some bytes =>
        match replayLoop visitor bytes.length (IStream.ofBytes bytes) 0 (m.currentLsn, s) with
        | .error err (lsn, s) => .error err ({ m with logFile := .closed, currentLsn := lsn }, s)
        | .ok count (lsn, s) => .ok count ({ m with logFile := .app, currentLsn := lsn }, s)

end WalManager

end Aqa
