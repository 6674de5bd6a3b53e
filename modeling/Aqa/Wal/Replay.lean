/-
# Aqa.Wal.Replay — what `replay` delivers.

The loop of `replay` hands the frames of the file to its visitor, in order, until one does not parse
(`replay_eq`). With a visitor that only collects, the result is the reading of the file as a framing:
`replay_canonical` says what that means for an arbitrary byte string, `wal_round_trip` for a file
that was written by any run of appends, replays, truncations and reopenings and then cut.
-/
import Aqa.Wal.Frames

namespace Aqa

open Aqa.Lib

namespace WalManager

/-- The records at the front of a log file. -/
def readable (bytes : Bytes) : List WalRecord := (walFraming.readAll bytes).1

/-- Hand records to a visitor one after the other, keeping the LSN counter and the count. -/
def deliver {ε σ : Type} (visitor : WalRecord → EStateM ε σ Unit) :
    List WalRecord → Nat → EStateM ε (Nat × σ) Nat
  | [], count => fun s => .ok count s
  | rec :: recs, count => fun (lsn, s) =>
      match visitor rec s with
      | .error err s => .error err (lsn, s)
      | .ok () s => deliver visitor recs (count + 1) (if rec.lsn > lsn then rec.lsn else lsn, s)

/-- **The loop of `replay` delivers the readable records.** Any fuel from the length of the file on
does: the loop ends by itself. -/
theorem replayLoop_eq {ε σ : Type} (visitor : WalRecord → EStateM ε σ Unit) (fuel : Nat) :
    ∀ (bytes : Bytes) (count : Nat) (s : Nat × σ), bytes.length ≤ fuel →
      replayLoop visitor fuel (IStream.ofBytes bytes) count s =
        deliver visitor (readable bytes) count s := by
  induction fuel with
  | zero =>
      intro bytes count s hlen
      have hnil : bytes = [] := List.length_eq_zero_iff.mp (by omega)
      subst hnil
      rfl
  | succ fuel ih =>
      intro bytes count s hlen
      obtain ⟨lsn, s⟩ := s
      have hdecode : walFraming.decode bytes = parseFrame bytes := rfl
      simp only [replayLoop, IStream.hasNext_ofBytes, readFrame_eq]
      cases bytes with
      | nil => rfl
      | cons b bs =>
          simp only [List.isEmpty_cons, Bool.not_false, if_true]
          cases hparse : parseFrame (b :: bs) with
          | none =>
              rw [hparse] at hdecode
              rw [readable, Framing.readAll_of_decode_none hdecode]
              rfl
          | some out =>
              obtain ⟨r, rest⟩ := out
              rw [hparse] at hdecode
              have hrest := Framing.decode_rest_lt hdecode
              rw [readable, Framing.readAll_of_decode_some hdecode]
              simp only [Option.map_some, deliver]
              cases visitor r s with
              | error err s => rfl
              | ok a s => exact ih rest (count + 1) _ (by omega)

/-- `replay` on an existing file. -/
theorem replay_eq {ε σ : Type} (visitor : WalRecord → EStateM ε σ Unit) {m : WalManager}
    {bytes : Bytes} (hfile : m.file = some bytes) (s : σ) :
    replay visitor (m, s) =
      match deliver visitor (readable bytes) 0 (m.currentLsn, s) with
      | .error err (lsn, s) => .error err ({ m with logFile := .closed, currentLsn := lsn }, s)
      | .ok count (lsn, s) => .ok count ({ m with logFile := .app, currentLsn := lsn }, s) := by
  cases hdeliver : deliver visitor (readable bytes) 0 (m.currentLsn, s) <;>
    simp only [replay, hfile, replayLoop_eq visitor bytes.length bytes 0 _ le_rfl, hdeliver]

/-! ## Collecting -/

/-- The visitor that collects what it is shown. -/
def collect (rec : WalRecord) : EStateM Error (List WalRecord) Unit := fun s => .ok () (s ++ [rec])

/-- The greatest of an LSN and the LSNs of some records. -/
def maxLsn (lsn : Nat) (recs : List WalRecord) : Nat := recs.foldl (fun l r => max l r.lsn) lsn

theorem deliver_collect (recs : List WalRecord) (count lsn : Nat) (acc : List WalRecord) :
    deliver collect recs count (lsn, acc) =
      .ok (count + recs.length) (maxLsn lsn recs, acc ++ recs) := by
  induction recs generalizing count lsn acc with
  | nil => simp [deliver, maxLsn]
  | cons r recs ih =>
      have hmax : (if r.lsn > lsn then r.lsn else lsn) = max lsn r.lsn := by
        rw [Nat.max_def]
        split <;> split <;> omega
      simp only [deliver, collect, hmax]
      rw [ih, List.length_cons, List.append_assoc, List.singleton_append, Nat.add_assoc,
        Nat.add_comm 1]
      rfl

theorem replay_collect {m : WalManager} {bytes : Bytes} (hfile : m.file = some bytes)
    (acc : List WalRecord) :
    replay collect (m, acc) =
      .ok (readable bytes).length
        ({ m with logFile := .app, currentLsn := maxLsn m.currentLsn (readable bytes) },
          acc ++ readable bytes) := by
  rw [replay_eq collect hfile, deliver_collect, Nat.zero_add]

/-! ## Replay of an arbitrary file -/

/-- **`replay` is total and its input canonical.** On any byte string the loop ends, with every
fuel that covers the file; the frames `append` would write for the delivered records are a prefix of
the file, the count returned is their number, what follows does not begin with a complete frame whose
checksum matches, and the LSN counter ends at the maximum of its old value and the delivered LSNs. -/
theorem replay_canonical (bytes : Bytes) (stream : LogStream) (lsn : Nat) :
    ∃ (recs : List WalRecord) (tail : Bytes),
      (∀ fuel ≥ bytes.length,
        replayLoop collect fuel (IStream.ofBytes bytes) 0 (lsn, []) =
          .ok recs.length (maxLsn lsn recs, recs)) ∧
      replay collect (⟨some bytes, stream, lsn⟩, []) =
        .ok recs.length (⟨some bytes, .app, maxLsn lsn recs⟩, recs) ∧
      bytes = (recs.map fun r => frameBytes r.lsn r.key r.value).flatten ++ tail ∧
      ¬ ∃ (r : WalRecord) (rest : Bytes), FitsHeader r ∧
        tail = frameWith (calculateChecksum r.lsn r.key r.value) r.lsn r.key r.value ++ rest := by
  obtain ⟨hvalid, hbytes, hstop⟩ := walFraming.readAll_sound bytes
  refine ⟨readable bytes, (walFraming.readAll bytes).2, ?_, ?_, hbytes, ?_⟩
  · intro fuel hfuel
    rw [replayLoop_eq collect fuel bytes 0 _ hfuel, deliver_collect, Nat.zero_add, List.nil_append]
  · rw [replay_collect rfl, List.nil_append]
  · rintro ⟨r, rest, hfits, htail⟩
    rw [← frameBytes_of_fits hfits] at htail
    have hdecode := walFraming.decode_encode rest hfits
    rw [htail] at hstop
    rw [show walFraming.encode r = frameBytes r.lsn r.key r.value from rfl, hstop] at hdecode
    exact absurd hdecode (by simp)

/-! ## Runs of a manager -/

/-- An operation on the log. `reopen` ends the process and constructs a manager on the file. -/
inductive WalOp where
  | append (key value : Bytes)
  | replay
  | truncate
  | reopen
  deriving DecidableEq, Repr

/-- The effect of an operation. -/
def WalOp.run (m : WalManager) : WalOp → WalManager
  | .append key value => (m.append key value).2
  | .replay =>
      match WalManager.replay collect (m, []) with
      | .ok _ (m, _) => m
      | .error _ (m, _) => m
  | .truncate => m.truncate
  | .reopen => WalManager.new m.file

/-- A run that starts with no log file. -/
def runOps (ops : List WalOp) : WalManager := ops.foldl WalOp.run (WalManager.new none)

/-- What an operation does to the list of appends a replay has to deliver. -/
def liveStep (live : List (Bytes × Bytes)) : WalOp → List (Bytes × Bytes)
  | .append key value => live ++ [(key, value)]
  | .truncate => []
  | .replay => live
  | .reopen => live

/-- The appends since the last truncation. -/
def liveAppends (ops : List WalOp) : List (Bytes × Bytes) := ops.foldl liveStep []

/-- Lengths fit the header, and behind a reopening there is a replay before the next append.
`pending` says that one is owed. -/
def Disciplined : Bool → List WalOp → Prop
  | _, [] => True
  | pending, .append key value :: ops =>
      pending = false ∧ key.length ≤ 65535 ∧ value.length ≤ 65535 ∧ Disciplined false ops
  | _, .replay :: ops => Disciplined false ops
  | pending, .truncate :: ops => Disciplined pending ops
  | _, .reopen :: ops => Disciplined true ops

/-- Appends under the LSNs 1, 2, 3, … -/
def numbered (live : List (Bytes × Bytes)) : List WalRecord :=
  live.mapIdx fun i kv => ⟨i + 1, kv.1, kv.2⟩

theorem numbered_concat (live : List (Bytes × Bytes)) (kv : Bytes × Bytes) :
    numbered (live ++ [kv]) = numbered live ++ [⟨live.length + 1, kv.1, kv.2⟩] := by
  simp [numbered, List.mapIdx_append]

@[simp]
theorem length_numbered (live : List (Bytes × Bytes)) : (numbered live).length = live.length := by
  simp [numbered]

/-- The highest LSN given out is the number of records. -/
theorem maxLsn_numbered (lsn : Nat) (live : List (Bytes × Bytes)) :
    maxLsn lsn (numbered live) = max lsn live.length := by
  induction live using List.reverseRecOn with
  | nil => simp [numbered, maxLsn]
  | append_singleton live kv ih =>
      have hlast : maxLsn lsn (numbered (live ++ [kv])) =
          max (maxLsn lsn (numbered live)) (live.length + 1) := by
        rw [numbered_concat, maxLsn, maxLsn, List.foldl_append]
        rfl
      rw [hlast, ih, List.length_append, List.length_singleton]
      omega

/-! ## The invariant of a run -/

/-- The stream writes at the end of the file. -/
def AtEnd (m : WalManager) (bytes : Bytes) : Prop :=
  m.logFile = .app ∨ m.logFile = .out bytes.length

/-- A stream at the end of the file appends. -/
theorem write_atEnd {m : WalManager} {bytes : Bytes} (hfile : m.file = some bytes)
    (hend : m.AtEnd bytes) (bs : Bytes) :
    (m.write bs).file = some (bytes ++ bs) ∧ (m.write bs).AtEnd (bytes ++ bs) ∧
      (m.write bs).currentLsn = m.currentLsn := by
  rcases hend with happ | hout
  · have hwrite : m.write bs = { m with file := some (bytes ++ bs) } := by
      simp only [write, happ, hfile, Option.getD_some]
    rw [hwrite]
    exact ⟨rfl, Or.inl happ, rfl⟩
  · have hwrite : m.write bs =
        { m with file := some (bytes ++ bs), logFile := .out (bytes.length + bs.length) } := by
      simp only [write, hout, hfile, Option.getD_some, List.take_length]
      rw [List.drop_eq_nil_of_le (by omega), List.append_nil]
    rw [hwrite]
    exact ⟨rfl, Or.inr (by rw [List.length_append]), rfl⟩

/-- The file lists the live appends, and the LSN counter is their number once no replay is owed. -/
structure LogHolds (m : WalManager) (live : List (Bytes × Bytes)) (pending : Bool) : Prop where
  file : m.file = some (walFraming.encodeAll (numbered live))
  fits : ∀ r ∈ numbered live, FitsHeader r
  atEnd : m.AtEnd (walFraming.encodeAll (numbered live))
  lsn_le : m.currentLsn ≤ live.length
  lsn_eq : pending = false → m.currentLsn = live.length

theorem logHolds_new : LogHolds (new none) [] false where
  file := rfl
  fits := by simp [numbered]
  atEnd := Or.inl rfl
  lsn_le := le_rfl
  lsn_eq _ := rfl

theorem LogHolds.append {m : WalManager} {live : List (Bytes × Bytes)}
    (h : LogHolds m live false) {key value : Bytes} (hk : key.length ≤ 65535)
    (hv : value.length ≤ 65535) (hlsn : live.length + 1 < 2 ^ 64) :
    LogHolds (m.append key value).2 (live ++ [(key, value)]) false := by
  have hnext : u64 (m.currentLsn + 1) = live.length + 1 := by
    rw [h.lsn_eq rfl, u64_of_lt hlsn]
  obtain ⟨hfile, hend, hcur⟩ := write_atEnd (m := { m with currentLsn := live.length + 1 })
    h.file h.atEnd (frameBytes (live.length + 1) key value)
  have hframes : walFraming.encodeAll (numbered (live ++ [(key, value)])) =
      walFraming.encodeAll (numbered live) ++ frameBytes (live.length + 1) key value := by
    rw [numbered_concat, Framing.encodeAll_append, Framing.encodeAll_cons, Framing.encodeAll_nil,
      List.append_nil]
    rfl
  simp only [WalManager.append, hnext]
  refine ⟨by rw [hfile, hframes], ?_, by rw [hframes]; exact hend, ?_, fun _ => ?_⟩
  · intro r hr
    rw [numbered_concat] at hr
    rcases List.mem_append.mp hr with hr | hr
    · exact h.fits r hr
    · rw [List.mem_singleton.mp hr]
      exact ⟨hlsn, by simp only; omega, by simp only; omega⟩
  · rw [hcur, List.length_append, List.length_singleton]
  · rw [hcur, List.length_append, List.length_singleton]

theorem LogHolds.readable {m : WalManager} {live : List (Bytes × Bytes)} {pending : Bool}
    (h : LogHolds m live pending) :
    WalManager.readable (walFraming.encodeAll (numbered live)) = numbered live := by
  rw [WalManager.readable, Framing.readAll_encodeAll h.fits]

/-- A replay brings the LSN counter up to date. -/
theorem LogHolds.replay {m : WalManager} {live : List (Bytes × Bytes)} {pending : Bool}
    (h : LogHolds m live pending) : LogHolds (WalOp.run m .replay) live false := by
  have hle := h.lsn_le
  have hlsn : maxLsn m.currentLsn (numbered live) = live.length := by
    rw [maxLsn_numbered]
    omega
  simp only [WalOp.run, replay_collect h.file, h.readable, hlsn]
  exact ⟨h.file, h.fits, Or.inl rfl, le_rfl, fun _ => rfl⟩

theorem LogHolds.truncate {m : WalManager} {live : List (Bytes × Bytes)} {pending : Bool}
    (_ : LogHolds m live pending) : LogHolds m.truncate [] pending where
  file := rfl
  fits := by simp [numbered]
  atEnd := Or.inr rfl
  lsn_le := le_rfl
  lsn_eq _ := rfl

theorem LogHolds.reopen {m : WalManager} {live : List (Bytes × Bytes)} {pending : Bool}
    (h : LogHolds m live pending) : LogHolds (WalManager.new m.file) live true where
  file := by rw [WalManager.new, h.file, Option.getD_some]
  fits := h.fits
  atEnd := Or.inl rfl
  lsn_le := Nat.zero_le _
  lsn_eq := by simp

/-- A disciplined run keeps the log in step with its live appends. -/
theorem logHolds_run (ops : List WalOp) :
    ∀ (m : WalManager) (live : List (Bytes × Bytes)) (pending : Bool),
      LogHolds m live pending → Disciplined pending ops → live.length + ops.length < 2 ^ 64 →
      ∃ pending', LogHolds (ops.foldl WalOp.run m) (ops.foldl liveStep live) pending' := by
  induction ops with
  | nil =>
      intro m live pending h _ _
      exact ⟨pending, h⟩
  | cons op ops ih =>
      intro m live pending h hd hlen
      rw [List.length_cons] at hlen
      rw [List.foldl_cons, List.foldl_cons]
      cases op with
      | append key value =>
          obtain ⟨rfl, hk, hv, hd⟩ := hd
          exact ih _ (live ++ [(key, value)]) _ (h.append hk hv (by omega)) hd
            (by rw [List.length_append, List.length_singleton]; omega)
      | replay => exact ih _ live _ h.replay hd (by omega)
      | truncate => exact ih _ [] _ h.truncate hd (by rw [List.length_nil]; omega)
      | reopen => exact ih _ live _ h.reopen hd (by omega)

/-- **Round trip and prefix recovery of the log.** After any disciplined run, with the file cut after
any number of bytes, a replay by any manager of that file visits exactly the appends since the last
truncation whose frames lie within the cut, in order, under the LSNs 1, 2, 3, …, and returns their
number. The LSN counter has 64 bits. -/
theorem wal_round_trip (ops : List WalOp) (hd : Disciplined false ops) (hlen : ops.length < 2 ^ 64)
    (n : Nat) (stream : LogStream) (lsn : Nat) :
    ∃ count ≤ (liveAppends ops).length,
      (∀ i < (liveAppends ops).length,
        i < count ↔ (((numbered (liveAppends ops)).take (i + 1)).map fun r =>
          frameBytes r.lsn r.key r.value).flatten.length ≤ n) ∧
      ∃ m, replay collect (⟨(runOps ops).file.map (List.take n), stream, lsn⟩, []) =
        .ok count (m, numbered ((liveAppends ops).take count)) := by
  obtain ⟨pending, h⟩ := logHolds_run ops _ _ _ logHolds_new hd
    (by rw [List.length_nil]; omega)
  have hfile : (runOps ops).file = some (walFraming.encodeAll (numbered (liveAppends ops))) :=
    h.file
  have hread := Framing.readAll_take (F := walFraming) h.fits n
  have hprefix := walFraming.prefix_wholeWithin n (numbered (liveAppends ops))
  have hcount : ∀ i, i < (walFraming.wholeWithin n (numbered (liveAppends ops))).length ↔
      i < (numbered (liveAppends ops)).length ∧
        (walFraming.encodeAll ((numbered (liveAppends ops)).take (i + 1))).length ≤ n :=
    fun i => Framing.lt_length_wholeWithin
  have htake : walFraming.wholeWithin n (numbered (liveAppends ops)) =
      numbered ((liveAppends ops).take
        (walFraming.wholeWithin n (numbered (liveAppends ops))).length) := by
    have hnum : ∀ k, (numbered (liveAppends ops)).take k =
        numbered ((liveAppends ops).take k) := by
      intro k
      apply List.ext_getElem?
      intro i
      simp only [numbered, List.getElem?_take, List.getElem?_mapIdx]
      split <;> rfl
    rw [← hnum]
    exact List.prefix_iff_eq_take.mp hprefix
  refine ⟨(walFraming.wholeWithin n (numbered (liveAppends ops))).length, ?_, ?_, ?_⟩
  · have hle := hprefix.length_le
    rwa [length_numbered] at hle
  · intro i hi
    rw [hcount, length_numbered]
    exact and_iff_right hi
  · have hreadable : readable ((walFraming.encodeAll (numbered (liveAppends ops))).take n) =
        walFraming.wholeWithin n (numbered (liveAppends ops)) := by
      rw [readable]
      exact congrArg Prod.fst hread
    rw [hfile, Option.map_some, replay_collect rfl, hreadable, List.nil_append, ← htake]
    exact ⟨_, rfl⟩

/-- A log that is written, reopened, continued and cut in its last frame. -/
theorem wal_round_trip_cut :
    ∃ m, replay collect
        (⟨(runOps [.append [1] [2], .reopen, .replay, .append [3] []]).file.map (List.take 30),
          .app, 0⟩, []) = .ok 1 (m, [⟨1, [1], [2]⟩]) := by
  obtain ⟨count, hle, hcount, m, hm⟩ := wal_round_trip
    [.append [1] [2], .reopen, .replay, .append [3] []] (by simp [Disciplined]) (by decide) 30 .app 0
  have hfirst : 0 < count := (hcount 0 (by decide)).mpr (by decide +kernel)
  have hsecond : ¬ 1 < count := fun h =>
    absurd ((hcount 1 (by decide)).mp h) (by decide +kernel)
  have hone : count = 1 := by omega
  subst hone
  exact ⟨m, hm⟩

end WalManager

end Aqa
