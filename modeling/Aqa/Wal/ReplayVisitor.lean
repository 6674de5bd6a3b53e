/-
# Aqa.Wal.ReplayVisitor — replay with a visitor that may throw.

`replay` closes the append stream before it calls the visitor and opens it again behind the loop. An
exception passes by the reopening: the manager keeps handing out LSNs, and what it appends goes to a
closed stream. `log_usable_iff` says when the appends made after a replay can be replayed.
-/
import Aqa.Wal.Damage

namespace Aqa

open Aqa.Lib

namespace WalManager

variable {ε σ : Type}

/-- The visitor throws at one of the records, called on them in order. -/
def Throws (visitor : WalRecord → EStateM ε σ Unit) : List WalRecord → σ → Prop
  | [], _ => False
  | r :: rs, s =>
      match visitor r s with
      | .error _ _ => True
      | .ok () s => Throws visitor rs s

/-- The manager after `replay` has returned, or its exception been caught. -/
def afterReplay (visitor : WalRecord → EStateM ε σ Unit) (m : WalManager) (s : σ) : WalManager :=
  match replay visitor (m, s) with
  | .ok _ (m, _) => m
  | .error _ (m, _) => m

/-- Appends on one manager, with the LSNs returned for them. -/
def appendReturns (m : WalManager) : List (Bytes × Bytes) → List WalRecord
  | [] => []
  | kv :: kvs =>
      ⟨(m.append kv.1 kv.2).1, kv.1, kv.2⟩ :: appendReturns (m.append kv.1 kv.2).2 kvs

theorem currentLsn_write (m : WalManager) (bs : Bytes) : (m.write bs).currentLsn = m.currentLsn := by
  unfold write
  split <;> rfl

theorem appendReturns_eq (m : WalManager) (kvs : List (Bytes × Bytes)) :
    appendReturns m kvs = stamped m.currentLsn kvs := by
  induction kvs generalizing m with
  | nil => rfl
  | cons kv kvs ih =>
      have hcur : (m.append kv.1 kv.2).2.currentLsn = u64 (m.currentLsn + 1) := currentLsn_write _ _
      rw [appendReturns, ih, hcur, stamped]
      rfl

/-- A closed stream swallows every append. -/
theorem appendMany_closed (kvs : List (Bytes × Bytes)) {m : WalManager}
    (hclosed : m.logFile = .closed) : (appendMany m kvs).file = m.file := by
  induction kvs generalizing m with
  | nil => rfl
  | cons kv kvs ih =>
      have hwrite : (m.append kv.1 kv.2).2 = { m with currentLsn := u64 (m.currentLsn + 1) } := by
        simp only [append, write, hclosed]
      have hstep : appendMany m (kv :: kvs) = appendMany (m.append kv.1 kv.2).2 kvs := rfl
      rw [hstep, hwrite]
      exact ih hclosed

/-- Without an exception all records are delivered. -/
theorem deliver_of_not_throws (visitor : WalRecord → EStateM ε σ Unit) (recs : List WalRecord) :
    ∀ (count lsn : Nat) (s : σ), ¬ Throws visitor recs s →
      ∃ s', deliver visitor recs count (lsn, s) = .ok (count + recs.length) (maxLsn lsn recs, s') := by
  induction recs with
  | nil => exact fun count lsn s _ => ⟨s, rfl⟩
  | cons r recs ih =>
      intro count lsn s hnot
      unfold Throws at hnot
      cases hvisit : visitor r s with
      | error err s₁ =>
          rw [hvisit] at hnot
          exact absurd trivial hnot
      | ok u s₁ =>
          rw [hvisit] at hnot
          obtain ⟨s', heq⟩ := ih (count + 1) (if r.lsn > lsn then r.lsn else lsn) s₁ hnot
          have hmax : (if r.lsn > lsn then r.lsn else lsn) = max lsn r.lsn := by
            rw [Nat.max_def]
            split <;> split <;> omega
          refine ⟨s', ?_⟩
          simp only [deliver, hvisit]
          rw [heq, hmax, List.length_cons, Nat.add_assoc, Nat.add_comm 1]
          rfl

/-- An exception ends the delivery. -/
theorem deliver_of_throws (visitor : WalRecord → EStateM ε σ Unit) (recs : List WalRecord) :
    ∀ (count lsn : Nat) (s : σ), Throws visitor recs s →
      ∃ err lsn' s', deliver visitor recs count (lsn, s) = .error err (lsn', s') := by
  induction recs with
  | nil => exact fun count lsn s hthrows => absurd hthrows id
  | cons r recs ih =>
      intro count lsn s hthrows
      unfold Throws at hthrows
      simp only [deliver]
      cases hvisit : visitor r s with
      | error err s₁ => exact ⟨err, lsn, s₁, rfl⟩
      | ok u s₁ =>
          rw [hvisit] at hthrows
          exact ih _ _ s₁ hthrows

/-- What the manager is like behind a replay. -/
theorem afterReplay_cases (visitor : WalRecord → EStateM ε σ Unit) {recs : List WalRecord}
    (hfits : ∀ r ∈ recs, FitsHeader r) (s : σ) :
    let m := afterReplay visitor (new (some (walFraming.encodeAll recs))) s
    m.file = some (walFraming.encodeAll recs) ∧
      ((¬ Throws visitor recs s ∧ m.logFile = .app ∧ m.currentLsn = maxLsn 0 recs) ∨
        (Throws visitor recs s ∧ m.logFile = .closed)) := by
  have hfile : (new (some (walFraming.encodeAll recs))).file =
      some (walFraming.encodeAll recs) := rfl
  have hread : readable (walFraming.encodeAll recs) = recs := by
    rw [readable, Framing.readAll_encodeAll hfits]
  have hlsn : (new (some (walFraming.encodeAll recs))).currentLsn = 0 := rfl
  unfold afterReplay
  rw [replay_eq visitor hfile, hread, hlsn]
  by_cases hthrows : Throws visitor recs s
  · obtain ⟨err, lsn', s', heq⟩ := deliver_of_throws visitor recs 0 0 s hthrows
    rw [heq]
    exact ⟨rfl, Or.inr ⟨hthrows, rfl⟩⟩
  · obtain ⟨s', heq⟩ := deliver_of_not_throws visitor recs 0 0 s hthrows
    rw [heq]
    exact ⟨rfl, Or.inl ⟨hthrows, rfl, rfl⟩⟩

/-! ## LSNs -/

theorem le_maxLsn (lsn : Nat) {recs : List WalRecord} {r : WalRecord} (h : r ∈ recs) :
    r.lsn ≤ maxLsn lsn recs := by
  induction recs using List.reverseRecOn with
  | nil => exact absurd h (by simp)
  | append_singleton recs x ih =>
      have hlast : maxLsn lsn (recs ++ [x]) = max (maxLsn lsn recs) x.lsn := by
        rw [maxLsn, maxLsn, List.foldl_append]
        rfl
      rw [hlast]
      rcases List.mem_append.mp h with h | h
      · exact le_trans (ih h) (Nat.le_max_left _ _)
      · rw [List.mem_singleton.mp h]
        exact Nat.le_max_right _ _

theorem maxLsn_zero_cases (recs : List WalRecord) :
    maxLsn 0 recs = 0 ∨ ∃ r ∈ recs, r.lsn = maxLsn 0 recs := by
  induction recs using List.reverseRecOn with
  | nil => exact Or.inl rfl
  | append_singleton recs x ih =>
      have hlast : maxLsn 0 (recs ++ [x]) = max (maxLsn 0 recs) x.lsn := by
        rw [maxLsn, maxLsn, List.foldl_append]
        rfl
      rw [hlast]
      by_cases hle : maxLsn 0 recs ≤ x.lsn
      · rw [Nat.max_eq_right hle]
        exact Or.inr ⟨x, by simp, rfl⟩
      · rw [Nat.max_eq_left (by omega)]
        rcases ih with hzero | ⟨r, hr, heq⟩
        · exact Or.inl hzero
        · exact Or.inr ⟨r, List.mem_append_left _ hr, heq⟩

theorem maxLsn_lt {recs : List WalRecord} (hfits : ∀ r ∈ recs, FitsHeader r) :
    maxLsn 0 recs < 2 ^ 64 := by
  rcases maxLsn_zero_cases recs with hzero | ⟨r, hr, heq⟩
  · rw [hzero]
    decide
  · rw [← heq]
    exact (hfits r hr).1

/-- LSNs that increase have not wrapped. -/
theorem lsn_not_wrapped (kvs : List (Bytes × Bytes)) :
    ∀ lsn, lsn < 2 ^ 64 → ((stamped lsn kvs).map WalRecord.lsn).Pairwise (· < ·) →
      (∀ x ∈ (stamped lsn kvs).map WalRecord.lsn, lsn < x) → lsn + kvs.length < 2 ^ 64 := by
  induction kvs with
  | nil => exact fun lsn hlt _ _ => hlt
  | cons kv kvs ih =>
      intro lsn hlt hpair hall
      rw [stamped, List.map_cons] at hpair hall
      rw [List.pairwise_cons] at hpair
      have hhead := hall _ List.mem_cons_self
      have hnext : u64 (lsn + 1) = lsn + 1 := by
        by_contra hne
        -- the next LSN would be 0, which is above none
        have hwrap : u64 (lsn + 1) = 0 := by
          have hfull : lsn + 1 = 2 ^ 64 := by
            by_contra hless
            exact hne (u64_of_lt (by omega))
          rw [hfull, u64, Nat.mod_self]
        simp only [hwrap] at hhead
        omega
      rw [hnext] at hpair
      have hrest := ih (lsn + 1) (by
        have := u64_lt (lsn + 1)
        omega) hpair.2 hpair.1
      rw [List.length_cons]
      omega

/-! ## The log behind a replay -/

/-- The appends made after a replay, under the LSNs returned for them, are all found by a later one,
behind the records that were there, and the LSNs increase. -/
def LogUsable (visitor : WalRecord → EStateM ε σ Unit) (recs : List WalRecord) (s : σ)
    (kvs : List (Bytes × Bytes)) : Prop :=
  let m := afterReplay visitor (new (some (walFraming.encodeAll recs))) s
  (∃ count m', replay collect (appendMany m kvs, []) =
      .ok count (m', recs ++ appendReturns m kvs)) ∧
    ((recs ++ appendReturns m kvs).map WalRecord.lsn).Pairwise (· < ·)

/-- Behind an exception only the empty sequence of appends can be replayed. -/
theorem logUsable_of_throws {visitor : WalRecord → EStateM ε σ Unit} {recs : List WalRecord}
    (hfits : ∀ r ∈ recs, FitsHeader r) {s : σ} (hthrows : Throws visitor recs s)
    (kvs : List (Bytes × Bytes)) :
    LogUsable visitor recs s kvs ↔ kvs = [] ∧ (recs.map WalRecord.lsn).Pairwise (· < ·) := by
  obtain ⟨hfile, hcases⟩ := afterReplay_cases visitor hfits s
  unfold LogUsable
  generalize afterReplay visitor (new (some (walFraming.encodeAll recs))) s = m at hfile hcases ⊢
  -- the stream stays closed, so that nothing is written
  have hclosed : m.logFile = .closed := by
    rcases hcases with ⟨hnot, -⟩ | ⟨-, hclosed⟩
    · exact absurd hthrows hnot
    · exact hclosed
  have hbytes := appendMany_closed kvs hclosed
  rw [hfile] at hbytes
  have hread : readable (walFraming.encodeAll recs) = recs := by
    rw [readable, Framing.readAll_encodeAll hfits]
  dsimp only
  rw [replay_collect hbytes, List.nil_append, hread]
  constructor
  · rintro ⟨⟨count, m', heq⟩, hpair⟩
    simp only [EStateM.Result.ok.injEq, Prod.mk.injEq] at heq
    have hnil : appendReturns m kvs = [] := List.self_eq_append_right.mp heq.2.2
    rw [hnil, List.append_nil] at hpair
    refine ⟨?_, hpair⟩
    cases kvs with
    | nil => rfl
    | cons kv kvs => exact absurd hnil (by simp [appendReturns])
  · rintro ⟨rfl, hrecs⟩
    refine ⟨⟨_, _, by rw [appendReturns, List.append_nil]⟩, ?_⟩
    rw [appendReturns, List.append_nil]
    exact hrecs

/-- Behind a replay that returned, everything of 16-bit lengths can be replayed while the LSNs do
not wrap. -/
theorem logUsable_of_not_throws {visitor : WalRecord → EStateM ε σ Unit} {recs : List WalRecord}
    (hfits : ∀ r ∈ recs, FitsHeader r) {s : σ} (hnot : ¬ Throws visitor recs s)
    (kvs : List (Bytes × Bytes)) :
    LogUsable visitor recs s kvs ↔
      (recs.map WalRecord.lsn).Pairwise (· < ·) ∧
        (∀ kv ∈ kvs, kv.1.length ≤ 65535 ∧ kv.2.length ≤ 65535) ∧
        maxLsn 0 recs + kvs.length < 2 ^ 64 := by
  obtain ⟨hfile, hcases⟩ := afterReplay_cases visitor hfits s
  unfold LogUsable
  generalize afterReplay visitor (new (some (walFraming.encodeAll recs))) s = m at hfile hcases ⊢
  -- the manager is back in append mode, its counter at the largest LSN found
  obtain ⟨happ, hlsn⟩ : m.logFile = .app ∧ m.currentLsn = maxLsn 0 recs := by
    rcases hcases with ⟨-, happ, hlsn⟩ | ⟨hthrows, -⟩
    · exact ⟨happ, hlsn⟩
    · exact absurd hthrows hnot
  have hbytes := appendMany_spec kvs hfile (Or.inl happ)
  have hreturns := appendReturns_eq m kvs
  rw [hlsn] at hbytes hreturns
  dsimp only
  rw [hreturns, replay_collect hbytes, List.nil_append, List.map_append, List.pairwise_append]
  constructor
  · rintro ⟨⟨count, m', heq⟩, hrecs, hstamped, habove⟩
    simp only [EStateM.Result.ok.injEq, Prod.mk.injEq] at heq
    refine ⟨hrecs, ?_, ?_⟩
    · -- whatever is delivered has lengths of 16 bits
      have hvalid := (walFraming.readAll_sound (walFraming.encodeAll recs ++
        walFraming.encodeAll (stamped (maxLsn 0 recs) kvs))).1
      have hread := heq.2.2
      rw [readable] at hread
      rw [hread] at hvalid
      intro kv hkv
      rw [← map_stamped (maxLsn 0 recs) kvs] at hkv
      obtain ⟨r, hr, rfl⟩ := List.mem_map.mp hkv
      obtain ⟨-, hk, hv⟩ := hvalid r (List.mem_append_right _ hr)
      exact ⟨by simp only; omega, by simp only; omega⟩
    · apply lsn_not_wrapped kvs _ (maxLsn_lt hfits) hstamped
      intro x hx
      rcases maxLsn_zero_cases recs with hzero | ⟨r, hr, heq'⟩
      · -- the first LSN behind an empty or unnumbered log is 1
        rw [hzero] at hx hstamped ⊢
        cases kvs with
        | nil => exact absurd hx (by simp [stamped])
        | cons kv kvs =>
            rw [stamped, List.map_cons] at hx hstamped
            have hone : u64 (0 + 1) = 1 := u64_of_lt (by decide)
            simp only [hone] at hx hstamped
            rcases List.mem_cons.mp hx with rfl | hx
            · exact Nat.one_pos
            · have := (List.pairwise_cons.mp hstamped).1 x hx
              omega
      · rw [← heq']
        exact habove _ (List.mem_map_of_mem hr) x hx
  · rintro ⟨hrecs, hlens, hwrap⟩
    have hlsns := map_lsn_stamped kvs hwrap
    have hall : ∀ r ∈ recs ++ stamped (maxLsn 0 recs) kvs, FitsHeader r := by
      intro r hr
      rcases List.mem_append.mp hr with hr | hr
      · exact hfits r hr
      · exact stamped_fits hlens r hr
    have hread : readable (walFraming.encodeAll recs ++
        walFraming.encodeAll (stamped (maxLsn 0 recs) kvs)) =
        recs ++ stamped (maxLsn 0 recs) kvs := by
      rw [← Framing.encodeAll_append, readable, Framing.readAll_encodeAll hall]
    rw [hread]
    refine ⟨⟨_, _, rfl⟩, hrecs, ?_, ?_⟩
    · rw [hlsns]
      exact List.pairwise_lt_range'
    · intro x hx y hy
      obtain ⟨r, hr, rfl⟩ := List.mem_map.mp hx
      have hle := le_maxLsn 0 hr
      rw [hlsns, List.mem_range'_1] at hy
      omega

/-- **When a replay leaves the log usable.** For every log of whole valid frames, every visitor and
every sequence of appends after it: the appends can be replayed exactly when the visitor threw at no
record, or nothing was appended; the log was in increasing order; the appended keys and values have
lengths of 16 bits; and the LSN counter does not wrap. -/
theorem log_usable_iff (visitor : WalRecord → EStateM ε σ Unit) (recs : List WalRecord)
    (hfits : ∀ r ∈ recs, FitsHeader r) (s : σ) (kvs : List (Bytes × Bytes)) :
    LogUsable visitor recs s kvs ↔
      (kvs = [] ∨ ¬ Throws visitor recs s) ∧ (recs.map WalRecord.lsn).Pairwise (· < ·) ∧
        (∀ kv ∈ kvs, kv.1.length ≤ 65535 ∧ kv.2.length ≤ 65535) ∧
        maxLsn 0 recs + kvs.length < 2 ^ 64 := by
  by_cases hthrows : Throws visitor recs s
  · rw [logUsable_of_throws hfits hthrows]
    constructor
    · rintro ⟨rfl, hrecs⟩
      exact ⟨Or.inl rfl, hrecs, by simp, maxLsn_lt hfits⟩
    · rintro ⟨hkvs, hrecs, -, -⟩
      exact ⟨hkvs.resolve_right (not_not_intro hthrows), hrecs⟩
  · rw [logUsable_of_not_throws hfits hthrows]
    exact ⟨fun h => ⟨Or.inr hthrows, h⟩, fun h => h.2⟩

/-- A visitor that refuses every record. -/
def refuse (_ : WalRecord) : EStateM Error Unit Unit := fun s =>
  .error (.runtimeError "Record too large for a single page!") s

/-- A visitor that accepts every record. -/
def acceptAll (_ : WalRecord) : EStateM Error Unit Unit := fun s => .ok () s

/-- A visitor that throws nothing, and one append. -/
theorem log_usable_iff_accepting :
    LogUsable acceptAll [⟨1, [1], [2]⟩] () [([3], [4])] ↔
      (([([3], [4])] : List (Bytes × Bytes)) = [] ∨
          ¬ Throws acceptAll [⟨1, [1], [2]⟩] ()) ∧
        (([⟨1, [1], [2]⟩] : List WalRecord).map WalRecord.lsn).Pairwise (· < ·) ∧
        (∀ kv ∈ ([([3], [4])] : List (Bytes × Bytes)),
          kv.1.length ≤ 65535 ∧ kv.2.length ≤ 65535) ∧
        maxLsn 0 [⟨1, [1], [2]⟩] + 1 < 2 ^ 64 :=
  log_usable_iff acceptAll [⟨1, [1], [2]⟩] (by decide) () [([3], [4])]

/-- **An append lost behind an exception.** The visitor throws at the only record; the append that
follows returns an LSN and is not in the file. -/
theorem log_lost_after_exception :
    ¬ LogUsable refuse [⟨1, [1], [2]⟩] () [([3], [4])] := by
  rw [logUsable_of_throws (by decide) (show Throws refuse [⟨1, [1], [2]⟩] () from trivial)]
  exact fun h => absurd h.1 (by simp)

end WalManager

end Aqa
