/-
# Aqa.Db.HintScopes — the workload hint over nested scopes and scans.

The hint is one variable of a thread. `ScanScope` remembers what it was and puts that back in its
destructor; `Database::scan` sets it to `Scan`, runs the reader, and sets it to `PointLookup` behind
it, which an exception out of the reader skips.

`Code` is what a thread does with the two: nothing else touches the hint. A thread also counts the
scopes and scans that are active and notes both at every point where one of them changes and wherever
the code looks at the hint.
-/
import Aqa.Cache.EvictionPolicy

namespace Aqa

/-- What holds at a point of execution: the hint, and how many scopes and scans are active. -/
structure Point where
  hint : WorkloadHint
  active : Nat
  deriving DecidableEq, Repr

/-- The hint is `Scan` exactly while some scope or scan is active. -/
def Point.Bracketed (p : Point) : Prop := p.hint = .scan ↔ 0 < p.active

instance (p : Point) : Decidable p.Bracketed := inferInstanceAs (Decidable (_ ↔ _))

/-- A thread: its hint, and what is known of its run. -/
structure Thread where
  hint : WorkloadHint
  active : Nat
  points : List Point
  deriving Repr

namespace Thread

/-- `g_workload_hint` as a thread finds it. -/
def start : Thread := ⟨.pointLookup, 0, []⟩

/-- `set_workload_hint`. -/
def setWorkloadHint (hint : WorkloadHint) (t : Thread) : Thread := { t with hint := hint }

/-- `get_workload_hint`. -/
def getWorkloadHint (t : Thread) : WorkloadHint := t.hint

/-- The point the thread is at. -/
def point (t : Thread) : Point := ⟨t.hint, t.active⟩

/-- Notes the point the thread is at. -/
def look (t : Thread) : Thread := { t with points := t.points ++ [t.point] }

/-- A scope or a scan has become active. -/
def enter (t : Thread) : Thread := { t with active := t.active + 1 }.look

/-- The innermost scope or scan is active no longer. -/
def leave (t : Thread) : Thread := { t with active := t.active - 1 }.look

end Thread

/-- `ScanScope`. -/
structure ScanScope where
  previous : WorkloadHint

namespace ScanScope

/-- `ScanScope::ScanScope`. -/
def new (t : Thread) : ScanScope × Thread := (⟨t.getWorkloadHint⟩, t.setWorkloadHint .scan)

/-- `ScanScope::~ScanScope`. -/
def destroy (s : ScanScope) (t : Thread) : Thread := t.setWorkloadHint s.previous

end ScanScope

/-- What a thread does. -/
inductive Code where
  | skip
  /-- Some code looks at the hint. -/
  | look
  | throw
  | seq (first second : Code)
  /-- A block whose exceptions are caught. -/
  | attempt (body handler : Code)
  /-- A block that opens with a `ScanScope`. -/
  | scope (body : Code)
  /-- `Database::scan`, with what the reader and the callbacks do. -/
  | scan (reading : Code)
  deriving DecidableEq, Repr

/-- How code is left. -/
inductive Exit where
  | returned
  | thrown
  deriving DecidableEq, Repr

namespace Code

/-- `StorageReader::scan`: the callback runs for one record after the other until one throws. At the
end the reader itself may throw. -/
def readerScan (callbacks : List Code) (fails : Bool) : Code :=
  callbacks.foldr (fun callback rest => .seq (.seq .look callback) rest)
    (if fails then .throw else .skip)

/-- Running code. -/
def exec : Code → Thread → Exit × Thread
  | skip, t => (.returned, t)
  | look, t => (.returned, t.look)
  | throw, t => (.thrown, t)
  | seq first second, t =>
      match first.exec t with
      | (.returned, t) => second.exec t
      | (.thrown, t) => (.thrown, t)
  | attempt body handler, t =>
      match body.exec t with
      | (.returned, t) => (.returned, t)
      | (.thrown, t) => handler.exec t
  | scope body, t =>
      let (s, t) := ScanScope.new t
      let (exit, t) := body.exec t.enter
      (exit, (s.destroy t).leave)
  | scan reading, t =>
      let t := t.setWorkloadHint .scan
      match reading.exec t.enter with
      | (.returned, t) => (.returned, (t.setWorkloadHint .pointLookup).leave)
      | (.thrown, t) => (.thrown, t.leave)

/-- Whether code is left by an exception. -/
def throws : Code → Bool
  | skip => false
  | look => false
  | throw => true
  | seq first second => first.throws || second.throws
  | attempt body handler => body.throws && handler.throws
  | scope body => body.throws
  | scan reading => reading.throws

/-- The scans that run leave the hint as it should be: an outermost one returns, and one inside
another scan or a scope is left by an exception. -/
def WellBracketed : Bool → Code → Prop
  | _, skip => True
  | _, look => True
  | _, throw => True
  | inside, seq first second =>
      first.WellBracketed inside ∧ (first.throws = false → second.WellBracketed inside)
  | inside, attempt body handler =>
      body.WellBracketed inside ∧ (body.throws = true → handler.WellBracketed inside)
  | _, scope body => body.WellBracketed true
  | inside, scan reading => reading.WellBracketed true ∧ reading.throws = inside

end Code

/-! ## Points noted so far -/

/-- Every point noted so far was bracketed. -/
def Thread.Bracketed (t : Thread) : Prop := ∀ p ∈ t.points, p.Bracketed

namespace Thread

variable {t : Thread}

theorem bracketed_look_iff : t.look.Bracketed ↔ t.Bracketed ∧ t.point.Bracketed := by
  show (∀ p ∈ t.points ++ [t.point], p.Bracketed) ↔ _
  rw [List.forall_mem_append, List.forall_mem_singleton]
  rfl

/-- Under `Scan` a scope or a scan may become active. -/
theorem bracketed_enter (h : t.Bracketed) :
    (t.setWorkloadHint .scan).enter.Bracketed ∧
      (t.setWorkloadHint .scan).enter.point.Bracketed := by
  have hpoint : (t.setWorkloadHint .scan).enter.point.Bracketed :=
    ⟨fun _ => Nat.succ_pos _, fun _ => rfl⟩
  exact ⟨bracketed_look_iff.mpr ⟨h, hpoint⟩, hpoint⟩

end Thread

/-! ## Running -/

namespace Code

theorem exec_exit (c : Code) (t : Thread) :
    (c.exec t).1 = if c.throws then .thrown else .returned := by
  induction c generalizing t with
  | skip => rfl
  | look => rfl
  | throw => rfl
  | seq first second ihFirst ihSecond =>
      have hfirst := ihFirst t
      rw [exec, throws]
      cases hrun : first.exec t with
      | mk exit t' =>
          rw [hrun] at hfirst
          cases hthrows : first.throws with
          | true =>
              rw [hthrows] at hfirst
              cases hfirst
              rfl
          | false =>
              rw [hthrows] at hfirst
              cases hfirst
              exact ihSecond t'
  | attempt body handler ihBody ihHandler =>
      have hbody := ihBody t
      rw [exec, throws]
      cases hrun : body.exec t with
      | mk exit t' =>
          rw [hrun] at hbody
          cases hthrows : body.throws with
          | true =>
              rw [hthrows] at hbody
              cases hbody
              exact ihHandler t'
          | false =>
              rw [hthrows] at hbody
              cases hbody
              rfl
  | scope body ih => exact ih _
  | scan reading ih =>
      have hreading := ih (t.setWorkloadHint .scan).enter
      rw [exec, throws]
      cases hrun : reading.exec (t.setWorkloadHint .scan).enter with
      | mk exit t' =>
          rw [hrun] at hreading
          rw [← hreading]
          cases exit <;> rfl

/-- What code that throws does, and code that returns. -/
theorem exec_eq (c : Code) (t : Thread) :
    ∃ t', c.exec t = (if c.throws then .thrown else .returned, t') :=
  ⟨(c.exec t).2, Prod.ext (c.exec_exit t) rfl⟩

theorem exec_seq (first second : Code) (t : Thread) :
    ((seq first second).exec t).2 =
      if first.throws then (first.exec t).2 else (second.exec (first.exec t).2).2 := by
  obtain ⟨t', hrun⟩ := first.exec_eq t
  rw [exec, hrun]
  cases first.throws <;> rfl

theorem exec_attempt (body handler : Code) (t : Thread) :
    ((attempt body handler).exec t).2 =
      if body.throws then (handler.exec (body.exec t).2).2 else (body.exec t).2 := by
  obtain ⟨t', hrun⟩ := body.exec_eq t
  rw [exec, hrun]
  cases body.throws <;> rfl

theorem exec_scan (reading : Code) (t : Thread) :
    ((scan reading).exec t).2 =
      if reading.throws then (reading.exec (t.setWorkloadHint .scan).enter).2.leave
      else ((reading.exec (t.setWorkloadHint .scan).enter).2.setWorkloadHint .pointLookup).leave := by
  obtain ⟨t', hrun⟩ := reading.exec_eq (t.setWorkloadHint .scan).enter
  rw [exec, hrun]
  cases reading.throws <;> rfl

/-- Code leaves as many scopes and scans active as it found. -/
theorem active_exec (c : Code) (t : Thread) : (c.exec t).2.active = t.active := by
  induction c generalizing t with
  | skip => rfl
  | look => rfl
  | throw => rfl
  | seq first second ihFirst ihSecond =>
      rw [exec_seq]
      split
      · exact ihFirst t
      · rw [ihSecond, ihFirst]
  | attempt body handler ihBody ihHandler =>
      rw [exec_attempt]
      split
      · rw [ihHandler, ihBody]
      · exact ihBody t
  | scope body ih =>
      show (body.exec (t.setWorkloadHint .scan).enter).2.active - 1 = t.active
      rw [ih]
      rfl
  | scan reading ih =>
      have hactive := ih (t.setWorkloadHint .scan).enter
      rw [exec_scan]
      split
      · show (reading.exec (t.setWorkloadHint .scan).enter).2.active - 1 = t.active
        rw [hactive]
        rfl
      · show (reading.exec (t.setWorkloadHint .scan).enter).2.active - 1 = t.active
        rw [hactive]
        rfl

/-- A point that was noted stays noted. -/
theorem bracketed_of_exec (c : Code) (t : Thread) (h : (c.exec t).2.Bracketed) :
    t.Bracketed := by
  induction c generalizing t with
  | skip => exact h
  | look => exact (Thread.bracketed_look_iff.mp h).1
  | throw => exact h
  | seq first second ihFirst ihSecond =>
      rw [exec_seq] at h
      split at h
      · exact ihFirst t h
      · exact ihFirst t (ihSecond _ h)
  | attempt body handler ihBody ihHandler =>
      rw [exec_attempt] at h
      split at h
      · exact ihBody t (ihHandler _ h)
      · exact ihBody t h
  | scope body ih =>
      have hbody := ih _ (Thread.bracketed_look_iff.mp h).1
      exact (Thread.bracketed_look_iff.mp hbody).1
  | scan reading ih =>
      rw [exec_scan] at h
      have hreading : (reading.exec (t.setWorkloadHint .scan).enter).2.Bracketed := by
        split at h
        · exact (Thread.bracketed_look_iff.mp h).1
        · exact (Thread.bracketed_look_iff.mp h).1
      exact (Thread.bracketed_look_iff.mp (ih _ hreading)).1

/-- **One piece of code.** Started at a bracketed point, it meets only bracketed points exactly if
its scans leave the hint as it should be, and then it ends at a bracketed point. -/
theorem exec_bracketed (c : Code) (t : Thread) (h : t.Bracketed) (hpoint : t.point.Bracketed) :
    ((c.exec t).2.Bracketed ↔ c.WellBracketed (decide (0 < t.active))) ∧
      ((c.exec t).2.Bracketed → (c.exec t).2.point.Bracketed) := by
  induction c generalizing t with
  | skip => exact ⟨⟨fun _ => trivial, fun _ => h⟩, fun _ => hpoint⟩
  | look =>
      have hlook : t.look.Bracketed := Thread.bracketed_look_iff.mpr ⟨h, hpoint⟩
      exact ⟨⟨fun _ => trivial, fun _ => hlook⟩, fun _ => hpoint⟩
  | throw => exact ⟨⟨fun _ => trivial, fun _ => h⟩, fun _ => hpoint⟩
  | seq first second ihFirst ihSecond =>
      obtain ⟨hfirst, hend⟩ := ihFirst t h hpoint
      have hsecond := fun hb => ihSecond (first.exec t).2 hb (hend hb)
      rw [active_exec] at hsecond
      rw [exec_seq, WellBracketed, ← hfirst]
      cases hthrows : first.throws with
      | true => exact ⟨⟨fun hb => ⟨hb, by simp⟩, fun hb => hb.1⟩, hend⟩
      | false =>
          -- the first piece ends where the second one starts, so both are bracketed or neither
          refine ⟨⟨fun hb => ?_, fun hb => (hsecond hb.1).1.mpr (hb.2 rfl)⟩, fun hb => ?_⟩
          · have hmid := bracketed_of_exec second _ hb
            exact ⟨hmid, fun _ => (hsecond hmid).1.mp hb⟩
          · exact (hsecond (bracketed_of_exec second _ hb)).2 hb
  | attempt body handler ihBody ihHandler =>
      obtain ⟨hbody, hend⟩ := ihBody t h hpoint
      have hhandler := fun hb => ihHandler (body.exec t).2 hb (hend hb)
      rw [active_exec] at hhandler
      rw [exec_attempt, WellBracketed, ← hbody]
      cases hthrows : body.throws with
      | true =>
          refine ⟨⟨fun hb => ?_, fun hb => (hhandler hb.1).1.mpr (hb.2 rfl)⟩, fun hb => ?_⟩
          · have hmid := bracketed_of_exec handler _ hb
            exact ⟨hmid, fun _ => (hhandler hmid).1.mp hb⟩
          · exact (hhandler (bracketed_of_exec handler _ hb)).2 hb
      | false => exact ⟨⟨fun hb => ⟨hb, by simp⟩, fun hb => hb.1⟩, hend⟩
  | scope body ih =>
      -- the destructor puts back the hint the scope found, with which the point was bracketed
      obtain ⟨henter, hpointEnter⟩ := Thread.bracketed_enter h
      obtain ⟨hbody, -⟩ := ih _ henter hpointEnter
      have hleft : ((scope body).exec t).2.point = t.point := by
        show Point.mk t.hint ((body.exec (t.setWorkloadHint .scan).enter).2.active - 1) = _
        rw [active_exec]
        rfl
      have hiff : ((scope body).exec t).2.Bracketed ↔
          (body.exec (t.setWorkloadHint .scan).enter).2.Bracketed := by
        refine Thread.bracketed_look_iff.trans ⟨fun hb => hb.1, fun hb => ⟨hb, ?_⟩⟩
        exact hleft ▸ hpoint
      refine ⟨hiff.trans hbody, fun _ => ?_⟩
      rw [hleft]
      exact hpoint
  | scan reading ih =>
      obtain ⟨henter, hpointEnter⟩ := Thread.bracketed_enter h
      obtain ⟨hreading, hend⟩ := ih _ henter hpointEnter
      have hactive := active_exec reading (t.setWorkloadHint .scan).enter
      rw [exec_scan, WellBracketed]
      generalize (reading.exec (t.setWorkloadHint .scan).enter).2 = t' at hreading hend hactive ⊢
      have hleft : t'.active - 1 = t.active := by
        rw [hactive]
        rfl
      have hinside : decide (0 < (t.setWorkloadHint .scan).enter.active) = true :=
        decide_eq_true (Nat.succ_pos _)
      rw [hinside] at hreading
      cases reading.throws with
      | true =>
          -- the exception skips the reset: the hint is still the one inside
          rw [if_pos rfl, Thread.leave, Thread.bracketed_look_iff, hleft, ← hreading]
          have hscan : t'.Bracketed → t'.hint = .scan := by
            intro hb
            refine (hend hb).mpr ?_
            show 0 < t'.active
            rw [hactive]
            exact Nat.succ_pos _
          have hafter : t'.Bracketed → (Point.Bracketed ⟨t'.hint, t.active⟩ ↔ 0 < t.active) := by
            intro hb
            exact ⟨fun hp => hp.mp (hscan hb), fun hpos => ⟨fun _ => hpos, fun _ => hscan hb⟩⟩
          refine ⟨and_congr_right fun hb => (hafter hb).trans ?_, fun hb => hb.2⟩
          rw [eq_comm, decide_eq_true_iff]
      | false =>
          rw [if_neg Bool.false_ne_true, Thread.leave]
          have hafter : Point.Bracketed ⟨.pointLookup, t.active⟩ ↔ ¬ 0 < t.active := by
            refine ⟨fun hp hpos => ?_, fun hpos => ⟨fun hp => ?_, fun hp => absurd hp hpos⟩⟩
            · cases hp.mpr hpos
            · cases hp
          rw [Thread.bracketed_look_iff]
          show (t'.Bracketed ∧ Point.Bracketed ⟨.pointLookup, t'.active - 1⟩ ↔ _) ∧
            (t'.Bracketed ∧ Point.Bracketed ⟨.pointLookup, t'.active - 1⟩ →
              Point.Bracketed ⟨.pointLookup, t'.active - 1⟩)
          rw [hleft]
          refine ⟨and_congr hreading (hafter.trans ?_), fun hb => hb.2⟩
          rw [eq_comm, decide_eq_false_iff_not]

end Code

/-! ## The law -/

/-- **The hint is bracketed at every point of every run** exactly if every scan that runs outside
all scopes and scans returns, and every one that runs inside is left by an exception. -/
theorem hint_bracketed_iff (c : Code) :
    (∀ p ∈ (c.exec Thread.start).2.points, p.Bracketed) ↔ c.WellBracketed false := by
  have hstart : Thread.start.Bracketed := by
    intro p hp
    cases hp
  exact (c.exec_bracketed Thread.start hstart (by decide)).1

/-- Behind a scan inside a scope the hint is that of a point lookup, and behind a callback that
throws it is that of a scan. -/
theorem hint_not_bracketed :
    (Code.exec (.scope (.scan (Code.readerScan [.skip] false))) Thread.start).2.points =
        [⟨.scan, 1⟩, ⟨.scan, 2⟩, ⟨.scan, 2⟩, ⟨.pointLookup, 1⟩, ⟨.pointLookup, 0⟩] ∧
      (Code.exec (.attempt (.scan (Code.readerScan [.throw] false)) .skip) Thread.start).2.points =
        [⟨.scan, 1⟩, ⟨.scan, 1⟩, ⟨.scan, 0⟩] ∧
      ¬ Point.Bracketed ⟨.pointLookup, 1⟩ ∧ ¬ Point.Bracketed ⟨.scan, 0⟩ := by
  decide

/-- The callbacks of an outermost scan may open scopes and throw inside an `attempt`. -/
example :
    (Code.scan (Code.readerScan [.scope .look, .attempt (.scope .throw) .look] false)).WellBracketed
      false := by
  simp [Code.WellBracketed, Code.readerScan, Code.throws]

end Aqa
