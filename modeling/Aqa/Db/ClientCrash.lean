/-
# Aqa.Db.ClientCrash — a crash while clients are at work.

Between any two steps of any clients the files are those of a sequential session that is stopped
(`ClientWorld.Serial`), so the next open finds what it finds after a sequential crash. A put that has
returned has its frame in the log, and so does at most one put that has not returned. With a place for
each key in the record cache nothing of this is lost.
-/
import Aqa.Db.DurableMap
import Aqa.Db.SerialPuts

namespace Aqa

open Aqa.Lib

/-- Sessions that are all closed are sessions any of which may crash. -/
theorem ClosedCleanly.lived {Allowed : List Nat → List Record → Nat → Prop} {disk : Disk}
    {history : List Record} (h : ClosedCleanly disk history) :
    ∃ pages copies, Lived Allowed disk pages history copies := by
  induction h with
  | new => exact ⟨[], [], .new⟩
  | @session disk history cfg db db' cs answers hclosed hnew hcalls ih =>
      obtain ⟨pages, copies, hlived⟩ := ih
      have hstate := (SessionState.opened hnew).calls cs hcalls
      rw [List.nil_append] at hstate
      obtain ⟨s, hholds, -, -⟩ := hstate.wrote hlived.files.shows hlived.files.log
      have hshows := hholds.shows_destroy
      rw [← hshows.wal] at hshows
      exact ⟨_, _, hlived.closed hstate hshows⟩

theorem Client.putting_of_reached {c : Client} {point : PutPoint} {r : Record}
    (h : c.reached = some (point, r)) : c.putting = some r := by
  obtain ⟨cpoint, before⟩ := c
  cases cpoint with
  | appending r' | indexing r' rid | caching r' =>
      rw [Client.reached, Option.some.injEq, Prod.mk.injEq] at h
      rw [← h.2]
      rfl
  | _ => exact absurd h (by simp [Client.reached])

namespace ClientWorld

/-- The put that has written its frame and has not returned. -/
def underWay (w : ClientWorld) : List Record :=
  w.clients.filterMap fun c => c.reached.map Prod.snd

/-- The puts whose frame is in the log, in its order. -/
def inLog (w : ClientWorld) : List Record := w.stored ++ w.underWay

variable {w : ClientWorld}

/-- At most one put is under way. -/
theorem underWay_cases (hcomp : SharedLock.Compatible Client.mode w.clients) :
    ((∀ c ∈ w.clients, c.reached = none) ∧ w.underWay = []) ∨
      ∃ c ∈ w.clients, ∃ point r, c.reached = some (point, r) ∧ w.underWay = [r] := by
  by_cases hnone : ∀ c ∈ w.clients, c.reached = none
  · refine Or.inl ⟨hnone, List.filterMap_eq_nil_iff.mpr fun c hc => ?_⟩
    rw [hnone c hc]
    rfl
  · push Not at hnone
    obtain ⟨c, hc, hsome⟩ := hnone
    obtain ⟨⟨point, r⟩, hr⟩ := Option.ne_none_iff_exists'.mp hsome
    refine Or.inr ⟨c, hc, point, r, hr, ?_⟩
    have hmode : c.mode = .exclusive := by
      by_contra hmode
      rw [(Client.reached_of_not_exclusive hmode).1] at hr
      exact absurd hr (by simp)
    -- the clients before it and behind it are in no put
    obtain ⟨i, hi⟩ := List.mem_iff_getElem?.mp hc
    obtain ⟨hlt, hget⟩ := List.getElem?_eq_some_iff.mp hi
    have hothers : ∀ j x, j ≠ i → w.clients[j]? = some x → x.reached = none := by
      intro j x hj hx
      refine (Client.reached_of_not_exclusive ?_).1
      rw [hcomp i j c x (Ne.symm hj) hi hx hmode]
      simp
    have hsplit : w.clients = w.clients.take i ++ c :: w.clients.drop (i + 1) := by
      rw [← hget, List.cons_getElem_drop_succ, List.take_append_drop]
    have hbefore : (w.clients.take i).filterMap (fun c => c.reached.map Prod.snd) = [] := by
      apply List.filterMap_eq_nil_iff.mpr
      intro x hx
      obtain ⟨j, hj⟩ := List.mem_iff_getElem?.mp hx
      have hji : j < i := by
        have hlen := (List.getElem?_eq_some_iff.mp hj).1
        rw [List.length_take] at hlen
        omega
      rw [List.getElem?_take_of_lt hji] at hj
      rw [hothers j x (by omega) hj]
      rfl
    have hbehind : (w.clients.drop (i + 1)).filterMap (fun c => c.reached.map Prod.snd) = [] := by
      apply List.filterMap_eq_nil_iff.mpr
      intro x hx
      obtain ⟨j, hj⟩ := List.mem_iff_getElem?.mp hx
      rw [List.getElem?_drop] at hj
      rw [hothers (i + 1 + j) x (by omega) hj]
      rfl
    rw [underWay, hsplit, List.filterMap_append, List.filterMap_cons, hbefore, hbehind, hr]
    rfl

/-- The files behind any step are those of a sequential session that is stopped. -/
theorem Serial.lived {disk : Disk} {pages : List (List Record)} {history : List Record}
    {copies : List Nat} {cfg : Config} {db db' : Database} (h : Serial db w db')
    (hcomp : SharedLock.Compatible Client.mode w.clients)
    (hlived : Lived AnyCrash disk pages history copies) (hnew : Database.new cfg disk = .ok db) :
    ∃ pages' copies', Lived AnyCrash w.db.files pages' (history ++ w.inLog) copies' := by
  obtain ⟨answers, hcalls⟩ := h.calls
  have hstate := (SessionState.opened hnew).calls _ hcalls
  rw [List.nil_append, putsOf_putCall] at hstate
  obtain ⟨s, hholds, hwrote, -⟩ := hstate.wrote hlived.files.shows hlived.files.log
  rcases underWay_cases hcomp with ⟨hquiet, hnone⟩ | ⟨c, hc, point, r, hr, hone⟩
  · have hshows := hholds.shows_files
    rw [← hshows.wal] at hshows
    rw [inLog, hnone, List.append_nil, (h.quiet hquiet).files.1]
    exact ⟨_, _, hlived.crashed hstate hshows trivial⟩
  · obtain ⟨db'', hput, hsame⟩ := h.reached c hc point r hr
    have hroom : Record.need r ≤ pageRoom := h.fits c hc r (Client.putting_of_reached hr)
    obtain ⟨s', m, hholds', -⟩ := hholds.putUpTo hwrote hroom hput
    have hshows := hholds'.shows_files
    rw [← hshows.wal] at hshows
    rw [inLog, hone, ← List.append_assoc, hsame.files.1]
    exact ⟨_, _, hlived.crashedInPut hstate hroom hput hshows trivial⟩

end ClientWorld

/-- **No put that has returned is lost.** For any database opened on files of fewer than 2^20 pages that
sessions closed normally have left, any number of clients, and any schedule of their steps in which
every put fits a page: a crash behind any step leaves the files of a sequential run of the puts that
have returned, in that order, with the put that was under way if its frame was written. The database
opened on them answers gets in any order with the last of these puts of the key, if its record cache
has a place for each key. -/
theorem concurrent_crash_durable {disk : Disk} {history : List Record}
    (hclosed : ClosedCleanly disk history)
    (hsize : (disk.data.getD []).length < 2 ^ 20 * PAGE_SIZE) {cfg : Config}
    (hplaces : 1 ≤ cfg.recordCacheSize) {db : Database} (hnew : Database.new cfg disk = .ok db)
    (n : Nat) (schedule : List ClientWorld.Turn)
    (hfits : ∀ i key value, ClientWorld.Turn.begin i (.put key value) ∈ schedule →
      Record.need ⟨key, value⟩ ≤ pageRoom) :
    let w := (ClientWorld.start db n).run schedule
    (∃ pages copies, Lived AnyCrash w.db.files pages (history ++ w.inLog) copies) ∧
      w.underWay.length ≤ 1 ∧
      ∀ cfg' : Config, 1 ≤ cfg'.cacheSizePages → 1 ≤ cfg'.recordCacheSize →
        ((history ++ w.inLog).map Record.key).toFinset.card ≤ cfg'.recordCacheSize →
        ∃ db', Database.new cfg' w.db.files = .ok db' ∧ ∀ keys : List Bytes, ∃ db'',
          Database.calls (keys.map .get) db' =
            .ok (keys.map (lastWrite (entries (history ++ w.inLog)))) db'' := by
  intro w
  obtain ⟨db', hserial, hcomp⟩ :=
    ClientWorld.serial_behind hclosed hsize hplaces hnew n schedule hfits
  obtain ⟨pages, copies, hlived⟩ : ∃ pages copies, Lived AnyCrash disk pages history copies :=
    hclosed.lived
  obtain ⟨pages', copies', hcrashed⟩ := hserial.lived hcomp hlived hnew
  refine ⟨⟨pages', copies', hcrashed⟩, ?_, fun cfg' hframes' hplaces' hfew =>
    hcrashed.gets hframes' hplaces' hfew⟩
  rcases ClientWorld.underWay_cases hcomp with ⟨-, hnone⟩ | ⟨c, -, point, r, -, hone⟩
  · rw [show w.underWay = [] from hnone]
    exact Nat.zero_le 1
  · rw [show w.underWay = [r] from hone]
    exact le_rfl

/-- Two puts of one key by two clients; the crash comes when the second one has reached the log. -/
theorem concurrent_crash_durable_two :
    ∃ db, Database.new ⟨1, 1, false⟩ Disk.empty = .ok db ∧
      let w := (ClientWorld.start db 2).run [.begin 0 (.put [1] [2]), .step 0, .step 0, .step 0,
        .step 0, .step 0, .begin 1 (.put [1] [3]), .step 1]
      ∃ pages copies, Lived AnyCrash w.db.files pages ([] ++ w.inLog) copies := by
  obtain ⟨-, db, hnew, -⟩ := cleanFiles_empty.opens ⟨1, 1, false⟩ le_rfl le_rfl
  refine ⟨db, hnew, (concurrent_crash_durable ClosedCleanly.new (by decide) le_rfl hnew 2
    [.begin 0 (.put [1] [2]), .step 0, .step 0, .step 0, .step 0, .step 0, .begin 1 (.put [1] [3]),
      .step 1] ?_).1⟩
  intro i key value hmem
  simp only [List.mem_cons, List.not_mem_nil, reduceCtorEq, false_or, or_false,
    ClientWorld.Turn.begin.injEq, DbCall.put.injEq] at hmem
  rcases hmem with ⟨-, rfl, rfl⟩ | ⟨-, rfl, rfl⟩ <;> decide

end Aqa
