/-
# Aqa.Observer.SlidingWindow — the observer is a window on the history of accesses.

`Tracks o history` says that the three encodings of an observer agree with the last `capacity` events
of a history: the ring slot by slot, the counts page by page, the sizes by number. Recording an event
keeps it, whatever the wraparound does, and each query reads its answer off the window.
-/
import Aqa.Lib.Window
import Aqa.Observer.AccessObserver

namespace Aqa

open Aqa.Lib

namespace AccessObserver

/-- The page ids of some events. -/
def pageIds (events : List PageAccessEvent) : List Nat := events.map PageAccessEvent.pageId

/-- The observer holds the window of this history. -/
structure Tracks (o : AccessObserver) (history : List PageAccessEvent) : Prop where
  pos : 0 < o.capacity
  small : o.capacity < 2 ^ 64
  ring : Ring o.capacity o.ring history
  head : o.head = history.length % o.capacity
  size : o.size = (window o.capacity history).length
  total : o.totalRecorded = history.length
  counts : ∀ p, o.pageAccessCounts.lookup p =
    if p ∈ pageIds (window o.capacity history) then
      some ((pageIds (window o.capacity history)).count p) else none

theorem tracks_new {ringCapacity : Nat} (h : ringCapacity < 2 ^ 64) :
    (new ringCapacity).Tracks [] where
  pos := by
    unfold new
    simp only
    split <;> omega
  small := by
    unfold new
    simp only
    split <;> omega
  ring := ring_nil _ (by simp [new])
  head := by simp [new]
  size := by simp [new, window]
  total := rfl
  counts := by simp [new, window, pageIds]

@[simp]
theorem capacity_recordPageAccess (o : AccessObserver) (pageId : Nat) (isHit : Bool) :
    (o.recordPageAccess pageId isHit).capacity = o.capacity := rfl

namespace Tracks

variable {o : AccessObserver} {history : List PageAccessEvent}

theorem size_eq (h : o.Tracks history) : o.size = min history.length o.capacity := by
  rw [h.size, length_window]

theorem count_eq (h : o.Tracks history) (p : Nat) :
    o.getAccessCount p = (pageIds (window o.capacity history)).count p := by
  rw [getAccessCount, h.counts]
  by_cases hmem : p ∈ pageIds (window o.capacity history)
  · rw [if_pos hmem, Option.getD_some]
  · rw [if_neg hmem, Option.getD_none, List.count_eq_zero.mpr hmem]

/-- A slot of the ring holds the event of the history written to it last. -/
theorem slot_eq (h : o.Tracks history) {i : Nat} (hi : i < history.length)
    (hin : history.length ≤ i + o.capacity) : o.slot (i % o.capacity) = history[i] := by
  rw [slot, List.getD_eq_getElem?_getD, h.ring.holds i hi hin, List.getElem?_eq_getElem hi,
    Option.getD_some]

/-! ## Recording -/

/-- The counts once a full ring has lost its oldest event. -/
theorem lookup_dropOldest (h : o.Tracks history) (p : Nat) :
    o.dropOldest.lookup p =
      if p ∈ pageIds (window (o.capacity - 1) history) then
        some ((pageIds (window (o.capacity - 1) history)).count p) else none := by
  have hpos := h.pos
  by_cases hfull : o.capacity ≤ history.length
  · obtain ⟨old, hold, hwindow, -⟩ := window_concat_of_le hpos hfull default
    have hsize : o.size = o.capacity := by rw [h.size_eq, Nat.min_eq_right hfull]
    -- the head is the slot of the oldest event
    have hslot : o.slot o.head = old := by
      obtain ⟨hlt, hget⟩ := List.getElem?_eq_some_iff.mp hold
      have hmod : o.head = (history.length - o.capacity) % o.capacity := by
        rw [h.head]
        exact Nat.mod_eq_sub_mod hfull
      rw [hmod, h.slot_eq hlt (by omega), hget]
    have hcounts := h.counts
    have hids : pageIds (window o.capacity history) =
        old.pageId :: pageIds (window (o.capacity - 1) history) := by
      rw [hwindow]
      rfl
    rw [hids] at hcounts
    have holdCount := hcounts old.pageId
    rw [if_pos List.mem_cons_self, List.count_cons_self] at holdCount
    unfold dropOldest
    rw [if_pos hsize]
    dsimp only
    rw [hslot, holdCount]
    dsimp only
    by_cases hp : p = old.pageId
    · subst hp
      by_cases hrest : old.pageId ∈ pageIds (window (o.capacity - 1) history)
      · have := List.count_pos_iff.mpr hrest
        rw [if_neg (by omega), AList.lookup_insert, if_pos hrest, Nat.add_sub_cancel]
      · rw [if_pos (by rw [List.count_eq_zero.mpr hrest]), AList.lookup_erase, if_neg hrest]
    · have hp' := hcounts p
      rw [List.count_cons_of_ne (Ne.symm hp)] at hp'
      have hmem : p ∈ old.pageId :: pageIds (window (o.capacity - 1) history) ↔
          p ∈ pageIds (window (o.capacity - 1) history) := by simp [hp]
      simp only [hmem] at hp'
      split
      · rw [AList.lookup_erase_ne hp, hp']
      · rw [AList.lookup_insert_ne hp, hp']
  · have hsize : o.size ≠ o.capacity := by
      rw [h.size_eq]
      omega
    unfold dropOldest
    rw [if_neg hsize, h.counts, window_of_le (by omega), window_of_le (by omega)]

/-- **Recording keeps the window.** -/
theorem record (h : o.Tracks history) (pageId : Nat) (isHit : Bool) :
    (o.recordPageAccess pageId isHit).Tracks (history ++ [⟨pageId, isHit⟩]) := by
  have hpos := h.pos
  have hsmall := h.small
  have hlength := length_window o.capacity (history ++ [⟨pageId, isHit⟩])
  rw [List.length_append, List.length_singleton] at hlength
  have hwindow : window o.capacity (history ++ [⟨pageId, isHit⟩]) =
      window (o.capacity - 1) history ++ [⟨pageId, isHit⟩] := by
    by_cases hfull : o.capacity ≤ history.length
    · obtain ⟨-, -, -, heq⟩ := window_concat_of_le hpos hfull ⟨pageId, isHit⟩
      exact heq
    · rw [window_concat_of_lt (by omega), window_of_le (by omega), window_of_le (by omega)]
  refine ⟨hpos, hsmall, ?_, ?_, ?_, ?_, ?_⟩
  · show Ring o.capacity (o.ring.set o.head ⟨pageId, isHit⟩) _
    rw [h.head]
    exact h.ring.push hpos _
  · show (o.head + 1) % o.capacity = _
    rw [h.head, Nat.mod_add_mod, List.length_append, List.length_singleton]
    rfl
  · show (if o.size < o.capacity then o.size + 1 else o.size) =
      (window o.capacity (history ++ [⟨pageId, isHit⟩])).length
    rw [hlength, h.size_eq]
    split <;> omega
  · show o.totalRecorded + 1 = _
    rw [h.total, List.length_append, List.length_singleton]
  · intro p
    have hids : pageIds (window o.capacity (history ++ [⟨pageId, isHit⟩])) =
        pageIds (window (o.capacity - 1) history) ++ [pageId] := by
      rw [hwindow, pageIds, List.map_append]
      rfl
    rw [capacity_recordPageAccess, hids, List.count_append, List.count_singleton]
    show (o.dropOldest.insert pageId
      (u64 ((o.dropOldest.lookup pageId).getD 0 + 1))).lookup p = _
    by_cases hp : p = pageId
    · subst hp
      have hcount : (o.dropOldest.lookup p).getD 0 =
          (pageIds (window (o.capacity - 1) history)).count p := by
        rw [h.lookup_dropOldest]
        split
        · rfl
        · rename_i hnot
          rw [List.count_eq_zero.mpr hnot]
          rfl
      -- no count exceeds the capacity
      have hle : (pageIds (window (o.capacity - 1) history)).count p ≤ o.capacity - 1 := by
        refine le_trans List.count_le_length ?_
        rw [pageIds, List.length_map, length_window]
        omega
      rw [AList.lookup_insert, hcount, u64_of_lt (by omega), if_pos (by simp)]
      simp
    · rw [AList.lookup_insert_ne hp, h.lookup_dropOldest]
      simp [hp, Ne.symm hp]

/-! ## Reading -/

/-- The loop over the slots from an event of the window on reads the events behind it. -/
theorem readSlots_eq (h : o.Tracks history) (n : Nat) :
    ∀ i, i + n ≤ history.length → history.length ≤ i + o.capacity →
      o.readSlots n (i % o.capacity) = (history.drop i).take n := by
  induction n with
  | zero => exact fun i _ _ => rfl
  | succ n ih =>
      intro i hi hin
      have hlt : i < history.length := by omega
      rw [readSlots, h.slot_eq hlt hin, Nat.mod_add_mod, ih (i + 1) (by omega) (by omega),
        List.drop_eq_getElem_cons hlt, List.take_succ_cons]

/-- The slot of the oldest event. -/
theorem start_eq (h : o.Tracks history) :
    (o.head + o.capacity - o.size) % o.capacity = (history.length - o.capacity) % o.capacity := by
  have hpos := h.pos
  rw [h.head, h.size_eq]
  by_cases hfull : o.capacity ≤ history.length
  · rw [Nat.min_eq_right hfull, Nat.add_sub_cancel, Nat.mod_mod]
    exact Nat.mod_eq_sub_mod hfull
  · rw [Nat.min_eq_left (by omega),
      Nat.mod_eq_of_lt (show history.length < o.capacity by omega), Nat.add_sub_cancel_left,
      Nat.mod_self, Nat.sub_eq_zero_of_le (by omega), Nat.zero_mod]

/-- **The events read are the oldest of the window**, also when the newest are asked for. -/
theorem recent_take (h : o.Tracks history) (n : Nat) :
    o.getRecentPageAccesses n = (window o.capacity history).take (min n o.size) := by
  have hsize := h.size_eq
  rw [getRecentPageAccesses, h.start_eq, h.readSlots_eq _ _ (by omega) (by omega), window]

/-- Whoever asks for enough events gets the window, oldest first. -/
theorem recent_eq (h : o.Tracks history) {n : Nat}
    (hn : (window o.capacity history).length ≤ n) :
    o.getRecentPageAccesses n = window o.capacity history := by
  rw [h.recent_take, h.size, Nat.min_eq_right hn]
  exact List.take_of_length_le le_rfl

/-- The slot at a distance from the newest event. -/
theorem back_eq (h : o.Tracks history) {i : Nat} (hi : i < o.size) :
    (o.head + o.capacity - 1 - i) % o.capacity = (history.length - 1 - i) % o.capacity := by
  have hpos := h.pos
  have hsize := h.size_eq
  have hmod := Nat.mod_lt history.length hpos
  have hdiv := Nat.div_add_mod history.length o.capacity
  rw [h.head]
  by_cases hlt : i < history.length % o.capacity
  · -- both sides lie in the same block of `capacity` events
    rw [show history.length % o.capacity + o.capacity - 1 - i =
        history.length % o.capacity - 1 - i + o.capacity by omega, Nat.add_mod_right,
      show history.length - 1 - i = o.capacity * (history.length / o.capacity) +
        (history.length % o.capacity - 1 - i) by omega, Nat.mul_add_mod]
  · have hfull : o.capacity ≤ history.length := by
      by_contra hless
      rw [Nat.mod_eq_of_lt (by omega)] at hlt
      omega
    obtain ⟨blocks, hblocks⟩ : ∃ blocks, history.length / o.capacity = blocks + 1 := by
      refine ⟨history.length / o.capacity - 1, ?_⟩
      have : 0 < history.length / o.capacity := Nat.div_pos hfull hpos
      omega
    rw [hblocks, Nat.mul_add, Nat.mul_one] at hdiv
    rw [show history.length - 1 - i = o.capacity * blocks +
        (history.length % o.capacity + o.capacity - 1 - i) by omega, Nat.mul_add_mod]

/-- The backward search meets the events in reverse. -/
theorem findBack_eq (h : o.Tracks history) (p : Nat) (n : Nat) :
    ∀ i, i + n = o.size → o.findBack p n i =
      match ((history.reverse.drop i).take n).findIdx? fun e => e.pageId = p with
      | some j => i + j
      | none => o.capacity := by
  have hsize := h.size_eq
  induction n with
  | zero =>
      intro i _
      rfl
  | succ n ih =>
      intro i hi
      have hlt : i < history.reverse.length := by
        rw [List.length_reverse]
        omega
      have hslot : o.slot ((o.head + o.capacity - 1 - i) % o.capacity) = history.reverse[i] := by
        rw [h.back_eq (by omega), h.slot_eq (by omega) (by omega), List.getElem_reverse]
      rw [findBack, hslot, List.drop_eq_getElem_cons hlt, List.take_succ_cons,
        List.findIdx?_cons]
      by_cases hp : history.reverse[i].pageId = p
      · simp only [decide_true, if_true, hp]
        rfl
      · rw [if_neg hp, ih (i + 1) (by omega)]
        simp only [hp, decide_false, Bool.false_eq_true, if_false]
        cases ((history.reverse.drop (i + 1)).take n).findIdx? fun e => e.pageId = p with
        | none => rfl
        | some j =>
            show i + 1 + j = i + (j + 1)
            omega

/-- **The last index is the distance from the end of the window**, or the capacity. -/
theorem lastIndex_eq (h : o.Tracks history) (p : Nat) :
    o.getLastIndexInRecent p =
      if p ∈ pageIds (window o.capacity history) then
        (pageIds (window o.capacity history)).reverse.idxOf p
      else o.capacity := by
  have hsize := h.size_eq
  have hreverse : history.reverse.take o.size = (window o.capacity history).reverse := by
    rw [window, List.reverse_drop, hsize]
    congr 1
    omega
  have hids : (pageIds (window o.capacity history)).reverse =
      (window o.capacity history).reverse.map PageAccessEvent.pageId := by
    rw [pageIds, List.map_reverse]
  rw [getLastIndexInRecent, h.findBack_eq p o.size 0 (Nat.zero_add _), List.drop_zero, hreverse]
  by_cases hmem : p ∈ pageIds (window o.capacity history)
  · have hfind : (window o.capacity history).reverse.findIdx? (fun e => e.pageId = p) =
        some ((pageIds (window o.capacity history)).reverse.idxOf p) := by
      rw [hids, List.idxOf, List.findIdx_map, List.findIdx?_eq_some_iff_findIdx_eq]
      refine ⟨?_, ?_⟩
      · apply List.findIdx_lt_length_of_exists
        obtain ⟨e, he, rfl⟩ := List.mem_map.mp hmem
        exact ⟨e, List.mem_reverse.mpr he, by simp⟩
      · congr 1
    simp only [hfind, if_pos hmem, Nat.zero_add]
  · have hfind : (window o.capacity history).reverse.findIdx? (fun e => e.pageId = p) = none := by
      rw [List.findIdx?_eq_none_iff]
      intro e he
      simp only [decide_eq_false_iff_not]
      rintro rfl
      exact hmem (List.mem_map_of_mem (List.mem_reverse.mp he))
    simp only [hfind, if_neg hmem]

end Tracks

/-! ## Runs -/

/-- A call that records an access. -/
inductive Access where
  | page (pageId : Nat) (isHit : Bool)
  | record (rid : RecordID)
  deriving DecidableEq, Repr

/-- What a call records. -/
def Access.event : Access → PageAccessEvent
  | .page pageId isHit => ⟨pageId, isHit⟩
  | .record rid => ⟨rid.pageId, false⟩

/-- The effect of a call. -/
def access (o : AccessObserver) : Access → AccessObserver
  | .page pageId isHit => o.recordPageAccess pageId isHit
  | .record rid => o.recordRecordAccess rid

/-- An observer after some calls. -/
def observed (ringCapacity : Nat) (accesses : List Access) : AccessObserver :=
  accesses.foldl access (new ringCapacity)

theorem Tracks.access {o : AccessObserver} {history : List PageAccessEvent} (h : o.Tracks history)
    (a : Access) : (o.access a).Tracks (history ++ [a.event]) := by
  cases a with
  | page pageId isHit => exact h.record pageId isHit
  | record rid => exact h.record rid.pageId false

theorem tracks_observed {ringCapacity : Nat} (h : ringCapacity < 2 ^ 64) (accesses : List Access) :
    (observed ringCapacity accesses).Tracks (accesses.map Access.event) := by
  induction accesses using List.reverseRecOn with
  | nil => exact tracks_new h
  | append_singleton accesses a ih =>
      have hstep := ih.access a
      unfold observed at hstep ⊢
      rw [List.foldl_append, List.map_append]
      exact hstep

theorem capacity_observed (ringCapacity : Nat) (accesses : List Access) :
    (observed ringCapacity accesses).capacity = max ringCapacity 1 := by
  induction accesses using List.reverseRecOn with
  | nil =>
      show (if ringCapacity > 0 then ringCapacity else 1) = _
      split <;> omega
  | append_singleton accesses a ih =>
      have hsame : ((observed ringCapacity accesses).access a).capacity =
          (observed ringCapacity accesses).capacity := by cases a <;> rfl
      unfold observed at hsame ih ⊢
      rw [List.foldl_append]
      exact hsame.trans ih

/-- **The observer answers from the window of the last accesses**, for every requested capacity of
the ring and every sequence of calls. -/
theorem sliding_window (ringCapacity : Nat) (hring : ringCapacity < 2 ^ 64)
    (accesses : List Access) :
    let o := observed ringCapacity accesses
    let W := window (max ringCapacity 1) (accesses.map Access.event)
    o.getSize = W.length ∧ (∀ n ≥ W.length, o.getRecentPageAccesses n = W) ∧
      (∀ p, o.getAccessCount p = (pageIds W).count p) ∧
      (∀ p, o.getLastIndexInRecent p =
        if p ∈ pageIds W then (pageIds W).reverse.idxOf p else max ringCapacity 1) ∧
      o.totalRecorded = accesses.length := by
  have h := tracks_observed hring accesses
  have hcap := capacity_observed ringCapacity accesses
  intro o W
  have hW : W = window o.capacity (accesses.map Access.event) := by rw [hcap]
  refine ⟨?_, ?_, ?_, ?_, ?_⟩
  · rw [hW]
    exact h.size
  · intro n hn
    rw [hW] at hn ⊢
    exact h.recent_eq hn
  · intro p
    rw [hW]
    exact h.count_eq p
  · intro p
    rw [hW, ← hcap]
    exact h.lastIndex_eq p
  · rw [h.total, List.length_map]

/-- Page 7 leaves a window of two as page 7 enters it. -/
theorem sliding_window_two :
    let o := observed 2 [.page 7 false, .record ⟨5, 0⟩, .page 7 true]
    o.getSize = 2 ∧ (∀ n ≥ 2, o.getRecentPageAccesses n = [⟨5, false⟩, ⟨7, true⟩]) ∧
      o.getAccessCount 7 = 1 ∧ o.getLastIndexInRecent 7 = 0 ∧ o.getLastIndexInRecent 6 = 2 ∧
      o.totalRecorded = 3 := by
  obtain ⟨hsize, hrecent, hcount, hlast, htotal⟩ :=
    sliding_window 2 (by decide) [.page 7 false, .record ⟨5, 0⟩, .page 7 true]
  exact ⟨hsize, hrecent, hcount 7, hlast 7, hlast 6, htotal⟩

/-! ## The newest events

A request for fewer events than the ring holds starts at the slot of the oldest one as well. -/

/-- **The oldest of the stored events are returned**, as many as are asked for. They are the newest ones
exactly if the stored events repeat with the period that the request leaves out: always if it leaves
out none, or asks for none. -/
theorem newest_events_iff (ringCapacity : Nat) (hring : ringCapacity < 2 ^ 64)
    (accesses : List Access) (n : Nat) :
    let o := observed ringCapacity accesses
    let history := accesses.map Access.event
    let stored := window (max ringCapacity 1) history
    let newest := window (min n o.getSize) history
    o.getRecentPageAccesses n = stored.take (min n o.getSize) ∧
      o.getRecentPageIds n = pageIds (stored.take (min n o.getSize)) ∧
      ((o.getRecentPageAccesses n = newest ∧ o.getRecentPageIds n = pageIds newest) ↔
        RepeatsBy (o.getSize - min n o.getSize) stored) := by
  intro o history stored newest
  have h : o.Tracks history := tracks_observed hring accesses
  have hcap : o.capacity = max ringCapacity 1 := capacity_observed ringCapacity accesses
  have hwindow : stored = window o.capacity history := by rw [hcap]
  have hsize : o.getSize = stored.length := by
    rw [hwindow]
    exact h.size
  have holdest : o.getRecentPageAccesses n = stored.take (min n o.getSize) := by
    rw [hwindow]
    exact h.recent_take n
  have hids : ∀ events, o.getRecentPageAccesses n = events →
      o.getRecentPageIds n = pageIds events := by
    rintro events rfl
    rfl
  have hle : min n o.getSize ≤ stored.length := by omega
  have hnewest : newest = window (min n o.getSize) stored := by
    rw [hwindow] at hle ⊢
    exact (window_window hle).symm
  have hevents : o.getRecentPageAccesses n = newest ↔
      RepeatsBy (o.getSize - min n o.getSize) stored := by
    rw [hnewest, holdest]
    have hiff := take_eq_window_iff hle
    rw [← hsize] at hiff
    exact hiff
  refine ⟨holdest, hids _ holdest, ?_⟩
  constructor
  · rintro ⟨heq, -⟩
    exact hevents.mp heq
  · intro hrepeats
    have heq := hevents.mpr hrepeats
    exact ⟨heq, hids _ heq⟩

/-- A ring of four that has wrapped, two events that come twice. -/
theorem newest_events_iff_repeating :
    let o := observed 4 [.page 9 true, .page 7 false, .page 8 true, .page 7 false, .page 8 true]
    o.getRecentPageAccesses 2 = [⟨7, false⟩, ⟨8, true⟩] ∧ o.getRecentPageIds 2 = [7, 8] := by
  have hnewest := (newest_events_iff 4 (by decide)
    [.page 9 true, .page 7 false, .page 8 true, .page 7 false, .page 8 true] 2).2.2.mpr (by decide)
  exact hnewest

/-- Asked for the newest event of two, the observer returns the oldest. -/
theorem oldest_event_returned :
    let accesses := [Access.page 1 false, Access.page 2 true]
    (observed 2 accesses).getRecentPageAccesses 1 = [⟨1, false⟩] ∧
      window (min 1 (observed 2 accesses).getSize) (accesses.map Access.event) = [⟨2, true⟩] ∧
      (observed 2 accesses).getRecentPageIds 1 ≠ [2] := by
  decide

end AccessObserver

end Aqa
