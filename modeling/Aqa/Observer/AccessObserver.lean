/-
# Aqa.Observer.AccessObserver — the sliding window of recent accesses.

`AccessObserver` keeps the last `capacity` accesses in a ring and a count per page over what the
ring holds. `head` is the slot the next access is written to; while the ring is not full its content
starts at slot 0, afterwards at `head`.
-/
import Mathlib.Data.List.AList
import Aqa.Storage.Page

namespace Aqa

/-- `PageAccessEvent`. -/
structure PageAccessEvent where
  pageId : Nat := 0
  isHit : Bool := false
  deriving DecidableEq, Repr, Inhabited

/-- `AccessObserver`. The count of all accesses does not wrap below 2^64 of them. -/
structure AccessObserver where
  capacity : Nat
  ring : List PageAccessEvent
  pageAccessCounts : AList (fun _ : Nat => Nat)
  head : Nat
  size : Nat
  totalRecorded : Nat

namespace AccessObserver

/-- `AccessObserver::AccessObserver`. -/
def new (ringCapacity : Nat) : AccessObserver where
  capacity := if ringCapacity > 0 then ringCapacity else 1
  ring := List.replicate (if ringCapacity > 0 then ringCapacity else 1) {}
  pageAccessCounts := ∅
  head := 0
  size := 0
  totalRecorded := 0

/-- The event in a slot of the ring. -/
def slot (o : AccessObserver) (idx : Nat) : PageAccessEvent := o.ring.getD idx {}

/-- `get_size`. -/
def getSize (o : AccessObserver) : Nat := o.size

/-- `get_access_count`. -/
def getAccessCount (o : AccessObserver) (pageId : Nat) : Nat :=
  (o.pageAccessCounts.lookup pageId).getD 0

/-- The counts without the event that a full ring is about to lose. -/
def dropOldest (o : AccessObserver) : AList (fun _ : Nat => Nat) :=
  if o.size = o.capacity then
    let oldId := (o.slot o.head).pageId
    match o.pageAccessCounts.lookup oldId with
    | some count =>
        if count ≤ 1 then o.pageAccessCounts.erase oldId
        else o.pageAccessCounts.insert oldId (count - 1)
    | none => o.pageAccessCounts
  else o.pageAccessCounts

/-- `record_page_access`. -/
def recordPageAccess (o : AccessObserver) (pageId : Nat) (isHit : Bool) : AccessObserver :=
  let counts := o.dropOldest
  { o with
    pageAccessCounts := counts.insert pageId (u64 ((counts.lookup pageId).getD 0 + 1))
    ring := o.ring.set o.head ⟨pageId, isHit⟩
    head := (o.head + 1) % o.capacity
    size := if o.size < o.capacity then o.size + 1 else o.size
    totalRecorded := o.totalRecorded + 1 }

/-- `record_record_access`. -/
def recordRecordAccess (o : AccessObserver) (rid : RecordID) : AccessObserver :=
  o.recordPageAccess rid.pageId false

/-- The loop of `get_recent_page_accesses`: `n` slots from `idx` on. -/
def readSlots (o : AccessObserver) : Nat → Nat → List PageAccessEvent
  | 0, _ => []
  | n + 1, idx => o.slot idx :: readSlots o n ((idx + 1) % o.capacity)

/-- `get_recent_page_accesses`. -/
def getRecentPageAccesses (o : AccessObserver) (n : Nat) : List PageAccessEvent :=
  o.readSlots (min n o.size) ((o.head + o.capacity - o.size) % o.capacity)

/-- `get_recent_page_ids`. -/
def getRecentPageIds (o : AccessObserver) (n : Nat) : List Nat :=
  (o.getRecentPageAccesses n).map PageAccessEvent.pageId

/-- The loop of `get_last_index_in_recent`: `n` slots backwards, the next one at distance `i`. -/
def findBack (o : AccessObserver) (pageId : Nat) : Nat → Nat → Nat
  | 0, _ => o.capacity
  | n + 1, i =>
      if (o.slot ((o.head + o.capacity - 1 - i) % o.capacity)).pageId = pageId then i
      else findBack o pageId n (i + 1)

/-- `get_last_index_in_recent`. -/
def getLastIndexInRecent (o : AccessObserver) (pageId : Nat) : Nat := o.findBack pageId o.size 0

end AccessObserver

end Aqa
