/-
# Aqa.Storage.Prefetch — a scan and the prefetch threads it starts.

At the end of each page `scan` calls `prefetch_page` for the next pages; each call starts a detached
thread that fetches its page, drops the handle, and swallows exceptions. The threads are never
joined. `ScanWorld` is the engine with the scanning thread and the prefetch threads on it, and a turn
is what one of them does between two entries into the mutex of the cache: a fetch with what is read
through the handle, or a release. A schedule gives the turns in any order.

`StorageReader.scan` is the same scan with `prefetch_page` made a no-op.
-/
import Aqa.Lib.Schedule
import Aqa.Storage.StorageReader

namespace Aqa

open Aqa.Lib StorageReader

/-- `PREFETCH_LOOKAHEAD`. -/
def PREFETCH_LOOKAHEAD : Nat := 2

/-- A prefetch thread: before its fetch, with its handle, or at its end. -/
inductive PrefetchThread where
  | started (pageId : Nat)
  | holding (handle : PageHandle)
  | finished
  deriving DecidableEq, Repr

/-- Where the scanning thread is: before the fetch of page `pid`; before slot `sid` of it, with the
handle of the page; inside `read_record` of that slot, with its handle as well; after the slots; or
at its end. -/
inductive ScanPoint where
  | atPage (pid : Nat)
  | atSlot (pid : Nat) (page : PageHandle) (slotCount sid : Nat)
  | inSlot (pid : Nat) (page : PageHandle) (slotCount sid : Nat) (record : PageHandle)
  | afterSlots (pid : Nat) (page : PageHandle)
  | done
  | threw (err : Error)
  deriving DecidableEq, Repr

/-- An engine, a scan on it that passes its visits to a callback, and the prefetch threads. -/
structure ScanWorld (σ : Type) where
  engine : StorageEngine
  totalPages : Nat
  threads : List PrefetchThread
  point : ScanPoint
  state : σ

/-- Whose turn it is. -/
inductive Turn where
  | scan
  | thread (i : Nat)
  deriving DecidableEq, Repr

/-- `StorageEngine::prefetch_page`. -/
def StorageEngine.prefetchPage (e : StorageEngine) (pageId : Nat) (threads : List PrefetchThread) :
    List PrefetchThread :=
  if pageId ≥ e.getTotalPages then threads else threads ++ [.started pageId]

/-- The pages the loop at the end of a page asks for: it stops at the first one out of range. -/
def lookahead (totalPages pid : Nat) : List Nat :=
  ((List.range PREFETCH_LOOKAHEAD).map fun k => pid + (k + 1)).takeWhile (· < totalPages)

namespace ScanWorld

variable {σ : Type}

/-- A turn of the scanning thread. When an exception leaves the loop body the handles are destroyed. -/
def scanTurn (callback : Callback σ) (w : ScanWorld σ) : ScanWorld σ :=
  match w.point with
  | .atPage pid =>
      if pid < w.totalPages then
        match StorageEngine.fetchPage pid w.engine with
        | .ok page e => { w with engine := e, point := .atSlot pid page (slotCount (e.pageOf page)) 0 }
        | .error err e => { w with engine := e, point := .threw err }
      else { w with point := .done }
  | .atSlot pid page count sid =>
      if sid < count then
        -- `read_record`, from its bounds check to its fetch
        if pid ≥ w.engine.getTotalPages then { w with point := .atSlot pid page count (sid + 1) }
        else
          match StorageEngine.fetchPage pid w.engine with
          | .ok record e => { w with engine := e, point := .inSlot pid page count sid record }
          | .error err e => { w with engine := e.releasePage page, point := .threw err }
      else
        { w with
          threads := (lookahead w.totalPages pid).foldl (fun ts p => w.engine.prefetchPage p ts)
            w.threads
          point := .afterSlots pid page }
  | .inSlot pid page count sid record =>
      let e := w.engine.releasePage record
      match parseRecord (w.engine.pageOf record) sid with
      | .absent => { w with engine := e, point := .atSlot pid page count (sid + 1) }
      | .found r =>
          { w with
            engine := e
            point := .atSlot pid page count (sid + 1)
            state := callback ⟨pid, sid⟩ r.key r.value w.state }
      | .outside =>
          { w with
            engine := e.releasePage page
            point := .threw (.undefinedBehaviour "read outside the page") }
  | .afterSlots pid page =>
      { w with engine := w.engine.releasePage page, point := .atPage (pid + 1) }
  | .done => w
  | .threw _ => w

/-- A turn of a prefetch thread. -/
def threadTurn (w : ScanWorld σ) (i : Nat) : ScanWorld σ :=
  match w.threads[i]? with
  | some (.started p) =>
      match StorageEngine.fetchPage p w.engine with
      | .ok h e => { w with engine := e, threads := w.threads.set i (.holding h) }
      | .error _ e => { w with engine := e, threads := w.threads.set i .finished }
  | some (.holding h) =>
      { w with engine := w.engine.releasePage h, threads := w.threads.set i .finished }
  | _ => w

/-- A turn. -/
def turn (callback : Callback σ) (w : ScanWorld σ) : Turn → ScanWorld σ
  | .scan => w.scanTurn callback
  | .thread i => w.threadTurn i

/-- A scan before its first step. -/
def start (e : StorageEngine) (s : σ) : ScanWorld σ := ⟨e, e.getTotalPages, [], .atPage 0, s⟩

/-- The world after the turns of a schedule. -/
def run (callback : Callback σ) (schedule : List Turn) (w : ScanWorld σ) : ScanWorld σ :=
  Schedule.run (turn callback) schedule w

end ScanWorld

/-- **Prefetching does not show.** The scan without prefetching completes; with it, under every
schedule, the scanning thread never throws, and when it has had enough turns it is done and has passed
the same visits to the callback. -/
def PrefetchTransparent {σ : Type} (callback : Callback σ) (e : StorageEngine) (s : σ) : Prop :=
  ∃ e' s', StorageReader.scan callback (e, s) = .ok () (e', s') ∧
    ∃ turns, ∀ schedule, ∀ w, w = ScanWorld.run callback schedule (ScanWorld.start e s) →
      (∀ err, w.point ≠ .threw err) ∧
      (turns ≤ schedule.count .scan → w.point = .done ∧ w.state = s')

end Aqa
