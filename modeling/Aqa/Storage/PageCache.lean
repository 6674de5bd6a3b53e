/-
# Aqa.Storage.PageCache — the buffer pool.

`PageCache` keeps a fixed set of frames. `page_map_` says which frame holds a page, `lru_list_`
orders the resident pages by last fetch, `lru_iters_` points each page to its node of that list,
`free_frames_` lists the unused frames. A fetch pins its frame; the returned handle unpins it when
it is destroyed, which the model writes as an explicit `unpinPage`.

An eviction policy is a virtual object that may keep state and may read the observer. Everything it
can depend on is the sequence of calls made so far, so a policy is a function of that sequence
(`trace`) and of the candidates.
-/
import Aqa.Lib.StdList
import Aqa.Storage.MappedFile

namespace Aqa

open Aqa.Lib

/-- What an observer or a policy has seen of a page cache. -/
inductive CacheEvent where
  | access (pageId : Nat) (isHit : Bool)
  | victim (candidates : List Nat) (chosen : Nat)
  deriving DecidableEq, Repr

/-- `PageEvictionPolicy::choose_victim`, on the calls so far and the candidates in LRU order. -/
abbrev PageEvictionPolicy := List CacheEvent → List Nat → Nat

/-- `PageCache`, with the file it caches. A pin count does not overflow its `int` as long as fewer than
2^31 handles are live. -/
structure PageCache where
  file : MappedFile
  pool : List RawPage
  pinCounts : List Nat
  pageMap : AList (fun _ : Nat => Nat)
  lruList : StdList Nat
  lruIters : AList (fun _ : Nat => Nat)
  freeFrames : List Nat
  hits : Nat
  misses : Nat
  observed : Bool
  evictionPolicy : Option PageEvictionPolicy
  trace : List CacheEvent

/-- `PageHandle`: a lease on the frame a page was fetched into. -/
structure PageHandle where
  pageId : Nat
  frame : Nat
  deriving DecidableEq, Repr

namespace PageCache

/-- `PageCache::PageCache`. -/
def new (file : MappedFile) (capacity : Nat) (observed : Bool)
    (evictionPolicy : Option PageEvictionPolicy) : PageCache where
  file := file
  pool := List.replicate capacity RawPage.reset
  pinCounts := List.replicate capacity 0
  pageMap := ∅
  lruList := StdList.empty
  lruIters := ∅
  freeFrames := List.range capacity
  hits := 0
  misses := 0
  observed := observed
  evictionPolicy := evictionPolicy
  trace := []

/-- `page_map_[page_id]`. -/
def frameOf (c : PageCache) (pageId : Nat) : Nat := (c.pageMap.lookup pageId).getD 0

/-- `pin_counts_[frame]`. -/
def pinAt (c : PageCache) (frame : Nat) : Nat := c.pinCounts.getD frame 0

/-- `observer_->record_page_access`, when there is an observer. -/
def recordAccess (c : PageCache) (pageId : Nat) (isHit : Bool) : PageCache :=
  if c.observed then { c with trace := c.trace ++ [.access pageId isHit] } else c

/-- `PageCache::touch_page`. -/
def touchPage (c : PageCache) (pageId : Nat) : PageCache :=
  let it := (c.lruIters.lookup pageId).getD c.lruList.nextAddr
  let lruList := (c.lruList.erase it).pushFront pageId
  { c with
    lruList := lruList
    lruIters := c.lruIters.insert pageId lruList.begin }

/-- The unpinned resident pages, least recently fetched first. -/
def unpinnedLru (c : PageCache) : List Nat :=
  c.lruList.toList.reverse.filter (fun pid => c.pinAt (c.frameOf pid) == 0)

/-- The victim the policy names, or the front of the list. -/
def chooseVictim (c : PageCache) (front : Nat) (unpinned : List Nat) : Nat :=
  match c.evictionPolicy with
  | some policy => policy c.trace unpinned
  | none => front

/-- `PageCache::evict`: write the victim back and return its frame. -/
def evict : EStateM Error PageCache Nat := fun c =>
  match c.unpinnedLru with
  | [] => .error (.runtimeError "Buffer Pool Full: All pages are pinned..") c
  | front :: rest =>
      let victim := c.chooseVictim front (front :: rest)
      let frame := c.frameOf victim
      .ok frame
        { c with
          file := c.file.storePage victim (c.pool.getD frame RawPage.reset)
          pageMap := c.pageMap.erase victim
          lruIters := c.lruIters.erase victim
          lruList :=
            match c.lruList.find? victim with
            | some it => c.lruList.erase it
            | none => c.lruList
          trace :=
            match c.evictionPolicy with
            | some _ => c.trace ++ [.victim (front :: rest) victim]
            | none => c.trace }

/-- A frame for a page that is not resident: a free one or a victim's. -/
def takeFrame : EStateM Error PageCache Nat := fun c =>
  match c.freeFrames with
  | frame :: rest => .ok frame { c with freeFrames := rest }
  | [] => evict c

/-- The hit branch of `get_page_internal`. -/
def hitPage (c : PageCache) (pageId : Nat) : EStateM.Result Error PageCache Nat :=
  let c := ({ c with hits := c.hits + 1 }.recordAccess pageId true).touchPage pageId
  let frame := c.frameOf pageId
  .ok frame { c with pinCounts := c.pinCounts.set frame (c.pinAt frame + 1) }

/-- Copy a page into a frame and make it the most recent one, pinned once. -/
def installPage (c : PageCache) (pageId frame : Nat) : PageCache :=
  let lruList := c.lruList.pushFront pageId
  { c with
    pool := c.pool.set frame (c.file.loadPage pageId)
    pageMap := c.pageMap.insert pageId frame
    lruList := lruList
    lruIters := c.lruIters.insert pageId lruList.begin
    pinCounts := c.pinCounts.set frame 1 }

/-- `PageCache::get_page_internal`; the result is the frame whose address the page holds. -/
def getPageInternal (pageId : Nat) : EStateM Error PageCache Nat := fun c =>
  match c.pageMap.lookup pageId with
  | some _ => c.hitPage pageId
  | none =>
      match takeFrame ({ c with misses := c.misses + 1 }.recordAccess pageId false) with
      | .error e c => .error e c
      | .ok frame c => .ok frame (c.installPage pageId frame)

/-- `PageCache::fetch_page`. -/
def fetchPage (pageId : Nat) : EStateM Error PageCache PageHandle := do
  let frame ← getPageInternal pageId
  return ⟨pageId, frame⟩

/-- `PageCache::unpin_page`, called when a handle is destroyed. -/
def unpinPage (c : PageCache) (pageId : Nat) : PageCache :=
  match c.pageMap.lookup pageId with
  | some frame =>
      if c.pinAt frame > 0 then
        { c with pinCounts := c.pinCounts.set frame (c.pinAt frame - 1) }
      else c
  | none => c

/-- `memcpy(get_page(page_id), &pool_[frame], PAGE_SIZE)`. -/
def writeBack (c : PageCache) (pageId frame : Nat) : PageCache :=
  { c with file := c.file.storePage pageId (c.pool.getD frame RawPage.reset) }

/-- `PageCache::flush_page`. -/
def flushPage (c : PageCache) (pageId : Nat) : PageCache :=
  match c.pageMap.lookup pageId with
  | some frame => c.writeBack pageId frame
  | none => c

/-- `PageCache::flush_all`, which visits `page_map_` in no particular order. -/
def flushAll (c : PageCache) : PageCache :=
  c.pageMap.entries.foldl (fun c entry => c.writeBack entry.1 entry.2) c

/-- A write through a page handle: the bytes go into its frame. -/
def writeFrame (c : PageCache) (h : PageHandle) (off : Nat) (bytes : Bytes) : PageCache :=
  { c with pool := c.pool.set h.frame ((c.pool.getD h.frame RawPage.reset).write off bytes) }

/-- The page a handle shows. -/
def pageOf (c : PageCache) (h : PageHandle) : RawPage := c.pool.getD h.frame RawPage.reset

end PageCache

end Aqa
