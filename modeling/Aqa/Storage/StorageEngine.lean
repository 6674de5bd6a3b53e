/-
# Aqa.Storage.StorageEngine — the facade over the mapped file and its page cache.

The engine owns the file and the cache; the cache refers to the file, so the model keeps the file
inside the cache. No eviction policy is passed on. `prefetch_page` only starts a detached thread and
returns; those threads are not part of this model.
-/
import Aqa.Storage.PageCache

namespace Aqa

open Aqa.Lib

/-- `StorageEngine`. -/
structure StorageEngine where
  cache : PageCache

namespace StorageEngine

/-- `StorageEngine::StorageEngine`. -/
def new (file : Option Bytes) (cacheCapacity : Nat) (observed : Bool) : StorageEngine :=
  ⟨PageCache.new (MappedFile.new file) cacheCapacity observed none⟩

/-- `*file_`. -/
def file (e : StorageEngine) : MappedFile := e.cache.file

/-- `StorageEngine::get_total_pages`. -/
def getTotalPages (e : StorageEngine) : Nat := e.file.pageCount

/-- `StorageEngine::fetch_page`. -/
def fetchPage (pageId : Nat) : EStateM Error StorageEngine PageHandle := fun e =>
  if pageId ≥ e.getTotalPages then
    .error (.runtimeError ("Page ID out of bounds: " ++ toString pageId)) e
  else
    match PageCache.fetchPage pageId e.cache with
    | .ok h cache => .ok h { e with cache := cache }
    | .error err cache => .error err { e with cache := cache }

/-- The destructor of a page handle. -/
def releasePage (e : StorageEngine) (h : PageHandle) : StorageEngine :=
  { e with cache := e.cache.unpinPage h.pageId }

/-- The page a handle shows. -/
def pageOf (e : StorageEngine) (h : PageHandle) : RawPage := e.cache.pageOf h

/-- The header fields `allocate_page` sets through its handle. -/
def initHeader (c : PageCache) (h : PageHandle) : PageCache :=
  ((c.writeFrame h 4 (leBytes 4 h.pageId)).writeFrame h 0 (leBytes 4 PAGE_MAGIC)).writeFrame h 8
    (leBytes 4 0xFFFFFFFF)

/-- `StorageEngine::allocate_page`, with system calls that succeed. -/
def allocatePage : EStateM Error StorageEngine PageHandle := fun e =>
  let newPageId := e.getTotalPages
  let grown : PageCache := { e.cache with file := e.file.growFile (u32 (newPageId + 1)) }
  match PageCache.fetchPage newPageId grown with
  | .ok h cache => .ok h { e with cache := initHeader cache h }
  | .error err cache => .error err { e with cache := cache }

/-- `StorageEngine::flush_all`. -/
def flushAll (e : StorageEngine) : StorageEngine := { e with cache := e.cache.flushAll }

/-- The file after a stream has written to it behind the mapping. -/
def setBytes (e : StorageEngine) (bytes : Bytes) : StorageEngine :=
  { e with cache := { e.cache with file := { e.cache.file with bytes := bytes } } }

end StorageEngine

end Aqa
