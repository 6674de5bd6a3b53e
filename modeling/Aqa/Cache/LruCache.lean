/-
# Aqa.Cache.LruCache — the record cache.

`LruCache` keeps the cached records in a list, most recently used first, and a hash map from each
key to its node of that list. A put into a full cache asks the eviction policy for a position in
the list read from the back and falls back to the back itself; an index out of range is clamped to
that position as well. With no entry at all the clamped position does not exist either, and
`iters_lru[0]` is read past the end of an empty vector.
-/
import Aqa.Lib.StdList
import Aqa.Storage.Page

namespace Aqa

open Aqa.Lib

/-- `LruCache::CacheEntry`. -/
structure CacheEntry where
  key : Bytes
  value : Bytes
  deriving DecidableEq, Repr

/-- `RecordEvictionPolicy::choose_victim`, on the candidate lists of the calls so far and the
present one. -/
abbrev RecordEvictionPolicy := List (List Bytes) → List Bytes → Nat

/-- `LruRecordEvictionPolicy::choose_victim`. -/
def lruRecordVictim : RecordEvictionPolicy := fun _ _ => 0

/-- `LruCache`. -/
structure LruCache where
  capacity : Nat
  hits : Nat
  misses : Nat
  list : StdList CacheEntry
  map : AList (fun _ : Bytes => Nat)
  evictionPolicy : Option RecordEvictionPolicy
  trace : List (List Bytes)

namespace LruCache

/-- `LruCache::LruCache`. -/
def new (capacity : Nat) (evictionPolicy : Option RecordEvictionPolicy) : LruCache where
  capacity := capacity
  hits := 0
  misses := 0
  list := StdList.empty
  map := ∅
  evictionPolicy := evictionPolicy
  trace := []

/-- `LruCache::get`. -/
def get (c : LruCache) (key : Bytes) : Option Bytes × LruCache :=
  match c.map.lookup key with
  | none => (none, { c with misses := c.misses + 1 })
  | some it =>
      let c := { c with hits := c.hits + 1, list := c.list.spliceFront it }
      ((c.list.deref? it).map CacheEntry.value, c)

/-- The nodes from back to front. -/
def itersLru (c : LruCache) : List (Nat × CacheEntry) := c.list.nodes.reverse

/-- The position of the victim in `itersLru`, before it is clamped. -/
def victimIdx (c : LruCache) (keyPtrs : List Bytes) : Nat :=
  match c.evictionPolicy with
  | some policy => policy c.trace keyPtrs
  | none => 0

/-- The eviction of a put into a full cache. -/
def evict : EStateM Error LruCache Unit := fun c =>
  let keyPtrs := c.itersLru.map (fun node => node.2.key)
  let idx := c.victimIdx keyPtrs
  let idx := if idx ≥ c.itersLru.length then 0 else idx
  match c.itersLru[idx]? with
  | none => .error (.undefinedBehaviour "iters_lru[victim_idx] past the end") c
  | some (it, entry) =>
      .ok ()
        { c with
          map := c.map.erase entry.key
          list := c.list.erase it
          trace := if c.evictionPolicy.isSome then c.trace ++ [keyPtrs] else c.trace }

/-- Insert a key that is not cached. -/
def pushFront (c : LruCache) (key value : Bytes) : LruCache :=
  let list := c.list.pushFront ⟨key, value⟩
  { c with
    list := list
    map := c.map.insert key list.begin }

/-- `LruCache::put`. -/
def put (key value : Bytes) : EStateM Error LruCache Unit := fun c =>
  match c.map.lookup key with
  | some it =>
      .ok ()
        { c with
          list := (c.list.spliceFront it).modify it (fun entry => { entry with value := value }) }
  | none =>
      if c.list.size ≥ c.capacity then
        match evict c with
        | .error err c => .error err c
        | .ok () c => .ok () (c.pushFront key value)
      else
        .ok () (c.pushFront key value)

end LruCache

end Aqa
