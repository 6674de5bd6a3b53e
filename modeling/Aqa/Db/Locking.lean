/-
# Aqa.Db.Locking — the mutexes of the database, and why no client waits for ever.

Every function that takes a mutex is written down as what it does to the mutexes: which it holds while
it calls which other functions, where it can throw, and which destructors run on the way out. What the
functions compute is left out, so a branch can go either way and a loop can run any number of times.

The mutexes are ranked by the order in which they are taken. `get` and `put` hold the mutex of the
database; a replay holds that of the log while its visitor fills the record cache; a page cache holds
its own while it asks observer and policy. A scan holds nothing while it calls back, so a callback can
call the database again.
-/
import Aqa.Lib.LockScopes

namespace Aqa

open Aqa.Lib LockScopes

/-- The mutexes. -/
inductive Mutex where
  | rwMutex
  | wal
  | recordCache
  | pageCache
  | observer
  deriving DecidableEq, Repr

/-- The order in which the mutexes are taken. -/
def Mutex.rank : Mutex → Nat
  | .rwMutex => 0
  | .wal => 1
  | .recordCache => 2
  | .pageCache => 3
  | .observer => 4

namespace Locking

/-- A `lock_guard` or `unique_lock` around some code. -/
def guarded (m : Mutex) (body : Code Mutex) : Code Mutex := .scope m .exclusive body

/-! ## `AccessObserver` and the policies -/

/-- `record_page_access`, and `record_record_access`, which calls it. -/
def recordPageAccess : Code Mutex := guarded .observer .skip

/-- `get_recent_page_accesses`, `get_size`, `get_access_count`, `get_last_index_in_recent`. -/
def observerQuery : Code Mutex := guarded .observer .skip

/-- `choose_victim`: a policy asks its observer as often as it wants. -/
def chooseVictim : Code Mutex := .loop observerQuery

/-! ## `PageCache` and `StorageEngine` -/

/-- `PageCache::evict`. -/
def evict : Code Mutex := .choice .throw (.choice chooseVictim .skip)

/-- `PageCache::get_page_internal`. -/
def getPageInternal : Code Mutex :=
  .seq (.choice recordPageAccess .skip) (.choice .skip evict)

/-- `PageCache::fetch_page`. -/
def fetchPage : Code Mutex := guarded .pageCache getPageInternal

/-- `PageCache::unpin_page`. -/
def unpinPage : Code Mutex := guarded .pageCache .skip

/-- `PageCache::flush_page` and `flush_all`, whose `msync` can fail. -/
def flushPages : Code Mutex := guarded .pageCache (.choice .skip .throw)

/-- A fetch with the life of the handle it returns: `~PageHandle` unpins, on every exit. -/
def leased (body : Code Mutex) : Code Mutex := .seq fetchPage (.ensure body unpinPage)

/-- `StorageEngine::fetch_page`, which checks the page id first. -/
def withPage (body : Code Mutex) : Code Mutex := .choice .throw (leased body)

/-- `StorageEngine::allocate_page`, which grows the file first. -/
def withNewPage (body : Code Mutex) : Code Mutex := .choice .throw (leased body)

/-- `StorageEngine::prefetch_page`: starting the thread can fail. -/
def prefetchPage : Code Mutex := .choice .skip .throw

/-- The detached thread of a prefetch, which swallows its exceptions. -/
def prefetchThread : Code Mutex := .attempt (withPage .skip)

/-! ## `StorageReader`, `WalManager` and `LruCache` -/

/-- `StorageReader::read_record`. -/
def readRecord : Code Mutex := .choice .skip (withPage .skip)

/-- `StorageReader::scan`. -/
def readerScan (callback : Code Mutex) : Code Mutex :=
  .loop (withPage (.seq (.loop (.seq readRecord (.choice callback .skip))) (.loop prefetchPage)))

/-- `WalManager::append` and `WalManager::truncate`. -/
def walAppend : Code Mutex := guarded .wal .skip

/-- `WalManager::replay`. -/
def walReplay (visitor : Code Mutex) : Code Mutex := guarded .wal (.choice .skip (.loop visitor))

/-- `LruCache::get` and `LruCache::put`. -/
def recordCacheCall : Code Mutex := guarded .recordCache .skip

/-! ## `Database` -/

/-- `StorageWriter::append`, which takes no mutex. -/
def writerAppend : Code Mutex := .choice .skip .throw

/-- The visitor of the constructor. -/
def replayVisitor : Code Mutex := .seq writerAppend recordCacheCall

/-- `Database::Database`, with `recover`. -/
def newDatabase : Code Mutex := .seq (walReplay replayVisitor) (.choice .skip (readerScan .skip))

/-- `Database::put`. -/
def put : Code Mutex := guarded .rwMutex (.seq walAppend (.seq writerAppend recordCacheCall))

/-- `Database::get`. -/
def get : Code Mutex :=
  .scope .rwMutex .shared
    (.seq recordCacheCall (.choice .skip (.seq readRecord (.choice recordCacheCall .skip))))

/-- `Database::scan`, which holds no mutex of its own. -/
def scan (callback : Code Mutex) : Code Mutex := readerScan callback

/-- `Database::get_record_count`. -/
def getRecordCount : Code Mutex := .scope .rwMutex .shared .skip

/-- What a thread of a program can do, a prefetch thread or one of a client: call the database and its
parts in any way, from the callbacks of scans too, keep page handles as long as it likes, and throw
and catch. `Visits` says which visitors it hands to a replay, which calls them under the mutex of the
log. -/
inductive ClientCode (Visits : Code Mutex → Prop) : Code Mutex → Prop where
  | skip : ClientCode Visits .skip
  | throw : ClientCode Visits .throw
  | seq {a b : Code Mutex} : ClientCode Visits a → ClientCode Visits b → ClientCode Visits (.seq a b)
  | choice {a b : Code Mutex} :
      ClientCode Visits a → ClientCode Visits b → ClientCode Visits (.choice a b)
  | loop {a : Code Mutex} : ClientCode Visits a → ClientCode Visits (.loop a)
  | attempt {a : Code Mutex} : ClientCode Visits a → ClientCode Visits (.attempt a)
  | newDatabase : ClientCode Visits newDatabase
  | put : ClientCode Visits put
  | get : ClientCode Visits get
  | scan {callback : Code Mutex} : ClientCode Visits callback → ClientCode Visits (scan callback)
  | getRecordCount : ClientCode Visits getRecordCount
  | withPage {body : Code Mutex} : ClientCode Visits body → ClientCode Visits (withPage body)
  | withNewPage {body : Code Mutex} : ClientCode Visits body → ClientCode Visits (withNewPage body)
  | flushPages : ClientCode Visits flushPages
  | prefetchThread : ClientCode Visits prefetchThread
  | walAppend : ClientCode Visits walAppend
  | walReplay {visitor : Code Mutex} : Visits visitor → ClientCode Visits (walReplay visitor)
  | recordCacheCall : ClientCode Visits recordCacheCall
  | recordPageAccess : ClientCode Visits recordPageAccess
  | observerQuery : ClientCode Visits observerQuery

/-! ## The order -/

theorem ordered_fetchPage : fetchPage.Ordered Mutex.rank 3 := by
  simp [fetchPage, getPageInternal, evict, chooseVictim, observerQuery, recordPageAccess, guarded,
    Code.Ordered, Mutex.rank]

theorem ordered_unpinPage : unpinPage.Ordered Mutex.rank 3 := by
  simp [unpinPage, guarded, Code.Ordered, Mutex.rank]

theorem ordered_withPage {body : Code Mutex} {bound : Nat} (hbound : bound ≤ 3)
    (h : body.Ordered Mutex.rank bound) : (withPage body).Ordered Mutex.rank bound :=
  ⟨trivial, ordered_fetchPage.mono hbound, h, ordered_unpinPage.mono hbound⟩

theorem ordered_readRecord {bound : Nat} (hbound : bound ≤ 3) :
    readRecord.Ordered Mutex.rank bound := ⟨trivial, ordered_withPage hbound trivial⟩

/-- A scan takes nothing that its callback does not take, but the mutex of the page cache. -/
theorem ordered_readerScan {callback : Code Mutex} {bound : Nat} (hbound : bound ≤ 3)
    (h : callback.Ordered Mutex.rank bound) : (readerScan callback).Ordered Mutex.rank bound :=
  ordered_withPage hbound ⟨⟨ordered_readRecord hbound, h, trivial⟩, trivial, trivial⟩

theorem ordered_recordCacheCall : recordCacheCall.Ordered Mutex.rank 2 := ⟨le_rfl, trivial⟩

/-- The visitor of the constructor runs under the mutex of the log. -/
theorem ordered_newDatabase : newDatabase.Ordered Mutex.rank 1 :=
  ⟨⟨le_rfl, trivial, ⟨trivial, trivial⟩, ordered_recordCacheCall⟩, trivial,
    ordered_readerScan (by omega) trivial⟩

theorem ordered_put : put.Ordered Mutex.rank 0 :=
  ⟨le_rfl, ⟨le_rfl, trivial⟩, ⟨trivial, trivial⟩, ordered_recordCacheCall.mono (by decide)⟩

theorem ordered_get : get.Ordered Mutex.rank 0 :=
  ⟨le_rfl, ordered_recordCacheCall.mono (by decide), trivial, ordered_readRecord (by decide),
    ordered_recordCacheCall.mono (by decide), trivial⟩

/-- The visitors take only mutexes behind that of the log. -/
def BehindLog (Visits : Code Mutex → Prop) : Prop :=
  ∀ visitor, Visits visitor → visitor.Ordered Mutex.rank (Mutex.wal.rank + 1)

/-- **The mutexes are taken in one order**, by whatever a thread does. -/
theorem ClientCode.ordered {Visits : Code Mutex → Prop} (hvisits : BehindLog Visits) {c : Code Mutex}
    (h : ClientCode Visits c) : c.Ordered Mutex.rank 0 := by
  induction h with
  | skip => trivial
  | throw => trivial
  | seq _ _ iha ihb => exact ⟨iha, ihb⟩
  | choice _ _ iha ihb => exact ⟨iha, ihb⟩
  | loop _ ih => exact ih
  | attempt _ ih => exact ih
  | newDatabase => exact ordered_newDatabase.mono (Nat.zero_le _)
  | put => exact ordered_put
  | get => exact ordered_get
  | scan _ ih => exact ordered_readerScan (Nat.zero_le _) ih
  | getRecordCount => exact ⟨le_rfl, trivial⟩
  | withPage _ ih => exact ordered_withPage (Nat.zero_le _) ih
  | withNewPage _ ih => exact ordered_withPage (Nat.zero_le _) ih
  | flushPages => exact ⟨Nat.zero_le _, trivial, trivial⟩
  | prefetchThread => exact ordered_withPage (Nat.zero_le _) trivial
  | walAppend => exact ⟨Nat.zero_le _, trivial⟩
  | walReplay hvisitor =>
      have hbehind := hvisits _ hvisitor
      exact ⟨Nat.zero_le _, trivial, hbehind⟩
  | recordCacheCall => exact ordered_recordCacheCall.mono (Nat.zero_le _)
  | recordPageAccess => exact ⟨Nat.zero_le _, trivial⟩
  | observerQuery => exact ⟨Nat.zero_le _, trivial⟩

/-- **No client waits for ever.** Any number of threads, each on any run of what a client can do, in
any order of their turns, so that a thread can also come in late, when no visitor handed to a replay
takes the mutex of the log or of the database: as long as one of them is not at its end some thread
can go on, whatever the mutexes do with threads that wait, and everything done so far can be continued
until all threads are at their ends. -/
theorem no_deadlock {Visits : Code Mutex → Prop} (hvisits : BehindLog Visits)
    (programs : List (List (Action Mutex)))
    (hprograms : ∀ tr ∈ programs, ∃ c thrown, ClientCode Visits c ∧ c.Runs tr thrown)
    (schedule : List Nat) :
    let w := run schedule (start programs)
    ((∃ t ∈ w, ¬ t.Finished) → ∃ i, Able w i) ∧ ∃ more, ∀ t ∈ run more w, t.Finished := by
  have hstart : InOrder Mutex.rank (start programs) := by
    apply inOrder_start
    intro tr htr
    obtain ⟨c, thrown, hclient, hruns⟩ := hprograms tr htr
    have hasc : Ascending Mutex.rank [] (tr ++ []) :=
      hruns.ascending (hclient.ordered hvisits) (by simp) rfl
    rwa [List.append_nil] at hasc
  exact ⟨fun hrest => (hstart.run schedule).exists_able hrest, (hstart.run schedule).completes⟩

/-- A put and a get of two clients, and a replay with the visitor of the constructor: the first two have
each taken a mutex that the other wants, and the third wants the one of the log. -/
theorem no_deadlock_put_get_replay :
    ∃ more, ∀ t ∈ run more (run [0, 1, 0, 1, 2]
      (start ([[.acquire .rwMutex .exclusive, .acquire .wal .exclusive, .release .wal,
          .acquire .recordCache .exclusive, .release .recordCache, .release .rwMutex],
        [.acquire .rwMutex .shared, .acquire .recordCache .exclusive, .release .recordCache,
          .release .rwMutex],
        [.acquire .wal .exclusive, .acquire .recordCache .exclusive, .release .recordCache,
          .release .wal]] : List (List (Action Mutex))))), t.Finished := by
  have hvisits : BehindLog fun visitor => visitor = replayVisitor := by
    rintro visitor rfl
    exact ⟨⟨trivial, trivial⟩, ordered_recordCacheCall⟩
  refine (no_deadlock hvisits _ ?_ [0, 1, 0, 1, 2]).2
  have hguard : ∀ m : Mutex, (guarded m .skip).Runs [.acquire m .exclusive, .release m] false :=
    fun m => .scope .skip
  intro tr htr
  rcases List.mem_cons.mp htr with rfl | htr
  · refine ⟨put, false, .put, ?_⟩
    exact .scope (.seq (hguard .wal) (.seq (.left .skip) (hguard .recordCache)))
  rcases List.mem_pair.mp htr with rfl | rfl
  · refine ⟨get, false, .get, ?_⟩
    exact .scope (.seq (hguard .recordCache) (.left .skip))
  · refine ⟨walReplay replayVisitor, false, .walReplay rfl, ?_⟩
    exact .scope (.right (.loopNext (.seq (.left .skip) (hguard .recordCache)) .loopDone))

-- a visitor that appends to the log it is called for waits for itself
example :
    ¬ (walReplay walAppend).Ordered Mutex.rank 0 ∧
      (run [0, 0, 0, 0] (start [[.acquire Mutex.wal .exclusive, .acquire .wal .exclusive,
        .release .wal, .release .wal]])).all fun t => decide (t.todo.length = 3) := by
  refine ⟨fun h => ?_, by decide⟩
  exact absurd h.2.2.1 (by decide)

end Locking

end Aqa
