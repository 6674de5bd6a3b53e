/-
# Aqa.Db.Database — the key-value store on top of the components.

`Database` owns an engine, a writer and a reader on one data file, the log beside it, the index and
the record cache. The model is sequential: locks, timing and the workload hint are left out.

The constructor opens the components, replays the log through the writer, the index and the record
cache, and then rebuilds the index from the pages the engine mapped. An exception in it destroys the
members built so far, which makes the writer flush; `new` reports the files as they are then.
-/
import Aqa.Cache.LruCache
import Aqa.Index.Index
import Aqa.Wal.WalManager

namespace Aqa

open Aqa.Lib

/-- The two files of a database; `none` is a file that does not exist. -/
structure Disk where
  data : Option Bytes
  wal : Option Bytes
  deriving DecidableEq, Repr

/-- Nothing on disk yet. -/
def Disk.empty : Disk := ⟨none, none⟩

/-- The constructor's arguments beside the path. -/
structure Config where
  cacheSizePages : Nat
  recordCacheSize : Nat
  observed : Bool := false
  deriving DecidableEq, Repr

/-- `Database`. The reader has no state of its own. -/
structure Database where
  engine : StorageEngine
  writer : StorageWriter
  index : Index
  recordCache : LruCache
  wal : WalManager

namespace Database

/-- What the files hold at this moment. -/
def files (db : Database) : Disk := ⟨some db.engine.file.bytes, db.wal.file⟩

/-! ## Calls on the components -/

/-- A call on the engine. -/
def onEngine {α : Type} (m : EStateM Error StorageEngine α) : EStateM Error Database α := fun db =>
  match m db.engine with
  | .ok a e => .ok a { db with engine := e }
  | .error err e => .error err { db with engine := e }

/-- `writer_->append`, on the file the engine maps. -/
def writerAppend (key value : Bytes) : EStateM Error Database RecordID := fun db =>
  match StorageWriter.append key value (db.writer, db.engine.file.bytes) with
  | .ok rid (w, bytes) => .ok rid { db with writer := w, engine := db.engine.setBytes bytes }
  | .error err (w, bytes) => .error err { db with writer := w, engine := db.engine.setBytes bytes }

/-- `index_.insert`. -/
def indexInsert (key : Bytes) (rid : RecordID) : EStateM Error Database Unit := fun db =>
  .ok () { db with index := db.index.insert key rid }

/-- `record_cache_.put`. -/
def cachePut (key value : Bytes) : EStateM Error Database Unit := fun db =>
  match LruCache.put key value db.recordCache with
  | .ok () c => .ok () { db with recordCache := c }
  | .error err c => .error err { db with recordCache := c }

/-- `wal_->append`. -/
def walAppend (key value : Bytes) : EStateM Error Database Unit := fun db =>
  .ok () { db with wal := (db.wal.append key value).2 }

/-- What the destructors leave on disk: only the writer's does anything. -/
def destroy (db : Database) : Disk :=
  ⟨some (db.writer.destroy db.engine.file.bytes), db.wal.file⟩

/-! ## Opening -/

/-- The members before the log is replayed. -/
def members (cfg : Config) (disk : Disk) : Database :=
  let engine := StorageEngine.new disk.data cfg.cacheSizePages cfg.observed
  let (writer, bytes) := StorageWriter.new (some engine.file.bytes)
  { engine := engine.setBytes bytes
    writer := writer
    index := Index.new
    recordCache := LruCache.new cfg.recordCacheSize none
    wal := WalManager.new disk.wal }

/-- The visitor the constructor hands to `replay`. -/
def replayVisitor (rec : WalRecord) : EStateM Error Database Unit := do
  let rid ← writerAppend rec.key rec.value
  indexInsert rec.key rid
  cachePut rec.key rec.value

/-- `wal_->replay` with that visitor; the result is the number of records replayed. -/
def replayWal : EStateM Error Database Nat := fun db =>
  match WalManager.replay replayVisitor (db.wal, db) with
  | .ok n (wal, db) => .ok n { db with wal := wal }
  | .error err (wal, db) => .error err { db with wal := wal }

/-- `Database::recover`. -/
def recover : EStateM Error Database Unit := fun db =>
  if db.engine.getTotalPages > 0 then
    match Index.rebuild (db.engine, db.index) with
    | .ok () (e, ix) => .ok () { db with engine := e, index := ix }
    | .error err (e, ix) => .error err { db with engine := e, index := ix }
  else .ok () db

/-- `Database::Database`: the open database, or the exception and the files it leaves behind. -/
def new (cfg : Config) (disk : Disk) : Except (Error × Disk) Database :=
  match (do let _ ← replayWal; recover : EStateM Error Database Unit) (members cfg disk) with
  | .ok () db => .ok db
  | .error err db => .error (err, db.destroy)

/-! ## Operations -/

/-- `Database::put`. -/
def put (key value : Bytes) : EStateM Error Database Unit := do
  walAppend key value
  let rid ← writerAppend key value
  indexInsert key rid
  cachePut key value

/-- The part of `get` behind the record cache. -/
def getFromPages (key : Bytes) : EStateM Error Database (Option Bytes) := fun db =>
  match db.index.lookup key with
  | none => .ok none db
  | some rid =>
      match onEngine (StorageReader.readRecord rid) db with
      | .error err db => .error err db
      | .ok none db => .ok none db
      | .ok (some record) db =>
          if record.key = key then
            match cachePut key record.value db with
            | .error err db => .error err db
            | .ok () db => .ok (some record.value) db
          else .ok none db

/-- `Database::get`. -/
def get (key : Bytes) : EStateM Error Database (Option Bytes) := fun db =>
  match db.recordCache.get key with
  | (some value, c) => .ok (some value) { db with recordCache := c }
  | (none, c) => getFromPages key { db with recordCache := c }

/-- `Database::scan`, with the callback's calls collected in order. -/
def scan : EStateM Error Database (List (RecordID × Record)) := fun db =>
  match StorageReader.scan (fun rid key value visits => visits ++ [(rid, Record.mk key value)])
      (db.engine, []) with
  | .ok () (e, visits) => .ok visits { db with engine := e }
  | .error err (e, _) => .error err { db with engine := e }

/-- `Database::get_record_count`. -/
def getRecordCount (db : Database) : Nat := db.index.size

end Database

end Aqa
