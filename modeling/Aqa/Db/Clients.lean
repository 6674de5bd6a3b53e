/-
# Aqa.Db.Clients — clients that call `get` and `put` at the same time.

`get` holds the mutex of the database shared, `put` holds it alone. Under it a call goes through the
components one after the other, and between two of these steps other clients take theirs: a record
cache, a page cache and a log that lock themselves are each entered in one step, and a page is read
through its handle between the fetch and the release. `ClientWorld` is a database with its clients, a
turn is one step of one of them, and a schedule gives the turns in any order.

A turn that the mutex does not grant leaves everything as it is; the client tries again.
-/
import Aqa.Db.CleanSessions
import Aqa.Lib.Schedule
import Aqa.Lib.SharedLock
import Aqa.Wal.Damage

namespace Aqa

open Aqa.Lib

/-- The next step of a client: of none, of a get, or of a put. -/
inductive ClientPoint where
  | idle
  -- `Database::get`
  | probing (key : Bytes)
  | looking (key : Bytes)
  | fetching (key : Bytes) (rid : RecordID)
  | parsing (key : Bytes) (rid : RecordID) (page : PageHandle)
  | releasing (key : Bytes) (rid : RecordID) (page : PageHandle) (read : RecordRead)
  | filling (key value : Bytes)
  | unlockingShared
  -- `Database::put`
  | logging (r : Record)
  | appending (r : Record)
  | indexing (r : Record) (rid : RecordID)
  | caching (r : Record)
  | unlocking
  deriving DecidableEq, Repr

/-- A client, with the puts that had returned when its last get was given the mutex. -/
structure Client where
  point : ClientPoint
  before : List Record
  deriving DecidableEq, Repr

/-- What a get returned, with the puts that had returned before its shared section. -/
structure GetAnswer where
  key : Bytes
  before : List Record
  value : Option Bytes
  deriving DecidableEq, Repr

/-- A database and its clients, with what has happened so far: the records whose puts were given the
mutex, those whose puts returned, and the answers of the gets. -/
structure ClientWorld where
  db : Database
  clients : List Client
  sections : List Record
  stored : List Record
  answers : List GetAnswer

/-- How a client holds the mutex. -/
def Client.mode (c : Client) : SharedLock.Mode :=
  match c.point with
  | .idle => .free
  | .probing _ | .looking _ | .fetching _ _ | .parsing _ _ _ | .releasing _ _ _ _ | .filling _ _
  | .unlockingShared => .shared
  | .logging _ | .appending _ | .indexing _ _ | .caching _ | .unlocking => .exclusive

namespace ClientWorld

/-- A database that was just opened, and `n` clients. -/
def start (db : Database) (n : Nat) : ClientWorld := ⟨db, List.replicate n ⟨.idle, []⟩, [], [], []⟩

/-- Client `i` goes on at `point`, and leaves the database like this. -/
def goOn (w : ClientWorld) (i : Nat) (c : Client) (db : Database) (point : ClientPoint) :
    ClientWorld :=
  { w with db := db, clients := w.clients.set i { c with point := point } }

/-- The get of client `i` has its result. -/
def answered (w : ClientWorld) (i : Nat) (c : Client) (db : Database) (key : Bytes)
    (value : Option Bytes) : ClientWorld :=
  { w.goOn i c db .unlockingShared with answers := w.answers ++ [⟨key, c.before, value⟩] }

/-- The put of client `i` is done. -/
def returned (w : ClientWorld) (i : Nat) (c : Client) (db : Database) (r : Record) : ClientWorld :=
  { w.goOn i c db .unlocking with stored := w.stored ++ [r] }

/-- A client begins a call, when the mutex can be had. -/
def begin (w : ClientWorld) (i : Nat) (call : DbCall) : ClientWorld :=
  match w.clients[i]? with
  | some ⟨.idle, before⟩ =>
      match call with
      | .get key =>
          if SharedLock.canShare Client.mode w.clients then
            { w with clients := w.clients.set i ⟨.probing key, w.stored⟩ }
          else w
      | .put key value =>
          if SharedLock.canOwn Client.mode w.clients then
            { w with
              clients := w.clients.set i ⟨.logging ⟨key, value⟩, before⟩
              sections := w.sections ++ [⟨key, value⟩] }
          else w
  | _ => w

/-- The next step of client `i`. An exception unlocks the mutex. -/
def stepOf (w : ClientWorld) (i : Nat) (c : Client) : ClientWorld :=
  match c.point with
  | .idle => w
  | .probing key =>
      match w.db.recordCache.get key with
      | (some value, cache) => w.answered i c { w.db with recordCache := cache } key (some value)
      | (none, cache) => w.goOn i c { w.db with recordCache := cache } (.looking key)
  | .looking key =>
      match w.db.index.lookup key with
      | none => w.answered i c w.db key none
      | some rid => w.goOn i c w.db (.fetching key rid)
  | .fetching key rid =>
      if rid.pageId ≥ w.db.engine.getTotalPages then w.answered i c w.db key none
      else
        match StorageEngine.fetchPage rid.pageId w.db.engine with
        | .ok page e => w.goOn i c { w.db with engine := e } (.parsing key rid page)
        | .error _ e => w.goOn i c { w.db with engine := e } .unlockingShared
  | .parsing key rid page =>
      w.goOn i c w.db
        (.releasing key rid page
          (StorageReader.parseRecord (w.db.engine.pageOf page) rid.slotId))
  | .releasing key _ page read =>
      let db := { w.db with engine := w.db.engine.releasePage page }
      match read with
      | .absent => w.answered i c db key none
      | .found record =>
          if record.key = key then w.goOn i c db (.filling key record.value)
          else w.answered i c db key none
      | .outside => w.goOn i c db .unlockingShared
  | .filling key value =>
      match Database.cachePut key value w.db with
      | .ok () db => w.answered i c db key (some value)
      | .error _ db => w.goOn i c db .unlockingShared
  | .unlockingShared => w.goOn i c w.db .idle
  | .logging r =>
      match Database.walAppend r.key r.value w.db with
      | .ok () db => w.goOn i c db (.appending r)
      | .error _ db => w.goOn i c db .unlocking
  | .appending r =>
      match Database.writerAppend r.key r.value w.db with
      | .ok rid db => w.goOn i c db (.indexing r rid)
      | .error _ db => w.goOn i c db .unlocking
  | .indexing r rid =>
      match Database.indexInsert r.key rid w.db with
      | .ok () db => w.goOn i c db (.caching r)
      | .error _ db => w.goOn i c db .unlocking
  | .caching r =>
      match Database.cachePut r.key r.value w.db with
      | .ok () db => w.returned i c db r
      | .error _ db => w.goOn i c db .unlocking
  | .unlocking => w.goOn i c w.db .idle

/-- What happens next: a client begins a call, or takes its next step. -/
inductive Turn where
  | begin (i : Nat) (call : DbCall)
  | step (i : Nat)
  deriving DecidableEq, Repr

/-- A turn. -/
def turn (w : ClientWorld) : Turn → ClientWorld
  | .begin i call => w.begin i call
  | .step i =>
      match w.clients[i]? with
      | some c => w.stepOf i c
      | none => w

/-- The world after the turns of a schedule. -/
def run (schedule : List Turn) (w : ClientWorld) : ClientWorld := Schedule.run turn schedule w

/-- No client is in a put's critical section. -/
def Quiet (w : ClientWorld) : Prop := ∀ c ∈ w.clients, c.mode ≠ .exclusive

/-- **No stale read**, for a session behind these puts whose log began with these bytes and this LSN:
outside a put's critical section the entries of the record cache are the last puts of their keys and
the frames stand in the order of the critical sections; and what a get returned is the last put of its
key before its shared section. -/
structure NoStaleRead (earlier : List Record) (log : Bytes) (lsn : Nat) (w : ClientWorld) :
    Prop where
  cached : w.Quiet → ∀ node ∈ w.db.recordCache.list.nodes,
    lastWrite (entries (earlier ++ w.stored)) node.2.key = some node.2.value
  frames : w.Quiet → w.db.wal.file =
    some (log ++ WalManager.walFraming.encodeAll (WalManager.stamped lsn (entries w.sections)))
  answers : ∀ a ∈ w.answers, ∀ value, a.value = some value →
    lastWrite (entries (earlier ++ a.before)) a.key = some value

/-! ## A client that is not disturbed -/

/-- The world after a get of client `i`. -/
def afterGet (w : ClientWorld) (i : Nat) (before : List Record) (db : Database) (key : Bytes)
    (value : Option Bytes) : ClientWorld :=
  { w with
    db := db
    clients := w.clients.set i ⟨.idle, before⟩
    answers := w.answers ++ [⟨key, before, value⟩] }

/-- The world after a put of client `i`. -/
def afterPut (w : ClientWorld) (i : Nat) (before : List Record) (db : Database) (r : Record) :
    ClientWorld :=
  { w with db := db, clients := w.clients.set i ⟨.idle, before⟩, stored := w.stored ++ [r] }

variable {w : ClientWorld} {i : Nat} {c : Client} {key value : Bytes} {a : Option Bytes}
  {before : List Record} {db db' : Database}

theorem turn_step (hi : w.clients[i]? = some c) : w.turn (.step i) = w.stepOf i c := by
  unfold turn
  dsimp only
  rw [hi]

theorem run_step (hi : w.clients[i]? = some c) (n : Nat) :
    w.run (List.replicate (n + 1) (.step i)) =
      (w.stepOf i c).run (List.replicate n (.step i)) := by
  rw [List.replicate_succ]
  exact congrArg (run (List.replicate n (.step i))) (turn_step hi)

theorem run_idle (hi : w.clients[i]? = some ⟨.idle, before⟩) (n : Nat) :
    w.run (List.replicate n (.step i)) = w := by
  induction n with
  | zero => rfl
  | succ n ih => exact (run_step hi n).trans ih

/-- Where a client is that has gone on. -/
theorem get_set (hi : w.clients[i]? = some c) (d : Client) :
    (w.clients.set i d)[i]? = some d :=
  List.getElem?_set_self (List.getElem?_eq_some_iff.mp hi).1

theorem afterGet_goOn (db : Database) (point : ClientPoint) (db' : Database) :
    (w.goOn i c db point).afterGet i before db' key a = w.afterGet i before db' key a := by
  unfold afterGet goOn
  rw [List.set_set]

theorem afterPut_goOn (db : Database) (point : ClientPoint) (db' : Database) (r : Record) :
    (w.goOn i c db point).afterPut i before db' r = w.afterPut i before db' r := by
  unfold afterPut goOn
  rw [List.set_set]

theorem run_answered (hi : w.clients[i]? = some c) (n : Nat) :
    (w.answered i c db key a).run (List.replicate (n + 1) (.step i)) =
      w.afterGet i c.before db key a := by
  have hi' : (w.answered i c db key a).clients[i]? = some { c with point := .unlockingShared } :=
    get_set hi _
  have hstep : (w.answered i c db key a).stepOf i { c with point := .unlockingShared } =
      w.afterGet i c.before db key a := by
    show ({ w with
      db := db
      clients := (w.clients.set i { c with point := .unlockingShared }).set i { c with point := .idle }
      answers := w.answers ++ [⟨key, c.before, a⟩] } : ClientWorld) = _
    rw [List.set_set]
    rfl
  rw [run_step hi', hstep]
  exact run_idle (get_set hi _) n

theorem run_filling (hi : w.clients[i]? = some ⟨.filling key value, before⟩)
    (heq : Database.cachePut key value w.db = .ok () db) (n : Nat) :
    w.run (List.replicate (n + 2) (.step i)) = w.afterGet i before db key (some value) := by
  have hstep : w.stepOf i ⟨.filling key value, before⟩ =
      w.answered i ⟨.filling key value, before⟩ db key (some value) := by
    unfold stepOf
    dsimp only
    rw [heq]
  rw [run_step hi, hstep, run_answered hi]

section Reading

variable {rid : RecordID} {page : PageHandle} {record : Record}

/-- A page without the record. -/
theorem run_parsing_none (hi : w.clients[i]? = some ⟨.parsing key rid page, before⟩)
    (hin : StorageReader.parseRecord (w.db.engine.pageOf page) rid.slotId ≠ .outside)
    (hread : ∀ record, StorageReader.parseRecord (w.db.engine.pageOf page) rid.slotId =
      .found record → record.key ≠ key) (n : Nat) :
    w.run (List.replicate (n + 3) (.step i)) =
      w.afterGet i before { w.db with engine := w.db.engine.releasePage page } key none := by
  have h₁ := get_set hi ⟨.releasing key rid page
    (StorageReader.parseRecord (w.db.engine.pageOf page) rid.slotId), before⟩
  rw [run_step hi, ← afterGet_goOn (c := ⟨.parsing key rid page, before⟩) w.db (.releasing key rid page
    (StorageReader.parseRecord (w.db.engine.pageOf page) rid.slotId))]
  refine (run_step h₁ _).trans ?_
  unfold stepOf
  dsimp only
  generalize StorageReader.parseRecord (w.db.engine.pageOf page) rid.slotId = read at hin hread h₁ ⊢
  cases read with
  | outside => exact absurd rfl hin
  | absent => exact run_answered h₁ n
  | found record =>
      dsimp only
      rw [if_neg (hread record rfl)]
      exact run_answered h₁ n

/-- A page with the record, which is entered into the record cache. -/
theorem run_parsing_found (hi : w.clients[i]? = some ⟨.parsing key rid page, before⟩)
    (hread : StorageReader.parseRecord (w.db.engine.pageOf page) rid.slotId = .found record)
    (hkey : record.key = key)
    (heq : Database.cachePut key record.value
      { w.db with engine := w.db.engine.releasePage page } = .ok () db) (n : Nat) :
    w.run (List.replicate (n + 4) (.step i)) =
      w.afterGet i before db key (some record.value) := by
  have h₁ := get_set hi ⟨.releasing key rid page (.found record), before⟩
  have hparsing : w.stepOf i ⟨.parsing key rid page, before⟩ =
      w.goOn i ⟨.parsing key rid page, before⟩ w.db
        (.releasing key rid page (.found record)) := by
    unfold stepOf
    dsimp only
    rw [hread]
  rw [run_step hi, hparsing,
    ← afterGet_goOn (c := ⟨.parsing key rid page, before⟩) w.db
      (.releasing key rid page (.found record))]
  refine (run_step h₁ _).trans ?_
  unfold stepOf
  dsimp only
  rw [if_pos hkey, ← afterGet_goOn (c := ⟨.releasing key rid page (.found record), before⟩)
    { w.db with engine := w.db.engine.releasePage page } (.filling key record.value)]
  exact run_filling (get_set h₁ ⟨.filling key record.value, before⟩) heq n

end Reading

/-- The part of a get behind the index. -/
theorem run_fetching {rid : RecordID} (hi : w.clients[i]? = some ⟨.fetching key rid, before⟩)
    (hrid : w.db.index.lookup key = some rid) (heq : Database.getFromPages key w.db = .ok a db')
    (n : Nat) :
    w.run (List.replicate (n + 5) (.step i)) = w.afterGet i before db' key a := by
  unfold Database.getFromPages at heq
  rw [hrid] at heq
  unfold Database.onEngine StorageReader.readRecord at heq
  dsimp only at heq
  rw [run_step hi]
  unfold stepOf
  dsimp only
  by_cases hout : rid.pageId ≥ w.db.engine.getTotalPages
  · rw [if_pos hout] at heq ⊢
    cases heq
    exact run_answered hi (n + 3)
  · rw [if_neg hout] at heq ⊢
    cases hfetch : StorageEngine.fetchPage rid.pageId w.db.engine with
    | error err e =>
        rw [hfetch] at heq
        cases heq
    | ok page e =>
        rw [hfetch] at heq
        dsimp only at heq ⊢
        have h₁ := get_set hi ⟨.parsing key rid page, before⟩
        rw [← afterGet_goOn (c := ⟨.fetching key rid, before⟩) { w.db with engine := e }
          (.parsing key rid page)]
        cases hread : StorageReader.parseRecord (e.pageOf page) rid.slotId with
        | outside =>
            rw [hread] at heq
            cases heq
        | absent =>
            rw [hread] at heq
            cases heq
            refine run_parsing_none h₁ ?_ ?_ (n + 1)
            · show StorageReader.parseRecord (e.pageOf page) rid.slotId ≠ .outside
              rw [hread]
              simp
            · intro record hrecord
              have hsame := hread.symm.trans hrecord
              cases hsame
        | found record =>
            rw [hread] at heq
            dsimp only at heq
            by_cases hkey : record.key = key
            · rw [if_pos hkey] at heq
              cases hput : Database.cachePut key record.value
                  { w.db with engine := e.releasePage page } with
              | error err db₁ =>
                  rw [hput] at heq
                  cases heq
              | ok u db₁ =>
                  rw [hput] at heq
                  cases heq
                  exact run_parsing_found h₁ hread hkey hput n
            · rw [if_neg hkey] at heq
              cases heq
              refine run_parsing_none h₁ ?_ ?_ (n + 1)
              · show StorageReader.parseRecord (e.pageOf page) rid.slotId ≠ .outside
                rw [hread]
                simp
              · intro record' hrecord
                have hsame := hread.symm.trans hrecord
                cases hsame
                exact hkey

theorem run_looking (hi : w.clients[i]? = some ⟨.looking key, before⟩)
    (heq : Database.getFromPages key w.db = .ok a db') (n : Nat) :
    w.run (List.replicate (n + 6) (.step i)) = w.afterGet i before db' key a := by
  rw [run_step hi]
  unfold stepOf
  dsimp only
  cases hrid : w.db.index.lookup key with
  | none =>
      unfold Database.getFromPages at heq
      rw [hrid] at heq
      cases heq
      exact run_answered hi (n + 4)
  | some rid =>
      dsimp only
      rw [← afterGet_goOn (c := ⟨.looking key, before⟩) w.db (.fetching key rid)]
      have h₁ : (w.goOn i ⟨.looking key, before⟩ w.db (.fetching key rid)).clients[i]? =
          some ⟨.fetching key rid, before⟩ := get_set hi _
      exact run_fetching h₁ hrid heq n

/-- **A get that is not disturbed is `Database::get`.** -/
theorem run_get (hi : w.clients[i]? = some ⟨.idle, before⟩)
    (hcan : SharedLock.canShare Client.mode w.clients) (heq : Database.get key w.db = .ok a db') :
    w.run (.begin i (.get key) :: List.replicate 7 (.step i)) =
      w.afterGet i w.stored db' key a := by
  have hbegin : w.turn (.begin i (.get key)) =
      { w with clients := w.clients.set i ⟨.probing key, w.stored⟩ } := by
    unfold turn begin
    dsimp only
    rw [hi]
    dsimp only
    rw [if_pos hcan]
  have hafter : ∀ db value, ClientWorld.afterGet
      { w with clients := w.clients.set i ⟨.probing key, w.stored⟩ } i w.stored db key value =
        w.afterGet i w.stored db key value := by
    intro db value
    unfold afterGet
    rw [List.set_set]
  have h₁ := get_set hi ⟨.probing key, w.stored⟩
  show (w.turn (.begin i (.get key))).run (List.replicate 7 (.step i)) = _
  rw [hbegin, ← hafter]
  refine (run_step h₁ 6).trans ?_
  unfold stepOf
  dsimp only
  unfold Database.get at heq
  obtain ⟨⟨cached, cache⟩, hget⟩ : ∃ out, w.db.recordCache.get key = out := ⟨_, rfl⟩
  rw [hget] at heq ⊢
  cases cached with
  | some value =>
      cases heq
      exact run_answered h₁ 5
  | none =>
      dsimp only
      rw [← afterGet_goOn (c := ⟨.probing key, w.stored⟩) { w.db with recordCache := cache }
        (.looking key)]
      exact run_looking (get_set h₁ ⟨.looking key, w.stored⟩) heq 0

theorem run_caching {r : Record} (hi : w.clients[i]? = some ⟨.caching r, before⟩)
    (heq : Database.cachePut r.key r.value w.db = .ok () db) (n : Nat) :
    w.run (List.replicate (n + 2) (.step i)) = w.afterPut i before db r := by
  have hstep : w.stepOf i ⟨.caching r, before⟩ = w.returned i ⟨.caching r, before⟩ db r := by
    unfold stepOf
    dsimp only
    rw [heq]
  have h₁ : (w.returned i ⟨.caching r, before⟩ db r).clients[i]? = some ⟨.unlocking, before⟩ :=
    get_set hi _
  have hunlock : (w.returned i ⟨.caching r, before⟩ db r).stepOf i ⟨.unlocking, before⟩ =
      w.afterPut i before db r := by
    show ({ w with
      db := db
      clients := (w.clients.set i ⟨.unlocking, before⟩).set i ⟨.idle, before⟩
      stored := w.stored ++ [r] } : ClientWorld) = _
    rw [List.set_set]
    rfl
  rw [run_step hi, hstep, run_step h₁, hunlock]
  exact run_idle (get_set hi _) n

/-- The part of a put behind the log. -/
theorem run_appending {r : Record} (hi : w.clients[i]? = some ⟨.appending r, before⟩)
    {rid : RecordID} (happend : Database.writerAppend r.key r.value w.db = .ok rid db)
    (heq : Database.cachePut r.key r.value { db with index := db.index.insert r.key rid } = .ok () db')
    (n : Nat) :
    w.run (List.replicate (n + 4) (.step i)) = w.afterPut i before db' r := by
  have hstep : w.stepOf i ⟨.appending r, before⟩ =
      w.goOn i ⟨.appending r, before⟩ db (.indexing r rid) := by
    unfold stepOf
    dsimp only
    rw [happend]
  have h₁ : (w.goOn i ⟨.appending r, before⟩ db (.indexing r rid)).clients[i]? =
      some ⟨.indexing r rid, before⟩ := get_set hi _
  have hindex : (w.goOn i ⟨.appending r, before⟩ db (.indexing r rid)).stepOf i
      ⟨.indexing r rid, before⟩ =
      (w.goOn i ⟨.appending r, before⟩ db (.indexing r rid)).goOn i ⟨.indexing r rid, before⟩
        { db with index := db.index.insert r.key rid } (.caching r) := rfl
  rw [run_step hi, hstep, run_step h₁, hindex]
  refine (run_caching (get_set h₁ _) heq n).trans ?_
  rw [afterPut_goOn, afterPut_goOn]

/-- **A put that is not disturbed is `Database::put`.** -/
theorem run_put {r : Record} (hi : w.clients[i]? = some ⟨.idle, before⟩)
    (hcan : SharedLock.canOwn Client.mode w.clients)
    (heq : Database.put r.key r.value w.db = .ok () db') :
    w.run (.begin i (.put r.key r.value) :: List.replicate 5 (.step i)) =
      { w.afterPut i before db' r with sections := w.sections ++ [r] } := by
  have hbegin : w.turn (.begin i (.put r.key r.value)) =
      { w with
        clients := w.clients.set i ⟨.logging r, before⟩
        sections := w.sections ++ [r] } := by
    unfold turn begin
    dsimp only
    rw [hi]
    dsimp only
    rw [if_pos hcan]
  have hafter : ClientWorld.afterPut { w with
        clients := w.clients.set i ⟨.logging r, before⟩
        sections := w.sections ++ [r] } i before db' r =
      { w.afterPut i before db' r with sections := w.sections ++ [r] } := by
    unfold afterPut
    rw [List.set_set]
  have h₁ := get_set hi ⟨.logging r, before⟩
  show (w.turn (.begin i (.put r.key r.value))).run (List.replicate 5 (.step i)) = _
  rw [hbegin, ← hafter]
  refine (run_step h₁ 4).trans ?_
  simp only [Database.put, bind, EStateM.bind] at heq
  unfold stepOf
  dsimp only
  cases hlog : Database.walAppend r.key r.value w.db with
  | error err db₁ =>
      rw [hlog] at heq
      cases heq
  | ok u db₁ =>
      rw [hlog] at heq
      dsimp only at heq ⊢
      cases happend : Database.writerAppend r.key r.value db₁ with
      | error err db₂ =>
          rw [happend] at heq
          cases heq
      | ok rid db₂ =>
          rw [happend] at heq
          rw [← afterPut_goOn (c := ⟨.logging r, before⟩) db₁ (.appending r)]
          exact run_appending (get_set h₁ _) happend heq 0

end ClientWorld

end Aqa
