/-
# Aqa.Db.SerialPuts — on disk, concurrent clients are one client.

Gets write nothing, and a put is alone from its log frame to its last step. So behind any schedule the
files are those of a single client that makes the puts one after the other, in the order in which they
returned (`Serial`): all of them, when no client is inside a put, and with one more put up to the step
it has reached, otherwise. Files of a crash or a close are then files that a sequential session leaves.
-/
import Aqa.Db.CrashRuns
import Aqa.Db.StaleReads

namespace Aqa

open Aqa.Lib

/-- The call that puts a record. -/
def Record.putCall (r : Record) : DbCall := .put r.key r.value

theorem putsOf_putCall (recs : List Record) : putsOf (recs.map Record.putCall) = recs := by
  unfold putsOf
  rw [List.filterMap_map]
  exact List.filterMap_some

/-! ## What puts write -/

theorem LruCache.capacity_of_put {c c' : LruCache} {key value : Bytes}
    (h : LruCache.put key value c = .ok () c') : c'.capacity = c.capacity := by
  unfold LruCache.put at h
  split at h
  · rw [EStateM.Result.ok.injEq] at h
    rw [← h.2]
  · split at h
    · unfold LruCache.evict at h
      dsimp only at h
      split at h
      · exact absurd h (by simp)
      · rename_i c₁ hevict
        split at hevict
        · exact absurd hevict (by simp)
        · rw [EStateM.Result.ok.injEq] at h hevict
          rw [← h.2, ← hevict.2]
          rfl
    · rw [EStateM.Result.ok.injEq] at h
      rw [← h.2]
      rfl

theorem LruCache.capacity_get (c : LruCache) (key : Bytes) :
    (c.get key).2.capacity = c.capacity := by
  unfold LruCache.get
  split <;> rfl

/-- The parts of a database that decide what a put writes are the same. -/
structure Database.SameWrites (db db' : Database) : Prop where
  writer : db.writer = db'.writer
  bytes : db.engine.file.bytes = db'.engine.file.bytes
  wal : db.wal = db'.wal
  places : db.recordCache.capacity = db'.recordCache.capacity

namespace Database

theorem SameWrites.refl (db : Database) : db.SameWrites db := ⟨rfl, rfl, rfl, rfl⟩

theorem SameWrites.trans {db₁ db₂ db₃ : Database} (h : db₁.SameWrites db₂)
    (h' : db₂.SameWrites db₃) : db₁.SameWrites db₃ :=
  ⟨h.writer.trans h'.writer, h.bytes.trans h'.bytes, h.wal.trans h'.wal, h.places.trans h'.places⟩

theorem SameWrites.symm {db db' : Database} (h : db.SameWrites db') : db'.SameWrites db :=
  ⟨h.writer.symm, h.bytes.symm, h.wal.symm, h.places.symm⟩

theorem SameWrites.files {db db' : Database} (h : db.SameWrites db') :
    db.files = db'.files ∧ db.destroy = db'.destroy := by
  unfold Database.files destroy
  rw [h.writer, h.bytes, h.wal]
  exact ⟨rfl, rfl⟩

variable {db db' db₁ db₂ : Database} {key value : Bytes}

theorem SameWrites.walAppend (h : db.SameWrites db') (heq : walAppend key value db = .ok () db₁) :
    ∃ db₁', Database.walAppend key value db' = .ok () db₁' ∧ db₁.SameWrites db₁' := by
  refine ⟨_, rfl, ?_⟩
  simp only [Database.walAppend, EStateM.Result.ok.injEq, true_and] at heq
  subst heq
  exact ⟨h.writer, h.bytes, by rw [h.wal], h.places⟩

theorem SameWrites.writerAppend (h : db.SameWrites db') {rid : RecordID}
    (heq : writerAppend key value db = .ok rid db₁) :
    ∃ db₁', Database.writerAppend key value db' = .ok rid db₁' ∧ db₁.SameWrites db₁' := by
  unfold Database.writerAppend at heq ⊢
  rw [← h.writer, ← h.bytes]
  cases hout : StorageWriter.append key value (db.writer, db.engine.file.bytes) with
  | error err out =>
      rw [hout] at heq
      exact absurd heq (by simp)
  | ok rid' out =>
      rw [hout] at heq
      simp only [EStateM.Result.ok.injEq] at heq
      obtain ⟨rfl, rfl⟩ := heq
      exact ⟨_, rfl, rfl, rfl, h.wal, h.places⟩

/-- A use of the record cache changes nothing that a put writes. -/
theorem sameWrites_cachePut (heq : cachePut key value db = .ok () db₁) : db₁.SameWrites db := by
  unfold cachePut at heq
  split at heq
  · rename_i c hput
    rw [EStateM.Result.ok.injEq] at heq
    obtain ⟨-, rfl⟩ := heq
    exact ⟨rfl, rfl, rfl, LruCache.capacity_of_put hput⟩
  · exact absurd heq (by simp)

/-- A put is its first three calls and the use of the record cache. -/
theorem put_of_putUpTo_index (h : putUpTo .index key value db = .ok () db₁) :
    put key value db = cachePut key value db₁ := by
  simp only [putUpTo, put, bind, EStateM.bind] at h ⊢
  cases hlog : walAppend key value db with
  | error err db₂ =>
      rw [hlog] at h
      exact absurd h (by simp)
  | ok u db₂ =>
      rw [hlog] at h
      dsimp only at h ⊢
      cases happend : writerAppend key value db₂ with
      | error err db₃ =>
          rw [happend] at h
          exact absurd h (by simp)
      | ok rid db₃ =>
          rw [happend] at h
          dsimp only at h ⊢
          rw [h]

/-- Calls that returned, and a put behind them. -/
theorem calls_concat_put {cs : List DbCall} {answers : List (Option Bytes)}
    (hcalls : calls cs db = .ok answers db₁) (hput : put key value db₁ = .ok () db₂) :
    ∃ answers', calls (cs ++ [.put key value]) db = .ok answers' db₂ := by
  induction cs generalizing db answers with
  | nil =>
      rw [calls, pure, Applicative.toPure] at hcalls
      cases hcalls
      refine ⟨[none], ?_⟩
      simp only [List.nil_append, calls, call, bind, EStateM.bind, hput]
      rfl
  | cons c cs ih =>
      simp only [List.cons_append, calls, bind, EStateM.bind] at hcalls ⊢
      cases hc : call c db with
      | error err db₃ =>
          rw [hc] at hcalls
          exact absurd hcalls (by simp)
      | ok a db₃ =>
          rw [hc] at hcalls
          dsimp only at hcalls ⊢
          cases hcs : calls cs db₃ with
          | error err db₄ =>
              rw [hcs] at hcalls
              exact absurd hcalls (by simp)
          | ok as db₄ =>
              rw [hcs] at hcalls
              cases hcalls
              obtain ⟨answers', hrest⟩ := ih hcs
              refine ⟨a :: answers', ?_⟩
              rw [hrest]
              rfl

end Database

/-! ## The puts of clients -/

/-- The record a client is putting. -/
def Client.putting (c : Client) : Option Record :=
  match c.point with
  | .logging r | .appending r | .indexing r _ | .caching r => some r
  | _ => none

/-- The call of its put that a client has reached. -/
def Client.reached (c : Client) : Option (PutPoint × Record) :=
  match c.point with
  | .appending r => some (.wal, r)
  | .indexing r _ => some (.page, r)
  | .caching r => some (.index, r)
  | _ => none

theorem Client.reached_of_not_exclusive {c : Client} (h : c.mode ≠ .exclusive) :
    c.reached = none ∧ c.putting = none := by
  obtain ⟨point, before⟩ := c
  cases point with
  | logging r | appending r | indexing r rid | caching r | unlocking => exact absurd rfl h
  | _ => exact ⟨rfl, rfl⟩

namespace ClientWorld

/-- **The world of the clients beside a sequential one**: `db'` is the database `db₀` behind the puts
that have returned, and the clients have written what it wrote, with the put that is under way. -/
structure Serial (db₀ : Database) (w : ClientWorld) (db' : Database) : Prop where
  calls : ∃ answers, Database.calls (w.stored.map Record.putCall) db₀ = .ok answers db'
  holds : ∃ s', db'.Holds (fun _ => 0) s' ∧ 1 ≤ s'.capacity
  fits : ∀ c ∈ w.clients, ∀ r, c.putting = some r → Record.need r ≤ pageRoom
  quiet : (∀ c ∈ w.clients, c.reached = none) → w.db.SameWrites db'
  reached : ∀ c ∈ w.clients, ∀ point r, c.reached = some (point, r) →
    ∃ db'', Database.putUpTo point r.key r.value db' = .ok () db'' ∧ w.db.SameWrites db''

variable {db₀ db' : Database} {s₀ s : Session} {earlier : List Record} {w u : ClientWorld} {i : Nat}
  {c d : Client} {r : Record}

namespace Serial

/-- A step that writes nothing. -/
theorem keep (h : Serial db₀ w db') (hi : w.clients[i]? = some c) (hc : c.reached = none)
    (hclients : u.clients = w.clients.set i d) (hd : d.reached = none)
    (hfits : ∀ r, d.putting = some r → Record.need r ≤ pageRoom) (hstored : u.stored = w.stored)
    (hsame : u.db.SameWrites w.db) : Serial db₀ u db' where
  calls := by
    rw [hstored]
    exact h.calls
  holds := h.holds
  fits x hx := by
    rw [hclients] at hx
    rcases List.mem_or_eq_of_mem_set hx with hx | rfl
    · exact h.fits x hx
    · exact hfits
  quiet hnone := by
    refine hsame.trans (h.quiet fun x hx => ?_)
    obtain ⟨j, hj⟩ := List.mem_iff_getElem?.mp hx
    by_cases hij : i = j
    · subst hij
      rw [hi] at hj
      rw [← Option.some.inj hj]
      exact hc
    · apply hnone x
      rw [hclients]
      exact List.mem_of_getElem? (by rw [List.getElem?_set_ne hij, hj])
  reached x hx point r hr := by
    rw [hclients] at hx
    rcases List.mem_or_eq_of_mem_set hx with hx | rfl
    · obtain ⟨db'', heq, hwrites⟩ := h.reached x hx point r hr
      exact ⟨db'', heq, hsame.trans hwrites⟩
    · rw [hd] at hr
      exact absurd hr (by simp)

/-- The clients beside one that is in a put are in none. -/
theorem others (hcomp : SharedLock.Compatible Client.mode w.clients)
    (hi : w.clients[i]? = some c) (hmode : c.mode = .exclusive) {x : Client}
    (hx : x ∈ w.clients.set i d) : x = d ∨ (x.reached = none ∧ x.putting = none) := by
  obtain ⟨j, hj⟩ := List.mem_iff_getElem?.mp hx
  by_cases hij : i = j
  · subst hij
    rw [List.getElem?_set_self (List.getElem?_eq_some_iff.mp hi).1] at hj
    exact Or.inl (Option.some.inj hj).symm
  · rw [List.getElem?_set_ne hij] at hj
    refine Or.inr (Client.reached_of_not_exclusive ?_)
    rw [hcomp i j c x hij hi hj hmode]
    simp

/-- A put gets to its next call. -/
theorem goesOn (h : Serial db₀ w db') (hcomp : SharedLock.Compatible Client.mode w.clients)
    (hi : w.clients[i]? = some c) (hmode : c.mode = .exclusive)
    (hclients : u.clients = w.clients.set i d) (hstored : u.stored = w.stored) {point : PutPoint}
    (hd : d.reached = some (point, r)) (hput : c.putting = some r ∧ d.putting = some r)
    (hnext : ∃ db'', Database.putUpTo point r.key r.value db' = .ok () db'' ∧
      u.db.SameWrites db'') : Serial db₀ u db' where
  calls := by
    rw [hstored]
    exact h.calls
  holds := h.holds
  fits x hx r' hr' := by
    rw [hclients] at hx
    rcases others hcomp hi hmode hx with rfl | ⟨-, hnone⟩
    · rw [hput.2, ← hput.1] at hr'
      exact h.fits c (List.mem_of_getElem? hi) r' hr'
    · rw [hnone] at hr'
      exact absurd hr' (by simp)
  quiet hnone := by
    have hmem : d ∈ u.clients := by
      rw [hclients]
      exact List.mem_set (List.getElem?_eq_some_iff.mp hi).1 d
    have hreached := hnone d hmem
    rw [hd] at hreached
    exact absurd hreached (by simp)
  reached x hx point' r' hr' := by
    rw [hclients] at hx
    rcases others hcomp hi hmode hx with rfl | ⟨hnone, -⟩
    · rw [hd, Option.some.injEq, Prod.mk.injEq] at hr'
      obtain ⟨rfl, rfl⟩ := hr'
      exact hnext
    · rw [hnone] at hr'
      exact absurd hr' (by simp)

/-! ## The steps of a put -/

/-- The frame goes to the log. -/
theorem logging {before : List Record} (h : Serial db₀ w db') (hinv : Inv s₀ earlier w s)
    (hi : w.clients[i]? = some ⟨.logging r, before⟩) :
    Serial db₀ (w.stepOf i ⟨.logging r, before⟩) db' := by
  have hquiet : ∀ x ∈ w.clients, x.reached = none := by
    intro x hx
    rw [← List.set_getElem_self (List.getElem?_eq_some_iff.mp hi).1,
      (List.getElem?_eq_some_iff.mp hi).2] at hx
    rcases others hinv.apart hi rfl hx with rfl | ⟨hnone, -⟩
    · rfl
    · exact hnone
  obtain ⟨db, heq, -⟩ := hinv.holds.walAppend r.key r.value
  obtain ⟨db'', heq'', hsame⟩ := (h.quiet hquiet).walAppend heq
  have hstep : w.stepOf i ⟨.logging r, before⟩ = w.goOn i ⟨.logging r, before⟩ db (.appending r) := by
    unfold stepOf
    dsimp only
    rw [heq]
  rw [hstep]
  exact h.goesOn hinv.apart hi rfl rfl rfl (rfl : _ = some (PutPoint.wal, r)) ⟨rfl, rfl⟩
    ⟨db'', heq'', hsame⟩

/-- The record goes to a page. -/
theorem appending {before : List Record} (h : Serial db₀ w db') (hinv : Inv s₀ earlier w s)
    (hi : w.clients[i]? = some ⟨.appending r, before⟩) :
    Serial db₀ (w.stepOf i ⟨.appending r, before⟩) db' := by
  have hmem := List.mem_of_getElem? hi
  obtain ⟨db₁, heq₁, hsame₁⟩ := h.reached _ hmem .wal r rfl
  obtain ⟨db, -, heq⟩ := hinv.holds.writerAppend r
  rw [if_pos (h.fits _ hmem r rfl)] at heq
  obtain ⟨db₂, heq₂, hsame₂⟩ := hsame₁.writerAppend heq
  have hstep : w.stepOf i ⟨.appending r, before⟩ = w.goOn i ⟨.appending r, before⟩ db
      (.indexing r (StorageWriter.lastRid 0 (s.appended r).pager)) := by
    unfold stepOf
    dsimp only
    rw [heq]
  rw [hstep]
  refine h.goesOn hinv.apart hi rfl rfl rfl (rfl : _ = some (PutPoint.page, r)) ⟨rfl, rfl⟩
    ⟨db₂, ?_, hsame₂⟩
  rw [Database.putUpTo] at heq₁
  simp only [Database.putUpTo, bind, EStateM.bind, heq₁, heq₂]
  rfl

/-- The index learns of the record. -/
theorem indexing {before : List Record} {rid : RecordID} (h : Serial db₀ w db')
    (hinv : Inv s₀ earlier w s) (hi : w.clients[i]? = some ⟨.indexing r rid, before⟩) :
    Serial db₀ (w.stepOf i ⟨.indexing r rid, before⟩) db' := by
  obtain ⟨db₁, heq₁, hsame₁⟩ := h.reached _ (List.mem_of_getElem? hi) .page r rfl
  have hnext : ∃ db'', Database.putUpTo .index r.key r.value db' = .ok () db'' ∧
      db₁.SameWrites db'' := by
    simp only [Database.putUpTo, bind, EStateM.bind] at heq₁ ⊢
    cases hlog : Database.walAppend r.key r.value db' with
    | error err db₂ =>
        rw [hlog] at heq₁
        exact absurd heq₁ (by simp)
    | ok v db₂ =>
        rw [hlog] at heq₁
        dsimp only at heq₁ ⊢
        cases happend : Database.writerAppend r.key r.value db₂ with
        | error err db₃ =>
            rw [happend] at heq₁
            exact absurd heq₁ (by simp)
        | ok rid' db₃ =>
            rw [happend] at heq₁
            cases heq₁
            exact ⟨_, rfl, rfl, rfl, rfl, rfl⟩
  obtain ⟨db'', heq'', hsame''⟩ := hnext
  have hwrites : (w.stepOf i ⟨.indexing r rid, before⟩).db.SameWrites w.db := ⟨rfl, rfl, rfl, rfl⟩
  exact h.goesOn (d := ⟨.caching r, before⟩) hinv.apart hi rfl rfl rfl
    (rfl : _ = some (PutPoint.index, r)) ⟨rfl, rfl⟩ ⟨db'', heq'', hwrites.trans (hsame₁.trans hsame'')⟩

/-- The record cache is used, and the put returns. -/
theorem caching {before : List Record} (h : Serial db₀ w db') (hinv : Inv s₀ earlier w s)
    (hi : w.clients[i]? = some ⟨.caching r, before⟩) :
    ∃ db'', Serial db₀ (w.stepOf i ⟨.caching r, before⟩) db'' := by
  have hmem := List.mem_of_getElem? hi
  obtain ⟨db₁, heq₁, hsame₁⟩ := h.reached _ hmem .index r rfl
  obtain ⟨s', hholds', hcap'⟩ := h.holds
  -- the sequential put returns too
  obtain ⟨db₂, hholds₂, -, heq₂⟩ := hholds'.put hcap' r
  have hfits := h.fits _ hmem r rfl
  have hholds₂ := hholds₂ hfits
  rw [if_pos hfits] at heq₂
  have hcache : Database.cachePut r.key r.value db₁ = .ok () db₂ := by
    rw [← Database.put_of_putUpTo_index heq₁, heq₂]
  have hsame₂ := Database.sameWrites_cachePut hcache
  have hcap : 1 ≤ s.capacity := by
    rw [← hinv.holds.capacity, hsame₁.places, ← hsame₂.places, hholds₂.capacity]
    exact hcap'
  obtain ⟨db, heq, -, -⟩ := hinv.holds.cachePut hcap r.key r.value
  have hstep : w.stepOf i ⟨.caching r, before⟩ = w.returned i ⟨.caching r, before⟩ db r := by
    unfold stepOf
    dsimp only
    rw [heq]
  have hothers : ∀ x ∈ w.clients.set i ⟨.unlocking, before⟩, x.reached = none ∧ x.putting = none := by
    intro x hx
    rcases others hinv.apart hi rfl hx with rfl | hnone
    · exact ⟨rfl, rfl⟩
    · exact hnone
  rw [hstep]
  refine ⟨db₂, ⟨?_, ⟨s'.put r, hholds₂, hcap'⟩, ?_, fun _ => ?_, ?_⟩⟩
  · obtain ⟨answers, hcalls⟩ := h.calls
    obtain ⟨answers', hcalls'⟩ := Database.calls_concat_put hcalls heq₂
    refine ⟨answers', ?_⟩
    show Database.calls ((w.stored ++ [r]).map Record.putCall) db₀ = _
    rw [List.map_append]
    exact hcalls'
  · intro x hx r' hr'
    rw [(hothers x hx).2] at hr'
    exact absurd hr' (by simp)
  · exact (Database.sameWrites_cachePut heq).trans (hsame₁.trans hsame₂.symm)
  · intro x hx point r' hr'
    rw [(hothers x hx).1] at hr'
    exact absurd hr' (by simp)

/-! ## Every turn -/

/-- A step of a get writes nothing. -/
theorem shared {point : ClientPoint} {before : List Record} (h : Serial db₀ w db')
    (hinv : Inv s₀ earlier w s) (hi : w.clients[i]? = some ⟨point, before⟩)
    (hmode : Client.mode ⟨point, before⟩ = .shared) :
    Serial db₀ (w.stepOf i ⟨point, before⟩) db' := by
  have hc : Client.reached ⟨point, before⟩ = none := by
    refine (Client.reached_of_not_exclusive ?_).1
    rw [hmode]
    simp
  have hgoOn : ∀ (db : Database) (point' : ClientPoint),
      Client.mode ⟨point', before⟩ ≠ .exclusive → db.SameWrites w.db →
      Serial db₀ (w.goOn i ⟨point, before⟩ db point') db' := by
    intro db point' hmode' hsame
    obtain ⟨hreached, hputting⟩ := Client.reached_of_not_exclusive hmode'
    exact h.keep (d := ⟨point', before⟩) hi hc rfl hreached (by simp [hputting]) rfl hsame
  have hanswered : ∀ (db : Database) (key : Bytes) (value : Option Bytes), db.SameWrites w.db →
      Serial db₀ (w.answered i ⟨point, before⟩ db key value) db' := by
    intro db key value hsame
    exact h.keep (d := ⟨.unlockingShared, before⟩) hi hc rfl rfl (by simp [Client.putting]) rfl hsame
  -- an engine that shows the same file writes the same
  have hengine : ∀ e : StorageEngine, e.file = w.db.engine.file →
      Database.SameWrites { w.db with engine := e } w.db :=
    fun e hfile => ⟨rfl, congrArg MappedFile.bytes hfile, rfl, rfl⟩
  have hsame := Database.SameWrites.refl w.db
  cases point with
  | idle | logging r | appending r | indexing r rid | caching r | unlocking => cases hmode
  | unlockingShared => exact hgoOn w.db .idle (by simp [Client.mode]) hsame
  | parsing key rid page => exact hgoOn w.db _ (by simp [Client.mode]) hsame
  | probing key =>
      have hcache : Database.SameWrites { w.db with recordCache := (w.db.recordCache.get key).2 } w.db :=
        ⟨rfl, rfl, rfl, LruCache.capacity_get _ _⟩
      unfold stepOf
      dsimp only
      split
      · rename_i value cache heq
        rw [heq] at hcache
        exact hanswered _ key (some value) hcache
      · rename_i cache heq
        rw [heq] at hcache
        exact hgoOn _ (.looking key) (by simp [Client.mode]) hcache
  | looking key =>
      unfold stepOf
      dsimp only
      split
      · exact hanswered w.db key none hsame
      · rename_i rid _
        exact hgoOn w.db (.fetching key rid) (by simp [Client.mode]) hsame
  | fetching key rid =>
      unfold stepOf
      dsimp only
      by_cases hout : rid.pageId ≥ w.db.engine.getTotalPages
      · rw [if_pos hout]
        exact hanswered w.db key none hsame
      have hlt : rid.pageId < w.db.engine.getTotalPages := Nat.not_le.mp hout
      have htotal := hinv.holds.total
      have hpos : 0 < s.frames := hinv.frame.resolve_left (by omega)
      rw [if_neg hout]
      rcases StorageEngine.fetchPage_outcome (hinv.holds.ready hpos) hlt with
        ⟨-, page, e, heq, hf⟩ | ⟨-, -, e, heq, -, hfile, -, -⟩
      · rw [heq]
        exact hgoOn _ (.parsing key rid page) (by simp [Client.mode]) (hengine e hf.file)
      · rw [heq]
        exact hgoOn _ .unlockingShared (by simp [Client.mode]) (hengine e hfile)
  | releasing key rid page read =>
      have hfile : (w.db.engine.releasePage page).file = w.db.engine.file := by
        unfold StorageEngine.releasePage StorageEngine.file PageCache.unpinPage
        dsimp only
        split
        · split <;> rfl
        · rfl
      have hreleased := hengine _ hfile
      cases read with
      | absent => exact hanswered _ key none hreleased
      | outside => exact hgoOn _ .unlockingShared (by simp [Client.mode]) hreleased
      | found record =>
          unfold stepOf
          dsimp only
          by_cases hkey : record.key = key
          · rw [if_pos hkey]
            exact hgoOn _ (.filling key record.value) (by simp [Client.mode]) hreleased
          · rw [if_neg hkey]
            exact hanswered _ key none hreleased
  | filling key value =>
      obtain ⟨s', hholds', hcap'⟩ := h.holds
      have hquiet : ∀ x ∈ w.clients, x.reached = none := fun x hx =>
        (Client.reached_of_not_exclusive (hinv.apart.not_exclusive hi hmode x hx)).1
      have hcap : 1 ≤ s.capacity := by
        rw [← hinv.holds.capacity, (h.quiet hquiet).places, hholds'.capacity]
        exact hcap'
      obtain ⟨db, heq, -, -⟩ := hinv.holds.cachePut hcap key value
      unfold stepOf
      dsimp only
      rw [heq]
      exact hanswered db key (some value) (Database.sameWrites_cachePut heq)

/-- A call begins. -/
theorem begin (h : Serial db₀ w db') {call : DbCall}
    (hfits : ∀ key value, call = .put key value → Record.need ⟨key, value⟩ ≤ pageRoom) :
    Serial db₀ (w.begin i call) db' := by
  unfold ClientWorld.begin
  split
  · rename_i before hi
    cases call with
    | get key =>
        dsimp only
        split
        · exact h.keep (d := ⟨.probing key, w.stored⟩) hi rfl rfl rfl (by simp [Client.putting]) rfl
            (Database.SameWrites.refl w.db)
        · exact h
    | put key value =>
        dsimp only
        split
        · refine h.keep (d := ⟨.logging ⟨key, value⟩, before⟩) hi rfl rfl rfl ?_ rfl
            (Database.SameWrites.refl w.db)
          intro r hr
          rw [← Option.some.inj hr]
          exact hfits key value rfl
        · exact h
  · exact h

/-- **Every turn keeps the clients beside a sequential one.** -/
theorem turn (h : Serial db₀ w db') (hinv : Inv s₀ earlier w s) {t : Turn}
    (hfits : ∀ i key value, t = .begin i (.put key value) → Record.need ⟨key, value⟩ ≤ pageRoom) :
    ∃ db'', Serial db₀ (w.turn t) db'' := by
  cases t with
  | begin i call => exact ⟨db', h.begin fun key value heq => hfits i key value (by rw [heq])⟩
  | step i =>
      unfold ClientWorld.turn
      dsimp only
      cases hi : w.clients[i]? with
      | none => exact ⟨db', h⟩
      | some c =>
          obtain ⟨point, before⟩ := c
          cases point with
          | idle => exact ⟨db', h⟩
          | logging r => exact ⟨db', h.logging hinv hi⟩
          | appending r => exact ⟨db', h.appending hinv hi⟩
          | indexing r rid => exact ⟨db', h.indexing hinv hi⟩
          | caching r => exact h.caching hinv hi
          | unlocking =>
              exact ⟨db', h.keep (d := ⟨.idle, before⟩) hi rfl rfl rfl (by simp [Client.putting]) rfl
                (Database.SameWrites.refl w.db)⟩
          | _ => exact ⟨db', h.shared hinv hi rfl⟩

theorem run (h : Serial db₀ w db') (hinv : Inv s₀ earlier w s) (schedule : List Turn)
    (hfits : ∀ i key value, Turn.begin i (.put key value) ∈ schedule →
      Record.need ⟨key, value⟩ ≤ pageRoom) :
    ∃ db'', Serial db₀ (w.run schedule) db'' := by
  induction schedule generalizing w db' s with
  | nil => exact ⟨db', h⟩
  | cons t schedule ih =>
      obtain ⟨s', hinv'⟩ := hinv.turn t
      obtain ⟨db'', h'⟩ := h.turn hinv fun i key value heq =>
        hfits i key value (by rw [← heq]; exact List.mem_cons_self)
      exact ih h' hinv' fun i key value hmem => hfits i key value (List.mem_cons_of_mem t hmem)

end Serial

theorem serial_start {db : Database} (hdb : db.Holds (fun _ => 0) s) (hcap : 1 ≤ s.capacity)
    (n : Nat) : Serial db (start db n) db := by
  have hidle : ∀ c ∈ (start db n).clients, c = ⟨.idle, []⟩ := fun c hc => List.eq_of_mem_replicate hc
  refine ⟨⟨[], rfl⟩, ⟨s, hdb, hcap⟩, ?_, fun _ => Database.SameWrites.refl db, ?_⟩
  · intro c hc r hr
    rw [hidle c hc] at hr
    exact absurd hr (by simp [Client.putting])
  · intro c hc point r hr
    rw [hidle c hc] at hr
    exact absurd hr (by simp [Client.reached])

end ClientWorld

/-- A database opened on files of fewer than 2^20 pages that sessions closed normally have left. -/
theorem ClientWorld.opened {disk : Disk} {history : List Record} (hclosed : ClosedCleanly disk history)
    (hsize : (disk.data.getD []).length < 2 ^ 20 * PAGE_SIZE) {cfg : Config}
    (hplaces : 1 ≤ cfg.recordCacheSize) {db : Database} (hnew : Database.new cfg disk = .ok db) :
    ∃ s, db.Holds (fun _ => 0) s ∧ (s.total = 0 ∨ 0 < s.frames) ∧ 1 ≤ s.capacity ∧
      ∀ n, Inv s history (start db n) s := by
  obtain ⟨pages, hclean⟩ := hclosed.cleanFiles
  obtain ⟨hopens, hholds⟩ := Database.holds_of_new hclean.shows hnew
  have hpages : pages.length ≤ 2 ^ 20 := by
    have hlen := hclean.shows.data.length_eq
    rw [List.length_nil, Nat.zero_add] at hlen
    rw [hlen] at hsize
    exact le_of_lt (Nat.lt_of_mul_lt_mul_right hsize)
  have hcap : 1 ≤ (Session.opened cfg pages (disk.wal.getD [])).capacity := by
    rw [(Session.opened_frame cfg pages (disk.wal.getD [])).2.1]
    exact hplaces
  have hcached : Current (Session.opened cfg pages (disk.wal.getD [])).cached (entries history) := by
    rw [Session.cached_opened, hclean.logged.replayable]
    exact current_lruUses _ _
  refine ⟨_, hholds, hopens.frame_opened, hcap, fun n => ?_⟩
  apply inv_start hholds hopens.frame_opened n hcached
  intro k value hk
  rw [Session.found_opened] at hk
  exact hclean.upToDate.showsNewest hpages k value hk

/-- Behind every schedule the clients are beside a sequential one, and one put at most is under way. -/
theorem ClientWorld.serial_behind {disk : Disk} {history : List Record}
    (hclosed : ClosedCleanly disk history)
    (hsize : (disk.data.getD []).length < 2 ^ 20 * PAGE_SIZE) {cfg : Config}
    (hplaces : 1 ≤ cfg.recordCacheSize) {db : Database} (hnew : Database.new cfg disk = .ok db)
    (n : Nat) (schedule : List Turn)
    (hfits : ∀ i key value, Turn.begin i (.put key value) ∈ schedule →
      Record.need ⟨key, value⟩ ≤ pageRoom) :
    ∃ db', Serial db ((start db n).run schedule) db' ∧
      SharedLock.Compatible Client.mode ((start db n).run schedule).clients := by
  obtain ⟨s₀, hholds, -, hcap, hinv⟩ := opened hclosed hsize hplaces hnew
  obtain ⟨db', hserial⟩ := (serial_start hholds hcap n).run (hinv n) schedule hfits
  obtain ⟨s, hinv'⟩ := (hinv n).run schedule
  exact ⟨db', hserial, hinv'.apart⟩

/-- **On disk, concurrent clients are one client.** For any database opened on files of fewer than 2^20
pages that sessions closed normally have left, any number of clients and any schedule of their steps in
which every put fits a page: the puts that have returned, made one after the other in that order by a
single client, all return. When no client is inside a put, the files, and what the destructors make of
them, are those of this client, so that closing leaves the files of a clean sequential session; and at
any other moment the files are those of this client once it has made one more put up to the call that
it has reached. -/
theorem concurrent_puts_serial {disk : Disk} {history : List Record}
    (hclosed : ClosedCleanly disk history)
    (hsize : (disk.data.getD []).length < 2 ^ 20 * PAGE_SIZE) {cfg : Config}
    (hplaces : 1 ≤ cfg.recordCacheSize) {db : Database} (hnew : Database.new cfg disk = .ok db)
    (n : Nat) (schedule : List ClientWorld.Turn)
    (hfits : ∀ i key value, ClientWorld.Turn.begin i (.put key value) ∈ schedule →
      Record.need ⟨key, value⟩ ≤ pageRoom) :
    let w := (ClientWorld.start db n).run schedule
    ∃ answers db', Database.calls (w.stored.map Record.putCall) db = .ok answers db' ∧
      ((∀ c ∈ w.clients, c.reached = none) → w.db.files = db'.files ∧ w.db.destroy = db'.destroy ∧
        ClosedCleanly w.db.destroy (history ++ w.stored)) ∧
      ∀ c ∈ w.clients, ∀ point r, c.reached = some (point, r) →
        ∃ db'', Database.putUpTo point r.key r.value db' = .ok () db'' ∧ w.db.files = db''.files := by
  intro w
  obtain ⟨db', hserial, -⟩ := ClientWorld.serial_behind hclosed hsize hplaces hnew n schedule hfits
  obtain ⟨answers, hcalls⟩ := hserial.calls
  refine ⟨answers, db', hcalls, fun hquiet => ?_, fun c hc point r hr => ?_⟩
  · obtain ⟨hfiles, hdestroy⟩ := (hserial.quiet hquiet).files
    refine ⟨hfiles, hdestroy, ?_⟩
    have hsession := ClosedCleanly.session hclosed hnew hcalls
    rw [putsOf_putCall] at hsession
    rw [hdestroy]
    exact hsession
  · obtain ⟨db'', heq, hsame⟩ := hserial.reached c hc point r hr
    exact ⟨db'', heq, hsame.files.1⟩

/-- A put of one client, a get of the other one that has to wait, and the other one's put, which has
reached the log when the files are looked at. -/
theorem concurrent_puts_serial_two :
    ∃ db, Database.new ⟨1, 1, false⟩ Disk.empty = .ok db ∧
      let w := (ClientWorld.start db 2).run [.begin 0 (.put [1] [2]), .step 0, .begin 1 (.get [1]),
        .step 0, .step 0, .step 0, .step 0, .begin 1 (.put [1] [3]), .step 1]
      ∃ answers db', Database.calls (w.stored.map Record.putCall) db = .ok answers db' ∧
        ∀ c ∈ w.clients, ∀ point r, c.reached = some (point, r) →
          ∃ db'', Database.putUpTo point r.key r.value db' = .ok () db'' ∧
            w.db.files = db''.files := by
  obtain ⟨-, db, hnew, -⟩ := cleanFiles_empty.opens ⟨1, 1, false⟩ le_rfl le_rfl
  refine ⟨db, hnew, ?_⟩
  obtain ⟨answers, db', hcalls, -, hreached⟩ := concurrent_puts_serial ClosedCleanly.new
    (by decide) le_rfl hnew 2
    [.begin 0 (.put [1] [2]), .step 0, .begin 1 (.get [1]), .step 0, .step 0, .step 0, .step 0,
      .begin 1 (.put [1] [3]), .step 1] (by
        intro i key value hmem
        simp only [List.mem_cons, List.not_mem_nil, reduceCtorEq, and_false, false_or, or_false,
          ClientWorld.Turn.begin.injEq, DbCall.put.injEq] at hmem
        rcases hmem with ⟨-, rfl, rfl⟩ | ⟨-, rfl, rfl⟩ <;> decide)
  exact ⟨answers, db', hcalls, hreached⟩

end Aqa
