/-
# Aqa.Db.DurableMap — a database that remembers every key is a durable map.

Sessions one after the other on the same files: each opens the database with sizes of its own, makes
some calls and is closed, or crashes, between two calls or inside a put. While the record cache has a
place for each key, the gets answer like a map (`mapSessions`) that knows of no files, no caches and no
crashes: a put whose frame has reached the log has happened, and nothing else has.
-/
import Aqa.Db.Durability

namespace Aqa

open Aqa.Lib

/-! ## The map -/

/-- The map behind some puts. -/
def mapPuts (m : Bytes → Option Bytes) (recs : List Record) : Bytes → Option Bytes :=
  recs.foldl (fun m r => Function.update m r.key (some r.value)) m

/-- What calls on a map answer. -/
def mapCalls (m : Bytes → Option Bytes) : List DbCall → List (Option Bytes)
  | [] => []
  | .get key :: cs => m key :: mapCalls m cs
  | .put key value :: cs => none :: mapCalls (Function.update m key (some value)) cs

theorem mapCalls_gets (m : Bytes → Option Bytes) (keys : List Bytes) :
    mapCalls m (keys.map .get) = keys.map m := by
  induction keys with
  | nil => rfl
  | cons key keys ih => exact congrArg (m key :: ·) ih

/-- How a session ends. -/
inductive SessionEnd where
  | close
  | crash
  | crashInPut (point : PutPoint) (r : Record)
  deriving DecidableEq, Repr

/-- A session: the sizes of the caches, the calls, and its end. -/
structure SessionPlan where
  cfg : Config
  calls : List DbCall
  ending : SessionEnd

/-- The puts whose frame a session writes. -/
def SessionPlan.puts (p : SessionPlan) : List Record :=
  match p.ending with
  | .crashInPut _ r => putsOf p.calls ++ [r]
  | .close | .crash => putsOf p.calls

/-- What the gets of sessions answer on a map. -/
def mapSessions (m : Bytes → Option Bytes) : List SessionPlan → List (List (Option Bytes))
  | [] => []
  | p :: ps => mapCalls m p.calls :: mapSessions (mapPuts m p.puts) ps

/-! ## The database -/

namespace Database

/-- The files that a session leaves. -/
def ended (ending : SessionEnd) (db : Database) : Option Disk :=
  match ending with
  | .close => some db.destroy
  | .crash => some db.files
  | .crashInPut point r =>
      match putUpTo point r.key r.value db with
      | .ok _ db' => some db'.files
      | .error _ _ => none

/-- A session: what its calls return, and the files it leaves. Nothing if something throws. -/
def session (p : SessionPlan) (disk : Disk) : Option (List (Option Bytes) × Disk) :=
  match Database.new p.cfg disk with
  | .error _ => none
  | .ok db =>
      match calls p.calls db with
      | .error _ _ => none
      | .ok answers db' => (ended p.ending db').map fun disk' => (answers, disk')

/-- Sessions one after the other. -/
def sessions : List SessionPlan → Disk → Option (List (List (Option Bytes)) × Disk)
  | [], disk => some ([], disk)
  | p :: ps, disk =>
      (session p disk).bind fun out => (sessions ps out.2).map fun rest => (out.1 :: rest.1, rest.2)

end Database

/-! ## Remembering -/

/-- The last writes, as a map. -/
theorem lastWrite_put (recs : List Record) (r : Record) :
    lastWrite (entries (recs ++ [r])) =
      Function.update (lastWrite (entries recs)) r.key (some r.value) := by
  funext k
  rw [entries_append]
  show lastWrite (entries recs ++ [(r.key, r.value)]) k = _
  rw [lastWrite_concat]
  by_cases hk : r.key = k
  · rw [if_pos hk, ← hk, Function.update_self]
  · rw [if_neg hk, Function.update_of_ne (Ne.symm hk)]

theorem mapPuts_lastWrite (recs more : List Record) :
    mapPuts (lastWrite (entries recs)) more = lastWrite (entries (recs ++ more)) := by
  induction more generalizing recs with
  | nil =>
      rw [List.append_nil]
      rfl
  | cons r more ih =>
      rw [show recs ++ r :: more = (recs ++ [r]) ++ more by simp, ← ih, lastWrite_put]
      rfl

/-- Fewer puts have no more keys. -/
theorem card_keys_le {recs more : List Record} (h : recs <+: more) :
    (recs.map Record.key).toFinset.card ≤ (more.map Record.key).toFinset.card := by
  apply Finset.card_le_card
  intro k hk
  rw [List.mem_toFinset] at hk ⊢
  exact (h.map Record.key).subset hk

namespace Session.Remembers

variable {s : Session} {recs : List Record}

/-- A put finds a place for its key. -/
theorem put (h : s.Remembers recs) (r : Record)
    (hroom : ((recs ++ [r]).map Record.key).toFinset.card ≤ s.capacity) :
    (s.put r).Remembers (recs ++ [r]) := by
  have hcached : (s.put r).cached = lruPut s.capacity s.cached r.key r.value := rfl
  -- the keys behind the put, before any is dropped
  obtain ⟨keys, hkeys⟩ : ∃ l, recency (s.cached.map Prod.fst) [r.key] = l := ⟨_, rfl⟩
  have hnodup : keys.Nodup := hkeys ▸ nodup_recency h.current.nodup [r.key]
  have hmem : ∀ k, k ∈ keys ↔ k ∈ (recs ++ [r]).map Record.key := by
    intro k
    rw [← hkeys, mem_recency_iff, h.keys, List.map_append, List.mem_append, List.map_singleton]
    exact Or.comm
  have hlength : keys.length ≤ s.capacity := by
    rw [← List.toFinset_card_of_nodup hnodup]
    refine le_trans (Finset.card_le_card fun k hk => ?_) hroom
    rw [List.mem_toFinset] at hk ⊢
    exact (hmem k).mp hk
  have hput : (lruPut s.capacity s.cached r.key r.value).map Prod.fst = keys := by
    rw [keys_lruPut h.current.nodup]
    show (recency (s.cached.map Prod.fst) [r.key]).take s.capacity = keys
    rw [hkeys, List.take_of_length_le hlength]
  refine ⟨?_, fun k => ?_, ?_, fun k hk => ?_⟩
  · rw [hcached, entries_append]
    exact h.current.write s.capacity r.key r.value
  · rw [hcached, hput]
    exact hmem k
  · rw [hcached]
    exact length_lruPut_le _ _ _ _
  · rw [List.map_append, List.mem_append, List.map_singleton, List.mem_singleton, not_or] at hk
    have hplaced : (s.put r).placed =
        s.placed ++ [(r.key, StorageWriter.lastRid 0 (s.put r).pager)] := rfl
    have hother : (s.put r).found k = s.found k := by
      unfold Session.found
      rw [hplaced, lastWrite_concat, if_neg (Ne.symm hk.2)]
      rfl
    rw [hother]
    exact h.unknown k hk.1

end Session.Remembers

/-- **A session that remembers every key answers like a map.** -/
theorem Database.Holds.mapCalls (cs : List DbCall) :
    ∀ {db : Database} {s : Session} {recs : List Record}, db.Holds (fun _ => 0) s →
      (s.total = 0 ∨ 0 < s.frames) → 1 ≤ s.capacity → s.Remembers recs →
      (∀ r ∈ putsOf cs, Record.need r ≤ pageRoom) →
      ((recs ++ putsOf cs).map Record.key).toFinset.card ≤ s.capacity →
      ∃ db', Database.calls cs db = .ok (Aqa.mapCalls (lastWrite (entries recs)) cs) db' := by
  induction cs with
  | nil => exact fun _ _ _ _ _ _ => ⟨_, rfl⟩
  | cons c cs ih =>
      intro db s recs h hf hcap hremembers hfits hroom
      cases c with
      | get key =>
          obtain ⟨db₁, heq, h₁⟩ := h.get hf fun _ => hcap
          obtain ⟨hmapped, -, -, -, -, hcapacity, hframes⟩ := s.got_frame key
          have hf₁ : (s.got key).total = 0 ∨ 0 < (s.got key).frames := by
            unfold Session.total
            rw [hmapped, hframes]
            exact hf
          obtain ⟨db₂, hrest⟩ := ih h₁ hf₁ (by rw [hcapacity]; exact hcap) (hremembers.got key) hfits
            (by rw [hcapacity]; exact hroom)
          refine ⟨db₂, ?_⟩
          rw [hremembers.answer] at heq
          simp only [Database.calls, Database.call, bind, EStateM.bind, heq, hrest]
          rfl
      | put key value =>
          have hr : Record.need ⟨key, value⟩ ≤ pageRoom := hfits ⟨key, value⟩ List.mem_cons_self
          obtain ⟨db₁, h₁, -, heq⟩ := h.put hcap ⟨key, value⟩
          rw [if_pos hr] at heq
          have hall : recs ++ putsOf (.put key value :: cs) =
              (recs ++ [⟨key, value⟩]) ++ putsOf cs := by
            rw [List.append_assoc]
            rfl
          rw [hall] at hroom
          obtain ⟨db₂, hrest⟩ := ih (h₁ hr) hf hcap
            (hremembers.put ⟨key, value⟩ (le_trans (card_keys_le (List.prefix_append _ _)) hroom))
            (fun r hmem => hfits r (List.mem_cons_of_mem _ hmem)) hroom
          refine ⟨db₂, ?_⟩
          rw [lastWrite_put] at hrest
          simp only [Database.calls, Database.call, bind, EStateM.bind, heq, pure, EStateM.pure, hrest]
          rfl

/-- A put gets to each of its calls. -/
theorem Database.Holds.exists_putUpTo {db : Database} {s : Session} (h : db.Holds (fun _ => 0) s)
    (hcap : 1 ≤ s.capacity) (point : PutPoint) {r : Record} (hr : Record.need r ≤ pageRoom) :
    ∃ db', Database.putUpTo point r.key r.value db = .ok () db' := by
  obtain ⟨db₁, heq₁, h₁⟩ := h.walAppend r.key r.value
  obtain ⟨db₂, h₂, heq₂⟩ := h₁.writerAppend r
  rw [if_pos hr] at heq₂
  cases point with
  | wal => exact ⟨db₁, heq₁⟩
  | page =>
      refine ⟨db₂, ?_⟩
      simp only [Database.putUpTo, bind, EStateM.bind, heq₁, heq₂]
      rfl
  | index =>
      obtain ⟨db₃, heq₃, -⟩ := h₂.indexInsert r.key
        (StorageWriter.lastRid 0 ((s.logged r.key r.value).appended r).pager)
      refine ⟨db₃, ?_⟩
      simp only [Database.putUpTo, bind, EStateM.bind, heq₁, heq₂, heq₃]
  | cache =>
      obtain ⟨db₃, -, -, heq₃⟩ := h.put hcap r
      rw [if_pos hr] at heq₃
      exact ⟨db₃, heq₃⟩

/-! ## Sessions -/

/-- Opened with a place for each key that was put. -/
theorem LivedFiles.remembering {disk : Disk} {pages : List (List Record)} {logged : List Record}
    {copies : List Nat} (h : LivedFiles disk pages logged copies) {cfg : Config}
    (hframes : 1 ≤ cfg.cacheSizePages) (hplaces : 1 ≤ cfg.recordCacheSize)
    (hfew : (logged.map Record.key).toFinset.card ≤ cfg.recordCacheSize) :
    ∃ db s, Database.new cfg disk = .ok db ∧ db.Holds (fun _ => 0) s ∧ (s.total = 0 ∨ 0 < s.frames) ∧
      s.capacity = cfg.recordCacheSize ∧ s.Remembers logged := by
  obtain ⟨hopens, db, hnew, hholds⟩ := h.opens cfg hframes hplaces
  obtain ⟨-, hcap, -⟩ := Session.opened_frame cfg pages (disk.wal.getD [])
  have hcached := Session.cached_opened cfg pages (disk.wal.getD [])
  rw [h.log.replayable, ← hcap] at hcached
  exact ⟨db, _, hnew, hholds, hopens.frame_opened, hcap,
    h.remembers hcached (fun k => Session.found_opened k) (by rw [hcap]; exact hfew)⟩

/-- After a crash, gets in any order answer with the last put whose frame is in the log, if the record
cache has a place for each key. -/
theorem Lived.gets {Allowed : List Nat → List Record → Nat → Prop} {disk : Disk}
    {pages : List (List Record)} {logged : List Record} {copies : List Nat}
    (h : Lived Allowed disk pages logged copies) {cfg : Config} (hframes : 1 ≤ cfg.cacheSizePages)
    (hplaces : 1 ≤ cfg.recordCacheSize)
    (hfew : (logged.map Record.key).toFinset.card ≤ cfg.recordCacheSize) :
    ∃ db, Database.new cfg disk = .ok db ∧ ∀ keys : List Bytes, ∃ db',
      Database.calls (keys.map .get) db = .ok (keys.map (lastWrite (entries logged))) db' := by
  obtain ⟨db, s, hnew, hholds, hf, hcap, hremembers⟩ := h.files.remembering hframes hplaces hfew
  refine ⟨db, hnew, fun keys => ?_⟩
  have hnone : putsOf (keys.map .get) = [] := by
    rw [putsOf, List.filterMap_map]
    exact List.filterMap_eq_nil_iff.mpr fun _ _ => rfl
  rw [← mapCalls_gets]
  apply hholds.mapCalls _ hf (by rw [hcap]; exact hplaces) hremembers
  · simp [hnone]
  · rw [hnone, List.append_nil, hcap]
    exact hfew

/-- A session on any files that closed or crashed sessions have left. -/
theorem Lived.planned {disk : Disk} {pages : List (List Record)} {logged : List Record}
    {copies : List Nat} (h : Lived AnyCrash disk pages logged copies) {p : SessionPlan}
    (hframes : 1 ≤ p.cfg.cacheSizePages) (hplaces : 1 ≤ p.cfg.recordCacheSize)
    (hfits : ∀ r ∈ p.puts, Record.need r ≤ pageRoom)
    (hroom : ((logged ++ p.puts).map Record.key).toFinset.card ≤ p.cfg.recordCacheSize) :
    ∃ disk' pages' copies', Lived AnyCrash disk' pages' (logged ++ p.puts) copies' ∧
      Database.session p disk = some (mapCalls (lastWrite (entries logged)) p.calls, disk') := by
  have hfiles := h.files
  obtain ⟨db, s₀, hnew, hholds, hf, hcap, hremembers⟩ := hfiles.remembering hframes hplaces
    (le_trans (card_keys_le (List.prefix_append _ _)) hroom)
  -- the puts of the calls come first
  have hfirst : putsOf p.calls <+: p.puts := by
    unfold SessionPlan.puts
    cases p.ending with
    | close | crash => exact List.prefix_rfl
    | crashInPut point r => exact List.prefix_append _ _
  obtain ⟨db', hcalls⟩ := hholds.mapCalls p.calls hf (by rw [hcap]; exact hplaces) hremembers
    (fun r hr => hfits r (hfirst.subset hr)) (by
      rw [hcap]
      exact le_trans (card_keys_le ((List.prefix_append_right_inj logged).mpr hfirst)) hroom)
  have hstate := (SessionState.opened hnew).calls p.calls hcalls
  rw [List.nil_append] at hstate
  obtain ⟨s, hholds', hwrote, -⟩ := hstate.wrote hfiles.shows hfiles.log
  obtain ⟨-, hholds₁, -⟩ := hholds.calls_ok p.calls hf hcalls
  have hsession : ∀ disk', Database.ended p.ending db' = some disk' →
      Database.session p disk = some (mapCalls (lastWrite (entries logged)) p.calls, disk') := by
    intro disk' hended
    simp only [Database.session, hnew, hcalls, hended, Option.map_some]
  cases hending : p.ending with
  | close =>
      have hputs : p.puts = putsOf p.calls := by
        unfold SessionPlan.puts
        rw [hending]
      have hshows := hholds'.shows_destroy
      rw [← hshows.wal] at hshows
      rw [hputs]
      exact ⟨_, _, _, h.closed hstate hshows, hsession _ (by rw [hending]; rfl)⟩
  | crash =>
      have hputs : p.puts = putsOf p.calls := by
        unfold SessionPlan.puts
        rw [hending]
      have hshows := hholds'.shows_files
      rw [← hshows.wal] at hshows
      rw [hputs]
      exact ⟨_, _, _, h.crashed hstate hshows trivial, hsession _ (by rw [hending]; rfl)⟩
  | crashInPut point r =>
      have hputs : p.puts = putsOf p.calls ++ [r] := by
        unfold SessionPlan.puts
        rw [hending]
      have hr : Record.need r ≤ pageRoom := hfits r (by rw [hputs]; simp)
      obtain ⟨db'', hput⟩ := hholds₁.exists_putUpTo (by
        rw [(Session.run_frame _ _).2.1, hcap]
        exact hplaces) point hr
      obtain ⟨s', m, hholds'', -⟩ := hholds'.putUpTo hwrote hr hput
      have hshows := hholds''.shows_files
      rw [← hshows.wal] at hshows
      rw [hputs, ← List.append_assoc]
      refine ⟨_, _, _, h.crashedInPut hstate hr hput hshows trivial, hsession _ ?_⟩
      rw [hending]
      simp only [Database.ended, hput]

theorem Lived.sessions (plans : List SessionPlan) :
    ∀ {disk : Disk} {pages : List (List Record)} {logged : List Record} {copies : List Nat},
      Lived AnyCrash disk pages logged copies →
      (∀ p ∈ plans, 1 ≤ p.cfg.cacheSizePages ∧ 1 ≤ p.cfg.recordCacheSize ∧
        ∀ r ∈ p.puts, Record.need r ≤ pageRoom) →
      (∀ i p, plans[i]? = some p →
        ((logged ++ (plans.take (i + 1)).flatMap SessionPlan.puts).map Record.key).toFinset.card ≤
          p.cfg.recordCacheSize) →
      ∃ disk', Database.sessions plans disk =
        some (mapSessions (lastWrite (entries logged)) plans, disk') := by
  induction plans with
  | nil => exact fun _ _ _ => ⟨_, rfl⟩
  | cons p ps ih =>
      intro disk pages logged copies h hplans hroom
      obtain ⟨hframes, hplaces, hfits⟩ := hplans p List.mem_cons_self
      have hfirst := hroom 0 p rfl
      rw [List.take_succ_cons, List.take_zero, List.flatMap_singleton] at hfirst
      obtain ⟨disk', pages', copies', hlived, hsession⟩ := h.planned hframes hplaces hfits hfirst
      obtain ⟨disk'', hrest⟩ := ih hlived (fun q hq => hplans q (List.mem_cons_of_mem p hq))
        fun i q hq => by
          have hlater := hroom (i + 1) q hq
          rw [List.take_succ_cons, List.flatMap_cons, ← List.append_assoc] at hlater
          exact hlater
      refine ⟨disk'', ?_⟩
      rw [Database.sessions, hsession, Option.bind_some, hrest, mapSessions, mapPuts_lastWrite]
      rfl

end Aqa
