/-
# Aqa.Db.OwnWrites — what a session reads of its own puts.

The index sends a key that was put in this session to a page behind the mapping, where `get` finds
nothing: only the record cache can answer. `KeyCache` follows the keys in the record cache through
the calls of a session, and `read_your_writes_iff` says that the puts are read back exactly while
their keys stay in it.
-/
import Aqa.Db.ScanHistory

namespace Aqa

open Aqa.Lib StorageReader

/-! ## The keys in the record cache -/

/-- The keys written in a session, and those in its record cache, the most recently used first. -/
structure KeyCache where
  written : List Bytes
  held : List Bytes

namespace KeyCache

/-- What a call does. A get uses its key when it finds it: in the cache, or, unless the key was
written in this session, through the index. -/
def call (cap : Nat) (indexed : List Bytes) (c : KeyCache) : DbCall → KeyCache
  | .put key _ => ⟨key :: c.written, touch cap c.held key⟩
  | .get key =>
      if key ∈ c.held ∨ (key ∉ c.written ∧ key ∈ indexed) then
        { c with held := touch cap c.held key }
      else c

/-- What some calls do. -/
def calls (cap : Nat) (indexed : List Bytes) (c : KeyCache) (cs : List DbCall) : KeyCache :=
  cs.foldl (call cap indexed) c

/-- The record cache of a session that replayed this history. -/
def opened (cap : Nat) (history : List Record) : KeyCache :=
  ⟨[], (recency [] (history.map Record.key)).take cap⟩

theorem calls_concat (cap : Nat) (indexed : List Bytes) (c : KeyCache) (cs : List DbCall)
    (a : DbCall) : calls cap indexed c (cs ++ [a]) = call cap indexed (calls cap indexed c cs) a := by
  rw [calls, List.foldl_append]
  rfl

end KeyCache

theorem putsOf_concat (cs : List DbCall) (c : DbCall) : putsOf (cs ++ [c]) = putsOf cs ++ putsOf [c] :=
  List.filterMap_append

theorem Session.run_concat (s : Session) (cs : List DbCall) (c : DbCall) :
    s.run (cs ++ [c]) = (s.run cs).after c := by
  rw [run, List.foldl_append]
  rfl

/-- Pages that are closed stay closed. -/
theorem Session.length_pages_after (s : Session) (c : DbCall) :
    s.pager.pages.length ≤ (s.after c).pager.pages.length := by
  cases c with
  | put key value => exact (Pager.prefix_pages_append _ _).length_le
  | get key =>
      obtain ⟨-, hpager, -⟩ := s.got_frame key
      exact le_of_eq (congrArg (fun p : Pager Record => p.pages.length) hpager.symm)

theorem Session.length_pages_run (s : Session) (cs : List DbCall) :
    s.pager.pages.length ≤ (s.run cs).pager.pages.length := by
  induction cs using List.reverseRecOn with
  | nil => exact le_rfl
  | append_singleton cs c ih =>
      rw [run_concat]
      exact le_trans ih (length_pages_after _ c)

/-- Every get of a key that was put before in these calls returns the last such put. -/
def ReadsOwnWrites (cs : List DbCall) (answers : List (Option Bytes)) : Prop :=
  ∀ i k, cs[i]? = some (.get k) → k ∈ (putsOf (cs.take i)).map Record.key →
    answers[i]? = some (lastWrite (entries (putsOf (cs.take i))) k)

/-! ## Working sessions -/

/-- A session on these pages that has put these records and holds these keys in its record cache. -/
structure Works (s : Session) (pages : List (List Record)) (puts : List Record) (c : KeyCache) :
    Prop where
  mapped : s.mapped = pages
  nodup : (s.cached.map Prod.fst).Nodup
  keys : s.cached.map Prod.fst = c.held
  written : ∀ k, k ∈ c.written ↔ k ∈ puts.map Record.key
  newest : ∀ k v, cachedValue s.cached k = some v → k ∈ puts.map Record.key →
    lastWrite (entries puts) k = some v
  away : ∀ k ∈ puts.map Record.key, ∃ rid, lastWrite s.placed k = some rid ∧ s.total ≤ rid.pageId
  indexed : ∀ k, k ∉ puts.map Record.key → s.found k = lastWrite (entries (addressed pages)) k

namespace Works

variable {s : Session} {pages : List (List Record)} {puts : List Record} {c : KeyCache}

/-- The index leads a written key behind the mapping. -/
theorem found_written (h : Works s pages puts c) {k : Bytes} (hk : k ∈ puts.map Record.key) :
    s.found k = none := by
  obtain ⟨rid, hrid, hle⟩ := h.away k hk
  unfold Session.found Session.recordAt
  rw [hrid, Option.bind_some, if_neg (Nat.not_lt.mpr hle)]
  rfl

theorem held_iff (h : Works s pages puts c) (k : Bytes) :
    k ∈ c.held ↔ ∃ v, cachedValue s.cached k = some v := by
  rw [← h.keys, ← cachedValue_isSome_iff, Option.isSome_iff_exists]

/-- What a get of a key written in this session answers. -/
theorem answer_written (h : Works s pages puts c) {k : Bytes} (hk : k ∈ puts.map Record.key) :
    s.answer k = lastWrite (entries puts) k ↔ k ∈ c.held := by
  rw [h.held_iff, Session.answer, h.found_written hk]
  have hwritten : ∃ v, lastWrite (entries puts) k = some v :=
    exists_lastWrite (by rw [keys_entries]; exact hk)
  constructor
  · intro heq
    cases hcached : cachedValue s.cached k with
    | some v => exact ⟨v, rfl⟩
    | none =>
        obtain ⟨v, hv⟩ := hwritten
        rw [hcached, hv] at heq
        exact absurd heq (by simp)
  · rintro ⟨v, hv⟩
    rw [hv, h.newest k v hv hk]
    rfl

/-- A put enters its key. -/
theorem put (h : Works s pages puts c) (r : Record)
    (hlt : (s.put r).pager.pages.length < 2 ^ 32) (hkept : s.mapped.length ≤ (s.put r).pager.pages.length)
    (indexed : List Bytes) :
    Works (s.put r) pages (puts ++ [r]) (c.call s.capacity indexed (.put r.key r.value)) where
  mapped := h.mapped
  nodup := nodup_keys_lruPut h.nodup _ _ _
  keys := by
    show (lruPut s.capacity s.cached r.key r.value).map Prod.fst = touch s.capacity c.held r.key
    rw [keys_lruPut h.nodup, h.keys]
  written k := by
    show k ∈ r.key :: c.written ↔ _
    rw [List.mem_cons, h.written, List.map_append, List.mem_append, List.map_singleton,
      List.mem_singleton]
    exact Or.comm
  newest k v hv hk := by
    rw [entries_append]
    show lastWrite (entries puts ++ [(r.key, r.value)]) k = some v
    rw [lastWrite_concat]
    rcases eq_or_of_cachedValue_lruPut h.nodup hv with ⟨rfl, rfl⟩ | ⟨hne, hold⟩
    · rw [if_pos rfl]
    · rw [if_neg (Ne.symm hne)]
      apply h.newest k v hold
      rw [List.map_append, List.map_singleton, List.mem_append, List.mem_singleton] at hk
      exact hk.resolve_right hne
  away k hk := by
    have hplaced : (s.put r).placed =
        s.placed ++ [(r.key, StorageWriter.lastRid 0 (s.put r).pager)] := rfl
    rw [hplaced, lastWrite_concat]
    by_cases hkey : r.key = k
    · rw [if_pos hkey]
      refine ⟨_, rfl, ?_⟩
      show u32 s.mapped.length ≤ u32 (0 + (s.put r).pager.pages.length)
      rw [Nat.zero_add, u32_of_lt hlt, u32_of_lt (lt_of_le_of_lt hkept hlt)]
      exact hkept
    · rw [if_neg hkey]
      apply h.away
      rw [List.map_append, List.map_singleton, List.mem_append, List.mem_singleton] at hk
      exact hk.resolve_right (Ne.symm hkey)
  indexed k hk := by
    rw [List.map_append, List.map_singleton, List.mem_append, List.mem_singleton, not_or] at hk
    rw [← h.indexed k hk.1]
    have hplaced : (s.put r).placed =
        s.placed ++ [(r.key, StorageWriter.lastRid 0 (s.put r).pager)] := rfl
    unfold Session.found
    rw [hplaced, lastWrite_concat, if_neg (Ne.symm hk.2)]
    rfl

/-- A get uses its key when it is answered. -/
theorem get (h : Works s pages puts c) (key : Bytes) :
    Works (s.got key) pages puts
      (c.call s.capacity ((addressed pages).map Record.key) (.get key)) := by
  obtain ⟨hmapped, -, -, -, hplaced, -⟩ := s.got_frame key
  have hfound : ∀ k, (s.got key).found k = s.found k := by
    intro k
    rw [Session.found, Session.found, hplaced]
    unfold Session.recordAt Session.total
    rw [hmapped]
  -- the key is used exactly when there is an answer
  have hused : (∃ v, s.answer key = some v) ↔
      key ∈ c.held ∨ (key ∉ c.written ∧ key ∈ (addressed pages).map Record.key) := by
    rw [h.held_iff, h.written, Session.answer]
    cases hcached : cachedValue s.cached key with
    | some v => simp
    | none =>
        by_cases hkey : key ∈ puts.map Record.key
        · simp [h.found_written hkey, hkey]
        · rw [h.indexed key hkey, Option.none_or, ← Option.isSome_iff_exists, lastWrite_isSome_iff,
            keys_entries]
          simp [hkey]
  unfold KeyCache.call
  cases hanswer : s.answer key with
  | none =>
      have hcached : (s.got key).cached = s.cached := by
        unfold Session.got
        rw [hanswer]
      rw [hanswer] at hused
      have hnot := mt hused.mpr (by simp)
      dsimp only
      rw [if_neg hnot]
      refine ⟨hmapped.trans h.mapped, by rw [hcached]; exact h.nodup, by rw [hcached]; exact h.keys,
        h.written, by rw [hcached]; exact h.newest, ?_, fun k hk => (hfound k).trans (h.indexed k hk)⟩
      unfold Session.total
      rw [hplaced, hmapped]
      exact h.away
  | some value =>
      have hcached : (s.got key).cached = lruPut s.capacity s.cached key value := by
        unfold Session.got
        rw [hanswer]
        rfl
      rw [hanswer] at hused
      dsimp only
      rw [if_pos (hused.mp ⟨value, rfl⟩)]
      refine ⟨hmapped.trans h.mapped, ?_, ?_, h.written, ?_, ?_,
        fun k hk => (hfound k).trans (h.indexed k hk)⟩
      · rw [hcached]
        exact nodup_keys_lruPut h.nodup _ _ _
      · rw [hcached, keys_lruPut h.nodup, h.keys]
      · intro k v hv hk
        rw [hcached] at hv
        rcases eq_or_of_cachedValue_lruPut h.nodup hv with ⟨rfl, rfl⟩ | ⟨-, hold⟩
        · -- the answer for a written key came from the cache
          rw [Session.answer, h.found_written hk, Option.or_none] at hanswer
          exact h.newest k v hanswer hk
        · exact h.newest k v hold hk
      · unfold Session.total
        rw [hplaced, hmapped]
        exact h.away

/-- The run of a session. -/
theorem run (h : Works s pages puts c) (hkept : s.mapped.length ≤ s.pager.pages.length)
    (cs : List DbCall) (hlt : (s.run cs).pager.pages.length < 2 ^ 32) :
    Works (s.run cs) pages (puts ++ putsOf cs)
      (c.calls s.capacity ((addressed pages).map Record.key) cs) := by
  induction cs using List.reverseRecOn with
  | nil =>
      rw [show putsOf [] = [] from rfl, List.append_nil]
      exact h
  | append_singleton cs a ih =>
      obtain ⟨hmapped, hcapacity, -⟩ := s.run_frame cs
      have hpages := Session.length_pages_after (s.run cs) a
      rw [Session.run_concat] at hlt ⊢
      have ih := ih (by omega)
      rw [putsOf_concat, KeyCache.calls_concat, ← List.append_assoc]
      cases a with
      | get key =>
          have hget := ih.get key
          rw [hcapacity] at hget
          rw [show putsOf [DbCall.get key] = [] from rfl, List.append_nil]
          exact hget
      | put key value =>
          have hput := ih.put ⟨key, value⟩ hlt (by
            rw [hmapped]
            exact le_trans hkept (le_trans (Session.length_pages_run s cs) hpages))
            ((addressed pages).map Record.key)
          rw [hcapacity] at hput
          exact hput

end Works

/-- The index of a database that was opened knows what the mapped pages show. -/
theorem Session.found_opened {cfg : Config} {pages : List (List Record)} {log : Bytes} (k : Bytes) :
    (opened cfg pages log).found k = lastWrite (entries (addressed pages)) k := by
  have hmapped := (opened_frame cfg pages log).1
  by_cases hpos : 0 < u32 pages.length
  · rw [(rebuilt_opened cfg (Or.inl hpos)).found, seen, map_visited, hmapped]
  · have hzero : u32 pages.length = 0 := Nat.eq_zero_of_not_pos hpos
    have hnone : ∀ rid, (opened cfg pages log).recordAt rid = none := by
      intro rid
      rw [recordAt, if_neg]
      rw [total, hmapped, hzero]
      exact Nat.not_lt_zero _
    have hnil : addressed pages = [] := by
      rw [addressed, hzero]
      rfl
    rw [hnil]
    unfold found
    cases lastWrite (opened cfg pages log).placed k with
    | none => rfl
    | some rid =>
        rw [Option.bind_some, hnone]
        rfl

theorem works_opened (cfg : Config) (pages : List (List Record)) {log : Bytes}
    {history : List Record} (hlog : Logged log history) :
    Works (Session.opened cfg pages log) pages [] (KeyCache.opened cfg.recordCacheSize history) where
  mapped := (Session.opened_frame cfg pages log).1
  nodup := by
    rw [Session.cached_opened]
    exact nodup_keys_lruUses (l := []) List.nodup_nil _ _
  keys := by
    rw [Session.cached_opened, hlog.replayable, keys_lruUses (l := []) List.nodup_nil (Nat.zero_le _),
      keys_entries]
    rfl
  written := by simp [KeyCache.opened]
  newest := by simp
  away := by simp
  indexed k _ := Session.found_opened k

/-- Reading back, said about sessions. -/
theorem readsOwnWrites_iff_held {s : Session} {pages : List (List Record)} {c : KeyCache}
    (h : Works s pages [] c) (hkept : s.mapped.length ≤ s.pager.pages.length) {cs : List DbCall}
    (hlt : (s.run cs).pager.pages.length < 2 ^ 32) {answers : List (Option Bytes)}
    (hlen : answers.length = cs.length)
    (hanswers : ∀ i a r, cs[i]? = some a → answers[i]? = some r →
      r = (s.run (cs.take i)).returns a) :
    ReadsOwnWrites cs answers ↔
      ∀ i k, cs[i]? = some (.get k) → k ∈ (putsOf (cs.take i)).map Record.key →
        k ∈ (c.calls s.capacity ((addressed pages).map Record.key) (cs.take i)).held := by
  apply forall_congr'
  intro i
  apply forall_congr'
  intro k
  apply imp_congr_right
  intro hget
  apply imp_congr_right
  intro hk
  have hi : i < answers.length := by
    rw [hlen]
    exact (List.getElem?_eq_some_iff.mp hget).1
  have hpages : (s.run (cs.take i)).pager.pages.length < 2 ^ 32 := by
    have hrest := Session.length_pages_run (s.run (cs.take i)) (cs.drop i)
    have hsplit : (s.run (cs.take i)).run (cs.drop i) = s.run cs := by
      rw [Session.run, Session.run, ← List.foldl_append, List.take_append_drop]
      rfl
    rw [hsplit] at hrest
    omega
  have hworks := h.run hkept (cs.take i) hpages
  rw [List.nil_append] at hworks
  have hanswer := hanswers i _ answers[i] hget (List.getElem?_eq_getElem hi)
  rw [List.getElem?_eq_getElem hi, hanswer, Option.some.injEq]
  exact hworks.answer_written hk

/-! ## Counting other keys -/

/-- The keys some calls use: a put always, a get when its key is known by then. -/
def usedKeys (known : List Bytes) : List DbCall → List Bytes
  | [] => []
  | .put key _ :: cs => key :: usedKeys (key :: known) cs
  | .get key :: cs => (if key ∈ known then [key] else []) ++ usedKeys known cs

theorem usedKeys_concat_put (known : List Bytes) (cs : List DbCall) (key value : Bytes) :
    usedKeys known (cs ++ [.put key value]) = usedKeys known cs ++ [key] := by
  induction cs generalizing known with
  | nil => rfl
  | cons c cs ih =>
      cases c with
      | put k v => rw [List.cons_append, usedKeys, usedKeys, ih, List.cons_append]
      | get k => rw [List.cons_append, usedKeys, usedKeys, ih, List.append_assoc]

theorem usedKeys_concat_get (known : List Bytes) (cs : List DbCall) (key : Bytes) :
    usedKeys known (cs ++ [.get key]) = usedKeys known cs ++
      if key ∈ (putsOf cs).map Record.key ∨ key ∈ known then [key] else [] := by
  induction cs generalizing known with
  | nil => simp [usedKeys, putsOf]
  | cons c cs ih =>
      cases c with
      | put k v =>
          have hputs : putsOf (.put k v :: cs) = ⟨k, v⟩ :: putsOf cs := rfl
          rw [List.cons_append, usedKeys, usedKeys, ih, hputs, List.cons_append]
          congr 3
          rw [List.mem_cons, List.map_cons, List.mem_cons]
          exact propext (by tauto)
      | get k =>
          have hputs : putsOf (.get k :: cs) = putsOf cs := rfl
          rw [List.cons_append, usedKeys, usedKeys, ih, hputs, List.append_assoc]

/-- A key that is put is used, and only known keys and keys that are put are. -/
theorem mem_usedKeys (known : List Bytes) (cs : List DbCall) (k : Bytes) :
    (k ∈ (putsOf cs).map Record.key → k ∈ usedKeys known cs) ∧
      (k ∈ usedKeys known cs → k ∈ known ∨ k ∈ (putsOf cs).map Record.key) := by
  induction cs using List.reverseRecOn with
  | nil => simp [putsOf, usedKeys]
  | append_singleton cs a ih =>
      rw [putsOf_concat]
      cases a with
      | put key value =>
          rw [usedKeys_concat_put, show putsOf [DbCall.put key value] = [⟨key, value⟩] from rfl]
          simp only [List.map_append, List.map_cons, List.map_nil, List.mem_append,
            List.mem_singleton]
          tauto
      | get key =>
          rw [usedKeys_concat_get, show putsOf [DbCall.get key] = [] from rfl, List.append_nil]
          simp only [List.mem_append]
          refine ⟨fun hk => Or.inl (ih.1 hk), ?_⟩
          rintro (hk | hk)
          · exact ih.2 hk
          · split at hk
            · rename_i hknown
              rw [List.mem_singleton.mp hk]
              exact hknown.symm
            · exact absurd hk (by simp)

/-- Between the last use of a key put in this session and a get of it, fewer than `cap` other keys
are used. -/
def StaysRecent (cap : Nat) (known : List Bytes) (cs : List DbCall) : Prop :=
  ∀ i k, cs[i]? = some (.get k) → k ∈ (putsOf (cs.take i)).map Record.key →
    ∀ before after, usedKeys known (cs.take i) = before ++ k :: after → k ∉ after →
      after.toFinset.card < cap

namespace KeyCache

variable {cap : Nat} {indexed : List Bytes} {history : List Record}

theorem written_calls (cs : List DbCall) (k : Bytes) :
    k ∈ ((opened cap history).calls cap indexed cs).written ↔ k ∈ (putsOf cs).map Record.key := by
  induction cs using List.reverseRecOn with
  | nil => simp [opened, calls, putsOf]
  | append_singleton cs a ih =>
      rw [calls_concat, putsOf_concat, List.map_append, List.mem_append, ← ih]
      cases a with
      | put key value =>
          show k ∈ key :: _ ↔ _
          rw [List.mem_cons, show putsOf [DbCall.put key value] = [⟨key, value⟩] from rfl,
            List.map_singleton, List.mem_singleton]
          exact Or.comm
      | get key =>
          rw [show putsOf [DbCall.get key] = [] from rfl, List.map_nil]
          simp only [call]
          split <;> simp

theorem touch_recency (us : List Bytes) (k : Bytes) :
    touch cap ((recency [] us).take cap) k = (recency [] (us ++ [k])).take cap := by
  rw [touch_take, recency_concat]
  rfl

/-- While every get of a key put in this session finds it, the record cache holds the first keys in
the order of use. -/
theorem held_calls (hindexed : ∀ k, k ∈ indexed ↔ k ∈ history.map Record.key) (cs : List DbCall)
    (hheld : ∀ i k, cs[i]? = some (.get k) → k ∈ (putsOf (cs.take i)).map Record.key →
      k ∈ ((opened cap history).calls cap indexed (cs.take i)).held) :
    ((opened cap history).calls cap indexed cs).held =
      (recency [] (history.map Record.key ++ usedKeys (history.map Record.key) cs)).take cap := by
  induction cs using List.reverseRecOn with
  | nil =>
      rw [usedKeys, List.append_nil]
      rfl
  | append_singleton cs a ih =>
      have ih := ih (by
        intro i k hget
        have hi := (List.getElem?_eq_some_iff.mp hget).1
        have hstep := hheld i k (by rw [List.getElem?_append_left hi]; exact hget)
        rw [List.take_append_of_le_length (le_of_lt hi)] at hstep
        exact hstep)
      rw [calls_concat]
      cases a with
      | put key value =>
          rw [usedKeys_concat_put, ← List.append_assoc, ← touch_recency, ← ih]
          rfl
      | get key =>
          have hlast := hheld cs.length key (by simp)
          rw [List.take_left] at hlast
          rw [usedKeys_concat_get]
          simp only [call, written_calls, hindexed]
          by_cases hput : key ∈ (putsOf cs).map Record.key
          · rw [if_pos (Or.inl (hlast hput)), if_pos (Or.inl hput), ← List.append_assoc,
              ← touch_recency, ← ih]
          · by_cases hknown : key ∈ history.map Record.key
            · rw [if_pos (Or.inr ⟨hput, hknown⟩), if_pos (Or.inr hknown), ← List.append_assoc,
                ← touch_recency, ← ih]
            · -- an unknown key is not in the cache either
              have hnot : key ∉ ((opened cap history).calls cap indexed cs).held := by
                rw [ih]
                intro hmem
                rcases mem_recency_iff.mp (List.mem_of_mem_take hmem) with hmem | hmem
                · rcases List.mem_append.mp hmem with hmem | hmem
                  · exact hknown hmem
                  · rcases (mem_usedKeys _ cs key).2 hmem with hmem | hmem
                    · exact hknown hmem
                    · exact hput hmem
                · exact absurd hmem (by simp)
              rw [if_neg (by tauto), if_neg (by tauto), List.append_nil, ih]

/-- In the record cache, by the keys used since. -/
theorem mem_recency_take_iff {us before after : List Bytes} {k : Bytes}
    (heq : us = before ++ k :: after) (hk : k ∉ after) (known : List Bytes) :
    k ∈ (recency [] (known ++ us)).take cap ↔ after.toFinset.card < cap := by
  rw [heq, show known ++ (before ++ k :: after) = ((known ++ before) ++ [k]) ++ after by simp,
    recency_append, recency_concat]
  exact mem_take_recency_iff (nodup_recency List.nodup_nil _) hk

/-- Staying in the record cache is staying recent. -/
theorem held_iff_staysRecent (hindexed : ∀ k, k ∈ indexed ↔ k ∈ history.map Record.key)
    (cs : List DbCall) :
    (∀ i k, cs[i]? = some (.get k) → k ∈ (putsOf (cs.take i)).map Record.key →
        k ∈ ((opened cap history).calls cap indexed (cs.take i)).held) ↔
      StaysRecent cap (history.map Record.key) cs := by
  have htake : ∀ (n i : Nat) (k : Bytes), (cs.take n)[i]? = some (.get k) →
      i < n ∧ cs[i]? = some (.get k) ∧ (cs.take n).take i = cs.take i := by
    intro n i k hget
    obtain ⟨hi, -⟩ := List.getElem?_eq_some_iff.mp hget
    rw [List.length_take] at hi
    have hlt : i < n := by omega
    refine ⟨hlt, ?_, by rw [List.take_take, Nat.min_eq_left (le_of_lt hlt)]⟩
    rw [List.getElem?_take, if_pos hlt] at hget
    exact hget
  constructor
  · intro hheld i k hget hput before after heq hk
    have hmem := hheld i k hget hput
    rw [held_calls hindexed (cs.take i) (by
      intro j k' hget' hput'
      obtain ⟨-, hget', htake'⟩ := htake i j k' hget'
      rw [htake'] at hput' ⊢
      exact hheld j k' hget' hput')] at hmem
    exact (mem_recency_take_iff heq hk _).mp hmem
  · intro hrecent i
    -- the gets before this one have found their keys
    induction i using Nat.strong_induction_on with
    | _ i ih =>
        intro k hget hput
        obtain ⟨before, after, heq, hk⟩ :=
          exists_last_use ((mem_usedKeys (history.map Record.key) _ k).1 hput)
        rw [held_calls hindexed (cs.take i) (by
          intro j k' hget' hput'
          obtain ⟨hlt, hget', htake'⟩ := htake i j k' hget'
          rw [htake'] at hput' ⊢
          exact ih j hlt k' hget' hput')]
        exact (mem_recency_take_iff heq hk _).mpr (hrecent i k hget hput before after heq hk)

end KeyCache

/-- **When a session reads its own writes.** On any files that sessions closed normally have left, for
any calls that return, as long as page numbers fit 32 bits: every get of a key put in this session
returns its last put exactly when the key is still in the record cache. Up to 2^20 pages that is when
fewer distinct other keys than the record cache has places were put or found since the key was last
put or found. -/
theorem read_your_writes_iff {disk : Disk} {earlier : List Record}
    (hclosed : ClosedCleanly disk earlier) {cfg : Config} {db db' : Database}
    (hnew : Database.new cfg disk = .ok db) {cs : List DbCall} {answers : List (Option Bytes)}
    (hcalls : Database.calls cs db = .ok answers db')
    (hsize : (db'.files.data.getD []).length < 2 ^ 32 * PAGE_SIZE) :
    ∃ pages, disk.Shows pages (disk.wal.getD []) ∧
      (ReadsOwnWrites cs answers ↔
        ∀ i k, cs[i]? = some (.get k) → k ∈ (putsOf (cs.take i)).map Record.key →
          k ∈ ((KeyCache.opened cfg.recordCacheSize earlier).calls cfg.recordCacheSize
            ((addressed pages).map Record.key) (cs.take i)).held) ∧
      (pages.length ≤ 2 ^ 20 →
        (ReadsOwnWrites cs answers ↔
          StaysRecent cfg.recordCacheSize (earlier.map Record.key) cs)) := by
  obtain ⟨pages, hclean⟩ := hclosed.cleanFiles
  obtain ⟨hopens, hholds⟩ := Database.holds_of_new hclean.shows hnew
  obtain ⟨hlen, hholds', -, hanswers⟩ := hholds.calls_ok cs hopens.frame_opened hcalls
  have hcap := (Session.opened_frame cfg pages (disk.wal.getD [])).2.1
  have hpages : ((Session.opened cfg pages (disk.wal.getD [])).run cs).pager.pages.length < 2 ^ 32 := by
    have hfile := hholds'.shows_files.data.length_eq
    rw [List.length_nil, Nat.zero_add] at hfile
    rw [hfile] at hsize
    exact Nat.lt_of_mul_lt_mul_right hsize
  have hiff := readsOwnWrites_iff_held (works_opened cfg pages hclean.logged)
    hholds.kept.length_le hpages hlen hanswers
  rw [hcap] at hiff
  refine ⟨pages, hclean.shows, hiff, ?_⟩
  intro hsmall
  rw [hiff]
  apply KeyCache.held_iff_staysRecent
  intro k
  rw [addressed_of_le hsmall]
  exact hclean.upToDate.keys_iff k

/-- A put and a get of its key. -/
theorem read_your_writes_iff_get_after_put :
    ∃ db answers db', Database.new ⟨1, 1, false⟩ Disk.empty = .ok db ∧
      Database.calls [.put [1] [2], .get [1]] db = .ok answers db' ∧
      ReadsOwnWrites [.put [1] [2], .get [1]] answers := by
  obtain ⟨hopens, db, hnew, hholds⟩ := cleanFiles_empty.opens ⟨1, 1, false⟩ le_rfl le_rfl
  obtain ⟨-, hcap, -⟩ := Session.opened_frame ⟨1, 1, false⟩ [] (Disk.empty.wal.getD [])
  obtain ⟨answers, db', hcalls, hholds'⟩ := hholds.calls_of_fits [.put [1] [2], .get [1]]
    hopens.frame_opened (le_of_eq hcap.symm) (by simp [putsOf, need_le_pageRoom_iff])
  have hlen := hholds'.shows_files.data.length_eq
  obtain ⟨pages, hshows, -, hiff⟩ := read_your_writes_iff ClosedCleanly.new hnew hcalls
    (by rw [hlen]; decide +kernel)
  have hnil : pages = [] := by
    have hlen' := hshows.data.length_eq
    simp only [Disk.empty, Option.getD_none, List.length_nil, Nat.zero_add, PAGE_SIZE] at hlen'
    exact List.length_eq_zero_iff.mp (by omega)
  refine ⟨db, answers, db', hnew, hcalls, (hiff (by rw [hnil]; exact Nat.zero_le _)).mpr ?_⟩
  intro i k hget hput before after heq hk
  have hi : i = 1 := by
    rcases i with _ | _ | i
    · simp at hget
    · rfl
    · simp at hget
  subst hi
  have hused : usedKeys ([].map Record.key) ([.put [1] [2], .get [1]].take 1) = [[1]] := by decide
  rw [hused] at heq
  have hafter : after = [] := by
    have hlengths := congrArg List.length heq
    simp only [List.length_append, List.length_cons, List.length_nil] at hlengths
    exact List.length_eq_zero_iff.mp (by omega)
  rw [hafter]
  exact Nat.zero_lt_one

/-- Room for one record: a put of another key takes the first one out of reach. -/
theorem own_write_not_read :
    ∃ db answers db', ClosedCleanly Disk.empty [] ∧
      Database.new ⟨1, 1, false⟩ Disk.empty = .ok db ∧
      Database.calls [.put [1] [2], .put [3] [4], .get [1]] db = .ok answers db' ∧
      ¬ReadsOwnWrites [.put [1] [2], .put [3] [4], .get [1]] answers := by
  obtain ⟨hopens, db, hnew, hholds⟩ := cleanFiles_empty.opens ⟨1, 1, false⟩ le_rfl le_rfl
  obtain ⟨-, hcap, -⟩ := Session.opened_frame ⟨1, 1, false⟩ [] (Disk.empty.wal.getD [])
  obtain ⟨answers, db', hcalls, -⟩ := hholds.calls_of_fits [.put [1] [2], .put [3] [4], .get [1]]
    hopens.frame_opened (le_of_eq hcap.symm) (by simp [putsOf, need_le_pageRoom_iff])
  obtain ⟨hlen, -, -, hanswers⟩ := hholds.calls_ok _ hopens.frame_opened hcalls
  refine ⟨db, answers, db', ClosedCleanly.new, hnew, hcalls, ?_⟩
  intro hreads
  have hread := hreads 2 [1] rfl (by decide)
  have hmissed := hanswers 2 _ _ rfl hread
  exact absurd hmissed (by decide +kernel)

end Aqa
