/-
# Aqa.Cache.LruRuns — runs of the record cache.

Under any policy a run keeps the list and the map together and never holds an old value
(`CacheHolds`). Without a policy, or with the LRU one, the cached keys are besides the first
`capacity` keys in the order of last use: every put and every successful get is one step of the
bounded recency list.
-/
import Aqa.Cache.LruSpec

namespace Aqa

open Aqa.Lib

/-- A call on the record cache. -/
inductive CacheCall where
  | get (key : Bytes)
  | put (key value : Bytes)
  deriving DecidableEq, Repr

/-- The puts among some calls. -/
def cachePuts (cs : List CacheCall) : List (Bytes × Bytes) :=
  cs.filterMap fun
    | .get _ => none
    | .put key value => some (key, value)

namespace LruCache

/-- The effect of a call. -/
def call (c : LruCache) : CacheCall → LruCache
  | .get key => (c.get key).2
  | .put key value =>
      match put key value c with
      | .ok () c => c
      | .error _ c => c

/-- The effect of some calls. -/
def calls (c : LruCache) (cs : List CacheCall) : LruCache := cs.foldl call c

/-- The key a call uses: a put always, a get when it finds something. -/
def usedBy (c : LruCache) : CacheCall → Option Bytes
  | .get key => if (c.get key).1.isSome then some key else none
  | .put key _ => some key

/-- The keys used by some calls, in order. -/
def uses (c : LruCache) : List CacheCall → List Bytes
  | [] => []
  | a :: cs => (c.usedBy a).toList ++ uses (c.call a) cs

/-- The cached keys, from the front of the list. -/
def cachedKeys (c : LruCache) : List Bytes := c.list.toList.map CacheEntry.key

theorem calls_concat (c : LruCache) (cs : List CacheCall) (a : CacheCall) :
    c.calls (cs ++ [a]) = (c.calls cs).call a := by
  rw [calls, List.foldl_append]
  rfl

theorem uses_concat (c : LruCache) (cs : List CacheCall) (a : CacheCall) :
    c.uses (cs ++ [a]) = c.uses cs ++ ((c.calls cs).usedBy a).toList := by
  induction cs generalizing c with
  | nil => simp [uses, calls]
  | cons b cs ih =>
      rw [List.cons_append, uses, uses, ih, List.append_assoc]
      rfl

theorem Linked.cachedKeys_eq {c : LruCache} {l : List (Bytes × Bytes)} (h : Linked c l) :
    c.cachedKeys = l.map Prod.fst := by
  rw [← h.entries, cachedKeys, StdList.toList, List.map_map, List.map_map]
  rfl

/-! ## Any policy -/

/-- The entries behind a put are the one put and some of those before. -/
theorem current_put {l l' h : List (Bytes × Bytes)} (hc : Current l h)
    (hnodup : (l'.map Prod.fst).Nodup) {k w : Bytes} (hmem : (k, w) ∈ l')
    (hsub : ∀ e ∈ l', e = (k, w) ∨ e ∈ l) : Current l' (h ++ [(k, w)]) where
  nodup := hnodup
  newest := by
    intro j v hj
    rw [cachedValue_eq_some_iff hnodup] at hj
    rw [lastWrite_concat]
    by_cases hkey : k = j
    · subst hkey
      have hsame : (k, v) = (k, w) := List.inj_on_of_nodup_map hnodup hj hmem rfl
      rw [if_pos rfl, (Prod.mk.inj hsame).2]
    · rw [if_neg hkey]
      rcases hsub (j, v) hj with heq | hold
      · exact absurd (Prod.mk.inj heq).1.symm hkey
      · exact hc.newest j v ((cachedValue_eq_some_iff hc.nodup).mpr hold)

/-- What every run keeps. -/
structure CacheHolds (c : LruCache) (capacity : Nat) (policy : Option RecordEvictionPolicy)
    (h : List (Bytes × Bytes)) (l : List (Bytes × Bytes)) : Prop where
  linked : Linked c l
  capacity : c.capacity = capacity
  policy : c.evictionPolicy = policy
  current : Current l h

/-- What a put does to the entries of a cache under any policy. -/
theorem CacheHolds.put {c : LruCache} {capacity : Nat} {policy : Option RecordEvictionPolicy}
    {h l : List (Bytes × Bytes)} (hc : CacheHolds c capacity policy h l) (hcap : 1 ≤ capacity)
    (k w : Bytes) :
    ∃ c' l', LruCache.put k w c = .ok () c' ∧
      CacheHolds c' capacity policy (h ++ [(k, w)]) l' ∧
      (∃ j, ∀ k' ∈ l.map Prod.fst, k' ≠ j → k' ∈ l'.map Prod.fst) ∧
      (k ∈ l.map Prod.fst → ∀ k' ∈ l.map Prod.fst, k' ∈ l'.map Prod.fst) := by
  obtain ⟨c', l', hput, hcap', hpol', hlinked, hcases⟩ :=
    hc.linked.put (by rw [hc.capacity]; exact hcap) k w
  refine ⟨c', l', hput, ⟨hlinked, hcap'.trans hc.capacity, hpol'.trans hc.policy, ?_⟩, ?_⟩
  · apply current_put hc.current hlinked.nodup
    · rcases hcases with ⟨hsome, rfl⟩ | ⟨-, -, rfl⟩ | ⟨-, -, -, e, -, -, rfl⟩
      · obtain ⟨v, hv⟩ := Option.ne_none_iff_exists'.mp hsome
        rw [hc.linked.lruPut_of_cached hv]
        exact List.mem_cons_self
      · exact List.mem_cons_self
      · exact List.mem_cons_self
    · intro x hx
      rcases hcases with ⟨-, rfl⟩ | ⟨-, -, rfl⟩ | ⟨-, -, -, e, -, -, rfl⟩
      · rcases List.mem_cons.mp (List.mem_of_mem_take hx) with rfl | hx
        · exact Or.inl rfl
        · exact Or.inr (List.mem_filter.mp hx).1
      · exact (List.mem_cons.mp hx).imp id id
      · rcases List.mem_cons.mp hx with rfl | hx
        · exact Or.inl rfl
        · exact Or.inr (List.mem_filter.mp hx).1
  · rcases hcases with ⟨hsome, rfl⟩ | ⟨hnone, -, rfl⟩ | ⟨hnone, -, -, e, -, -, rfl⟩
    · obtain ⟨v, hv⟩ := Option.ne_none_iff_exists'.mp hsome
      have hkept : ∀ k' ∈ l.map Prod.fst, k' ∈ (lruPut c.capacity l k w).map Prod.fst := by
        intro k' hk'
        rw [hc.linked.lruPut_of_cached hv, List.map_cons, List.mem_cons]
        by_cases hkey : k' = k
        · exact Or.inl hkey
        · exact Or.inr (mem_keys_dropKey.mpr ⟨hk', hkey⟩)
      exact ⟨⟨k, fun k' hk' _ => hkept k' hk'⟩, fun _ => hkept⟩
    · have hkept : ∀ k' ∈ l.map Prod.fst, k' ∈ ((k, w) :: l).map Prod.fst :=
        fun k' hk' => List.mem_cons_of_mem _ hk'
      exact ⟨⟨k, fun k' hk' _ => hkept k' hk'⟩, fun _ => hkept⟩
    · refine ⟨⟨e.1, fun k' hk' hne =>
        List.mem_cons_of_mem _ (mem_keys_dropKey.mpr ⟨hk', hne⟩)⟩, fun hk => ?_⟩
      exact absurd hk ((cachedValue_eq_none_iff l k).mp hnone)

/-- What a get does to them. -/
theorem CacheHolds.get {c : LruCache} {capacity : Nat} {policy : Option RecordEvictionPolicy}
    {h l : List (Bytes × Bytes)} (hc : CacheHolds c capacity policy h l) (k : Bytes) :
    (c.get k).1 = cachedValue l k ∧ ∃ l', CacheHolds (c.get k).2 capacity policy h l' ∧
      ∀ k', k' ∈ l'.map Prod.fst ↔ k' ∈ l.map Prod.fst := by
  obtain ⟨hvalue, hcap, hpol, hlinked⟩ := hc.linked.get k
  refine ⟨hvalue, _, ⟨hlinked, hcap.trans hc.capacity, hpol.trans hc.policy, ?_⟩, ?_⟩
  · cases hcached : cachedValue l k with
    | none => exact hc.current
    | some v => exact hc.current.read c.capacity (hc.current.newest k v hcached)
  · intro k'
    cases hcached : cachedValue l k with
    | none => exact Iff.rfl
    | some v =>
        have hk : k ∈ l.map Prod.fst := (cachedValue_isSome_iff l k).mp (by rw [hcached]; rfl)
        show k' ∈ (lruPut c.capacity l k v).map Prod.fst ↔ _
        rw [hc.linked.lruPut_of_cached hcached, List.map_cons, List.mem_cons, mem_keys_dropKey]
        constructor
        · rintro (rfl | ⟨hmem, -⟩)
          · exact hk
          · exact hmem
        · intro hmem
          by_cases hkey : k' = k
          · exact Or.inl hkey
          · exact Or.inr ⟨hmem, hkey⟩

theorem cacheHolds_calls {capacity : Nat} (hcap : 1 ≤ capacity)
    (policy : Option RecordEvictionPolicy) (cs : List CacheCall) :
    ∃ l, CacheHolds ((new capacity policy).calls cs) capacity policy (cachePuts cs) l := by
  induction cs using List.reverseRecOn with
  | nil => exact ⟨[], linked_new capacity policy, rfl, rfl, current_nil _⟩
  | append_singleton cs a ih =>
      obtain ⟨l, hc⟩ := ih
      rw [calls_concat, cachePuts, List.filterMap_append]
      cases a with
      | get key =>
          obtain ⟨-, l', hc', -⟩ := hc.get key
          refine ⟨l', ?_⟩
          show CacheHolds _ capacity policy (cachePuts cs ++ []) l'
          rw [List.append_nil]
          exact hc'
      | put key value =>
          obtain ⟨c', l', hput, hc', -⟩ := hc.put hcap key value
          refine ⟨l', ?_⟩
          simp only [call, hput]
          exact hc'

/-! ## The LRU policy -/

/-- The cached keys are the bounded recency list of the uses. -/
theorem lruHolds_calls {capacity : Nat} (hcap : 1 ≤ capacity)
    {policy : Option RecordEvictionPolicy} (hpol : policy = none ∨ policy = some lruRecordVictim)
    (cs : List CacheCall) :
    ∃ l, LruHolds ((new capacity policy).calls cs) l ∧
      ((new capacity policy).calls cs).capacity = capacity ∧
      l.map Prod.fst = (recency [] ((new capacity policy).uses cs)).take capacity := by
  induction cs using List.reverseRecOn with
  | nil => exact ⟨[], ⟨linked_new capacity policy, hpol⟩, rfl, by simp [uses]⟩
  | append_singleton cs a ih =>
      obtain ⟨l, hl, hcapacity, hkeys⟩ := ih
      rw [calls_concat, uses_concat]
      -- one use more is one touch more
      have htouch : ∀ k w : Bytes, (lruPut capacity l k w).map Prod.fst =
          (recency [] ((new capacity policy).uses cs ++ [k])).take capacity := by
        intro k w
        rw [keys_lruPut hl.nodup, hkeys, touch_take, recency_concat, touch]
      cases a with
      | get key =>
          obtain ⟨hvalue, hcap', hl'⟩ := hl.get key
          simp only [call, usedBy, hvalue]
          cases hcached : cachedValue l key with
          | none =>
              rw [hcached] at hl'
              refine ⟨l, hl', hcap'.trans hcapacity, ?_⟩
              simp [hkeys]
          | some v =>
              rw [hcached, hcapacity] at hl'
              exact ⟨_, hl', hcap'.trans hcapacity, htouch key v⟩
      | put key value =>
          obtain ⟨c', hput, hcap', hl'⟩ := hl.put (by rw [hcapacity]; exact hcap) key value
          rw [hcapacity] at hl'
          simp only [call, usedBy, hput]
          exact ⟨_, hl', hcap'.trans hcapacity, htouch key value⟩

/-- **The record cache is an exact LRU map**, and a faithful map under any policy. For every capacity
from one on and every run: without a policy or with the LRU one the cached keys are the most recently
used ones in the order of use, as many as fit; under any policy list and map hold the same distinct
keys, each iterator on its own node, every put succeeds, at most one other key leaves with it and none
with an overwrite or a get, and a get returns the value of the last put of its key when the key is
cached, and nothing otherwise. -/
theorem lru_cache_exact (capacity : Nat) (hcap : 1 ≤ capacity)
    (policy : Option RecordEvictionPolicy) (cs : List CacheCall) :
    let c := (new capacity policy).calls cs
    let us := (new capacity policy).uses cs
    (policy = none ∨ policy = some lruRecordVictim →
      c.cachedKeys = (recency [] us).take capacity ∧
        c.cachedKeys.length = min capacity us.toFinset.card) ∧
      c.cachedKeys.Nodup ∧
      (∀ k it, c.map.lookup k = some it ↔ ∃ v, c.list.node? it = some (it, ⟨k, v⟩)) ∧
      (∀ k v, ∃ c', put k v c = .ok () c' ∧
        (∃ j, ∀ k' ∈ c.cachedKeys, k' ≠ j → k' ∈ c'.cachedKeys) ∧
        (k ∈ c.cachedKeys → ∀ k' ∈ c.cachedKeys, k' ∈ c'.cachedKeys)) ∧
      (∀ k k', k' ∈ (c.get k).2.cachedKeys ↔ k' ∈ c.cachedKeys) ∧
      (∀ k, (c.get k).1.isSome ↔ k ∈ c.cachedKeys) ∧
      ∀ k v, (c.get k).1 = some v → lastWrite (cachePuts cs) k = some v := by
  obtain ⟨l, hc⟩ := cacheHolds_calls hcap policy cs
  intro c us
  have hkeys : c.cachedKeys = l.map Prod.fst := hc.linked.cachedKeys_eq
  refine ⟨?_, ?_, ?_, ?_, ?_, ?_, ?_⟩
  · intro hpol
    obtain ⟨l', hl', -, hrecent⟩ := lruHolds_calls hcap hpol cs
    have hcached : c.cachedKeys = (recency [] us).take capacity :=
      hl'.toLinked.cachedKeys_eq.trans hrecent
    refine ⟨hcached, ?_⟩
    rw [hcached, List.length_take, length_recency]
  · rw [hkeys]
    exact hc.linked.nodup
  · intro k it
    rw [hc.linked.iters]
    simp only [StdList.node?_eq_some_iff, and_true]
    rfl
  · intro k v
    obtain ⟨c', l', hput, hc', hone, hall⟩ := hc.put hcap k v
    refine ⟨c', hput, ?_⟩
    rw [hkeys, hc'.linked.cachedKeys_eq]
    exact ⟨hone, hall⟩
  · intro k k'
    obtain ⟨-, l', hc', hsame⟩ := hc.get k
    rw [hkeys, hc'.linked.cachedKeys_eq]
    exact hsame k'
  · intro k
    rw [(hc.get k).1, hkeys]
    exact cachedValue_isSome_iff l k
  · intro k v hget
    rw [(hc.get k).1] at hget
    exact hc.current.newest k v hget

/-- Two places: the get of the first key saves it from the third put. -/
theorem lru_cache_exact_two :
    ((new 2 none).calls [.put [1] [], .put [2] [], .get [1], .put [3] []]).cachedKeys =
        (recency [] [[1], [2], [1], [3]]).take 2 ∧
      ((new 2 none).calls [.put [1] [], .put [2] [], .get [1], .put [3] []]).cachedKeys.length =
        min 2 ([[1], [2], [1], [3]] : List Bytes).toFinset.card :=
  (lru_cache_exact 2 (by decide) none [.put [1] [], .put [2] [], .get [1], .put [3] []]).1
    (Or.inl rfl)

/-! ## Any capacity -/

/-- The position a put into a full cache takes its victim from. -/
def clampedIdx (c : LruCache) : Nat :=
  let idx := c.victimIdx (c.itersLru.map fun node => node.2.key)
  if idx ≥ c.itersLru.length then 0 else idx

/-- A put of this key evicts. -/
def PutEvicts (c : LruCache) (key : Bytes) : Prop :=
  c.map.lookup key = none ∧ c.list.size ≥ c.capacity

/-- A put whose victim is one of the entries, and that leaves no more entries than there are
places. -/
def PutSafe (c : LruCache) (key value : Bytes) : Prop :=
  (c.PutEvicts key → c.clampedIdx < c.itersLru.length) ∧
    ∃ c', put key value c = .ok () c' ∧ c'.list.size ≤ c.capacity

theorem CacheHolds.size_eq {c : LruCache} {capacity : Nat} {policy : Option RecordEvictionPolicy}
    {h l : List (Bytes × Bytes)} (hc : CacheHolds c capacity policy h l) :
    c.list.size = l.length := by
  rw [← hc.linked.entries, List.length_map]
  rfl

theorem CacheHolds.putSafe {c : LruCache} {capacity : Nat} {policy : Option RecordEvictionPolicy}
    {h l : List (Bytes × Bytes)} (hc : CacheHolds c capacity policy h l) (hcap : 1 ≤ capacity)
    (k w : Bytes) : c.PutSafe k w := by
  have hcapacity := hc.capacity
  have hsize := hc.size_eq
  refine ⟨?_, ?_⟩
  · rintro ⟨-, hfull⟩
    have hlen : c.itersLru.length = l.length := by
      rw [← hsize, itersLru, List.length_reverse]
      rfl
    unfold clampedIdx
    dsimp only
    split <;> omega
  · obtain ⟨c', l', hput, hc', -⟩ := hc.put hcap k w
    refine ⟨c', hput, ?_⟩
    rw [hc'.size_eq, hcapacity, ← hc'.capacity]
    exact hc'.linked.bound

/-- A cache without a place stays empty: its gets find nothing, and its puts do not come to an
end. -/
theorem linked_nil_calls (policy : Option RecordEvictionPolicy) (cs : List CacheCall) :
    Linked ((new 0 policy).calls cs) [] ∧ ((new 0 policy).calls cs).capacity = 0 := by
  induction cs using List.reverseRecOn with
  | nil => exact ⟨linked_new 0 policy, rfl⟩
  | append_singleton cs a ih =>
      obtain ⟨hlinked, hcap⟩ := ih
      rw [calls_concat]
      cases a with
      | get key =>
          obtain ⟨-, hcap', -, hlinked'⟩ := hlinked.get key
          exact ⟨hlinked', hcap'.trans hcap⟩
      | put key value =>
          simp only [call, put_of_capacity_zero hlinked hcap key value]
          exact ⟨hlinked, hcap⟩

theorem not_putSafe_of_capacity_zero {c : LruCache} (h : Linked c []) (hcap : c.capacity = 0)
    (k w : Bytes) : ¬ c.PutSafe k w := by
  rintro ⟨-, c', hput, -⟩
  rw [put_of_capacity_zero h hcap k w] at hput
  cases hput

/-- **Every put of every run is safe** exactly if the cache has a place, or the run has no put. -/
theorem puts_safe_iff (capacity : Nat) (policy : Option RecordEvictionPolicy)
    (cs : List CacheCall) :
    (∀ before k v after, cs = before ++ .put k v :: after →
      ((new capacity policy).calls before).PutSafe k v) ↔
      1 ≤ capacity ∨ cachePuts cs = [] := by
  constructor
  · intro hsafe
    by_contra hnot
    obtain ⟨hcap, hputs⟩ := not_or.mp hnot
    obtain ⟨p, hp⟩ := List.exists_mem_of_ne_nil _ hputs
    obtain ⟨a, ha, hput⟩ := List.mem_filterMap.mp hp
    cases a with
    | get key => cases hput
    | put key value =>
        obtain ⟨before, after, hsplit⟩ := List.append_of_mem ha
        have hzero : capacity = 0 := by omega
        subst hzero
        obtain ⟨hlinked, hcapacity⟩ := linked_nil_calls policy before
        exact not_putSafe_of_capacity_zero hlinked hcapacity key value
          (hsafe before key value after hsplit)
  · rintro (hcap | hputs) before k v after rfl
    · obtain ⟨l, hc⟩ := cacheHolds_calls hcap policy before
      exact hc.putSafe hcap k v
    · simp [cachePuts] at hputs

/-- The victim of the first put into a cache of capacity 0 would be entry 0 of none. -/
theorem put_without_place :
    (new 0 none).PutEvicts [1] ∧ (new 0 none).clampedIdx = 0 ∧ (new 0 none).itersLru.length = 0 ∧
      put [1] [2] (new 0 none) =
        .error (.undefinedBehaviour "iters_lru[victim_idx] past the end") (new 0 none) :=
  ⟨⟨rfl, by decide⟩, rfl, rfl, rfl⟩

end LruCache

end Aqa
