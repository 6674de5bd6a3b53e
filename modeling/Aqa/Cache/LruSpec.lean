/-
# Aqa.Cache.LruSpec — the record cache is a bounded recency list.

`LruCache` holds a list of key-value pairs, the map pointing each key to its node (`Linked`). Whatever
the policy, a `get` answers from the list and moves what it finds to the front, and a `put` enters its
key at the front, in the place of one other entry when the cache is full. Without a policy, or with
`LruRecordEvictionPolicy`, that entry is the last one (`LruHolds`), so that a `put` is `lruPut`.
-/
import Aqa.Cache.LruCache
import Aqa.Lib.Recency

namespace Aqa

open Aqa.Lib

namespace LruCache

/-- The key and the value of a node. -/
def entryOf (node : Nat × CacheEntry) : Bytes × Bytes := (node.2.key, node.2.value)

/-- The cache holds this list, with a map entry for each node. -/
structure Linked (c : LruCache) (l : List (Bytes × Bytes)) : Prop where
  entries : c.list.nodes.map entryOf = l
  iters : ∀ k it, c.map.lookup k = some it ↔ ∃ v, (it, CacheEntry.mk k v) ∈ c.list.nodes
  nodup : (l.map Prod.fst).Nodup
  bound : l.length ≤ c.capacity

/-- The iterators of a cache, said of keys and values. -/
theorem indexes_iff {m : AList (fun _ : Bytes => Nat)} {list : StdList CacheEntry} :
    StdList.Indexes m CacheEntry.key list ↔
      ∀ k it, m.lookup k = some it ↔ ∃ v, (it, CacheEntry.mk k v) ∈ list.nodes := by
  refine forall_congr' fun k => forall_congr' fun it => iff_congr Iff.rfl ⟨?_, ?_⟩
  · rintro ⟨e, hmem, rfl⟩
    exact ⟨e.value, hmem⟩
  · rintro ⟨v, hmem⟩
    exact ⟨⟨k, v⟩, hmem, rfl⟩

/-- No policy, or the one that always picks the back of the list. -/
def EvictsLast (c : LruCache) : Prop :=
  c.evictionPolicy = none ∨ c.evictionPolicy = some lruRecordVictim

/-- The cache holds this list and evicts its last entry. -/
structure LruHolds (c : LruCache) (l : List (Bytes × Bytes)) : Prop extends Linked c l where
  policy : c.EvictsLast

theorem linked_new (capacity : Nat) (policy : Option RecordEvictionPolicy) :
    Linked (new capacity policy) [] where
  entries := rfl
  iters := by simp [new, StdList.empty]
  nodup := List.nodup_nil
  bound := Nat.zero_le _

theorem lruHolds_new (capacity : Nat) : LruHolds (new capacity none) [] where
  toLinked := linked_new capacity none
  policy := Or.inl rfl

namespace Linked

variable {c : LruCache} {l : List (Bytes × Bytes)} {k : Bytes}

theorem indexes (h : Linked c l) : StdList.Indexes c.map CacheEntry.key c.list :=
  indexes_iff.mpr h.iters

/-- The node of a key, when it is cached. -/
theorem lookup_eq (h : Linked c l) (k : Bytes) :
    (c.map.lookup k = none ∧ cachedValue l k = none) ∨
      ∃ it v, c.map.lookup k = some it ∧ (it, CacheEntry.mk k v) ∈ c.list.nodes ∧
        cachedValue l k = some v := by
  cases hk : c.map.lookup k with
  | none =>
      left
      refine ⟨rfl, ?_⟩
      rw [cachedValue_eq_none_iff, ← h.entries, List.map_map]
      intro hmem
      obtain ⟨⟨it, e⟩, hnode, rfl⟩ := List.mem_map.mp hmem
      have hsome := (h.iters e.key it).mpr ⟨e.value, hnode⟩
      rw [show e.key = (Prod.fst ∘ entryOf) (it, e) from rfl, hk] at hsome
      exact absurd hsome (by simp)
  | some it =>
      right
      obtain ⟨v, hnode⟩ := (h.iters k it).mp hk
      refine ⟨it, v, rfl, hnode, (cachedValue_eq_some_iff h.nodup).mpr ?_⟩
      rw [← h.entries]
      exact List.mem_map.mpr ⟨_, hnode, rfl⟩

/-- The other nodes, by address, are the other entries, by key. -/
theorem filter_nodes (h : Linked c l) {it : Nat} {v : Bytes}
    (hnode : (it, CacheEntry.mk k v) ∈ c.list.nodes) :
    (c.list.nodes.filter fun node => node.1 != it).map entryOf = dropKey l k := by
  rw [← h.entries, dropKey, List.filter_map]
  congr 1
  apply List.filter_congr
  intro node hmem
  have hiff : node.1 ≠ it ↔ node.2.key ≠ k := h.indexes.ne_addr_iff hnode hmem
  by_cases hkey : node.2.key = k
  · have haddr : node.1 = it := not_not.mp fun hne => hiff.mp hne hkey
    simp [entryOf, hkey, haddr]
  · simp [entryOf, hkey, hiff.mpr hkey]

/-- Moving a cached key to the front. -/
theorem spliceFront (h : Linked c l) {it : Nat} {v : Bytes}
    (hnode : (it, CacheEntry.mk k v) ∈ c.list.nodes) :
    (c.list.spliceFront it).nodes.map entryOf = (k, v) :: dropKey l k := by
  have hfind := StdList.node?_eq_some_iff.mpr ⟨hnode, rfl⟩
  simp only [StdList.spliceFront, hfind, Option.toList_some, List.singleton_append, List.map_cons,
    h.filter_nodes hnode]
  rfl

/-- Refreshing a cached key fills the same number of places. -/
theorem lruPut_of_cached (h : Linked c l) {v : Bytes} (hk : cachedValue l k = some v)
    (w : Bytes) : lruPut c.capacity l k w = (k, w) :: dropKey l k := by
  have hmem : k ∈ l.map Prod.fst := (cachedValue_isSome_iff l k).mp (by rw [hk]; rfl)
  have hlen := length_dropKey h.nodup hmem
  have hbound := h.bound
  rw [lruPut, List.take_of_length_le]
  rw [List.length_cons]
  omega

/-- **`get` answers from the list** and moves what it finds to the front. -/
theorem get (h : Linked c l) (k : Bytes) :
    (c.get k).1 = cachedValue l k ∧ (c.get k).2.capacity = c.capacity ∧
      (c.get k).2.evictionPolicy = c.evictionPolicy ∧
      Linked (c.get k).2
        (match cachedValue l k with
          | some v => lruPut c.capacity l k v
          | none => l) := by
  rcases h.lookup_eq k with ⟨hnone, hcached⟩ | ⟨it, v, hsome, hnode, hcached⟩
  · simp only [LruCache.get, hnone, hcached]
    exact ⟨trivial, trivial, trivial, h.entries, h.iters, h.nodup, h.bound⟩
  · have hfront : (it, CacheEntry.mk k v) ∈ (c.list.spliceFront it).nodes :=
      StdList.mem_nodes_spliceFront.mpr hnode
    have hderef : (c.list.spliceFront it).deref? it = some (CacheEntry.mk k v) := by
      rw [StdList.deref?, StdList.node?_eq_some_iff.mpr ⟨hfront, rfl⟩]
      rfl
    simp only [LruCache.get, hsome, hderef, hcached, Option.map_some]
    refine ⟨trivial, trivial, trivial, ?_, ?_, nodup_keys_lruPut h.nodup _ _ _,
      length_lruPut_le _ _ _ _⟩
    · rw [h.lruPut_of_cached hcached]
      exact h.spliceFront hnode
    · exact indexes_iff.mp (h.indexes.spliceFront it)

/-- A put of a cached key. -/
theorem put_cached (h : Linked c l) {v : Bytes} (hcached : cachedValue l k = some v) (w : Bytes) :
    ∃ c', LruCache.put k w c = .ok () c' ∧ c'.capacity = c.capacity ∧
      c'.evictionPolicy = c.evictionPolicy ∧ Linked c' (lruPut c.capacity l k w) := by
  rcases h.lookup_eq k with ⟨-, hnone⟩ | ⟨it, v', hk, hnode, -⟩
  · rw [hcached] at hnone
    exact absurd hnone (by simp)
  have hfind := StdList.node?_eq_some_iff.mpr ⟨hnode, rfl⟩
  -- the first node is the one that is changed
  have hnodes : ((c.list.spliceFront it).modify it fun e => { e with value := w }).nodes =
      (it, CacheEntry.mk k w) :: c.list.nodes.filter fun node => node.1 != it := by
    simp only [StdList.modify, StdList.spliceFront, hfind, Option.toList_some,
      List.singleton_append, List.map_cons, if_true, List.cons.injEq, true_and]
    conv_rhs => rw [← List.map_id (c.list.nodes.filter fun node => node.1 != it)]
    apply List.map_congr_left
    intro node hmem
    have hne := (List.mem_filter.mp hmem).2
    rw [bne_iff_ne] at hne
    rw [if_neg hne]
    rfl
  refine ⟨{ c with list := (c.list.spliceFront it).modify it fun e => { e with value := w } },
    by simp only [LruCache.put, hk], rfl, rfl, ?_, ?_, nodup_keys_lruPut h.nodup _ _ _,
    length_lruPut_le _ _ _ _⟩
  · rw [hnodes, List.map_cons, h.filter_nodes hnode, h.lruPut_of_cached hcached]
    rfl
  · have hkeys : ∀ e : CacheEntry, CacheEntry.key { e with value := w } = e.key := fun _ => rfl
    exact indexes_iff.mp ((h.indexes.spliceFront it).modify hkeys it)

/-- Entering a key that is not cached. -/
theorem pushFront (h : Linked c l) (hk : cachedValue l k = none) (hroom : l.length < c.capacity)
    (w : Bytes) : Linked (c.pushFront k w) ((k, w) :: l) := by
  have hnot := (cachedValue_eq_none_iff l k).mp hk
  refine ⟨?_, ?_, List.nodup_cons.mpr ⟨hnot, h.nodup⟩, hroom⟩
  · rw [← h.entries]
    rfl
  · have hnone : c.map.lookup k = none := by
      rcases h.lookup_eq k with ⟨hnone, -⟩ | ⟨it, v, -, -, hsome⟩
      · exact hnone
      · rw [hk] at hsome
        exact absurd hsome (by simp)
    have hpushed : StdList.Indexes (c.map.insert k c.list.nextAddr) CacheEntry.key
        (c.list.pushFront ⟨k, w⟩) := h.indexes.pushFront (a := CacheEntry.mk k w) hnone
    exact indexes_iff.mp hpushed

/-- Evicting from a cache that is not empty drops one entry: the last one, unless a policy picks
another. -/
theorem evict (h : Linked c l) (hne : l ≠ []) :
    ∃ e ∈ l, (c.EvictsLast → e = l.getLast hne) ∧
      ∃ c', LruCache.evict c = .ok () c' ∧ c'.capacity = c.capacity ∧
        c'.evictionPolicy = c.evictionPolicy ∧ Linked c' (dropKey l e.1) := by
  obtain ⟨idx, hidx⟩ : ∃ idx, (if c.victimIdx (c.itersLru.map fun node => node.2.key) ≥
    c.itersLru.length then 0 else c.victimIdx (c.itersLru.map fun node => node.2.key)) = idx :=
    ⟨_, rfl⟩
  have hlen : c.itersLru.length = l.length := by
    rw [itersLru, List.length_reverse, ← h.entries, List.length_map]
  have hpos := List.length_pos_iff.mpr hne
  have hlt : idx < c.itersLru.length := by
    rw [← hidx]
    split <;> omega
  obtain ⟨⟨it, e⟩, hget⟩ : ∃ node, c.itersLru[idx]? = some node :=
    ⟨_, List.getElem?_eq_getElem hlt⟩
  have hmem : (it, e) ∈ c.list.nodes := by
    have := List.mem_of_getElem? hget
    rwa [itersLru, List.mem_reverse] at this
  refine ⟨entryOf (it, e), ?_, ?_, { c with
    map := c.map.erase e.key
    list := c.list.erase it
    trace := if c.evictionPolicy.isSome then
      c.trace ++ [c.itersLru.map fun node => node.2.key] else c.trace }, ?_, rfl, rfl,
    h.filter_nodes (v := e.value) hmem, ?_, ?_, ?_⟩
  · rw [← h.entries]
    exact List.mem_map_of_mem hmem
  · intro hlast
    -- the position picked is 0, counted from the back
    have hvictim : c.victimIdx (c.itersLru.map fun node => node.2.key) = 0 := by
      rcases hlast with hnone | hlru
      · rw [victimIdx, hnone]
      · rw [victimIdx, hlru]
        rfl
    have hzero : idx = 0 := by
      rw [← hidx, hvictim]
      split <;> rfl
    rw [hzero, itersLru, ← List.head?_eq_getElem?, List.head?_reverse] at hget
    have hmap := congrArg (Option.map entryOf) hget
    rw [← List.getLast?_map, h.entries, List.getLast?_eq_some_getLast hne] at hmap
    exact (Option.some.inj hmap).symm
  · simp only [LruCache.evict, hidx, hget]
  · exact indexes_iff.mp (h.indexes.erase hmem)
  · exact h.nodup.sublist (List.filter_sublist.map _)
  · exact le_trans (List.length_filter_le _ _) h.bound

/-- **What a put can do**: refresh a cached key, enter a new one, or enter it in the place of one
other entry. -/
theorem put (h : Linked c l) (hcap : 1 ≤ c.capacity) (k w : Bytes) :
    ∃ c' l', LruCache.put k w c = .ok () c' ∧ c'.capacity = c.capacity ∧
      c'.evictionPolicy = c.evictionPolicy ∧ Linked c' l' ∧
      ((cachedValue l k ≠ none ∧ l' = lruPut c.capacity l k w) ∨
        (cachedValue l k = none ∧ l.length < c.capacity ∧ l' = (k, w) :: l) ∨
        (cachedValue l k = none ∧ l.length = c.capacity ∧ ∃ (hne : l ≠ []) (e : Bytes × Bytes),
          e ∈ l ∧ (c.EvictsLast → e = l.getLast hne) ∧ l' = (k, w) :: dropKey l e.1)) := by
  have hsize : c.list.size = l.length := by
    rw [← h.entries, List.length_map]
    rfl
  have hbound := h.bound
  rcases h.lookup_eq k with ⟨hnone, hcached⟩ | ⟨it, v, hsome, hnode, hcached⟩
  · by_cases hfull : c.list.size ≥ c.capacity
    · have hne : l ≠ [] := by
        rintro rfl
        simp only [List.length_nil] at hsize
        omega
      obtain ⟨e, he, hlast, c₁, hevict, hcap₁, hpol₁, h₁⟩ := h.evict hne
      have hcached₁ : cachedValue (dropKey l e.1) k = none := by
        rw [cachedValue_eq_none_iff] at hcached ⊢
        exact fun hmem => hcached ((List.Sublist.map _ List.filter_sublist).subset hmem)
      have hlen := length_dropKey h.nodup (List.mem_map_of_mem he)
      refine ⟨c₁.pushFront k w, _, ?_, hcap₁, hpol₁, h₁.pushFront hcached₁ (by omega) w,
        Or.inr (Or.inr ⟨hcached, by omega, hne, e, he, hlast, rfl⟩)⟩
      simp only [LruCache.put, hnone]
      rw [if_pos hfull, hevict]
    · refine ⟨c.pushFront k w, _, ?_, rfl, rfl, h.pushFront hcached (by omega) w,
        Or.inr (Or.inl ⟨hcached, by omega, rfl⟩)⟩
      simp only [LruCache.put, hnone]
      rw [if_neg hfull]
  · obtain ⟨c', hput, hcap', hpol', h'⟩ := h.put_cached hcached w
    exact ⟨c', _, hput, hcap', hpol', h', Or.inl ⟨by rw [hcached]; simp, rfl⟩⟩

end Linked

namespace LruHolds

variable {c : LruCache} {l : List (Bytes × Bytes)} {k : Bytes}

theorem get (h : LruHolds c l) (k : Bytes) :
    (c.get k).1 = cachedValue l k ∧ (c.get k).2.capacity = c.capacity ∧
      LruHolds (c.get k).2
        (match cachedValue l k with
          | some v => lruPut c.capacity l k v
          | none => l) := by
  obtain ⟨hvalue, hcap, hpol, hlinked⟩ := h.toLinked.get k
  refine ⟨hvalue, hcap, hlinked, ?_⟩
  unfold EvictsLast
  rw [hpol]
  exact h.policy

/-- **`put` is `lruPut`** on a cache with at least one place. -/
theorem put (h : LruHolds c l) (hcap : 1 ≤ c.capacity) (k w : Bytes) :
    ∃ c', LruCache.put k w c = .ok () c' ∧ c'.capacity = c.capacity ∧
      LruHolds c' (lruPut c.capacity l k w) := by
  obtain ⟨c', l', hput, hcap', hpol', hlinked, hcases⟩ := h.toLinked.put hcap k w
  have hsame : l' = lruPut c.capacity l k w := by
    rcases hcases with ⟨-, heq⟩ | ⟨hnone, hroom, heq⟩ | ⟨hnone, hfull, hne, e, -, hlast, heq⟩
    · exact heq
    · have hnot := (cachedValue_eq_none_iff l k).mp hnone
      rw [heq, lruPut, dropKey_of_not_mem hnot, List.take_of_length_le]
      rw [List.length_cons]
      omega
    · have hnot := (cachedValue_eq_none_iff l k).mp hnone
      obtain ⟨n, hn⟩ : ∃ n, c.capacity = n + 1 := ⟨c.capacity - 1, by omega⟩
      rw [heq, hlast h.policy, dropKey_getLast h.nodup hne, lruPut, dropKey_of_not_mem hnot, hn,
        List.take_succ_cons, List.dropLast_eq_take]
      congr 2
      omega
  refine ⟨c', hput, hcap', ?_, ?_⟩
  · rw [← hsame]
    exact hlinked
  · unfold EvictsLast
    rw [hpol']
    exact h.policy

end LruHolds

/-- A cache without a place has no put. -/
theorem put_of_capacity_zero {c : LruCache} (h : Linked c []) (hcap : c.capacity = 0)
    (k w : Bytes) :
    LruCache.put k w c = .error (.undefinedBehaviour "iters_lru[victim_idx] past the end") c := by
  have hnil : c.list.nodes = [] := List.map_eq_nil_iff.mp h.entries
  have hnone : c.map.lookup k = none := by
    cases hk : c.map.lookup k with
    | none => rfl
    | some it =>
        obtain ⟨v, hmem⟩ := (h.iters k it).mp hk
        rw [hnil] at hmem
        exact absurd hmem (by simp)
  simp only [LruCache.put, hnone]
  rw [if_pos (by omega)]
  simp only [LruCache.evict, itersLru, hnil, List.reverse_nil, List.getElem?_nil]

end LruCache

end Aqa
