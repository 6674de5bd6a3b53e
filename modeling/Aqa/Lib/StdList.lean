/-
# Aqa.Lib.StdList — a doubly linked list whose nodes keep their address.

`std::list` hands out iterators that stay valid while other elements come and go. The model gives
every node an address: a list is the sequence of its nodes, an iterator is an address. Addresses
are never used twice while a node lives, which the structure carries as a field, so that an
iterator never denotes two nodes.

The operations are the ones a recency list needs: push at the front, erase, move to the front,
replace the value of a node, look one up. A map from keys to iterators goes with such a list
(`Indexes`); each operation keeps the two together.
-/
import Aqa.Lib.Bytes

namespace Aqa.Lib

/-- A linked list: its nodes from front to back, each with its address, and the next free
address. -/
structure StdList (α : Type*) where
  nodes : List (Nat × α)
  nextAddr : Nat
  addr_nodup : (nodes.map Prod.fst).Nodup
  addr_lt : ∀ node ∈ nodes, node.1 < nextAddr

namespace StdList

variable {α : Type*}

/-- The empty list. -/
def empty : StdList α := ⟨[], 0, by simp, by simp⟩

/-- The elements from front to back. -/
def toList (l : StdList α) : List α := l.nodes.map Prod.snd

/-- Number of elements. -/
def size (l : StdList α) : Nat := l.nodes.length

/-- The node an iterator points to. -/
def node? (l : StdList α) (it : Nat) : Option (Nat × α) := l.nodes.find? (fun node => node.1 == it)

/-- The element an iterator points to. -/
def deref? (l : StdList α) (it : Nat) : Option α := (l.node? it).map Prod.snd

/-- `push_front`; the new node's address is the list's `nextAddr`. -/
def pushFront (l : StdList α) (a : α) : StdList α where
  nodes := (l.nextAddr, a) :: l.nodes
  nextAddr := l.nextAddr + 1
  addr_nodup := by
    rw [List.map_cons, List.nodup_cons]
    refine ⟨?_, l.addr_nodup⟩
    rintro hmem
    obtain ⟨node, hnode, heq⟩ := List.mem_map.mp hmem
    exact absurd (l.addr_lt node hnode) (by simp only [heq]; omega)
  addr_lt := by
    intro node hnode
    rcases List.mem_cons.mp hnode with rfl | hnode
    · exact Nat.lt_succ_self _
    · exact Nat.lt_succ_of_lt (l.addr_lt node hnode)

/-- The iterator `begin()`; on an empty list it is `end()`, which no node has. -/
def begin (l : StdList α) : Nat :=
  match l.nodes with
  | [] => l.nextAddr
  | node :: _ => node.1

/-- `std::find`: the iterator to the first node with a value. -/
def find? [DecidableEq α] (l : StdList α) (a : α) : Option Nat :=
  (l.nodes.find? (fun node => node.2 == a)).map Prod.fst

/-- `erase` of the node an iterator points to. -/
def erase (l : StdList α) (it : Nat) : StdList α where
  nodes := l.nodes.filter (fun node => node.1 != it)
  nextAddr := l.nextAddr
  addr_nodup := l.addr_nodup.sublist (List.filter_sublist.map _)
  addr_lt := fun node hnode => l.addr_lt node (List.mem_filter.mp hnode).1

/-- `splice(begin(), list, it)`: the node moves to the front and keeps its address. -/
def spliceFront (l : StdList α) (it : Nat) : StdList α where
  nodes := (l.node? it).toList ++ l.nodes.filter (fun node => node.1 != it)
  nextAddr := l.nextAddr
  addr_nodup := by
    cases hfind : l.node? it with
    | none =>
        simp only [Option.toList_none, List.nil_append]
        exact l.addr_nodup.sublist (List.filter_sublist.map _)
    | some node =>
        have hit : node.1 = it := by simpa using List.find?_some hfind
        simp only [Option.toList_some, List.singleton_append, List.map_cons, List.nodup_cons]
        refine ⟨?_, l.addr_nodup.sublist (List.filter_sublist.map _)⟩
        intro hmem
        obtain ⟨other, hother, heq⟩ := List.mem_map.mp hmem
        have hne := (List.mem_filter.mp hother).2
        simp only [heq, hit, bne_self_eq_false, Bool.false_eq_true] at hne
  addr_lt := by
    intro node hnode
    rcases List.mem_append.mp hnode with hnode | hnode
    · exact l.addr_lt node (List.mem_of_find?_eq_some (Option.mem_toList.mp hnode))
    · exact l.addr_lt node (List.mem_filter.mp hnode).1

/-- A change made to the element an iterator points to. -/
def modify (l : StdList α) (it : Nat) (f : α → α) : StdList α where
  nodes := l.nodes.map (fun node => if node.1 = it then (node.1, f node.2) else node)
  nextAddr := l.nextAddr
  addr_nodup := by
    have hsame : (l.nodes.map (fun node => if node.1 = it then (node.1, f node.2) else node)).map
        Prod.fst = l.nodes.map Prod.fst := by
      rw [List.map_map]
      apply List.map_congr_left
      intro node _
      simp only [Function.comp_apply]
      split <;> rfl
    rw [hsame]
    exact l.addr_nodup
  addr_lt := by
    intro node hnode
    obtain ⟨old, hold, rfl⟩ := List.mem_map.mp hnode
    have hlt := l.addr_lt old hold
    split <;> exact hlt

/-! ## Addresses identify nodes -/

theorem eq_of_addr_eq {l : StdList α} {x y : Nat × α} (hx : x ∈ l.nodes) (hy : y ∈ l.nodes)
    (h : x.1 = y.1) : x = y :=
  List.inj_on_of_nodup_map l.addr_nodup hx hy h

theorem node?_eq_some_iff {l : StdList α} {it : Nat} {node : Nat × α} :
    l.node? it = some node ↔ node ∈ l.nodes ∧ node.1 = it := by
  constructor
  · intro h
    exact ⟨List.mem_of_find?_eq_some h, by simpa using List.find?_some h⟩
  · rintro ⟨hmem, rfl⟩
    cases hfind : l.node? node.1 with
    | none =>
        rw [node?, List.find?_eq_none] at hfind
        exact absurd (beq_self_eq_true node.1) (by simpa using hfind node hmem)
    | some other =>
        have hother : other ∈ l.nodes := List.mem_of_find?_eq_some hfind
        have haddr : other.1 = node.1 := by simpa using List.find?_some hfind
        rw [eq_of_addr_eq hother hmem haddr]

theorem begin_pushFront (l : StdList α) (a : α) : (l.pushFront a).begin = l.nextAddr := rfl

theorem mem_nodes_pushFront {l : StdList α} {a : α} {x : Nat × α} :
    x ∈ (l.pushFront a).nodes ↔ x = (l.nextAddr, a) ∨ x ∈ l.nodes := List.mem_cons

theorem mem_nodes_erase {l : StdList α} {it : Nat} {x : Nat × α} :
    x ∈ (l.erase it).nodes ↔ x ∈ l.nodes ∧ x.1 ≠ it := by
  rw [erase, List.mem_filter, bne_iff_ne]

/-- Splicing permutes the nodes. -/
theorem mem_nodes_spliceFront {l : StdList α} {it : Nat} {x : Nat × α} :
    x ∈ (l.spliceFront it).nodes ↔ x ∈ l.nodes := by
  rw [spliceFront, List.mem_append, Option.mem_toList, node?_eq_some_iff, List.mem_filter,
    bne_iff_ne]
  tauto

theorem mem_toList {l : StdList α} {a : α} : a ∈ l.toList ↔ ∃ it, (it, a) ∈ l.nodes := by
  rw [toList, List.mem_map]
  constructor
  · rintro ⟨⟨it, b⟩, hmem, rfl⟩
    exact ⟨it, hmem⟩
  · rintro ⟨it, hmem⟩
    exact ⟨(it, a), hmem, rfl⟩

/-- In a list without repeated values `find?` returns the address of the value. -/
theorem find?_eq_some [DecidableEq α] {l : StdList α} {a : α} {it : Nat} (hmem : (it, a) ∈ l.nodes)
    (huniq : ∀ it', (it', a) ∈ l.nodes → it' = it) : l.find? a = some it := by
  cases hfind : l.nodes.find? (fun node => node.2 == a) with
  | none =>
      rw [List.find?_eq_none] at hfind
      exact absurd (beq_self_eq_true a) (hfind _ hmem)
  | some node =>
      have hnode : node ∈ l.nodes := List.mem_of_find?_eq_some hfind
      have hval : node.2 = a := by simpa using List.find?_some hfind
      subst hval
      rw [find?, hfind, Option.map_some, huniq node.1 hnode]

@[simp]
theorem toList_empty : (empty : StdList α).toList = [] := rfl

@[simp]
theorem toList_pushFront (l : StdList α) (a : α) : (l.pushFront a).toList = a :: l.toList := rfl

/-- In a list without repeated values erasing a node erases its value. -/
theorem toList_erase [DecidableEq α] {l : StdList α} {a : α} {it : Nat} (hmem : (it, a) ∈ l.nodes)
    (hnodup : l.toList.Nodup) : (l.erase it).toList = l.toList.erase a := by
  rw [List.Nodup.erase_eq_filter hnodup, toList, toList, erase, List.filter_map]
  congr 1
  apply List.filter_congr
  rintro ⟨jt, b⟩ hnode
  have hiff : jt = it ↔ b = a := by
    constructor
    · intro heq
      exact congrArg Prod.snd (eq_of_addr_eq hnode hmem heq)
    · intro heq
      exact congrArg Prod.fst (List.inj_on_of_nodup_map hnodup hnode hmem heq)
  show (jt != it) = (b != a)
  by_cases heq : b = a
  · rw [heq, hiff.mpr heq]
    simp
  · have hne : jt ≠ it := fun h => heq (hiff.mp h)
    rw [bne_iff_ne.mpr hne, bne_iff_ne.mpr heq]

/-! ## A map from keys to nodes -/

section Indexes

variable {κ : Type*} [DecidableEq κ] {key : α → κ} {m : AList (fun _ : κ => Nat)} {l : StdList α}
  {it : Nat} {a : α}

/-- The map leads a key to the node whose element has it, and knows no other key. -/
def Indexes (m : AList (fun _ : κ => Nat)) (key : α → κ) (l : StdList α) : Prop :=
  ∀ k it, m.lookup k = some it ↔ ∃ a, (it, a) ∈ l.nodes ∧ key a = k

namespace Indexes

theorem lookup_eq (h : Indexes m key l) (hmem : (it, a) ∈ l.nodes) :
    m.lookup (key a) = some it := (h _ _).mpr ⟨a, hmem, rfl⟩

/-- Nodes with the same key are the same node. -/
theorem node_inj (h : Indexes m key l) {x y : Nat × α} (hx : x ∈ l.nodes) (hy : y ∈ l.nodes)
    (hkey : key x.2 = key y.2) : x = y := by
  have haddr := h.lookup_eq hx
  rw [hkey, h.lookup_eq hy] at haddr
  exact eq_of_addr_eq hx hy (Option.some.inj haddr).symm

/-- The nodes of the elements whose key is another one. -/
theorem ne_addr_iff (h : Indexes m key l) (hmem : (it, a) ∈ l.nodes) {x : Nat × α}
    (hx : x ∈ l.nodes) : x.1 ≠ it ↔ key x.2 ≠ key a := by
  refine not_congr ⟨fun haddr => ?_, fun hkey => ?_⟩
  · rw [eq_of_addr_eq hx hmem haddr]
  · rw [h.node_inj hx hmem hkey]

theorem pushFront (h : Indexes m key l) (hnew : m.lookup (key a) = none) :
    Indexes (m.insert (key a) l.nextAddr) key (l.pushFront a) := by
  intro k it
  simp only [mem_nodes_pushFront, Prod.mk.injEq]
  by_cases hk : k = key a
  · subst hk
    rw [AList.lookup_insert]
    constructor
    · intro heq
      exact ⟨a, Or.inl ⟨(Option.some.inj heq).symm, rfl⟩, rfl⟩
    · rintro ⟨b, ⟨rfl, -⟩ | hmem, hkey⟩
      · rfl
      · have hold := h.lookup_eq hmem
        rw [hkey, hnew] at hold
        exact absurd hold (by simp)
  · rw [AList.lookup_insert_ne hk, h]
    constructor
    · rintro ⟨b, hmem, hkey⟩
      exact ⟨b, Or.inr hmem, hkey⟩
    · rintro ⟨b, ⟨-, rfl⟩ | hmem, hkey⟩
      · exact absurd hkey.symm hk
      · exact ⟨b, hmem, hkey⟩

theorem erase (h : Indexes m key l) (hmem : (it, a) ∈ l.nodes) :
    Indexes (m.erase (key a)) key (l.erase it) := by
  intro k jt
  simp only [mem_nodes_erase]
  by_cases hk : k = key a
  · subst hk
    rw [AList.lookup_erase]
    constructor
    · exact fun hnone => absurd hnone (by simp)
    · rintro ⟨b, ⟨hb, hne⟩, hkey⟩
      exact absurd hkey ((h.ne_addr_iff hmem hb).mp hne)
  · rw [AList.lookup_erase_ne hk, h]
    constructor
    · rintro ⟨b, hb, rfl⟩
      exact ⟨b, ⟨hb, (h.ne_addr_iff hmem hb).mpr hk⟩, rfl⟩
    · rintro ⟨b, ⟨hb, -⟩, hkey⟩
      exact ⟨b, hb, hkey⟩

/-- An element that is erased and pushed again gets a new node, and its key a new iterator. -/
theorem moveFront (h : Indexes m key l) (hmem : (it, a) ∈ l.nodes) :
    Indexes (m.insert (key a) l.nextAddr) key ((l.erase it).pushFront a) := by
  have hpushed := (h.erase hmem).pushFront (AList.lookup_erase (key a) m)
  intro k jt
  rw [← hpushed k jt]
  by_cases hk : k = key a
  · subst hk
    rw [AList.lookup_insert, AList.lookup_insert]
    rfl
  · rw [AList.lookup_insert_ne hk, AList.lookup_insert_ne hk, AList.lookup_erase_ne hk]

theorem spliceFront (h : Indexes m key l) (it : Nat) : Indexes m key (l.spliceFront it) := by
  intro k jt
  simp only [h k jt, mem_nodes_spliceFront]

/-- A change to an element that leaves its key alone. -/
theorem modify (h : Indexes m key l) {f : α → α} (hf : ∀ a, key (f a) = key a) (it : Nat) :
    Indexes m key (l.modify it f) := by
  intro k jt
  rw [h k jt]
  have hnodes : (l.modify it f).nodes =
      l.nodes.map fun node => if node.1 = it then (node.1, f node.2) else node := rfl
  rw [hnodes]
  constructor
  · rintro ⟨a, hmem, rfl⟩
    by_cases haddr : jt = it
    · exact ⟨f a, List.mem_map.mpr ⟨_, hmem, if_pos haddr⟩, hf a⟩
    · exact ⟨a, List.mem_map.mpr ⟨_, hmem, if_neg haddr⟩, rfl⟩
  · rintro ⟨a, hmem, rfl⟩
    obtain ⟨⟨it', b⟩, hb, heq⟩ := List.mem_map.mp hmem
    by_cases haddr : it' = it
    · rw [if_pos haddr] at heq
      cases heq
      exact ⟨b, hb, (hf b).symm⟩
    · rw [if_neg haddr] at heq
      cases heq
      exact ⟨a, hb, rfl⟩

/-- `std::find` finds the node that the map leads to. -/
theorem find?_eq [DecidableEq α] {m : AList (fun _ : α => Nat)} (h : Indexes m id l)
    (hit : m.lookup a = some it) : l.find? a = some it := by
  obtain ⟨b, hmem, hb⟩ := (h a it).mp hit
  subst hb
  apply find?_eq_some hmem
  intro jt hjt
  exact Option.some.inj ((h.lookup_eq hjt).symm.trans hit)

theorem id_iff [DecidableEq α] {m : AList (fun _ : α => Nat)} :
    Indexes m id l ↔ ∀ a it, m.lookup a = some it ↔ (it, a) ∈ l.nodes := by
  simp only [Indexes, id, exists_eq_right]

end Indexes

end Indexes

@[simp]
theorem length_toList (l : StdList α) : l.toList.length = l.size := by
  rw [toList, size, List.length_map]

end StdList

end Aqa.Lib
