/-
# Aqa.Lib.Pager — packing a stream of records into fixed-size pages.

An append-only writer keeps one page open. A record that does not fit closes the open page and
starts a new one; a record that does not fit an empty page is refused, after the open page has
been closed all the same. `Pager` is that discipline with the records left abstract: a record
needs `need a` units of room, a page offers `room` of them.

The closed pages in order and then the open one list exactly the accepted records
(`contents_appendAll`). Closing is monotone: a page once closed stays as it is (`pages_prefix`).
-/
import Aqa.Lib.Bytes

namespace Aqa.Lib

/-- The closed pages and the open one. -/
structure Pager (α : Type*) where
  pages : List (List α)
  cur : List α

namespace Pager

variable {α β : Type*} (need : α → Nat) (room : Nat)

/-- Room the records of a page take. -/
def used (page : List α) : Nat := (page.map need).sum

/-- Put a record on a page when it fits. -/
def tryInsert (page : List α) (a : α) : Option (List α) :=
  if used need page + need a ≤ room then some (page ++ [a]) else none

/-- Close the open page and start an empty one. -/
def close (p : Pager α) : Pager α := ⟨p.pages ++ [p.cur], []⟩

/-- Append a record: on the open page, on a fresh one, or not at all. -/
def append (p : Pager α) (a : α) : Bool × Pager α :=
  match tryInsert need room p.cur a with
  | some page => (true, { p with cur := page })
  | none =>
      match tryInsert need room [] a with
      | some page => (true, { p.close with cur := page })
      | none => (false, p.close)

/-- Append a stream of records, refused ones included. -/
def appendAll (p : Pager α) (as : List α) : Pager α :=
  as.foldl (fun p a => (append need room p a).2) p

/-- All records in page order. -/
def contents (p : Pager α) : List α := p.pages.flatten ++ p.cur

variable {need room}

@[simp]
theorem appendAll_nil (p : Pager α) : appendAll need room p [] = p := rfl

theorem appendAll_cons (p : Pager α) (a : α) (as : List α) :
    appendAll need room p (a :: as) = appendAll need room (append need room p a).2 as := rfl

theorem appendAll_append (p : Pager α) (as bs : List α) :
    appendAll need room p (as ++ bs) = appendAll need room (appendAll need room p as) bs :=
  List.foldl_append

theorem appendAll_concat (p : Pager α) (as : List α) (a : α) :
    appendAll need room p (as ++ [a]) = (append need room (appendAll need room p as) a).2 := by
  rw [appendAll_append]
  rfl

/-! ## What one append does -/

/-- The three outcomes of an append. -/
theorem append_cases (need : α → Nat) (room : Nat) (p : Pager α) (a : α) :
    (need a ≤ room ∧ used need p.cur + need a ≤ room ∧
        append need room p a = (true, ⟨p.pages, p.cur ++ [a]⟩)) ∨
      (need a ≤ room ∧ room < used need p.cur + need a ∧
        append need room p a = (true, ⟨p.pages ++ [p.cur], [a]⟩)) ∨
      (room < need a ∧ append need room p a = (false, ⟨p.pages ++ [p.cur], []⟩)) := by
  by_cases hfit : used need p.cur + need a ≤ room
  · refine Or.inl ⟨by omega, hfit, ?_⟩
    simp only [append, tryInsert, if_pos hfit]
  · by_cases hbig : need a ≤ room
    · refine Or.inr (Or.inl ⟨hbig, by omega, ?_⟩)
      have hfresh : used need ([] : List α) + need a ≤ room := by simpa [used] using hbig
      simp only [append, tryInsert, if_neg hfit, if_pos hfresh, close, List.nil_append]
    · refine Or.inr (Or.inr ⟨by omega, ?_⟩)
      have hfresh : ¬ used need ([] : List α) + need a ≤ room := by simpa [used] using hbig
      simp only [append, tryInsert, if_neg hfit, if_neg hfresh, close]

theorem append_accepts_iff (need : α → Nat) (room : Nat) (p : Pager α) (a : α) :
    (append need room p a).1 = true ↔ need a ≤ room := by
  rcases append_cases need room p a with ⟨h, _, heq⟩ | ⟨h, _, heq⟩ | ⟨h, heq⟩
  · simp [heq, h]
  · simp [heq, h]
  · simp [heq, Nat.not_le.mpr h]

theorem contents_append_of_fits {p : Pager α} {a : α} (h : need a ≤ room) :
    contents (append need room p a).2 = contents p ++ [a] := by
  rcases append_cases need room p a with ⟨_, _, heq⟩ | ⟨_, _, heq⟩ | ⟨hn, _⟩
  · simp [heq, contents]
  · simp [heq, contents]
  · omega

theorem contents_append_of_not_fits {p : Pager α} {a : α} (h : room < need a) :
    contents (append need room p a).2 = contents p := by
  rcases append_cases need room p a with ⟨hn, _⟩ | ⟨hn, _⟩ | ⟨_, heq⟩
  · omega
  · omega
  · simp [heq, contents]

theorem prefix_pages_append (p : Pager α) (a : α) :
    p.pages <+: (append need room p a).2.pages := by
  rcases append_cases need room p a with ⟨_, _, heq⟩ | ⟨_, _, heq⟩ | ⟨_, heq⟩
  · rw [heq]
  · rw [heq]
    exact List.prefix_append _ _
  · rw [heq]
    exact List.prefix_append _ _

/-- An accepted record is the last one of the open page. -/
theorem cur_append_of_fits {p : Pager α} {a : α} (h : need a ≤ room) :
    ∃ page, (append need room p a).2.cur = page ++ [a] := by
  rcases append_cases need room p a with ⟨_, _, heq⟩ | ⟨_, _, heq⟩ | ⟨hn, _⟩
  · exact ⟨p.cur, by rw [heq]⟩
  · exact ⟨[], by rw [heq]; rfl⟩
  · omega

/-! ## What a stream of appends does -/

/-- **Accounting.** The pages list the records that were there and the accepted ones, in order. -/
theorem contents_appendAll (p : Pager α) (as : List α) :
    contents (appendAll need room p as) =
      contents p ++ as.filter (fun a => decide (need a ≤ room)) := by
  induction as using List.reverseRecOn with
  | nil => simp
  | append_singleton as a ih =>
      rw [appendAll_concat, List.filter_append]
      by_cases ha : need a ≤ room
      · rw [contents_append_of_fits ha, ih, List.filter_singleton, decide_eq_true ha,
          List.append_assoc]
        rfl
      · rw [contents_append_of_not_fits (by omega), ih, List.filter_singleton,
          decide_eq_false ha]
        simp

theorem contents_appendAll_of_fits {p : Pager α} {as : List α} (h : ∀ a ∈ as, need a ≤ room) :
    contents (appendAll need room p as) = contents p ++ as := by
  rw [contents_appendAll, List.filter_eq_self.mpr]
  intro a ha
  exact decide_eq_true (h a ha)

/-- Two records that are each larger than half a page do not share one. -/
theorem append_of_large {pages : List (List α)} {a b : α} (hb : need b ≤ room)
    (hlarge : room < need a + need b) :
    (append need room ⟨pages, [a]⟩ b).2 = ⟨pages ++ [[a]], [b]⟩ := by
  have hused : used need [a] = need a := by simp [used]
  rcases append_cases need room ⟨pages, [a]⟩ b with ⟨-, hfit, -⟩ | ⟨-, -, heq⟩ | ⟨hbig, -⟩
  · rw [hused] at hfit
    omega
  · rw [heq]
  · omega

/-- Records larger than half a page get a page each. -/
theorem appendAll_of_large {as : List α} (h : ∀ a ∈ as, need a ≤ room ∧ room < 2 * need a)
    (pages : List (List α)) {a : α} (ha : room < 2 * need a) :
    (appendAll need room ⟨pages, [a]⟩ as).cur ≠ [] ∧
      (appendAll need room ⟨pages, [a]⟩ as).pages ++ [(appendAll need room ⟨pages, [a]⟩ as).cur] =
        pages ++ (a :: as).map fun b => [b] := by
  induction as generalizing pages a with
  | nil => exact ⟨by simp [appendAll_nil], rfl⟩
  | cons b as ih =>
      obtain ⟨hb, hlarge⟩ := h b List.mem_cons_self
      obtain ⟨hne, hpages⟩ := ih (fun x hx => h x (List.mem_cons_of_mem _ hx)) (pages ++ [[a]]) hlarge
      rw [appendAll_cons, append_of_large hb (by omega)]
      refine ⟨hne, ?_⟩
      rw [hpages, List.append_assoc]
      rfl

/-- Closed pages stay. -/
theorem prefix_pages_appendAll (need : α → Nat) (room : Nat) (p : Pager α) (as : List α) :
    p.pages <+: (appendAll need room p as).pages := by
  induction as using List.reverseRecOn with
  | nil => exact List.prefix_rfl
  | append_singleton as a ih =>
      rw [appendAll_concat]
      exact ih.trans (prefix_pages_append _ a)

/-- What is closed already plays no part in how a stream is packed. -/
theorem append_shift (base : List (List α)) (p : Pager α) (a : α) :
    append need room ⟨base ++ p.pages, p.cur⟩ a =
      ((append need room p a).1,
        ⟨base ++ (append need room p a).2.pages, (append need room p a).2.cur⟩) := by
  simp only [append]
  split
  · rfl
  · split
    · simp [close]
    · simp [close]

theorem appendAll_shift (need : α → Nat) (room : Nat) (base : List (List α)) (p : Pager α) (as : List α) :
    appendAll need room ⟨base ++ p.pages, p.cur⟩ as =
      ⟨base ++ (appendAll need room p as).pages, (appendAll need room p as).cur⟩ := by
  induction as generalizing p with
  | nil => rfl
  | cons a as ih =>
      rw [appendAll_cons, append_shift, appendAll_cons]
      exact ih (append need room p a).2

/-- A stream of accepted records closes no empty page. -/
theorem ne_nil_of_mem_pages_appendAll {p : Pager α} {as : List α}
    (h : ∀ a ∈ as, need a ≤ room) {page : List α}
    (hmem : page ∈ (appendAll need room p as).pages) : page ∈ p.pages ∨ page ≠ [] := by
  induction as using List.reverseRecOn with
  | nil => exact Or.inl hmem
  | append_singleton as a ih =>
      have ih := ih (fun b hb => h b (List.mem_append_left _ hb))
      have ha : need a ≤ room := h a (by simp)
      rw [appendAll_concat] at hmem
      rcases append_cases need room (appendAll need room p as) a with
        ⟨_, _, heq⟩ | ⟨_, hfull, heq⟩ | ⟨hn, _⟩
      · rw [heq] at hmem
        exact ih hmem
      · rw [heq] at hmem
        rcases List.mem_append.mp hmem with hmem | hmem
        · exact ih hmem
        · right
          rw [List.mem_singleton.mp hmem]
          intro hnil
          rw [hnil] at hfull
          simp only [used, List.map_nil, List.sum_nil] at hfull
          omega
      · omega

theorem cur_appendAll_ne_nil {p : Pager α} {as : List α} (h : ∀ a ∈ as, need a ≤ room)
    (hne : as ≠ []) : (appendAll need room p as).cur ≠ [] := by
  obtain ⟨as', a, rfl⟩ := (List.eq_nil_or_concat as).resolve_left hne
  rw [List.concat_eq_append] at h ⊢
  rw [appendAll_concat]
  obtain ⟨page, heq⟩ := cur_append_of_fits (p := appendAll need room p as') (h a (by simp))
  rw [heq]
  simp

end Pager

end Aqa.Lib
