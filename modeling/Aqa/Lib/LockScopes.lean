/-
# Aqa.Lib.LockScopes — code that holds locks in scopes never deadlocks when it takes them in order.

`Code` is a program of which only the locks are left: scopes that hold a lock while their body runs
and give it back on every exit, destructors, exceptions, branches and loops whose conditions are
forgotten. `Runs` gives the lock actions of each of its runs.

Threads take such runs in turns. A lock is granted exclusively when nobody holds it, and shared when
nobody holds it exclusively. With locks ranked so that a scope only opens scopes of higher ranks
inside, which `Ordered` reads off the code, some thread can always go on (`exists_able`), and every
run can be brought to its end (`completes`). What a lock does with a thread that wants to share it
while another waits for it exclusively does not matter: the thread found here is granted its lock
under every such rule.
-/
import Mathlib.Data.Finset.Max
import Mathlib.Data.Finset.Image
import Aqa.Lib.Schedule

namespace Aqa.Lib.LockScopes

/-- How a lock is held. -/
inductive Hold where
  | shared
  | exclusive
  deriving DecidableEq, Repr

/-- What a thread does to a lock. -/
inductive Action (L : Type*) where
  | acquire (lock : L) (hold : Hold)
  | release (lock : L)
  deriving DecidableEq, Repr

/-- A program, with its locks as the only thing left of it. -/
inductive Code (L : Type*) where
  | skip
  | throw
  | seq (first second : Code L)
  | choice (left right : Code L)
  | loop (body : Code L)
  | attempt (body : Code L)
  | ensure (body cleanup : Code L)
  | scope (lock : L) (hold : Hold) (body : Code L)
  deriving Repr

variable {L : Type*}

/-- The lock actions of a run, and whether an exception leaves it. -/
inductive Code.Runs : Code L → List (Action L) → Bool → Prop where
  | skip : Runs .skip [] false
  | throw : Runs .throw [] true
  | seqThrown {a b : Code L} {tr : List (Action L)} : Runs a tr true → Runs (.seq a b) tr true
  | seq {a b : Code L} {tr tr' : List (Action L)} {thrown : Bool} :
      Runs a tr false → Runs b tr' thrown → Runs (.seq a b) (tr ++ tr') thrown
  | left {a b : Code L} {tr : List (Action L)} {thrown : Bool} :
      Runs a tr thrown → Runs (.choice a b) tr thrown
  | right {a b : Code L} {tr : List (Action L)} {thrown : Bool} :
      Runs b tr thrown → Runs (.choice a b) tr thrown
  | loopDone {a : Code L} : Runs (.loop a) [] false
  | loopThrown {a : Code L} {tr : List (Action L)} : Runs a tr true → Runs (.loop a) tr true
  | loopNext {a : Code L} {tr tr' : List (Action L)} {thrown : Bool} :
      Runs a tr false → Runs (.loop a) tr' thrown → Runs (.loop a) (tr ++ tr') thrown
  | attempt {a : Code L} {tr : List (Action L)} {thrown : Bool} :
      Runs a tr thrown → Runs (.attempt a) tr false
  | ensure {a b : Code L} {tr tr' : List (Action L)} {thrown : Bool} :
      Runs a tr thrown → Runs b tr' false → Runs (.ensure a b) (tr ++ tr') thrown
  | scope {l : L} {hold : Hold} {a : Code L} {tr : List (Action L)} {thrown : Bool} :
      Runs a tr thrown → Runs (.scope l hold a) (.acquire l hold :: (tr ++ [.release l])) thrown

/-! ## Locks in order -/

/-- The code takes locks from `bound` on, and inside a scope only higher ones. -/
def Code.Ordered (rank : L → Nat) (bound : Nat) : Code L → Prop
  | .skip | .throw => True
  | .seq a b | .choice a b | .ensure a b => a.Ordered rank bound ∧ b.Ordered rank bound
  | .loop a | .attempt a => a.Ordered rank bound
  | .scope l _ a => bound ≤ rank l ∧ a.Ordered rank (rank l + 1)

theorem Code.Ordered.mono {rank : L → Nat} {bound lower : Nat} {c : Code L}
    (h : c.Ordered rank bound) (hle : lower ≤ bound) : c.Ordered rank lower := by
  induction c with
  | skip => trivial
  | throw => trivial
  | seq a b iha ihb => exact ⟨iha h.1, ihb h.2⟩
  | choice a b iha ihb => exact ⟨iha h.1, ihb h.2⟩
  | ensure a b iha ihb => exact ⟨iha h.1, ihb h.2⟩
  | loop a ih => exact ih h
  | attempt a ih => exact ih h
  | scope l hold a _ => exact ⟨hle.trans h.1, h.2⟩

/-- From these locks on, the last one first, the actions take only higher locks, give back the last
one taken, and end with none. -/
def Ascending (rank : L → Nat) : List L → List (Action L) → Prop
  | held, [] => held = []
  | held, .acquire l _ :: tr => (∀ k ∈ held, rank k < rank l) ∧ Ascending rank (l :: held) tr
  | held, .release l :: tr => ∃ rest, held = l :: rest ∧ Ascending rank rest tr

/-- **Ordered code takes its locks in ascending order**, on every run, and gives them all back. -/
theorem Code.Runs.ascending {rank : L → Nat} {c : Code L} {tr : List (Action L)} {thrown : Bool}
    (hruns : c.Runs tr thrown) : ∀ {bound : Nat} {held : List L} {more : List (Action L)},
      c.Ordered rank bound → (∀ k ∈ held, rank k < bound) → Ascending rank held more →
      Ascending rank held (tr ++ more) := by
  induction hruns with
  | skip => exact fun _ _ hmore => hmore
  | throw => exact fun _ _ hmore => hmore
  | loopDone => exact fun _ _ hmore => hmore
  | seqThrown _ ih => exact fun hord hheld hmore => ih hord.1 hheld hmore
  | left _ ih => exact fun hord hheld hmore => ih hord.1 hheld hmore
  | right _ ih => exact fun hord hheld hmore => ih hord.2 hheld hmore
  | loopThrown _ ih => exact fun hord hheld hmore => ih hord hheld hmore
  | attempt _ ih => exact fun hord hheld hmore => ih hord hheld hmore
  | seq _ _ iha ihb =>
      intro bound held more hord hheld hmore
      rw [List.append_assoc]
      exact iha hord.1 hheld (ihb hord.2 hheld hmore)
  | ensure _ _ iha ihb =>
      intro bound held more hord hheld hmore
      rw [List.append_assoc]
      exact iha hord.1 hheld (ihb hord.2 hheld hmore)
  | loopNext _ _ iha ihb =>
      intro bound held more hord hheld hmore
      rw [List.append_assoc]
      exact iha hord hheld (ihb hord hheld hmore)
  | @scope l hold a tr thrown _ ih =>
      intro bound held more hord hheld hmore
      have hlower : ∀ k ∈ held, rank k < rank l := fun k hk => lt_of_lt_of_le (hheld k hk) hord.1
      have hclose : Ascending rank (l :: held) (.release l :: more) := ⟨held, rfl, hmore⟩
      have hbody : Ascending rank (l :: held) (tr ++ .release l :: more) := by
        refine ih hord.2 (fun k hk => ?_) hclose
        rcases List.mem_cons.mp hk with rfl | hk
        · exact Nat.lt_succ_self _
        · exact Nat.lt_succ_of_lt (hlower k hk)
      rw [List.cons_append, List.append_assoc]
      exact ⟨hlower, hbody⟩

/-! ## Threads -/

/-- A thread: the locks it holds, the last one first, and the actions it has left. -/
structure Thread (L : Type*) where
  held : List (L × Hold)
  todo : List (Action L)
  deriving DecidableEq, Repr

/-- The thread has come to its end. -/
def Thread.Finished (t : Thread L) : Prop := t.todo = []

variable [DecidableEq L]

instance (t : Thread L) : Decidable t.Finished := inferInstanceAs (Decidable (t.todo = []))

/-- A lock is granted: it is not held, or held and wanted shared. -/
def grants (w : List (Thread L)) (l : L) (hold : Hold) : Bool :=
  w.all fun t => t.held.all fun k => k.1 ≠ l || (hold = .shared && k.2 = .shared)

/-- The next action of thread `i`; a thread that is not granted its lock waits. -/
def turn (w : List (Thread L)) (i : Nat) : List (Thread L) :=
  match w[i]? with
  | some ⟨held, .acquire l hold :: todo⟩ =>
      if grants w l hold then w.set i ⟨(l, hold) :: held, todo⟩ else w
  | some ⟨held, .release l :: todo⟩ => w.set i ⟨held.eraseP (·.1 = l), todo⟩
  | _ => w

/-- The threads after the turns of a schedule. -/
def run (schedule : List Nat) (w : List (Thread L)) : List (Thread L) :=
  Schedule.run turn schedule w

/-- Threads that start with these actions. -/
def start (programs : List (List (Action L))) : List (Thread L) := programs.map fun tr => ⟨[], tr⟩

/-- Thread `i` can go on, whatever its lock does with waiting threads: it gives a lock back, or wants
one that nobody holds, and to share it only if nobody waits for it exclusively. -/
def Able (w : List (Thread L)) (i : Nat) : Prop :=
  ∃ t, w[i]? = some t ∧
    ((∃ l todo, t.todo = .release l :: todo) ∨
      ∃ l hold todo, t.todo = .acquire l hold :: todo ∧ (∀ u ∈ w, ∀ k ∈ u.held, k.1 ≠ l) ∧
        (hold = .shared → ∀ u ∈ w, ∀ todo', u.todo ≠ .acquire l .exclusive :: todo'))

/-- Every thread goes on in ascending order. -/
def InOrder (rank : L → Nat) (w : List (Thread L)) : Prop :=
  ∀ t ∈ w, Ascending rank (t.held.map Prod.fst) t.todo

omit [DecidableEq L] in
theorem inOrder_start {rank : L → Nat} {programs : List (List (Action L))}
    (h : ∀ tr ∈ programs, Ascending rank [] tr) : InOrder rank (start programs) := by
  intro t ht
  obtain ⟨tr, htr, rfl⟩ := List.mem_map.mp ht
  exact h tr htr

/-- A turn keeps the order. -/
theorem InOrder.turn {rank : L → Nat} {w : List (Thread L)} (h : InOrder rank w) (i : Nat) :
    InOrder rank (turn w i) := by
  unfold LockScopes.turn
  split
  · rename_i held l hold todo hi
    split
    · intro t ht
      rcases List.mem_or_eq_of_mem_set ht with ht | rfl
      · exact h t ht
      · exact (h _ (List.mem_of_getElem? hi)).2
    · exact h
  · rename_i held l todo hi
    intro t ht
    rcases List.mem_or_eq_of_mem_set ht with ht | rfl
    · exact h t ht
    · obtain ⟨rest, hheld, hrest⟩ := h _ (List.mem_of_getElem? hi)
      cases held with
      | nil => exact absurd hheld (by simp)
      | cons k held =>
          rw [List.map_cons, List.cons.injEq] at hheld
          obtain ⟨hkey, hrests⟩ := hheld
          show Ascending rank ((List.eraseP (·.1 = l) (k :: held)).map Prod.fst) todo
          rw [List.eraseP_cons_of_pos (by simpa using hkey), hrests]
          exact hrest
  · exact h

theorem InOrder.run {rank : L → Nat} {w : List (Thread L)} (h : InOrder rank w)
    (schedule : List Nat) : InOrder rank (run schedule w) :=
  Schedule.run_invariant (fun _ i hw => hw.turn i) schedule h

/-! ## Progress -/

/-- The lock a thread wants next. -/
def Thread.wants (t : Thread L) : Option L :=
  match t.todo with
  | .acquire l _ :: _ => some l
  | _ => none

omit [DecidableEq L] in
/-- A lock of the highest rank among those that are wanted is held by nobody, when nobody is about to
give a lock back. -/
theorem InOrder.free_of_highest {rank : L → Nat} {w : List (Thread L)} (h : InOrder rank w) {l : L}
    (hhigh : ∀ u ∈ w, ∀ l', u.wants = some l' → rank l' ≤ rank l)
    (hwait : ∀ u ∈ w, ∀ l' todo, u.todo ≠ .release l' :: todo) :
    ∀ u ∈ w, ∀ k ∈ u.held, k.1 ≠ l := by
  intro u hu k hk hkl
  have hin : l ∈ u.held.map Prod.fst := List.mem_map.mpr ⟨k, hk, hkl⟩
  have hasc := h u hu
  cases htodo : u.todo with
  | nil =>
      rw [htodo] at hasc
      rw [show u.held.map Prod.fst = [] from hasc] at hin
      exact absurd hin (by simp)
  | cons a todo =>
      cases a with
      | release l' => exact hwait u hu l' todo htodo
      | acquire l' hold =>
          rw [htodo] at hasc
          have hwants : u.wants = some l' := by
            unfold Thread.wants
            rw [htodo]
          exact absurd (hasc.1 l hin) (Nat.not_lt.mpr (hhigh u hu l' hwants))

/-- **Some thread can always go on**, until all have come to their end. -/
theorem InOrder.exists_able {rank : L → Nat} {w : List (Thread L)} (h : InOrder rank w)
    (hrest : ∃ t ∈ w, ¬ t.Finished) : ∃ i, Able w i := by
  by_cases hrelease : ∃ u ∈ w, ∃ l todo, u.todo = .release l :: todo
  · obtain ⟨u, hu, hnext⟩ := hrelease
    obtain ⟨i, hi⟩ := List.mem_iff_getElem?.mp hu
    exact ⟨i, u, hi, Or.inl hnext⟩
  have hwait : ∀ u ∈ w, ∀ l' todo, u.todo ≠ .release l' :: todo :=
    fun u hu l' todo heq => hrelease ⟨u, hu, l', todo, heq⟩
  -- everybody waits for a lock: take one of the highest rank
  obtain ⟨t, ht, hunfinished⟩ := hrest
  have hwants : ∃ l, t.wants = some l := by
    unfold Thread.wants
    cases htodo : t.todo with
    | nil => exact absurd htodo hunfinished
    | cons a todo =>
        cases a with
        | acquire l hold => exact ⟨l, rfl⟩
        | release l => exact absurd htodo (hwait t ht l todo)
  obtain ⟨l₀, hl₀⟩ := hwants
  obtain ⟨l, hl, hhigh⟩ := Finset.exists_max_image (w.filterMap Thread.wants).toFinset rank
    ⟨l₀, List.mem_toFinset.mpr (List.mem_filterMap.mpr ⟨t, ht, hl₀⟩)⟩
  have hfree := h.free_of_highest
    (fun u hu l' hu' => hhigh l' (List.mem_toFinset.mpr (List.mem_filterMap.mpr ⟨u, hu, hu'⟩))) hwait
  -- a thread that wants the lock alone goes first
  by_cases halone : ∃ u ∈ w, ∃ todo, u.todo = .acquire l .exclusive :: todo
  · obtain ⟨u, hu, todo, htodo⟩ := halone
    obtain ⟨i, hi⟩ := List.mem_iff_getElem?.mp hu
    exact ⟨i, u, hi, Or.inr ⟨l, .exclusive, todo, htodo, hfree, by simp⟩⟩
  · obtain ⟨u, hu, hwants⟩ := List.mem_filterMap.mp (List.mem_toFinset.mp hl)
    obtain ⟨hold, todo, htodo⟩ : ∃ hold todo, u.todo = .acquire l hold :: todo := by
      unfold Thread.wants at hwants
      split at hwants
      · rename_i l' hold todo heq
        rw [Option.some.injEq] at hwants
        exact ⟨hold, todo, by rw [← hwants]; exact heq⟩
      · exact absurd hwants (by simp)
    obtain ⟨i, hi⟩ := List.mem_iff_getElem?.mp hu
    exact ⟨i, u, hi, Or.inr ⟨l, hold, todo, htodo, hfree,
      fun _ v hv todo' heq => halone ⟨v, hv, todo', heq⟩⟩⟩

/-- The number of actions that are left. -/
def remaining : List (Thread L) → Nat
  | [] => 0
  | t :: w => t.todo.length + remaining w

omit [DecidableEq L] in
theorem remaining_set {w : List (Thread L)} {i : Nat} {t t' : Thread L} (hi : w[i]? = some t)
    (hlen : t'.todo.length + 1 = t.todo.length) : remaining (w.set i t') + 1 = remaining w := by
  induction w generalizing i with
  | nil => exact absurd hi (by simp)
  | cons u w ih =>
      cases i with
      | zero =>
          rw [List.getElem?_cons_zero, Option.some.injEq] at hi
          subst hi
          rw [List.set_cons_zero, remaining, remaining]
          omega
      | succ i =>
          have htail := ih hi
          rw [List.set_cons_succ, remaining, remaining]
          omega

/-- A thread that can go on does. -/
theorem Able.remaining_turn {w : List (Thread L)} {i : Nat} (h : Able w i) :
    remaining (turn w i) + 1 = remaining w := by
  obtain ⟨⟨held, todo⟩, hi, hnext⟩ := h
  rcases hnext with ⟨l, rest, htodo⟩ | ⟨l, hold, rest, htodo, hfree, -⟩
  · cases htodo
    unfold turn
    rw [hi]
    exact remaining_set hi rfl
  · cases htodo
    have hgrants : grants w l hold = true := by
      unfold grants
      rw [List.all_eq_true]
      intro u hu
      rw [List.all_eq_true]
      intro k hk
      simp [hfree u hu k hk]
    unfold turn
    rw [hi]
    dsimp only
    rw [if_pos hgrants]
    exact remaining_set hi rfl

/-- **Every run can be brought to its end.** -/
theorem InOrder.completes {rank : L → Nat} {w : List (Thread L)} (h : InOrder rank w) :
    ∃ schedule, ∀ t ∈ LockScopes.run schedule w, t.Finished := by
  induction hn : remaining w using Nat.strong_induction_on generalizing w with
  | _ n ih =>
      by_cases hrest : ∃ t ∈ w, ¬ t.Finished
      · obtain ⟨i, hable⟩ := h.exists_able hrest
        have hless := hable.remaining_turn
        obtain ⟨schedule, hdone⟩ := ih (remaining (LockScopes.turn w i)) (by omega) (h.turn i) rfl
        exact ⟨i :: schedule, hdone⟩
      · exact ⟨[], fun t ht => by_contra fun hnot => hrest ⟨t, ht, hnot⟩⟩

end Aqa.Lib.LockScopes
