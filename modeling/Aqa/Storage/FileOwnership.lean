/-
# Aqa.Storage.FileOwnership — every descriptor and every mapping is given back once.

`Accounts` says what the system calls have left in somebody's hands. Each member of `MappedFile` is
specified against it with a frame: whatever is held beside what the object owns stays held. Over a
program, everything held is owned by exactly one object, or was dropped by an operation that
overwrote an open descriptor or left it behind (`owning_step`, `owning_run`).
-/
import Aqa.Storage.FileObjects

namespace Aqa

open Aqa.Lib Aqa.Lib.Ledger

/-- A file that is not empty and whose mapping fails. -/
def Opening.Unmappable : Opening → Prop
  | openFails => False
  | statFails => False
  | statted size maps => size > 0 ∧ maps = false

instance (opening : Opening) : Decidable opening.Unmappable :=
  match opening with
  | .openFails => isFalse id
  | .statFails => isFalse id
  | .statted size maps => inferInstanceAs (Decidable (size > 0 ∧ maps = false))

/-! ## What the system calls and the members hold -/

/-- One of a resource. -/
def oneOf (r : Resource) : Resource → Nat := fun r' => if r' = r then 1 else 0

/-- The ledger is disciplined, names are fresh, and what is held is this. -/
structure System.Accounts (s : System) (held : Resource → Nat) : Prop where
  disciplined : Disciplined s.ledger
  fresh : ∀ r, .acquire r ∈ s.ledger → r.id < s.fresh
  held : ∀ r, (if Held s.ledger r then 1 else 0) = held r

namespace System.Accounts

variable {s : System} {held rest : Resource → Nat} {r : Resource}

theorem isHeld (h : s.Accounts held) (hr : 0 < held r) : Held s.ledger r := by
  by_contra hnot
  have hheld := h.held r
  rw [if_neg hnot] at hheld
  omega

theorem use (h : s.Accounts held) (hr : 0 < held r) : (s.use r).Accounts held where
  disciplined := disciplined_concat_iff.mpr ⟨h.disciplined, h.isHeld hr⟩
  fresh r' hr' := h.fresh r' (by simpa [System.use] using hr')
  held r' := by
    rw [← h.held r']
    simp only [System.use, held_use]

theorem release (h : s.Accounts (rest + oneOf r)) : (s.release r).Accounts rest where
  disciplined := by
    refine disciplined_concat_iff.mpr ⟨h.disciplined, h.isHeld ?_⟩
    show 0 < rest r + oneOf r r
    rw [oneOf, if_pos rfl]
    exact Nat.succ_pos _
  fresh r' hr' := h.fresh r' (by simpa [System.release] using hr')
  held r' := by
    have hheld := h.held r'
    simp only [Pi.add_apply, oneOf] at hheld
    simp only [System.release, held_release]
    by_cases hr' : r' = r
    · -- the released resource was held once, so nothing else holds it
      rw [if_pos hr'] at hheld
      rw [if_neg (by simp [hr'])]
      split at hheld <;> omega
    · rw [if_neg hr', Nat.add_zero] at hheld
      simp [hr', hheld]

theorem acquire (h : s.Accounts held) (hr : r.id = s.fresh) :
    (s.acquire r).Accounts (held + oneOf r) := by
  have hnew : Event.acquire r ∉ s.ledger := by
    intro hmem
    have hlt := h.fresh r hmem
    omega
  have hdisciplined : Disciplined (s.acquire r).ledger :=
    disciplined_concat_iff.mpr ⟨h.disciplined, hnew⟩
  refine ⟨hdisciplined, ?_, ?_⟩
  · intro r' hr'
    rcases List.mem_append.mp hr' with hold | hlast
    · exact Nat.lt_succ_of_lt (h.fresh r' hold)
    · cases List.mem_singleton.mp hlast
      show r.id < s.fresh + 1
      omega
  · intro r'
    show _ = held r' + oneOf r r'
    rw [← h.held r', oneOf]
    have hiff : Held (s.acquire r).ledger r' ↔ Held s.ledger r' ∨ r' = r :=
      hdisciplined.held_acquire
    by_cases hr' : r' = r
    · have hnot : ¬ Held s.ledger r' := by
        rw [hr']
        exact fun hheld => hnew hheld.1
      rw [if_pos (hiff.mpr (Or.inr hr')), if_neg hnot, if_pos hr']
    · rw [if_neg hr', Nat.add_zero]
      simp only [hiff, hr', or_false]

end System.Accounts

namespace MappedFileObject

/-- The descriptor an object holds. -/
def fdHeld (o : MappedFileObject) : Resource → Nat := o.fd.elim 0 fun fd => oneOf (.descriptor fd)

/-- The mapping an object holds. -/
def dataHeld (o : MappedFileObject) : Resource → Nat :=
  o.data.elim 0 fun data => oneOf (.mapping data o.fileSize)

/-- What an object owns. -/
def owned (o : MappedFileObject) : Resource → Nat := o.fdHeld + o.dataHeld

variable {o : MappedFileObject} {s : System} {rest : Resource → Nat}

/-- Unmapping gives the mapping back and keeps the descriptor. -/
theorem unmapMemory_spec (h : s.Accounts (rest + o.owned)) :
    ∃ s', o.unmapMemory s = ({ o with data := none }, s') ∧ s'.Accounts (rest + o.fdHeld) := by
  cases o with
  | mk path fd data fileSize pageCount =>
      cases data with
      | none => exact ⟨s, rfl, h⟩
      | some data =>
          refine ⟨(s.msync data fileSize).munmap data fileSize, rfl, ?_⟩
          apply System.Accounts.release
          rw [add_assoc]
          refine h.use ?_
          -- the object itself holds its mapping
          show 0 < rest _ + (_ + oneOf (.mapping data fileSize) (.mapping data fileSize))
          rw [oneOf, if_pos rfl]
          omega

/-- The destructor gives everything back. -/
theorem destroy_spec (h : s.Accounts (rest + o.owned)) : (o.destroy s).Accounts rest := by
  obtain ⟨s', heq, h'⟩ := unmapMemory_spec h
  rw [destroy, heq]
  show (if o.fd ≠ none then s'.close o.fd else s').Accounts rest
  cases hfd : o.fd with
  | none =>
      rw [fdHeld, hfd] at h'
      exact h'
  | some fd =>
      rw [fdHeld, hfd] at h'
      exact h'.release

/-- The object that is assigned to gives its mapping back, but keeps its descriptor: the one it
closes is -1. -/
theorem letGo_spec (h : s.Accounts (rest + o.owned)) :
    (o.letGo s).Accounts (rest + o.fdHeld) := by
  obtain ⟨s', heq, h'⟩ := unmapMemory_spec h
  rw [letGo, heq]
  show (if o.fd = none then s'.close o.fd else s').Accounts _
  cases hfd : o.fd with
  | none => exact h'
  | some fd => exact h'

/-- Using the descriptor an object holds. -/
theorem onDescriptor_spec {fd : Nat} (hfd : o.fd = some fd) (h : s.Accounts (rest + o.fdHeld)) :
    (s.onDescriptor fd).Accounts (rest + o.fdHeld) := by
  refine h.use ?_
  rw [fdHeld, hfd]
  show 0 < rest _ + oneOf (.descriptor fd) (.descriptor fd)
  rw [oneOf, if_pos rfl]
  exact Nat.succ_pos _

/-- Mapping an object that has no mapping, whether it succeeds or not. -/
theorem mapMemory_spec (maps : Bool) (hdata : o.data = none) (h : s.Accounts (rest + o.fdHeld)) :
    (resultState (mapMemory maps (o, s))).2.Accounts
      (rest + (resultState (mapMemory maps (o, s))).1.owned) := by
  obtain ⟨path, fd, data, fileSize, pageCount⟩ := o
  cases hdata
  unfold mapMemory
  dsimp only
  by_cases hsize : fileSize = 0
  · rw [if_pos hsize]
    exact h
  · rw [if_neg hsize]
    cases fd with
    | none => exact h
    | some fd =>
        have hused := onDescriptor_spec rfl h
        cases maps with
        | false => exact hused
        | true =>
            show ((s.onDescriptor fd).acquire (.mapping s.fresh fileSize)).Accounts
              (rest + (oneOf (.descriptor fd) + oneOf (.mapping s.fresh fileSize)))
            rw [← add_assoc]
            exact hused.acquire rfl

/-- The mapping of a file that is not empty: it succeeds, or it throws and leaves the object as it
was. -/
theorem mapMemory_cases (maps : Bool) {fd : Nat} (hsize : o.fileSize ≠ 0) (hfd : o.fd = some fd)
    (hdata : o.data = none) :
    (maps = true ∧ ∃ o' s', mapMemory maps (o, s) = .ok () (o', s')) ∨
      (maps = false ∧ ∃ err s', mapMemory maps (o, s) = .error err (o, s')) := by
  obtain ⟨path, fd', data, fileSize, pageCount⟩ := o
  cases hfd
  cases hdata
  unfold mapMemory
  dsimp only
  rw [if_neg hsize]
  cases maps with
  | false => exact Or.inr ⟨rfl, _, _, rfl⟩
  | true => exact Or.inl ⟨rfl, _, _, rfl⟩

/-- A constructor that returns gives an object what it acquired; one that throws gives back what it
acquired, unless it was the mapping that failed. -/
theorem new_spec (path : String) (opening : Opening) (h : s.Accounts rest) :
    (∃ o s', new path opening s = .ok o s' ∧ ¬ opening.Unmappable ∧ s'.Accounts (rest + o.owned)) ∨
      ∃ err s', new path opening s = .error err s' ∧
        (opening.Unmappable ∧ s'.Accounts (rest + oneOf (.descriptor s.fresh)) ∨
          ¬ opening.Unmappable ∧ s'.Accounts rest) := by
  have hopened : (s.acquire (.descriptor s.fresh)).Accounts (rest + oneOf (.descriptor s.fresh)) :=
    h.acquire rfl
  have hused : ((s.acquire (.descriptor s.fresh)).use (.descriptor s.fresh)).Accounts
      (rest + oneOf (.descriptor s.fresh)) :=
    onDescriptor_spec (o := ⟨path, some s.fresh, none, 0, 0⟩) rfl hopened
  cases opening with
  | openFails =>
      exact Or.inr ⟨_, s, rfl, Or.inr ⟨id, h⟩⟩
  | statFails =>
      exact Or.inr ⟨_, _, rfl, Or.inr ⟨id, hused.release⟩⟩
  | statted size maps =>
      let o : MappedFileObject := ⟨path, some s.fresh, none, size, u32 (size / PAGE_SIZE)⟩
      let s₁ := (s.acquire (.descriptor s.fresh)).use (.descriptor s.fresh)
      by_cases hsize : size > 0
      · have hne : o.fileSize ≠ 0 := Nat.pos_iff_ne_zero.mp hsize
        have hheld : s₁.Accounts (rest + o.fdHeld) := hused
        have hmap := mapMemory_spec maps rfl hheld
        have hnew : new path (.statted size maps) s = constructed (mapMemory maps (o, s₁)) :=
          if_pos hsize
        rw [hnew]
        rcases mapMemory_cases (s := s₁) maps hne rfl rfl with
          ⟨hmaps, o', s', hrun⟩ | ⟨hmaps, err, s', hrun⟩
        · rw [hrun] at hmap ⊢
          refine Or.inl ⟨o', s', rfl, ?_, hmap⟩
          rintro ⟨-, hfalse⟩
          rw [hmaps] at hfalse
          cases hfalse
        · -- the object is not constructed, so that nobody closes its descriptor
          rw [hrun] at hmap ⊢
          exact Or.inr ⟨err, s', rfl, Or.inl ⟨⟨hsize, hmaps⟩, hmap⟩⟩
      · have hnew : new path (.statted size maps) s = .ok o s₁ := if_neg hsize
        refine Or.inl ⟨o, s₁, hnew, ?_, hused⟩
        rintro ⟨hpos, -⟩
        exact hsize hpos

/-- Growing a file, whether it succeeds or not. -/
theorem growFile_spec (newPageCount : Nat) (resizes maps : Bool) (h : s.Accounts (rest + o.owned)) :
    (resultState (growFile newPageCount resizes maps (o, s))).2.Accounts
      (rest + (resultState (growFile newPageCount resizes maps (o, s))).1.owned) := by
  unfold growFile
  dsimp only
  by_cases hcount : newPageCount ≤ o.pageCount
  · rw [if_pos hcount]
    exact h
  · rw [if_neg hcount]
    obtain ⟨s', heq, h'⟩ := unmapMemory_spec h
    have hunmapped : (if o.data ≠ none then o.unmapMemory s else (o, s)) =
        ({ o with data := none }, s') := by
      rw [← heq]
      by_cases hdata : o.data = none
      · rw [if_neg (not_not.mpr hdata), unmapMemory, hdata]
      · rw [if_pos hdata]
    rw [hunmapped]
    obtain ⟨path, fd, data, fileSize, pageCount⟩ := o
    cases fd with
    | none => exact h'
    | some fd =>
        have hused := onDescriptor_spec rfl h'
        cases resizes with
        | false => exact hused
        | true =>
            have hsynced := onDescriptor_spec (o := ⟨path, some fd, data, fileSize, pageCount⟩) rfl
              hused
            exact mapMemory_spec (o := ⟨path, some fd, none, u32 (newPageCount * PAGE_SIZE),
              newPageCount⟩) maps rfl hsynced

/-- Using the mapping an object holds. -/
theorem onMapping_spec {data : Nat} (hdata : o.data = some data) (h : s.Accounts (rest + o.owned)) :
    (s.use (.mapping data o.fileSize)).Accounts (rest + o.owned) := by
  refine h.use ?_
  rw [owned, dataHeld, hdata]
  show 0 < rest _ + (_ + oneOf (.mapping data o.fileSize) (.mapping data o.fileSize))
  rw [oneOf, if_pos rfl]
  omega

theorem touchPage_spec (h : s.Accounts (rest + o.owned)) :
    (o.touchPage s).Accounts (rest + o.owned) := by
  unfold touchPage
  cases hdata : o.data with
  | none => exact h
  | some data => exact onMapping_spec hdata h

theorem flush_spec (syncs : Bool) (h : s.Accounts (rest + o.owned)) :
    (resultState (flush syncs (o, s))).2.Accounts
      (rest + (resultState (flush syncs (o, s))).1.owned) := by
  unfold flush
  dsimp only
  cases hdata : o.data with
  | none => exact h
  | some data =>
      have hsynced := onMapping_spec hdata h
      cases syncs with
      | false => exact hsynced
      | true =>
          cases hfd : o.fd with
          | none => exact hsynced
          | some fd =>
              have hone : 0 < (rest + o.owned) (.descriptor fd) := by
                rw [owned, fdHeld, hfd]
                show 0 < rest _ + (oneOf (.descriptor fd) (.descriptor fd) + _)
                rw [oneOf, if_pos rfl]
                omega
              exact hsynced.use hone

end MappedFileObject

/-! ## Programs -/

namespace FileProgram

/-- An operation that drops an open descriptor: a move assignment over an object that has one, and
a construction that fails in `mmap`. -/
def Drops (s : FileProgram) : FileOp → Prop
  | .moveAssign dst src =>
      dst ≠ src ∧ (s.object src).isSome ∧ (s.object dst).any fun old => old.fd.isSome
  | .new _ opening => opening.Unmappable
  | .moveConstruct _ => False
  | .growFile _ _ _ _ => False
  | .touchPage _ => False
  | .flush _ _ => False
  | .destroy _ => False

instance (s : FileProgram) (op : FileOp) : Decidable (s.Drops op) :=
  match op with
  | .moveAssign _ _ => inferInstanceAs (Decidable (_ ∧ _ ∧ _))
  | .new _ opening => inferInstanceAs (Decidable opening.Unmappable)
  | .moveConstruct _ => isFalse id
  | .growFile _ _ _ _ => isFalse id
  | .touchPage _ => isFalse id
  | .flush _ _ => isFalse id
  | .destroy _ => isFalse id

/-- No operation of a program drops a descriptor. -/
def KeepsDescriptors : List FileOp → FileProgram → Prop
  | [], _ => True
  | op :: ops, s => ¬ s.Drops op ∧ KeepsDescriptors ops (s.step op)

instance decidableKeepsDescriptors : (ops : List FileOp) → (s : FileProgram) →
    Decidable (KeepsDescriptors ops s)
  | [], _ => isTrue trivial
  | op :: ops, s =>
      have := decidableKeepsDescriptors ops (s.step op)
      inferInstanceAs (Decidable (_ ∧ _))

/-! ## What the objects own -/

/-- What an object owns that has been constructed and not destroyed. -/
def ownedBy (o : Option MappedFileObject) : Resource → Nat := o.elim 0 MappedFileObject.owned

/-- What all objects own together. -/
def heldBy (objects : List (Option MappedFileObject)) : Resource → Nat :=
  (objects.map ownedBy).sum

/-- The objects beside one of them own the same, whatever that one becomes. -/
theorem exists_rest {objects : List (Option MappedFileObject)} {i : Nat}
    {o : Option MappedFileObject} (h : objects[i]? = some o) :
    ∃ rest, heldBy objects = rest + ownedBy o ∧
      ∀ o', heldBy (objects.set i o') = rest + ownedBy o' := by
  induction objects generalizing i with
  | nil => cases h
  | cons head tail ih =>
      cases i with
      | zero =>
          cases h
          refine ⟨heldBy tail, ?_, fun o' => ?_⟩
          · rw [heldBy, List.map_cons, List.sum_cons, add_comm]
            rfl
          · rw [List.set_cons_zero, heldBy, List.map_cons, List.sum_cons, add_comm]
            rfl
      | succ i =>
          obtain ⟨rest, hrest, hset⟩ := ih h
          refine ⟨ownedBy head + rest, ?_, fun o' => ?_⟩
          · rw [add_assoc, ← hrest, heldBy, List.map_cons, List.sum_cons]
            rfl
          · rw [add_assoc, ← hset o', List.set_cons_succ, heldBy, List.map_cons, List.sum_cons]
            rfl

theorem heldBy_append_one (objects : List (Option MappedFileObject)) (o : MappedFileObject) :
    heldBy (objects ++ [some o]) = heldBy objects + o.owned := by
  simp [heldBy, ownedBy]

theorem object_eq_some_iff {s : FileProgram} {i : Nat} {o : MappedFileObject} :
    s.object i = some o ↔ s.objects[i]? = some (some o) := by
  unfold object
  cases s.objects[i]? with
  | none => simp
  | some w => simp

/-- What the system has handed out is owned by the objects, or was dropped. -/
def Owning (s : FileProgram) (dropped : Resource → Nat) : Prop :=
  s.system.Accounts (heldBy s.objects + dropped)

namespace Owning

variable {s : FileProgram} {dropped : Resource → Nat}

/-- An object with what it owns put apart. -/
theorem split (h : s.Owning dropped) {i : Nat} {o : MappedFileObject} (ho : s.object i = some o) :
    ∃ rest, s.system.Accounts (rest + o.owned) ∧
      ∀ o', heldBy (s.objects.set i o') + dropped = rest + ownedBy o' := by
  obtain ⟨rest, hrest, hset⟩ := exists_rest (object_eq_some_iff.mp ho)
  refine ⟨rest + dropped, ?_, fun o' => ?_⟩
  · rw [add_right_comm]
    show s.system.Accounts (rest + ownedBy (some o) + dropped)
    rw [← hrest]
    exact h
  · rw [hset, add_right_comm]

/-- A member that keeps what its object owns in step with the system. -/
theorem onObject (h : s.Owning dropped) (i : Nat)
    {m : EStateM Error (MappedFileObject × System) Unit}
    (hm : ∀ (o : MappedFileObject) (system : System) (rest : Resource → Nat),
      system.Accounts (rest + o.owned) →
        (resultState (m (o, system))).2.Accounts
          (rest + (resultState (m (o, system))).1.owned)) :
    (s.onObject i m).Owning dropped := by
  unfold FileProgram.onObject
  cases ho : s.object i with
  | none => exact h
  | some o =>
      obtain ⟨rest, haccounts, hset⟩ := h.split ho
      show System.Accounts _ (heldBy (s.objects.set i _) + dropped)
      rw [hset]
      exact hm o s.system rest haccounts

theorem destroy (h : s.Owning dropped) (i : Nat) : (s.step (.destroy i)).Owning dropped := by
  unfold step
  dsimp only
  cases ho : s.object i with
  | none => exact h
  | some o =>
      obtain ⟨rest, haccounts, hset⟩ := h.split ho
      show (o.destroy s.system).Accounts (heldBy (s.objects.set i none) + dropped)
      rw [hset]
      exact MappedFileObject.destroy_spec haccounts

theorem moveConstruct (h : s.Owning dropped) (src : Nat) : (s.moveConstruct src).Owning dropped := by
  unfold FileProgram.moveConstruct
  cases ho : s.object src with
  | none => exact h
  | some o =>
      obtain ⟨rest, haccounts, hset⟩ := h.split ho
      show s.system.Accounts (heldBy (s.objects.set src (some .movedFrom) ++ [some o]) + dropped)
      rw [heldBy_append_one, add_right_comm, hset]
      exact haccounts

/-- The object assigned to keeps its place for what it takes over, and its own descriptor is
dropped. -/
theorem moveAssign (h : s.Owning dropped) {dst src : Nat} (hne : dst ≠ src)
    {old o : MappedFileObject} (hdst : s.object dst = some old) (hsrc : s.object src = some o) :
    (s.moveAssign dst src).Owning (dropped + old.fdHeld) := by
  obtain ⟨rest, haccounts, hset⟩ := h.split hdst
  have hsrc' : (s.objects.set dst (some o))[src]? = some (some o) := by
    rw [List.getElem?_set_ne hne]
    exact object_eq_some_iff.mp hsrc
  obtain ⟨rest', hrest', hset'⟩ := exists_rest hsrc'
  -- taking the other object's resources away from it leaves what the first one let go of
  have hsame : rest' + dropped = rest := by
    have hboth := hset (some o)
    rw [hrest', add_right_comm] at hboth
    exact add_right_cancel hboth
  unfold FileProgram.moveAssign
  rw [if_neg hne, hdst, hsrc]
  show (old.letGo s.system).Accounts
    (heldBy ((s.objects.set dst (some o)).set src (some .movedFrom)) + (dropped + old.fdHeld))
  rw [hset', ← add_assoc]
  show (old.letGo s.system).Accounts (rest' + (0 : Resource → Nat) + dropped + old.fdHeld)
  rw [add_zero, hsame]
  exact MappedFileObject.letGo_spec haccounts

end Owning

theorem fdHeld_eq_zero_iff (o : MappedFileObject) : o.fdHeld = 0 ↔ o.fd = none := by
  cases hfd : o.fd with
  | none => simp [MappedFileObject.fdHeld, hfd]
  | some fd =>
      refine ⟨fun h => ?_, fun h => by cases h⟩
      have hone := congrFun h (.descriptor fd)
      rw [MappedFileObject.fdHeld, hfd] at hone
      simp [oneOf] at hone

/-! ## Runs -/

variable {s : FileProgram} {dropped : Resource → Nat}

/-- A construction, whether it succeeds or not. -/
theorem Owning.new (h : s.Owning dropped) (path : String) (opening : Opening) :
    ∃ dropped', (s.new path opening).Owning dropped' ∧
      (dropped' = 0 ↔ dropped = 0 ∧ ¬ opening.Unmappable) := by
  unfold FileProgram.new
  rcases MappedFileObject.new_spec path opening h with
    ⟨o, system, heq, hmaps, haccounts⟩ | ⟨err, system, heq, hrest⟩
  · rw [heq]
    refine ⟨dropped, ?_, by simp [hmaps]⟩
    show system.Accounts (heldBy (s.objects ++ [some o]) + dropped)
    rw [heldBy_append_one, add_right_comm]
    exact haccounts
  · rw [heq]
    rcases hrest with ⟨hfails, haccounts⟩ | ⟨hmaps, haccounts⟩
    · refine ⟨dropped + oneOf (.descriptor s.system.fresh), ?_, ?_⟩
      · show system.Accounts (heldBy s.objects + (dropped + _))
        rw [← add_assoc]
        exact haccounts
      · refine ⟨fun hzero => ?_, fun hboth => absurd hfails hboth.2⟩
        have hone := congrFun hzero (.descriptor s.system.fresh)
        simp [oneOf] at hone
    · exact ⟨dropped, haccounts, by simp [hmaps]⟩

/-- **One operation.** Everything handed out stays accounted for, and exactly the operations that
`Drops` names drop something. -/
theorem owning_step (h : s.Owning dropped) (op : FileOp) :
    ∃ dropped', (s.step op).Owning dropped' ∧ (dropped' = 0 ↔ dropped = 0 ∧ ¬ s.Drops op) := by
  cases op with
  | new path opening => exact h.new path opening
  | moveConstruct src => exact ⟨dropped, h.moveConstruct src, by simp [Drops]⟩
  | moveAssign dst src =>
      by_cases hmoves : dst ≠ src ∧ (∃ o, s.object src = some o) ∧ ∃ old, s.object dst = some old
      · obtain ⟨hne, ⟨o, hsrc⟩, old, hdst⟩ := hmoves
        refine ⟨dropped + old.fdHeld, h.moveAssign hne hdst hsrc, ?_⟩
        have hdrops : s.Drops (.moveAssign dst src) ↔ old.fd ≠ none := by
          simp [Drops, hne, hsrc, hdst, Option.isSome_iff_ne_none]
        rw [hdrops, not_not, ← fdHeld_eq_zero_iff, add_eq_zero]
      · -- nothing is assigned: to itself, or without one of the two objects
        have hsame : s.moveAssign dst src = s := by
          unfold FileProgram.moveAssign
          by_cases hne : dst = src
          · rw [if_pos hne]
          · rw [if_neg hne]
            cases hdst : s.object dst with
            | none => rfl
            | some old =>
                cases hsrc : s.object src with
                | none => rfl
                | some o => exact absurd ⟨hne, ⟨o, hsrc⟩, old, hdst⟩ hmoves
        have hkeeps : ¬ s.Drops (.moveAssign dst src) := by
          rintro ⟨hne, ho, hany⟩
          cases hdst : s.object dst with
          | none =>
              rw [hdst] at hany
              cases hany
          | some old => exact hmoves ⟨hne, Option.isSome_iff_exists.mp ho, old, hdst⟩
        refine ⟨dropped, ?_, by simp [hkeeps]⟩
        show (s.moveAssign dst src).Owning dropped
        rw [hsame]
        exact h
  | growFile i newPageCount resizes maps =>
      exact ⟨dropped, h.onObject i fun _ _ _ ho =>
        MappedFileObject.growFile_spec newPageCount resizes maps ho, by simp [Drops]⟩
  | touchPage i =>
      exact ⟨dropped, h.onObject i fun _ _ _ ho => MappedFileObject.touchPage_spec ho,
        by simp [Drops]⟩
  | flush i syncs =>
      exact ⟨dropped, h.onObject i fun _ _ _ ho => MappedFileObject.flush_spec syncs ho,
        by simp [Drops]⟩
  | destroy i => exact ⟨dropped, h.destroy i, by simp [Drops]⟩

theorem owning_run (ops : List FileOp) (h : s.Owning dropped) :
    ∃ dropped', (run ops s).Owning dropped' ∧
      (dropped' = 0 ↔ dropped = 0 ∧ KeepsDescriptors ops s) := by
  induction ops generalizing s dropped with
  | nil => exact ⟨dropped, h, by simp [KeepsDescriptors]⟩
  | cons op ops ih =>
      obtain ⟨dropped₁, h₁, hiff₁⟩ := owning_step h op
      obtain ⟨dropped₂, h₂, hiff₂⟩ := ih h₁
      refine ⟨dropped₂, h₂, ?_⟩
      rw [hiff₂, hiff₁, KeepsDescriptors, and_assoc]

theorem owning_start : start.Owning 0 where
  disciplined := disciplined_nil
  fresh r hr := by cases hr
  held r := by
    show (if Held [] r then 1 else 0) = (0 : Nat)
    rw [if_neg fun hheld => List.not_mem_nil hheld.1]

/-- **Every descriptor is closed and every mapping unmapped exactly once**, none being used before
it was handed out or after it was given back, exactly if no operation of the program drops an open
descriptor. -/
theorem released_once_iff (ops : List FileOp)
    (hdestroyed : ∀ o ∈ (run ops start).objects, o = none) :
    let ledger := (run ops start).system.ledger
    (Disciplined ledger ∧ ∀ r, .acquire r ∈ ledger → ledger.count (.release r) = 1) ↔
      KeepsDescriptors ops start := by
  intro ledger
  obtain ⟨dropped, h, hiff⟩ := owning_run ops owning_start
  have hnone : heldBy (run ops start).objects = 0 := by
    unfold heldBy
    apply List.sum_eq_zero
    intro held hheld
    obtain ⟨o, ho, rfl⟩ := List.mem_map.mp hheld
    rw [hdestroyed o ho]
    rfl
  have hheld : ∀ r, (if Held ledger r then 1 else 0) = dropped r := by
    intro r
    have hr := h.held r
    rw [hnone, zero_add] at hr
    exact hr
  -- what is still held at the end is what was dropped
  have hzero : (∀ r, ¬ Held ledger r) ↔ dropped = 0 := by
    constructor
    · intro hnot
      funext r
      rw [← hheld r, if_neg (hnot r)]
      rfl
    · intro hzero r hr
      have hone := hheld r
      rw [if_pos hr, hzero] at hone
      cases hone
  rw [and_iff_right h.disciplined, h.disciplined.releasedOnce_iff, hzero, hiff]
  exact and_iff_right rfl

/-- A file grown, moved to a second object, moved back, assigned to itself, and both objects destroyed. -/
theorem released_once_iff_moved :
    let ops := [FileOp.new "a" (.statted 0 true), .growFile 0 2 true true, .touchPage 0,
      .moveConstruct 0, .moveAssign 0 1, .moveAssign 0 0, .destroy 0, .destroy 1]
    let ledger := (run ops start).system.ledger
    Disciplined ledger ∧ ∀ r, .acquire r ∈ ledger → ledger.count (.release r) = 1 := by
  exact (released_once_iff [FileOp.new "a" (.statted 0 true), .growFile 0 2 true true,
    .touchPage 0, .moveConstruct 0, .moveAssign 0 1, .moveAssign 0 0, .destroy 0, .destroy 1]
    (by decide +kernel)).mpr (by decide +kernel)

/-- A file assigned over another one: the first descriptor of the two is never closed. -/
theorem assigned_over_not_closed :
    let ops := [FileOp.new "a" (.statted 0 true), .new "b" (.statted 0 true), .moveAssign 0 1,
      .destroy 0, .destroy 1]
    let ledger := (run ops start).system.ledger
    (∀ o ∈ (run ops start).objects, o = none) ∧ .acquire (.descriptor 0) ∈ ledger ∧
      ledger.count (.release (.descriptor 0)) = 0 := by
  decide +kernel

end FileProgram

end Aqa
