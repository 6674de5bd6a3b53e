/-
# Aqa.Storage.Handles — page handles as objects.

A `PageHandle` owns a pin while its `cache_` pointer is set. Moving hands the pin over and clears
the pointer of the source, destruction gives the pin back; the other members of a moved-from handle
keep their values. `Program` is a page cache with the handles a program has constructed, in the
order of their construction, and `PoolOp` what a program can do with them.

In every state of every program the pins of a page are its live handles, and the pool fits together
(`Accounted`): `accounted_step` for one operation, `accounted_run` for a program.
-/
import Aqa.Lib.Schedule
import Aqa.Storage.Pool

namespace Aqa

open Aqa.Lib

/-! ## Programs over a page cache -/

/-- A handle object: whether `cache_` is set, and the page it refers to. -/
structure HandleVar where
  owns : Bool
  handle : PageHandle
  deriving DecidableEq, Repr

/-- A page cache and the handle objects of a program; a destroyed one is `none`. -/
structure Program where
  cache : PageCache
  handles : List (Option HandleVar)

/-- What a program can do: construct a handle from `fetch_page`, move-construct, move-assign,
destroy, write and read through a handle, flush. -/
inductive PoolOp where
  | fetch (pageId : Nat)
  | moveConstruct (src : Nat)
  | moveAssign (dst src : Nat)
  | destroy (i : Nat)
  | write (i off : Nat) (bytes : Bytes)
  | read (i : Nat)
  | flushPage (pageId : Nat)
  | flushAll
  deriving DecidableEq, Repr

/-- What a program sees of an operation. -/
inductive Observation where
  | nothing
  | page (bytes : Bytes)
  | threw (err : Error)
  deriving DecidableEq, Repr

namespace Program

/-- A handle object that has been constructed and not destroyed. -/
def var (s : Program) (i : Nat) : Option HandleVar := (s.handles[i]?).join

/-- A live handle: an object that owns a pin. -/
def live (s : Program) (i : Nat) : Option PageHandle :=
  match s.var i with
  | some v => if v.owns then some v.handle else none
  | none => none

/-- The unpinning half of `~PageHandle` and of the move assignment. -/
def unpinVar (c : PageCache) (v : HandleVar) : PageCache :=
  if v.owns then c.unpinPage v.handle.pageId else c

/-- `PageHandle::PageHandle(PageHandle&&)`. -/
def moveConstruct (s : Program) (src : Nat) : Program :=
  match s.var src with
  | some v => { s with handles := s.handles.set src (some { v with owns := false }) ++ [some v] }
  | none => s

/-- `PageHandle::operator=(PageHandle&&)`. -/
def moveAssign (s : Program) (dst src : Nat) : Program :=
  if dst = src then s
  else
    match s.var dst, s.var src with
    | some old, some v =>
        { cache := unpinVar s.cache old
          handles := (s.handles.set dst (some v)).set src (some { v with owns := false }) }
    | _, _ => s

/-- `PageHandle::~PageHandle`. -/
def destroy (s : Program) (i : Nat) : Program :=
  match s.var i with
  | some v => { cache := unpinVar s.cache v, handles := s.handles.set i none }
  | none => s

/-- One operation. Operations on a handle that does not exist, and accesses through one that owns
nothing, are not programs; they do nothing here. -/
def step (s : Program) : PoolOp → Program × Observation
  | .fetch p =>
      match PageCache.fetchPage p s.cache with
      | .ok h c => (⟨c, s.handles ++ [some ⟨true, h⟩]⟩, .page (c.pageOf h).bytes)
      | .error err c => ({ s with cache := c }, .threw err)
  | .moveConstruct src => (s.moveConstruct src, .nothing)
  | .moveAssign dst src => (s.moveAssign dst src, .nothing)
  | .destroy i => (s.destroy i, .nothing)
  | .write i off bytes =>
      match s.live i with
      | some h => ({ s with cache := s.cache.writeFrame h off bytes }, .nothing)
      | none => (s, .nothing)
  | .read i =>
      match s.live i with
      | some h => (s, .page (s.cache.pageOf h).bytes)
      | none => (s, .nothing)
  | .flushPage p => ({ s with cache := s.cache.flushPage p }, .nothing)
  | .flushAll => ({ s with cache := s.cache.flushAll }, .nothing)

/-- A sequence of operations, with what the program sees. -/
def run : List PoolOp → Program → Program × List Observation
  | [], s => (s, [])
  | op :: ops, s =>
      let out := s.step op
      ((run ops out.1).1, out.2 :: (run ops out.1).2)

/-- A program before its first operation. -/
def start (c : PageCache) : Program := ⟨c, []⟩

end Program

/-- The rule for a flush of all pages: what holds with all pages left to write, and goes from one page
to the next, holds behind the last one. -/
theorem PageCache.flushAll_rule {c : PageCache}
    (Keeps : List (Sigma fun _ : Nat => Nat) → PageCache → Prop) (h : Keeps c.pageMap.entries c)
    (hstep : ∀ p f rest c', c'.pageMap = c.pageMap → c.pageMap.lookup p = some f →
      Keeps (⟨p, f⟩ :: rest) c' → Keeps rest (c'.writeBack p f)) : Keeps [] c.flushAll := by
  have hfold : ∀ (entries : List (Sigma fun _ : Nat => Nat)) (c' : PageCache),
      c'.pageMap = c.pageMap → (∀ e ∈ entries, c.pageMap.lookup e.1 = some e.2) →
      Keeps entries c' → Keeps [] (entries.foldl (fun c entry => c.writeBack entry.1 entry.2) c') := by
    intro entries
    induction entries with
    | nil => exact fun _ _ _ hkeeps => hkeeps
    | cons e entries ih =>
        intro c' hmap hentries hkeeps
        exact ih (c'.writeBack e.1 e.2) hmap (fun e' he => hentries e' (List.mem_cons_of_mem _ he))
          (hstep e.1 e.2 entries c' hmap (hentries e List.mem_cons_self) hkeeps)
  exact hfold _ c rfl (fun _ he => AList.mem_lookup_iff.mpr he) h

/-- A flush of all pages changes nothing but the file. -/
theorem PageCache.flushAll_file (c : PageCache) :
    ∃ file, c.flushAll = { c with file := file } := by
  refine PageCache.flushAll_rule (fun _ c' => ∃ file, c' = { c with file := file }) ⟨c.file, rfl⟩ ?_
  rintro p f _ _ - - ⟨file, rfl⟩
  exact ⟨_, rfl⟩

namespace Program

/-! ## Live handles -/

/-- A handle object that owns a pin of a page. -/
def ownsPin (p : Nat) : Option HandleVar → Bool
  | some v => v.owns && v.handle.pageId == p
  | none => false

/-- Number of live handles on a page. -/
def liveCount (handles : List (Option HandleVar)) (p : Nat) : Nat := handles.countP (ownsPin p)

theorem liveCount_append (hs hs' : List (Option HandleVar)) (p : Nat) :
    liveCount (hs ++ hs') p = liveCount hs p + liveCount hs' p := List.countP_append

theorem var_eq_some_iff {s : Program} {i : Nat} {v : HandleVar} :
    s.var i = some v ↔ s.handles[i]? = some (some v) := by
  unfold var
  cases s.handles[i]? with
  | none => simp
  | some w => simp

theorem live_eq_some_iff {s : Program} {i : Nat} {h : PageHandle} :
    s.live i = some h ↔ ∃ v, s.var i = some v ∧ v.owns = true ∧ v.handle = h := by
  unfold live
  cases hv : s.var i with
  | none => simp
  | some v =>
      cases hown : v.owns with
      | false => simp [hown]
      | true => simp [hown]

/-- Replacing a handle object changes the counts by the old and the new one. -/
theorem liveCount_set {hs : List (Option HandleVar)} {i : Nat} {v : HandleVar}
    (hv : hs[i]? = some (some v)) (w : Option HandleVar) (p : Nat) :
    liveCount (hs.set i w) p + (if ownsPin p (some v) then 1 else 0) =
      liveCount hs p + (if ownsPin p w then 1 else 0) :=
  Schedule.countP_set_add hv w (ownsPin p)

/-! ## Accounting -/

/-- The pool fits together, the pins of a page are its live handles, and a page with a live handle
is resident in the frame it was fetched into. -/
structure Accounted (s : Program) : Prop where
  inv : s.cache.Pool none
  pins : ∀ p, s.cache.pinOf p = liveCount s.handles p
  leased : ∀ v, some v ∈ s.handles → v.owns = true →
    s.cache.pageMap.lookup v.handle.pageId = some v.handle.frame

theorem accounted_start (file : MappedFile) (capacity : Nat) (observed : Bool)
    (policy : Option PageEvictionPolicy) :
    Accounted (start (PageCache.new file capacity observed policy)) where
  inv := PageCache.pool_new file capacity observed policy
  pins p := by simp [start, PageCache.new, PageCache.pinOf, liveCount]
  leased := by simp [start]

/-- What no operation changes: the policy and the number of frames. -/
structure SameShape (c c' : PageCache) : Prop where
  policy : c'.evictionPolicy = c.evictionPolicy
  capacity : c'.pool.length = c.pool.length

namespace Accounted

variable {s : Program}

/-- A live handle is a pin of its page. -/
theorem pin_pos (h : Accounted s) {v : HandleVar} (hv : some v ∈ s.handles) (hown : v.owns = true) :
    0 < s.cache.pinOf v.handle.pageId := by
  rw [h.pins]
  exact List.countP_pos_iff.mpr ⟨_, hv, by simp [ownsPin, hown]⟩

/-- An operation that changes only what frames and file hold. -/
theorem contents (h : Accounted s) {c : PageCache} (hinv : c.Pool none)
    (hmap : c.pageMap = s.cache.pageMap) (hpins : c.pinCounts = s.cache.pinCounts) :
    Accounted { s with cache := c } where
  inv := hinv
  pins p := by
    rw [← h.pins p]
    unfold PageCache.pinOf PageCache.pinAt
    rw [hmap, hpins]
  leased v hv hown := by
    rw [hmap]
    exact h.leased v hv hown

/-- Giving back the pin of a handle object, when it owns one. -/
theorem unpinVar_spec (h : Accounted s) (v : HandleVar) :
    (unpinVar s.cache v).Pool none ∧ (unpinVar s.cache v).pageMap = s.cache.pageMap ∧
      SameShape s.cache (unpinVar s.cache v) ∧
      ∀ p, (unpinVar s.cache v).pinOf p =
        s.cache.pinOf p - (if ownsPin p (some v) then 1 else 0) := by
  unfold unpinVar
  cases hown : v.owns with
  | false => exact ⟨h.inv, rfl, ⟨rfl, rfl⟩, fun p => by simp [ownsPin, hown]⟩
  | true =>
      obtain ⟨hinv, ⟨counts, heq⟩, hpins⟩ := PageCache.unpinPage_pool h.inv v.handle.pageId
      rw [if_pos rfl]
      refine ⟨hinv, by rw [heq], ⟨by rw [heq], by rw [heq]⟩, ?_⟩
      intro p
      rw [hpins]
      by_cases hp : p = v.handle.pageId
      · subst hp
        rw [Function.update_self]
        simp [ownsPin, hown]
      · rw [Function.update_of_ne hp]
        simp [ownsPin, hown, Ne.symm hp]

/-- A new handle on the page just fetched. -/
theorem fetched (h : Accounted s) {c : PageCache} {p f : Nat} (hinv : c.Pool none)
    (hpins : c.pinOf = Function.update s.cache.pinOf p (s.cache.pinOf p + 1))
    (hres : c.pageMap.lookup p = some f)
    (hkept : ∀ q, q ≠ p → 0 < s.cache.pinOf q → c.pageMap.lookup q = s.cache.pageMap.lookup q)
    (hsame : 0 < s.cache.pinOf p → s.cache.pageMap.lookup p = some f) :
    Accounted ⟨c, s.handles ++ [some ⟨true, ⟨p, f⟩⟩]⟩ where
  inv := hinv
  pins q := by
    rw [hpins, liveCount_append, ← h.pins q]
    by_cases hq : q = p
    · subst hq
      simp [liveCount, ownsPin]
    · rw [Function.update_of_ne hq]
      simp [liveCount, ownsPin, Ne.symm hq]
  leased v hv hown := by
    rcases List.mem_append.mp hv with hv | hv
    · have hpos := h.pin_pos hv hown
      have hold := h.leased v hv hown
      by_cases hq : v.handle.pageId = p
      · rw [hq] at hpos hold ⊢
        rw [hres, ← hold, hsame hpos]
      · rw [hkept _ hq hpos]
        exact hold
    · have hv : v = ⟨true, ⟨p, f⟩⟩ := by simpa using hv
      subst hv
      exact hres

/-- A fetch, whether it returns or throws. -/
theorem fetch (h : Accounted s) (hpol : s.cache.PolicyMember) (p : Nat) :
    Accounted (s.step (.fetch p)).1 ∧ SameShape s.cache (s.step (.fetch p)).1.cache := by
  unfold step
  rcases PageCache.fetchPage_cases h.inv hpol p with
    ⟨f, c', hp, heq, hhit⟩ | ⟨hp, f, c₁, heq, hpool, hp₁, htook⟩ | ⟨hp, -, -, c', heq, href⟩
  · simp only [heq]
    refine ⟨h.fetched hhit.inv hhit.pins ?_ ?_ fun _ => hp, hhit.policy, by rw [hhit.pool]⟩
    · rw [hhit.pageMap]
      exact hp
    · intro q _ _
      rw [hhit.pageMap]
  · simp only [heq]
    refine ⟨h.fetched (PageCache.pool_installPage hpool hp₁) ?_ ?_ ?_ ?_, htook.policy, ?_⟩
    · rw [PageCache.pinOf_installPage hpool hp₁, htook.pins]
    · simp only [PageCache.installPage, AList.lookup_insert]
    · intro q hq hpos
      simp only [PageCache.installPage, AList.lookup_insert_ne hq]
      exact htook.kept hpos
    · intro hpos
      rw [PageCache.pinOf, hp] at hpos
      exact absurd hpos (by simp)
    · simp only [PageCache.installPage, List.length_set, htook.pool]
  · simp only [heq]
    exact ⟨h.contents href.inv href.pageMap href.pinCounts, href.policy, by rw [href.pool]⟩

theorem moveConstruct (h : Accounted s) (src : Nat) :
    Accounted (s.moveConstruct src) ∧ SameShape s.cache (s.moveConstruct src).cache := by
  unfold Program.moveConstruct
  cases hv : s.var src with
  | none => exact ⟨h, rfl, rfl⟩
  | some v =>
      have hget := var_eq_some_iff.mp hv
      refine ⟨⟨h.inv, ?_, ?_⟩, rfl, rfl⟩
      · intro p
        have hset := liveCount_set hget (some { v with owns := false }) p
        rw [h.pins p, liveCount_append]
        simp only [ownsPin, Bool.false_and, Bool.false_eq_true, if_false] at hset
        simp only [liveCount, List.countP_singleton, ownsPin] at hset ⊢
        omega
      · intro w hw hown
        rcases List.mem_append.mp hw with hw | hw
        · rcases List.mem_or_eq_of_mem_set hw with hw | hw
          · exact h.leased w hw hown
          · cases hw
            exact absurd hown (by simp)
        · have hw : w = v := by simpa using hw
          subst hw
          exact h.leased w (List.mem_of_getElem? hget) hown

theorem moveAssign (h : Accounted s) (dst src : Nat) :
    Accounted (s.moveAssign dst src) ∧ SameShape s.cache (s.moveAssign dst src).cache := by
  unfold Program.moveAssign
  split
  · exact ⟨h, rfl, rfl⟩
  · rename_i hne
    cases hdst : s.var dst with
    | none => exact ⟨h, rfl, rfl⟩
    | some old =>
        cases hsrc : s.var src with
        | none => exact ⟨h, rfl, rfl⟩
        | some v =>
            have hdst := var_eq_some_iff.mp hdst
            have hsrc := var_eq_some_iff.mp hsrc
            obtain ⟨hinv, hmap, hshape, hpins⟩ := h.unpinVar_spec old
            refine ⟨⟨hinv, ?_, ?_⟩, hshape⟩
            · intro p
              have hset₁ := liveCount_set hdst (some v) p
              have hsrc' : (s.handles.set dst (some v))[src]? = some (some v) := by
                rw [List.getElem?_set_ne hne]
                exact hsrc
              have hset₂ := liveCount_set hsrc' (some { v with owns := false }) p
              simp only [ownsPin, Bool.false_and, Bool.false_eq_true, if_false] at hset₁ hset₂
              rw [hpins p, h.pins p]
              simp only [ownsPin]
              omega
            · intro w hw hown
              show (unpinVar s.cache old).pageMap.lookup _ = _
              rw [hmap]
              rcases List.mem_or_eq_of_mem_set hw with hw | hw
              · rcases List.mem_or_eq_of_mem_set hw with hw | hw
                · exact h.leased w hw hown
                · cases hw
                  exact h.leased v (List.mem_of_getElem? hsrc) hown
              · cases hw
                exact absurd hown (by simp)

theorem destroy (h : Accounted s) (i : Nat) :
    Accounted (s.destroy i) ∧ SameShape s.cache (s.destroy i).cache := by
  unfold Program.destroy
  cases hv : s.var i with
  | none => exact ⟨h, rfl, rfl⟩
  | some v =>
      have hget := var_eq_some_iff.mp hv
      obtain ⟨hinv, hmap, hshape, hpins⟩ := h.unpinVar_spec v
      refine ⟨⟨hinv, ?_, ?_⟩, hshape⟩
      · intro p
        have hset := liveCount_set hget none p
        simp only [ownsPin, Bool.false_eq_true, if_false] at hset
        rw [hpins p, h.pins p]
        simp only [ownsPin]
        omega
      · intro w hw hown
        show (unpinVar s.cache v).pageMap.lookup _ = _
        rw [hmap]
        rcases List.mem_or_eq_of_mem_set hw with hw | hw
        · exact h.leased w hw hown
        · exact absurd hw (by simp)

/-- Writing through a handle changes what a frame holds. -/
theorem writeFrame (h : Accounted s) (hd : PageHandle) (off : Nat) (bytes : Bytes) :
    Accounted { s with cache := s.cache.writeFrame hd off bytes } ∧
      SameShape s.cache (s.cache.writeFrame hd off bytes) := by
  have hlen : (s.cache.writeFrame hd off bytes).pool.length = s.cache.pool.length := by
    simp only [PageCache.writeFrame, List.length_set]
  refine ⟨h.contents ?_ rfl rfl, rfl, hlen⟩
  have hinv := h.inv
  exact { hinv with
    pins_length := by rw [hlen]; exact hinv.pins_length
    frame_lt := by rw [hlen]; exact hinv.frame_lt
    free_lt := by rw [hlen]; exact hinv.free_lt
    hole_apart := by simp
    cover := by rw [hlen]; exact hinv.cover }

/-- Flushing changes what the file holds. -/
theorem setFile (h : Accounted s) (file : MappedFile) :
    Accounted { s with cache := { s.cache with file := file } } := by
  have hinv := h.inv
  exact h.contents { hinv with pins_length := hinv.pins_length } rfl rfl

end Accounted

/-- One operation keeps the accounts. -/
theorem accounted_step {s : Program} (h : Accounted s) (hpol : s.cache.PolicyMember) (op : PoolOp) :
    Accounted (s.step op).1 ∧ SameShape s.cache (s.step op).1.cache := by
  cases op with
  | fetch p => exact h.fetch hpol p
  | moveConstruct src => exact h.moveConstruct src
  | moveAssign dst src => exact h.moveAssign dst src
  | destroy i => exact h.destroy i
  | write i off bytes =>
      cases hl : s.live i with
      | none =>
          simp only [step, hl]
          exact ⟨h, rfl, rfl⟩
      | some hd =>
          simp only [step, hl]
          exact h.writeFrame hd off bytes
  | read i =>
      cases hl : s.live i with
      | none =>
          simp only [step, hl]
          exact ⟨h, rfl, rfl⟩
      | some hd =>
          simp only [step, hl]
          exact ⟨h, rfl, rfl⟩
  | flushPage p =>
      show Accounted { s with cache := s.cache.flushPage p } ∧ SameShape s.cache (s.cache.flushPage p)
      unfold PageCache.flushPage
      cases s.cache.pageMap.lookup p with
      | none => exact ⟨h, rfl, rfl⟩
      | some f => exact ⟨h.setFile _, rfl, rfl⟩
  | flushAll =>
      obtain ⟨file, heq⟩ := PageCache.flushAll_file s.cache
      show Accounted { s with cache := s.cache.flushAll } ∧ SameShape s.cache s.cache.flushAll
      rw [heq]
      exact ⟨h.setFile file, rfl, rfl⟩

/-- A policy that is a function of the calls does not change its kind. -/
theorem SameShape.policyMember {c c' : PageCache} (h : SameShape c c') (hpol : c.PolicyMember) :
    c'.PolicyMember := by
  unfold PageCache.PolicyMember
  rw [h.policy]
  exact hpol

/-- Every state of a program is accounted for. -/
theorem accounted_run (ops : List PoolOp) {s : Program} (h : Accounted s)
    (hpol : s.cache.PolicyMember) :
    Accounted (run ops s).1 ∧ SameShape s.cache (run ops s).1.cache := by
  induction ops generalizing s with
  | nil => exact ⟨h, rfl, rfl⟩
  | cons op ops ih =>
      obtain ⟨hstep, hshape⟩ := accounted_step h hpol op
      obtain ⟨hrun, hrest⟩ := ih hstep (hshape.policyMember hpol)
      exact ⟨hrun, hrest.policy.trans hshape.policy, hrest.capacity.trans hshape.capacity⟩

/-- **Pins are live handles.** In every state of every program over a page cache, whatever its
capacity and its policy, as long as the policy names a member of its list: the pin count of a
resident page's frame is the number of live handles on the page; a page with a live handle is
resident in the frame it was fetched into; resident pages have distinct frames, which partition the
pool together with the free list; the recency list holds each resident page once, reached by its
iterator, and nothing else; and a fetch that throws changes none of this. -/
theorem pins_are_live_handles (file : MappedFile) (capacity : Nat) (observed : Bool)
    (policy : Option PageEvictionPolicy)
    (hpol : ∀ choose, policy = some choose → ∀ trace l, l ≠ [] → choose trace l ∈ l)
    (ops : List PoolOp) (s : Program)
    (hs : s = (run ops (start (PageCache.new file capacity observed policy))).1) :
    (∀ p f, s.cache.pageMap.lookup p = some f → s.cache.pinAt f = liveCount s.handles p) ∧
    (∀ i h, s.live i = some h → s.cache.pageMap.lookup h.pageId = some h.frame) ∧
    ((∀ p q f, s.cache.pageMap.lookup p = some f → s.cache.pageMap.lookup q = some f → p = q) ∧
      s.cache.freeFrames.Nodup ∧
      (∀ f ∈ s.cache.freeFrames, ∀ p, s.cache.pageMap.lookup p ≠ some f) ∧
      ∀ f, f < capacity ↔ f ∈ s.cache.freeFrames ∨ ∃ p, s.cache.pageMap.lookup p = some f) ∧
    (s.cache.lruList.toList.Nodup ∧
      (∀ p, p ∈ s.cache.lruList.toList ↔ (s.cache.pageMap.lookup p).isSome) ∧
      (∀ p, (s.cache.lruIters.lookup p).isSome ↔ (s.cache.pageMap.lookup p).isSome) ∧
      ∀ p it, s.cache.lruIters.lookup p = some it → s.cache.lruList.deref? it = some p) ∧
    ∀ p err, (s.step (.fetch p)).2 = .threw err →
      (s.step (.fetch p)).1.handles = s.handles ∧
      PageCache.Refused s.cache (s.step (.fetch p)).1.cache := by
  have hmember : (PageCache.new file capacity observed policy).PolicyMember := hpol
  obtain ⟨hacc, hshape⟩ := accounted_run ops (accounted_start file capacity observed policy) hmember
  rw [← hs] at hacc hshape
  have hinv := hacc.inv
  have hcap : s.cache.pool.length = capacity := by
    rw [hshape.capacity]
    simp [start, PageCache.new]
  refine ⟨?_, ?_, ⟨hinv.frame_inj, hinv.free_nodup, hinv.free_unused, ?_⟩,
    ⟨hinv.lruList_exact.1, hinv.lruList_exact.2, fun p => (hinv.resident p).symm, ?_⟩, ?_⟩
  · intro p f hp
    rw [← hacc.pins p, PageCache.pinOf, hp]
  · intro i h hlive
    obtain ⟨v, hv, hown, rfl⟩ := live_eq_some_iff.mp hlive
    exact hacc.leased v (List.mem_of_getElem? (var_eq_some_iff.mp hv)) hown
  · intro f
    rw [← hcap]
    constructor
    · intro hf
      rcases hinv.cover f hf with hhole | hrest
      · exact absurd hhole (by simp)
      · exact hrest
    · rintro (hf | ⟨p, hp⟩)
      · exact hinv.free_lt f hf
      · exact hinv.frame_lt p f hp
  · intro p it hit
    have hmem := (hinv.iters p it).mp hit
    unfold StdList.deref?
    rw [StdList.node?_eq_some_iff.mpr ⟨hmem, rfl⟩]
    rfl
  · intro p err hthrew
    unfold step at hthrew ⊢
    rcases PageCache.fetchPage_cases hinv (hshape.policyMember hmember) p with
      ⟨f, c', -, heq, -⟩ | ⟨-, f, c₁, heq, -⟩ | ⟨-, -, -, c', heq, href⟩
    · simp only [heq] at hthrew
      exact absurd hthrew (by simp)
    · simp only [heq] at hthrew
      exact absurd hthrew (by simp)
    · simp only [heq]
      exact ⟨trivial, href⟩

/-- Two frames with the policy that names the front: two handles on page 0, one of them moved, page
1 fetched and released, page 2 in its place. -/
theorem pins_are_live_handles_moved :
    let file := MappedFile.new (some (List.replicate (3 * PAGE_SIZE) 0))
    (run [.fetch 0, .fetch 0, .moveConstruct 1, .fetch 1, .destroy 3, .fetch 2]
      (start (PageCache.new file 2 false (some fun _ l => l.headD 0)))).1.cache.pinAt 0 = 2 := by
  intro file
  have h := (pins_are_live_handles file 2 false (some fun _ l => l.headD 0)
    (by
      intro choose hchoose trace l hl
      cases hchoose
      cases l with
      | nil => exact absurd rfl hl
      | cons a l => simp)
    [.fetch 0, .fetch 0, .moveConstruct 1, .fetch 1, .destroy 3, .fetch 2] _ rfl).1 0 0
    (by decide +kernel)
  rw [h]
  decide +kernel

end Program

end Aqa
