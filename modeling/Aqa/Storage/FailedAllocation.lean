/-
# Aqa.Storage.FailedAllocation — what a failed allocation leaves behind.

`allocate_page` unmaps the file, resizes it, maps it again and then fetches the new page. Resize and
map may fail, and so may the fetch. `MappedEngine` is the engine with the state of its mapping, and
its calls take the outcomes of the system calls. On an unmapped file, and outside the mapping, `get_page`
returns a pointer that must not be read.

`failed_allocation_iff` says, for every state that calls can lead to and all outcomes, when a failed
allocation leaves page count, file and pages as they were.
-/
import Aqa.Storage.Handles

namespace Aqa

open Aqa.Lib

/-- Outcomes of `ftruncate` and `mmap` in `grow_file`. -/
structure GrowOutcome where
  resized : Bool
  remapped : Bool
  deriving DecidableEq, Repr

/-- `StorageEngine` with the path of its file and whether `data_` is set. -/
structure MappedEngine where
  path : String
  cache : PageCache
  mapped : Bool

namespace MappedEngine

/-- `StorageEngine::StorageEngine`, with system calls that succeed. An empty file is not mapped. -/
def new (path : String) (file : Option Bytes) (cacheCapacity : Nat) (observed : Bool) :
    MappedEngine where
  path := path
  cache := PageCache.new (MappedFile.new file) cacheCapacity observed none
  mapped := decide (0 < (file.getD []).length)

/-- `get_total_pages`. -/
def total (s : MappedEngine) : Nat := s.cache.file.pageCount

/-- The page `get_page` points to lies in the mapping. -/
def inMapping (s : MappedEngine) (pageId : Nat) : Bool :=
  s.mapped && decide (MappedFile.pageAddr pageId + PAGE_SIZE ≤ s.cache.file.fileSize)

/-- A miss reads the page and writes back its victim, the front of the candidates. -/
def missInMapping (s : MappedEngine) (pageId : Nat) : Bool :=
  s.inMapping pageId &&
    match s.cache.freeFrames, s.cache.unpinnedLru with
    | [], victim :: _ => s.inMapping victim
    | _, _ => true

/-- `PageCache::fetch_page` on the mapping. -/
def fetchFrame (pageId : Nat) : EStateM Error MappedEngine PageHandle := fun s =>
  match PageCache.fetchPage pageId s.cache with
  | .error err c => .error err { s with cache := c }
  | .ok h c =>
      if (s.cache.pageMap.lookup pageId).isSome || s.missInMapping pageId then
        .ok h { s with cache := c }
      else .error (.undefinedBehaviour "get_page outside the mapping") s

/-- `StorageEngine::fetch_page`. -/
def fetchPage (pageId : Nat) : EStateM Error MappedEngine PageHandle := fun s =>
  if pageId ≥ s.total then
    .error (.runtimeError ("Page ID out of bounds: " ++ toString pageId)) s
  else fetchFrame pageId s

/-- `MappedFile::grow_file`. The file is unmapped before the resize, and sizes are set before it is
mapped again. A file of size 0 is not mapped. -/
def growFile (o : GrowOutcome) (newPageCount : Nat) : EStateM Error MappedEngine Unit := fun s =>
  if newPageCount ≤ s.total then .ok () s
  else
    let s := { s with mapped := false }
    if o.resized = false then .error (.runtimeError ("Failed to resize file: " ++ s.path)) s
    else
      let s := { s with cache := { s.cache with file := s.cache.file.growFile newPageCount } }
      if s.cache.file.fileSize = 0 then .ok () s
      else if o.remapped = false then
        .error (.runtimeError ("mmap failed for file: " ++ s.path)) s
      else .ok () { s with mapped := true }

/-- `StorageEngine::allocate_page`. -/
def allocatePage (o : GrowOutcome) : EStateM Error MappedEngine PageHandle := fun s =>
  let newPageId := s.total
  match growFile o (u32 (newPageId + 1)) s with
  | .error err s => .error err s
  | .ok () s =>
      match fetchFrame newPageId s with
      | .error err s => .error err s
      | .ok h s => .ok h { s with cache := StorageEngine.initHeader s.cache h }

/-- The destructor of a handle. -/
def releasePage (s : MappedEngine) (pageId : Nat) : MappedEngine :=
  { s with cache := s.cache.unpinPage pageId }

/-- The release of several handles. -/
def releaseAll (s : MappedEngine) (pageIds : List Nat) : MappedEngine := pageIds.foldl releasePage s

/-- `StorageEngine::flush_all`. Only a null pointer is left out of the write-back. -/
def flushAll : EStateM Error MappedEngine Unit := fun s =>
  if s.cache.pageMap.entries.all fun entry => s.inMapping entry.1 then
    .ok () { s with cache := s.cache.flushAll }
  else if !s.mapped && s.cache.pageMap.entries.all fun entry => MappedFile.pageAddr entry.1 == 0 then
    .ok () s
  else .error (.undefinedBehaviour "get_page outside the mapping") s

/-! ## Runs -/

/-- A call on the engine, or a write through a handle. -/
inductive Call where
  | fetch (pageId : Nat)
  | release (pageId : Nat)
  | write (h : PageHandle) (off : Nat) (bytes : Bytes)
  | flushAll
  | allocate (o : GrowOutcome)

/-- The state in which a call leaves a program that catches exceptions; none behind a step without a
meaning. -/
def survived {α : Type} : EStateM.Result Error MappedEngine α → Option MappedEngine
  | .ok _ s => some s
  | .error (.runtimeError _) s => some s
  | .error (.undefinedBehaviour _) _ => none

/-- The state behind a call. -/
def call (s : MappedEngine) : Call → Option MappedEngine
  | .fetch p => survived (fetchPage p s)
  | .release p => some (s.releasePage p)
  | .write h off bytes => some { s with cache := s.cache.writeFrame h off bytes }
  | .flushAll => survived (flushAll s)
  | .allocate o => survived (allocatePage o s)

/-- The state behind some calls. -/
def calls : List Call → MappedEngine → Option MappedEngine
  | [], s => some s
  | a :: as, s => (s.call a).bind (calls as)

/-! ## What a failed allocation has to keep -/

/-- The page is resident. -/
def Resident (s : MappedEngine) (p : Nat) : Prop := (s.cache.pageMap.lookup p).isSome

/-- A frame can be had for the page: it has one, or not every frame is pinned. -/
def HasFrame (s : MappedEngine) (p : Nat) : Prop := s.Resident p ∨ ¬s.cache.Full

/-- A fetch of the page returns and shows these bytes. -/
def Shows (s : MappedEngine) (p : Nat) (page : RawPage) : Prop :=
  ∃ h s', fetchPage p s = .ok h s' ∧ s'.cache.pageOf h = page

/-- After the release of some handles the page can be fetched with these bytes. -/
def Fetchable (s : MappedEngine) (p : Nat) (page : RawPage) : Prop :=
  ∃ released, (s.releaseAll released).Shows p page

/-- Whenever a frame can be had the page can be fetched with these bytes. -/
def StillFetchable (s : MappedEngine) (p : Nat) (page : RawPage) : Prop :=
  ∀ released, (s.releaseAll released).HasFrame p → (s.releaseAll released).Shows p page

/-- An allocation that throws leaves page count, file length, file contents and pages as they were. -/
def AllocationKeeps (s : MappedEngine) (o : GrowOutcome) : Prop :=
  ∀ what s', allocatePage o s = .error (.runtimeError what) s' →
    s'.total = s.total ∧ s'.cache.file.bytes.length = s.cache.file.bytes.length ∧
      s'.cache.file.bytes = s.cache.file.bytes ∧
      ∀ p page, s.Fetchable p page → s'.StillFetchable p page

/-! ## The cache of a reachable state -/

/-- The pool is in order, its pages are pages of the file, and there is no policy. The page behind
the last page number is fetched by an allocation whose `new_page_id + 1` wraps. -/
structure Sound (c : PageCache) : Prop extends c.Pool none where
  in_range : ∀ p f, c.pageMap.lookup p = some f → p < c.file.pageCount ∨ p + 1 = 2 ^ 32
  count_lt : c.file.pageCount < 2 ^ 32
  policy : c.evictionPolicy = none

namespace Sound

variable {c : PageCache}

theorem member (h : Sound c) : c.PolicyMember := by
  intro policy hpolicy
  rw [h.policy] at hpolicy
  exact absurd hpolicy (by simp)

theorem new (file : Option Bytes) (capacity : Nat) (observed : Bool) :
    Sound (PageCache.new (MappedFile.new file) capacity observed none) where
  toPool := PageCache.pool_new _ capacity observed none
  in_range := by simp [PageCache.new]
  count_lt := u32_lt _
  policy := rfl

/-- What the file holds plays no part, nor its size as long as it does not shrink. -/
theorem setFile (h : Sound c) {file : MappedFile} (hle : c.file.pageCount ≤ file.pageCount)
    (hlt : file.pageCount < 2 ^ 32) : Sound { c with file := file } where
  toPool := { h.toPool with pins_length := h.pins_length }
  in_range p f hp := (h.in_range p f hp).imp_left fun hlt => Nat.lt_of_lt_of_le hlt hle
  count_lt := hlt
  policy := h.policy

theorem writeFrame (h : Sound c) (hd : PageHandle) (off : Nat) (bytes : Bytes) :
    Sound (c.writeFrame hd off bytes) := by
  have hlen : (c.writeFrame hd off bytes).pool.length = c.pool.length := by
    simp only [PageCache.writeFrame, List.length_set]
  exact { h with
    pins_length := by rw [hlen]; exact h.pins_length
    frame_lt := by rw [hlen]; exact h.frame_lt
    free_lt := by rw [hlen]; exact h.free_lt
    hole_apart := by simp
    cover := by rw [hlen]; exact h.cover }

theorem unpin (h : Sound c) (p : Nat) :
    Sound (c.unpinPage p) ∧ ∃ counts, c.unpinPage p = { c with pinCounts := counts } := by
  obtain ⟨hpool, ⟨counts, heq⟩, -⟩ := PageCache.unpinPage_pool h.toPool p
  refine ⟨⟨hpool, ?_, ?_, ?_⟩, counts, heq⟩
  · rw [heq]
    exact h.in_range
  · rw [heq]
    exact h.count_lt
  · rw [heq]
    exact h.policy

/-- A flush of all pages writes into the file. -/
theorem flushAll (h : Sound c) : Sound c.flushAll := by
  have hcount : c.flushAll.file.pageCount = c.file.pageCount :=
    PageCache.flushAll_rule (fun _ c' => c'.file.pageCount = c.file.pageCount) rfl
      fun _ _ _ _ _ _ hc' => hc'
  obtain ⟨file, heq⟩ := PageCache.flushAll_file c
  have hfile : file.pageCount = c.file.pageCount := by
    rw [heq] at hcount
    exact hcount
  rw [heq]
  exact h.setFile (by rw [hfile]) (by rw [hfile]; exact h.count_lt)

/-- A fetch of a page of the file, whether it returns or throws. -/
theorem fetch (h : Sound c) {p : Nat} (hp : p < c.file.pageCount ∨ p + 1 = 2 ^ 32) :
    (∀ hd c', PageCache.fetchPage p c = .ok hd c' → Sound c' ∧ c'.file.pageCount = c.file.pageCount) ∧
      ∀ err c', PageCache.fetchPage p c = .error err c' →
        Sound c' ∧ c'.file = c.file ∧ ∃ what, err = .runtimeError what := by
  rcases PageCache.fetchPage_cases h.toPool h.member p with
    ⟨f, c₁, hlook, heq, hhit⟩ | ⟨hlook, f, c₁, heq, hpool, hlook₁, htook⟩ |
      ⟨hlook, -, -, c₁, heq, href⟩
  · rw [heq]
    refine ⟨?_, by simp⟩
    rintro hd c' hok
    simp only [EStateM.Result.ok.injEq] at hok
    obtain ⟨-, rfl⟩ := hok
    refine ⟨⟨hhit.inv, ?_, ?_, hhit.policy.trans h.policy⟩, by rw [hhit.file]⟩
    · rw [hhit.file, hhit.pageMap]
      exact h.in_range
    · rw [hhit.file]
      exact h.count_lt
  · rw [heq]
    refine ⟨?_, by simp⟩
    rintro hd c' hok
    simp only [EStateM.Result.ok.injEq] at hok
    obtain ⟨-, rfl⟩ := hok
    -- an eviction writes a page of the file and does not resize it
    have hcount : c₁.file.pageCount = c.file.pageCount := by
      rcases htook.source with ⟨hfile, -⟩ | ⟨victim, -, -, hfile, -⟩ <;> rw [hfile]
      rfl
    refine ⟨⟨PageCache.pool_installPage hpool hlook₁, ?_, ?_, htook.policy.trans h.policy⟩, hcount⟩
    · intro q g hg
      show q < c₁.file.pageCount ∨ q + 1 = 2 ^ 32
      rw [hcount]
      -- the new page, or one that was there before the frame was taken
      rcases PageCache.lookup_insert_eq_some.mp hg with ⟨rfl, -⟩ | ⟨-, hg⟩
      · exact hp
      · exact h.in_range q g (htook.sub hg)
    · show c₁.file.pageCount < 2 ^ 32
      rw [hcount]
      exact h.count_lt
  · rw [heq]
    refine ⟨by simp, ?_⟩
    rintro err c' herr
    simp only [EStateM.Result.error.injEq] at herr
    obtain ⟨rfl, rfl⟩ := herr
    refine ⟨⟨href.inv, ?_, ?_, href.policy.trans h.policy⟩, href.file, _, rfl⟩
    · rw [href.file, href.pageMap]
      exact h.in_range
    · rw [href.file]
      exact h.count_lt

end Sound

section Runs

variable {s s' : MappedEngine}

theorem sound_fetchFrame (h : Sound s.cache) {p : Nat} (hp : p < s.total ∨ p + 1 = 2 ^ 32)
    (hs' : survived (fetchFrame p s) = some s') : Sound s'.cache := by
  unfold fetchFrame at hs'
  cases hfetch : PageCache.fetchPage p s.cache with
  | ok hd c =>
      rw [hfetch] at hs'
      dsimp only at hs'
      split at hs'
      · simp only [survived, Option.some.injEq] at hs'
        rw [← hs']
        exact ((h.fetch hp).1 hd c hfetch).1
      · exact absurd hs' (by simp [survived])
  | error err c =>
      obtain ⟨hsound, -, what, rfl⟩ := (h.fetch hp).2 err c hfetch
      rw [hfetch] at hs'
      simp only [survived, Option.some.injEq] at hs'
      rw [← hs']
      exact hsound

/-- What growing the file can do. -/
theorem growFile_cases (h : Sound s.cache) (o : GrowOutcome) {n : Nat} (hn : n < 2 ^ 32) :
    (n ≤ s.total ∧ growFile o n s = .ok () s) ∨
      (s.total < n ∧ o.resized = false ∧ growFile o n s =
        .error (.runtimeError ("Failed to resize file: " ++ s.path)) { s with mapped := false }) ∨
      (s.total < n ∧ o.resized = true ∧ ∃ s₁, s₁.total = n ∧ Sound s₁.cache ∧
        s₁.cache = { s.cache with file := s₁.cache.file } ∧
          (growFile o n s = .ok () s₁ ∧ (o.remapped = true ∨ u32 (n * PAGE_SIZE) = 0) ∨
            growFile o n s = .error (.runtimeError ("mmap failed for file: " ++ s.path)) s₁ ∧
              ¬(o.remapped = true ∨ u32 (n * PAGE_SIZE) = 0))) := by
  by_cases hle : n ≤ s.total
  · exact Or.inl ⟨hle, by rw [growFile, if_pos hle]⟩
  have hlt : s.total < n := Nat.not_le.mp hle
  right
  by_cases hresized : o.resized = false
  · left
    refine ⟨hlt, hresized, ?_⟩
    unfold growFile
    rw [if_neg hle]
    dsimp only
    rw [if_pos hresized]
  right
  -- page count and size of the file are set from here on, whether or not the mapping succeeds
  have hfile : s.cache.file.growFile n =
      ⟨MappedFile.resize s.cache.file.bytes (u32 (n * PAGE_SIZE)), u32 (n * PAGE_SIZE), n⟩ :=
    if_neg hle
  have hcount : (s.cache.file.growFile n).pageCount = n := by rw [hfile]
  have hsize : (s.cache.file.growFile n).fileSize = u32 (n * PAGE_SIZE) := by rw [hfile]
  have hsound : Sound { s.cache with file := s.cache.file.growFile n } := by
    apply h.setFile
    · rw [hcount]
      exact Nat.le_of_lt hlt
    · rw [hcount]
      exact hn
  refine ⟨hlt, by simpa using hresized, ?_⟩
  unfold growFile
  rw [if_neg hle]
  dsimp only
  rw [if_neg hresized, hsize]
  -- a size that wraps to 0 is not mapped at all, and nothing is thrown
  by_cases hzero : u32 (n * PAGE_SIZE) = 0
  · rw [if_pos hzero]
    exact ⟨⟨s.path, { s.cache with file := s.cache.file.growFile n }, false⟩, hcount, hsound, rfl,
      Or.inl ⟨rfl, Or.inr hzero⟩⟩
  rw [if_neg hzero]
  by_cases hremapped : o.remapped = false
  · rw [if_pos hremapped]
    refine ⟨⟨s.path, { s.cache with file := s.cache.file.growFile n }, false⟩, hcount, hsound, rfl,
      Or.inr ⟨rfl, ?_⟩⟩
    rintro (hmap | hwrap)
    · rw [hremapped] at hmap
      exact absurd hmap (by simp)
    · exact hzero hwrap
  · rw [if_neg hremapped]
    exact ⟨⟨s.path, { s.cache with file := s.cache.file.growFile n }, true⟩, hcount, hsound, rfl,
      Or.inl ⟨rfl, Or.inl (by simpa using hremapped)⟩⟩

/-- An allocation that calls lead through keeps the cache in order. -/
theorem sound_allocatePage (h : Sound s.cache) (o : GrowOutcome)
    (hs' : survived (allocatePage o s) = some s') : Sound s'.cache := by
  -- behind the growth of the file: the fetch of the new page and its header
  have hpage : ∀ s₁ : MappedEngine, Sound s₁.cache →
      (s.total < s₁.total ∨ s.total + 1 = 2 ^ 32) →
      survived (match fetchFrame s.total s₁ with
        | .error err s => .error err s
        | .ok h s => .ok h { s with cache := StorageEngine.initHeader s.cache h }) = some s' →
      Sound s'.cache := by
    intro s₁ h₁ hp hsurvived
    have hsound : ∀ s₂, survived (fetchFrame s.total s₁) = some s₂ → Sound s₂.cache :=
      fun s₂ => sound_fetchFrame h₁ hp
    cases hfetch : fetchFrame s.total s₁ with
    | error err s₂ =>
        rw [hfetch] at hsurvived hsound
        cases err with
        | runtimeError what =>
            simp only [survived, Option.some.injEq] at hsurvived
            rw [← hsurvived]
            exact hsound s₂ rfl
        | undefinedBehaviour what => exact absurd hsurvived (by simp [survived])
    | ok hd s₂ =>
        rw [hfetch] at hsurvived hsound
        simp only [survived, Option.some.injEq] at hsurvived
        rw [← hsurvived]
        exact (((hsound s₂ rfl).writeFrame hd _ _).writeFrame hd _ _).writeFrame hd _ _
  have hcount : s.total < 2 ^ 32 := h.count_lt
  -- at the last page number `new_page_id + 1` wraps and the file does not grow
  have hwrap : u32 (s.total + 1) = s.total + 1 ∨ u32 (s.total + 1) = 0 ∧ s.total + 1 = 2 ^ 32 := by
    by_cases hlt : s.total + 1 < 2 ^ 32
    · exact Or.inl (u32_of_lt hlt)
    · have heq : s.total + 1 = 2 ^ 32 := by omega
      exact Or.inr ⟨by rw [heq]; decide +kernel, heq⟩
  unfold allocatePage at hs'
  dsimp only at hs'
  rcases growFile_cases h o (u32_lt (s.total + 1)) with
    ⟨hle, heq⟩ | ⟨-, -, heq⟩ | ⟨hlt, -, s₁, hs₁, hsound, -, ⟨heq, -⟩ | ⟨heq, -⟩⟩
  · rw [heq] at hs'
    refine hpage s h (Or.inr ?_) hs'
    omega
  · rw [heq] at hs'
    simp only [survived, Option.some.injEq] at hs'
    rw [← hs']
    exact h
  · rw [heq] at hs'
    refine hpage s₁ hsound (Or.inl ?_) hs'
    omega
  · rw [heq] at hs'
    simp only [survived, Option.some.injEq] at hs'
    rw [← hs']
    exact hsound

theorem sound_call (h : Sound s.cache) (a : Call) (hs' : s.call a = some s') : Sound s'.cache := by
  cases a with
  | fetch p =>
      simp only [call, fetchPage] at hs'
      by_cases hp : p ≥ s.total
      · rw [if_pos hp] at hs'
        simp only [survived, Option.some.injEq] at hs'
        rw [← hs']
        exact h
      · rw [if_neg hp] at hs'
        exact sound_fetchFrame h (Or.inl (Nat.not_le.mp hp)) hs'
  | release p =>
      simp only [call, Option.some.injEq] at hs'
      rw [← hs']
      exact (h.unpin p).1
  | write hd off bytes =>
      simp only [call, Option.some.injEq] at hs'
      rw [← hs']
      exact h.writeFrame hd off bytes
  | flushAll =>
      simp only [call, flushAll] at hs'
      -- all pages lie in the mapping, or all are written through a null pointer, which is left out
      split at hs'
      · simp only [survived, Option.some.injEq] at hs'
        rw [← hs']
        exact h.flushAll
      · split at hs'
        · simp only [survived, Option.some.injEq] at hs'
          rw [← hs']
          exact h
        · exact absurd hs' (by simp [survived])
  | allocate o => exact sound_allocatePage h o hs'

/-- The cache is in order in every state calls lead to. -/
theorem sound_calls (as : List Call) (h : Sound s.cache) (hs' : calls as s = some s') :
    Sound s'.cache := by
  induction as generalizing s with
  | nil =>
      simp only [calls, Option.some.injEq] at hs'
      rw [← hs']
      exact h
  | cons a as ih =>
      simp only [calls, Option.bind_eq_some_iff] at hs'
      obtain ⟨s₁, hcall, hrest⟩ := hs'
      exact ih (sound_call h a hcall) hrest

end Runs

/-! ## Calls that return -/

section Returns

variable {s s' : MappedEngine}

theorem cache_growFile {o : GrowOutcome} {n : Nat} (hgrow : growFile o n s = .ok () s') :
    s'.cache = { s.cache with file := s.cache.file.growFile n } := by
  unfold growFile at hgrow
  by_cases hle : n ≤ s.total
  · rw [if_pos hle, EStateM.Result.ok.injEq] at hgrow
    have hfile : s.cache.file.growFile n = s.cache.file := if_pos hle
    rw [hfile, ← hgrow.2]
  · rw [if_neg hle] at hgrow
    dsimp only at hgrow
    split at hgrow
    · exact absurd hgrow (by simp)
    · split at hgrow
      · rw [EStateM.Result.ok.injEq] at hgrow
        rw [← hgrow.2]
      · split at hgrow
        · exact absurd hgrow (by simp)
        · rw [EStateM.Result.ok.injEq] at hgrow
          rw [← hgrow.2]

theorem fetchFrame_pool {p : Nat} {hd : PageHandle} (hfetch : fetchFrame p s = .ok hd s') :
    PageCache.fetchPage p s.cache = .ok hd s'.cache := by
  unfold fetchFrame at hfetch
  cases heq : PageCache.fetchPage p s.cache with
  | error err c =>
      rw [heq] at hfetch
      exact absurd hfetch (by simp)
  | ok hd' c =>
      rw [heq] at hfetch
      dsimp only at hfetch
      split at hfetch
      · simp only [EStateM.Result.ok.injEq] at hfetch
        obtain ⟨rfl, rfl⟩ := hfetch
        rfl
      · exact absurd hfetch (by simp)

/-- A fetch that returns does so on the engine whose system calls succeed. -/
theorem fetchPage_engine {p : Nat} {hd : PageHandle} (hfetch : fetchPage p s = .ok hd s') :
    StorageEngine.fetchPage p ⟨s.cache⟩ = .ok hd ⟨s'.cache⟩ := by
  unfold fetchPage at hfetch
  unfold StorageEngine.fetchPage
  by_cases hp : p ≥ s.total
  · rw [if_pos hp] at hfetch
    exact absurd hfetch (by simp)
  · rw [if_neg hp] at hfetch
    have hpool := fetchFrame_pool hfetch
    have hlt : ¬p ≥ (StorageEngine.mk s.cache).getTotalPages := hp
    rw [if_neg hlt]
    simp only [hpool]

/-- So does an allocation. -/
theorem allocatePage_engine {o : GrowOutcome} {hd : PageHandle}
    (halloc : allocatePage o s = .ok hd s') :
    StorageEngine.allocatePage ⟨s.cache⟩ = .ok hd ⟨s'.cache⟩ := by
  unfold allocatePage at halloc
  dsimp only at halloc
  cases hgrow : growFile o (u32 (s.total + 1)) s with
  | error err s₁ =>
      rw [hgrow] at halloc
      exact absurd halloc (by simp)
  | ok _ s₁ =>
      rw [hgrow] at halloc
      dsimp only at halloc
      cases hfetch : fetchFrame s.total s₁ with
      | error err s₂ =>
          rw [hfetch] at halloc
          exact absurd halloc (by simp)
      | ok hd' s₂ =>
          have hpool := fetchFrame_pool hfetch
          rw [cache_growFile hgrow] at hpool
          rw [hfetch] at halloc
          simp only [EStateM.Result.ok.injEq] at halloc
          obtain ⟨rfl, rfl⟩ := halloc
          unfold StorageEngine.allocatePage
          dsimp only
          unfold StorageEngine.getTotalPages StorageEngine.file
          unfold total at hpool
          simp only [hpool]

end Returns

/-! ## What can be fetched -/

section Fetching

variable {s : MappedEngine} {p : Nat} {page : RawPage}

/-- Releases give back pins and change nothing else. -/
theorem releaseAll_spec (h : Sound s.cache) (released : List Nat) :
    Sound (s.releaseAll released).cache ∧
      ∃ counts, s.releaseAll released = { s with cache := { s.cache with pinCounts := counts } } := by
  unfold releaseAll
  induction released generalizing s with
  | nil => exact ⟨h, s.cache.pinCounts, rfl⟩
  | cons q released ih =>
      obtain ⟨hsound, counts, heq⟩ := h.unpin q
      have hfirst : s.releasePage q = { s with cache := { s.cache with pinCounts := counts } } := by
        unfold releasePage
        rw [heq]
      obtain ⟨hrest, counts', heq'⟩ := ih (s := s.releasePage q) hsound
      rw [List.foldl_cons]
      refine ⟨hrest, counts', ?_⟩
      rw [heq', hfirst]

/-- A fetch in the pool finds a frame exactly when one can be had. -/
theorem fetch_frame_cases (h : Sound s.cache) (p : Nat) :
    (s.HasFrame p ∧ ∃ hd c', PageCache.fetchPage p s.cache = .ok hd c') ∨
      (¬s.HasFrame p ∧ ∃ what c', PageCache.fetchPage p s.cache = .error (.runtimeError what) c' ∧
        PageCache.Refused s.cache c') := by
  rcases PageCache.fetchPage_cases h.toPool h.member p with
    ⟨f, c', hlook, heq, -⟩ | ⟨-, f, c₁, heq, hpool, -, htook⟩ |
      ⟨hlook, hfree, hpinned, c', heq, href⟩
  · exact Or.inl ⟨Or.inl (by rw [Resident, hlook]; rfl), _, _, heq⟩
  · exact Or.inl ⟨Or.inr (htook.not_full h.toPool hpool), _, _, heq⟩
  · refine Or.inr ⟨?_, _, c', heq, href⟩
    -- not resident and the pool full: no frame
    rintro (hres | hroom)
    · rw [Resident, hlook] at hres
      exact absurd hres (by simp)
    · exact hroom ⟨hfree, hpinned⟩

/-- On the mapping a fetch throws exactly when no frame can be had. -/
theorem fetchFrame_cases (h : Sound s.cache) (p : Nat) :
    (s.HasFrame p ∧ ∀ what s', fetchFrame p s ≠ .error (.runtimeError what) s') ∨
      (¬s.HasFrame p ∧ ∃ what c', fetchFrame p s =
          .error (.runtimeError what) { s with cache := c' } ∧ PageCache.Refused s.cache c') := by
  unfold fetchFrame
  rcases fetch_frame_cases h p with ⟨hframe, hd, c', heq⟩ | ⟨hframe, what, c', heq, href⟩
  · refine Or.inl ⟨hframe, ?_⟩
    intro what s'
    rw [heq]
    dsimp only
    split <;> simp
  · exact Or.inr ⟨hframe, what, c', by rw [heq], href⟩

/-- A page that is not resident is only fetched through the mapping. -/
theorem Shows.fetched (h : s.Shows p page) :
    p < s.total ∧ ∃ hd c', PageCache.fetchPage p s.cache = .ok hd c' ∧ c'.pageOf hd = page ∧
      (s.Resident p ∨ s.missInMapping p = true) := by
  obtain ⟨hd, s', hfetch, hpage⟩ := h
  unfold fetchPage at hfetch
  by_cases hp : p ≥ s.total
  · rw [if_pos hp] at hfetch
    exact absurd hfetch (by simp)
  rw [if_neg hp] at hfetch
  refine ⟨Nat.not_le.mp hp, ?_⟩
  unfold fetchFrame at hfetch
  cases heq : PageCache.fetchPage p s.cache with
  | error err c' =>
      rw [heq] at hfetch
      exact absurd hfetch (by simp)
  | ok hd' c' =>
      rw [heq] at hfetch
      dsimp only at hfetch
      split at hfetch
      · rename_i hmap
        simp only [EStateM.Result.ok.injEq] at hfetch
        obtain ⟨rfl, rfl⟩ := hfetch
        exact ⟨hd', c', rfl, hpage, by simpa [Resident] using hmap⟩
      · exact absurd hfetch (by simp)

theorem shows_of_fetched (hp : p < s.total) {hd : PageHandle} {c' : PageCache}
    (hfetch : PageCache.fetchPage p s.cache = .ok hd c')
    (hmap : s.Resident p ∨ s.missInMapping p = true) : s.Shows p (c'.pageOf hd) := by
  refine ⟨hd, { s with cache := c' }, ?_, rfl⟩
  unfold fetchPage fetchFrame
  rw [if_neg (Nat.not_le.mpr hp), hfetch]
  dsimp only
  rw [if_pos (by simpa [Resident] using hmap)]

/-- A resident page is shown as its frame holds it, whatever the mapping. -/
theorem shows_of_resident (h : Sound s.cache) (hp : p < s.total) {f : Nat}
    (hf : s.cache.pageMap.lookup p = some f) :
    s.Shows p page ↔ s.cache.pool.getD f RawPage.reset = page := by
  -- the fetch is a hit, which reads nothing from the file
  obtain ⟨c', heq, hhit⟩ : ∃ c', PageCache.fetchPage p s.cache = .ok ⟨p, f⟩ c' ∧
      PageCache.Hit s.cache c' p := by
    rcases PageCache.fetchPage_cases h.toPool h.member p with
      ⟨f', c', hf', heq, hhit⟩ | ⟨hnone, -⟩ | ⟨hnone, -⟩
    · rw [hf] at hf'
      cases hf'
      exact ⟨c', heq, hhit⟩
    · rw [hf] at hnone
      exact absurd hnone (by simp)
    · rw [hf] at hnone
      exact absurd hnone (by simp)
  have hpage : c'.pageOf ⟨p, f⟩ = s.cache.pool.getD f RawPage.reset := by
    rw [PageCache.pageOf, hhit.pool]
  constructor
  · intro hshows
    obtain ⟨-, hd, c'', heq', hpage', -⟩ := hshows.fetched
    rw [heq] at heq'
    cases heq'
    rw [← hpage, hpage']
  · rintro rfl
    rw [← hpage]
    exact shows_of_fetched hp heq (Or.inl (by rw [Resident, hf]; rfl))

/-- The fetch of a page shows that a frame could be had. -/
theorem Shows.hasFrame (hshows : s.Shows p page) (h : Sound s.cache) : s.HasFrame p := by
  obtain ⟨-, hd, c', heq, -⟩ := hshows.fetched
  rcases fetch_frame_cases h p with ⟨hframe, -⟩ | ⟨-, what, c'', heq', -⟩
  · exact hframe
  · rw [heq] at heq'
    exact absurd heq' (by simp)

/-- Without the mapping only resident pages are shown. -/
theorem Shows.resident_of_unmapped (hshows : s.Shows p page) (hmapped : s.mapped = false) :
    s.Resident p := by
  obtain ⟨-, -, -, -, -, hres | hmap⟩ := hshows.fetched
  · exact hres
  · unfold missInMapping inMapping at hmap
    rw [hmapped] at hmap
    exact absurd hmap (by simp)

end Fetching

/-! ## A refused fetch leaves no trace in later fetches -/

section Refusal

variable {c c' : PageCache}

theorem refused_counters (href : PageCache.Refused c c') : ∃ hits misses observed trace,
    c' = { c with hits := hits, misses := misses, observed := observed, trace := trace } := by
  obtain ⟨-, hfile, hpool, hpins, hmap, hlist, hiters, hfree, hpolicy⟩ := href
  refine ⟨c'.hits, c'.misses, c'.observed, c'.trace, ?_⟩
  cases c'
  cases c
  simp only at hfile hpool hpins hmap hlist hiters hfree hpolicy
  subst hfile hpool hpins hmap hlist hiters hfree hpolicy
  rfl

theorem refused_unpin (href : PageCache.Refused c c') (p : Nat) :
    PageCache.Refused (c.unpinPage p) (c'.unpinPage p) := by
  have hinv := (PageCache.unpinPage_pool href.inv p).1
  obtain ⟨hits, misses, observed, trace, rfl⟩ := refused_counters href
  -- what a refused fetch has changed plays no part in a release
  have hcounts : ∃ counts, c.unpinPage p = { c with pinCounts := counts } ∧
      PageCache.unpinPage { c with
        hits := hits, misses := misses, observed := observed, trace := trace } p =
        { c with pinCounts := counts, hits := hits, misses := misses, observed := observed,
                 trace := trace } := by
    rw [PageCache.unpinPage, PageCache.unpinPage]
    cases c.pageMap.lookup p with
    | none => exact ⟨c.pinCounts, rfl, rfl⟩
    | some f =>
        by_cases hpin : c.pinAt f > 0
        · exact ⟨_, if_pos hpin, if_pos hpin⟩
        · exact ⟨c.pinCounts, if_neg hpin, if_neg hpin⟩
  obtain ⟨counts, heq, heq'⟩ := hcounts
  rw [heq'] at hinv ⊢
  rw [heq]
  exact ⟨hinv, rfl, rfl, rfl, rfl, rfl, rfl, rfl, rfl⟩

/-- Without a policy the counters and the record of the observer decide nothing. -/
theorem evict_counters (hpolicy : c.evictionPolicy = none) {f : Nat} {c₁ : PageCache}
    (htake : PageCache.evict c = .ok f c₁) (hits misses : Nat) (observed : Bool)
    (trace : List CacheEvent) :
    PageCache.evict { c with
      hits := hits, misses := misses, observed := observed, trace := trace } =
      .ok f { c₁ with hits := hits, misses := misses, observed := observed, trace := trace } := by
  unfold PageCache.evict at htake ⊢
  have hun : PageCache.unpinnedLru { c with
      hits := hits, misses := misses, observed := observed, trace := trace } = c.unpinnedLru := rfl
  rw [hun]
  cases hlist : c.unpinnedLru with
  | nil =>
      rw [hlist] at htake
      exact absurd htake (by simp)
  | cons front rest =>
      rw [hlist] at htake
      simp only [PageCache.chooseVictim, hpolicy, EStateM.Result.ok.injEq] at htake ⊢
      obtain ⟨rfl, rfl⟩ := htake
      exact ⟨rfl, rfl⟩

theorem takeFrame_counters (hpolicy : c.evictionPolicy = none) {f : Nat} {c₁ : PageCache}
    (htake : PageCache.takeFrame c = .ok f c₁) (hits misses : Nat) (observed : Bool)
    (trace : List CacheEvent) :
    PageCache.takeFrame { c with
      hits := hits, misses := misses, observed := observed, trace := trace } =
      .ok f { c₁ with hits := hits, misses := misses, observed := observed, trace := trace } := by
  have hevict : PageCache.evict c = .ok f c₁ → _ :=
    fun h => evict_counters hpolicy h hits misses observed trace
  unfold PageCache.takeFrame at htake ⊢
  cases hfree : c.freeFrames with
  | cons g rest =>
      rw [hfree] at htake
      simp only [EStateM.Result.ok.injEq] at htake
      obtain ⟨rfl, rfl⟩ := htake
      rfl
  | nil =>
      rw [hfree] at htake hevict
      exact hevict htake

/-- Where one fetch returns, the other returns with the same frames. -/
theorem refused_fetch (href : PageCache.Refused c c') (hpolicy : c.evictionPolicy = none) {p : Nat}
    {hd : PageHandle} {d : PageCache} (hok : PageCache.fetchPage p c = .ok hd d) :
    ∃ d', PageCache.fetchPage p c' = .ok hd d' ∧ d'.pool = d.pool := by
  obtain ⟨hits, misses, observed, trace, rfl⟩ := refused_counters href
  -- what is counted and observed before a fetch
  have hrecord : ∀ (c : PageCache) (hit : Bool), ∃ trace,
      c.recordAccess p hit = { c with trace := trace } := by
    intro c hit
    unfold PageCache.recordAccess
    split
    · exact ⟨_, rfl⟩
    · exact ⟨c.trace, rfl⟩
  simp only [PageCache.fetchPage, PageCache.getPageInternal, bind, EStateM.bind, pure,
    EStateM.pure] at hok ⊢
  cases hlook : c.pageMap.lookup p with
  | some f =>
      rw [hlook] at hok
      dsimp only at hok ⊢
      unfold PageCache.hitPage at hok ⊢
      obtain ⟨t₁, h₁⟩ := hrecord { c with hits := c.hits + 1 } true
      obtain ⟨t₂, h₂⟩ := hrecord { c with
        hits := hits + 1, misses := misses, observed := observed, trace := trace } true
      rw [h₁] at hok
      rw [h₂]
      simp only [EStateM.Result.ok.injEq] at hok
      obtain ⟨rfl, rfl⟩ := hok
      exact ⟨_, rfl, rfl⟩
  | none =>
      rw [hlook] at hok
      dsimp only at hok ⊢
      obtain ⟨t₁, h₁⟩ := hrecord { c with misses := c.misses + 1 } false
      obtain ⟨t₂, h₂⟩ := hrecord { c with
        hits := hits, misses := misses + 1, observed := observed, trace := trace } false
      rw [h₁] at hok
      rw [h₂]
      cases htake : PageCache.takeFrame { c with misses := c.misses + 1, trace := t₁ } with
      | error err e =>
          rw [htake] at hok
          exact absurd hok (by simp)
      | ok f e =>
          -- no policy is asked, so the same frame is taken
          have htake' := takeFrame_counters (c := { c with misses := c.misses + 1, trace := t₁ })
            hpolicy htake hits (misses + 1) observed t₂
          rw [htake] at hok
          simp only [EStateM.Result.ok.injEq] at hok
          obtain ⟨rfl, rfl⟩ := hok
          dsimp only at htake'
          rw [htake']
          exact ⟨_, rfl, rfl⟩

theorem refused_symm (href : PageCache.Refused c c') (h : Sound c) : PageCache.Refused c' c where
  inv := h.toPool
  file := href.file.symm
  pool := href.pool.symm
  pinCounts := href.pinCounts.symm
  pageMap := href.pageMap.symm
  lruList := href.lruList.symm
  lruIters := href.lruIters.symm
  freeFrames := href.freeFrames.symm
  policy := href.policy.symm

variable {s : MappedEngine} {p : Nat} {page : RawPage}

theorem refused_releaseAll (href : PageCache.Refused s.cache c') (released : List Nat) :
    ∃ c₁, ({ s with cache := c' }).releaseAll released =
        { s.releaseAll released with cache := c₁ } ∧
      PageCache.Refused (s.releaseAll released).cache c₁ := by
  unfold releaseAll
  induction released generalizing s c' with
  | nil => exact ⟨c', rfl, href⟩
  | cons q released ih => exact ih (s := s.releasePage q) (refused_unpin href q)

/-- The pages that are shown, and those a frame can be had for, are the same after a refusal. -/
theorem refused_hasFrame (href : PageCache.Refused s.cache c') (hframe : s.HasFrame p) :
    HasFrame { s with cache := c' } p := by
  obtain ⟨hits, misses, observed, trace, rfl⟩ := refused_counters href
  exact hframe

theorem refused_shows (href : PageCache.Refused s.cache c')
    (hpolicy : s.cache.evictionPolicy = none) (hshows : s.Shows p page) :
    Shows { s with cache := c' } p page := by
  obtain ⟨hp, hd, d, hfetch, hpage, hmap⟩ := hshows.fetched
  obtain ⟨d', hfetch', hpool⟩ := refused_fetch href hpolicy hfetch
  have hpage' : d'.pageOf hd = page := by rw [← hpage, PageCache.pageOf, hpool, PageCache.pageOf]
  rw [← hpage']
  obtain ⟨hits, misses, observed, trace, rfl⟩ := refused_counters href
  exact shows_of_fetched (s := { s with cache := { s.cache with
    hits := hits, misses := misses, observed := observed, trace := trace } }) hp hfetch' hmap

/-- A refusal keeps what stays to be fetched. -/
theorem refused_stillFetchable (h : Sound s.cache) (href : PageCache.Refused s.cache c') :
    StillFetchable { s with cache := c' } p page ↔ s.StillFetchable p page := by
  constructor
  · intro hstill released hframe
    obtain ⟨c₁, heq, href₁⟩ := refused_releaseAll href released
    have hsound := (releaseAll_spec h released).1
    have hshows := hstill released (by rw [heq]; exact refused_hasFrame href₁ hframe)
    rw [heq] at hshows
    exact refused_shows (s := { s.releaseAll released with cache := c₁ })
      (refused_symm href₁ hsound) (href₁.policy.trans hsound.policy) hshows
  · intro hstill released hframe
    obtain ⟨c₁, heq, href₁⟩ := refused_releaseAll href released
    have hsound := (releaseAll_spec h released).1
    rw [heq] at hframe ⊢
    have hshows := hstill released (refused_hasFrame
      (s := { s.releaseAll released with cache := c₁ }) (refused_symm href₁ hsound) hframe)
    exact refused_shows href₁ hsound.policy hshows

end Refusal

/-! ## Failed allocations -/

section Failures

variable {s : MappedEngine} {o : GrowOutcome}

/-- When a failed allocation leaves the engine as it was. Resize and mapping come before the fetch,
so what has to hold depends on how far the allocation gets. -/
structure AllocationSafe (s : MappedEngine) (o : GrowOutcome) : Prop where
  /-- The last page number: nothing is resized, the page number `new_page_id + 1` wraps. -/
  wrapped : s.total + 1 = 2 ^ 32 →
    s.HasFrame s.total ∨ ∀ p page, s.Fetchable p page → s.StillFetchable p page
  /-- The file stays unmapped when the resize fails. -/
  unresized : s.total + 1 < 2 ^ 32 → o.resized = false →
    ∀ p page, s.Fetchable p page → s.Resident p
  /-- Once the file is resized nothing may fail. -/
  resized : s.total + 1 < 2 ^ 32 → o.resized = true →
    (o.remapped = true ∨ u32 ((s.total + 1) * PAGE_SIZE) = 0) ∧ ¬s.cache.Full

theorem releaseAll_unmapped (s : MappedEngine) (released : List Nat) :
    ({ s with mapped := false }).releaseAll released =
      { s.releaseAll released with mapped := false } := by
  unfold releaseAll
  induction released generalizing s with
  | nil => rfl
  | cons q released ih => exact ih (s.releasePage q)

theorem resident_releaseAll (h : Sound s.cache) (released : List Nat) (p : Nat) :
    (s.releaseAll released).Resident p ↔ s.Resident p := by
  obtain ⟨-, counts, heq⟩ := releaseAll_spec h released
  rw [heq]
  exact Iff.rfl

/-- Unmapping the file keeps the pages exactly when all that can be fetched are resident. -/
theorem unmapped_keeps_iff (h : Sound s.cache) :
    (∀ p page, s.Fetchable p page → StillFetchable { s with mapped := false } p page) ↔
      ∀ p page, s.Fetchable p page → s.Resident p := by
  constructor
  · rintro hkeeps p page ⟨released, hshows⟩
    have hsound := (releaseAll_spec h released).1
    have hstill := hkeeps p page ⟨released, hshows⟩ released
    rw [releaseAll_unmapped] at hstill
    have hunmapped := hstill (hshows.hasFrame hsound)
    exact (resident_releaseAll h released p).mp (hunmapped.resident_of_unmapped rfl)
  · intro hresident p page hfetchable released' _
    -- a resident page is shown by its frame, whatever was released
    obtain ⟨f, hf⟩ := Option.isSome_iff_exists.mp (hresident p page hfetchable)
    obtain ⟨released, hshows⟩ := hfetchable
    obtain ⟨hsound, counts, heq⟩ := releaseAll_spec h released
    obtain ⟨hsound', counts', heq'⟩ := releaseAll_spec h released'
    obtain ⟨hp, -⟩ := hshows.fetched
    rw [releaseAll_unmapped]
    rw [shows_of_resident hsound hp (f := f) (by rw [heq]; exact hf)] at hshows
    rw [shows_of_resident (s := { s.releaseAll released' with mapped := false }) hsound'
      (by rw [heq] at hp; rw [heq']; exact hp) (f := f) (by rw [heq']; exact hf)]
    rw [← hshows, heq, heq']

/-- At the last page number an allocation resizes nothing. -/
theorem wrapped_keeps_iff (h : Sound s.cache) (hwrap : s.total + 1 = 2 ^ 32) :
    s.AllocationKeeps o ↔
      s.HasFrame s.total ∨ ∀ p page, s.Fetchable p page → s.StillFetchable p page := by
  have hgrow : growFile o (u32 (s.total + 1)) s = .ok () s := by
    have hzero : u32 (s.total + 1) = 0 := by
      rw [hwrap]
      decide +kernel
    rw [hzero, growFile, if_pos (Nat.zero_le _)]
  unfold AllocationKeeps allocatePage
  dsimp only
  rw [hgrow]
  rcases fetchFrame_cases h s.total with ⟨hframe, hreturns⟩ | ⟨hframe, what, c', heq, href⟩
  · -- the fetch returns, so nothing is thrown
    refine iff_of_true ?_ (Or.inl hframe)
    intro what s' herr
    cases hfetch : fetchFrame s.total s with
    | ok hd s₁ => simp [hfetch] at herr
    | error err s₁ =>
        simp only [hfetch, EStateM.Result.error.injEq] at herr
        exact absurd (herr.1 ▸ hfetch) (hreturns what s₁)
  · simp only [heq, EStateM.Result.error.injEq, Error.runtimeError.injEq]
    constructor
    · intro hkeeps
      obtain ⟨-, -, -, hpages⟩ := hkeeps what _ ⟨rfl, rfl⟩
      exact Or.inr fun p page hfetchable =>
        (refused_stillFetchable h href).mp (hpages p page hfetchable)
    · rintro (hhas | hpages) what' s' ⟨-, rfl⟩
      · exact absurd hhas hframe
      · refine ⟨congrArg MappedFile.pageCount href.file, by rw [href.file], by rw [href.file], ?_⟩
        intro p page hfetchable
        exact (refused_stillFetchable h href).mpr (hpages p page hfetchable)

/-- An allocation whose resize fails throws, with the file unmapped. -/
theorem unresized_keeps_iff (h : Sound s.cache) (hlt : s.total + 1 < 2 ^ 32)
    (hresized : o.resized = false) :
    s.AllocationKeeps o ↔ ∀ p page, s.Fetchable p page → s.Resident p := by
  have hthrows : allocatePage o s = .error (.runtimeError ("Failed to resize file: " ++ s.path))
      { s with mapped := false } := by
    unfold allocatePage
    dsimp only
    rw [u32_of_lt hlt]
    rcases growFile_cases h o hlt with ⟨hle, -⟩ | ⟨-, -, heq⟩ | ⟨-, hok, -⟩
    · exact absurd hle (by omega)
    · rw [heq]
    · rw [hresized] at hok
      exact absurd hok (by simp)
  rw [← unmapped_keeps_iff h]
  unfold AllocationKeeps
  rw [hthrows]
  simp only [EStateM.Result.error.injEq, Error.runtimeError.injEq]
  constructor
  · intro hkeeps
    exact (hkeeps _ _ ⟨rfl, rfl⟩).2.2.2
  · rintro hpages what s' ⟨-, rfl⟩
    exact ⟨rfl, rfl, rfl, hpages⟩

/-- Once the file is resized, a failure leaves one page more. -/
theorem resized_keeps_iff (h : Sound s.cache) (hlt : s.total + 1 < 2 ^ 32)
    (hresized : o.resized = true) :
    s.AllocationKeeps o ↔
      (o.remapped = true ∨ u32 ((s.total + 1) * PAGE_SIZE) = 0) ∧ ¬s.cache.Full := by
  have hnew : ¬s.Resident s.total := by
    intro hres
    obtain ⟨f, hf⟩ := Option.isSome_iff_exists.mp hres
    rcases h.in_range _ f hf with hin | hwrap
    · exact absurd hin (Nat.lt_irrefl _)
    · omega
  unfold AllocationKeeps allocatePage
  dsimp only
  rw [u32_of_lt hlt]
  rcases growFile_cases h o hlt with
    ⟨hle, -⟩ | ⟨-, hno, -⟩ | ⟨-, -, s₁, hcount, hsound, hcache, ⟨heq, hmap⟩ | ⟨heq, hmap⟩⟩
  · exact absurd hle (by omega)
  · rw [hresized] at hno
    exact absurd hno (by simp)
  · -- the file is grown and mapped; the fetch of the new page decides
    have hsame : s₁.HasFrame s.total ↔ ¬s.cache.Full := by
      unfold HasFrame Resident
      rw [hcache]
      constructor
      · rintro (hres | hroom)
        · exact absurd hres hnew
        · exact hroom
      · exact Or.inr
    rw [heq]
    rcases fetchFrame_cases hsound s.total with
      ⟨hframe, hreturns⟩ | ⟨hframe, what, c', hfetch, href⟩
    · refine iff_of_true ?_ ⟨hmap, hsame.mp hframe⟩
      intro what s' herr
      cases hfetch : fetchFrame s.total s₁ with
      | ok hd s₂ => simp [hfetch] at herr
      | error err s₂ =>
          simp only [hfetch, EStateM.Result.error.injEq] at herr
          exact absurd (herr.1 ▸ hfetch) (hreturns what s₂)
    · simp only [hfetch, EStateM.Result.error.injEq, Error.runtimeError.injEq]
      refine iff_of_false ?_ fun hroom => hframe (hsame.mpr hroom.2)
      intro hkeeps
      obtain ⟨htotal, -⟩ := hkeeps what _ ⟨rfl, rfl⟩
      -- the refused fetch leaves the file as it is, one page longer
      have hgrown : s₁.total = s.total := by
        rw [← htotal]
        exact (congrArg MappedFile.pageCount href.file).symm
      omega
  · -- the mapping fails with the page count already set
    rw [heq]
    simp only [EStateM.Result.error.injEq, Error.runtimeError.injEq]
    refine iff_of_false ?_ fun hroom => hmap hroom.1
    intro hkeeps
    obtain ⟨htotal, -⟩ := hkeeps _ _ ⟨rfl, rfl⟩
    omega

/-- **When a failed allocation leaves the engine as it was.** In every state that calls lead to, and
for all outcomes of resize and map, an allocation that throws leaves page count, file and all pages
that can be fetched as they were exactly when one of these holds: the resize fails and all pages that
can be fetched are resident; the resize succeeds, and neither the mapping nor the fetch of the new
page fails; the page number wraps. -/
theorem failed_allocation_iff (path : String) (file : Option Bytes) (cacheCapacity : Nat)
    (observed : Bool) (ops : List Call) (s : MappedEngine)
    (hrun : calls ops (new path file cacheCapacity observed) = some s) (o : GrowOutcome) :
    s.AllocationKeeps o ↔ s.AllocationSafe o := by
  have h : Sound s.cache := sound_calls ops (Sound.new file cacheCapacity observed) hrun
  have hcount : s.total < 2 ^ 32 := h.count_lt
  by_cases hwrap : s.total + 1 = 2 ^ 32
  · rw [wrapped_keeps_iff h hwrap]
    exact ⟨fun hkeeps => ⟨fun _ => hkeeps, fun hlt => absurd hwrap (by omega),
      fun hlt => absurd hwrap (by omega)⟩, fun hsafe => hsafe.wrapped hwrap⟩
  have hlt : s.total + 1 < 2 ^ 32 := by omega
  cases hresized : o.resized with
  | false =>
      rw [unresized_keeps_iff h hlt hresized]
      refine ⟨fun hkeeps => ⟨fun heq => absurd heq hwrap, fun _ _ => hkeeps, ?_⟩,
        fun hsafe => hsafe.unresized hlt hresized⟩
      intro _ hok
      rw [hresized] at hok
      exact absurd hok (by simp)
  | true =>
      rw [resized_keeps_iff h hlt hresized]
      refine ⟨fun hkeeps => ⟨fun heq => absurd heq hwrap, ?_, fun _ _ => hkeeps⟩,
        fun hsafe => hsafe.resized hlt hresized⟩
      intro _ hok
      rw [hresized] at hok
      exact absurd hok (by simp)

/-- Two frames with the two pages of the file, one of them released: the resize fails, and both pages
can still be fetched. -/
theorem failed_allocation_iff_resident :
    ∃ s what s', calls [.allocate ⟨true, true⟩, .allocate ⟨true, true⟩, .release 1]
        (new "data.aqa" none 2 false) = some s ∧
      allocatePage ⟨false, true⟩ s = .error (.runtimeError what) s' ∧
      (s.total = 2 ∧ s.Resident 0 ∧ s.Resident 1) ∧ s.AllocationKeeps ⟨false, true⟩ := by
  have hrun : (calls [.allocate ⟨true, true⟩, .allocate ⟨true, true⟩, .release 1]
      (new "data.aqa" none 2 false)).map (fun s =>
        match allocatePage ⟨false, true⟩ s with
        | .error (.runtimeError what) _ =>
            (what, s.total, (s.cache.pageMap.lookup 0).isSome, (s.cache.pageMap.lookup 1).isSome)
        | _ => ("", 0, false, false)) = some ("Failed to resize file: data.aqa", 2, true, true) := by
    decide +kernel
  rw [Option.map_eq_some_iff] at hrun
  obtain ⟨s, hs, hthrows⟩ := hrun
  have hsound : Sound s.cache := sound_calls _ (Sound.new none 2 false) hs
  split at hthrows
  · rename_i what s' heq
    simp only [Prod.mk.injEq] at hthrows
    obtain ⟨-, htotal, hzero, hone⟩ := hthrows
    refine ⟨s, what, s', hs, heq, ⟨htotal, hzero, hone⟩, ?_⟩
    apply (failed_allocation_iff "data.aqa" none 2 false _ s hs _).mpr
    refine ⟨?_, ?_, ?_⟩
    · intro hwrap
      rw [htotal] at hwrap
      exact absurd hwrap (by decide)
    · rintro - - p page ⟨released, hshows⟩
      obtain ⟨-, counts, hreleased⟩ := releaseAll_spec hsound released
      obtain ⟨hp, -⟩ := hshows.fetched
      rw [hreleased] at hp
      have hp : p < 2 := htotal ▸ hp
      rcases Nat.lt_succ_iff_lt_or_eq.mp hp with hp | rfl
      · rw [Nat.lt_one_iff.mp hp]
        exact hzero
      · exact hone
    · intro _ hok
      exact absurd hok (by decide)
  · exact absurd hthrows (by decide)

/-- One frame with a live handle: the second allocation throws and leaves a second page. -/
theorem page_left_by_full_pool :
    ∃ s, calls [.allocate ⟨true, true⟩] (new "data.aqa" none 1 false) = some s ∧
      ¬s.AllocationKeeps ⟨true, true⟩ := by
  have hrun : (calls [.allocate ⟨true, true⟩] (new "data.aqa" none 1 false)).map (fun s =>
      match allocatePage ⟨true, true⟩ s with
      | .error (.runtimeError what) s' => (what, s.total, s'.total)
      | _ => ("", 0, 0)) = some ("Buffer Pool Full: All pages are pinned..", 1, 2) := by
    decide +kernel
  rw [Option.map_eq_some_iff] at hrun
  obtain ⟨s, hs, hthrows⟩ := hrun
  refine ⟨s, hs, ?_⟩
  intro hkeeps
  split at hthrows
  · rename_i what s' heq
    simp only [Prod.mk.injEq] at hthrows
    obtain ⟨htotal, -⟩ := hkeeps what s' heq
    omega
  · exact absurd hthrows (by decide)

end Failures

end MappedEngine

end Aqa
