/-
# Aqa.App.Main — the command line tool, one process after the other.

Each call of the tool opens an engine with the default cache on the data file, runs one command and
destroys the engine. Arguments are modelled as the numbers they are converted to, messages as what they
say. Generated pages reach the file only by eviction, so a page that `generate` reports as written is
there for the next process exactly when at least as many pages as the cache has frames were generated
behind it by one command; all others read as zero bytes (`generated_pages_on_disk`).
-/
import Aqa.App.DataGenerator
import Aqa.App.QueryRunner

namespace Aqa

open Aqa.Lib MappedFile PageCache StorageEngine

namespace App

/-- The default `cache_capacity` of `StorageEngine::StorageEngine`. -/
def cacheCapacity : Nat := 1000

/-- A command with its argument. -/
inductive Command where
  | generate (count : Nat)
  | read (pageId : Nat)
  | benchmarkSeq (count : Nat)
  | benchmarkRnd (count : Nat)
  deriving DecidableEq, Repr

/-- What a command prints. -/
inductive Output where
  | finished
  | page (magic payload : Nat)
  | errorReadingPage (what : Error)
  | databaseIsEmpty
  | fatalError (what : Error)
  deriving DecidableEq, Repr

/-- The generator with its default seed, and the page ids that `run_random_access` draws for a file of
so many pages. -/
structure Randomness where
  generator : DataGenerator
  pick : Nat → Nat → Nat

/-- The body of the outer `try` block of `main`. -/
def run (r : Randomness) : Command → EStateM Error StorageEngine Output
  | .generate count => do
      r.generator.generatePages count
      return .finished
  | .read pageId => fun e =>
      match withPage pageId id e with
      | .ok page e => .ok (.page (page.readU32 0) (page.readU32 PAGE_HEADER_SIZE)) e
      | .error err e => .ok (.errorReadingPage err) e
  | .benchmarkSeq count => do
      let totalPages := (← get).getTotalPages
      if totalPages = 0 then return .databaseIsEmpty
      QueryRunner.runSequentialScan (min count totalPages)
      return .finished
  | .benchmarkRnd count => do
      let totalPages := (← get).getTotalPages
      if totalPages = 0 then return .databaseIsEmpty
      QueryRunner.runRandomAccess (r.pick totalPages) count
      return .finished

/-- `main`: what is printed, and the data file that is left. -/
def main (r : Randomness) (file : Option Bytes) (command : Command) : Output × Bytes :=
  match run r command (StorageEngine.new file cacheCapacity false) with
  | .ok output e => (output, e.file.bytes)
  | .error err e => (.fatalError err, e.file.bytes)

/-- One process after the other, starting without a file. -/
def fileAfter (r : Randomness) (commands : List Command) : Option Bytes :=
  commands.foldl (fun file command => some (main r file command).2) none

/-! ## One process -/

/-- How many pages a command generates. -/
def Command.generates : Command → Nat
  | .generate count => count
  | _ => 0

/-- A command on a file of fewer than 2^20 pages: what it prints, and the pages of the file it leaves. -/
structure Ran (r : Randomness) (file : Option Bytes) (command : Command) : Prop where
  pages : (main r file command).2.length / PAGE_SIZE =
    max ((file.getD []).length / PAGE_SIZE) command.generates
  shows : ∀ p, pageAt (main r file command).2 p =
    if p + cacheCapacity < command.generates then r.generator.generatedPage p
      else pageAt (file.getD []) p

variable {r : Randomness} {file : Option Bytes}

/-- A new engine shows its file. -/
theorem clean_new (file : Option Bytes) :
    Program.Clean (StorageEngine.new file cacheCapacity false).cache := by
  intro p f hp
  exact absurd hp (by simp [StorageEngine.new, PageCache.new])

theorem visible_new (file : Option Bytes) :
    (StorageEngine.new file cacheCapacity false).cache.visible = pageAt (file.getD []) :=
  (funext ((Program.clean_iff_visible _).mp (clean_new file))).symm

theorem getTotalPages_new (hfile : (file.getD []).length / PAGE_SIZE < 2 ^ 20) :
    (StorageEngine.new file cacheCapacity false).getTotalPages =
      (file.getD []).length / PAGE_SIZE := u32_of_lt (by omega)

/-- A process that only looks at pages leaves them as they are. -/
theorem ran_of_visited {command : Command} {out : Output} {e : StorageEngine}
    {order us : List Nat} (hfile : (file.getD []).length / PAGE_SIZE < 2 ^ 20)
    (hrun : run r command (StorageEngine.new file cacheCapacity false) = .ok out e)
    (hvisited : QueryRunner.Visited (StorageEngine.new file cacheCapacity false).cache e.cache
      cacheCapacity order us) (hnone : command.generates = 0) : Ran r file command := by
  have hmain : (main r file command).2 = e.file.bytes := by
    unfold main
    rw [hrun]
  constructor
  · rw [hmain, hnone, Nat.max_zero, ← getTotalPages_new hfile]
    exact hvisited.idle.inStep.count.symm.trans hvisited.count
  · intro p
    rw [hmain, if_neg (by omega), ← visible_new, ← hvisited.visible]
    exact (Program.clean_iff_visible _).mp (hvisited.clean (clean_new file)) p

theorem ran_read (hfile : (file.getD []).length / PAGE_SIZE < 2 ^ 20) (pageId : Nat) :
    Ran r file (.read pageId) ∧ (main r file (.read pageId)).1 =
      if pageId < (file.getD []).length / PAGE_SIZE then
        .page ((pageAt (file.getD []) pageId).readU32 0)
          ((pageAt (file.getD []) pageId).readU32 PAGE_HEADER_SIZE)
      else .errorReadingPage (.runtimeError ("Page ID out of bounds: " ++ toString pageId)) := by
  have hidle := idle_new file cacheCapacity false hfile
  have htotal := getTotalPages_new hfile
  by_cases hp : pageId < (file.getD []).length / PAGE_SIZE
  · obtain ⟨e, heq, hused⟩ := withPage_idle hidle (by decide) (htotal ▸ hp) id
    have hrun : run r (.read pageId) (StorageEngine.new file cacheCapacity false) =
        .ok (.page ((pageAt (file.getD []) pageId).readU32 0)
          ((pageAt (file.getD []) pageId).readU32 PAGE_HEADER_SIZE)) e := by
      rw [visible_new] at heq
      simp only [run, heq, id_eq]
    obtain ⟨e', hvisit, hvisited⟩ := QueryRunner.visit_idle hidle (by decide) (htotal ▸ hp)
    have hsame : e' = e := by
      simp only [QueryRunner.visit, discard, Functor.discard, Functor.mapConst, EStateM.map,
        Function.comp, heq, EStateM.Result.ok.injEq] at hvisit
      exact hvisit.2.symm
    rw [hsame] at hvisited
    refine ⟨ran_of_visited hfile hrun hvisited rfl, ?_⟩
    unfold main
    rw [hrun, if_pos hp]
  · have hrun : run r (.read pageId) (StorageEngine.new file cacheCapacity false) =
        .ok (.errorReadingPage (.runtimeError ("Page ID out of bounds: " ++ toString pageId)))
          (StorageEngine.new file cacheCapacity false) := by
      have hthrow := withPage_outOfBounds (e := StorageEngine.new file cacheCapacity false)
        (by omega : _ ≤ pageId) id
      simp only [run, hthrow]
    have hvisited : QueryRunner.Visited (StorageEngine.new file cacheCapacity false).cache
        (StorageEngine.new file cacheCapacity false).cache cacheCapacity [] [] :=
      ⟨hidle, rfl, rfl, rfl, rfl, id⟩
    refine ⟨ran_of_visited hfile hrun hvisited rfl, ?_⟩
    unfold main
    rw [hrun, if_neg hp]

/-- Both benchmarks visit pages of the file. -/
theorem ran_visits {command : Command} (out : Output) (us : List Nat)
    (hfile : (file.getD []).length / PAGE_SIZE < 2 ^ 20)
    (hrange : ∀ p ∈ us, p < (file.getD []).length / PAGE_SIZE)
    (hrun : ∀ e, us.forM QueryRunner.visit (StorageEngine.new file cacheCapacity false) = .ok () e →
      run r command (StorageEngine.new file cacheCapacity false) = .ok out e)
    (hnone : command.generates = 0) : Ran r file command := by
  obtain ⟨e, heq, hvisited⟩ := QueryRunner.visits_idle us (idle_new file cacheCapacity false hfile)
    (by decide) fun p hp => by
      rw [getTotalPages_new hfile]
      exact hrange p hp
  exact ran_of_visited hfile (hrun e heq) hvisited hnone

theorem ran_generate (hfile : (file.getD []).length / PAGE_SIZE < 2 ^ 20) {count : Nat}
    (hcount : count < 2 ^ 20) : Ran r file (.generate count) := by
  obtain ⟨e, heq, hgenerated⟩ := r.generator.generatePages_spec
    (idle_new file cacheCapacity false hfile) (by decide)
    (by rw [getTotalPages_new hfile]; exact hfile) hcount
  rw [getTotalPages_new hfile, visible_new] at hgenerated
  have hmain : (main r file (.generate count)).2 = e.file.bytes := by
    have hrun : run r (.generate count) (StorageEngine.new file cacheCapacity false) =
        .ok .finished e := by
      show EStateM.bind (r.generator.generatePages count) (fun _ => pure Output.finished) _ = _
      simp only [EStateM.bind, heq]
      rfl
    unfold main
    rw [hrun]
  constructor
  · rw [hmain]
    exact hgenerated.idle.inStep.count.symm.trans hgenerated.pages
  · intro p
    rw [hmain]
    exact hgenerated.pageAt_file p

/-- **Every command**, with arguments in range. -/
theorem ran (hpick : ∀ total k, 0 < total → r.pick total k < total)
    (hfile : (file.getD []).length / PAGE_SIZE < 2 ^ 20) {command : Command}
    (hcount : command.generates < 2 ^ 20) : Ran r file command := by
  have htotal := getTotalPages_new hfile
  cases command with
  | generate count => exact ran_generate hfile hcount
  | read pageId => exact (ran_read hfile pageId).1
  | benchmarkSeq count =>
      by_cases hempty : (StorageEngine.new file cacheCapacity false).getTotalPages = 0
      · refine ran_visits .databaseIsEmpty [] hfile (by simp) (fun e heq => ?_) rfl
        cases heq
        simp only [run, bind, EStateM.bind, get, getThe, MonadStateOf.get, EStateM.get, hempty,
          if_true, pure, EStateM.pure]
      · refine ran_visits .finished (List.range (min count ((file.getD []).length / PAGE_SIZE))) hfile
          (fun p hp => ?_) (fun e heq => ?_) rfl
        · rw [List.mem_range] at hp
          omega
        · rw [← htotal] at heq
          simp only [run, bind, EStateM.bind, get, getThe, MonadStateOf.get, EStateM.get, hempty,
            if_false, pure, EStateM.pure, QueryRunner.runSequentialScan, heq]
  | benchmarkRnd count =>
      by_cases hempty : (StorageEngine.new file cacheCapacity false).getTotalPages = 0
      · refine ran_visits .databaseIsEmpty [] hfile (by simp) (fun e heq => ?_) rfl
        cases heq
        simp only [run, bind, EStateM.bind, get, getThe, MonadStateOf.get, EStateM.get, hempty,
          if_true, pure, EStateM.pure]
      · refine ran_visits .finished
          ((List.range count).map (r.pick ((file.getD []).length / PAGE_SIZE)))
          hfile (fun p hp => ?_) (fun e heq => ?_) rfl
        · obtain ⟨k, -, rfl⟩ := List.mem_map.mp hp
          exact hpick _ k (by omega)
        · rw [← htotal] at heq
          simp only [run, bind, EStateM.bind, get, getThe, MonadStateOf.get, EStateM.get, hempty,
            if_false, pure, EStateM.pure, QueryRunner.runRandomAccess, heq]

/-! ## Any number of processes -/

theorem pageAt_nil (p : Nat) : pageAt [] p = RawPage.zero := by
  apply RawPage.ext
  simp [pageAt, slice, RawPage.ofBytes, RawPage.zero]

/-- The pages that commands have generated, and those of them that have reached the file. -/
def pagesGenerated (commands : List Command) : Nat :=
  commands.foldl (fun pages command => max pages command.generates) 0

/-- A command generated the page and as many pages behind it as the cache has frames. -/
def WrittenBack (commands : List Command) (p : Nat) : Prop :=
  ∃ command ∈ commands, p + cacheCapacity < command.generates

instance (commands : List Command) (p : Nat) : Decidable (WrittenBack commands p) := by
  unfold WrittenBack
  infer_instance

theorem pagesGenerated_concat (commands : List Command) (command : Command) :
    pagesGenerated (commands ++ [command]) =
      max (pagesGenerated commands) command.generates := by
  unfold pagesGenerated
  rw [List.foldl_append]
  rfl

theorem pagesGenerated_lt {commands : List Command} {bound : Nat} (hpos : 0 < bound)
    (h : ∀ command ∈ commands, command.generates < bound) : pagesGenerated commands < bound := by
  induction commands using List.reverseRecOn with
  | nil => exact hpos
  | append_singleton commands command ih =>
      have hbefore := ih fun c hc => h c (List.mem_append_left _ hc)
      have hlast := h command (by simp)
      rw [pagesGenerated_concat]
      exact max_lt hbefore hlast

/-- The file behind any commands. -/
theorem pages_fileAfter (hpick : ∀ total k, 0 < total → r.pick total k < total)
    {commands : List Command} (hsmall : ∀ command ∈ commands, command.generates < 2 ^ 20) :
    ((fileAfter r commands).getD []).length / PAGE_SIZE = pagesGenerated commands ∧
      ∀ p, pageAt ((fileAfter r commands).getD []) p =
        if WrittenBack commands p then r.generator.generatedPage p else RawPage.zero := by
  induction commands using List.reverseRecOn with
  | nil =>
      refine ⟨by simp [fileAfter, pagesGenerated], fun p => ?_⟩
      rw [if_neg (by simp [WrittenBack])]
      exact pageAt_nil p
  | append_singleton commands command ih =>
      have hbefore : ∀ c ∈ commands, c.generates < 2 ^ 20 :=
        fun c hc => hsmall c (List.mem_append_left _ hc)
      obtain ⟨hpages, hshows⟩ := ih hbefore
      have hlt := pagesGenerated_lt (by decide) hbefore
      have hran := ran hpick (hpages ▸ hlt) (hsmall command (by simp))
      have hfile : (fileAfter r (commands ++ [command])).getD [] =
          (main r (fileAfter r commands) command).2 := by
        unfold fileAfter
        rw [List.foldl_append]
        rfl
      rw [hfile]
      refine ⟨by rw [hran.pages, hpages, pagesGenerated_concat], fun p => ?_⟩
      rw [hran.shows, hshows]
      by_cases hlast : p + cacheCapacity < command.generates
      · rw [if_pos hlast, if_pos ⟨command, by simp, hlast⟩]
      · have hiff : WrittenBack (commands ++ [command]) p ↔ WrittenBack commands p := by
          unfold WrittenBack
          simp only [List.mem_append, List.mem_singleton, or_and_right, exists_or, exists_eq_left,
            hlast, or_false]
        rw [if_neg hlast]
        by_cases hwritten : WrittenBack commands p
        · rw [if_pos hwritten, if_pos (hiff.mpr hwritten)]
        · rw [if_neg hwritten, if_neg (fun h => hwritten (hiff.mp h))]

/-- **What the tool finds of the pages it generated.** After any sequence of commands on a new data file,
each in a process of its own and with counts below 2^20: the file has as many pages as the largest count,
those written back are the pages generated and all others are zero, and `read` prints the magic and the
page id, zeros, or that the page is out of bounds. -/
theorem generated_pages_on_disk (r : Randomness)
    (hpick : ∀ total k, 0 < total → r.pick total k < total) (commands : List Command)
    (hsmall : ∀ command ∈ commands, command.generates < 2 ^ 20) :
    let bytes := (fileAfter r commands).getD []
    bytes.length / PAGE_SIZE = pagesGenerated commands ∧
      (∀ p, pageAt bytes p =
        if WrittenBack commands p then r.generator.generatedPage p else RawPage.zero) ∧
      ∀ p, (main r (fileAfter r commands) (.read p)).1 =
        if p < pagesGenerated commands then
          if WrittenBack commands p then .page PAGE_MAGIC p else .page 0 0
        else .errorReadingPage (.runtimeError ("Page ID out of bounds: " ++ toString p)) := by
  intro bytes
  obtain ⟨hpages, hshows⟩ := pages_fileAfter hpick hsmall
  have hlt := pagesGenerated_lt (by decide) hsmall
  refine ⟨hpages, hshows, fun p => ?_⟩
  rw [(ran_read (hpages ▸ hlt) p).2, hpages, hshows]
  by_cases hp : p < pagesGenerated commands
  · rw [if_pos hp, if_pos hp]
    by_cases hwritten : WrittenBack commands p
    · obtain ⟨hmagic, -, hfirst⟩ := r.generator.generatedPage_words (by omega : p < 2 ^ 32)
      rw [if_pos hwritten, if_pos hwritten, hmagic, hfirst]
    · rw [if_neg hwritten, if_neg hwritten]
      decide +kernel
  · rw [if_neg hp, if_neg hp]

/-- `generate 10`, then `generate 1005`: page 3 is written back, page 7 is there and empty. -/
theorem generated_pages_on_disk_evicted :
    let r : Randomness := ⟨⟨42, fun _ _ => 7⟩, fun _ _ => 0⟩
    let file := fileAfter r [.generate 10, .generate 1005]
    (main r file (.read 3)).1 = .page PAGE_MAGIC 3 ∧ (main r file (.read 7)).1 = .page 0 0 := by
  intro r file
  have hread := (generated_pages_on_disk r (fun _ _ h => h) [.generate 10, .generate 1005]
    (by decide)).2.2
  exact ⟨hread 3, hread 7⟩

end App

end Aqa
