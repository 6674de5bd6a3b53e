/-
# Aqa.Storage.ReaderSpec — what reading and scanning return.

An engine is `Ready` with a pin count per page when its cache is coherent and has a frame. Reads
leave the file and the pins as they were, so what they return is a function of the pages the file
shows (`view`): a record id gives the record of its slot, and a scan visits the records of the pages
`0 … total - 1` in page and slot order. During a scan the outer handle keeps the page resident, so
the nested reads are hits and a cache of one frame is enough.
-/
import Aqa.Storage.Coherence
import Aqa.Storage.SlottedPage

namespace Aqa

open Aqa.Lib

/-! ## The engine -/

namespace StorageEngine

/-- The page the file shows at a page id. -/
def view (e : StorageEngine) (pageId : Nat) : RawPage := e.file.loadPage pageId

/-- A coherent cache without a policy, with at least one frame and the given pins. -/
structure Ready (e : StorageEngine) (pins : Nat → Nat) : Prop where
  coherent : e.cache.Coherent none
  policy : e.cache.evictionPolicy = none
  pins_eq : e.cache.pinOf = pins
  capacity : 0 < e.cache.pool.length

/-- Between two calls no page is pinned. -/
def Idle (e : StorageEngine) : Prop := e.Ready fun _ => 0

/-- A new engine is coherent, with or without a frame. -/
theorem coherent_new (file : Option Bytes) (capacity : Nat) (observed : Bool) :
    (StorageEngine.new file capacity observed).cache.Coherent none := by
  apply PageCache.coherent_new
  have hle : u32 ((file.getD []).length / PAGE_SIZE) ≤ (file.getD []).length / PAGE_SIZE :=
    u32_le _
  calc u32 ((file.getD []).length / PAGE_SIZE) * PAGE_SIZE
      ≤ (file.getD []).length / PAGE_SIZE * PAGE_SIZE := Nat.mul_le_mul_right _ hle
    _ ≤ (file.getD []).length := Nat.div_mul_le_self _ _

theorem pinOf_new (file : Option Bytes) (capacity : Nat) (observed : Bool) :
    (StorageEngine.new file capacity observed).cache.pinOf = fun _ => 0 := by
  funext p
  simp [StorageEngine.new, PageCache.new, PageCache.pinOf]

theorem idle_new (file : Option Bytes) {capacity : Nat} (observed : Bool) (h : 0 < capacity) :
    (StorageEngine.new file capacity observed).Idle where
  coherent := coherent_new file capacity observed
  policy := rfl
  pins_eq := pinOf_new file capacity observed
  capacity := by simpa [StorageEngine.new, PageCache.new] using h

theorem Ready.congr {e : StorageEngine} {pins pins' : Nat → Nat} (h : e.Ready pins)
    (heq : ∀ q, pins q = pins' q) : e.Ready pins' := funext heq ▸ h

/-- A frame can be had for a page that is pinned already, and for any page when none is. -/
theorem Ready.room {e : StorageEngine} {pins : Nat → Nat} (h : e.Ready pins) {p : Nat}
    (hpin : 0 < pins p ∨ ∀ q, pins q = 0) :
    (e.cache.pageMap.lookup p).isSome ∨ e.cache.freeFrames ≠ [] ∨
      ∃ q, (e.cache.pageMap.lookup q).isSome ∧ e.cache.pinOf q = 0 := by
  rcases hpin with hpos | hzero
  · left
    rw [← h.pins_eq, PageCache.pinOf] at hpos
    cases hlook : e.cache.pageMap.lookup p with
    | none => simp [hlook] at hpos
    | some f => rfl
  · right
    rcases h.coherent.cover 0 h.capacity with hnone | hfree | ⟨q, hq⟩
    · exact absurd hnone (by simp)
    · exact Or.inl (List.ne_nil_of_mem hfree)
    · refine Or.inr ⟨q, by simp [hq], ?_⟩
      rw [h.pins_eq]
      exact hzero q

/-- What a successful fetch of page `p` does to an engine. -/
structure Fetched (e e' : StorageEngine) (pins : Nat → Nat) (p : Nat) (h : PageHandle) : Prop where
  ready : e'.Ready (Function.update pins p (pins p + 1))
  file : e'.file = e.file
  capacity : e'.cache.pool.length = e.cache.pool.length
  shows : e'.pageOf h = e.view p
  pageId : h.pageId = p
  resident : e'.cache.pageMap.lookup p = some h.frame
  kept : ∀ q g, 0 < pins q → e.cache.pageMap.lookup q = some g →
    e'.cache.pageMap.lookup q = some g

theorem Ready.policyMember {e : StorageEngine} {pins : Nat → Nat} (h : e.Ready pins) :
    e.cache.PolicyMember := by
  intro policy heq
  rw [h.policy] at heq
  exact absurd heq (by simp)

/-- **What a fetch can do**: show the page, pinned once more; or throw, exactly when the pool is full
and the page not resident, and change nothing. -/
theorem fetchPage_outcome {e : StorageEngine} {pins : Nat → Nat} (h : e.Ready pins) {p : Nat}
    (hp : p < e.getTotalPages) :
    (¬ (e.cache.pageMap.lookup p = none ∧ e.cache.Full) ∧
      ∃ hd e', fetchPage p e = .ok hd e' ∧ Fetched e e' pins p hd) ∨
    (e.cache.pageMap.lookup p = none ∧ e.cache.Full ∧ ∃ e' : StorageEngine,
      fetchPage p e = .error (.runtimeError "Buffer Pool Full: All pages are pinned..") e' ∧
        e'.Ready pins ∧ e'.file = e.file ∧ e'.cache.pageMap = e.cache.pageMap ∧
        e'.cache.pool = e.cache.pool) := by
  rcases PageCache.fetchPage_outcome h.coherent h.policyMember hp with
    ⟨hroom, hd, c', heq, hf, hkept⟩ | ⟨hnone, hfull, c', heq, href⟩
  · left
    refine ⟨hroom, hd, ⟨c'⟩, ?_, ⟨⟨hf.coherent, by rw [hf.policy, h.policy], ?_, ?_⟩, hf.file,
      hf.capacity, hf.shows, hf.pageId, hf.resident, ?_⟩⟩
    · simp only [fetchPage, heq]
      rw [if_neg (by omega)]
    · rw [hf.pins, h.pins_eq]
    · rw [hf.capacity]
      exact h.capacity
    · rw [← h.pins_eq]
      exact hkept
  · right
    refine ⟨hnone, hfull, ⟨c'⟩, ?_, ⟨href.coherent h.coherent, by rw [href.policy, h.policy], ?_, ?_⟩,
      href.file, href.pageMap, href.pool⟩
    · simp only [fetchPage, heq]
      rw [if_neg (by omega)]
    · rw [← h.pins_eq]
      unfold PageCache.pinOf PageCache.pinAt
      rw [href.pageMap, href.pinCounts]
    · rw [href.pool]
      exact h.capacity

theorem fetchPage_spec {e : StorageEngine} {pins : Nat → Nat} (h : e.Ready pins) {p : Nat}
    (hp : p < e.getTotalPages) (hpin : 0 < pins p ∨ ∀ q, pins q = 0) :
    ∃ hd e', fetchPage p e = .ok hd e' ∧ e'.Ready (Function.update pins p (pins p + 1)) ∧
      e'.file = e.file ∧ e'.pageOf hd = e.view p ∧ hd.pageId = p := by
  rcases fetchPage_outcome h hp with ⟨-, hd, e', heq, hf⟩ | ⟨hnone, hfull, -⟩
  · exact ⟨hd, e', heq, hf.ready, hf.file, hf.shows, hf.pageId⟩
  · rcases h.room hpin with hres | hne | ⟨q, hq, hzero⟩
    · rw [hnone] at hres
      exact absurd hres (by simp)
    · exact absurd hfull.1 hne
    · exact absurd hzero (hfull.2 q hq)

theorem releasePage_spec {e : StorageEngine} {pins : Nat → Nat} (h : e.Ready pins)
    (hd : PageHandle) :
    (e.releasePage hd).Ready (Function.update pins hd.pageId (pins hd.pageId - 1)) ∧
      (e.releasePage hd).file = e.file := by
  obtain ⟨hcoh, hfile, hpool, _, hpol, hpins⟩ := PageCache.unpinPage_spec h.coherent hd.pageId
  refine ⟨⟨hcoh, ?_, ?_, ?_⟩, hfile⟩
  · rw [releasePage, hpol, h.policy]
  · rw [releasePage, hpins, h.pins_eq]
  · rw [releasePage, hpool]
    exact h.capacity

theorem releasePage_cache {e : StorageEngine} {pins : Nat → Nat} (h : e.Ready pins)
    (hd : PageHandle) :
    (e.releasePage hd).cache.pageMap = e.cache.pageMap ∧
      (e.releasePage hd).cache.pool = e.cache.pool := by
  obtain ⟨-, -, hpool, hmap, -⟩ := PageCache.unpinPage_spec h.coherent hd.pageId
  exact ⟨hmap, hpool⟩

/-- Fetching a page and releasing it again restores the pins. -/
theorem update_pin_cancel (pins : Nat → Nat) (p : Nat) :
    Function.update (Function.update pins p (pins p + 1)) p
      (Function.update pins p (pins p + 1) p - 1) = pins := by
  rw [Function.update_self, Nat.add_sub_cancel, Function.update_idem, Function.update_eq_self]

end StorageEngine

/-! ## The reader -/

namespace StorageReader

open StorageEngine

/-- The visits of a scan on the records of one page. -/
def pageVisits {α : Type} (pid : Nat) (recs : List α) : List (RecordID × α) :=
  recs.mapIdx fun sid r => (⟨pid, sid⟩, r)

/-- The visits of a scan on `n` pages. -/
def visits {α : Type} (recs : Nat → List α) (n : Nat) : List (RecordID × α) :=
  (List.range n).flatMap fun pid => pageVisits pid (recs pid)

/-- What a callback makes of a list of visits. -/
def runCallback {σ : Type} (callback : Callback σ) (vs : List (RecordID × Record)) (s : σ) : σ :=
  vs.foldl (fun s v => callback v.1 v.2.key v.2.value s) s

theorem runCallback_append {σ : Type} (callback : Callback σ) (vs ws : List (RecordID × Record))
    (s : σ) :
    runCallback callback (vs ++ ws) s = runCallback callback ws (runCallback callback vs s) :=
  List.foldl_append

/-- The collecting callback collects. -/
theorem runCallback_collect (vs acc : List (RecordID × Record)) :
    runCallback (fun rid key value vs => vs ++ [(rid, Record.mk key value)]) vs acc =
      acc ++ vs := by
  induction vs generalizing acc with
  | nil => simp [runCallback]
  | cons v vs ih =>
      have hstep := ih (acc ++ [v])
      rw [List.append_assoc, List.singleton_append] at hstep
      exact hstep

/-- `read_record` is `parseRecord` on the page the file shows. -/
theorem readRecord_spec {e : StorageEngine} {pins : Nat → Nat} (h : e.Ready pins) (rid : RecordID)
    (hp : rid.pageId < e.getTotalPages) (hpin : 0 < pins rid.pageId ∨ ∀ q, pins q = 0) :
    ∃ e' : StorageEngine, e'.Ready pins ∧ e'.file = e.file ∧
      readRecord rid e =
        match parseRecord (e.view rid.pageId) rid.slotId with
        | .absent => .ok none e'
        | .found record => .ok (some record) e'
        | .outside => .error (.undefinedBehaviour "read outside the page") e' := by
  obtain ⟨hd, e₁, hfetch, hready₁, hfile₁, hpage, hid⟩ := StorageEngine.fetchPage_spec h hp hpin
  obtain ⟨hready₂, hfile₂⟩ := releasePage_spec hready₁ hd
  rw [hid, update_pin_cancel] at hready₂
  refine ⟨e₁.releasePage hd, hready₂, by rw [hfile₂, hfile₁], ?_⟩
  have hrange : ¬rid.pageId ≥ e.getTotalPages := by omega
  cases hparse : parseRecord (e.view rid.pageId) rid.slotId <;>
    simp only [readRecord, hfetch, hpage, hparse, if_neg hrange]

/-- On a page that holds `recs`, `read_record` returns the record of the slot. -/
theorem readRecord_of_holds {e : StorageEngine} {pins : Nat → Nat} (h : e.Ready pins)
    {rid : RecordID} {recs : List Record} (hp : rid.pageId < e.getTotalPages)
    (hpin : 0 < pins rid.pageId ∨ ∀ q, pins q = 0)
    (hholds : Slotted.PageHolds (e.view rid.pageId) recs) :
    ∃ e' : StorageEngine, e'.Ready pins ∧ e'.file = e.file ∧
      readRecord rid e = .ok recs[rid.slotId]? e' := by
  obtain ⟨e', hready, hfile, heq⟩ := readRecord_spec h rid hp hpin
  refine ⟨e', hready, hfile, ?_⟩
  rw [heq, Slotted.parseRecord_of_holds hholds]
  cases recs[rid.slotId]? <;> rfl

/-! ## Scanning -/

/-- What the inner loop of a scan finds in `n` slots of a page from slot `sid` on; `none` when a slot
leads outside the page. -/
def slotVisits (pid : Nat) (page : RawPage) : Nat → Nat → Option (List (RecordID × Record))
  | 0, _ => some []
  | n + 1, sid =>
      match parseRecord page sid with
      | .outside => none
      | .absent => slotVisits pid page n (sid + 1)
      | .found r => (slotVisits pid page n (sid + 1)).map fun vs => (⟨pid, sid⟩, r) :: vs

/-- What a scan finds on `n` pages from page `pid` on. -/
def pagesVisits (view : Nat → RawPage) : Nat → Nat → Option (List (RecordID × Record))
  | 0, _ => some []
  | n + 1, pid =>
      match slotVisits pid (view pid) (slotCount (view pid)) 0 with
      | none => none
      | some vs => (pagesVisits view n (pid + 1)).map fun ws => vs ++ ws

/-- How a loop of a scan ends: with the callback run on what was found, or in a read outside a
page. -/
def ScanEnds {σ : Type} (callback : Callback σ) (e : StorageEngine) (pins : Nat → Nat) (s : σ)
    (found : Option (List (RecordID × Record)))
    (result : EStateM.Result Error (StorageEngine × σ) Unit) : Prop :=
  ∃ e' : StorageEngine, e'.Ready pins ∧ e'.file = e.file ∧
    match found with
    | some vs => result = .ok () (e', runCallback callback vs s)
    | none => ∃ s', result = .error (.undefinedBehaviour "read outside the page") (e', s')

/-- The inner loop visits what it finds in the slots, in order. -/
theorem scanSlots_spec {σ : Type} (callback : Callback σ) {pins : Nat → Nat} {pid : Nat}
    (hpin : 0 < pins pid) (n : Nat) :
    ∀ (e : StorageEngine) (sid : Nat) (s : σ), e.Ready pins → pid < e.getTotalPages →
      ScanEnds callback e pins s (slotVisits pid (e.view pid) n sid)
        (scanSlots callback pid n sid (e, s)) := by
  induction n with
  | zero => exact fun e sid s h _ => ⟨e, h, rfl, rfl⟩
  | succ n ih =>
      intro e sid s h hp
      obtain ⟨e₁, hready₁, hfile₁, hread⟩ :=
        readRecord_spec h ⟨pid, sid⟩ hp (Or.inl hpin)
      have hview : e₁.view pid = e.view pid := by rw [view, view, hfile₁]
      have htotal : pid < e₁.getTotalPages := by rw [getTotalPages, hfile₁]; exact hp
      cases hparse : parseRecord (e.view pid) sid with
      | outside =>
          simp only [hparse] at hread
          refine ⟨e₁, hready₁, hfile₁, ?_⟩
          simp only [slotVisits, hparse, scanSlots, hread]
          exact ⟨s, rfl⟩
      | absent =>
          simp only [hparse] at hread
          obtain ⟨e₂, hready₂, hfile₂, hrest⟩ := ih e₁ (sid + 1) s hready₁ htotal
          rw [hview] at hrest
          refine ⟨e₂, hready₂, by rw [hfile₂, hfile₁], ?_⟩
          simp only [slotVisits, hparse, scanSlots, hread]
          exact hrest
      | found r =>
          simp only [hparse] at hread
          obtain ⟨e₂, hready₂, hfile₂, hrest⟩ :=
            ih e₁ (sid + 1) (callback ⟨pid, sid⟩ r.key r.value s) hready₁ htotal
          rw [hview] at hrest
          refine ⟨e₂, hready₂, by rw [hfile₂, hfile₁], ?_⟩
          simp only [slotVisits, hparse, scanSlots, hread]
          cases hvs : slotVisits pid (e.view pid) n (sid + 1) with
          | none =>
              rw [hvs] at hrest
              exact hrest
          | some vs =>
              rw [hvs] at hrest
              exact hrest

/-- One iteration of the outer loop visits a page. -/
theorem scanPage_spec {σ : Type} (callback : Callback σ) {e : StorageEngine} (h : e.Idle)
    {pid : Nat} (hp : pid < e.getTotalPages) (s : σ) :
    ScanEnds callback e (fun _ => 0) s
      (slotVisits pid (e.view pid) (slotCount (e.view pid)) 0) (scanPage callback pid (e, s)) := by
  obtain ⟨hd, e₁, hfetch, hready₁, hfile₁, hpage, hid⟩ :=
    StorageEngine.fetchPage_spec h hp (Or.inr fun _ => rfl)
  have hview : e₁.view pid = e.view pid := by rw [view, view, hfile₁]
  obtain ⟨e₂, hready₂, hfile₂, hslots⟩ := scanSlots_spec callback
    (show 0 < Function.update (fun _ => 0) pid (0 + 1) pid by rw [Function.update_self]; omega) (slotCount (e.view pid)) e₁ 0 s hready₁
    (by rw [getTotalPages, hfile₁]; exact hp)
  rw [hview] at hslots
  obtain ⟨hready₃, hfile₃⟩ := releasePage_spec hready₂ hd
  rw [hid, update_pin_cancel] at hready₃
  refine ⟨e₂.releasePage hd, hready₃, by rw [hfile₃, hfile₂, hfile₁], ?_⟩
  cases hvs : slotVisits pid (e.view pid) (slotCount (e.view pid)) 0 with
  | none =>
      rw [hvs] at hslots
      obtain ⟨s', hslots⟩ := hslots
      simp only [scanPage, hfetch, hpage, hslots]
      exact ⟨s', rfl⟩
  | some vs =>
      rw [hvs] at hslots
      simp only at hslots
      simp only [scanPage, hfetch, hpage, hslots]

theorem scanPages_spec {σ : Type} (callback : Callback σ) (n : Nat) :
    ∀ (e : StorageEngine) (pid : Nat) (s : σ), e.Idle → pid + n ≤ e.getTotalPages →
      ScanEnds callback e (fun _ => 0) s (pagesVisits e.view n pid)
        (scanPages callback n pid (e, s)) := by
  induction n with
  | zero => exact fun e pid s h _ => ⟨e, h, rfl, rfl⟩
  | succ n ih =>
      intro e pid s h hle
      obtain ⟨e₁, hidle₁, hfile₁, hpage⟩ := scanPage_spec callback h
        (show pid < e.getTotalPages by omega) s
      have hview : e₁.view = e.view := by
        funext p
        rw [view, view, hfile₁]
      have htotal : e₁.getTotalPages = e.getTotalPages := by rw [getTotalPages, hfile₁]; rfl
      cases hvs : slotVisits pid (e.view pid) (slotCount (e.view pid)) 0 with
      | none =>
          rw [hvs] at hpage
          obtain ⟨s', hpage⟩ := hpage
          refine ⟨e₁, hidle₁, hfile₁, ?_⟩
          simp only [pagesVisits, hvs, scanPages, hpage]
          exact ⟨s', rfl⟩
      | some vs =>
          rw [hvs] at hpage
          simp only at hpage
          obtain ⟨e₂, hidle₂, hfile₂, hrest⟩ := ih e₁ (pid + 1) (runCallback callback vs s)
            hidle₁ (by omega)
          rw [hview] at hrest
          refine ⟨e₂, hidle₂, by rw [hfile₂, hfile₁], ?_⟩
          simp only [pagesVisits, hvs, scanPages, hpage]
          cases hws : pagesVisits e.view n (pid + 1) with
          | none =>
              rw [hws] at hrest
              exact hrest
          | some ws =>
              rw [hws] at hrest
              simp only [Option.map_some, runCallback_append]
              exact hrest

/-- **A scan runs its callback on what the pages hold**, in page and slot order, or ends in a read
outside a page. -/
theorem scan_found {σ : Type} (callback : Callback σ) {e : StorageEngine} (h : e.Idle) (s : σ) :
    ScanEnds callback e (fun _ => 0) s (pagesVisits e.view e.getTotalPages 0)
      (scan callback (e, s)) :=
  scanPages_spec callback e.getTotalPages e 0 s h (by omega)

theorem pagesVisits_add (view : Nat → RawPage) (n m : Nat) :
    ∀ pid, pagesVisits view (n + m) pid =
      (pagesVisits view n pid).bind fun vs =>
        (pagesVisits view m (pid + n)).map fun ws => vs ++ ws := by
  induction n with
  | zero =>
      intro pid
      rw [Nat.zero_add, Nat.add_zero]
      simp [pagesVisits]
  | succ n ih =>
      intro pid
      rw [Nat.succ_add]
      simp only [pagesVisits]
      cases slotVisits pid (view pid) (slotCount (view pid)) 0 with
      | none => rfl
      | some vs =>
          rw [ih (pid + 1), show pid + 1 + n = pid + (n + 1) by omega]
          cases pagesVisits view n (pid + 1) with
          | none => rfl
          | some us =>
              cases pagesVisits view m (pid + (n + 1)) with
              | none => rfl
              | some ws => simp

theorem pagesVisits_congr {view view' : Nat → RawPage} (n : Nat) :
    ∀ pid, (∀ p, pid ≤ p → p < pid + n → view p = view' p) →
      pagesVisits view n pid = pagesVisits view' n pid := by
  induction n with
  | zero => exact fun _ _ => rfl
  | succ n ih =>
      intro pid h
      simp only [pagesVisits]
      rw [h pid le_rfl (by omega), ih (pid + 1) fun p hlo hhi => h p (by omega) (by omega)]

theorem pageId_of_mem_slotVisits {pid : Nat} {page : RawPage} (n : Nat) :
    ∀ sid vs, slotVisits pid page n sid = some vs → ∀ v ∈ vs, v.1.pageId = pid := by
  induction n with
  | zero =>
      intro sid vs h v hv
      simp only [slotVisits, Option.some.injEq] at h
      subst h
      exact absurd hv (by simp)
  | succ n ih =>
      intro sid vs h v hv
      unfold slotVisits at h
      split at h
      · exact absurd h (by simp)
      · exact ih _ _ h v hv
      · obtain ⟨ws, hws, rfl⟩ := Option.map_eq_some_iff.mp h
        rcases List.mem_cons.mp hv with rfl | hv
        · rfl
        · exact ih _ _ hws v hv

theorem pageId_of_mem_pagesVisits {view : Nat → RawPage} (n : Nat) :
    ∀ pid vs, pagesVisits view n pid = some vs → ∀ v ∈ vs, v.1.pageId < pid + n := by
  induction n with
  | zero =>
      intro pid vs h v hv
      simp only [pagesVisits, Option.some.injEq] at h
      subst h
      exact absurd hv (by simp)
  | succ n ih =>
      intro pid vs h v hv
      unfold pagesVisits at h
      split at h
      · exact absurd h (by simp)
      · rename_i us hus
        obtain ⟨ws, hws, rfl⟩ := Option.map_eq_some_iff.mp h
        rcases List.mem_append.mp hv with hv | hv
        · have := pageId_of_mem_slotVisits _ _ _ hus v hv
          omega
        · have := ih _ _ hws v hv
          omega

/-! ## Scanning pages that hold records -/

theorem slotVisits_of_holds {pid : Nat} {page : RawPage} {recs : List Record}
    (h : Slotted.PageHolds page recs) (n : Nat) :
    ∀ sid, sid + n = recs.length →
      slotVisits pid page n sid = some ((pageVisits pid recs).drop sid) := by
  induction n with
  | zero =>
      intro sid hlen
      rw [slotVisits, List.drop_of_length_le (by simp [pageVisits]; omega)]
  | succ n ih =>
      intro sid hlen
      have hlt : sid < recs.length := by omega
      have hvisit : (pageVisits pid recs).drop sid =
          (⟨pid, sid⟩, recs[sid]) :: (pageVisits pid recs).drop (sid + 1) := by
        rw [List.drop_eq_getElem_cons (by simpa [pageVisits] using hlt)]
        simp [pageVisits]
      simp only [slotVisits, Slotted.parseRecord_of_holds h, List.getElem?_eq_getElem hlt]
      rw [ih (sid + 1) (by omega), Option.map_some, hvisit]

theorem pageVisits_found {pid : Nat} {page : RawPage} {recs : List Record}
    (h : Slotted.PageHolds page recs) :
    slotVisits pid page (slotCount page) 0 = some (pageVisits pid recs) := by
  rw [h.count, slotVisits_of_holds h recs.length 0 (Nat.zero_add _), List.drop_zero]

theorem pagesVisits_of_holds {view : Nat → RawPage} (recs : Nat → List Record) (n : Nat) :
    ∀ pid, (∀ p, pid ≤ p → p < pid + n → Slotted.PageHolds (view p) (recs p)) →
      pagesVisits view n pid =
        some ((List.range' pid n).flatMap fun p => pageVisits p (recs p)) := by
  induction n with
  | zero => exact fun pid _ => rfl
  | succ n ih =>
      intro pid h
      simp only [pagesVisits, pageVisits_found (h pid le_rfl (by omega)),
        ih (pid + 1) fun p hlo hhi => h p (by omega) (by omega), Option.map_some,
        List.range'_succ, List.flatMap_cons]

/-- **A scan visits every record of every page once**, in page and slot order. -/
theorem scan_spec {σ : Type} (callback : Callback σ) {e : StorageEngine} (h : e.Idle)
    (recs : Nat → List Record)
    (hholds : ∀ p < e.getTotalPages, Slotted.PageHolds (e.view p) (recs p)) (s : σ) :
    ∃ e' : StorageEngine, e'.Idle ∧ e'.file = e.file ∧
      scan callback (e, s) =
        .ok () (e', runCallback callback (visits recs e.getTotalPages) s) := by
  have hfound : pagesVisits e.view e.getTotalPages 0 = some (visits recs e.getTotalPages) := by
    rw [pagesVisits_of_holds _ _ _ fun p _ hp => hholds p (by omega), visits, List.range_eq_range']
  obtain ⟨e', hidle, hfile, heq⟩ := scan_found callback h s
  rw [hfound] at heq
  exact ⟨e', hidle, hfile, heq⟩

/-! ## Visits -/

section Visits

variable {α : Type}

theorem map_snd_pageVisits (pid : Nat) (recs : List α) :
    (pageVisits pid recs).map Prod.snd = recs := by
  apply List.ext_getElem <;> simp [pageVisits]

/-- The records visited are those of the pages. -/
theorem map_snd_visits (recs : Nat → List α) (n : Nat) :
    (visits recs n).map Prod.snd = (List.range n).flatMap recs := by
  rw [visits, List.map_flatMap]
  exact List.flatMap_congr fun p _ => map_snd_pageVisits p (recs p)

theorem mem_pageVisits {pid : Nat} {recs : List α} {v : RecordID × α} :
    v ∈ pageVisits pid recs ↔ v.1.pageId = pid ∧ recs[v.1.slotId]? = some v.2 := by
  obtain ⟨⟨p, sid⟩, r⟩ := v
  rw [pageVisits, List.mem_mapIdx]
  constructor
  · rintro ⟨i, hi, heq⟩
    simp only [Prod.mk.injEq, RecordID.mk.injEq] at heq
    obtain ⟨⟨rfl, rfl⟩, rfl⟩ := heq
    exact ⟨rfl, List.getElem?_eq_getElem hi⟩
  · rintro ⟨rfl, hr⟩
    obtain ⟨hi, hr⟩ := List.getElem?_eq_some_iff.mp hr
    exact ⟨sid, hi, by simp only [hr]⟩

/-- A visit carries the record found under its record id. -/
theorem mem_visits {recs : Nat → List α} {n : Nat} {v : RecordID × α} :
    v ∈ visits recs n ↔ v.1.pageId < n ∧ (recs v.1.pageId)[v.1.slotId]? = some v.2 := by
  simp only [visits, List.mem_flatMap, List.mem_range, mem_pageVisits]
  constructor
  · rintro ⟨p, hp, rfl, hr⟩
    exact ⟨hp, hr⟩
  · rintro ⟨hp, hr⟩
    exact ⟨_, hp, rfl, hr⟩

theorem nodup_visits (recs : Nat → List α) (n : Nat) :
    ((visits recs n).map Prod.fst).Nodup := by
  rw [visits, List.map_flatMap, List.nodup_flatMap]
  refine ⟨?_, ?_⟩
  · intro p _
    rw [List.nodup_iff_injective_getElem]
    intro i j hij
    exact Fin.ext (by simpa [pageVisits] using hij)
  · refine List.nodup_range.imp ?_
    intro p q hpq x hx hy
    simp only [List.mem_map] at hx hy
    obtain ⟨v, hv, rfl⟩ := hx
    obtain ⟨w, hw, heq⟩ := hy
    rw [mem_pageVisits] at hv hw
    exact hpq (by rw [← hv.1, ← hw.1, heq])

theorem pageVisits_concat (pid : Nat) (recs : List α) (r : α) :
    pageVisits pid (recs ++ [r]) = pageVisits pid recs ++ [(⟨pid, recs.length⟩, r)] := by
  rw [pageVisits, List.mapIdx_append]
  simp [pageVisits]

theorem visits_succ (recs : Nat → List α) (n : Nat) :
    visits recs (n + 1) = visits recs n ++ pageVisits n (recs n) := by
  simp [visits, List.range_succ]

end Visits

end StorageReader

end Aqa
