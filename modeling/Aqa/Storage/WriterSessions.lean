/-
# Aqa.Storage.WriterSessions — from the appends of many sessions to the reads of one reader.

A data file is written by any number of writer sessions, each started on the file the previous one
left, and is then read through one engine. `sessions` keeps the result of every append;
`readerCalls` is a reader that reads records and scans in any order.

The pages of the file list the accepted appends in order under the record ids that were returned
(`storedVisits`), before and after every operation of every session, so the reader answers from the
list of accepted appends.
-/
import Aqa.Storage.DataFile

namespace Aqa

open Aqa.Lib StorageReader

/-! ## Sessions of a writer -/

/-- One call of `append`: the record and how the call ended. -/
abbrev AppendCall := Record × Except Error RecordID

/-- The appends of one session. -/
def appendCalls : List Record → StorageWriter × Bytes → List AppendCall × (StorageWriter × Bytes)
  | [], s => ([], s)
  | r :: rs, s =>
      match StorageWriter.append r.key r.value s with
      | .ok rid s => ((r, .ok rid) :: (appendCalls rs s).1, (appendCalls rs s).2)
      | .error err s => ((r, .error err) :: (appendCalls rs s).1, (appendCalls rs s).2)

/-- A session: construct on the file, append, destruct. -/
def session (rs : List Record) (file : Option Bytes) : List AppendCall × Bytes :=
  let out := appendCalls rs (StorageWriter.new file)
  (out.1, out.2.1.destroy out.2.2)

/-- Sessions one after the other. -/
def sessions : List (List Record) → Option Bytes → List AppendCall × Option Bytes
  | [], file => ([], file)
  | rs :: rss, file =>
      let out := session rs file
      let rest := sessions rss (some out.2)
      (out.1 ++ rest.1, rest.2)

/-- The appends that returned a record id. -/
def accepted (calls : List AppendCall) : List (RecordID × Record) :=
  calls.filterMap fun c =>
    match c.2 with
    | .ok rid => some (rid, c.1)
    | .error _ => none

/-! ## A reader -/

/-- A call on a reader. -/
inductive ReaderCall where
  | readRecord (rid : RecordID)
  | scan
  deriving DecidableEq, Repr

/-- How a call on a reader ends. -/
inductive ReaderReturn where
  | record (r : Option Record)
  | visits (vs : List (RecordID × Record))
  | threw (err : Error)
  deriving DecidableEq, Repr

/-- Calls on one reader, in order. -/
def readerCalls : List ReaderCall → StorageEngine → List ReaderReturn
  | [], _ => []
  | .readRecord rid :: calls, e =>
      match StorageReader.readRecord rid e with
      | .ok r e => .record r :: readerCalls calls e
      | .error err e => .threw err :: readerCalls calls e
  | .scan :: calls, e =>
      match StorageReader.scan (fun rid key value vs => vs ++ [(rid, Record.mk key value)])
          (e, []) with
      | .ok () (e, vs) => .visits vs :: readerCalls calls e
      | .error err (e, _) => .threw err :: readerCalls calls e

/-- The answer of a reader that knows nothing but the accepted appends. -/
def ReaderCall.answer (acc : List (RecordID × Record)) : ReaderCall → ReaderReturn
  | .readRecord rid => .record (acc.lookup rid)
  | .scan => .visits acc

/-! ## Stored records -/

/-- The records of a list of pages with their record ids, the first page standing at position `n`. -/
def storedVisits {α : Type} (n : Nat) (pages : List (List α)) : List (RecordID × α) :=
  (pages.mapIdx fun pid recs => pageVisits (u32 (n + pid)) recs).flatten

/-- The same with an open page behind the closed ones. -/
def pagerVisits {α : Type} (n : Nat) (p : Pager α) : List (RecordID × α) :=
  storedVisits n p.pages ++ pageVisits (u32 (n + p.pages.length)) p.cur

theorem storedVisits_concat {α : Type} (n : Nat) (pages : List (List α)) (recs : List α) :
    storedVisits n (pages ++ [recs]) =
      storedVisits n pages ++ pageVisits (u32 (n + pages.length)) recs := by
  simp [storedVisits, List.mapIdx_append]

/-- What a writer leaves behind is what it had. -/
theorem storedVisits_flushed {α : Type} (n : Nat) (p : Pager α) :
    storedVisits n (StorageWriter.flushed n p) = pagerVisits n p := by
  rw [StorageWriter.flushed, pagerVisits]
  split
  · rw [storedVisits_concat]
  · rename_i hcond
    have hcur : p.cur = [] := by
      by_contra hne
      exact hcond (Or.inl hne)
    rw [hcur]
    simp [pageVisits]

theorem mem_storedVisits {α : Type} {n : Nat} {pages : List (List α)} {v : RecordID × α}
    (h : v ∈ storedVisits n pages) :
    ∃ i recs, pages[i]? = some recs ∧ v.1.pageId = u32 (n + i) ∧ recs[v.1.slotId]? = some v.2 := by
  unfold storedVisits at h
  obtain ⟨vs, hvs, hv⟩ := List.mem_flatten.mp h
  obtain ⟨i, hi, rfl⟩ := List.mem_mapIdx.mp hvs
  obtain ⟨hpage, hrec⟩ := mem_pageVisits.mp hv
  exact ⟨i, pages[i], List.getElem?_eq_getElem hi, hpage, hrec⟩

/-- An accepted append stores the record under the id it returns, a refused one stores nothing. -/
theorem pagerVisits_append (n : Nat) (p : Pager Record) (r : Record) :
    pagerVisits n (Pager.append Record.need pageRoom p r).2 =
      pagerVisits n p ++
        if (Pager.append Record.need pageRoom p r).1 then
          [(StorageWriter.lastRid n (Pager.append Record.need pageRoom p r).2, r)] else [] := by
  rcases Pager.append_cases Record.need pageRoom p r with
    ⟨_, _, heq⟩ | ⟨_, _, heq⟩ | ⟨_, heq⟩
  · simp [heq, pagerVisits, pageVisits_concat, StorageWriter.lastRid]
  · simp [heq, pagerVisits, storedVisits_concat, StorageWriter.lastRid, pageVisits]
  · simp [heq, pagerVisits, storedVisits_concat, pageVisits]

/-! ## The writing side -/

/-- How a call of `append` has to end. -/
def AppendCall.Right (c : AppendCall) : Prop :=
  (∃ err, c.2 = .error err) ↔ 4021 < c.1.key.length + c.1.value.length

/-- The appends of a session keep writer and file in step with the pager. -/
theorem appendCalls_spec {base : List RawPage} (rs : List Record) {w : StorageWriter}
    {bytes : Bytes} {p : Pager Record} (h : WriterHolds base w bytes p) :
    (appendCalls rs (w, bytes)).1.map Prod.fst = rs ∧
      (∀ c ∈ (appendCalls rs (w, bytes)).1, AppendCall.Right c) ∧
      ∃ p', WriterHolds base (appendCalls rs (w, bytes)).2.1 (appendCalls rs (w, bytes)).2.2 p' ∧
        pagerVisits base.length p' =
          pagerVisits base.length p ++ accepted (appendCalls rs (w, bytes)).1 := by
  induction rs generalizing w bytes p with
  | nil => exact ⟨rfl, by simp [appendCalls], p, h, by simp [appendCalls, accepted]⟩
  | cons r rs ih =>
      obtain ⟨w', bytes', hholds, heq⟩ := StorageWriter.append_spec h r
      obtain ⟨hfst, hright, p', hp', hvisits⟩ := ih hholds
      have hstored := pagerVisits_append base.length p r
      have haccepts := Pager.append_accepts_iff Record.need pageRoom p r
      rw [need_le_pageRoom_iff] at haccepts
      by_cases hfits : r.key.length + r.value.length ≤ 4021
      · rw [if_pos (haccepts.mpr hfits)] at heq hstored
        simp only [appendCalls, heq]
        refine ⟨by rw [List.map_cons, hfst], ?_, p', hp', ?_⟩
        · intro c hc
          rcases List.mem_cons.mp hc with rfl | hc
          · simpa [AppendCall.Right] using hfits
          · exact hright c hc
        · rw [hvisits, hstored, List.append_assoc]
          rfl
      · rw [if_neg (fun htrue => hfits (haccepts.mp htrue))] at heq hstored
        simp only [appendCalls, heq]
        refine ⟨by rw [List.map_cons, hfst], ?_, p', hp', ?_⟩
        · intro c hc
          rcases List.mem_cons.mp hc with rfl | hc
          · simpa [AppendCall.Right] using hfits
          · exact hright c hc
        · rw [hvisits, hstored, List.append_nil]
          rfl

/-! ## Files only grow -/

theorem length_le_appendCalls (rs : List Record) (w : StorageWriter) (bytes : Bytes) :
    bytes.length ≤ (appendCalls rs (w, bytes)).2.2.length := by
  induction rs generalizing w bytes with
  | nil => exact le_refl _
  | cons r rs ih =>
      have hnext : bytes.length ≤ (w.nextPage bytes).2.length := by
        show bytes.length ≤ (bytes ++ _).length
        rw [List.length_append]
        omega
      rw [appendCalls]
      unfold StorageWriter.append
      dsimp only
      -- the record goes to the open page, to the next one, or to none
      cases w.tryInsertInPage r.key r.value with
      | some out => exact ih out.2 bytes
      | none =>
          dsimp only
          cases (w.nextPage bytes).1.tryInsertInPage r.key r.value with
          | some out => exact le_trans hnext (ih out.2 _)
          | none => exact le_trans hnext (ih _ _)

theorem length_le_destroy (w : StorageWriter) (bytes : Bytes) :
    bytes.length ≤ (w.destroy bytes).length := by
  unfold StorageWriter.destroy StorageWriter.flush
  split
  · unfold StorageWriter.writePageToDisk
    simp only [List.length_append]
    omega
  · exact le_refl _

/-! ## Sessions -/

/-- A session appends its accepted records to those stored. -/
theorem session_spec (rs : List Record) {file : Option Bytes} {pages : List (List Record)}
    (h : FileHolds [] (file.getD []) pages) :
    (session rs file).1.map Prod.fst = rs ∧ (∀ c ∈ (session rs file).1, AppendCall.Right c) ∧
      ∃ pages', FileHolds [] (session rs file).2 pages' ∧
        storedVisits 0 pages' = storedVisits 0 pages ++ accepted (session rs file).1 := by
  obtain ⟨w, hnew, hholds⟩ := StorageWriter.new_spec _ h
  obtain ⟨hfst, hright, p', hp', hvisits⟩ := appendCalls_spec rs hholds
  simp only [session, hnew]
  refine ⟨hfst, hright, _, StorageWriter.destroy_spec hp', ?_⟩
  rw [List.length_nil] at hvisits ⊢
  rw [storedVisits_flushed, hvisits, pagerVisits]
  simp [pageVisits]

theorem sessions_spec (rss : List (List Record)) {file : Option Bytes}
    {pages : List (List Record)} (h : FileHolds [] (file.getD []) pages) :
    (sessions rss file).1.map Prod.fst = rss.flatten ∧
      (∀ c ∈ (sessions rss file).1, AppendCall.Right c) ∧
      ∃ pages', FileHolds [] ((sessions rss file).2.getD []) pages' ∧
        storedVisits 0 pages' = storedVisits 0 pages ++ accepted (sessions rss file).1 := by
  induction rss generalizing file pages with
  | nil => exact ⟨rfl, by simp [sessions], pages, h, by simp [sessions, accepted]⟩
  | cons rs rss ih =>
      obtain ⟨hfst₁, hright₁, pages₁, hpages₁, hvisits₁⟩ := session_spec rs h
      obtain ⟨hfst₂, hright₂, pages₂, hpages₂, hvisits₂⟩ := ih (show FileHolds [] ((some (session rs file).2).getD []) pages₁ from hpages₁)
      simp only [sessions]
      refine ⟨by rw [List.map_append, hfst₁, hfst₂, List.flatten_cons], ?_, pages₂, hpages₂, ?_⟩
      · intro c hc
        rcases List.mem_append.mp hc with hc | hc
        · exact hright₁ c hc
        · exact hright₂ c hc
      · rw [hvisits₂, hvisits₁, accepted, accepted, accepted, List.filterMap_append,
          List.append_assoc]

/-! ## The reading side -/

/-- Below 2^20 pages a scan of the file visits what is stored. -/
theorem visits_shown {α : Type} {pages : List (List α)} (h : pages.length < 2 ^ 20) :
    visits (shown pages) pages.length = storedVisits 0 pages := by
  have hshown : ∀ n ≤ pages.length, visits (shown pages) n = storedVisits 0 (pages.take n) := by
    intro n
    induction n with
    | zero => simp [visits, storedVisits]
    | succ n ih =>
        intro hle
        have hlt : n < pages.length := hle
        rw [visits_succ, ih (by omega), List.take_succ_eq_append_getElem hlt,
          storedVisits_concat, List.length_take, Nat.min_eq_left (by omega), Nat.zero_add,
          u32_of_lt (by omega),
          shown, Nat.mod_eq_of_lt (by omega), List.getElem?_eq_getElem hlt, Option.getD_some]
  rw [hshown _ le_rfl, List.take_length]

/-- In a list without repeated ids the entry of an id is the one that is found. -/
theorem lookup_visits {α : Type} (recs : Nat → List α) (n : Nat) (rid : RecordID) :
    (visits recs n).lookup rid =
      if rid.pageId < n then (recs rid.pageId)[rid.slotId]? else none := by
  have hnodup := nodup_visits recs n
  have hlookup : ∀ (vs : List (RecordID × α)), (vs.map Prod.fst).Nodup → ∀ r,
      vs.lookup rid = some r ↔ (rid, r) ∈ vs := by
    intro vs
    induction vs with
    | nil => simp
    | cons v vs ih =>
        obtain ⟨id, s⟩ := v
        intro hnd r
        rw [List.map_cons, List.nodup_cons] at hnd
        rw [List.lookup_cons, List.mem_cons]
        by_cases hid : rid = id
        · subst hid
          have hout : (rid, r) ∉ vs := fun hmem => hnd.1 (List.mem_map.mpr ⟨_, hmem, rfl⟩)
          simp [hout, eq_comm]
        · have hbeq : (rid == id) = false := beq_false_of_ne hid
          simp only [hbeq, ih hnd.2 r, Prod.mk.injEq, hid, false_and, false_or]
  apply Option.ext
  intro r
  rw [hlookup _ hnodup, mem_visits]
  split <;> simp [*]

/-- A reader of a file answers from what is stored, call after call. -/
theorem readerCalls_spec (calls : List ReaderCall) {e : StorageEngine} (h : e.Idle)
    {pages : List (List Record)} (hfile : FileHolds [] e.file.bytes pages)
    (hcount : e.getTotalPages = pages.length) (hsize : pages.length < 2 ^ 20) :
    readerCalls calls e = calls.map (ReaderCall.answer (storedVisits 0 pages)) := by
  have hpage : ∀ p < pages.length, Slotted.PageHolds (e.view p) (shown pages p) := by
    intro p hp
    exact hfile.loadPage (by rw [Nat.mod_eq_of_lt (by omega)]; exact hp)
  rw [← visits_shown hsize]
  induction calls generalizing e with
  | nil => rfl
  | cons call calls ih =>
      rw [List.map_cons]
      cases call with
      | readRecord rid =>
          rw [ReaderCall.answer, lookup_visits]
          by_cases hp : rid.pageId < pages.length
          · obtain ⟨e', hidle, hsame, hread⟩ := readRecord_of_holds h (by rw [hcount]; exact hp)
              (Or.inr fun _ => rfl) (hpage _ hp)
            simp only [readerCalls, hread]
            rw [if_pos hp, ih hidle (by rw [hsame]; exact hfile)
              (by rw [StorageEngine.getTotalPages, hsame]; exact hcount)
              (fun p hp => by rw [StorageEngine.view, hsame]; exact hpage p hp)]
          · have hread : StorageReader.readRecord rid e = .ok none e := by
              simp only [StorageReader.readRecord]
              rw [if_pos (by rw [hcount]; omega)]
            simp only [readerCalls, hread]
            rw [if_neg hp, ih h hfile hcount hpage]
      | scan =>
          obtain ⟨e', hidle, hsame, hscan⟩ := scan_spec
            (fun rid key value vs => vs ++ [(rid, Record.mk key value)]) h _
            (by rw [hcount]; exact hpage) []
          rw [hcount, runCallback_collect, List.nil_append] at hscan
          simp only [readerCalls, hscan, ReaderCall.answer]
          rw [ih hidle (by rw [hsame]; exact hfile)
            (by rw [StorageEngine.getTotalPages, hsame]; exact hcount)
            (fun p hp => by rw [StorageEngine.view, hsame]; exact hpage p hp)]

/-! ## The round trip -/

/-- **Round trip over whole files.** Over any sessions that together write fewer than 2^20 pages, an
append throws exactly when key and value have more than 4021 bytes; the record ids returned are
distinct; and a reader of the final file, whatever calls it gets, answers each from the list of
accepted appends: a record id with the record that was appended under it, a scan with all of them in
the order of the appends. -/
theorem writer_sessions_round_trip (rss : List (List Record)) (capacity : Nat) (observed : Bool)
    (hcap : 1 ≤ capacity)
    (hsize : ((sessions rss none).2.getD []).length < 2 ^ 20 * PAGE_SIZE) :
    (sessions rss none).1.map Prod.fst = rss.flatten ∧
      (∀ c ∈ (sessions rss none).1,
        (∃ err, c.2 = .error err) ↔ 4021 < c.1.key.length + c.1.value.length) ∧
      ((accepted (sessions rss none).1).map Prod.fst).Nodup ∧
      ∀ calls : List ReaderCall,
        readerCalls calls (StorageEngine.new (sessions rss none).2 capacity observed) =
          calls.map (ReaderCall.answer (accepted (sessions rss none).1)) := by
  obtain ⟨hfst, hright, pages, hpages, hvisits⟩ := sessions_spec rss
    (show FileHolds [] ((none : Option Bytes).getD []) [] from FileHolds.nil [])
  have hstored : storedVisits 0 pages = accepted (sessions rss none).1 := by
    rw [hvisits]
    rfl
  have hlt : pages.length < 2 ^ 20 := by
    rw [hpages.length_eq, List.length_nil, Nat.zero_add] at hsize
    exact lt_of_mul_lt_mul_right hsize (Nat.zero_le _)
  refine ⟨hfst, hright, ?_, ?_⟩
  · rw [← hstored, ← visits_shown hlt]
    exact nodup_visits _ _
  · intro calls
    rw [← hstored]
    apply readerCalls_spec calls (StorageEngine.idle_new _ observed hcap) hpages _ hlt
    simp only [StorageEngine.getTotalPages, StorageEngine.file, StorageEngine.new, PageCache.new,
      MappedFile.new, hpages.length_div, List.length_nil, Nat.zero_add, u32_of_lt (show pages.length < 2 ^ 32 by omega)]

/-- Two sessions, the first with an append that throws, and a reader with one frame. -/
theorem writer_sessions_round_trip_two_sessions :
    readerCalls [.scan, .readRecord ⟨1, 0⟩] (StorageEngine.new
        (sessions [[⟨[1], [2]⟩, ⟨[1], List.replicate 4021 0⟩], [⟨[1], [3]⟩]] none).2 1 false) =
      [.visits [(⟨0, 0⟩, ⟨[1], [2]⟩), (⟨1, 0⟩, ⟨[1], [3]⟩)], .record (some ⟨[1], [3]⟩)] := by
  rw [(writer_sessions_round_trip [[⟨[1], [2]⟩, ⟨[1], List.replicate 4021 0⟩], [⟨[1], [3]⟩]] 1
    false (by decide) (by decide +kernel)).2.2.2]
  decide +kernel

end Aqa
