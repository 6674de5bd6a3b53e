/-
# Aqa.Db.StaleReads — no client reads an older value.

Behind every schedule the database stands for a session (`Inv`): the pins of its page cache are the
handles of the clients, a client inside a get knows what the index and the pages say, and these do not
change while the mutex is shared; a client inside a put is alone. What the record cache and the pages
say of a key is then its last put or nothing (`Fresh`), as long as page numbers fit 32 bits and the
mapped pages show no older record of a key that has a newer one (`ShowsNewest`). From 2^20 pages on
the pages can do that.
-/
import Aqa.Db.Clients
import Aqa.Db.OwnWrites

namespace Aqa

open Aqa.Lib

/-- The newest record of each key on the pages that the mapped page ids lead to is its last put. -/
def ShowsNewest (pages : List (List Record)) (history : List Record) : Prop :=
  ∀ k value, lastWrite (entries (addressed pages)) k = some value →
    lastWrite (entries history) k = some value

/-- Up to 2^20 pages closed files show the last puts. -/
theorem UpToDate.showsNewest {pages : List (List Record)} {history : List Record}
    (h : UpToDate pages history) (hsize : pages.length ≤ 2 ^ 20) : ShowsNewest pages history := by
  intro k value hlast
  rw [addressed_of_le hsize] at hlast
  rw [← h k]
  exact hlast

namespace Session

/-- Frames at the end of the log, one after the other. -/
def loggedAll (s : Session) (recs : List Record) : Session :=
  recs.foldl (fun s r => s.logged r.key r.value) s

theorem log_loggedAll (s : Session) (recs : List Record) :
    (s.loggedAll recs).log =
      s.log ++ WalManager.walFraming.encodeAll (WalManager.stamped s.lsn (entries recs)) := by
  induction recs generalizing s with
  | nil =>
      show s.log = s.log ++ WalManager.walFraming.encodeAll []
      rw [Framing.encodeAll_nil, List.append_nil]
  | cons r recs ih =>
      have hstamped : WalManager.stamped s.lsn (entries (r :: recs)) =
          ⟨u64 (s.lsn + 1), r.key, r.value⟩ :: WalManager.stamped (u64 (s.lsn + 1)) (entries recs) :=
        rfl
      have hstep : s.loggedAll (r :: recs) = (s.logged r.key r.value).loggedAll recs := rfl
      rw [hstep, ih, hstamped, Framing.encodeAll_cons, ← List.append_assoc]
      rfl

/-- The log of a session that began as `s₀` and put these records. -/
def HasLogged (s₀ s : Session) (recs : List Record) : Prop :=
  s.log = (s₀.loggedAll recs).log ∧ s.lsn = (s₀.loggedAll recs).lsn

theorem HasLogged.logged {s₀ s : Session} {recs : List Record} (h : HasLogged s₀ s recs)
    (r : Record) : HasLogged s₀ (s.logged r.key r.value) (recs ++ [r]) := by
  have hconcat : s₀.loggedAll (recs ++ [r]) = (s₀.loggedAll recs).logged r.key r.value := by
    rw [loggedAll, List.foldl_append]
    rfl
  obtain ⟨hlog, hlsn⟩ := h
  unfold HasLogged
  rw [hconcat]
  unfold Session.logged
  rw [hlog, hlsn]
  exact ⟨rfl, rfl⟩

/-- What pages and index say of a key depends on the mapping and the index only. -/
theorem found_congr {s s' : Session} (hmapped : s'.mapped = s.mapped) (hplaced : s'.placed = s.placed)
    (k : Bytes) : s'.found k = s.found k := by
  unfold found recordAt total
  rw [hmapped, hplaced]

end Session

/-- A client has a handle on page `p`. -/
def Client.holds (p : Nat) (c : Client) : Bool :=
  match c.point with
  | .parsing _ _ page | .releasing _ _ page _ => page.pageId == p
  | _ => false

namespace ClientWorld

/-- The handles on a page. -/
def pins (w : ClientWorld) (p : Nat) : Nat := w.clients.countP (Client.holds p)

/-- What a client knows at its point. In a get it knows that no put has returned since it was given
the mutex, and what index and pages say of its key; in a put, what has been written to the log. -/
def Knows (s₀ : Session) (w : ClientWorld) (s : Session) (c : Client) : Prop :=
  match c.point with
  | .idle | .unlockingShared => True
  | .probing _ | .looking _ => c.before = w.stored
  | .fetching key rid => c.before = w.stored ∧ lastWrite s.placed key = some rid
  | .parsing key rid page =>
      c.before = w.stored ∧ lastWrite s.placed key = some rid ∧ rid.pageId < s.total ∧
        page.pageId = rid.pageId ∧
        w.db.engine.cache.pageMap.lookup rid.pageId = some page.frame
  | .releasing key rid page read =>
      c.before = w.stored ∧ lastWrite s.placed key = some rid ∧ rid.pageId < s.total ∧
        page.pageId = rid.pageId ∧ ∀ record, read = .found record → s.recordAt rid = some record
  | .filling key value => c.before = w.stored ∧ s.found key = some value
  | .logging r => ∃ done, w.sections = done ++ [r] ∧ Session.HasLogged s₀ s done
  | .appending _ | .unlocking => Session.HasLogged s₀ s w.sections
  | .indexing _ rid =>
      Session.HasLogged s₀ s w.sections ∧ rid = StorageWriter.lastRid 0 s.pager
  | .caching r =>
      Session.HasLogged s₀ s w.sections ∧
        (s.pager.pages.length < 2 ^ 32 → s.found r.key = none)

/-- Nobody has or gets an older value than the last put. -/
structure Fresh (earlier : List Record) (w : ClientWorld) (s : Session) : Prop where
  cached : Current s.cached (entries (earlier ++ w.stored))
  found : ∀ k value, s.found k = some value →
    lastWrite (entries (earlier ++ w.stored)) k = some value
  answers : ∀ a ∈ w.answers, ∀ value, a.value = some value →
    lastWrite (entries (earlier ++ a.before)) a.key = some value

/-- **The invariant of the clients.** -/
structure Inv (s₀ : Session) (earlier : List Record) (w : ClientWorld) (s : Session) : Prop where
  holds : w.db.Holds w.pins s
  frame : s.total = 0 ∨ 0 < s.frames
  apart : SharedLock.Compatible Client.mode w.clients
  knows : ∀ c ∈ w.clients, w.Knows s₀ s c
  quiet : w.Quiet → Session.HasLogged s₀ s w.sections
  fresh : s.pager.pages.length < 2 ^ 32 → w.Fresh earlier s

variable {s₀ s s' : Session} {earlier : List Record} {w u : ClientWorld} {i : Nat} {c d : Client}

/-! ## Pins -/

theorem pins_pos (hc : c ∈ w.clients) {p : Nat} (hp : c.holds p) : 0 < w.pins p :=
  List.countP_pos_iff.mpr ⟨c, hc, hp⟩

/-- A client that has the handles it had. -/
theorem pins_set (hi : w.clients[i]? = some c) (hw : u.clients = w.clients.set i d)
    (hsame : ∀ p, d.holds p = c.holds p) : u.pins = w.pins := by
  funext p
  have hcount := Schedule.countP_set_add hi d (Client.holds p)
  rw [hsame p] at hcount
  unfold pins
  rw [hw]
  omega

theorem pins_goOn {db : Database} (point : ClientPoint) (hi : w.clients[i]? = some c)
    (hsame : ∀ p, Client.holds p { c with point := point } = c.holds p) :
    (w.goOn i c db point).pins = w.pins := pins_set hi rfl hsame

theorem pins_answered {db : Database} {key : Bytes} {value : Option Bytes}
    (hi : w.clients[i]? = some c) (hnone : ∀ p, c.holds p = false) :
    (w.answered i c db key value).pins = w.pins :=
  pins_set (d := { c with point := .unlockingShared }) hi rfl fun p => (hnone p).symm

/-- A client that has one handle more. -/
theorem pins_fetch (hi : w.clients[i]? = some c) (hw : u.clients = w.clients.set i d) {p : Nat}
    (hc : ∀ q, c.holds q = false) (hc' : ∀ q, d.holds q = (p == q)) :
    Function.update w.pins p (w.pins p + 1) = u.pins := by
  refine Schedule.update_succ_eq fun q => ?_
  have hcount := Schedule.countP_set_add hi d (Client.holds q)
  simp only [hc, hc', Bool.false_eq_true, if_false, beq_iff_eq, eq_comm (a := p)] at hcount
  unfold pins
  rw [hw]
  exact hcount

/-- A client that has one handle less. -/
theorem pins_release (hi : w.clients[i]? = some c) (hw : u.clients = w.clients.set i d) {p : Nat}
    (hc : ∀ q, c.holds q = (p == q)) (hc' : ∀ q, d.holds q = false) :
    Function.update w.pins p (w.pins p - 1) = u.pins := by
  refine Schedule.update_pred_eq fun q => ?_
  have hcount := Schedule.countP_set_add hi d (Client.holds q)
  simp only [hc, hc', Bool.false_eq_true, if_false, beq_iff_eq, eq_comm (a := p)] at hcount
  unfold pins
  rw [hw]
  exact hcount.symm

/-! ## What a step keeps -/

/-- A get of another client takes nothing away from what a client knows. -/
theorem Knows.shared (h : w.Knows s₀ s c) (hc : c ∈ w.clients) (hmode : c.mode ≠ .exclusive)
    (hstored : u.stored = w.stored) (hmapped : s'.mapped = s.mapped)
    (hplaced : s'.placed = s.placed)
    (hkept : ∀ p f, 0 < w.pins p → w.db.engine.cache.pageMap.lookup p = some f →
      u.db.engine.cache.pageMap.lookup p = some f) : u.Knows s₀ s' c := by
  have htotal : s'.total = s.total := by
    unfold Session.total
    rw [hmapped]
  have hrecord : ∀ rid, s'.recordAt rid = s.recordAt rid := by
    intro rid
    unfold Session.recordAt
    rw [htotal, hmapped]
  obtain ⟨point, before⟩ := c
  cases point with
  | idle | unlockingShared => trivial
  | probing key | looking key => exact h.trans hstored.symm
  | fetching key rid =>
      obtain ⟨hbefore, hrid⟩ := h
      exact ⟨hbefore.trans hstored.symm, by rw [hplaced]; exact hrid⟩
  | parsing key rid page =>
      obtain ⟨hbefore, hrid, hlt, hpage, hres⟩ := h
      have hpin : 0 < w.pins rid.pageId := pins_pos hc (by simp [Client.holds, hpage])
      exact ⟨hbefore.trans hstored.symm, by rw [hplaced]; exact hrid, by rw [htotal]; exact hlt,
        hpage, hkept _ _ hpin hres⟩
  | releasing key rid page read =>
      obtain ⟨hbefore, hrid, hlt, hpage, hread⟩ := h
      exact ⟨hbefore.trans hstored.symm, by rw [hplaced]; exact hrid, by rw [htotal]; exact hlt,
        hpage, fun record heq => (hrecord rid).trans (hread record heq)⟩
  | filling key value =>
      obtain ⟨hbefore, hfound⟩ := h
      exact ⟨hbefore.trans hstored.symm, (Session.found_congr hmapped hplaced key).trans hfound⟩
  | logging r | appending r | indexing r rid | caching r | unlocking => exact absurd rfl hmode

/-- A client without the mutex knows nothing. -/
theorem knows_of_free (hmode : c.mode = .free) : w.Knows s₀ s c := by
  obtain ⟨point, before⟩ := c
  cases point with
  | idle => trivial
  | _ => cases hmode

theorem quiet_iff_canShare : w.Quiet ↔ SharedLock.canShare Client.mode w.clients :=
  SharedLock.canShare_iff.symm

/-- A step of a get. -/
theorem Inv.shared (h : Inv s₀ earlier w s) (hi : w.clients[i]? = some c) (hmode : c.mode = .shared)
    (hclients : u.clients = w.clients.set i d) (hstored : u.stored = w.stored)
    (hsections : u.sections = w.sections) (hmode' : d.mode = .shared ∨ d.mode = .free)
    (hholds : u.db.Holds u.pins s')
    (hframe : s'.mapped = s.mapped ∧ s'.pager = s.pager ∧ s'.log = s.log ∧ s'.lsn = s.lsn ∧
      s'.placed = s.placed ∧ s'.frames = s.frames)
    (hkept : ∀ p f, 0 < w.pins p → w.db.engine.cache.pageMap.lookup p = some f →
      u.db.engine.cache.pageMap.lookup p = some f)
    (hknows : u.Knows s₀ s' d) (hfresh : w.Fresh earlier s → u.Fresh earlier s') :
    Inv s₀ earlier u s' := by
  obtain ⟨hmapped, hpager, hlog, hlsn, hplaced, hframes⟩ := hframe
  have hshared := h.apart.not_exclusive hi hmode
  refine ⟨hholds, ?_, ?_, ?_, ?_, ?_⟩
  · unfold Session.total
    rw [hmapped, hframes]
    exact h.frame
  · rw [hclients]
    exact h.apart.keep hi (by rw [hmode]; exact hmode')
  · intro x hx
    rw [hclients] at hx
    rcases List.mem_or_eq_of_mem_set hx with hx | rfl
    · exact (h.knows x hx).shared hx (hshared x hx) hstored hmapped hplaced hkept
    · exact hknows
  · intro _
    have hlogged := h.quiet hshared
    unfold Session.HasLogged at hlogged ⊢
    rw [hlog, hlsn, hsections]
    exact hlogged
  · intro hlt
    rw [hpager] at hlt
    exact hfresh (h.fresh hlt)

/-- A step of a put: the others are waiting. -/
theorem Inv.alone (h : Inv s₀ earlier w s) (hi : w.clients[i]? = some c)
    (hmode : c.mode = .exclusive) (hclients : u.clients = w.clients.set i d)
    (hmode' : d.mode = .exclusive ∨ d.mode = .free) (hholds : u.db.Holds w.pins s')
    (hmapped : s'.mapped = s.mapped) (hframes : s'.frames = s.frames)
    (hpages : s.pager.pages.length ≤ s'.pager.pages.length)
    (hnone : ∀ p, c.holds p = false) (hnone' : ∀ p, d.holds p = false)
    (hknows : u.Knows s₀ s' d) (hquiet : d.mode = .free → Session.HasLogged s₀ s' u.sections)
    (hfresh : s'.pager.pages.length < 2 ^ 32 → w.Fresh earlier s → u.Fresh earlier s') :
    Inv s₀ earlier u s' := by
  have hpins : u.pins = w.pins :=
    pins_set hi hclients fun p => by rw [hnone, hnone']
  have hget : u.clients[i]? = some d := by
    rw [hclients, List.getElem?_set_self (List.getElem?_eq_some_iff.mp hi).1]
  refine ⟨by rw [hpins]; exact hholds, ?_, ?_, ?_, ?_, ?_⟩
  · unfold Session.total
    rw [hmapped, hframes]
    exact h.frame
  · rw [hclients]
    exact h.apart.keep hi (by rw [hmode]; exact hmode')
  · intro x hx
    obtain ⟨j, hj⟩ := List.mem_iff_getElem?.mp hx
    by_cases hij : i = j
    · subst hij
      rw [hget] at hj
      rw [← Option.some.inj hj]
      exact hknows
    · rw [hclients, List.getElem?_set_ne hij] at hj
      exact knows_of_free (h.apart i j c x hij hi hj hmode)
  · intro hq
    rcases hmode' with hex | hfree
    · exact absurd hex (hq d (List.mem_of_getElem? hget))
    · exact hquiet hfree
  · intro hlt
    exact hfresh hlt (h.fresh (lt_of_le_of_lt hpages hlt))

/-! ## The steps of a get -/

/-- A use of the record cache with the last put of its key keeps everything fresh. -/
theorem Fresh.used (h : w.Fresh earlier s) {key value : Bytes}
    (hlast : lastWrite (entries (earlier ++ w.stored)) key = some value)
    (hstored : u.stored = w.stored) (hanswers : u.answers = w.answers) :
    u.Fresh earlier (s.used key value) where
  cached := by
    rw [hstored]
    exact h.cached.read s.capacity hlast
  found := by
    rw [hstored]
    exact h.found
  answers := by
    rw [hanswers]
    exact h.answers

theorem Fresh.congr (h : w.Fresh earlier s) (hcached : s'.cached = s.cached)
    (hmapped : s'.mapped = s.mapped) (hplaced : s'.placed = s.placed)
    (hstored : u.stored = w.stored) (hanswers : u.answers = w.answers) : u.Fresh earlier s' where
  cached := by
    rw [hcached, hstored]
    exact h.cached
  found k value hk := by
    rw [Session.found_congr hmapped hplaced] at hk
    rw [hstored]
    exact h.found k value hk
  answers := by
    rw [hanswers]
    exact h.answers

/-- A get that answers nothing, or the last put. -/
theorem Fresh.answered (h : w.Fresh earlier s) {key : Bytes} {value : Option Bytes}
    {point : ClientPoint} {before : List Record} {db : Database} (hbefore : before = w.stored)
    (hvalue : ∀ v, value = some v → lastWrite (entries (earlier ++ w.stored)) key = some v) :
    (w.answered i ⟨point, before⟩ db key value).Fresh earlier s where
  cached := h.cached
  found := h.found
  answers := by
    intro a ha v hv
    rcases List.mem_append.mp ha with ha | ha
    · exact h.answers a ha v hv
    · rw [List.mem_singleton.mp ha] at hv ⊢
      show lastWrite (entries (earlier ++ before)) key = some v
      rw [hbefore]
      exact hvalue v hv

section Get

variable {key value : Bytes} {before : List Record} {rid : RecordID} {page : PageHandle}
  {read : RecordRead}

theorem Inv.probing (h : Inv s₀ earlier w s) (hi : w.clients[i]? = some ⟨.probing key, before⟩) :
    ∃ s', Inv s₀ earlier (w.stepOf i ⟨.probing key, before⟩) s' := by
  have hbefore : before = w.stored := h.knows _ (List.mem_of_getElem? hi)
  obtain ⟨hvalue, hholds⟩ := h.holds.cacheGet key
  obtain ⟨⟨out, cache⟩, hget⟩ : ∃ out, w.db.recordCache.get key = out := ⟨_, rfl⟩
  rw [hget] at hvalue hholds
  dsimp only at hvalue hholds
  cases hcached : cachedValue s.cached key with
  | some value =>
      rw [hcached] at hvalue hholds
      subst hvalue
      have hstep : w.stepOf i ⟨.probing key, before⟩ =
          w.answered i ⟨.probing key, before⟩ { w.db with recordCache := cache } key
            (some value) := by
        unfold stepOf
        dsimp only
        rw [hget]
      rw [hstep]
      refine ⟨s.used key value, h.shared hi rfl rfl rfl rfl (Or.inl rfl) ?_
        ⟨rfl, rfl, rfl, rfl, rfl, rfl⟩ (fun _ _ _ hf => hf) trivial fun hfresh => ?_⟩
      · rw [pins_answered hi fun _ => rfl]
        exact hholds
      · have hlast := hfresh.cached.newest key value hcached
        exact (hfresh.used (u := w) hlast rfl rfl).answered hbefore fun v hv => by
          rw [← Option.some.inj hv]
          exact hlast
  | none =>
      rw [hcached] at hvalue hholds
      subst hvalue
      have hstep : w.stepOf i ⟨.probing key, before⟩ =
          w.goOn i ⟨.probing key, before⟩ { w.db with recordCache := cache } (.looking key) := by
        unfold stepOf
        dsimp only
        rw [hget]
      rw [hstep]
      refine ⟨s, h.shared hi rfl rfl rfl rfl (Or.inl rfl) ?_ ⟨rfl, rfl, rfl, rfl, rfl, rfl⟩
        (fun _ _ _ hf => hf) hbefore fun hfresh => hfresh.congr rfl rfl rfl rfl rfl⟩
      rw [pins_goOn (.looking key) hi fun _ => rfl]
      exact hholds

theorem Inv.looking (h : Inv s₀ earlier w s) (hi : w.clients[i]? = some ⟨.looking key, before⟩) :
    ∃ s', Inv s₀ earlier (w.stepOf i ⟨.looking key, before⟩) s' := by
  have hbefore : before = w.stored := h.knows _ (List.mem_of_getElem? hi)
  have hlookup := h.holds.indexLookup key
  cases hrid : lastWrite s.placed key with
  | none =>
      have hstep : w.stepOf i ⟨.looking key, before⟩ =
          w.answered i ⟨.looking key, before⟩ w.db key none := by
        unfold stepOf
        dsimp only
        rw [hlookup, hrid]
      rw [hstep]
      refine ⟨s, h.shared hi rfl rfl rfl rfl (Or.inl rfl) ?_ ⟨rfl, rfl, rfl, rfl, rfl, rfl⟩
        (fun _ _ _ hf => hf) trivial fun hfresh => hfresh.answered hbefore (by simp)⟩
      rw [pins_answered hi fun _ => rfl]
      exact h.holds
  | some rid =>
      have hstep : w.stepOf i ⟨.looking key, before⟩ =
          w.goOn i ⟨.looking key, before⟩ w.db (.fetching key rid) := by
        unfold stepOf
        dsimp only
        rw [hlookup, hrid]
      rw [hstep]
      refine ⟨s, h.shared hi rfl rfl rfl rfl (Or.inl rfl) ?_ ⟨rfl, rfl, rfl, rfl, rfl, rfl⟩
        (fun _ _ _ hf => hf) ⟨hbefore, hrid⟩ fun hfresh => hfresh.congr rfl rfl rfl rfl rfl⟩
      rw [pins_goOn (.fetching key rid) hi fun _ => rfl]
      exact h.holds

/-- The fetch of a page: out of the mapping, into a frame, or thrown because every frame is in use. -/
theorem Inv.fetching (h : Inv s₀ earlier w s)
    (hi : w.clients[i]? = some ⟨.fetching key rid, before⟩) :
    ∃ s', Inv s₀ earlier (w.stepOf i ⟨.fetching key rid, before⟩) s' := by
  obtain ⟨hbefore, hrid⟩ : before = w.stored ∧ lastWrite s.placed key = some rid :=
    h.knows _ (List.mem_of_getElem? hi)
  by_cases hout : rid.pageId ≥ w.db.engine.getTotalPages
  · have hstep : w.stepOf i ⟨.fetching key rid, before⟩ =
        w.answered i ⟨.fetching key rid, before⟩ w.db key none := by
      unfold stepOf
      dsimp only
      rw [if_pos hout]
    rw [hstep]
    refine ⟨s, h.shared hi rfl rfl rfl rfl (Or.inl rfl) ?_ ⟨rfl, rfl, rfl, rfl, rfl, rfl⟩
      (fun _ _ _ hf => hf) trivial fun hfresh => hfresh.answered hbefore (by simp)⟩
    rw [pins_answered hi fun _ => rfl]
    exact h.holds
  · have hlt : rid.pageId < w.db.engine.getTotalPages := Nat.not_le.mp hout
    have hlt' : rid.pageId < s.total := by rwa [h.holds.total] at hlt
    have hpos : 0 < s.frames := h.frame.resolve_left (by omega)
    rcases StorageEngine.fetchPage_outcome (h.holds.ready hpos) hlt with
      ⟨-, page, e, heq, hf⟩ | ⟨-, -, e, heq, hready, hfile, hmap, -⟩
    · have hstep : w.stepOf i ⟨.fetching key rid, before⟩ =
          w.goOn i ⟨.fetching key rid, before⟩ { w.db with engine := e }
            (.parsing key rid page) := by
        unfold stepOf
        dsimp only
        rw [if_neg hout, heq]
      rw [hstep]
      refine ⟨s, h.shared hi rfl rfl rfl rfl (Or.inl rfl) ?_ ⟨rfl, rfl, rfl, rfl, rfl, rfl⟩
        hf.kept ⟨hbefore, hrid, hlt', hf.pageId, hf.resident⟩
        fun hfresh => hfresh.congr rfl rfl rfl rfl rfl⟩
      have hpins := hf.ready
      rw [pins_fetch (u := w.goOn i ⟨.fetching key rid, before⟩ { w.db with engine := e }
        (.parsing key rid page)) hi rfl (fun _ => rfl) fun q => by
          rw [← hf.pageId]
          rfl] at hpins
      exact h.holds.ofReady hpos hpins hf.file
    · have hstep : w.stepOf i ⟨.fetching key rid, before⟩ =
          w.goOn i ⟨.fetching key rid, before⟩ { w.db with engine := e } .unlockingShared := by
        unfold stepOf
        dsimp only
        rw [if_neg hout, heq]
      rw [hstep]
      refine ⟨s, h.shared hi rfl rfl rfl rfl (Or.inl rfl) ?_ ⟨rfl, rfl, rfl, rfl, rfl, rfl⟩
        (fun p f _ hp => ?_) trivial fun hfresh => hfresh.congr rfl rfl rfl rfl rfl⟩
      · rw [pins_goOn .unlockingShared hi fun _ => rfl]
        exact h.holds.ofReady hpos hready hfile
      · show e.cache.pageMap.lookup p = some f
        rw [hmap]
        exact hp

/-- A pinned page shows the records it had when it was mapped. -/
theorem Inv.parsing (h : Inv s₀ earlier w s)
    (hi : w.clients[i]? = some ⟨.parsing key rid page, before⟩) :
    ∃ s', Inv s₀ earlier (w.stepOf i ⟨.parsing key rid page, before⟩) s' := by
  obtain ⟨hbefore, hrid, hlt, hpage, hres⟩ : before = w.stored ∧ lastWrite s.placed key = some rid ∧
      rid.pageId < s.total ∧ page.pageId = rid.pageId ∧
        w.db.engine.cache.pageMap.lookup rid.pageId = some page.frame :=
    h.knows _ (List.mem_of_getElem? hi)
  have hshows : w.db.engine.pageOf page = w.db.engine.view rid.pageId := by
    have hframe := h.holds.coherent.shows rid.pageId page.frame hres
    unfold StorageEngine.pageOf PageCache.pageOf
    rw [List.getD_eq_getElem?_getD, hframe, Option.getD_some]
    rfl
  have hread : ∀ record, StorageReader.parseRecord (w.db.engine.pageOf page) rid.slotId =
      .found record → s.recordAt rid = some record := by
    intro record hfound
    rw [hshows, Slotted.parseRecord_of_holds (h.holds.view_holds hlt)] at hfound
    rw [Session.recordAt, if_pos hlt]
    cases hrec : (shown s.mapped rid.pageId)[rid.slotId]? with
    | none =>
        rw [hrec] at hfound
        cases hfound
    | some r =>
        rw [hrec] at hfound
        cases hfound
        rfl
  refine ⟨s, h.shared (u := w.goOn i ⟨.parsing key rid page, before⟩ w.db (.releasing key rid page
    (StorageReader.parseRecord (w.db.engine.pageOf page) rid.slotId))) hi rfl rfl rfl rfl
    (Or.inl rfl) ?_ ⟨rfl, rfl, rfl, rfl, rfl, rfl⟩ (fun _ _ _ hf => hf)
    ⟨hbefore, hrid, hlt, hpage, hread⟩ fun hfresh => hfresh.congr rfl rfl rfl rfl rfl⟩
  rw [pins_goOn (.releasing key rid page _) hi fun _ => rfl]
  exact h.holds

theorem Inv.releasing (h : Inv s₀ earlier w s)
    (hi : w.clients[i]? = some ⟨.releasing key rid page read, before⟩) :
    ∃ s', Inv s₀ earlier (w.stepOf i ⟨.releasing key rid page read, before⟩) s' := by
  obtain ⟨hbefore, hrid, hlt, hpage, hread⟩ : before = w.stored ∧
      lastWrite s.placed key = some rid ∧ rid.pageId < s.total ∧ page.pageId = rid.pageId ∧
        ∀ record, read = .found record → s.recordAt rid = some record :=
    h.knows _ (List.mem_of_getElem? hi)
  have hpos : 0 < s.frames := h.frame.resolve_left (by omega)
  obtain ⟨hready, hfile⟩ := StorageEngine.releasePage_spec (h.holds.ready hpos) page
  obtain ⟨hmap, -⟩ := StorageEngine.releasePage_cache (h.holds.ready hpos) page
  -- wherever the client goes on, the page has one pin less
  have hholds : ∀ u : ClientWorld, ∀ d : Client, u.clients = w.clients.set i d →
      (∀ q, d.holds q = false) →
      Database.Holds { w.db with engine := w.db.engine.releasePage page } u.pins s := by
    intro u d hclients hnone
    have hpins := hready
    rw [pins_release hi hclients (fun _ => rfl) hnone] at hpins
    exact h.holds.ofReady hpos hpins hfile
  have hkept : ∀ p f, 0 < w.pins p → w.db.engine.cache.pageMap.lookup p = some f →
      (w.db.engine.releasePage page).cache.pageMap.lookup p = some f := by
    intro p f _ hp
    rw [hmap]
    exact hp
  have hnothing : ∃ s', Inv s₀ earlier (w.answered i ⟨.releasing key rid page read, before⟩
      { w.db with engine := w.db.engine.releasePage page } key none) s' :=
    ⟨s, h.shared hi rfl rfl rfl rfl (Or.inl rfl) (hholds _ _ rfl fun _ => rfl)
      ⟨rfl, rfl, rfl, rfl, rfl, rfl⟩ hkept trivial fun hfresh => hfresh.answered hbefore (by simp)⟩
  cases read with
  | absent => exact hnothing
  | outside =>
      exact ⟨s, h.shared (u := w.goOn i _ _ .unlockingShared) hi rfl rfl rfl rfl (Or.inl rfl)
        (hholds _ _ rfl fun _ => rfl) ⟨rfl, rfl, rfl, rfl, rfl, rfl⟩ hkept trivial
        fun hfresh => hfresh.congr rfl rfl rfl rfl rfl⟩
  | found record =>
      by_cases hkey : record.key = key
      · have hstep : w.stepOf i ⟨.releasing key rid page (.found record), before⟩ =
            w.goOn i ⟨.releasing key rid page (.found record), before⟩
              { w.db with engine := w.db.engine.releasePage page } (.filling key record.value) := by
          unfold stepOf
          dsimp only
          rw [if_pos hkey]
        have hfound : s.found key = some record.value := by
          rw [Session.found, hrid, Option.bind_some, hread record rfl, Option.bind_some,
            Session.valueFor, if_pos hkey]
        rw [hstep]
        exact ⟨s, h.shared hi rfl rfl rfl rfl (Or.inl rfl) (hholds _ _ rfl fun _ => rfl)
          ⟨rfl, rfl, rfl, rfl, rfl, rfl⟩ hkept ⟨hbefore, hfound⟩
          fun hfresh => hfresh.congr rfl rfl rfl rfl rfl⟩
      · have hstep : w.stepOf i ⟨.releasing key rid page (.found record), before⟩ =
            w.answered i ⟨.releasing key rid page (.found record), before⟩
              { w.db with engine := w.db.engine.releasePage page } key none := by
          unfold stepOf
          dsimp only
          rw [if_neg hkey]
        rw [hstep]
        exact hnothing

/-- The record cache is filled with what the pages say, which no put has changed meanwhile. -/
theorem Inv.filling (h : Inv s₀ earlier w s)
    (hi : w.clients[i]? = some ⟨.filling key value, before⟩) :
    ∃ s', Inv s₀ earlier (w.stepOf i ⟨.filling key value, before⟩) s' := by
  obtain ⟨hbefore, hfound⟩ : before = w.stored ∧ s.found key = some value :=
    h.knows _ (List.mem_of_getElem? hi)
  by_cases hcap : 1 ≤ s.capacity
  · obtain ⟨db, heq, hholds, hengine⟩ := h.holds.cachePut hcap key value
    have hstep : w.stepOf i ⟨.filling key value, before⟩ =
        w.answered i ⟨.filling key value, before⟩ db key (some value) := by
      unfold stepOf
      dsimp only
      rw [heq]
    rw [hstep]
    refine ⟨s.used key value, h.shared hi rfl rfl rfl rfl (Or.inl rfl) ?_
      ⟨rfl, rfl, rfl, rfl, rfl, rfl⟩ (fun p f _ hp => ?_) trivial fun hfresh => ?_⟩
    · rw [pins_answered hi fun _ => rfl]
      exact hholds
    · show db.engine.cache.pageMap.lookup p = some f
      rw [hengine]
      exact hp
    · have hlast := hfresh.found key value hfound
      exact (hfresh.used (u := w) hlast rfl rfl).answered hbefore fun v hv => by
        rw [← Option.some.inj hv]
        exact hlast
  · have heq := h.holds.cachePut_without_place (by omega) key value
    have hstep : w.stepOf i ⟨.filling key value, before⟩ =
        w.goOn i ⟨.filling key value, before⟩ w.db .unlockingShared := by
      unfold stepOf
      dsimp only
      rw [heq]
    rw [hstep]
    refine ⟨s, h.shared hi rfl rfl rfl rfl (Or.inl rfl) ?_ ⟨rfl, rfl, rfl, rfl, rfl, rfl⟩
      (fun _ _ _ hf => hf) trivial fun hfresh => hfresh.congr rfl rfl rfl rfl rfl⟩
    rw [pins_goOn .unlockingShared hi fun _ => rfl]
    exact h.holds

theorem Inv.unlockingShared (h : Inv s₀ earlier w s)
    (hi : w.clients[i]? = some ⟨.unlockingShared, before⟩) :
    ∃ s', Inv s₀ earlier (w.stepOf i ⟨.unlockingShared, before⟩) s' := by
  refine ⟨s, h.shared (u := w.goOn i ⟨.unlockingShared, before⟩ w.db .idle) hi rfl rfl rfl rfl
    (Or.inr rfl) ?_ ⟨rfl, rfl, rfl, rfl, rfl, rfl⟩ (fun _ _ _ hf => hf) trivial
    fun hfresh => hfresh.congr rfl rfl rfl rfl rfl⟩
  rw [pins_goOn .idle hi fun _ => rfl]
  exact h.holds

end Get

/-! ## The steps of a put -/

section Put

variable {r : Record} {before : List Record} {rid : RecordID}

theorem Inv.logging (h : Inv s₀ earlier w s) (hi : w.clients[i]? = some ⟨.logging r, before⟩) :
    ∃ s', Inv s₀ earlier (w.stepOf i ⟨.logging r, before⟩) s' := by
  obtain ⟨done, hsections, hlogged⟩ : ∃ done, w.sections = done ++ [r] ∧
      Session.HasLogged s₀ s done := h.knows _ (List.mem_of_getElem? hi)
  obtain ⟨db, heq, hholds⟩ := h.holds.walAppend r.key r.value
  have hstep : w.stepOf i ⟨.logging r, before⟩ =
      w.goOn i ⟨.logging r, before⟩ db (.appending r) := by
    unfold stepOf
    dsimp only
    rw [heq]
  rw [hstep]
  refine ⟨s.logged r.key r.value, h.alone hi rfl rfl (Or.inl rfl) hholds rfl rfl le_rfl
    (fun _ => rfl) (fun _ => rfl) ?_ (fun hfree => by cases hfree)
    fun _ hfresh => hfresh.congr rfl rfl rfl rfl rfl⟩
  show Session.HasLogged s₀ (s.logged r.key r.value) w.sections
  rw [hsections]
  exact hlogged.logged r

/-- The record goes to a page, or is refused; the index does not know of it yet. -/
theorem Inv.appending (h : Inv s₀ earlier w s)
    (hi : w.clients[i]? = some ⟨.appending r, before⟩) :
    ∃ s', Inv s₀ earlier (w.stepOf i ⟨.appending r, before⟩) s' := by
  have hlogged : Session.HasLogged s₀ s w.sections := h.knows _ (List.mem_of_getElem? hi)
  have hpages : s.pager.pages.length ≤ (s.appended r).pager.pages.length :=
    (Pager.prefix_pages_append _ _).length_le
  obtain ⟨db, hholds, heq⟩ := h.holds.writerAppend r
  by_cases hfits : Record.need r ≤ pageRoom
  · rw [if_pos hfits] at heq
    have hstep : w.stepOf i ⟨.appending r, before⟩ =
        w.goOn i ⟨.appending r, before⟩ db
          (.indexing r (StorageWriter.lastRid 0 (s.appended r).pager)) := by
      unfold stepOf
      dsimp only
      rw [heq]
    rw [hstep]
    exact ⟨s.appended r, h.alone hi rfl rfl (Or.inl rfl) hholds rfl rfl hpages
      (fun _ => rfl) (fun _ => rfl) ⟨hlogged, rfl⟩ (fun hfree => by cases hfree)
      fun _ hfresh => hfresh.congr rfl rfl rfl rfl rfl⟩
  · rw [if_neg hfits] at heq
    have hstep : w.stepOf i ⟨.appending r, before⟩ =
        w.goOn i ⟨.appending r, before⟩ db .unlocking := by
      unfold stepOf
      dsimp only
      rw [heq]
    rw [hstep]
    exact ⟨s.appended r, h.alone hi rfl rfl (Or.inl rfl) hholds rfl rfl hpages
      (fun _ => rfl) (fun _ => rfl) hlogged (fun hfree => by cases hfree)
      fun _ hfresh => hfresh.congr rfl rfl rfl rfl rfl⟩

/-- The index leads the key behind the mapping, where nothing is found, and no other key anywhere
else. -/
theorem found_indexed (hrid : rid = StorageWriter.lastRid 0 s.pager)
    (hkept : s.mapped.length ≤ s.pager.pages.length) (hlt : s.pager.pages.length < 2 ^ 32)
    (key k : Bytes) : (s.indexed key rid).found k = if key = k then none else s.found k := by
  have hplaced : (s.indexed key rid).placed = s.placed ++ [(key, rid)] := rfl
  have haway : s.total ≤ rid.pageId := by
    rw [hrid]
    show u32 s.mapped.length ≤ u32 (0 + s.pager.pages.length)
    rw [Nat.zero_add, u32_of_lt hlt, u32_of_lt (lt_of_le_of_lt hkept hlt)]
    exact hkept
  unfold Session.found
  rw [hplaced, lastWrite_concat]
  by_cases hkey : key = k
  · have hnone : (s.indexed key rid).recordAt rid = none := if_neg (Nat.not_lt.mpr haway)
    rw [if_pos hkey, if_pos hkey, Option.bind_some, hnone]
    rfl
  · rw [if_neg hkey, if_neg hkey]
    rfl

theorem Inv.indexing (h : Inv s₀ earlier w s)
    (hi : w.clients[i]? = some ⟨.indexing r rid, before⟩) :
    ∃ s', Inv s₀ earlier (w.stepOf i ⟨.indexing r rid, before⟩) s' := by
  obtain ⟨hlogged, hrid⟩ : Session.HasLogged s₀ s w.sections ∧
      rid = StorageWriter.lastRid 0 s.pager := h.knows _ (List.mem_of_getElem? hi)
  obtain ⟨db, heq, hholds⟩ := h.holds.indexInsert r.key rid
  have hstep : w.stepOf i ⟨.indexing r rid, before⟩ =
      w.goOn i ⟨.indexing r rid, before⟩ db (.caching r) := by
    unfold stepOf
    dsimp only
    rw [heq]
  rw [hstep]
  have hfound := found_indexed hrid h.holds.kept.length_le
  refine ⟨s.indexed r.key rid, h.alone hi rfl rfl (Or.inl rfl) hholds rfl rfl le_rfl
    (fun _ => rfl) (fun _ => rfl) ⟨hlogged, fun hlt => ?_⟩ (fun hfree => by cases hfree)
    fun hlt hfresh => ⟨hfresh.cached, fun k value hk => ?_, hfresh.answers⟩⟩
  · rw [hfound hlt, if_pos rfl]
  · rw [hfound hlt] at hk
    split at hk
    · cases hk
    · exact hfresh.found k value hk

/-- The last put of every other key is what it was. -/
theorem Fresh.returned (h : w.Fresh earlier s) {db : Database} (hnone : s.found r.key = none) :
    (w.returned i c db r).Fresh earlier (s.used r.key r.value) := by
  have hentries : entries (earlier ++ (w.returned i c db r).stored) =
      entries (earlier ++ w.stored) ++ [(r.key, r.value)] := by
    show entries (earlier ++ (w.stored ++ [r])) = _
    rw [← List.append_assoc, entries_append]
    rfl
  refine ⟨?_, ?_, h.answers⟩
  · rw [hentries]
    exact h.cached.write s.capacity r.key r.value
  · intro k value hk
    rw [hentries, lastWrite_concat]
    by_cases hkey : r.key = k
    · subst hkey
      have hsame : (s.used r.key r.value).found r.key = s.found r.key := rfl
      rw [hsame, hnone] at hk
      cases hk
    · rw [if_neg hkey]
      exact h.found k value hk

theorem Inv.caching (h : Inv s₀ earlier w s) (hi : w.clients[i]? = some ⟨.caching r, before⟩) :
    ∃ s', Inv s₀ earlier (w.stepOf i ⟨.caching r, before⟩) s' := by
  obtain ⟨hlogged, hnone⟩ : Session.HasLogged s₀ s w.sections ∧
      (s.pager.pages.length < 2 ^ 32 → s.found r.key = none) :=
    h.knows _ (List.mem_of_getElem? hi)
  by_cases hcap : 1 ≤ s.capacity
  · obtain ⟨db, heq, hholds, -⟩ := h.holds.cachePut hcap r.key r.value
    have hstep : w.stepOf i ⟨.caching r, before⟩ = w.returned i ⟨.caching r, before⟩ db r := by
      unfold stepOf
      dsimp only
      rw [heq]
    rw [hstep]
    exact ⟨s.used r.key r.value, h.alone hi rfl rfl (Or.inl rfl) hholds rfl rfl le_rfl
      (fun _ => rfl) (fun _ => rfl) hlogged (fun hfree => by cases hfree)
      fun hlt hfresh => hfresh.returned (hnone hlt)⟩
  · have heq := h.holds.cachePut_without_place (by omega) r.key r.value
    have hstep : w.stepOf i ⟨.caching r, before⟩ =
        w.goOn i ⟨.caching r, before⟩ w.db .unlocking := by
      unfold stepOf
      dsimp only
      rw [heq]
    rw [hstep]
    exact ⟨s, h.alone hi rfl rfl (Or.inl rfl) h.holds rfl rfl le_rfl
      (fun _ => rfl) (fun _ => rfl) hlogged (fun hfree => by cases hfree)
      fun _ hfresh => hfresh.congr rfl rfl rfl rfl rfl⟩

theorem Inv.unlocking (h : Inv s₀ earlier w s) (hi : w.clients[i]? = some ⟨.unlocking, before⟩) :
    ∃ s', Inv s₀ earlier (w.stepOf i ⟨.unlocking, before⟩) s' := by
  have hlogged : Session.HasLogged s₀ s w.sections := h.knows _ (List.mem_of_getElem? hi)
  exact ⟨s, h.alone (u := w.goOn i ⟨.unlocking, before⟩ w.db .idle) hi rfl rfl (Or.inr rfl)
    h.holds rfl rfl le_rfl (fun _ => rfl) (fun _ => rfl) trivial (fun _ => hlogged)
    fun _ hfresh => hfresh.congr rfl rfl rfl rfl rfl⟩

end Put

/-! ## Runs -/

/-- A client is given the mutex, or is not. -/
theorem Inv.begin (h : Inv s₀ earlier w s) (i : Nat) (call : DbCall) :
    Inv s₀ earlier (w.begin i call) s := by
  unfold ClientWorld.begin
  split
  · rename_i before hi
    cases call with
    | get key =>
        dsimp only
        by_cases hcan : SharedLock.canShare Client.mode w.clients
        · have hquiet : w.Quiet := quiet_iff_canShare.mpr hcan
          rw [if_pos hcan]
          refine ⟨?_, h.frame, h.apart.share hcan rfl, ?_, fun _ => h.quiet hquiet, fun hlt => ?_⟩
          · have hpins : ClientWorld.pins { w with
                clients := w.clients.set i ⟨.probing key, w.stored⟩ } = w.pins :=
              pins_set hi (d := ⟨.probing key, w.stored⟩) rfl fun _ => rfl
            rw [hpins]
            exact h.holds
          · intro x hx
            rcases List.mem_or_eq_of_mem_set hx with hx | rfl
            · exact (h.knows x hx).shared hx (hquiet x hx) rfl rfl rfl fun _ _ _ hf => hf
            · rfl
          · exact (h.fresh hlt).congr rfl rfl rfl rfl rfl
        · rw [if_neg hcan]
          exact h
    | put key value =>
        dsimp only
        by_cases hcan : SharedLock.canOwn Client.mode w.clients
        · have hfree := SharedLock.canOwn_iff.mp hcan
          have hquiet : w.Quiet := by
            intro x hx hex
            rw [hfree x hx] at hex
            cases hex
          rw [if_pos hcan]
          refine ⟨?_, h.frame, h.apart.own hcan, ?_, fun hq => ?_, fun hlt => ?_⟩
          · have hpins : ClientWorld.pins { w with
                clients := w.clients.set i ⟨.logging ⟨key, value⟩, before⟩
                sections := w.sections ++ [⟨key, value⟩] } = w.pins :=
              pins_set hi (d := ⟨.logging ⟨key, value⟩, before⟩) rfl fun _ => rfl
            rw [hpins]
            exact h.holds
          · intro x hx
            rcases List.mem_or_eq_of_mem_set hx with hx | rfl
            · exact knows_of_free (hfree x hx)
            · exact ⟨w.sections, rfl, h.quiet hquiet⟩
          · have hmem : (⟨.logging ⟨key, value⟩, before⟩ : Client) ∈
                w.clients.set i ⟨.logging ⟨key, value⟩, before⟩ :=
              List.mem_set (List.getElem?_eq_some_iff.mp hi).1 _
            exact absurd rfl (hq _ hmem)
          · exact (h.fresh hlt).congr rfl rfl rfl rfl rfl
        · rw [if_neg hcan]
          exact h
  · exact h

/-- **Every turn keeps the invariant.** -/
theorem Inv.turn (h : Inv s₀ earlier w s) (t : Turn) : ∃ s', Inv s₀ earlier (w.turn t) s' := by
  cases t with
  | begin i call => exact ⟨s, h.begin i call⟩
  | step i =>
      unfold ClientWorld.turn
      dsimp only
      cases hi : w.clients[i]? with
      | none => exact ⟨s, h⟩
      | some c =>
          obtain ⟨point, before⟩ := c
          cases point with
          | idle => exact ⟨s, h⟩
          | probing key => exact h.probing hi
          | looking key => exact h.looking hi
          | fetching key rid => exact h.fetching hi
          | parsing key rid page => exact h.parsing hi
          | releasing key rid page read => exact h.releasing hi
          | filling key value => exact h.filling hi
          | unlockingShared => exact h.unlockingShared hi
          | logging r => exact h.logging hi
          | appending r => exact h.appending hi
          | indexing r rid => exact h.indexing hi
          | caching r => exact h.caching hi
          | unlocking => exact h.unlocking hi

theorem Inv.run (h : Inv s₀ earlier w s) (schedule : List Turn) :
    ∃ s', Inv s₀ earlier (w.run schedule) s' := by
  have hstep : ∀ (u : ClientWorld) (t : Turn), (∃ s, Inv s₀ earlier u s) →
      ∃ s, Inv s₀ earlier (u.turn t) s := by
    rintro u t ⟨s, hs⟩
    exact hs.turn t
  exact Schedule.run_invariant hstep schedule ⟨s, h⟩

/-- Clients that have not called anything yet. -/
theorem inv_start {db : Database} (hdb : db.Holds (fun _ => 0) s₀)
    (hf : s₀.total = 0 ∨ 0 < s₀.frames) (n : Nat) (hcached : Current s₀.cached (entries earlier))
    (hfound : ∀ k value, s₀.found k = some value → lastWrite (entries earlier) k = some value) :
    Inv s₀ earlier (start db n) s₀ := by
  have hidle : ∀ c ∈ (start db n).clients, c = ⟨.idle, []⟩ := fun c hc => List.eq_of_mem_replicate hc
  have hpins : (start db n).pins = fun _ => 0 := by
    funext p
    apply List.countP_eq_zero.mpr
    intro c hc
    rw [hidle c hc]
    simp [Client.holds]
  refine ⟨by rw [hpins]; exact hdb, hf, ?_, ?_, fun _ => ⟨rfl, rfl⟩, fun _ => ⟨?_, ?_, ?_⟩⟩
  · apply SharedLock.compatible_of_free
    intro c hc
    rw [hidle c hc]
    rfl
  · intro c hc
    rw [hidle c hc]
    trivial
  · show Current s₀.cached (entries (earlier ++ []))
    rw [List.append_nil]
    exact hcached
  · show ∀ k value, s₀.found k = some value → lastWrite (entries (earlier ++ [])) k = some value
    rw [List.append_nil]
    exact hfound
  · intro a ha
    cases ha

/-- What the invariant says about the database itself. -/
theorem Inv.noStaleRead (h : Inv s₀ earlier w s) (hlt : s.pager.pages.length < 2 ^ 32) :
    NoStaleRead earlier s₀.log s₀.lsn w := by
  have hfresh := h.fresh hlt
  refine ⟨fun _ node hnode => ?_, fun hq => ?_, hfresh.answers⟩
  · have hmem : (node.2.key, node.2.value) ∈ s.cached := by
      rw [← h.holds.cache.entries]
      exact List.mem_map_of_mem hnode
    exact hfresh.cached.newest _ _ ((cachedValue_eq_some_iff hfresh.cached.nodup).mpr hmem)
  · rw [h.holds.logFile, (h.quiet hq).1, Session.log_loggedAll]

end ClientWorld

/-- **No client reads an older value.** For any database that sessions closed normally have left, any
number of clients and any schedule of their steps: when the mapped pages show no older record of a key
that has a newer one, as they do up to 2^20 pages, and while page numbers fit 32 bits, nothing is
stale. -/
theorem no_stale_read {disk : Disk} {history : List Record} (hclosed : ClosedCleanly disk history)
    {cfg : Config} {db : Database} (hnew : Database.new cfg disk = .ok db) :
    ∃ pages, disk.Shows pages (disk.wal.getD []) ∧
      (pages.length ≤ 2 ^ 20 → ShowsNewest pages history) ∧
      (ShowsNewest pages history → ∀ (n : Nat) (schedule : List ClientWorld.Turn),
        ((ClientWorld.start db n).run schedule).db.engine.file.bytes.length < 2 ^ 32 * PAGE_SIZE →
        ((ClientWorld.start db n).run schedule).NoStaleRead history (disk.wal.getD [])
          db.wal.currentLsn) := by
  obtain ⟨pages, hclean⟩ := hclosed.cleanFiles
  refine ⟨pages, hclean.shows, hclean.upToDate.showsNewest, ?_⟩
  intro hnewest n schedule hsize
  obtain ⟨hopens, hholds⟩ := Database.holds_of_new hclean.shows hnew
  have hcached : Current (Session.opened cfg pages (disk.wal.getD [])).cached (entries history) := by
    rw [Session.cached_opened, hclean.logged.replayable]
    exact current_lruUses _ _
  obtain ⟨s, hinv⟩ := (ClientWorld.inv_start hholds hopens.frame_opened n hcached fun k value hk => by
    rw [Session.found_opened] at hk
    exact hnewest k value hk).run schedule
  have hlength := hinv.holds.writer.file.length_eq
  rw [List.length_nil, Nat.zero_add] at hlength
  rw [hlength] at hsize
  have hstale := hinv.noStaleRead (Nat.lt_of_mul_lt_mul_right hsize)
  rw [(Session.stream_opened cfg pages (disk.wal.getD [])).2, ← hholds.lsn] at hstale
  exact hstale

/-- A put by one client and a get by another one. -/
theorem no_stale_read_put_get :
    ∃ db, Database.new ⟨1, 1, false⟩ Disk.empty = .ok db ∧
      ((ClientWorld.start db 2).run
        (.begin 0 (.put [1] [2]) :: List.replicate 5 (.step 0) ++
          .begin 1 (.get [1]) :: List.replicate 7 (.step 1))).NoStaleRead [] [] db.wal.currentLsn := by
  obtain ⟨hopens, db, hnew, hdb⟩ := cleanFiles_empty.opens ⟨1, 1, false⟩ le_rfl le_rfl
  obtain ⟨-, hcap, -⟩ := Session.opened_frame ⟨1, 1, false⟩ [] (Disk.empty.wal.getD [])
  obtain ⟨pages, hshows, hsmall, hstale⟩ := no_stale_read ClosedCleanly.new hnew
  have hnil : pages = [] := by
    have hlen := hshows.data.length_eq
    simp only [Disk.empty, Option.getD_none, List.length_nil, Nat.zero_add, PAGE_SIZE] at hlen
    exact List.length_eq_zero_iff.mp (by omega)
  refine ⟨db, hnew, hstale (hsmall (by rw [hnil]; exact Nat.zero_le _)) 2 _ ?_⟩
  obtain ⟨db₁, hput, -, heq₁⟩ := hdb.put (le_of_eq hcap.symm) ⟨[1], [2]⟩
  have hfits : Record.need ⟨[1], [2]⟩ ≤ pageRoom := by decide
  rw [if_pos hfits] at heq₁
  have hdb₁ := hput hfits
  obtain ⟨db₂, heq₂, hdb₂⟩ : ∃ db₂, Database.get [1] db₁ = .ok _ db₂ ∧ _ :=
    hdb₁.get hopens.frame_opened fun _ => le_of_eq hcap.symm
  have hclient : (ClientWorld.start db 2).clients[0]? = some ⟨.idle, []⟩ := rfl
  have hclient₁ : (({ (ClientWorld.start db 2).afterPut 0 [] db₁ ⟨[1], [2]⟩ with
      sections := [] ++ [⟨[1], [2]⟩] } : ClientWorld)).clients[1]? = some ⟨.idle, []⟩ := rfl
  have hlen := hdb₂.writer.file.length_eq
  rw [ClientWorld.run, Schedule.run_append]
  have hrun := ClientWorld.run_put hclient rfl heq₁
  have hrun₁ := ClientWorld.run_get hclient₁ rfl heq₂
  unfold ClientWorld.run at hrun hrun₁
  rw [hrun]
  refine lt_of_le_of_lt (le_of_eq (congrArg (fun w : ClientWorld => w.db.engine.file.bytes.length) hrun₁)) ?_
  show db₂.engine.file.bytes.length < 2 ^ 32 * PAGE_SIZE
  rw [hlen]
  decide +kernel

/-! ## A file of more than 2^20 pages -/

/-- A record that takes a page. -/
def largePut (k v : UInt8) : Record := ⟨[k], List.replicate 3000 v⟩

theorem need_largePut (k v : UInt8) : Record.need (largePut k v) = 3010 := by
  show 4 + (5 + 1 + (List.replicate 3000 v).length) = 3010
  rw [List.length_replicate]

/-- A key that is put on the first page, and again behind `n` more pages. -/
def overwrittenPuts (n : Nat) : List Record :=
  largePut 1 0 :: (List.replicate n (largePut 2 0) ++ [largePut 1 1, largePut 2 0])

theorem mem_overwrittenPuts {n : Nat} {r : Record} (h : r ∈ overwrittenPuts n) :
    r = largePut 1 0 ∨ r = largePut 2 0 ∨ r = largePut 1 1 := by
  rcases List.mem_cons.mp h with h | h
  · exact Or.inl h
  · rcases List.mem_append.mp h with h | h
    · exact Or.inr (Or.inl (List.eq_of_mem_replicate h))
    · rcases List.mem_pair.mp h with h | h
      · exact Or.inr (Or.inr h)
      · exact Or.inr (Or.inl h)

theorem need_overwrittenPuts {n : Nat} {r : Record} (h : r ∈ overwrittenPuts n) :
    Record.need r = 3010 := by
  rcases mem_overwrittenPuts h with rfl | rfl | rfl <;> exact need_largePut _ _

/-- Each record has a page of its own. -/
theorem flushed_overwrittenPuts (n : Nat) :
    StorageWriter.flushed 0 (Pager.appendAll Record.need pageRoom ⟨[], []⟩ (overwrittenPuts n)) =
      (overwrittenPuts n).map fun r => [r] := by
  have hroom : pageRoom = 4030 := rfl
  have hfirst : Pager.appendAll Record.need pageRoom ⟨[], []⟩ (overwrittenPuts n) =
      Pager.appendAll Record.need pageRoom ⟨[], [largePut 1 0]⟩
        (List.replicate n (largePut 2 0) ++ [largePut 1 1, largePut 2 0]) := by
    have hneed := need_largePut 1 0
    rcases Pager.append_cases Record.need pageRoom ⟨[], []⟩ (largePut 1 0) with
      ⟨-, -, heq⟩ | ⟨-, hfull, -⟩ | ⟨hbig, -⟩
    · rw [overwrittenPuts, Pager.appendAll_cons, heq]
      rfl
    · rw [show Pager.used Record.need (⟨[], []⟩ : Pager Record).cur = 0 from rfl] at hfull
      omega
    · omega
  have hlarge : ∀ r ∈ overwrittenPuts n, Record.need r ≤ pageRoom ∧ pageRoom < 2 * Record.need r := by
    intro r hr
    have hneed := need_overwrittenPuts hr
    omega
  obtain ⟨hne, hpages⟩ := Pager.appendAll_of_large
    (fun r hr => hlarge r (List.mem_cons_of_mem _ hr)) [] (hlarge (largePut 1 0) List.mem_cons_self).2
  rw [hfirst]
  unfold StorageWriter.flushed
  rw [if_pos (Or.inl hne), hpages]
  rfl

theorem get_overwrittenPuts {n i : Nat} (hi : i ≤ n) {r : Record}
    (h : (overwrittenPuts n)[i]? = some r) : r = largePut 1 0 ∨ r = largePut 2 0 := by
  cases i with
  | zero => exact Or.inl (Option.some.inj h).symm
  | succ i =>
      have hlen : i < (List.replicate n (largePut 2 0)).length := by
        rw [List.length_replicate]
        exact hi
      rw [overwrittenPuts, List.getElem?_cons_succ, List.getElem?_append_left hlen] at h
      exact Or.inr (List.eq_of_mem_replicate (List.mem_of_getElem? h))

/-- The page ids lead to the first 2^20 pages only. -/
theorem mem_addressed_overwrittenPuts {n : Nat} (hn : 2 ^ 20 ≤ n + 1) {r : Record}
    (h : r ∈ addressed ((overwrittenPuts n).map fun r => [r])) :
    r = largePut 1 0 ∨ r = largePut 2 0 := by
  obtain ⟨p, -, hr⟩ := List.mem_flatMap.mp h
  have hlt : p % 2 ^ 20 < 2 ^ 20 := Nat.mod_lt _ (by decide)
  unfold shown at hr
  rw [List.getElem?_map] at hr
  cases hget : (overwrittenPuts n)[p % 2 ^ 20]? with
  | none =>
      rw [hget] at hr
      cases hr
  | some r' =>
      rw [hget] at hr
      rw [List.mem_singleton.mp hr]
      exact get_overwrittenPuts (by omega) hget

theorem lastWrite_overwrittenPuts (n : Nat) :
    lastWrite (entries (overwrittenPuts n)) [1] = some (largePut 1 1).value := by
  have hsplit : overwrittenPuts n =
      (largePut 1 0 :: List.replicate n (largePut 2 0)) ++ [largePut 1 1] ++ [largePut 2 0] := by
    simp [overwrittenPuts]
  rw [hsplit, entries_append, entries_append]
  show lastWrite (_ ++ [(([1] : Bytes), (largePut 1 1).value)] ++ [([2], (largePut 2 0).value)]) [1] = _
  rw [lastWrite_concat, if_neg (by decide), lastWrite_concat, if_pos rfl]

/-- The first page is shown at page id 2^20 as well, where the newer value of its key was put. -/
theorem not_showsNewest_overwrittenPuts {n : Nat} (hn : 2 ^ 20 ≤ n + 1) (hlt : n + 3 < 2 ^ 32) :
    lastWrite (entries (addressed ((overwrittenPuts n).map fun r => [r]))) [1] =
      some (largePut 1 0).value := by
  have hlen : ((overwrittenPuts n).map fun r => [r]).length = n + 3 := by
    simp [overwrittenPuts]
  have hmem : largePut 1 0 ∈ addressed ((overwrittenPuts n).map fun r => [r]) := by
    refine List.mem_flatMap.mpr ⟨0, List.mem_range.mpr ?_, ?_⟩
    · rw [hlen, u32_of_lt hlt]
      omega
    · exact List.mem_singleton_self _
  obtain ⟨value, hvalue⟩ := exists_lastWrite (k := [1]) (h := entries (addressed
    ((overwrittenPuts n).map fun r => [r]))) (by
      rw [keys_entries]
      exact List.mem_map_of_mem hmem)
  obtain ⟨r, hr, heq⟩ := List.mem_map.mp (mem_of_lastWrite hvalue)
  rw [hvalue]
  rcases mem_addressed_overwrittenPuts hn hr with rfl | rfl
  · exact congrArg some (congrArg Prod.snd heq).symm
  · have hkey : ([2] : Bytes) = [1] := congrArg Prod.fst heq
    exact absurd hkey (by decide)

/-- **An older value is read.** The first put of a key stands on page 0, the second one on page 2^20,
whose address is that of page 0; the record cache holds the last record only. -/
theorem stale_read :
    ∃ disk db, ClosedCleanly disk (overwrittenPuts (2 ^ 20 - 1)) ∧
      Database.new ⟨1, 1, false⟩ disk = .ok db ∧
      ¬((ClientWorld.start db 1).run
        (.begin 0 (.get [1]) :: List.replicate 7 (.step 0))).NoStaleRead
          (overwrittenPuts (2 ^ 20 - 1)) (disk.wal.getD []) db.wal.currentLsn := by
  obtain ⟨n, hn⟩ : ∃ n, n = 2 ^ 20 - 1 := ⟨_, rfl⟩
  rw [← hn]
  have hputs : putsOf ((overwrittenPuts n).map fun r => .put r.key r.value) = overwrittenPuts n := by
    rw [putsOf, List.filterMap_map]
    exact List.filterMap_some
  obtain ⟨disk, hclosed, hfiles⟩ := cleanFiles_empty.session ClosedCleanly.new ⟨1, 1, false⟩ le_rfl
    le_rfl ((overwrittenPuts n).map fun r => .put r.key r.value) (by
      rw [hputs]
      intro r hr
      rw [need_overwrittenPuts hr]
      decide)
  rw [hputs, List.nil_append] at hclosed hfiles
  rw [flushed_overwrittenPuts] at hfiles
  obtain ⟨hopens, db, hnew, hdb⟩ := hfiles.opens ⟨1, 1, false⟩ le_rfl le_rfl
  refine ⟨disk, db, hclosed, hnew, ?_⟩
  obtain ⟨-, hcap, -⟩ := Session.opened_frame ⟨1, 1, false⟩
    ((overwrittenPuts n).map fun r => [r]) (disk.wal.getD [])
  -- the record cache has room for the record that was replayed last
  have hcached : cachedValue (Session.opened ⟨1, 1, false⟩ ((overwrittenPuts n).map fun r => [r])
      (disk.wal.getD [])).cached [1] = none := by
    have hsplit : overwrittenPuts n =
        (largePut 1 0 :: (List.replicate n (largePut 2 0) ++ [largePut 1 1])) ++ [largePut 2 0] := by
      simp [overwrittenPuts]
    rw [Session.cached_opened, hfiles.logged.replayable, hsplit, entries_append]
    show cachedValue (lruUses 1 [] (_ ++ [(([2] : Bytes), (largePut 2 0).value)])) [1] = none
    rw [lruUses_concat, lruPut, List.take_succ_cons, List.take_zero]
    rfl
  have hanswer : (Session.opened ⟨1, 1, false⟩ ((overwrittenPuts n).map fun r => [r])
      (disk.wal.getD [])).answer [1] = some (largePut 1 0).value := by
    rw [Session.answer, hcached, Session.found_opened,
      not_showsNewest_overwrittenPuts (by omega) (by omega)]
    rfl
  obtain ⟨db', hget, -⟩ := hdb.get hopens.frame_opened (fun _ => le_of_eq hcap.symm)
  rw [hanswer] at hget
  have hclient : (ClientWorld.start db 1).clients[0]? = some ⟨.idle, []⟩ := rfl
  rw [ClientWorld.run_get hclient rfl hget]
  intro hstale
  have hnewest := hstale.answers ⟨[1], [], some (largePut 1 0).value⟩ (List.mem_singleton_self _) _ rfl
  rw [List.append_nil] at hnewest
  have hsame := Option.some.inj ((lastWrite_overwrittenPuts n).symm.trans hnewest)
  exact absurd (congrArg List.head? hsame) (by decide)

end Aqa
