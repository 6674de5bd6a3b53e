/-
# Aqa.Db.Linearizable — concurrent clients answer like one client.

Every step of every client keeps the clients beside one client (`goes_turn`), which makes the calls that
take effect. So the calls of any schedule, in the order in which they take effect and one after the
other, return and give the same answers.
-/
import Aqa.Db.OneClient

namespace Aqa

open Aqa.Lib

namespace ClientWorld

variable {s₀ s s' : Session} {earlier : List Record} {w u : ClientWorld} {i : Nat} {c d : Client}
  {cs : List DbCall} {r : Record}

/-! ## The steps of a get -/

/-- What a step does: pages are not lost, and while page numbers fit 32 bits the clients stay beside one
client, which makes the calls that take effect. -/
structure Goes (s₀ : Session) (w : ClientWorld) (s : Session) (u : ClientWorld) (s' : Session) :
    Prop where
  pages : s.pager.pages.length ≤ s'.pager.pages.length
  capacity : s'.capacity = s.capacity
  linear : s'.pager.pages.length < 2 ^ 32 → ∀ cs, Linear s₀ w s cs →
    Linear s₀ u s' (cs ++ w.since u)


section Get

variable {point : ClientPoint} {before : List Record} {db : Database}

/-- A step at which no call takes effect. -/
theorem goes_goOn {point' : ClientPoint} (hi : w.clients[i]? = some ⟨point, before⟩)
    (hsame : s.Alike s') (hc : Client.caching ⟨point, before⟩ = none)
    (hd : Client.caching ⟨point', before⟩ = none)
    (hmissed : ∀ key, Client.missed ⟨point', before⟩ = some key →
      Client.missed ⟨point, before⟩ = some key ∨ cachedValue s.cached key = none)
    (habsent : ∀ key, Client.absent ⟨point', before⟩ = some key → s.found key = none) :
    Goes s₀ w s (w.goOn i ⟨point, before⟩ db point') s' := by
  obtain ⟨hpages, hcapacity, hreads⟩ := hsame
  refine ⟨hpages, hcapacity, fun hlt cs h => ?_⟩
  have hsince : w.since (w.goOn i ⟨point, before⟩ db point') = [] := since_of_same rfl rfl
  rw [hsince, List.append_nil]
  refine h.keep (d := ⟨point', before⟩) hi rfl (hreads hlt) hc hd (fun key hkey hfound => ?_) habsent
    rfl rfl
  rcases hmissed key hkey with hold | hnone
  · exact h.missed _ (List.mem_of_getElem? hi) key hold hfound
  · exact hnone

/-- A get has its answer. -/
theorem goes_answered (hinv : Inv s₀ earlier w s) (hi : w.clients[i]? = some ⟨point, before⟩)
    (hmode : Client.mode ⟨point, before⟩ = .shared) {key : Bytes} {value : Option Bytes}
    (hpages : s.pager.pages.length ≤ s'.pager.pages.length) (hcapacity : s'.capacity = s.capacity)
    (hanswer : s'.pager.pages.length < 2 ^ 32 →
      s.answer key = value ∧ (s.got key).SameReads s') :
    Goes s₀ w s (w.answered i ⟨point, before⟩ db key value) s' := by
  refine ⟨hpages, hcapacity, fun hlt cs h => ?_⟩
  obtain ⟨hvalue, hreads⟩ := hanswer hlt
  rw [since_answered]
  exact h.answered hinv.apart hi hmode hinv.holds.cache.nodup hvalue hreads

/-- A get that finds nothing. -/
theorem goes_answered_none (hinv : Inv s₀ earlier w s) (hi : w.clients[i]? = some ⟨point, before⟩)
    (hmode : Client.mode ⟨point, before⟩ = .shared) {key : Bytes} (hsame : s.Alike s')
    (hmissed : Client.missed ⟨point, before⟩ = some key)
    (hfound : (∀ k, Client.absent ⟨point, before⟩ = some k → s.found k = none) → s.found key = none) :
    Goes s₀ w s (w.answered i ⟨point, before⟩ db key none) s' := by
  obtain ⟨hpages, hcapacity, hreads⟩ := hsame
  refine ⟨hpages, hcapacity, fun hlt cs h => ?_⟩
  have hmem := List.mem_of_getElem? hi
  have hnone := hfound (h.absent _ hmem)
  have hanswer : s.answer key = none := by
    rw [Session.answer, h.missed _ hmem key hmissed hnone, hnone]
    rfl
  have hgot : s.got key = s := by
    unfold Session.got
    rw [hanswer]
  rw [since_answered]
  exact h.answered hinv.apart hi hmode hinv.holds.cache.nodup hanswer (by rw [hgot]; exact hreads hlt)

/-- The probe of the record cache. -/
theorem goes_probing {key : Bytes} (hinv : Inv s₀ earlier w s)
    (hi : w.clients[i]? = some ⟨.probing key, before⟩)
    (hinv' : Inv s₀ earlier (w.stepOf i ⟨.probing key, before⟩) s') :
    Goes s₀ w s (w.stepOf i ⟨.probing key, before⟩) s' := by
  obtain ⟨hvalue, hholds⟩ := hinv.holds.cacheGet key
  obtain ⟨⟨out, cache⟩, hget⟩ : ∃ out, w.db.recordCache.get key = out := ⟨_, rfl⟩
  rw [hget] at hvalue hholds
  dsimp only at hvalue hholds
  cases hcached : cachedValue s.cached key with
  | some value =>
      rw [hcached] at hvalue hholds
      subst hvalue
      have hstep : w.stepOf i ⟨.probing key, before⟩ =
          w.answered i ⟨.probing key, before⟩ { w.db with recordCache := cache } key
            (some value) := by
        unfold stepOf
        dsimp only
        rw [hget]
      have hanswer : s.answer key = some value := by
        rw [Session.answer, hcached]
        rfl
      have hgot : s.got key = s.used key value := by
        unfold Session.got
        rw [hanswer]
      rw [hstep] at hinv' ⊢
      have halike : (s.used key value).Alike s' := hholds.alike hinv'.holds rfl rfl rfl
      exact goes_answered hinv hi rfl halike.pages halike.capacity fun hlt =>
        ⟨hanswer, by rw [hgot]; exact halike.reads hlt⟩
  | none =>
      rw [hcached] at hvalue hholds
      subst hvalue
      have hstep : w.stepOf i ⟨.probing key, before⟩ =
          w.goOn i ⟨.probing key, before⟩ { w.db with recordCache := cache } (.looking key) := by
        unfold stepOf
        dsimp only
        rw [hget]
      rw [hstep] at hinv' ⊢
      refine goes_goOn hi (hholds.alike hinv'.holds rfl rfl rfl) rfl rfl (fun k hk => ?_)
        (by simp [Client.absent])
      rw [← Option.some.inj hk]
      exact Or.inr hcached

theorem goes_looking {key : Bytes} (hinv : Inv s₀ earlier w s)
    (hi : w.clients[i]? = some ⟨.looking key, before⟩)
    (hinv' : Inv s₀ earlier (w.stepOf i ⟨.looking key, before⟩) s') :
    Goes s₀ w s (w.stepOf i ⟨.looking key, before⟩) s' := by
  have hlookup := hinv.holds.indexLookup key
  unfold stepOf at hinv' ⊢
  dsimp only at hinv' ⊢
  rw [hlookup] at hinv' ⊢
  cases hrid : lastWrite s.placed key with
  | none =>
      rw [hrid] at hinv'
      apply goes_answered_none hinv hi rfl (hinv.holds.alike hinv'.holds rfl rfl rfl) rfl
      intro _
      rw [Session.found, hrid]
      rfl
  | some rid =>
      rw [hrid] at hinv'
      exact goes_goOn hi (hinv.holds.alike hinv'.holds rfl rfl rfl) rfl rfl (fun k hk => Or.inl hk)
        (by simp [Client.absent])

theorem goes_fetching {key : Bytes} {rid : RecordID} (hinv : Inv s₀ earlier w s)
    (hi : w.clients[i]? = some ⟨.fetching key rid, before⟩)
    (hinv' : Inv s₀ earlier (w.stepOf i ⟨.fetching key rid, before⟩) s') :
    Goes s₀ w s (w.stepOf i ⟨.fetching key rid, before⟩) s' := by
  obtain ⟨-, hrid⟩ : before = w.stored ∧ lastWrite s.placed key = some rid :=
    hinv.knows _ (List.mem_of_getElem? hi)
  unfold stepOf at hinv' ⊢
  dsimp only at hinv' ⊢
  by_cases hout : rid.pageId ≥ w.db.engine.getTotalPages
  · rw [if_pos hout] at hinv' ⊢
    apply goes_answered_none hinv hi rfl (hinv.holds.alike hinv'.holds rfl rfl rfl) rfl
    intro _
    rw [hinv.holds.total] at hout
    rw [Session.found, hrid, Option.bind_some, Session.recordAt, if_neg (Nat.not_lt.mpr hout)]
    rfl
  · have hlt : rid.pageId < w.db.engine.getTotalPages := Nat.not_le.mp hout
    have htotal := hinv.holds.total
    have hpos : 0 < s.frames := hinv.frame.resolve_left (by omega)
    rw [if_neg hout] at hinv' ⊢
    rcases StorageEngine.fetchPage_outcome (hinv.holds.ready hpos) hlt with
      ⟨-, page, e, heq, hf⟩ | ⟨-, -, e, heq, -, hfile, -, -⟩
    · rw [heq] at hinv' ⊢
      exact goes_goOn hi (hinv.holds.alike hinv'.holds rfl rfl hf.file) rfl rfl (fun k hk => Or.inl hk)
        (by simp [Client.absent])
    · rw [heq] at hinv' ⊢
      exact goes_goOn hi (hinv.holds.alike hinv'.holds rfl rfl hfile) rfl rfl
        (by simp [Client.missed]) (by simp [Client.absent])

/-- The slot of a pinned page is read. -/
theorem goes_parsing {key : Bytes} {rid : RecordID} {page : PageHandle} (hinv : Inv s₀ earlier w s)
    (hi : w.clients[i]? = some ⟨.parsing key rid page, before⟩)
    (hinv' : Inv s₀ earlier (w.stepOf i ⟨.parsing key rid page, before⟩) s') :
    Goes s₀ w s (w.stepOf i ⟨.parsing key rid page, before⟩) s' := by
  obtain ⟨-, hrid, hlt, hpage, hres⟩ : before = w.stored ∧ lastWrite s.placed key = some rid ∧
      rid.pageId < s.total ∧ page.pageId = rid.pageId ∧
        w.db.engine.cache.pageMap.lookup rid.pageId = some page.frame :=
    hinv.knows _ (List.mem_of_getElem? hi)
  have hshows : w.db.engine.pageOf page = w.db.engine.view rid.pageId := by
    have hframe := hinv.holds.coherent.shows rid.pageId page.frame hres
    unfold StorageEngine.pageOf PageCache.pageOf
    rw [List.getD_eq_getElem?_getD, hframe, Option.getD_some]
    rfl
  refine goes_goOn hi (hinv.holds.alike hinv'.holds rfl rfl rfl) rfl rfl (fun k hk => Or.inl hk)
    fun k hk => ?_
  rw [hshows, Slotted.parseRecord_of_holds (hinv.holds.view_holds hlt)] at hk
  cases hrec : (shown s.mapped rid.pageId)[rid.slotId]? with
  | some r =>
      rw [hrec] at hk
      exact absurd hk (by simp [Client.absent])
  | none =>
      rw [hrec] at hk
      rw [← Option.some.inj hk, Session.found, hrid, Option.bind_some, Session.recordAt, if_pos hlt,
        hrec]
      rfl

theorem goes_releasing {key : Bytes} {rid : RecordID} {page : PageHandle} {read : RecordRead}
    (hinv : Inv s₀ earlier w s)
    (hi : w.clients[i]? = some ⟨.releasing key rid page read, before⟩)
    (hinv' : Inv s₀ earlier (w.stepOf i ⟨.releasing key rid page read, before⟩) s') :
    Goes s₀ w s (w.stepOf i ⟨.releasing key rid page read, before⟩) s' := by
  obtain ⟨-, hrid, hlt, -, hread⟩ : before = w.stored ∧
      lastWrite s.placed key = some rid ∧ rid.pageId < s.total ∧ page.pageId = rid.pageId ∧
        ∀ record, read = .found record → s.recordAt rid = some record :=
    hinv.knows _ (List.mem_of_getElem? hi)
  have hpos : 0 < s.frames := hinv.frame.resolve_left (by omega)
  obtain ⟨-, hfile⟩ := StorageEngine.releasePage_spec (hinv.holds.ready hpos) page
  unfold stepOf at hinv' ⊢
  cases read with
  | absent =>
      exact goes_answered_none hinv hi rfl (hinv.holds.alike hinv'.holds rfl rfl hfile) rfl
        fun habsent => habsent key rfl
  | outside =>
      exact goes_goOn hi (hinv.holds.alike hinv'.holds rfl rfl hfile) rfl rfl
        (by simp [Client.missed]) (by simp [Client.absent])
  | found record =>
      dsimp only at hinv' ⊢
      by_cases hkey : record.key = key
      · rw [if_pos hkey] at hinv' ⊢
        exact goes_goOn hi (hinv.holds.alike hinv'.holds rfl rfl hfile) rfl rfl
          (fun k hk => Or.inl hk) (by simp [Client.absent])
      · rw [if_neg hkey] at hinv' ⊢
        refine goes_answered_none hinv hi rfl (hinv.holds.alike hinv'.holds rfl rfl hfile) rfl
          fun _ => ?_
        rw [Session.found, hrid, Option.bind_some, hread record rfl, Option.bind_some,
          Session.valueFor, if_neg hkey]

/-- The record cache is filled: what it holds of the key by now is what the pages say. -/
theorem goes_filling {key value : Bytes} (hinv : Inv s₀ earlier w s) (hcap : 1 ≤ s.capacity)
    (hi : w.clients[i]? = some ⟨.filling key value, before⟩)
    (hinv' : Inv s₀ earlier (w.stepOf i ⟨.filling key value, before⟩) s') :
    Goes s₀ w s (w.stepOf i ⟨.filling key value, before⟩) s' := by
  obtain ⟨-, hfound⟩ : before = w.stored ∧ s.found key = some value :=
    hinv.knows _ (List.mem_of_getElem? hi)
  obtain ⟨db, heq, hholds, -⟩ := hinv.holds.cachePut hcap key value
  have hstep : w.stepOf i ⟨.filling key value, before⟩ =
      w.answered i ⟨.filling key value, before⟩ db key (some value) := by
    unfold stepOf
    dsimp only
    rw [heq]
  rw [hstep] at hinv' ⊢
  have halike : (s.used key value).Alike s' := hholds.alike hinv'.holds rfl rfl rfl
  have hanswer : s.pager.pages.length < 2 ^ 32 → s.answer key = some value := by
    intro hlt
    have hfresh := hinv.fresh hlt
    rw [Session.answer]
    cases hcached : cachedValue s.cached key with
    | none => rw [Option.none_or, hfound]
    | some v =>
        have hlast := hfresh.cached.newest key v hcached
        rw [hfresh.found key value hfound] at hlast
        rw [Option.some_or, ← hlast]
  apply goes_answered hinv hi rfl halike.pages halike.capacity
  intro hlt
  have hanswered := hanswer (lt_of_le_of_lt halike.pages hlt)
  refine ⟨hanswered, ?_⟩
  have hgot : s.got key = s.used key value := by
    unfold Session.got
    rw [hanswered]
  rw [hgot]
  exact halike.reads hlt

end Get

/-! ## The steps of a put -/

section Put

variable {before : List Record}

theorem goes_logging (hinv : Inv s₀ earlier w s) (hi : w.clients[i]? = some ⟨.logging r, before⟩)
    (hinv' : Inv s₀ earlier (w.stepOf i ⟨.logging r, before⟩) s') :
    Goes s₀ w s (w.stepOf i ⟨.logging r, before⟩) s' := by
  obtain ⟨db, heq, hholds⟩ := hinv.holds.walAppend r.key r.value
  unfold stepOf at hinv' ⊢
  dsimp only at hinv' ⊢
  rw [heq] at hinv' ⊢
  have hlogged : s.Alike (s.logged r.key r.value) := 
    ⟨le_rfl, rfl, fun _ => ⟨rfl, rfl, fun _ => rfl⟩⟩
  exact goes_goOn hi (hlogged.trans (hholds.alike hinv'.holds rfl rfl rfl)) rfl rfl
    (by simp [Client.missed]) (by simp [Client.absent])

/-- The record goes to a page behind the mapping. -/
theorem goes_appending (hinv : Inv s₀ earlier w s) (hr : Record.need r ≤ pageRoom)
    (hi : w.clients[i]? = some ⟨.appending r, before⟩)
    (hinv' : Inv s₀ earlier (w.stepOf i ⟨.appending r, before⟩) s') :
    Goes s₀ w s (w.stepOf i ⟨.appending r, before⟩) s' := by
  obtain ⟨db, hholds, heq⟩ := hinv.holds.writerAppend r
  rw [if_pos hr] at heq
  unfold stepOf at hinv' ⊢
  dsimp only at hinv' ⊢
  rw [heq] at hinv' ⊢
  have happended : s.Alike (s.appended r) :=
    ⟨(Pager.prefix_pages_append _ _).length_le, rfl, fun _ => ⟨rfl, rfl, fun _ => rfl⟩⟩
  exact goes_goOn hi (happended.trans (hholds.alike hinv'.holds rfl rfl rfl)) rfl rfl
    (by simp [Client.missed]) (by simp [Client.absent])

/-- The index learns of the record, which no get finds by it. -/
theorem goes_indexing {rid : RecordID} (hinv : Inv s₀ earlier w s)
    (hi : w.clients[i]? = some ⟨.indexing r rid, before⟩)
    (hinv' : Inv s₀ earlier (w.stepOf i ⟨.indexing r rid, before⟩) s') :
    Goes s₀ w s (w.stepOf i ⟨.indexing r rid, before⟩) s' := by
  obtain ⟨-, hrid⟩ : Session.HasLogged s₀ s w.sections ∧
      rid = StorageWriter.lastRid 0 s.pager := hinv.knows _ (List.mem_of_getElem? hi)
  obtain ⟨db, heq, hholds⟩ := hinv.holds.indexInsert r.key rid
  unfold stepOf at hinv' ⊢
  dsimp only at hinv' ⊢
  rw [heq] at hinv' ⊢
  have halike : (s.indexed r.key rid).Alike s' := hholds.alike hinv'.holds rfl rfl rfl
  refine ⟨halike.pages, halike.capacity, fun hlt cs h => ?_⟩
  have hreads := halike.reads hlt
  have hsince : w.since (w.goOn i ⟨.indexing r rid, before⟩ db (.caching r)) = [] :=
    since_of_same rfl rfl
  rw [hsince, List.append_nil]
  refine h.indexed hinv.apart hi rfl rfl rfl (rfl : _ = some r) hreads.cached hreads.capacity
    (fun k => ?_) rfl rfl
  rw [hreads.found]
  exact found_indexed hrid hinv.holds.kept.length_le (lt_of_le_of_lt halike.pages hlt) r.key k

/-- Behind the puts that have returned, one client has the pages of the clients. -/
theorem Serial.pages_run {db₀ db' : Database} (h : Serial db₀ w db') (hdb₀ : db₀.Holds (fun _ => 0) s₀)
    (hf : s₀.total = 0 ∨ 0 < s₀.frames) (hinv : Inv s₀ earlier w s)
    (hquiet : ∀ c ∈ w.clients, c.reached = none) {cs : List DbCall} (hputs : putsOf cs = w.stored) :
    (s₀.run cs).pager.pages = s.pager.pages := by
  obtain ⟨answers, hcalls⟩ := h.calls
  obtain ⟨-, hholds, -⟩ := hdb₀.calls_ok _ hf hcalls
  have hpager : (s₀.run cs).pager = (s₀.run (w.stored.map Record.putCall)).pager := by
    rw [Session.pager_run, Session.pager_run, hputs, putsOf_putCall]
  rw [hpager]
  exact hinv.holds.pages_unique hholds (h.quiet hquiet).bytes.symm

/-- A put leads its key away from what one client finds. -/
theorem found_put (t : Session) (hkept : t.mapped.length ≤ t.pager.pages.length) (r : Record)
    (hlt : (t.put r).pager.pages.length < 2 ^ 32) (k : Bytes) :
    (t.put r).found k = if r.key = k then none else t.found k := by
  have hle : t.pager.pages.length ≤ (t.put r).pager.pages.length :=
    (Pager.prefix_pages_append _ _).length_le
  exact found_indexed (s := (t.logged r.key r.value).appended r) rfl (le_trans hkept hle) hlt r.key k

/-- The put returns. -/
theorem goes_caching {db₀ db' : Database} (hdb₀ : db₀.Holds (fun _ => 0) s₀)
    (hf : s₀.total = 0 ∨ 0 < s₀.frames) (hinv : Inv s₀ earlier w s) (hcap : 1 ≤ s.capacity)
    (hi : w.clients[i]? = some ⟨.caching r, before⟩)
    (hinv' : Inv s₀ earlier (w.stepOf i ⟨.caching r, before⟩) s')
    (hserial : Serial db₀ (w.stepOf i ⟨.caching r, before⟩) db') :
    Goes s₀ w s (w.stepOf i ⟨.caching r, before⟩) s' := by
  obtain ⟨db, heq, hholds, -⟩ := hinv.holds.cachePut hcap r.key r.value
  have hstep : w.stepOf i ⟨.caching r, before⟩ = w.returned i ⟨.caching r, before⟩ db r := by
    unfold stepOf
    dsimp only
    rw [heq]
  rw [hstep] at hinv' hserial ⊢
  have halike : (s.used r.key r.value).Alike s' := hholds.alike hinv'.holds rfl rfl rfl
  have hquiet : ∀ x ∈ (w.returned i ⟨.caching r, before⟩ db r).clients, x.reached = none := by
    intro x hx
    rcases Serial.others hinv.apart hi rfl hx with rfl | ⟨hnone, -⟩
    · rfl
    · exact hnone
  refine ⟨halike.pages, halike.capacity, fun hlt cs h => ?_⟩
  rw [since_returned]
  apply h.returned hinv.apart hi (halike.reads hlt)
  intro k
  have hputs : putsOf (cs ++ [r.putCall]) = (w.returned i ⟨.caching r, before⟩ db r).stored := by
    rw [putsOf_concat, h.puts]
    rfl
  have hpages := hserial.pages_run hdb₀ hf hinv' hquiet hputs
  rw [Session.run_concat] at hpages
  have hmapped := (Session.run_frame s₀ cs).1
  refine found_put _ ?_ r (by rw [show ((s₀.run cs).put r).pager.pages = _ from hpages]; exact hlt) k
  rw [hmapped]
  exact le_trans hdb₀.kept.length_le (Session.length_pages_run s₀ cs)

end Put

/-! ## Runs -/

/-- A world that has changed nothing but who holds the mutex. -/
theorem goes_unlocking {point point' : ClientPoint} {before : List Record} (hinv : Inv s₀ earlier w s)
    (hi : w.clients[i]? = some ⟨point, before⟩)
    (hinv' : Inv s₀ earlier (w.goOn i ⟨point, before⟩ w.db point') s')
    (hc : Client.caching ⟨point, before⟩ = none) (hd : Client.caching ⟨point', before⟩ = none)
    (hmissed : Client.missed ⟨point', before⟩ = none)
    (habsent : Client.absent ⟨point', before⟩ = none) :
    Goes s₀ w s (w.goOn i ⟨point, before⟩ w.db point') s' :=
  goes_goOn hi (hinv.holds.alike hinv'.holds rfl rfl rfl) hc hd (by simp [hmissed]) (by simp [habsent])

theorem goes_same (hinv : Inv s₀ earlier w s) (hinv' : Inv s₀ earlier w s') : Goes s₀ w s w s' := by
  obtain ⟨hpages, hcapacity, hreads⟩ := hinv.holds.alike hinv'.holds rfl rfl rfl
  refine ⟨hpages, hcapacity, fun hlt cs h => ?_⟩
  have hsince : w.since w = [] := since_of_same rfl rfl
  rw [hsince, List.append_nil]
  exact h.congr (hreads hlt)

theorem goes_begin (hinv : Inv s₀ earlier w s) (i : Nat) (call : DbCall)
    (hinv' : Inv s₀ earlier (w.begin i call) s') : Goes s₀ w s (w.begin i call) s' := by
  rcases w.begin_cases i call with heq | ⟨before, d, hi, hdb, hclients, hanswers, hstored, hcaching,
    hmissed, habsent⟩
  · rw [heq] at hinv' ⊢
    exact goes_same hinv hinv'
  · have halike : s.Alike s' := hinv.holds.alike hinv'.holds (by rw [hdb]) (by rw [hdb]) (by rw [hdb])
    refine ⟨halike.pages, halike.capacity, fun hlt cs h => ?_⟩
    rw [since_of_same hanswers hstored, List.append_nil]
    exact h.keep hi hclients (halike.reads hlt) rfl hcaching (by simp [hmissed]) (by simp [habsent])
      hanswers hstored

/-- **Every turn keeps the clients beside one client.** -/
theorem goes_turn {db₀ db' db'' : Database} (hdb₀ : db₀.Holds (fun _ => 0) s₀)
    (hf : s₀.total = 0 ∨ 0 < s₀.frames) (hinv : Inv s₀ earlier w s) (hcap : 1 ≤ s.capacity)
    (hserial : Serial db₀ w db') {t : Turn} (hinv' : Inv s₀ earlier (w.turn t) s')
    (hserial' : Serial db₀ (w.turn t) db'') : Goes s₀ w s (w.turn t) s' := by
  cases t with
  | begin i call => exact goes_begin hinv i call hinv'
  | step i =>
      unfold ClientWorld.turn at hinv' hserial' ⊢
      dsimp only at hinv' hserial' ⊢
      cases hi : w.clients[i]? with
      | none =>
          rw [hi] at hinv'
          exact goes_same hinv hinv'
      | some c =>
          rw [hi] at hinv' hserial'
          obtain ⟨point, before⟩ := c
          cases point with
          | idle => exact goes_same hinv hinv'
          | probing key => exact goes_probing hinv hi hinv'
          | looking key => exact goes_looking hinv hi hinv'
          | fetching key rid => exact goes_fetching hinv hi hinv'
          | parsing key rid page => exact goes_parsing hinv hi hinv'
          | releasing key rid page read => exact goes_releasing hinv hi hinv'
          | filling key value => exact goes_filling hinv hcap hi hinv'
          | unlockingShared => exact goes_unlocking hinv hi hinv' rfl rfl rfl rfl
          | logging r => exact goes_logging hinv hi hinv'
          | appending r =>
              exact goes_appending hinv (hserial.fits _ (List.mem_of_getElem? hi) r rfl) hi hinv'
          | indexing r rid => exact goes_indexing hinv hi hinv'
          | caching r => exact goes_caching hdb₀ hf hinv hcap hi hinv' hserial'
          | unlocking => exact goes_unlocking hinv hi hinv' rfl rfl rfl rfl

/-- The run of a schedule. -/
theorem linear_run {db₀ db' : Database} (hdb₀ : db₀.Holds (fun _ => 0) s₀)
    (hf : s₀.total = 0 ∨ 0 < s₀.frames) (hinv : Inv s₀ earlier w s) (hcap : 1 ≤ s.capacity)
    (hserial : Serial db₀ w db') (schedule : List Turn)
    (hfits : ∀ i key value, Turn.begin i (.put key value) ∈ schedule →
      Record.need ⟨key, value⟩ ≤ pageRoom) :
    ∃ s', Inv s₀ earlier (w.run schedule) s' ∧ s.pager.pages.length ≤ s'.pager.pages.length ∧
      (s'.pager.pages.length < 2 ^ 32 → ∀ cs, Linear s₀ w s cs →
        Linear s₀ (w.run schedule) s' (cs ++ effects schedule w)) := by
  induction schedule generalizing w s db' with
  | nil =>
      refine ⟨s, hinv, le_rfl, fun _ cs h => ?_⟩
      rw [effects, List.append_nil]
      exact h
  | cons t schedule ih =>
      obtain ⟨s₁, hinv₁⟩ := hinv.turn t
      obtain ⟨db₁, hserial₁⟩ := hserial.turn hinv fun i key value heq =>
        hfits i key value (by rw [← heq]; exact List.mem_cons_self)
      have hgoes := goes_turn hdb₀ hf hinv hcap hserial hinv₁ hserial₁
      obtain ⟨s', hinv', hle, hlinear⟩ := ih hinv₁ (by rw [hgoes.capacity]; exact hcap) hserial₁
        fun i key value hmem => hfits i key value (List.mem_cons_of_mem t hmem)
      refine ⟨s', hinv', le_trans hgoes.pages hle, fun hlt cs h => ?_⟩
      rw [effects, ← List.append_assoc]
      exact hlinear hlt _ (hgoes.linear (lt_of_le_of_lt hle hlt) cs h)

/-- At the start nothing has been called. -/
theorem linear_start (s₀ : Session) (db : Database) (n : Nat) : Linear s₀ (start db n) s₀ [] := by
  have hidle : ∀ c ∈ (start db n).clients, c = ⟨.idle, []⟩ := fun c hc => List.eq_of_mem_replicate hc
  refine ⟨rfl, rfl, fun _ _ => rfl, ?_, ?_, ?_, rfl, rfl⟩
  · intro c hc r hr
    rw [hidle c hc] at hr
    exact absurd hr (by simp [Client.caching])
  · intro c hc key hkey
    rw [hidle c hc] at hkey
    exact absurd hkey (by simp [Client.missed])
  · intro c hc key hkey
    rw [hidle c hc] at hkey
    exact absurd hkey (by simp [Client.absent])

end ClientWorld

end Aqa
