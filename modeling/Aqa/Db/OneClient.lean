/-
# Aqa.Db.OneClient — concurrent clients beside one client.

A call takes effect in one step of its client: a get when it has its answer, a put when it returns
(`since`). `effects` lists the calls of a schedule in the order of these steps. `Linear` says that the
session behind the clients reads like that of a single client which has made these calls: what a client
has seen before its call takes effect is still so then, since no put has come between, and other gets
enter into the record cache only what the pages say.
-/
import Aqa.Db.SerialPuts

namespace Aqa

open Aqa.Lib

/-! ## Sessions that read alike -/

/-- The record cache, the index and the mapped pages say the same. -/
structure Session.SameReads (s s' : Session) : Prop where
  cached : s'.cached = s.cached
  capacity : s'.capacity = s.capacity
  found : ∀ k, s'.found k = s.found k

/-- No page less, and the same to read as long as page numbers fit 32 bits. -/
structure Session.Alike (s s' : Session) : Prop where
  pages : s.pager.pages.length ≤ s'.pager.pages.length
  capacity : s'.capacity = s.capacity
  reads : s'.pager.pages.length < 2 ^ 32 → s.SameReads s'

theorem Session.Alike.trans {s₁ s₂ s₃ : Session} (h : s₁.Alike s₂) (h' : s₂.Alike s₃) :
    s₁.Alike s₃ := by
  refine ⟨le_trans h.pages h'.pages, h'.capacity.trans h.capacity, fun hlt => ?_⟩
  have hreads' := h'.reads hlt
  have hreads := h.reads (lt_of_le_of_lt h'.pages hlt)
  exact ⟨hreads'.cached.trans hreads.cached, hreads'.capacity.trans hreads.capacity,
    fun k => (hreads'.found k).trans (hreads.found k)⟩

section Unique

variable {db db' : Database} {pins pins' : Nat → Nat} {s s' : Session}

theorem Database.Holds.pages_unique (h : db.Holds pins s) (h' : db'.Holds pins' s')
    (hbytes : db'.engine.file.bytes = db.engine.file.bytes) : s'.pager.pages = s.pager.pages := by
  have hfile := h'.writer.file
  rw [hbytes] at hfile
  exact hfile.unique h.writer.file

/-- Databases with the same record cache, index and data file stand for sessions that read alike. -/
theorem Database.Holds.alike (h : db.Holds pins s) (h' : db'.Holds pins' s')
    (hcache : db'.recordCache = db.recordCache) (hindex : db'.index = db.index)
    (hfile : db'.engine.file = db.engine.file) : s.Alike s' := by
  have hpages := h.pages_unique h' (congrArg MappedFile.bytes hfile)
  have hcapacity : s'.capacity = s.capacity := by rw [← h.capacity, ← h'.capacity, hcache]
  refine ⟨by rw [hpages], hcapacity, fun hlt => ?_⟩
  rw [hpages] at hlt
  have htotal : s'.total = s.total := by
    rw [← h.total, ← h'.total]
    exact congrArg MappedFile.pageCount hfile
  -- the mapped pages are first pages of the file, and as many
  have hkept := h.kept
  have hkept' := h'.kept
  rw [hpages] at hkept'
  have hlength : s'.mapped.length = s.mapped.length := by
    unfold Session.total at htotal
    rw [u32_of_lt (lt_of_le_of_lt hkept.length_le hlt),
      u32_of_lt (lt_of_le_of_lt hkept'.length_le hlt)] at htotal
    exact htotal
  have hmapped : s'.mapped = s.mapped := by
    rw [List.prefix_iff_eq_take.mp hkept, List.prefix_iff_eq_take.mp hkept', hlength]
  refine ⟨?_, hcapacity, fun k => ?_⟩
  · rw [← h.cache.entries, ← h'.cache.entries, hcache]
  · have hplaced : lastWrite s'.placed k = lastWrite s.placed k := by
      rw [← h.indexLookup, ← h'.indexLookup, hindex]
    unfold Session.found Session.recordAt Session.total
    rw [hplaced, hmapped]

end Unique

/-! ## The order in which calls take effect -/

/-- What the gets among some calls answered, with their keys. -/
def getAnswers : List DbCall → List (Option Bytes) → List (Bytes × Option Bytes)
  | .get key :: cs, a :: as => (key, a) :: getAnswers cs as
  | .put _ _ :: cs, _ :: as => getAnswers cs as
  | _, _ => []

/-- What the gets among some calls of a session answer. -/
def Session.answersOf (s : Session) : List DbCall → List (Bytes × Option Bytes)
  | [] => []
  | .get key :: cs => (key, s.answer key) :: (s.got key).answersOf cs
  | .put key value :: cs => (s.put ⟨key, value⟩).answersOf cs

namespace Session

/-- A get changes nothing that index and pages say. -/
theorem found_got (s : Session) (key k : Bytes) : (s.got key).found k = s.found k := by
  obtain ⟨hmapped, -, -, -, hplaced, -⟩ := s.got_frame key
  exact found_congr hmapped hplaced k

theorem answersOf_concat (s : Session) (cs : List DbCall) (c : DbCall) :
    s.answersOf (cs ++ [c]) = s.answersOf cs ++ (s.run cs).answersOf [c] := by
  induction cs generalizing s with
  | nil => rfl
  | cons a cs ih =>
      cases a with
      | get key => exact congrArg (List.cons _) (ih (s.got key))
      | put key value => exact ih (s.put ⟨key, value⟩)

theorem pager_run (s : Session) (cs : List DbCall) :
    (s.run cs).pager = Pager.appendAll Record.need pageRoom s.pager (putsOf cs) := by
  induction cs using List.reverseRecOn with
  | nil => rfl
  | append_singleton cs c ih =>
      rw [run_concat, putsOf_concat]
      cases c with
      | get key =>
          rw [show putsOf [DbCall.get key] = [] from rfl, List.append_nil, ← ih]
          exact ((s.run cs).got_frame key).2.1
      | put key value =>
          rw [show putsOf [DbCall.put key value] = [⟨key, value⟩] from rfl, Pager.appendAll_concat, ← ih]
          rfl

end Session

theorem Database.Holds.getAnswers {cs : List DbCall} {answers : List (Option Bytes)} {db db' : Database}
    {s : Session} (h : db.Holds (fun _ => 0) s) (hf : s.total = 0 ∨ 0 < s.frames)
    (heq : Database.calls cs db = .ok answers db') : getAnswers cs answers = s.answersOf cs := by
  induction cs generalizing db s answers with
  | nil =>
      cases heq
      rfl
  | cons c cs ih =>
      simp only [Database.calls, bind, EStateM.bind] at heq
      cases hcall : Database.call c db with
      | error err db₁ =>
          rw [hcall] at heq
          exact absurd heq (by simp)
      | ok a db₁ =>
          rw [hcall] at heq
          dsimp only at heq
          cases hcalls : Database.calls cs db₁ with
          | error err db₂ =>
              rw [hcalls] at heq
              exact absurd heq (by simp)
          | ok as db₂ =>
              rw [hcalls] at heq
              cases heq
              obtain ⟨ha, h₁, -⟩ := h.call_ok hf hcall
              obtain ⟨hmapped, -, hframes⟩ := s.run_frame [c]
              have hf₁ : (s.after c).total = 0 ∨ 0 < (s.after c).frames := by
                have htotal : (s.after c).total = s.total :=
                  congrArg (fun m : List (List Record) => u32 m.length) hmapped
                rw [htotal, show (s.after c).frames = s.frames from hframes]
                exact hf
              have hrest := ih h₁ hf₁ hcalls
              cases c with
              | get key =>
                  rw [ha]
                  exact congrArg (List.cons _) hrest
              | put key value => exact hrest

/-- The call a client is in. -/
def Client.calling (c : Client) : Option DbCall :=
  match c.point with
  | .probing key | .looking key | .fetching key _ | .parsing key _ _ | .releasing key _ _ _
  | .filling key _ => some (.get key)
  | .logging r | .appending r | .indexing r _ | .caching r => some r.putCall
  | .idle | .unlockingShared | .unlocking => none

/-- The record a client is about to enter into the record cache, which the index leads nowhere. -/
def Client.caching (c : Client) : Option Record :=
  match c.point with
  | .caching r => some r
  | _ => none

/-- The key that a client has not found in the record cache. -/
def Client.missed (c : Client) : Option Bytes :=
  match c.point with
  | .looking key | .fetching key _ | .parsing key _ _ | .releasing key _ _ _ | .filling key _ =>
      some key
  | _ => none

/-- The key for which a client has read an empty slot. -/
def Client.absent (c : Client) : Option Bytes :=
  match c.point with
  | .releasing key _ _ .absent => some key
  | _ => none

theorem Client.caching_of_not_exclusive {c : Client} (h : c.mode ≠ .exclusive) : c.caching = none := by
  obtain ⟨point, before⟩ := c
  cases point with
  | caching r => exact absurd rfl h
  | _ => rfl

theorem Client.missed_of_not_shared {c : Client} (h : c.mode ≠ .shared) :
    c.missed = none ∧ c.absent = none := by
  obtain ⟨point, before⟩ := c
  cases point with
  | looking key | fetching key rid | parsing key rid page | releasing key rid page read
  | filling key value => exact absurd rfl h
  | _ => exact ⟨rfl, rfl⟩

namespace ClientWorld

/-- The calls that have taken effect between two worlds. -/
def since (w u : ClientWorld) : List DbCall :=
  ((u.answers.drop w.answers.length).map fun a => .get a.key) ++
    (u.stored.drop w.stored.length).map Record.putCall

/-- The calls of a schedule in the order in which they take effect. -/
def effects : List Turn → ClientWorld → List DbCall
  | [], _ => []
  | t :: ts, w => w.since (w.turn t) ++ effects ts (w.turn t)

variable {w u : ClientWorld} {i : Nat} {c : Client}

theorem since_of_same (hanswers : u.answers = w.answers) (hstored : u.stored = w.stored) :
    w.since u = [] := by
  rw [since, hanswers, hstored, List.drop_length, List.drop_length]
  rfl

theorem since_answered (db : Database) (key : Bytes) (value : Option Bytes) :
    w.since (w.answered i c db key value) = [.get key] := by
  have hdrop : (w.answered i c db key value).answers.drop w.answers.length =
      [⟨key, c.before, value⟩] := List.drop_left
  have hnone : (w.answered i c db key value).stored.drop w.stored.length = [] := List.drop_length
  rw [since, hdrop, hnone]
  rfl

theorem since_returned (db : Database) (r : Record) :
    w.since (w.returned i c db r) = [r.putCall] := by
  have hdrop : (w.returned i c db r).stored.drop w.stored.length = [r] := List.drop_left
  have hnone : (w.returned i c db r).answers.drop w.answers.length = [] := List.drop_length
  rw [since, hdrop, hnone]
  rfl

/-- A call that begins does nothing but take the mutex, if it gets it. -/
theorem begin_cases (w : ClientWorld) (i : Nat) (call : DbCall) :
    w.begin i call = w ∨
      ∃ before d, w.clients[i]? = some ⟨.idle, before⟩ ∧ (w.begin i call).db = w.db ∧
        (w.begin i call).clients = w.clients.set i d ∧ (w.begin i call).answers = w.answers ∧
        (w.begin i call).stored = w.stored ∧ d.caching = none ∧ d.missed = none ∧ d.absent = none := by
  unfold ClientWorld.begin
  split
  · rename_i before hi
    cases call with
    | get key =>
        dsimp only
        split
        · exact Or.inr ⟨before, ⟨.probing key, w.stored⟩, hi, rfl, rfl, rfl, rfl, rfl, rfl, rfl⟩
        · exact Or.inl rfl
    | put key value =>
        dsimp only
        split
        · exact Or.inr ⟨before, ⟨.logging ⟨key, value⟩, before⟩, hi, rfl, rfl, rfl, rfl, rfl, rfl,
            rfl⟩
        · exact Or.inl rfl
  · exact Or.inl rfl

/-- Nothing takes effect at a turn, or it is a step of a client and the call that this client is in, and
no longer is afterwards. -/
def TakesEffect (w : ClientWorld) (t : Turn) : Prop :=
  w.since (w.turn t) = [] ∨
    ∃ i c d call, t = .step i ∧ w.clients[i]? = some c ∧ c.calling = some call ∧
      (w.turn t).clients[i]? = some d ∧ d.calling = none ∧ w.since (w.turn t) = [call]

/-- **A call takes effect in one step of its own client**, between its beginning and its return. -/
theorem takesEffect_turn (w : ClientWorld) (t : Turn) : w.TakesEffect t := by
  unfold TakesEffect
  cases t with
  | begin i call =>
      left
      show w.since (w.begin i call) = []
      rcases w.begin_cases i call with heq | ⟨-, d, -, -, -, hanswers, hstored, -⟩
      · rw [heq]
        exact since_of_same rfl rfl
      · exact since_of_same hanswers hstored
  | step i =>
      cases hi : w.clients[i]? with
      | none =>
          left
          have hturn : w.turn (.step i) = w := by
            unfold turn
            dsimp only
            rw [hi]
          rw [hturn]
          exact since_of_same rfl rfl
      | some c =>
          rw [turn_step hi]
          obtain ⟨point, before⟩ := c
          have hget : ∀ d : Client, (w.clients.set i d)[i]? = some d := fun d =>
            List.getElem?_set_self (List.getElem?_eq_some_iff.mp hi).1
          -- a step at which a get has its answer, one at which a put returns, and any other
          have hanswered : ∀ (db : Database) (key : Bytes) (value : Option Bytes),
              Client.calling ⟨point, before⟩ = some (.get key) →
              ∃ j c d call, Turn.step i = .step j ∧ w.clients[j]? = some c ∧ c.calling = some call ∧
                (w.answered i ⟨point, before⟩ db key value).clients[j]? = some d ∧ d.calling = none ∧
                w.since (w.answered i ⟨point, before⟩ db key value) = [call] :=
            fun db key value hcall => ⟨i, _, _, _, rfl, hi, hcall, hget _, rfl, since_answered db key value⟩
          have hgoOn : ∀ (db : Database) (point' : ClientPoint),
              w.since (w.goOn i ⟨point, before⟩ db point') = [] := fun _ _ => since_of_same rfl rfl
          cases point with
          | idle => exact Or.inl (since_of_same rfl rfl)
          | parsing key rid page | unlockingShared | unlocking => exact Or.inl (hgoOn _ _)
          | probing key =>
              unfold stepOf
              dsimp only
              split
              · exact Or.inr (hanswered _ key _ rfl)
              · exact Or.inl (hgoOn _ _)
          | looking key =>
              unfold stepOf
              dsimp only
              split
              · exact Or.inr (hanswered _ key _ rfl)
              · exact Or.inl (hgoOn _ _)
          | fetching key rid =>
              unfold stepOf
              dsimp only
              split
              · exact Or.inr (hanswered _ key _ rfl)
              · split
                · exact Or.inl (hgoOn _ _)
                · exact Or.inl (hgoOn _ _)
          | releasing key rid page read =>
              cases read with
              | absent => exact Or.inr (hanswered _ key _ rfl)
              | outside => exact Or.inl (hgoOn _ _)
              | found record =>
                  unfold stepOf
                  dsimp only
                  split
                  · exact Or.inl (hgoOn _ _)
                  · exact Or.inr (hanswered _ key _ rfl)
          | filling key value =>
              unfold stepOf
              dsimp only
              split
              · exact Or.inr (hanswered _ key _ rfl)
              · exact Or.inl (hgoOn _ _)
          | logging r | appending r | indexing r rid =>
              unfold stepOf
              dsimp only
              split
              · exact Or.inl (hgoOn _ _)
              · exact Or.inl (hgoOn _ _)
          | caching r =>
              unfold stepOf
              dsimp only
              split
              · exact Or.inr ⟨i, _, _, _, rfl, hi, rfl, hget ⟨.unlocking, before⟩, rfl,
                  since_returned _ r⟩
              · exact Or.inl (hgoOn _ _)

/-! ## Clients beside one client -/

/-- **The session behind the clients reads like one client's**, which has made the calls that have taken
effect: the record cache is the same, and so is what index and pages say, but for the key of a put that
has reached the index. A key that a get has not found in the record cache, and that is not on the pages,
is still not in the record cache. -/
structure Linear (s₀ : Session) (w : ClientWorld) (s : Session) (cs : List DbCall) : Prop where
  cached : s.cached = (s₀.run cs).cached
  capacity : s.capacity = s₀.capacity
  found : (∀ c ∈ w.clients, c.caching = none) → ∀ k, s.found k = (s₀.run cs).found k
  caching : ∀ c ∈ w.clients, ∀ r, c.caching = some r →
    ∀ k, s.found k = if r.key = k then none else (s₀.run cs).found k
  missed : ∀ c ∈ w.clients, ∀ key, c.missed = some key → s.found key = none →
    cachedValue s.cached key = none
  absent : ∀ c ∈ w.clients, ∀ key, c.absent = some key → s.found key = none
  answers : s₀.answersOf cs = w.answers.map fun a => (a.key, a.value)
  puts : putsOf cs = w.stored

variable {s₀ s s' : Session} {earlier : List Record} {w u : ClientWorld} {i : Nat} {c d : Client}
  {cs : List DbCall} {r : Record}

namespace Linear

theorem congr (h : Linear s₀ w s cs) (hsame : s.SameReads s') : Linear s₀ w s' cs where
  cached := hsame.cached.trans h.cached
  capacity := hsame.capacity.trans h.capacity
  found hnone k := (hsame.found k).trans (h.found hnone k)
  caching c hc r hr k := (hsame.found k).trans (h.caching c hc r hr k)
  missed c hc key hkey hfound := by
    rw [hsame.found] at hfound
    rw [hsame.cached]
    exact h.missed c hc key hkey hfound
  absent c hc key hkey := (hsame.found key).trans (h.absent c hc key hkey)
  answers := h.answers
  puts := h.puts

/-- A step at which no call takes effect and the index stays. -/
theorem keep (h : Linear s₀ w s cs) (hi : w.clients[i]? = some c)
    (hclients : u.clients = w.clients.set i d) (hsame : s.SameReads s') (hc : c.caching = none)
    (hd : d.caching = none)
    (hmissed : ∀ key, d.missed = some key → s.found key = none → cachedValue s.cached key = none)
    (habsent : ∀ key, d.absent = some key → s.found key = none)
    (hanswers : u.answers = w.answers) (hstored : u.stored = w.stored) : Linear s₀ u s' cs := by
  refine Linear.congr (s := s) ⟨h.cached, h.capacity, fun hnone k => ?_, ?_, ?_, ?_, ?_, ?_⟩ hsame
  · refine h.found (fun x hx => ?_) k
    obtain ⟨j, hj⟩ := List.mem_iff_getElem?.mp hx
    by_cases hij : i = j
    · subst hij
      rw [hi] at hj
      rw [← Option.some.inj hj]
      exact hc
    · apply hnone x
      rw [hclients]
      exact List.mem_of_getElem? (by rw [List.getElem?_set_ne hij, hj])
  · intro x hx r hr k
    rw [hclients] at hx
    rcases List.mem_or_eq_of_mem_set hx with hx | rfl
    · exact h.caching x hx r hr k
    · rw [hd] at hr
      exact absurd hr (by simp)
  · intro x hx key hkey hfound
    rw [hclients] at hx
    rcases List.mem_or_eq_of_mem_set hx with hx | rfl
    · exact h.missed x hx key hkey hfound
    · exact hmissed key hkey hfound
  · intro x hx key hkey
    rw [hclients] at hx
    rcases List.mem_or_eq_of_mem_set hx with hx | rfl
    · exact h.absent x hx key hkey
    · exact habsent key hkey
  · rw [hanswers]
    exact h.answers
  · rw [hstored]
    exact h.puts

/-- While a client is in a get the index and the pages say what they say to one client. -/
theorem found_of_shared (h : Linear s₀ w s cs) (hcomp : SharedLock.Compatible Client.mode w.clients)
    (hi : w.clients[i]? = some c) (hmode : c.mode = .shared) (k : Bytes) :
    s.found k = (s₀.run cs).found k :=
  h.found (fun x hx => Client.caching_of_not_exclusive (hcomp.not_exclusive hi hmode x hx)) k

/-- A get has its answer, which is the one that one client gets. -/
theorem answered (h : Linear s₀ w s cs) (hcomp : SharedLock.Compatible Client.mode w.clients)
    (hi : w.clients[i]? = some c) (hmode : c.mode = .shared) (hnodup : (s.cached.map Prod.fst).Nodup)
    {db : Database} {key : Bytes} {value : Option Bytes} (hanswer : s.answer key = value)
    (hsame : (s.got key).SameReads s') :
    Linear s₀ (w.answered i c db key value) s' (cs ++ [.get key]) := by
  have hfound := h.found_of_shared hcomp hi hmode
  have hgot : ∀ k, (s.got key).found k = s.found k := fun k => s.found_got key k
  have hgot' : ∀ k, ((s₀.run cs).got key).found k = (s₀.run cs).found k :=
    fun k => (s₀.run cs).found_got key k
  have hcap : (s₀.run cs).capacity = s.capacity :=
    (Session.run_frame s₀ cs).2.1.trans h.capacity.symm
  have hsame' : (s₀.run cs).answer key = value := by
    rw [← hanswer, Session.answer, Session.answer, h.cached, hfound]
  have hcached : (s.got key).cached = ((s₀.run cs).got key).cached := by
    unfold Session.got
    rw [hanswer, hsame']
    cases value with
    | none => exact h.cached
    | some v =>
        show lruPut s.capacity s.cached key v = lruPut _ _ key v
        rw [hcap, h.cached]
  have hnone : ∀ x ∈ w.clients, x.caching = none := fun x hx =>
    Client.caching_of_not_exclusive (hcomp.not_exclusive hi hmode x hx)
  refine ⟨?_, ?_, fun _ k => ?_, ?_, ?_, ?_, ?_, ?_⟩
  · rw [Session.run_concat, hsame.cached]
    exact hcached
  · rw [hsame.capacity, (s.got_frame key).2.2.2.2.2.1]
    exact h.capacity
  · rw [Session.run_concat, hsame.found, hgot, hfound]
    exact (hgot' k).symm
  · intro x hx r hr
    rcases List.mem_or_eq_of_mem_set hx with hx | rfl
    · rw [hnone x hx] at hr
      exact absurd hr (by simp)
    · exact absurd hr (by simp [Client.caching])
  · intro x hx k hk hk'
    rcases List.mem_or_eq_of_mem_set hx with hx | rfl
    · rw [hsame.found, hgot] at hk'
      have hmissed := h.missed x hx k hk hk'
      rw [hsame.cached]
      -- a value that is entered now is that of another key
      by_cases hkey : k = key
      · have hnothing : s.answer key = none := by
          rw [Session.answer, ← hkey, hmissed, hk']
          rfl
        unfold Session.got
        rw [hnothing]
        exact hmissed
      · unfold Session.got
        cases s.answer key with
        | none => exact hmissed
        | some v =>
            by_contra hsome
            obtain ⟨v', hv'⟩ := Option.ne_none_iff_exists'.mp hsome
            rcases eq_or_of_cachedValue_lruPut hnodup hv' with ⟨heq, -⟩ | ⟨-, hold⟩
            · exact hkey heq
            · rw [hmissed] at hold
              exact absurd hold (by simp)
    · exact absurd hk (by simp [Client.missed])
  · intro x hx k hk
    rcases List.mem_or_eq_of_mem_set hx with hx | rfl
    · rw [hsame.found, hgot]
      exact h.absent x hx k hk
    · exact absurd hk (by simp [Client.absent])
  · rw [Session.answersOf_concat, h.answers]
    show _ = (w.answers ++ [_]).map _
    rw [List.map_append, List.map_singleton, ← hsame']
    rfl
  · rw [putsOf_concat, show putsOf [DbCall.get key] = [] from rfl, List.append_nil]
    exact h.puts

/-- The clients beside one that is in a put hold nothing. -/
theorem others (hcomp : SharedLock.Compatible Client.mode w.clients)
    (hi : w.clients[i]? = some c) (hmode : c.mode = .exclusive) {x : Client}
    (hx : x ∈ w.clients.set i d) :
    x = d ∨ (x.caching = none ∧ x.missed = none ∧ x.absent = none) := by
  obtain ⟨j, hj⟩ := List.mem_iff_getElem?.mp hx
  by_cases hij : i = j
  · subst hij
    rw [List.getElem?_set_self (List.getElem?_eq_some_iff.mp hi).1] at hj
    exact Or.inl (Option.some.inj hj).symm
  · rw [List.getElem?_set_ne hij] at hj
    have hfree : x.mode = .free := hcomp i j c x hij hi hj hmode
    exact Or.inr ⟨Client.caching_of_not_exclusive (by simp [hfree]),
      Client.missed_of_not_shared (by simp [hfree])⟩

/-- While a client is in a put that has not reached the index, no other client has. -/
theorem found_of_exclusive (h : Linear s₀ w s cs)
    (hcomp : SharedLock.Compatible Client.mode w.clients) (hi : w.clients[i]? = some c)
    (hmode : c.mode = .exclusive) (hc : c.caching = none) (k : Bytes) :
    s.found k = (s₀.run cs).found k := by
  refine h.found (fun x hx => ?_) k
  obtain ⟨hlt, hget⟩ := List.getElem?_eq_some_iff.mp hi
  rw [← List.set_getElem_self hlt, hget] at hx
  rcases others hcomp hi hmode hx with rfl | ⟨hnone, -⟩
  · exact hc
  · exact hnone

/-- A put reaches the index. -/
theorem indexed (h : Linear s₀ w s cs) (hcomp : SharedLock.Compatible Client.mode w.clients)
    (hi : w.clients[i]? = some c) (hmode : c.mode = .exclusive) (hc : c.caching = none)
    (hclients : u.clients = w.clients.set i d) (hd : d.caching = some r) (hcached : s'.cached = s.cached)
    (hcap : s'.capacity = s.capacity)
    (hfound : ∀ k, s'.found k = if r.key = k then none else s.found k)
    (hanswers : u.answers = w.answers) (hstored : u.stored = w.stored) : Linear s₀ u s' cs := by
  have hexclusive : d.missed = none ∧ d.absent = none := by
    obtain ⟨point, before⟩ := d
    cases point with
    | caching r => exact ⟨rfl, rfl⟩
    | _ => exact absurd hd (by simp [Client.caching])
  refine ⟨hcached.trans h.cached, hcap.trans h.capacity, fun hnone => ?_, ?_, ?_, ?_, ?_, ?_⟩
  · have hmem : d ∈ u.clients := by
      rw [hclients]
      exact List.mem_set (List.getElem?_eq_some_iff.mp hi).1 d
    have hnot := hnone d hmem
    rw [hd] at hnot
    exact absurd hnot (by simp)
  · intro x hx r' hr' k
    rw [hclients] at hx
    rcases others hcomp hi hmode hx with rfl | ⟨hnone, -⟩
    · rw [hd, Option.some.injEq] at hr'
      rw [← hr', hfound, h.found_of_exclusive hcomp hi hmode hc]
    · rw [hnone] at hr'
      exact absurd hr' (by simp)
  · intro x hx key hkey
    rw [hclients] at hx
    rcases others hcomp hi hmode hx with rfl | ⟨-, hnone, -⟩
    · rw [hexclusive.1] at hkey
      exact absurd hkey (by simp)
    · rw [hnone] at hkey
      exact absurd hkey (by simp)
  · intro x hx key hkey
    rw [hclients] at hx
    rcases others hcomp hi hmode hx with rfl | ⟨-, -, hnone⟩
    · rw [hexclusive.2] at hkey
      exact absurd hkey (by simp)
    · rw [hnone] at hkey
      exact absurd hkey (by simp)
  · rw [hanswers]
    exact h.answers
  · rw [hstored]
    exact h.puts

/-- A put returns. -/
theorem returned (h : Linear s₀ w s cs) (hcomp : SharedLock.Compatible Client.mode w.clients)
    {before : List Record} (hi : w.clients[i]? = some ⟨.caching r, before⟩) {db : Database}
    (hsame : (s.used r.key r.value).SameReads s')
    (hput : ∀ k, ((s₀.run cs).put r).found k = if r.key = k then none else (s₀.run cs).found k) :
    Linear s₀ (w.returned i ⟨.caching r, before⟩ db r) s' (cs ++ [r.putCall]) := by
  have hrun : s₀.run (cs ++ [r.putCall]) = (s₀.run cs).put r := s₀.run_concat cs r.putCall
  have hcap : (s₀.run cs).capacity = s.capacity :=
    (Session.run_frame s₀ cs).2.1.trans h.capacity.symm
  have hothers : ∀ x ∈ w.clients.set i ⟨.unlocking, before⟩,
      x.caching = none ∧ x.missed = none ∧ x.absent = none := by
    intro x hx
    rcases others hcomp hi rfl hx with rfl | hnone
    · exact ⟨rfl, rfl, rfl⟩
    · exact hnone
  refine ⟨?_, hsame.capacity.trans h.capacity, fun _ k => ?_, ?_, ?_, ?_, ?_, ?_⟩
  · rw [hrun, hsame.cached]
    show lruPut s.capacity s.cached r.key r.value =
      lruPut (s₀.run cs).capacity (s₀.run cs).cached r.key r.value
    rw [hcap, h.cached]
  · rw [hrun, hsame.found, hput]
    exact h.caching _ (List.mem_of_getElem? hi) r rfl k
  · intro x hx r' hr'
    rw [(hothers x hx).1] at hr'
    exact absurd hr' (by simp)
  · intro x hx key hkey
    rw [(hothers x hx).2.1] at hkey
    exact absurd hkey (by simp)
  · intro x hx key hkey
    rw [(hothers x hx).2.2] at hkey
    exact absurd hkey (by simp)
  · rw [Session.answersOf_concat]
    exact (List.append_nil _).trans h.answers
  · rw [putsOf_concat, h.puts]
    rfl

end Linear

end ClientWorld

end Aqa
