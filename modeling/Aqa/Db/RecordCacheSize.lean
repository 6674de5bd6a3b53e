/-
# Aqa.Db.RecordCacheSize — a larger record cache.

Two databases with record caches of two sizes on the same files, for the same calls: the keys of the
smaller cache stay within those of the larger one (`KeyCache.within_calls`), though a get that only the
larger one answers is a use there and none here. What a session answers at all is the last put of the
key (`Works.current_run`). So a larger cache answers whatever the smaller one answers.
-/
import Aqa.Db.StaleReads
import Aqa.Lib.LruInclusion

namespace Aqa

open Aqa.Lib StorageReader

namespace KeyCache

variable {cap cap' : Nat} {indexed : List Bytes} {history : List Record}

/-- **The smaller cache stays within the larger one.** -/
theorem within_calls (hle : cap ≤ cap') (cs : List DbCall) :
    Within cap cap' ((opened cap history).calls cap indexed cs).held
      ((opened cap' history).calls cap' indexed cs).held := by
  induction cs using List.reverseRecOn with
  | nil => exact Within.take hle (nodup_recency List.nodup_nil _)
  | append_singleton cs a ih =>
      rw [calls_concat, calls_concat]
      cases a with
      | put key value => exact ih.touch hle key
      | get key =>
          have hwritten : key ∈ ((opened cap history).calls cap indexed cs).written ↔
              key ∈ ((opened cap' history).calls cap' indexed cs).written := by
            rw [written_calls, written_calls]
          simp only [call, ← hwritten]
          by_cases hheld : key ∈ ((opened cap history).calls cap indexed cs).held
          · rw [if_pos (Or.inl hheld), if_pos (Or.inl (ih.mem hheld))]
            exact ih.touch hle key
          · by_cases hindexed : key ∉ ((opened cap history).calls cap indexed cs).written ∧ key ∈ indexed
            · rw [if_pos (Or.inr hindexed), if_pos (Or.inr hindexed)]
              exact ih.touch hle key
            · rw [if_neg (by tauto)]
              by_cases hlarger : key ∈ ((opened cap' history).calls cap' indexed cs).held
              · rw [if_pos (Or.inl hlarger)]
                exact ih.touch_larger hheld hlarger
              · rw [if_neg (by tauto)]
                exact ih

end KeyCache

namespace Works

variable {s s' : Session} {pages : List (List Record)} {puts history : List Record} {c c' : KeyCache}

/-- What a session answers is the last put, if the pages show the last puts of the sessions before. -/
theorem answer_newest (h : Works s pages puts c) (hnewest : ∀ k v,
      lastWrite (entries (addressed pages)) k = some v → lastWrite (entries history) k = some v)
    (hcurrent : Current s.cached (entries (history ++ puts))) {k : Bytes} {v : Bytes}
    (hanswer : s.answer k = some v) : lastWrite (entries (history ++ puts)) k = some v := by
  rw [Session.answer] at hanswer
  cases hcached : cachedValue s.cached k with
  | some w =>
      rw [hcached, Option.some_or] at hanswer
      rw [← hanswer]
      exact hcurrent.newest k w hcached
  | none =>
      rw [hcached, Option.none_or] at hanswer
      by_cases hk : k ∈ puts.map Record.key
      · rw [h.found_written hk] at hanswer
        exact absurd hanswer (by simp)
      · rw [h.indexed k hk] at hanswer
        have hnone : lastWrite (entries puts) k = none := by
          rw [lastWrite_eq_none_iff, keys_entries]
          exact hk
        rw [entries_append, lastWrite_append, hnone, Option.none_or]
        exact hnewest k v hanswer

/-- Every value in the record cache stays the one put last. -/
theorem current_run (h : Works s pages [] c) (hkept : s.mapped.length ≤ s.pager.pages.length)
    (hnewest : ∀ k v, lastWrite (entries (addressed pages)) k = some v →
      lastWrite (entries history) k = some v)
    (hcurrent : Current s.cached (entries history)) (cs : List DbCall)
    (hlt : (s.run cs).pager.pages.length < 2 ^ 32) :
    Current (s.run cs).cached (entries (history ++ putsOf cs)) := by
  induction cs using List.reverseRecOn with
  | nil =>
      rw [show putsOf [] = [] from rfl, List.append_nil]
      exact hcurrent
  | append_singleton cs a ih =>
      have hpages := Session.length_pages_after (s.run cs) a
      rw [Session.run_concat] at hlt ⊢
      have ih := ih (by omega)
      have hworks := h.run hkept cs (by omega)
      rw [List.nil_append] at hworks
      rw [putsOf_concat]
      cases a with
      | put key value =>
          rw [show putsOf [DbCall.put key value] = [⟨key, value⟩] from rfl, ← List.append_assoc,
            entries_append]
          exact ih.write _ key value
      | get key =>
          rw [show putsOf [DbCall.get key] = [] from rfl, List.append_nil]
          show Current ((s.run cs).got key).cached _
          unfold Session.got
          cases hanswer : (s.run cs).answer key with
          | none => exact ih
          | some v => exact ih.read _ (hworks.answer_newest hnewest ih hanswer)

/-- Sessions on the same pages that have made the same puts. -/
theorem answer_of_within (h : Works s pages puts c) (h' : Works s' pages puts c')
    (hheld : ∀ k ∈ c.held, k ∈ c'.held) {k : Bytes} {v : Bytes} (hanswer : s.answer k = some v) :
    ∃ v', s'.answer k = some v' := by
  rw [Session.answer] at hanswer ⊢
  cases hcached' : cachedValue s'.cached k with
  | some v' => exact ⟨v', rfl⟩
  | none =>
      have hout : k ∉ c.held := by
        intro hk
        obtain ⟨v', hv'⟩ := (h'.held_iff k).mp (hheld k hk)
        rw [hcached'] at hv'
        exact absurd hv' (by simp)
      have hcached : cachedValue s.cached k = none := by
        cases hv : cachedValue s.cached k with
        | none => rfl
        | some w => exact absurd ((h.held_iff k).mpr ⟨w, hv⟩) hout
      rw [hcached, Option.none_or] at hanswer
      rw [Option.none_or]
      by_cases hk : k ∈ puts.map Record.key
      · rw [h.found_written hk] at hanswer
        exact absurd hanswer (by simp)
      · rw [h.indexed k hk] at hanswer
        exact ⟨v, (h'.indexed k hk).trans hanswer⟩

end Works

/-- A session on files of up to 2^20 pages, before one of its calls. -/
theorem CleanFiles.works {disk : Disk} {pages : List (List Record)} {history : List Record}
    (h : CleanFiles disk pages history) (hsmall : pages.length ≤ 2 ^ 20) {cfg : Config} {db : Database}
    (hnew : Database.new cfg disk = .ok db) {cs : List DbCall}
    (hfits : ∀ r ∈ putsOf cs, Record.need r ≤ pageRoom)
    (hlt : (Pager.appendAll Record.need pageRoom ⟨pages, []⟩ (history ++ putsOf cs)).pages.length <
      2 ^ 32) (i : Nat) :
    let s := (Session.opened cfg pages (disk.wal.getD [])).run (cs.take i)
    Works s pages (putsOf (cs.take i)) ((KeyCache.opened cfg.recordCacheSize history).calls
        cfg.recordCacheSize ((addressed pages).map Record.key) (cs.take i)) ∧
      ∀ k v, s.answer k = some v → lastWrite (entries (history ++ putsOf (cs.take i))) k = some v := by
  intro s
  obtain ⟨hopens, hholds⟩ := Database.holds_of_new h.shows hnew
  have hcap := (Session.opened_frame cfg pages (disk.wal.getD [])).2.1
  have hpages : s.pager.pages.length < 2 ^ 32 := by
    have hwrote := (Session.wrote_opened hopens h.logged).run hfits
    have hrest := Session.length_pages_run s (cs.drop i)
    have hsplit : s.run (cs.drop i) = (Session.opened cfg pages (disk.wal.getD [])).run cs := by
      show ((Session.opened cfg pages (disk.wal.getD [])).run (cs.take i)).run (cs.drop i) = _
      rw [Session.run, Session.run, ← List.foldl_append, List.take_append_drop]
      rfl
    rw [hsplit, hwrote.pager] at hrest
    omega
  have hopened := works_opened cfg pages h.logged
  have hworks := hopened.run hholds.kept.length_le (cs.take i) hpages
  rw [List.nil_append, hcap] at hworks
  have hnewest := h.upToDate.showsNewest hsmall
  have hcurrent : Current (Session.opened cfg pages (disk.wal.getD [])).cached (entries history) := by
    rw [Session.cached_opened, h.logged.replayable]
    exact current_lruUses _ _
  have hrun := hopened.current_run hholds.kept.length_le hnewest hcurrent (cs.take i) hpages
  exact ⟨hworks, fun k v hanswer => hworks.answer_newest hnewest hrun hanswer⟩

end Aqa
