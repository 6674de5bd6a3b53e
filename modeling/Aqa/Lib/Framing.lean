/-
# Aqa.Lib.Framing — logs of self-delimiting frames.

A log is a sequence of frames written one after the other. `Framing` packages what a frame format
has to promise: decoding an encoded value with anything behind it returns the value and what is
behind it, and whatever decodes is the encoding of the value it decodes to. Nothing else is needed:
that no proper prefix of a frame decodes, that a cut log decodes to the frames before the cut, and
that a log has only one reading, all follow.

`readAll` is the loop of a log reader: take frames while they decode, stop at the first position
where none does. Its fuel is the length of the input, which suffices because no frame is empty.
-/
import Aqa.Lib.Bytes

namespace Aqa.Lib

/-- A frame format: the values it can carry, their encoding, and a decoder of the first frame. -/
structure Framing (α β : Type*) where
  Valid : α → Prop
  encode : α → List β
  decode : List β → Option (α × List β)
  encode_ne_nil : ∀ {a}, Valid a → encode a ≠ []
  decode_encode : ∀ {a} (rest), Valid a → decode (encode a ++ rest) = some (a, rest)
  decode_sound : ∀ {bs a rest}, decode bs = some (a, rest) → Valid a ∧ bs = encode a ++ rest

namespace Framing

variable {α β : Type*} (F : Framing α β)

/-- The bytes of a sequence of frames. -/
def encodeAll (as : List α) : List β := (as.map F.encode).flatten

/-- The reader loop: the decoded values and the bytes left where decoding stopped. -/
def readLoop (decode : List β → Option (α × List β)) : Nat → List β → List α × List β
  | 0, bs => ([], bs)
  | fuel + 1, bs =>
      match decode bs with
      | none => ([], bs)
      | some (a, rest) =>
          let r := readLoop decode fuel rest
          (a :: r.1, r.2)

/-- Read a whole log. -/
def readAll (bs : List β) : List α × List β := readLoop F.decode bs.length bs

@[simp]
theorem encodeAll_nil : F.encodeAll [] = [] := rfl

@[simp]
theorem encodeAll_cons (a : α) (as : List α) :
    F.encodeAll (a :: as) = F.encode a ++ F.encodeAll as := rfl

@[simp]
theorem encodeAll_append (as bs : List α) :
    F.encodeAll (as ++ bs) = F.encodeAll as ++ F.encodeAll bs := by
  simp only [encodeAll, List.map_append, List.flatten_append]

variable {F}

theorem decode_nil : F.decode [] = none := by
  cases h : F.decode [] with
  | none => rfl
  | some r =>
      obtain ⟨hv, heq⟩ := F.decode_sound (show F.decode [] = some (r.1, r.2) from h)
      have hnil := (List.append_eq_nil_iff.mp heq.symm).1
      exact absurd hnil (F.encode_ne_nil hv)

theorem decode_rest_lt {bs rest : List β} {a : α} (h : F.decode bs = some (a, rest)) :
    rest.length < bs.length := by
  obtain ⟨hv, rfl⟩ := F.decode_sound h
  have hpos : 0 < (F.encode a).length := List.length_pos_of_ne_nil (F.encode_ne_nil hv)
  rw [List.length_append]
  omega

/-- Two encodings at the front of the same bytes are the same encoding. -/
theorem encode_append_inj {a b : α} {xs ys : List β} (ha : F.Valid a) (hb : F.Valid b)
    (h : F.encode a ++ xs = F.encode b ++ ys) : a = b ∧ xs = ys := by
  have hda := F.decode_encode xs ha
  rw [h, F.decode_encode ys hb] at hda
  simp only [Option.some.injEq, Prod.mk.injEq] at hda
  exact ⟨hda.1.symm, hda.2.symm⟩

/-- No proper prefix of a frame decodes. -/
theorem decode_of_strict_prefix {a : α} {bs rest : List β} (ha : F.Valid a)
    (h : F.encode a = bs ++ rest) (hne : rest ≠ []) : F.decode bs = none := by
  cases hd : F.decode bs with
  | none => rfl
  | some r =>
      obtain ⟨b, left⟩ := r
      obtain ⟨hb, rfl⟩ := F.decode_sound hd
      have hsame : F.encode a ++ [] = F.encode b ++ (left ++ rest) := by
        rw [List.append_nil, h, List.append_assoc]
      have hnil := (encode_append_inj ha hb hsame).2
      exact absurd (List.append_eq_nil_iff.mp hnil.symm).2 hne

/-! ## The reader loop -/

/-- More fuel than bytes changes nothing. -/
theorem readLoop_fuel {fuel : Nat} {bs : List β} (h : bs.length ≤ fuel) :
    readLoop F.decode fuel bs = F.readAll bs := by
  suffices ∀ (n m : Nat) (bs : List β), bs.length ≤ n → bs.length ≤ m →
      readLoop F.decode n bs = readLoop F.decode m bs from this fuel bs.length bs h le_rfl
  intro n
  induction n with
  | zero =>
      intro m bs hn _
      have hnil : bs = [] := List.length_eq_zero_iff.mp (by omega)
      subst hnil
      cases m with
      | zero => rfl
      | succ m => simp only [readLoop, decode_nil]
  | succ n ih =>
      intro m bs hn hm
      cases m with
      | zero =>
          have hnil : bs = [] := List.length_eq_zero_iff.mp (by omega)
          subst hnil
          simp only [readLoop, decode_nil]
      | succ m =>
          simp only [readLoop]
          cases hd : F.decode bs with
          | none => rfl
          | some r =>
              obtain ⟨a, rest⟩ := r
              have hlt := decode_rest_lt hd
              simp only
              rw [ih m rest (by omega) (by omega)]

theorem readAll_of_decode_none {bs : List β} (h : F.decode bs = none) :
    F.readAll bs = ([], bs) := by
  rw [← readLoop_fuel (Nat.le_succ bs.length), readLoop, h]

theorem readAll_of_decode_some {bs rest : List β} {a : α} (h : F.decode bs = some (a, rest)) :
    F.readAll bs = (a :: (F.readAll rest).1, (F.readAll rest).2) := by
  have hlt := decode_rest_lt h
  rw [← readLoop_fuel (Nat.le_succ bs.length), readLoop, h]
  simp only
  rw [readLoop_fuel (by omega)]

@[simp]
theorem readAll_nil : F.readAll [] = ([], []) := readAll_of_decode_none decode_nil

/-- Whole frames at the front are read first. -/
theorem readAll_encodeAll_append {as : List α} (h : ∀ a ∈ as, F.Valid a) (rest : List β) :
    F.readAll (F.encodeAll as ++ rest) = (as ++ (F.readAll rest).1, (F.readAll rest).2) := by
  induction as with
  | nil => rfl
  | cons a as ih =>
      have hd := F.decode_encode (F.encodeAll as ++ rest) (h a (by simp))
      rw [encodeAll_cons, List.append_assoc, readAll_of_decode_some hd,
        ih (fun b hb => h b (by simp [hb]))]
      rfl

/-- **Round trip of a log.** -/
theorem readAll_encodeAll {as : List α} (h : ∀ a ∈ as, F.Valid a) :
    F.readAll (F.encodeAll as) = (as, []) := by
  have hread := readAll_encodeAll_append h []
  rw [List.append_nil] at hread
  rw [hread, readAll_nil, List.append_nil]

/-- **Soundness of the reader.** The bytes are the frames delivered and then the rest, and the
rest does not begin with a frame. -/
theorem readAll_sound (bs : List β) :
    (∀ a ∈ (F.readAll bs).1, F.Valid a) ∧
      bs = F.encodeAll (F.readAll bs).1 ++ (F.readAll bs).2 ∧
      F.decode (F.readAll bs).2 = none := by
  induction hn : bs.length using Nat.strong_induction_on generalizing bs with
  | _ n ih =>
      cases hd : F.decode bs with
      | none =>
          rw [readAll_of_decode_none hd]
          exact ⟨by simp, by simp, hd⟩
      | some r =>
          obtain ⟨a, rest⟩ := r
          obtain ⟨hv, hbs⟩ := F.decode_sound hd
          have hlt := decode_rest_lt hd
          obtain ⟨hvalid, hrest, hstop⟩ := ih rest.length (by omega) rest rfl
          rw [readAll_of_decode_some hd]
          refine ⟨?_, ?_, hstop⟩
          · intro b hb
            rcases List.mem_cons.mp hb with rfl | hb
            · exact hv
            · exact hvalid b hb
          · rw [encodeAll_cons, List.append_assoc, ← hrest]
            exact hbs

/-- A log has only one reading. -/
theorem readAll_unique {as : List α} {tail : List β} (h : ∀ a ∈ as, F.Valid a)
    (hstop : F.decode tail = none) : F.readAll (F.encodeAll as ++ tail) = (as, tail) := by
  rw [readAll_encodeAll_append h, readAll_of_decode_none hstop, List.append_nil]

/-! ## Positions in a log -/

/-- Every position of a log lies in one of its frames. -/
theorem exists_frame_of_lt {as : List α} {i : Nat} (h : i < (F.encodeAll as).length) :
    ∃ pre a post, as = pre ++ a :: post ∧ (F.encodeAll pre).length ≤ i ∧
      i < (F.encodeAll pre).length + (F.encode a).length := by
  induction as generalizing i with
  | nil => simp at h
  | cons a as ih =>
      rw [encodeAll_cons, List.length_append] at h
      by_cases hi : i < (F.encode a).length
      · exact ⟨[], a, as, rfl, by simp, by simpa using hi⟩
      · obtain ⟨pre, b, post, heq, hlo, hhi⟩ := ih (i := i - (F.encode a).length) (by omega)
        refine ⟨a :: pre, b, post, by rw [heq]; rfl, ?_, ?_⟩
        · rw [encodeAll_cons, List.length_append]
          omega
        · rw [encodeAll_cons, List.length_append]
          omega

/-- And in one only. -/
theorem frame_unique {pre pre' post post' : List α} {a a' : α} {i : Nat}
    (heq : pre ++ a :: post = pre' ++ a' :: post') (hlo : (F.encodeAll pre).length ≤ i)
    (hhi : i < (F.encodeAll pre).length + (F.encode a).length)
    (hlo' : (F.encodeAll pre').length ≤ i)
    (hhi' : i < (F.encodeAll pre').length + (F.encode a').length) : pre = pre' ∧ a = a' := by
  rcases List.append_eq_append_iff.mp heq with ⟨l, rfl, hl⟩ | ⟨l, rfl, hl⟩
  · cases l with
    | nil =>
        simp only [List.nil_append, List.cons.injEq] at hl
        exact ⟨(List.append_nil _).symm, hl.1⟩
    | cons x l =>
        simp only [List.cons_append, List.cons.injEq] at hl
        obtain ⟨rfl, -⟩ := hl
        rw [encodeAll_append, encodeAll_cons, List.length_append, List.length_append] at hlo'
        omega
  · cases l with
    | nil =>
        simp only [List.nil_append, List.cons.injEq] at hl
        exact ⟨List.append_nil _, hl.1.symm⟩
    | cons x l =>
        simp only [List.cons_append, List.cons.injEq] at hl
        obtain ⟨rfl, -⟩ := hl
        rw [encodeAll_append, encodeAll_cons, List.length_append, List.length_append] at hlo
        omega

/-! ## Cutting a log -/

variable (F)

/-- The frames of a log that lie wholly within its first `n` bytes. -/
def wholeWithin : Nat → List α → List α
  | _, [] => []
  | n, a :: as =>
      if (F.encode a).length ≤ n then a :: wholeWithin (n - (F.encode a).length) as else []

/-- The bytes behind the last whole frame when a log is cut after `n` bytes. -/
def tornTail : Nat → List α → List β
  | _, [] => []
  | n, a :: as =>
      if (F.encode a).length ≤ n then tornTail (n - (F.encode a).length) as
      else (F.encode a).take n

variable {F}

theorem mem_of_mem_wholeWithin {n : Nat} {as : List α} {a : α} (h : a ∈ F.wholeWithin n as) :
    a ∈ as := by
  induction as generalizing n with
  | nil => simp [wholeWithin] at h
  | cons b bs ih =>
      rw [wholeWithin] at h
      split at h
      · rcases List.mem_cons.mp h with rfl | h
        · simp
        · exact List.mem_cons_of_mem _ (ih h)
      · simp at h

theorem prefix_wholeWithin (n : Nat) (as : List α) : F.wholeWithin n as <+: as := by
  induction as generalizing n with
  | nil => exact List.nil_prefix
  | cons a as ih =>
      rw [wholeWithin]
      split
      · exact List.prefix_cons_inj a |>.mpr (ih _)
      · exact List.nil_prefix

/-- Frame `i` is among the whole ones exactly when the log up to its end is within the cut. -/
theorem lt_length_wholeWithin {n i : Nat} {as : List α} :
    i < (F.wholeWithin n as).length ↔
      i < as.length ∧ (F.encodeAll (as.take (i + 1))).length ≤ n := by
  induction as generalizing n i with
  | nil => simp [wholeWithin]
  | cons a as ih =>
      rw [wholeWithin, List.take_succ_cons, encodeAll_cons, List.length_append, List.length_cons]
      split
      · rename_i hle
        rw [List.length_cons]
        cases i with
        | zero => simp [hle]
        | succ i =>
            rw [Nat.add_lt_add_iff_right, ih, Nat.add_lt_add_iff_right]
            apply and_congr_right
            intro _
            omega
      · rename_i hlt
        simp only [List.length_nil, Nat.not_lt_zero, false_iff, not_and]
        omega

/-- A cut log is its whole frames followed by the torn tail. -/
theorem take_encodeAll (n : Nat) (as : List α) :
    (F.encodeAll as).take n = F.encodeAll (F.wholeWithin n as) ++ F.tornTail n as := by
  induction as generalizing n with
  | nil => simp [wholeWithin, tornTail]
  | cons a as ih =>
      rw [encodeAll_cons, wholeWithin, tornTail]
      split
      · rename_i hle
        rw [List.take_append, List.take_of_length_le hle, ih, encodeAll_cons, List.append_assoc]
      · rename_i hlt
        rw [List.take_append_of_le_length (by omega)]
        rfl

/-- The torn tail is empty or a proper prefix of a frame of the log. -/
theorem tornTail_cases (n : Nat) (as : List α) :
    F.tornTail n as = [] ∨ ∃ a ∈ as, ∃ rest ≠ [], F.encode a = F.tornTail n as ++ rest := by
  induction as generalizing n with
  | nil => exact Or.inl rfl
  | cons a as ih =>
      rw [tornTail]
      split
      · rcases ih (n - (F.encode a).length) with hnil | ⟨b, hb, rest, hne, heq⟩
        · exact Or.inl hnil
        · exact Or.inr ⟨b, List.mem_cons_of_mem _ hb, rest, hne, heq⟩
      · rename_i hlt
        refine Or.inr ⟨a, by simp, (F.encode a).drop n, ?_, (List.take_append_drop n _).symm⟩
        intro hnil
        have hlen := congrArg List.length hnil
        rw [List.length_drop, List.length_nil] at hlen
        omega

/-- The torn tail of a cut log never decodes. -/
theorem decode_tornTail {n : Nat} {as : List α} (h : ∀ a ∈ as, F.Valid a) :
    F.decode (F.tornTail n as) = none := by
  rcases tornTail_cases n as with hnil | ⟨a, ha, rest, hne, heq⟩
  · rw [hnil]
    exact decode_nil
  · exact decode_of_strict_prefix (h a ha) heq hne

/-- **Prefix recovery.** A log cut after any number of bytes reads as its whole frames. -/
theorem readAll_take {as : List α} (h : ∀ a ∈ as, F.Valid a) (n : Nat) :
    F.readAll ((F.encodeAll as).take n) = (F.wholeWithin n as, F.tornTail n as) := by
  rw [take_encodeAll]
  exact readAll_unique (fun a ha => h a (mem_of_mem_wholeWithin ha)) (decode_tornTail h)

end Framing

end Aqa.Lib
