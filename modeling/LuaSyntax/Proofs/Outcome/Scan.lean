import LuaSyntax.Token.Trivia
import LuaSyntax.Token.Word
import LuaSyntax.Token.Quoted
import Mathlib.Data.List.TakeWhile

/-! # Successful scans

A composite scan succeeds exactly when its parts do, one after the other. Alongside, what
a scan leaves behind: the bytes it passed are the front of what was left.
-/
namespace LuaSyntax
variable {α β : Type} {p p' : Place}

namespace Scan

/-- What follows the longest run of a class is not of the class. -/
theorem head_drop_takeWhile (q : UInt8 → Bool) (bytes : Bytes) :
    ∀ b ∈ (bytes.drop (bytes.takeWhile q).length).head?, ¬ q b := by
  induction bytes with
  | nil => simp
  | cons b tail ih =>
    by_cases hb : q b
    · simpa [List.takeWhile_cons_of_pos hb] using ih
    · simpa [List.takeWhile_cons_of_neg hb] using hb

theorem bind_eq_ok {x : Scan α} {f : α → Scan β} {b : β} :
    (x >>= f) p = .ok (b, p') ↔ ∃ a m, x p = .ok (a, m) ∧ f a m = .ok (b, p') := by
  change (x p >>= fun (a, m) => f a m) = _ ↔ _
  cases h : x p with
  | ok r =>
    obtain ⟨a, m⟩ := r
    constructor
    · exact fun h => ⟨a, m, rfl, h⟩
    · rintro ⟨_, _, ha, h⟩
      simp only [Except.ok.injEq, Prod.mk.injEq] at ha
      obtain ⟨rfl, rfl⟩ := ha
      exact h
  | error e => exact ⟨fun h => (nomatch h), fun ⟨_, _, h, _⟩ => (nomatch h)⟩

theorem map_eq_ok {x : Scan α} {f : α → β} {b : β} :
    (f <$> x) p = .ok (b, p') ↔ ∃ a, x p = .ok (a, p') ∧ f a = b := by
  rw [← bind_pure_comp, bind_eq_ok]
  constructor
  · rintro ⟨a, m, h, hb⟩
    cases hb
    exact ⟨a, h, rfl⟩
  · rintro ⟨a, h, rfl⟩
    exact ⟨a, p', h, rfl⟩

theorem pure_eq_ok {a b : α} : (pure a : Scan α) p = .ok (b, p') ↔ a = b ∧ p = p' := by
  change Except.ok (a, p) = _ ↔ _
  simp

theorem get_eq_ok {m : Place} : (get : Scan Place) p = .ok (m, p') ↔ m = p ∧ p = p' := by
  change Except.ok (p, p) = _ ↔ _
  simp [eq_comm]

theorem failAt_ne_ok {label : Label} {offset : Nat} {a : α} :
    ¬ (failAt label offset : Scan α) p = .ok (a, p') := fun h => nomatch h

theorem fail_ne_ok {l : Label} {a : α} : ¬ (fail l : Scan α) p = .ok (a, p') :=
  fun h => nomatch h

/-- A check that may fail is passed exactly when it does not apply. -/
theorem ite_failAt_eq_ok {cond : Prop} [Decidable cond] {label : Label} {offset : Nat}
    {x : Unit → Scan α} {y : Scan α} {a : α} :
    (if cond then failAt label offset >>= x else y) p = .ok (a, p') ↔ ¬ cond ∧ y p = .ok (a, p') := by
  split
  · next hc =>
    refine ⟨fun h => ?_, fun h => (h.1 hc).elim⟩
    obtain ⟨_, _, h, -⟩ := bind_eq_ok.mp h
    exact (failAt_ne_ok h).elim
  · next hc => exact ⟨fun h => ⟨hc, h⟩, And.right⟩

theorem ite_fail_eq_ok {cond : Prop} [Decidable cond] {label : Label} {x : Unit → Scan α}
    {y : Scan α} {a : α} :
    (if cond then fail label >>= x else y) p = .ok (a, p') ↔ ¬ cond ∧ y p = .ok (a, p') := by
  split
  · next hc =>
    refine ⟨fun h => ?_, fun h => (h.1 hc).elim⟩
    obtain ⟨_, _, h, -⟩ := bind_eq_ok.mp h
    exact (fail_ne_ok h).elim
  · next hc => exact ⟨fun h => ⟨hc, h⟩, And.right⟩

theorem rest_eq_ok {bytes : Bytes} : rest p = .ok (bytes, p') ↔ bytes = p.rest ∧ p = p' := by
  change Except.ok (p.rest, p) = _ ↔ _
  simp [eq_comm]

theorem advance_eq_ok {n : Nat} {u : Unit} : advance n p = .ok (u, p') ↔ p' = p.advance n := by
  change Except.ok ((), p.advance n) = _ ↔ _
  simp [eq_comm]

theorem takeWhile_eq_ok {q : UInt8 → Bool} {run : Bytes} :
    takeWhile q p = .ok (run, p') ↔ run = p.rest.takeWhile q ∧ p' = p.advance run.length := by
  change Except.ok (p.rest.takeWhile q, p.advance (p.rest.takeWhile q).length) = _ ↔ _
  simp only [Except.ok.injEq, Prod.mk.injEq]
  constructor
  · rintro ⟨rfl, rfl⟩
    exact ⟨rfl, rfl⟩
  · rintro ⟨rfl, rfl⟩
    exact ⟨rfl, rfl⟩

theorem digits_eq_ok {q : UInt8 → Bool} {missing : Label} {run : Bytes} :
    digits q missing p = .ok (run, p') ↔
      run = p.rest.takeWhile q ∧ run ≠ [] ∧ p' = p.advance run.length := by
  simp only [digits, bind_eq_ok, takeWhile_eq_ok, ite_fail_eq_ok, pure_eq_ok]
  constructor
  · rintro ⟨_, _, ⟨rfl, rfl⟩, hne, rfl, rfl⟩
    exact ⟨rfl, by simpa using hne, rfl⟩
  · rintro ⟨rfl, hne, rfl⟩
    exact ⟨_, _, ⟨rfl, rfl⟩, by simpa using hne, rfl, rfl⟩

theorem text_eq_some {bytes : Bytes} {barred : UInt8 → Bool} {u : Unit} :
    text bytes barred p = .ok (some u, p') ↔
      startsWith bytes barred p.rest ∧ p' = p.advance bytes.length := by
  simp only [text, bind_eq_ok, rest_eq_ok]
  constructor
  · rintro ⟨_, _, ⟨rfl, rfl⟩, h⟩
    split at h
    · next hs =>
      simp only [bind_eq_ok, advance_eq_ok, pure_eq_ok] at h
      obtain ⟨_, _, rfl, -, rfl⟩ := h
      exact ⟨hs, rfl⟩
    · simp [pure_eq_ok] at h
  · rintro ⟨hs, rfl⟩
    refine ⟨_, _, ⟨rfl, rfl⟩, ?_⟩
    rw [if_pos hs]
    simp only [bind_eq_ok, advance_eq_ok, pure_eq_ok]
    exact ⟨(), _, rfl, trivial, rfl⟩

theorem text_eq_none {bytes : Bytes} {barred : UInt8 → Bool} :
    text bytes barred p = .ok (none, p') ↔ ¬ startsWith bytes barred p.rest ∧ p = p' := by
  simp only [text, bind_eq_ok, rest_eq_ok]
  constructor
  · rintro ⟨_, _, ⟨rfl, rfl⟩, h⟩
    split at h
    · simp only [bind_eq_ok, pure_eq_ok, reduceCtorEq, false_and, and_false, exists_false] at h
    · next hs => exact ⟨hs, (pure_eq_ok.mp h).2⟩
  · rintro ⟨hs, rfl⟩
    refine ⟨_, _, ⟨rfl, rfl⟩, ?_⟩
    rw [if_neg hs]
    exact pure_eq_ok.mpr ⟨rfl, rfl⟩

theorem name_eq_some {word : Bytes} :
    name p = .ok (some word, p') ↔ startsName p.rest ∧ isReserved word = false ∧
      word = p.rest.takeWhile isNamePart ∧ p' = p.advance word.length := by
  simp only [name, bind_eq_ok, rest_eq_ok]
  constructor
  · rintro ⟨_, _, ⟨rfl, rfl⟩, h⟩
    split at h
    · next hs =>
      simp only [bind_eq_ok, takeWhile_eq_ok, pure_eq_ok, Option.some.injEq] at h
      obtain ⟨_, _, ⟨rfl, rfl⟩, rfl, rfl⟩ := h
      simp only [Bool.and_eq_true, Bool.not_eq_true'] at hs
      exact ⟨hs.1, hs.2, rfl, rfl⟩
    · simp [pure_eq_ok] at h
  · rintro ⟨hs, hr, rfl, rfl⟩
    refine ⟨_, _, ⟨rfl, rfl⟩, ?_⟩
    rw [if_pos (by simp [hs, hr])]
    simp only [bind_eq_ok, takeWhile_eq_ok, pure_eq_ok]
    exact ⟨_, _, ⟨rfl, rfl⟩, rfl, rfl⟩

theorem name_eq_none :
    name p = .ok (none, p') ↔
      ¬ (startsName p.rest ∧ isReserved (p.rest.takeWhile isNamePart) = false) ∧ p = p' := by
  simp only [name, bind_eq_ok, rest_eq_ok]
  constructor
  · rintro ⟨_, _, ⟨rfl, rfl⟩, h⟩
    split at h
    · simp only [bind_eq_ok, pure_eq_ok, reduceCtorEq, false_and, and_false, exists_false] at h
    · next hs => exact ⟨by simpa using hs, (pure_eq_ok.mp h).2⟩
  · rintro ⟨hs, rfl⟩
    refine ⟨_, _, ⟨rfl, rfl⟩, ?_⟩
    rw [if_neg (by simpa using hs)]
    exact pure_eq_ok.mpr ⟨rfl, rfl⟩

end Scan

namespace Place

/-- Reading some bytes leads from one place to another. -/
structure Passes (p : Place) (bytes : Bytes) (p' : Place) : Prop where
  rest : p.rest = bytes ++ p'.rest
  offset : p'.offset = p.offset + bytes.length

variable {m : Place} {first second : Bytes}

theorem Passes.refl (p : Place) : p.Passes [] p := ⟨rfl, rfl⟩

theorem Passes.trans (h : p.Passes first m) (h' : m.Passes second p') :
    p.Passes (first ++ second) p' :=
  ⟨by rw [h.rest, h'.rest, List.append_assoc], by rw [h'.offset, h.offset, List.length_append]; omega⟩

theorem Passes.congr (h : p.Passes first p') (he : first = second) : p.Passes second p' := he ▸ h

theorem Passes.length (h : p.Passes first p') :
    p.rest.length = first.length + p'.rest.length := by rw [h.rest, List.length_append]

/-- The bytes between two places are determined by them. -/
theorem Passes.unique (h : p.Passes first p') (h' : p.Passes second p') : first = second := by
  have hlen := h.offset.symm.trans h'.offset
  exact List.append_inj_left (h.rest.symm.trans h'.rest) (by omega)

/-- The place a number of bytes further on, when there are so many. -/
theorem passes_advance {n : Nat} (h : n ≤ p.rest.length) : p.Passes (p.rest.take n) (p.advance n) :=
  ⟨(List.take_append_drop n p.rest).symm, by
    rw [List.length_take, Nat.min_eq_left h]
    rfl⟩

theorem passes_of_prefix (h : first <+: p.rest) : p.Passes first (p.advance first.length) := by
  have hp := passes_advance h.length_le
  rwa [← List.prefix_iff_eq_take.mp h] at hp

theorem passes_of_eq {tail : Bytes} (h : p.rest = first ++ tail) :
    p.Passes first (p.advance first.length) :=
  passes_of_prefix ⟨tail, h.symm⟩

theorem passes_takeWhile (q : UInt8 → Bool) :
    p.Passes (p.rest.takeWhile q) (p.advance (p.rest.takeWhile q).length) :=
  passes_of_prefix (List.takeWhile_prefix q)

theorem passes_head {b : UInt8} (h : p.rest.head? = some b) : p.Passes [b] (p.advance 1) := by
  obtain ⟨tail, hrest⟩ := List.head?_eq_some_iff.mp h
  exact passes_of_eq hrest

theorem Passes.eq_advance (h : p.Passes first p') : p' = p.advance first.length := by
  obtain ⟨rest, offset⟩ := p'
  have ho : offset = p.offset + first.length := h.offset
  simp only [advance, h.rest, List.drop_left, ho]

/-- Some bytes may have been read on the way from one place to another. -/
instance : LE Place := ⟨fun p p' => ∃ bytes, p.Passes bytes p'⟩

/-- At least one byte has been read on the way from one place to another. -/
instance : LT Place := ⟨fun p p' => ∃ bytes, bytes ≠ [] ∧ p.Passes bytes p'⟩

theorem le_refl (p : Place) : p ≤ p := ⟨[], .refl p⟩

theorem le_trans (h : p ≤ m) (h' : m ≤ p') : p ≤ p' := by
  obtain ⟨_, h⟩ := h
  obtain ⟨_, h'⟩ := h'
  exact ⟨_, h.trans h'⟩

theorem le_of_lt (h : p < p') : p ≤ p' := by
  obtain ⟨_, _, h⟩ := h
  exact ⟨_, h⟩

theorem lt_of_lt_of_le (h : p < m) (h' : m ≤ p') : p < p' := by
  obtain ⟨_, hne, h⟩ := h
  obtain ⟨_, h'⟩ := h'
  exact ⟨_, List.append_ne_nil_of_left_ne_nil hne _, h.trans h'⟩

theorem sourceEnd_eq (h : p ≤ p') : p'.sourceEnd = p.sourceEnd := by
  obtain ⟨bytes, h⟩ := h
  have := h.length
  have := h.offset
  simp only [sourceEnd]
  omega

theorem length_lt (h : p < p') : p'.rest.length < p.rest.length := by
  obtain ⟨bytes, hne, h⟩ := h
  have := List.length_pos_iff.mpr hne
  have := h.length
  omega

end Place

end LuaSyntax
