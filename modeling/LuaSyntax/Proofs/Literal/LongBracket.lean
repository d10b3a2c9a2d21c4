import LuaSyntax.Proofs.Outcome.Scan

/-! # Spellings of long brackets

A long bracket is an opening bracket, at most one line break that does not count, content
in which the closing bracket does not occur earlier, and the closing bracket.
-/
namespace LuaSyntax

theorem lineBreakLength_append {bytes tail : Bytes} (h : 2 ≤ bytes.length) :
    lineBreakLength (bytes ++ tail) = lineBreakLength bytes := by
  match bytes, h with
  | _ :: _ :: _, _ => rfl

theorem lineBreakLength_le (bytes : Bytes) : lineBreakLength bytes ≤ bytes.length := by
  match bytes with
  | [] => exact Nat.le_refl 0
  | [b] => simp only [lineBreakLength]; split <;> simp
  | b :: c :: tail =>
    simp only [lineBreakLength, List.length_cons]
    split
    · split <;> omega
    · omega

namespace LongBracket

/-- The opening bracket of a level. -/
def opening (level : Nat) : Bytes :=
  '['.toUInt8 :: List.replicate level '='.toUInt8 ++ ['['.toUInt8]

/-- The form of long brackets, with their content. -/
inductive Spelling : Bytes → Bytes → Prop
  | mk {level : Nat} {lineBreak content : Bytes}
      (hb : lineBreakLength (lineBreak ++ content ++ closing level) = lineBreak.length)
      (hc : ∀ n < content.length, ¬ closing level <+: (content ++ closing level).drop n) :
      Spelling (opening level ++ lineBreak ++ content ++ closing level) content

theorem length_opening (level : Nat) : (opening level).length = level + 2 := by
  simp [opening]

theorem length_closing (level : Nat) : (closing level).length = level + 2 := by
  simp [closing]

theorem level?_eq_some {bytes : Bytes} {level : Nat} (h : level? bytes = some level) :
    ∃ tail, bytes = opening level ++ tail := by
  cases bytes with
  | nil => simp [level?] at h
  | cons b inner =>
    simp only [level?] at h
    split at h
    · next hcond =>
      simp only [Bool.and_eq_true, beq_iff_eq] at hcond
      obtain ⟨rfl, hhead⟩ := hcond
      cases h
      obtain ⟨tail, htail⟩ := List.head?_eq_some_iff.mp hhead
      have hrun : inner.takeWhile (· == '='.toUInt8) =
          List.replicate (inner.takeWhile (· == '='.toUInt8)).length '='.toUInt8 :=
        List.eq_replicate_of_mem fun b hb => by
          simpa using List.all_eq_true.mp List.all_takeWhile b hb
      have hsplit := List.prefix_iff_eq_append.mp
        (List.takeWhile_prefix (l := inner) (· == '='.toUInt8))
      rw [htail] at hsplit
      refine ⟨tail, ?_⟩
      rw [opening, ← hrun, List.cons_append, List.cons_append, List.append_assoc]
      exact congrArg _ hsplit.symm
    · simp at h

theorem contentBefore?_eq_some {mark passed bytes content : Bytes}
    (h : contentBefore? mark passed bytes = some content) :
    ∃ front tail, content = passed.reverse ++ front ∧ bytes = front ++ mark ++ tail ∧
      ∀ n < front.length, ¬ mark <+: bytes.drop n := by
  induction bytes generalizing passed with
  | nil => simp [contentBefore?] at h
  | cons b rest ih =>
    simp only [contentBefore?] at h
    split at h
    · next hmark =>
      cases h
      obtain ⟨tail, htail⟩ := List.isPrefixOf_iff_prefix.mp hmark
      exact ⟨[], tail, by simp, by simp [htail], by simp⟩
    · next hmark =>
      obtain ⟨front, tail, rfl, rfl, hfirst⟩ := ih h
      refine ⟨b :: front, tail, by simp, by simp, ?_⟩
      intro n hn
      cases n with
      | zero => exact fun hp => hmark (List.isPrefixOf_iff_prefix.mpr hp)
      | succ n => exact hfirst n (by simpa using hn)

end LongBracket

open LongBracket

/-- A scanned long bracket has the form and the content. -/
theorem Scan.longBracket_spelling {p p' : Place} {content : Bytes}
    (h : longBracket p = .ok (some content, p')) :
    ∃ text, Spelling text content ∧ p.Passes text p' := by
  simp only [longBracket, bind_eq_ok, rest_eq_ok] at h
  obtain ⟨_, _, ⟨rfl, rfl⟩, h⟩ := h
  cases hlevel : level? p.rest with
  | none => simp [hlevel, pure_eq_ok] at h
  | some level =>
    simp only [hlevel, bind_eq_ok, advance_eq_ok, rest_eq_ok, get_eq_ok] at h
    obtain ⟨_, m, hm, _, _, ⟨rfl, rfl⟩, _, _, hm', m', _, ⟨rfl, rfl⟩, h⟩ := h
    obtain ⟨tail, htail⟩ := level?_eq_some hlevel
    have hopen : p.Passes (opening level) m := by
      rw [hm, ← length_opening]
      exact Place.passes_of_eq htail
    have hbreak := Place.passes_advance (lineBreakLength_le m.rest)
    rw [← hm'] at hbreak
    cases hcontent : contentBefore? (closing level) [] m'.rest with
    | none =>
      rw [hcontent] at h
      exact (failAt_ne_ok h).elim
    | some found =>
      rw [hcontent] at h
      simp only [bind_eq_ok, advance_eq_ok, pure_eq_ok, Option.some.injEq] at h
      obtain ⟨_, _, hlast, rfl, rfl⟩ := h
      obtain ⟨_, after, rfl, hrest, hfirst⟩ := contentBefore?_eq_some hcontent
      have hclose := Place.passes_of_eq hrest
      rw [List.length_append, length_closing, ← Nat.add_assoc, ← hlast] at hclose
      suffices hs : Spelling (opening level ++ m.rest.take (lineBreakLength m.rest) ++ found ++
          closing level) found from ⟨_, hs, ((hopen.trans hbreak).trans hclose).congr (by simp)⟩
      refine .mk ?_ ?_
      · have hall : m.rest = m.rest.take (lineBreakLength m.rest) ++ found ++ closing level ++ after := by
          rw [List.append_assoc, List.append_assoc, ← List.append_assoc found, ← hrest]
          exact hbreak.rest
        have hlen : 2 ≤ (m.rest.take (lineBreakLength m.rest) ++ found ++ closing level).length := by
          simp only [List.length_append, length_closing]
          omega
        rw [← lineBreakLength_append hlen, ← hall, List.length_take, Nat.min_eq_left (lineBreakLength_le _)]
      · intro n hn hp
        refine hfirst n hn (hp.trans ?_)
        rw [hrest]
        exact ⟨_, List.drop_append.symm⟩

theorem Scan.longBracket_eq_none {p p' : Place} :
    longBracket p = .ok (none, p') ↔ level? p.rest = none ∧ p = p' := by
  simp only [longBracket, bind_eq_ok, rest_eq_ok]
  cases hlevel : level? p.rest with
  | none =>
    constructor
    · rintro ⟨_, _, ⟨rfl, rfl⟩, h⟩
      rw [hlevel] at h
      exact ⟨rfl, (pure_eq_ok.mp h).2⟩
    · rintro ⟨-, rfl⟩
      refine ⟨_, _, ⟨rfl, rfl⟩, ?_⟩
      rw [hlevel]
      exact pure_eq_ok.mpr ⟨rfl, rfl⟩
  | some level =>
    refine ⟨?_, fun h => (nomatch h.1)⟩
    rintro ⟨_, _, ⟨rfl, rfl⟩, h⟩
    simp only [hlevel, bind_eq_ok] at h
    obtain ⟨_, _, _, _, _, _, _, _, _, place, _, _, h⟩ := h
    cases hcontent : contentBefore? (closing level) [] place.rest with
    | some found =>
      rw [hcontent] at h
      simp only [bind_eq_ok, pure_eq_ok, reduceCtorEq, false_and, and_false, exists_false] at h
    | none =>
      rw [hcontent] at h
      exact (failAt_ne_ok h).elim

theorem LongBracket.Spelling.ne_nil {text content : Bytes} (h : Spelling text content) :
    text ≠ [] := by
  cases h
  simp [opening]

end LuaSyntax
