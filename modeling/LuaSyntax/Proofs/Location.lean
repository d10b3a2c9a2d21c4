import LuaSyntax.ParseError
import LuaSyntax.Proofs.Lines

/-! # Lines and columns

The location of an offset is counted back from it, the line of a position is looked up among the starts of
lines. Both count the line feeds in front, and no two offsets of a source have one location.
-/
namespace LuaSyntax

namespace Location

/-- A line begins at an offset and goes on at least up to another. -/
structure LineStart (source : Bytes) (offset start : Nat) : Prop where
  le : start ≤ offset
  first : start = 0 ∨ source[start - 1]? = some lineFeed
  unbroken : ∀ i, start ≤ i → i < offset → source[i]? ≠ some lineFeed

/-- Locations are ordered by line, and by column within a line. -/
def Before (a b : Location) : Prop := a.line < b.line ∨ a.line = b.line ∧ a.column < b.column

variable {source : Bytes} {offset other start : Nat} {a b c : Location}

theorem Before.trans (h : a.Before b) (h' : b.Before c) : a.Before c := by
  unfold Before at *
  omega

theorem Before.ne (h : a.Before b) : a ≠ b := by
  rintro rfl
  unfold Before at h
  omega

theorem ofOffset_line (source : Bytes) (offset : Nat) : (ofOffset source offset).line = (source.take offset).count lineFeed + 1 :=
  rfl

/-- Behind a line feed, the next line begins. -/
theorem ofOffset_lineFeed (h : source[offset]? = some lineFeed) :
    ofOffset source (offset + 1) = ⟨(ofOffset source offset).line + 1, 1⟩ := by
  obtain ⟨hlt, hget⟩ := List.getElem?_eq_some_iff.mp h
  have htake : source.take (offset + 1) = source.take offset ++ [lineFeed] := by
    rw [List.take_succ_eq_append_getElem hlt, hget]
  simp [ofOffset, htake]

theorem ofOffset_succ {byte : UInt8} (h : source[offset]? = some byte) (hne : byte ≠ lineFeed) :
    ofOffset source (offset + 1) = ⟨(ofOffset source offset).line, (ofOffset source offset).column + 1⟩ := by
  obtain ⟨hlt, hget⟩ := List.getElem?_eq_some_iff.mp h
  have htake : source.take (offset + 1) = source.take offset ++ [byte] := by
    rw [List.take_succ_eq_append_getElem hlt, hget]
  simp [ofOffset, htake, hne]

theorem ofOffset_of_le (h : source.length ≤ offset) : ofOffset source offset = ofOffset source source.length := by
  simp only [ofOffset, List.take_of_length_le h, List.take_length]

theorem before_succ (h : offset < source.length) : (ofOffset source offset).Before (ofOffset source (offset + 1)) := by
  have hget := List.getElem?_eq_getElem h
  by_cases hfeed : source[offset] = lineFeed
  · rw [ofOffset_lineFeed (hfeed ▸ hget)]
    exact .inl (Nat.lt_succ_self _)
  · rw [ofOffset_succ hget hfeed]
    exact .inr ⟨rfl, Nat.lt_succ_self _⟩

theorem before_of_lt (hlt : offset < other) (hle : other ≤ source.length) :
    (ofOffset source offset).Before (ofOffset source other) := by
  induction hlt with
  | refl => exact before_succ hle
  | step _ ih => exact (ih (Nat.le_of_succ_le hle)).trans (before_succ hle)

theorem ofOffset_injective (ho : offset ≤ source.length) (ho' : other ≤ source.length)
    (h : ofOffset source offset = ofOffset source other) : offset = other := by
  rcases Nat.lt_trichotomy offset other with hlt | heq | hlt
  · exact ((before_of_lt hlt ho').ne h).elim
  · exact heq
  · exact ((before_of_lt hlt ho).ne h.symm).elim

section Starts

theorem lineStart_zero (source : Bytes) : LineStart source 0 0 := ⟨Nat.le_refl 0, .inl rfl, fun _ _ hi => absurd hi (Nat.not_lt_zero _)⟩

/-- Every offset stands on a line, whose start is as far back as the column tells. -/
theorem lineStart_ofOffset (h : offset ≤ source.length) :
    ∃ start, LineStart source offset start ∧ start + (ofOffset source offset).column = offset + 1 := by
  induction offset with
  | zero => exact ⟨0, lineStart_zero source, rfl⟩
  | succ offset ih =>
    obtain ⟨start, hstart, hcolumn⟩ := ih (Nat.le_of_succ_le h)
    have hget := List.getElem?_eq_getElem h
    by_cases hfeed : source[offset] = lineFeed
    · refine ⟨offset + 1, ⟨Nat.le_refl _, .inr (hfeed ▸ hget), fun i hi hlt => ?_⟩, ?_⟩
      · omega
      · rw [ofOffset_lineFeed (hfeed ▸ hget)]
    · refine ⟨start, ⟨Nat.le_succ_of_le hstart.le, hstart.first, fun i hi hlt => ?_⟩, ?_⟩
      · rcases Nat.lt_succ_iff_lt_or_eq.mp hlt with hlt | rfl
        · exact hstart.unbroken i hi hlt
        · exact fun hsome => hfeed (Option.some.inj (hget.symm.trans hsome))
      · rw [ofOffset_succ hget hfeed, ← Nat.add_assoc, hcolumn]

theorem LineStart.le_start {start' : Nat} (h : LineStart source offset start) (h' : LineStart source offset start') :
    start' ≤ start := by
  refine Nat.le_of_not_lt fun hlt => ?_
  rcases h'.first with hzero | hfeed
  · omega
  · have hle := h'.le
    exact h.unbroken (start' - 1) (by omega) (by omega) hfeed

/-- The start of the line of an offset and the column tell the offset, and no other start does. -/
theorem lineStart_iff (h : offset ≤ source.length) :
    LineStart source offset start ↔ start + (ofOffset source offset).column = offset + 1 := by
  obtain ⟨start', hstart', hcolumn⟩ := lineStart_ofOffset h
  constructor
  · intro hstart
    obtain rfl := Nat.le_antisymm (hstart'.le_start hstart) (hstart.le_start hstart')
    exact hcolumn
  · intro hstart
    obtain rfl : start' = start := by omega
    exact hstart'

end Starts

theorem ofOffset_line_eq (source : Bytes) (offset : Nat) :
    (ofOffset source offset).line = (LineIndex.ofText source).line (offset + 1) := by
  rw [LineIndex.line_ofText, ofOffset_line, Nat.add_sub_cancel]

theorem ofOffset_line_le_of_le (h : offset ≤ other) : (ofOffset source offset).line ≤ (ofOffset source other).line := by
  have hsub : (source.take offset).Sublist (source.take other) := (List.take_prefix_take_left h).sublist
  exact Nat.succ_le_succ (hsub.count_le lineFeed)

theorem ofOffset_line_bounds (source : Bytes) (offset : Nat) :
    1 ≤ (ofOffset source offset).line ∧ (ofOffset source offset).line ≤ 1 + source.count lineFeed := by
  rw [ofOffset_line, Nat.add_comm 1]
  exact ⟨Nat.le_add_left 1 _, Nat.succ_le_succ ((List.take_sublist offset source).count_le lineFeed)⟩

end Location

end LuaSyntax
