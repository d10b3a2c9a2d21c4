import LuaSyntax.Proofs.Excerpt.DerivedStatement

/-! # Spans in excerpts

What is read from a position on lies behind it, and moves with the excerpt that begins there.
-/
namespace LuaSyntax

open Phrase

/-- The tree with all its positions moved as one of them is. -/
def Node.moved (old new : Nat) : Node → Node :=
  respan fun span => ⟨span.pos + new - old, span.endPos + new - old⟩

variable {size levels : Nat} {s s' : Stream} {v : Node} {listed : List Node}

/-- Statements in a row lie behind the position that they are read from. -/
theorem series_lies (ho : s.Ordered size) (h : Series (phrases levels) s listed s') :
    s.position < s'.lastEnd ∧ ∀ v ∈ listed, v.Spanned ∧ s.position < v.span.pos := by
  have hnested := phrases_spanned size levels
  induction h with
  | last h =>
    obtain ⟨-, -, hp, -, hlt, hv⟩ := spanned_statement hnested ho h
    exact ⟨hlt, List.forall_mem_singleton.mpr ⟨hv, by omega⟩⟩
  | ret h =>
    obtain ⟨-, -, hp, -, hlt, hv⟩ := spanned_returnStatement hnested ho h
    exact ⟨hlt, List.forall_mem_singleton.mpr ⟨hv, by omega⟩⟩
  | @more s m m' s' v others blanks h hb _ ih =>
    obtain ⟨hm, hn, hp, -, hlt, hv⟩ := spanned_statement hnested ho h
    have hreach : m.Reaches m' := reaches_of_blanks hb
    have hle := hreach.position_le hm
    obtain ⟨hlast, hothers⟩ := ih (hreach.ordered hm)
    refine ⟨by omega, List.forall_mem_cons.mpr ⟨⟨hv, by omega⟩, fun w hw => ?_⟩⟩
    obtain ⟨hw, hpos⟩ := hothers w hw
    exact ⟨hw, by omega⟩

theorem spanned_tiered (rank : Nat) : (Tiered (phrases levels) rank).Spanned size := by
  have hnested := phrases_spanned size levels
  have hsimple : (Simple (phrases levels)).Spanned size := spanned_simple hnested
  have hunary : (Unary (phrases levels)).Spanned size := spanned_unary hnested
  have hconcatenation : (Concatenation (phrases levels)).Spanned size := spanned_concatenation hnested
  intro s v s' ho h
  unfold Tiered at h
  split at h
  · exact spanned_chains hconcatenation _ ho h
  · split at h
    · exact spanned_chains hunary _ ho h
    · split at h
      · exact spanned_withRight hsimple _ hnested.unary ho h
      · exact hsimple ho h

theorem open_spans (ho : s.Ordered size) (h : Open (phrases levels) s v s') :
    s.Spans size (s.position + 1) v s' := by
  have hnested := phrases_spanned size levels
  cases h with
  | tiered _ h => exact spanned_tiered _ ho h
  | @chain _ _ _ rank tier _ h =>
    obtain ⟨first, m, hfirst, hsteps⟩ := h
    have hoperand : (Tiered (phrases levels) (rank + 1)).Spanned size := spanned_tiered (rank + 1)
    exact .steps (chainStep_spans hoperand) (hoperand ho hfirst) hsteps
  | suffixed h =>
    obtain ⟨first, m, hfirst, hsteps⟩ := h
    refine .steps (suffix_spans hnested) ?_ hsteps
    rcases hfirst with hfirst | hfirst
    · exact spanned_name ho hfirst
    · exact spanned_parenthesized hnested ho hfirst

theorem Excerpt.node_eq_moved {after first place lastEnd sourceEnd : Nat} (hv : v.Spanned)
    (hp : first < v.span.pos) :
    (moved after first place lastEnd sourceEnd).node v = v.moved (first + 1) (place + 1) := by
  refine Node.respan_congr fun n hn => ?_
  obtain ⟨hle, -⟩ := hv n hn
  obtain ⟨hpos, -⟩ := hv.contains n hn
  simp only [Excerpt.span, Span.mk.injEq]
  rw [moved_position (by omega), moved_position (by omega)]
  omega

end LuaSyntax
