import LuaSyntax.Proofs.Progress.Combinators

/-! # Going back over a token

A rule that goes back over its first token reads a byte behind it first. A source may end with a semicolon on a
line of its own, and a token with no semicolon in it leaves that byte, since no trivia reach over it.
-/
namespace LuaSyntax
variable {α : Type}

def semicolon : UInt8 := ';'.toUInt8

/-- A match leaves something of a source that ends with a semicolon on a line of its own. -/
def Rule.LeavesSemicolon (rule : Rule α) : Prop :=
  ∀ {c a m front}, rule c = .ok (some a) m → [lineFeed, semicolon] <:+ front ++ c.rest → m.rest ≠ []

/-- A trivium at the end of a source does not end with a semicolon on a line of its own. -/
theorem trivium_ends {text front : Bytes} (ht : TriviumSpelling [] text) :
    ¬ [lineFeed, semicolon] <:+ front ++ text := by
  intro hs
  have hlast (hne : text ≠ []) : [semicolon] <:+ text :=
    List.suffix_of_suffix_length_le ((List.suffix_cons lineFeed _).trans hs) (List.suffix_append front text)
      (List.length_pos_iff.mpr hne)
  cases ht with
  | space hspace hne =>
    have hsemicolon := hspace semicolon ((hlast hne).subset List.mem_cons_self)
    exact absurd hsemicolon (by decide)
  | @line line hl _ _ =>
    have hlength : [lineFeed, semicolon].length ≤ (commentMark ++ line).length := by
      simp [commentMark]
    have hboth := List.suffix_of_suffix_length_le hs (List.suffix_append front _) hlength
    rcases List.mem_append.mp (hboth.subset List.mem_cons_self) with hmark | hline
    · exact absurd hmark (by decide)
    · exact hl _ hline rfl
  | @long bracket content ht =>
    cases ht with
    | mk =>
      obtain ⟨front, hfront⟩ := hlast (by simp [commentMark])
      have hend := congrArg List.getLast? hfront
      rw [LongBracket.closing, ← List.append_assoc, ← List.append_assoc, List.getLast?_concat,
        List.getLast?_concat] at hend
      exact absurd hend (by decide)

theorem trivia_eq_nil {text front : Bytes} (ht : TriviaSpelling [] text)
    (hs : [lineFeed, semicolon] <:+ front ++ text) : text = [] := by
  induction ht generalizing front with
  | none => rfl
  | more hfirst _ ih =>
    rw [← List.append_assoc] at hs
    obtain rfl := ih hs
    rw [List.append_nil] at hs hfirst
    exact (trivium_ends hfirst hs).elim

namespace Rule

theorem leavesSemicolon_token {scan : Scan (Option α)} (hsteady : scan.Steady)
    (hfree : ∀ {p a p' bytes}, scan p = .ok (some a, p') → p.Passes bytes p' → semicolon ∉ bytes) :
    LeavesSemicolon (token scan) := by
  intro c found m front ho hends hm
  obtain ⟨a, span⟩ := found
  obtain ⟨place, hscan, -, hskip⟩ := token_eq_some.mp ho
  obtain ⟨bytes, hne, hbytes⟩ := hsteady.advances hscan
  obtain ⟨text, htext, -, hp, -⟩ := Parse.skipTrivia_spelling hskip
  have hrest : c.rest = bytes ++ text := by rw [(hbytes.trans hp).rest, hm, List.append_nil]
  rw [hm] at htext
  rw [hrest] at hends
  have htrivia : text = [] := trivia_eq_nil htext (List.append_assoc front bytes text ▸ hends)
  rw [htrivia, List.append_nil] at hends
  have hsemicolon : [semicolon] <:+ bytes :=
    List.suffix_of_suffix_length_le ((List.suffix_cons lineFeed _).trans hends) (List.suffix_append front bytes)
      (List.length_pos_iff.mpr hne)
  exact hfree hscan hbytes (hsemicolon.subset List.mem_cons_self)

theorem LeavesSemicolon.map {β : Type} {rule : Rule α} (h : rule.LeavesSemicolon) (f : α → β) :
    (rule.map f).LeavesSemicolon := by
  intro c b m front ho hends
  obtain ⟨a, ho, -⟩ := map_eq_some.mp ho
  exact h ho hends

theorem leavesSemicolon_name : LeavesSemicolon (token Scan.name) := by
  refine leavesSemicolon_token Scan.steady_name fun {p text p' bytes} hscan hp hm => ?_
  obtain ⟨-, -, rfl, rfl⟩ := Scan.name_eq_some.mp hscan
  obtain rfl : bytes = p.rest.takeWhile isNamePart :=
    List.append_cancel_right (hp.rest.symm.trans (Place.passes_takeWhile isNamePart).rest)
  exact absurd (List.mem_takeWhile_imp hm) (by decide)

theorem leavesSemicolon_comma : LeavesSemicolon (symbol ",") := by
  refine LeavesSemicolon.map (leavesSemicolon_token (Scan.steady_text never (by decide)) ?_) _
  intro p _ p' bytes hscan hp hm
  obtain ⟨hs, rfl⟩ := Scan.text_eq_some.mp hscan
  have hcomma := Place.passes_of_prefix (startsWith_iff.mp hs).1
  obtain rfl := List.append_cancel_right (hp.rest.symm.trans hcomma.rest)
  exact absurd hm (by decide)

end Rule

end LuaSyntax
