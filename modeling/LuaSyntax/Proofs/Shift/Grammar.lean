import LuaSyntax.Proofs.Shift.Terminal
import LuaSyntax.Proofs.Congruence.Grammar

/-! # The grammar in a larger source

Every rule of the grammar does the same in a larger source and builds the same tree, moved by the
bytes that come before, at every nesting level.
-/
namespace LuaSyntax

open Parse Rule

namespace Grammar
variable {x : Shift}

theorem endsBlock_shift {rest : Bytes} (hl : x.Leaves rest) : endsBlock (rest ++ x.tail) = endsBlock rest := by
  have hempty : (rest ++ x.tail).isEmpty = rest.isEmpty := by
    rcases hl.room with htail | hne
    · rw [htail, List.append_nil]
    · obtain ⟨b, others, rfl⟩ := List.exists_cons_of_ne_nil hne
      rfl
  have hword : ∀ word ∈ blockEnds, startsWithKeyword word (rest ++ x.tail) = startsWithKeyword word rest := by
    intro word hm
    have hs : semicolon ∉ Bytes.ofString word := by
      revert word
      decide
    exact Bool.eq_iff_iff.mpr (startsWith_shift hl (fun hd => hs (List.dropLast_subset _ hd)) fun hd => (hs hd).elim)
  have hany : blockEnds.any (startsWithKeyword · (rest ++ x.tail)) = blockEnds.any (startsWithKeyword · rest) := by
    rw [Bool.eq_iff_iff, List.any_eq_true, List.any_eq_true]
    exact exists_congr fun word => and_congr_right fun hm => by rw [hword word hm]
  rw [endsBlock, endsBlock, hempty, hany]

end Grammar

/-- Every rule does in the larger source what it does in the source itself. -/
abbrev Congruence.shifts (x : Shift) : Congruence where
  toCombining := .shifts x
  Tests test := ∀ {c : Cursor}, x.Leaves c.rest → test (x.cursor c).rest = test c.rest
  tests_level hl := congrArg Option.isSome (level?_shift hl)
  tests_endsBlock hl := Grammar.endsBlock_shift hl
  guarded hs h := h.guarded hs
  iterate h hab := .iterate h hab
  iterate_items {_ _ _ _ _ _ item' separator} h hs _ :=
    Parse.Shifts.iterate (g := itemStep item' separator) (fun hl => (Combining.shifts x).itemStep h hs hl)
      (a := ([], true)) (b := ([], true)) ⟨.nil, rfl⟩
  read_bind h _ hnone hf := (Sequencing.shifts x).bind_found h.run hnone hf
  read_andThen h _ hf := (Combining.shifts x).andThen h hf
  both h _ hl h' _ := shifts_both h h' hl
  read_word hw := by
    obtain ⟨hplain, hs⟩ := isWord_iff.mp hw
    exact (scans_text (isPlain_iff.mp hplain).1 (fun hm => hs (List.dropLast_subset _ hm)) fun hm => (hs hm).elim).token
  read_semicolon := by
    have hscans : Scans x (Scan.text [semicolon] never) := scans_text (List.cons_ne_nil _ _) List.not_mem_nil fun _ => not_never
    exact hscans.token
  read_name := scans_name.token
  read_numeral := by
    have hread : (Combining.shifts x).Rules true (Likeness.shifts x).read (token Scan.numeral) (token Scan.numeral) :=
      scans_numeral.token
    exact (Combining.shifts x).ruleMono hread (.intro trivial)
  read_string := scans_string.token

namespace Grammar
variable {x : Shift}

theorem shifts_tooDeep {α β : Type} {V : α → β → Prop} : Parse.Shifts x V tooDeep tooDeep where
  le ho := nomatch ho
  result ho := nomatch ho
  ok ho := nomatch ho
  error _ _ _ _ ho _ := by
    obtain ⟨rfl, rfl⟩ := EStateM.Result.error.inj ho
    rfl

/-- The rules do the same in a larger source however many nesting levels are left. -/
theorem shifts_nesting (levels : Nat) : Nested.Congr (.shifts x) (nesting levels) (nesting levels) := by
  induction levels with
  | zero =>
    have hdeep : Rule.Shifts x (Likeness.shifts x).node tooDeep tooDeep := ⟨⟨⟨nofun, nofun⟩, nofun⟩, shifts_tooDeep⟩
    exact ⟨hdeep, hdeep, hdeep, shifts_tooDeep⟩
  | succ levels ih => exact ih.succ

variable {nested : Nested} (h : Nested.Congr (.shifts x) nested nested)
include h

/-- Other statements may have been listed before in the larger source. -/
theorem shifts_statementStep (front : List Node) {listed listed' : List Node} (hl : listed' = listed.map x.node ++ front) :
    Rule.Shifts x (fun listed listed' => listed' = listed.map x.node ++ front) (statementStep nested listed)
      (statementStep nested listed') := by
  refine congr_statementStep h fun hfound => ?_
  cases hfound with
  | none => exact hl
  | some hv => rw [← hv, hl]; rfl

theorem shifts_listStatements (front : List Node) :
    Parse.Shifts x (fun listed listed' => listed' = listed.map x.node ++ front) (iterate (statementStep nested) [])
      (iterate (statementStep nested) front) :=
  .iterate (shifts_statementStep h front) rfl

end Grammar

end LuaSyntax
