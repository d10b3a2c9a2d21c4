import LuaSyntax.Proofs.Location

/-! # Executable lines

The lines at which execution can stop are those of the statements of a tree and of the conditions of its
branches and `repeat` loops, wherever in the tree they stand. As a set of lines they can be listed, counted
and looked up.
-/
namespace LuaSyntax

/-- The parts of a form, whichever place they have in it. -/
def Form.Has {α : Type} (part : α) : Form α → Prop
  | .doBlock inner | .paren inner | .unary _ inner => part = inner
  | .whileLoop first second | .repeatLoop first second | .localNames first second | .localFunction first second
  | .assignment first second | .pair first second | .index first second | .binary _ first second =>
    part = first ∨ part = second
  | .genericFor names values body => part = names ∨ part = values ∨ part = body
  | .numericFor counter start limit step body =>
    part = counter ∨ part = start ∨ part = limit ∨ part ∈ step ∨ part = body
  | .conditional branches otherwise =>
    (∃ branch ∈ branches, part = branch.1 ∨ part = branch.2) ∨ part ∈ otherwise
  | .block parts | .returnValues parts | .nameList parts | .targetList parts | .valueList parts | .table parts =>
    part ∈ parts
  | .function parameters body _ => part ∈ parameters ∨ part = body
  | .call callee arguments => part = callee ∨ part ∈ arguments
  | .invoke object method arguments => part = object ∨ part = method ∨ part ∈ arguments
  | .label _ | .goto _ | .breakLoop | .name _ | .string _ | .number _ | .boolean _ | .nil | .varargs => False

/-- No part of a form is left out of its children. -/
theorem Form.has_iff {α : Type} {form : Form α} {part : α} : form.Has part ↔ part ∈ form.children := by
  cases form <;> simp [Has, children]

namespace Node
variable {root v n : Node}

/-- A node stands somewhere in a tree, at any depth. -/
inductive PartOf (n : Node) : Node → Prop
  | root : PartOf n n
  | part {v part : Node} (hp : v.form.Has part) (h : PartOf n part) : PartOf n v

/-- Execution can stop at the statements of a tree, labels aside, at the conditions of `if` and `elseif`,
and at those of `repeat` loops. -/
inductive Stops (root : Node) : Node → Prop
  | statement {statements : List Node} {span : Span} {v : Node} (h : PartOf ⟨.block statements, span⟩ root)
      (hm : v ∈ statements) (hl : v.tag ≠ .label) : Stops root v
  | condition {branches : List (Node × Node)} {otherwise : Option Node} {span : Span} {v body : Node}
      (h : PartOf ⟨.conditional branches otherwise, span⟩ root) (hm : (v, body) ∈ branches) : Stops root v
  | untilCondition {body v : Node} {span : Span} (h : PartOf ⟨.repeatLoop body v, span⟩ root) : Stops root v

theorem partOf_iff : n.PartOf root ↔ n ∈ root.preorder := by
  constructor
  · intro h
    induction h with
    | root => exact mem_preorder_self _
    | part hp _ ih => exact mem_preorder_of_child (Form.has_iff.mp hp) ih
  · induction root using children_induction with
    | h root ih =>
      rw [preorder_eq_cons, List.mem_cons, List.mem_flatMap]
      rintro (rfl | ⟨child, hc, hn⟩)
      · exact .root
      · exact .part (Form.has_iff.mpr hc) (ih child hc hn)

theorem isLabel_iff : v.form.isLabel ↔ v.tag = .label := by
  obtain ⟨form, span⟩ := v
  cases form <;> simp [tag, Form.tag, Form.isLabel]

/-- What is collected from each node that is visited. -/
theorem stops_iff : root.Stops v ↔ ∃ n ∈ root.preorder, v ∈ n.form.stops := by
  constructor
  · intro h
    cases h with
    | statement h hm hl =>
      refine ⟨_, partOf_iff.mp h, List.mem_filter.mpr ⟨hm, ?_⟩⟩
      simpa using mt isLabel_iff.mp hl
    | condition h hm => exact ⟨_, partOf_iff.mp h, List.mem_map.mpr ⟨_, hm, rfl⟩⟩
    | untilCondition h => exact ⟨_, partOf_iff.mp h, List.mem_singleton.mpr rfl⟩
  · rintro ⟨⟨form, span⟩, hn, hv⟩
    have hpart := partOf_iff.mpr hn
    cases form with
    | block statements =>
      obtain ⟨hm, hlabel⟩ := List.mem_filter.mp hv
      refine .statement hpart hm (mt isLabel_iff.mpr ?_)
      simpa using hlabel
    | conditional branches otherwise =>
      obtain ⟨branch, hm, rfl⟩ := List.mem_map.mp hv
      exact .condition hpart hm
    | repeatLoop body condition =>
      obtain rfl := List.mem_singleton.mp hv
      exact .untilCondition hpart
    | _ => cases hv

end Node

namespace ExecutableLines
variable {executable : ExecutableLines} {line : Nat}

theorem sorted_perm (executable : ExecutableLines) : executable.sorted.Perm executable.lines.toList :=
  List.mergeSort_perm _ _

theorem mem_sorted : line ∈ executable.sorted ↔ executable.contains line := by
  rw [executable.sorted_perm.mem_iff, Std.HashSet.mem_toList, contains, Std.HashSet.contains_iff_mem]

theorem length_sorted (executable : ExecutableLines) : executable.sorted.length = executable.size := by
  rw [executable.sorted_perm.length_eq, Std.HashSet.length_toList, size]

theorem sorted_ascends (executable : ExecutableLines) : executable.sorted.Pairwise (· < ·) := by
  have hle : executable.sorted.Pairwise (· ≤ ·) := by
    refine (List.pairwise_mergeSort ?_ ?_ _).imp of_decide_eq_true
    · intro a b c hab hbc
      exact decide_eq_true (Nat.le_trans (of_decide_eq_true hab) (of_decide_eq_true hbc))
    · intro a b
      simpa using Nat.le_total a b
  have hdistinct : executable.sorted.Pairwise (· ≠ ·) := by
    refine executable.sorted_perm.nodup_iff.mpr ?_
    exact Std.HashSet.distinct_toList.imp fun h => by simpa using h
  exact (hle.and hdistinct).imp fun ⟨hle, hne⟩ => Nat.lt_of_le_of_ne hle hne

theorem sorted_eq_nil : executable.sorted = [] ↔ executable.isEmpty := by
  rw [← List.length_eq_zero_iff, length_sorted, isEmpty, Std.HashSet.isEmpty_eq_size_eq_zero, size, beq_iff_eq]

end ExecutableLines

/-- The executable lines of a tree in a text are the lines on which something begins that execution can
stop at. Listed they ascend, without repetition or omission, within the lines of the text. -/
theorem executableLines_exact (root : Node) (text : Bytes) :
    (∀ line, (executableLines root text).contains line ↔
      ∃ v, root.Stops v ∧ (LineIndex.ofText text).line v.span.pos = line) ∧
    (executableLines root text).sorted.Pairwise (· < ·) ∧
    (∀ line, line ∈ (executableLines root text).sorted ↔ (executableLines root text).contains line) ∧
    (executableLines root text).sorted.length = (executableLines root text).size ∧
    ((executableLines root text).sorted = [] ↔ (executableLines root text).isEmpty) ∧
    ∀ line ∈ (executableLines root text).sorted, 1 ≤ line ∧ line ≤ 1 + text.count lineFeed := by
  have hcontains (line : Nat) : (executableLines root text).contains line ↔
      ∃ v, root.Stops v ∧ (LineIndex.ofText text).line v.span.pos = line := by
    simp only [contains_executableLines, Node.stops_iff, LineIndex.line_ofText]
    constructor
    · rintro ⟨n, hn, v, hv, hline⟩
      exact ⟨v, ⟨n, hn, hv⟩, hline⟩
    · rintro ⟨v, ⟨n, hn, hv⟩, hline⟩
      exact ⟨n, hn, v, hv, hline⟩
  refine ⟨hcontains, ExecutableLines.sorted_ascends _, fun _ => ExecutableLines.mem_sorted,
    ExecutableLines.length_sorted _, ExecutableLines.sorted_eq_nil, fun line hm => ?_⟩
  obtain ⟨v, -, rfl⟩ := (hcontains line).mp (ExecutableLines.mem_sorted.mp hm)
  have hbounds := Location.ofOffset_line_bounds text (v.span.pos - 1)
  rwa [Location.ofOffset_line, ← LineIndex.line_ofText] at hbounds

end LuaSyntax
