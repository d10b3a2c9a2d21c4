import LuaSyntax.Proofs.Print.Writable
import LuaSyntax.Proofs.Rescan.Source
import LuaSyntax.Proofs.Need.Chunk

/-! # Parsing printed trees

The text of a tree of the right shape, with integers as its only numbers, parses back to it,
up to spans.
-/
namespace LuaSyntax

open Phrase

/-- Parsing undoes printing. The text of a tree that has the shape of a chunk, and only
integers as numbers, parses back to the tree, up to spans, under every limit that is no
smaller than what the tree needs, which is no more than it has nodes. -/
theorem parse_print {tree : Node} (h : Shaped .block tree) (hi : tree.Every Node.Integral) (filename : String) :
    ∃ root : Node, root.EqBare tree ∧ root.need ≤ tree.weight ∧
      ∀ limit, root.need ≤ limit → parse tree.print limit filename = .ok root := by
  have hwritable : Writable tree.tokens := Node.prints_of_shaped h hi
  obtain ⟨s, s', hs, hspells, hnil⟩ := lexed_text hwritable 0 0
  obtain ⟨root, hroot, halike⟩ := Node.reads_root h (Nat.le_refl _) hspells hnil
  have hparse : parse tree.print tree.weight filename = .ok root :=
    parse_of_lexed hs (not_startsTrivium_separated hwritable) hroot
  obtain ⟨hfits, hmore⟩ := parse_fits hparse
  exact ⟨root, halike, hfits, hmore⟩

theorem parse_print_call : ∃ tree root : Node, tree.print = .ofString "f ( nil )" ∧ root.EqBare tree ∧
    root.need ≤ tree.weight ∧ ∀ limit, root.need ≤ limit → parse (.ofString "f ( nil )") limit "" = .ok root := by
  let call : Node := ⟨.call ⟨.name (.ofString "f"), 0, 0⟩ [⟨.nil, 0, 0⟩], 0, 0⟩
  have hname : Shaped .name ⟨.name (.ofString "f"), 0, 0⟩ :=
    .name ⟨by decide, List.forall_mem_singleton.mpr (by decide), by decide⟩
  have hcall : Shaped .statement call :=
    .statementCall (.call (.baseName hname) (List.forall_mem_singleton.mpr .nil)) rfl
  have hshaped : Shaped .block ⟨.block ([call] ++ (none : Option Node).toList), 0, 0⟩ :=
    .block (List.forall_mem_singleton.mpr hcall) nofun
  have hintegral : Node.Every Node.Integral ⟨.block [call], 0, 0⟩ := by
    simp [call, Node.every_mk, Node.Integral, Form.children]
  obtain ⟨root, halike, hneed, hparse⟩ := parse_print hshaped hintegral ""
  exact ⟨_, root, rfl, halike, hneed, hparse⟩

end LuaSyntax
