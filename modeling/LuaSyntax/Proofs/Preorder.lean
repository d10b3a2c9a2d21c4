import Mathlib.Algebra.Ring.Nat
import LuaSyntax.Proofs.Walk

/-! # Preorder

The walk with a list of pending subtrees takes the order of the recursive definition. A node of a tree is
told by the child indices on the way down to it. The walk comes to every such path once, and to none
before those that lead to the nodes above.
-/
namespace LuaSyntax.Node

/-- A node, then what lies below it, one child after the other. -/
def depthFirst (node : Node) : List Node :=
  node :: node.children.attach.flatMap fun child => child.1.depthFirst
termination_by sizeOf node
decreasing_by exact sizeOf_lt_of_mem_children child.2

/-- The node at the end of a path of child indices. -/
def at? (node : Node) : List Nat → Option Node
  | [] => some node
  | i :: path => node.children[i]?.bind fun child => child.at? path

/-- The paths to the nodes of a tree, each in front of those that go on from it. -/
def paths (node : Node) : List (List Nat) :=
  [] :: node.children.attach.zipIdx.flatMap fun entry => entry.1.1.paths.map (entry.2 :: ·)
termination_by sizeOf node
decreasing_by exact sizeOf_lt_of_mem_children entry.1.2

variable {node child : Node} {i : Nat} {path : List Nat}

theorem depthFirst_eq_cons (node : Node) : node.depthFirst = node :: node.children.flatMap depthFirst := by
  have hbelow : node.children.attach.flatMap (fun child => child.1.depthFirst) = node.children.flatMap depthFirst :=
    calc node.children.attach.flatMap (fun child => child.1.depthFirst)
        = (node.children.attach.map Subtype.val).flatMap depthFirst := by rw [List.flatMap_map]
      _ = node.children.flatMap depthFirst := by rw [List.attach_map_subtype_val]
  rw [depthFirst, hbelow]

/-- What the walk visits, taken from pending subtrees, is what the recursion lists. -/
theorem preorder_eq_depthFirst (node : Node) : node.preorder = node.depthFirst := by
  induction node using children_induction with
  | h node ih =>
    rw [preorder_eq_cons, depthFirst_eq_cons, List.flatMap_def, List.flatMap_def, List.map_congr_left ih]

theorem length_preorder (node : Node) : node.preorder.length = 1 + (node.children.map weight).sum := by
  have hweights (nodes : List Node) : weights nodes 1 = 1 + (nodes.map weight).sum := by
    induction nodes with
    | nil => rfl
    | cons node others ih =>
      have hcons : weights (node :: others) 1 = node.weight + weights others 1 := rfl
      rw [hcons, ih, List.map_cons, List.sum_cons, Nat.add_left_comm]
  induction node using children_induction with
  | h node ih =>
    have hchild : ∀ child ∈ node.children, child.preorder.length = child.weight := by
      intro child hc
      rw [ih child hc, weight_eq, hweights]
    rw [preorder_eq_cons, List.length_cons, List.length_flatMap, List.map_congr_left hchild, Nat.add_comm]

section Paths

@[simp] theorem at?_nil (node : Node) : node.at? [] = some node := rfl

theorem at?_cons (h : node.children[i]? = some child) (path : List Nat) : node.at? (i :: path) = child.at? path := by
  rw [at?, h]
  rfl

theorem paths_eq_cons (node : Node) :
    node.paths = [] :: node.children.zipIdx.flatMap fun entry => entry.1.paths.map (entry.2 :: ·) := by
  have hzip : node.children.attach.zipIdx.map (Prod.map Subtype.val id) = node.children.zipIdx := by
    rw [← List.zipIdx_map, List.attach_map_subtype_val]
  rw [paths, ← hzip, List.flatMap_map]
  rfl

theorem mem_paths_iff : path ∈ node.paths ↔ (node.at? path).isSome := by
  induction path generalizing node with
  | nil =>
    rw [paths_eq_cons]
    exact iff_of_true List.mem_cons_self rfl
  | cons i path ih =>
    rw [paths_eq_cons, List.mem_cons, List.mem_flatMap]
    constructor
    · rintro (h | ⟨⟨child, j⟩, hc, h⟩)
      · cases h
      · obtain ⟨rest, hrest, heq⟩ := List.mem_map.mp h
        obtain ⟨rfl, rfl⟩ := List.cons.inj heq
        rw [at?_cons (List.mem_zipIdx_iff_getElem?.mp hc)]
        exact ih.mp hrest
    · intro h
      cases hc : node.children[i]? with
      | none => simp [at?, hc] at h
      | some child =>
        rw [at?_cons hc] at h
        exact .inr ⟨(child, i), List.mem_zipIdx_iff_getElem?.mpr hc, List.mem_map_of_mem (ih.mpr h)⟩

theorem map_at?_paths (node : Node) : node.paths.map node.at? = node.preorder.map some := by
  induction node using children_induction with
  | h node ih =>
    have hchild : ∀ entry ∈ node.children.zipIdx,
        (entry.1.paths.map (entry.2 :: ·)).map node.at? = entry.1.preorder.map some := by
      rintro ⟨child, i⟩ hm
      have hc : node.children[i]? = some child := List.mem_zipIdx_iff_getElem?.mp hm
      rw [List.map_map, ← ih child (List.mem_of_getElem? hc)]
      exact List.map_congr_left fun path _ => at?_cons hc path
    calc node.paths.map node.at?
        = some node :: node.children.zipIdx.flatMap fun entry =>
            (entry.1.paths.map (entry.2 :: ·)).map node.at? := by
          rw [paths_eq_cons, List.map_cons, List.map_flatMap, at?_nil]
      _ = some node :: (node.children.zipIdx.map Prod.fst).flatMap fun child => child.preorder.map some := by
          rw [List.flatMap_def, List.map_congr_left hchild, ← List.flatMap_def, List.flatMap_map]
      _ = node.preorder.map some := by
          rw [List.zipIdx_map_fst, preorder_eq_cons, List.map_cons, List.map_flatMap]

theorem paths_descend (node : Node) : node.paths.Pairwise fun earlier later => ¬ later <+: earlier := by
  induction node using children_induction with
  | h node ih =>
    rw [paths_eq_cons, List.pairwise_cons, List.pairwise_flatMap]
    refine ⟨fun path hm hprefix => ?_, fun entry hm => ?_, ?_⟩
    · obtain ⟨entry, -, hpath⟩ := List.mem_flatMap.mp hm
      obtain ⟨rest, -, rfl⟩ := List.mem_map.mp hpath
      exact List.cons_ne_nil _ _ (List.prefix_nil.mp hprefix)
    · obtain ⟨child, i⟩ := entry
      have hc : node.children[i]? = some child := List.mem_zipIdx_iff_getElem?.mp hm
      refine List.pairwise_map.mpr ((ih child (List.mem_of_getElem? hc)).imp fun hnot hprefix => ?_)
      exact hnot (List.cons_prefix_cons.mp hprefix).2
    · -- paths below different children begin with different indices
      have hindices : (node.children.zipIdx.map Prod.snd).Pairwise (· < ·) := by
        rw [List.zipIdx_map_snd]
        exact List.pairwise_lt_range'
      refine (List.pairwise_map.mp hindices).imp fun hlt earlier he later hl hprefix => ?_
      obtain ⟨_, -, rfl⟩ := List.mem_map.mp he
      obtain ⟨_, -, rfl⟩ := List.mem_map.mp hl
      exact Nat.ne_of_gt hlt (List.cons_prefix_cons.mp hprefix).1

end Paths

/-- The walk of a tree is the recursive one. It comes to the node at the end of every path, to each once and
to none before the nodes above it, so it takes one step for the node and those for the subtrees of its
children. -/
theorem preorder_exact (node : Node) :
    node.preorder = node.depthFirst ∧ node.preorder.map some = node.paths.map node.at? ∧
      (∀ path, path ∈ node.paths ↔ (node.at? path).isSome) ∧ node.paths.Nodup ∧
      (node.paths.Pairwise fun earlier later => ¬ later <+: earlier) ∧
      node.preorder.length = 1 + (node.children.map weight).sum := by
  have hdescend := node.paths_descend
  have honce : node.paths.Nodup := by
    refine hdescend.imp fun hnot heq => ?_
    exact hnot (heq ▸ List.prefix_refl _)
  exact ⟨node.preorder_eq_depthFirst, node.map_at?_paths.symm, fun _ => mem_paths_iff, honce, hdescend,
    node.length_preorder⟩

end LuaSyntax.Node
