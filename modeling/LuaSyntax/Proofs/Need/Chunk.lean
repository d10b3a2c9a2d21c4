import LuaSyntax.Proofs.Need.Statement

/-! # The limit that a source needs

A source that parses under one limit parses under another one exactly if that is no smaller
than what the tree needs.
-/
namespace LuaSyntax
variable {limit levels : Nat}

open Node (need Fits FitsBelow)
open Phrase

theorem Phrase.Needs.succ {phrase nested : Nat → Phrase Node} (h : Phrase.Needs limit phrase Fits levels)
    (hn : ∀ n, nested (n + 1) = phrase n) : Phrase.Needs limit nested FitsBelow (levels + 1) := by
  intro s v s' ho hv
  rw [hn] at hv
  obtain ⟨hle, hmore⟩ := h ho hv
  have hfits (n : Nat) : v.FitsBelow (n + 1) ↔ v.Fits n := by
    rw [FitsBelow, Nat.add_comm, Nat.add_le_add_iff_right]
  refine ⟨(hfits _).mpr hle, fun more hm => ?_⟩
  cases more with
  | zero =>
    rw [FitsBelow] at hm
    omega
  | succ more =>
    rw [hn]
    exact hmore more ((hfits _).mp hm)

theorem phrases_needs (limit levels : Nat) : Phrases.Needs limit levels := by
  induction levels with
  | zero => exact ⟨fun _ _ _ _ h => h.elim, fun _ _ _ _ h => h.elim, fun _ _ _ _ h => h.elim,
      fun _ _ _ _ h => h.elim⟩
  | succ levels ih =>
    exact ⟨(needs_expression ih).succ fun _ => rfl, (needs_concatenation ih).succ fun _ => rfl,
      (needs_unary ih).succ fun _ => rfl, (needs_block ih).succ fun _ => rfl⟩

theorem chunk_needs {s : Stream} {root : Node} (ho : s.Ordered limit) (h : Chunk levels s root) :
    root.Fits levels ∧ ∀ more, root.Fits more → Chunk more s root := by
  obtain ⟨listed, s', hlisted, hnil, rfl⟩ := h
  obtain ⟨hle, hmore⟩ := needs_statements (phrases_needs limit levels) ho hlisted
  exact ⟨block_fits.mpr hle, fun more hm => ⟨listed, s', hmore more (block_fits.mp hm), hnil, rfl⟩⟩

/-- A parsed tree fits in the limit of its parse, and is what any limit that it fits in yields. -/
theorem parse_fits {source : Bytes} {filename : String} {root : Node}
    (h : parse source levels filename = .ok root) :
    root.Fits levels ∧ ∀ more, root.Fits more → parse source more filename = .ok root := by
  obtain ⟨m, s, hskip, hs, hchunk⟩ := parse_eq_ok.mp h
  have hle : m.lastEnd ≤ m.offset := by
    obtain ⟨line, -, hp, hlast⟩ := skipShebang_spelling source
    obtain ⟨trivia, -, -, hp', hlast'⟩ := Parse.skipTrivia_spelling hskip
    omega
  obtain ⟨hfits, hmore⟩ := chunk_needs (hs.ordered hle) hchunk
  exact ⟨hfits, fun more hm => parse_eq_ok.mpr ⟨m, s, hskip, hs, hmore more hm⟩⟩

/-- A suffix without the expression that it is for. -/
inductive SuffixForm where
  | index (key : Node) (span : Span)
  | call (arguments : List Node) (span : Span)
  | invoke (method : Node) (arguments : List Node) (span : Span)

def SuffixForm.on (object : Node) : SuffixForm → Node
  | index key span => ⟨.index object key, span⟩
  | call arguments span => ⟨.call object arguments, span⟩
  | invoke method arguments span => ⟨.invoke object method arguments, span⟩

/-- What is read one after the other on one level needs what its parts need, however many they
are. -/
structure FlatNeeds : Prop where
  operators : ∀ (first : Node) (others : List (BinaryOp × Node)) (n : Nat),
    (∀ other ∈ others, Node.groupsRight other.1 = false) →
      ((others.foldl (fun left other => .binary other.1 left other.2) first).Fits n ↔
        first.Fits n ∧ ∀ other ∈ others, other.2.Fits n)
  suffixes : ∀ (first : Node) (suffixes : List SuffixForm) (n : Nat),
    (suffixes.foldl SuffixForm.on first).Fits n ↔
      first.Fits n ∧ ∀ suffix ∈ suffixes, ∀ plain : Node, plain.need = 0 → (suffix.on plain).Fits n
  statements : ∀ (statements : List Node) (span : Span) (n : Nat),
    Fits ⟨.block statements, span⟩ n ↔ ∀ v ∈ statements, v.Fits n
  values : ∀ (values : List Node) (span : Span) (n : Nat),
    Fits ⟨.valueList values, span⟩ n ↔ ∀ v ∈ values, v.Fits n
  fields : ∀ (fields : List Node) (span : Span) (n : Nat),
    Fits ⟨.table fields, span⟩ n ↔ 1 ≤ n ∧ ∀ v ∈ fields, FieldFits v n
  branches : ∀ (branches : List (Node × Node)) (otherwise : Option Node) (span : Span) (n : Nat),
    Fits ⟨.conditional branches otherwise, span⟩ n ↔
      (∀ branch ∈ branches, branch.1.FitsBelow n ∧ branch.2.FitsBelow n) ∧
        ∀ body ∈ otherwise, body.FitsBelow n

theorem suffixForm_fits {object plain : Node} {suffix : SuffixForm} {n : Nat} (hp : plain.need = 0) :
    (suffix.on object).Fits n ↔ object.Fits n ∧ (suffix.on plain).Fits n := by
  have hplain : plain.Fits n := Nat.le_trans (Nat.le_of_eq hp) (Nat.zero_le _)
  cases suffix with
  | index key span => simp only [SuffixForm.on, index_fits, hplain, true_and]
  | call arguments span => simp only [SuffixForm.on, call_fits, hplain, true_and]
  | invoke method arguments span => simp only [SuffixForm.on, invoke_fits, hplain, true_and]

theorem flatNeeds : FlatNeeds where
  operators first others n hop := by
    induction others generalizing first with
    | nil => simp
    | cons other others ih =>
      obtain ⟨hop, hop'⟩ := List.forall_mem_cons.mp hop
      rw [List.foldl_cons, ih _ hop', binary_fits hop, List.forall_mem_cons, and_assoc]
  suffixes first suffixes n := by
    induction suffixes generalizing first with
    | nil => simp
    | cons suffix others ih =>
      have hplain : need ⟨.nil, default⟩ = 0 := need_of_atom rfl rfl
      rw [List.foldl_cons, ih, suffixForm_fits hplain, List.forall_mem_cons, and_assoc]
      refine and_congr_right fun _ => and_congr_left fun _ => ⟨fun h plain hp => ?_, fun h => h _ hplain⟩
      exact (suffixForm_fits hplain).mpr ⟨Nat.le_trans (Nat.le_of_eq hp) (Nat.zero_le _), h⟩
  statements _ _ _ := block_fits
  values values span n := by
    rw [Fits, Node.need_le_iff]
    simp [Node.entries, Node.attempts, Fits]
  fields _ _ _ := table_fits
  branches _ _ _ _ := conditional_fits

/-- A source that parses under one limit parses under another exactly if that is no smaller
than what its tree needs, and then to the same tree. The length of what is read on one level
does not contribute. -/
theorem parse_iff_need_le {source : Bytes} {limit : Nat} {filename : String} {root : Node}
    (h : parse source limit filename = .ok root) :
    (∀ levels, ((∃ tree, parse source levels filename = .ok tree) ↔ root.need ≤ levels) ∧
      (root.need ≤ levels → parse source levels filename = .ok root)) ∧ FlatNeeds := by
  obtain ⟨hfits, hmore⟩ := parse_fits h
  refine ⟨fun levels => ⟨⟨?_, fun hm => ⟨root, hmore levels hm⟩⟩, hmore levels⟩, flatNeeds⟩
  rintro ⟨tree, htree⟩
  obtain ⟨hfits', hmore'⟩ := parse_fits htree
  -- under the larger of both limits there is one tree
  have hroot := hmore (max limit levels) (Nat.le_trans hfits (Nat.le_max_left _ _))
  have htree := hmore' (max limit levels) (Nat.le_trans hfits' (Nat.le_max_right _ _))
  obtain rfl := Except.ok.inj (hroot.symm.trans htree)
  exact hfits'

theorem parse_iff_need_le_operators : ∃ root, parse (.ofString "f{-1, x[2]..y..z}") 9 "" = .ok root ∧
    root.need = 3 ∧ FlatNeeds := by
  have hok : (parse (.ofString "f{-1, x[2]..y..z}") 9 "").toBool = true := by decide +kernel
  have hthree : (parse (.ofString "f{-1, x[2]..y..z}") 3 "").toBool = true := by decide +kernel
  have htwo : (parse (.ofString "f{-1, x[2]..y..z}") 2 "").toBool = false := by decide +kernel
  cases hroot : parse (.ofString "f{-1, x[2]..y..z}") 9 "" with
  | error failure =>
    rw [hroot] at hok
    cases hok
  | ok root =>
    obtain ⟨hiff, hflat⟩ := parse_iff_need_le hroot
    refine ⟨root, rfl, Nat.le_antisymm ((hiff 3).1.mp ?_) (Nat.not_le.mp fun hle => ?_), hflat⟩
    · cases htree : parse (.ofString "f{-1, x[2]..y..z}") 3 "" with
      | ok tree => exact ⟨tree, rfl⟩
      | error failure =>
        rw [htree] at hthree
        cases hthree
    · rw [(hiff 2).2 hle] at htwo
      cases htwo

end LuaSyntax
