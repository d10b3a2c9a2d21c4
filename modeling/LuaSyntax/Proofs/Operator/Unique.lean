import LuaSyntax.Proofs.Operator.Rank

/-! # Ranks determine operator trees

An operator with an operand before it is a binary one, and in a ranked tree it binds no
looser than the tree. So of two ranked trees that are written alike neither can have its
root operator to the left of the root operator of the other.
-/
namespace LuaSyntax

namespace OpTree
variable {α : Type} {t t' : OpTree α}

theorem items_eq_snoc (t : OpTree α) : ∃ items a, t.items = items ++ [.operand a] := by
  induction t with
  | operand a => exact ⟨[], a, rfl⟩
  | binary op left right _ ih =>
    obtain ⟨items, a, h⟩ := ih
    exact ⟨left.items ++ .operator op.text :: items, a, by simp [OpTree.items, h]⟩
  | unary op inner ih =>
    obtain ⟨items, a, h⟩ := ih
    exact ⟨.operator op.text :: items, a, by simp [OpTree.items, h]⟩

theorem Ranked.rank_le_of_items {before after : List (Item α)} {a : α} {text : String} (h : t.Ranked)
    (hi : t.items = before ++ .operand a :: .operator text :: after) :
    ∃ op : BinaryOp, op.text = text ∧ t.rank ≤ op.rank := by
  induction t generalizing before after with
  | operand b =>
    have hlength := congrArg List.length hi
    simp only [items, List.length_cons, List.length_nil, List.length_append] at hlength
    omega
  | unary op inner ih =>
    obtain ⟨hrank, hinner⟩ := h
    cases before with
    | nil => cases hi
    | cons item before =>
      obtain ⟨op', htext, hle⟩ := ih hinner (List.cons.inj hi).2
      exact ⟨op', htext, Nat.le_trans hrank hle⟩
  | binary op left right ihl ihr =>
    obtain ⟨hadmits, hleft, hright⟩ := h
    rcases List.append_eq_append_iff.mp hi with ⟨middle, rfl, hrest⟩ | ⟨middle, hitems, hrest⟩
    · cases middle with
      | nil => cases hrest
      | cons item middle =>
        obtain ⟨op', htext, hle⟩ := ihr hright (List.cons.inj hrest).2
        exact ⟨op', htext, hadmits.right hle⟩
    · match middle with
      | [] => cases hrest
      | [item] =>
        obtain ⟨-, hrest⟩ := List.cons.inj hrest
        obtain ⟨hoperator, -⟩ := List.cons.inj hrest
        cases hoperator
        exact ⟨op, rfl, Nat.le_refl _⟩
      | item :: item' :: middle =>
        simp only [List.cons_append, List.cons.injEq] at hrest
        obtain ⟨rfl, rfl, -⟩ := hrest
        obtain ⟨op', htext, hle⟩ := ihl hleft hitems
        exact ⟨op', htext, Nat.le_trans hadmits.left hle⟩

theorem eq_operand_of_rank (h : operandRank ≤ t.rank) : ∃ a, t = operand a := by
  cases t with
  | operand a => exact ⟨a, rfl⟩
  | binary op left right =>
    have hop : op.rank < operandRank := by cases op <;> decide
    simp only [OpTree.rank] at h
    omega
  | unary op inner =>
    simp only [OpTree.rank, operandRank, unaryRank] at h
    omega

theorem Ranked.unary_ne_binary {op : UnaryOp} {op' : BinaryOp} {inner left right : OpTree α}
    (h : (unary op inner).Ranked) (h' : (binary op' left right).Ranked) :
    (unary op inner).items ≠ (binary op' left right).items := by
  intro hi
  obtain ⟨hrank, hinner⟩ := h
  obtain ⟨hadmits, -, -⟩ := h'
  obtain ⟨items, a, hleft⟩ := left.items_eq_snoc
  simp only [OpTree.items, hleft, List.append_assoc, List.singleton_append] at hi
  cases items with
  | nil => cases hi
  | cons item items =>
    obtain ⟨-, hi⟩ := List.cons.inj hi
    obtain ⟨op'', htext, hle⟩ := hinner.rank_le_of_items hi
    obtain rfl := BinaryOp.text_injective htext
    -- only a power binds tightly enough, and its left operand would be a single item
    have hpow : op'' = .pow := by
      have hrank' := Nat.le_trans hrank hle
      revert hrank'
      cases op'' <;> decide
    subst hpow
    obtain ⟨b, rfl⟩ := eq_operand_of_rank hadmits.1
    have hlength := congrArg List.length hleft
    simp only [OpTree.items, List.length_cons, List.length_nil, List.length_append] at hlength
    omega

/-- Of two ranked operations that are written alike neither has its operator further to the
left. -/
theorem Ranked.length_le {op op' : BinaryOp} {left right left' right' : OpTree α}
    (h : (binary op left right).Ranked) (h' : (binary op' left' right').Ranked)
    (hi : (binary op left right).items = (binary op' left' right').items) :
    left'.items.length ≤ left.items.length := by
  obtain ⟨hadmits, hleft, hright⟩ := h
  obtain ⟨hadmits', hleft', hright'⟩ := h'
  refine Nat.le_of_not_lt fun hlt => ?_
  simp only [OpTree.items] at hi
  rcases List.append_eq_append_iff.mp hi with ⟨middle, hitems, hrest⟩ | ⟨middle, hitems, hrest⟩
  · -- the first root operator lies in the left operand of the other one, after an operand
    obtain ⟨items, a, hlast⟩ := left.items_eq_snoc
    obtain ⟨items', a', hlast'⟩ := left'.items_eq_snoc
    cases middle with
    | nil =>
      rw [hitems, List.append_nil] at hlt
      omega
    | cons item middle =>
      simp only [List.cons_append, List.cons.injEq] at hrest
      obtain ⟨rfl, hrest⟩ := hrest
      have hroot : left'.items = items ++ .operand a :: .operator op.text :: middle := by
        rw [hitems, hlast]
        simp
      obtain ⟨op₁, htext, hle⟩ := hleft'.rank_le_of_items hroot
      obtain rfl := BinaryOp.text_injective htext
      rw [hitems] at hlast'
      rcases List.eq_nil_or_concat middle with rfl | ⟨middle, item, rfl⟩
      · cases List.append_inj_right' hlast' rfl
      · rw [List.concat_eq_append, ← List.cons_append, ← List.append_assoc] at hlast'
        cases List.append_inj_right' hlast' rfl
        rw [List.concat_eq_append, List.append_assoc] at hrest
        obtain ⟨op₂, htext', hle'⟩ := hright.rank_le_of_items hrest
        obtain rfl := BinaryOp.text_injective htext'
        have hexclusive := hadmits.exclusive hadmits' hle'
        omega
  · have hlength := congrArg List.length hitems
    simp only [List.length_append] at hlength
    omega

theorem Ranked.eq_of_items (h : t.Ranked) (h' : t'.Ranked) (hi : t.items = t'.items) : t = t' := by
  induction t generalizing t' with
  | operand a =>
    have hlength := congrArg List.length hi
    cases t' with
    | operand a' =>
      cases hi
      rfl
    | binary op' left' right' =>
      obtain ⟨items, b, hleft⟩ := left'.items_eq_snoc
      simp only [OpTree.items, hleft, List.length_append, List.length_cons, List.length_nil] at hlength
      omega
    | unary op' inner' => cases hi
  | unary op inner ih =>
    cases t' with
    | operand a' => cases hi
    | binary op' left' right' => exact (h.unary_ne_binary h' hi).elim
    | unary op' inner' =>
      obtain ⟨hoperator, hinner⟩ := List.cons.inj hi
      obtain rfl := UnaryOp.text_injective (Item.operator.inj hoperator)
      rw [ih h.2 h'.2 hinner]
  | binary op left right ihl ihr =>
    cases t' with
    | operand a' =>
      obtain ⟨items, b, hleft⟩ := left.items_eq_snoc
      have hlength := congrArg List.length hi
      simp only [OpTree.items, hleft, List.length_append, List.length_cons, List.length_nil] at hlength
      omega
    | unary op' inner' => exact (h'.unary_ne_binary h hi.symm).elim
    | binary op' left' right' =>
      have hlength := Nat.le_antisymm (h'.length_le h hi.symm) (h.length_le h' hi)
      obtain ⟨hleft, hrest⟩ := List.append_inj hi hlength
      obtain ⟨hoperator, hright⟩ := List.cons.inj hrest
      obtain rfl := BinaryOp.text_injective (Item.operator.inj hoperator)
      rw [ihl h.2.1 h'.2.1 hleft, ihr h.2.2 h'.2.2 hright]

end OpTree

end LuaSyntax
