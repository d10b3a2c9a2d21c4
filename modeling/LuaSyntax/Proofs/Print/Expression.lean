import LuaSyntax.Proofs.Print.Spells
import LuaSyntax.Proofs.Shape.Basic

/-! # Reading printed expressions

An expression is read back at its rank and at every looser one. A chain of operators that
group to the left is read from its leftmost operand on, one operator after the other, and
so is a chain of suffixes.
-/
namespace LuaSyntax

namespace Phrase

open Grammar (Tier looseTiers tightTiers)

/-- Expressions with no operator outside them that is looser than a rank. -/
def Tiered (nested : Phrases) (rank : Nat) : Phrase Node :=
  if rank ≤ 7 then Chains (Concatenation nested) (looseTiers.drop rank)
  else if rank ≤ 10 then Chains (Unary nested) (tightTiers.drop (rank - 8))
  else if rank = 11 then Power nested
  else Simple nested

/-- The operators of a rank that group to the left. -/
structure TierAt (rank : Nat) (tier : Tier) : Prop where
  lt : rank < unaryRank
  ne : rank ≠ BinaryOp.concat.rank
  mem : ∀ op, op ∈ tier.operators ↔ op.rank = rank
  tiered : ∀ nested, Tiered nested rank = Chain (Tiered nested (rank + 1)) tier

/-- A chain of operators that may go on. -/
def OpenChain (nested : Phrases) (rank : Nat) (tier : Tier) : Phrase Node := fun s v s' =>
  ∃ first m, Tiered nested (rank + 1) s first m ∧
    Steps (fun x s y s' => ChainStep (Tiered nested (rank + 1)) tier x s y s') first m v s'

/-- An expression with suffixes that may go on. -/
def OpenSuffixed (nested : Phrases) : Phrase Node := fun s v s' =>
  ∃ first m, (Name s first m ∨ Parenthesized nested s first m) ∧
    Steps (fun x s y s' => Suffix nested x s y s') first m v s'

theorem tierAt_of_rank {op : BinaryOp} (hc : op ≠ .concat) (hp : op ≠ .pow) :
    ∃ tier, TierAt op.rank tier := by
  cases op <;> first
    | contradiction
    | exact ⟨_, by decide, by decide, fun op => by cases op <;> decide, fun nested => rfl⟩

theorem operatorKinds_rank {op : BinaryOp} {kind : Kind} (h : kind ∈ operatorKinds op) :
    ∃ op' : BinaryOp, kind = op'.text ∧ op.rank ≤ op'.rank := by
  cases op with
  | lt =>
    simp only [operatorKinds, List.mem_cons, List.not_mem_nil, or_false] at h
    rcases h with rfl | rfl | rfl
    · exact ⟨.lt, rfl, Nat.le_refl _⟩
    · exact ⟨.le, rfl, Nat.le_refl _⟩
    · exact ⟨.shiftLeft, rfl, by decide⟩
  | gt =>
    simp only [operatorKinds, List.mem_cons, List.not_mem_nil, or_false] at h
    rcases h with rfl | rfl | rfl
    · exact ⟨.gt, rfl, Nat.le_refl _⟩
    · exact ⟨.ge, rfl, Nat.le_refl _⟩
    · exact ⟨.shiftRight, rfl, by decide⟩
  | div =>
    simp only [operatorKinds, List.mem_cons, List.not_mem_nil, or_false] at h
    rcases h with rfl | rfl
    · exact ⟨.div, rfl, Nat.le_refl _⟩
    · exact ⟨.floorDiv, rfl, Nat.le_refl _⟩
  | _ => exact ⟨_, List.mem_singleton.mp h, Nat.le_refl _⟩

variable {nested : Phrases} {rank : Nat} {s s' : Stream} {v : Node}

theorem not_next_operators {operators : List BinaryOp} (h : ∀ op : BinaryOp, rank ≤ op.rank → ¬ s.Next [op.text])
    (hr : ∀ op ∈ operators, rank ≤ op.rank) : ¬ s.Next (operators.flatMap operatorKinds) := by
  rintro ⟨token, hn, hk⟩
  obtain ⟨op, hop, hk⟩ := List.mem_flatMap.mp hk
  obtain ⟨op', hkind, hle⟩ := operatorKinds_rank hk
  exact h op' (Nat.le_trans (hr op hop) hle) ⟨token, hn, List.mem_singleton.mpr hkind⟩

/-- What is read at a rank is read at the next looser one, if nothing goes on with it there. -/
theorem tiered_of_succ (hlt : rank < operandRank) (h : Tiered nested (rank + 1) s v s')
    (hs : ∀ op : BinaryOp, rank ≤ op.rank → ¬ s'.Next [op.text]) : Tiered nested rank s v s' := by
  have hchain : ∀ operators : List BinaryOp, (∀ op ∈ operators, rank ≤ op.rank) →
      ¬ s'.Next (operators.flatMap operatorKinds) := fun _ hr => not_next_operators hs hr
  match rank with
  | 0 => exact ⟨v, s', h, .refl, hchain _ (by decide)⟩
  | 1 => exact ⟨v, s', h, .refl, hchain _ (by decide)⟩
  | 2 => exact ⟨v, s', h, .refl, hchain _ (by decide)⟩
  | 3 => exact ⟨v, s', h, .refl, hchain _ (by decide)⟩
  | 4 => exact ⟨v, s', h, .refl, hchain _ (by decide)⟩
  | 5 => exact ⟨v, s', h, .refl, hchain _ (by decide)⟩
  | 6 => exact ⟨v, s', h, .refl, hchain _ (by decide)⟩
  | 7 => exact ⟨v, s', h, .inr ⟨hs .concat (by decide), rfl, rfl⟩⟩
  | 8 => exact ⟨v, s', h, .refl, hchain _ (by decide)⟩
  | 9 => exact ⟨v, s', h, .refl, hchain _ (by decide)⟩
  | 10 => exact .inr h
  | 11 => exact ⟨v, s', h, .inr ⟨hs .pow (by decide), rfl, rfl⟩⟩
  | rank + 12 => exact absurd hlt (by simp [operandRank])

theorem tiered_of_le {rank' : Nat} (hle : rank ≤ rank') (hr : rank' ≤ operandRank)
    (h : Tiered nested rank' s v s') (hs : ∀ op : BinaryOp, rank ≤ op.rank → ¬ s'.Next [op.text]) :
    Tiered nested rank s v s' := by
  induction hle with
  | refl => exact h
  | step hle ih =>
    exact ih (by omega) (tiered_of_succ (by omega) h fun op hr => hs op (Nat.le_trans hle hr))

end Phrase

open Phrase

/-- Any token may come next. -/
def Anywhere (_ : Stream) : Prop := True

namespace Node

/-- Where the tokens of a node stand and no equals sign follows them, no named field does. -/
def Unnamed (v : Node) : Prop :=
  ∀ {s s'}, s.Spells v.tokens s' → ¬ s'.Next ["="] → NoNamedField s

/-- A name is read back. -/
def ReadsName (v : Node) : Prop := Readable Name Anywhere v.tokens v

/-- A key is read back where it is written as a name. -/
def ReadsKey (v : Node) : Prop := Readable Key Anywhere v.methodTokens v

/-- An expression with suffixes is read back, whatever follows. -/
structure ReadsBase (v : Node) : Prop where
  suffixed : ∀ levels, v.weight ≤ levels →
    Readable (OpenSuffixed (phrases levels)) Anywhere v.tokens v
  unnamed : v.Unnamed

/-- An expression is read back at every rank up to its own, and as a chain of operators that
may go on. -/
structure ReadsExpression (v : Node) : Prop where
  tiered : ∀ levels rank, v.weight ≤ levels → rank ≤ v.rank →
    Readable (Tiered (phrases levels) rank) (Stream.Stops rank) v.tokens v
  chain : ∀ levels rank tier, TierAt rank tier → v.weight ≤ levels → rank ≤ v.rank →
    Readable (OpenChain (phrases levels) rank tier) (Stream.Stops (rank + 1)) v.tokens v
  unnamed : v.Unnamed

/-- A block is read back in front of what ends blocks. -/
def ReadsBlock (v : Node) : Prop :=
  ∀ levels, v.weight ≤ levels → Readable (Block (phrases levels))
    (fun s => s.lexemes = [] ∨ s.Next ["end", "elseif", "else", "until"]) v.tokens v

end Node

variable {v : Node} {levels : Nat} {s s' : Stream}

namespace Node

theorem ReadsExpression.nested (h : v.ReadsExpression) (hl : v.weight < levels) :
    Readable (phrases levels).expression Stream.Closes v.tokens v := by
  intro s s' hs hf
  obtain ⟨levels, rfl⟩ : ∃ n, levels = n + 1 := ⟨levels - 1, by omega⟩
  exact h.tiered levels 0 (by omega) (Nat.zero_le _) hs (hf.stops 0)

theorem ReadsBlock.nested (h : v.ReadsBlock) (hl : v.weight < levels) :
    Readable (phrases levels).block
      (fun s => s.lexemes = [] ∨ s.Next ["end", "elseif", "else", "until"]) v.tokens v := by
  obtain ⟨levels, rfl⟩ : ∃ n, levels = n + 1 := ⟨levels - 1, by omega⟩
  exact h levels (by omega)

/-- An expression that is no chain of operators is read back as one of a single operand. -/
theorem readsExpression_of_tiered (hv : v.rank = BinaryOp.concat.rank ∨ unaryRank ≤ v.rank)
    (h : ∀ levels, v.weight ≤ levels →
      Readable (Tiered (phrases levels) v.rank) (Stream.Stops v.rank) v.tokens v)
    (hu : v.Unnamed) : v.ReadsExpression where
  tiered levels rank hl hle := by
    intro s s' hs hf
    obtain ⟨v', hv', halike⟩ := h levels hl hs (hf.mono hle)
    exact ⟨v', tiered_of_le hle v.rank_le hv' hf.2, halike⟩
  chain levels rank tier ht hl hle := by
    intro s s' hs hf
    have hne := ht.ne
    have hlt := ht.lt
    have hle' : rank + 1 ≤ v.rank := by omega
    obtain ⟨v', hv', halike⟩ := h levels hl hs (hf.mono hle')
    exact ⟨v', ⟨v', s', tiered_of_le hle' v.rank_le hv' hf.2, .refl⟩, halike⟩
  unnamed := hu

theorem unnamed_of_next {kinds : List Kind} (h : s.Next kinds) (hk : Kind.name ∉ kinds) :
    NoNamedField s :=
  .inl (h.disjoint fun _ hm heq => hk (List.mem_singleton.mp heq ▸ hm))

section Operations
variable {op : BinaryOp} {left right : Node} {span : Span}

theorem unnamed_binary (hl : left.Unnamed) : Unnamed ⟨.binary op left right, span⟩ := by
  intro s s' hs _
  obtain ⟨m, hleft, hrest⟩ := Stream.spells_append.mp hs
  refine hl hleft (hrest.next.disjoint ?_)
  cases op <;> decide

theorem binary_spells (hs : s.Spells (tokens ⟨.binary op left right, span⟩) s') :
    ∃ m span m', s.Spells left.tokens m ∧ m.Takes op.text span m' ∧ m'.Spells right.tokens s' := by
  obtain ⟨m, hleft, span, m', ht, hright⟩ := Stream.spells_append.mp hs
  exact ⟨m, span, m', hleft, ht, hright⟩

theorem reads_concat (hl : left.ReadsExpression) (hr : right.ReadsExpression)
    (ha : BinaryOp.concat.Admits left.rank right.rank) :
    ReadsExpression ⟨.binary .concat left right, span⟩ := by
  refine readsExpression_of_tiered (.inl rfl) (fun levels hw => ?_) (unnamed_binary hl.unnamed)
  intro s s' hs hf
  obtain ⟨m, found, m', hleft, ht, hright⟩ := binary_spells hs
  have hwl : left.weight < levels := weight_child hw List.mem_cons_self
  have hwr : right.weight < levels := weight_child hw (List.mem_cons_of_mem _ List.mem_cons_self)
  obtain ⟨l, hl', hlalike⟩ := hl.tiered levels 8 (by omega) ha.1 hleft
    (Stream.stops_of_operator ht.opens (by decide))
  obtain ⟨levels, rfl⟩ : ∃ n, levels = n + 1 := ⟨levels - 1, by omega⟩
  obtain ⟨r, hr', hralike⟩ := hr.tiered levels 7 (by omega) ha.2 hright hf
  refine ⟨.binary .concat l r, ⟨l, m, hl', .inl ⟨found, m', ht, r, hr', rfl⟩⟩, ?_⟩
  simp only [EqBare, bare, respan, Node.binary] at hlalike hralike ⊢
  rw [hlalike, hralike]

theorem reads_pow (hl : left.ReadsExpression) (hr : right.ReadsExpression)
    (ha : BinaryOp.pow.Admits left.rank right.rank) :
    ReadsExpression ⟨.binary .pow left right, span⟩ := by
  refine readsExpression_of_tiered (.inr (by decide : unaryRank ≤ BinaryOp.pow.rank))
    (fun levels hw => ?_) (unnamed_binary hl.unnamed)
  intro s s' hs hf
  obtain ⟨m, found, m', hleft, ht, hright⟩ := binary_spells hs
  have hwl : left.weight < levels := weight_child hw List.mem_cons_self
  have hwr : right.weight < levels := weight_child hw (List.mem_cons_of_mem _ List.mem_cons_self)
  obtain ⟨l, hl', hlalike⟩ := hl.tiered levels 12 (by omega) ha.1 hleft
    (Stream.stops_of_operator ht.opens (by decide))
  obtain ⟨levels, rfl⟩ : ∃ n, levels = n + 1 := ⟨levels - 1, by omega⟩
  -- nothing goes on at the rank of powers, and no binary operator has the rank of unary ones
  have hunary : s'.Stops unaryRank := ⟨hf.1, fun op hle => hf.2 op (BinaryOp.pow_rank_le hle)⟩
  obtain ⟨r, hr', hralike⟩ := hr.tiered levels 10 (by omega) ha.2 hright hunary
  refine ⟨.binary .pow l r, ⟨l, m, hl', .inl ⟨found, m', ht, r, hr', rfl⟩⟩, ?_⟩
  simp only [EqBare, bare, respan, Node.binary] at hlalike hralike ⊢
  rw [hlalike, hralike]

/-- An operation of a left-grouping tier goes on with the chain of its left operand. -/
theorem reads_chain (hl : left.ReadsExpression) (hr : right.ReadsExpression) (hc : op ≠ .concat)
    (hp : op ≠ .pow) (ha : op.Admits left.rank right.rank) :
    ReadsExpression ⟨.binary op left right, span⟩ := by
  obtain ⟨hle, hlt⟩ := BinaryOp.admits_iff_of_left hc hp |>.mp ha
  have hchain : ∀ levels tier, TierAt op.rank tier → weight ⟨.binary op left right, span⟩ ≤ levels →
      Readable (OpenChain (phrases levels) op.rank tier) (Stream.Stops (op.rank + 1))
        (tokens ⟨.binary op left right, span⟩) ⟨.binary op left right, span⟩ := by
    intro levels tier ht hw s s' hs hf
    obtain ⟨m, found, m', hleft, htakes, hright⟩ := binary_spells hs
    have hwl : left.weight < levels := weight_child hw List.mem_cons_self
    have hwr : right.weight < levels := weight_child hw (List.mem_cons_of_mem _ List.mem_cons_self)
    obtain ⟨l, ⟨first, m₀, hfirst, hsteps⟩, hlalike⟩ := hl.chain levels op.rank tier ht (by omega) hle
      hleft (Stream.stops_of_operator htakes.opens (Nat.lt_succ_self _))
    obtain ⟨r, hr', hralike⟩ := hr.tiered levels (op.rank + 1) (by omega) hlt hright hf
    have hstep : ChainStep (Tiered (phrases levels) (op.rank + 1)) tier l m (.binary op l r) s' :=
      ⟨op, (ht.mem op).mpr rfl, found, m', htakes, r, hr', rfl⟩
    refine ⟨.binary op l r, ⟨first, m₀, hfirst, hsteps.snoc hstep⟩, ?_⟩
    simp only [EqBare, bare, respan, Node.binary] at hlalike hralike ⊢
    rw [hlalike, hralike]
  obtain ⟨tier, ht⟩ := tierAt_of_rank hc hp
  have htiered : ∀ levels rank, weight ⟨.binary op left right, span⟩ ≤ levels → rank ≤ op.rank →
      Readable (Tiered (phrases levels) rank) (Stream.Stops rank)
        (tokens ⟨.binary op left right, span⟩) ⟨.binary op left right, span⟩ := by
    intro levels rank hw hrank s s' hs hf
    obtain ⟨v', ⟨first, m, hfirst, hsteps⟩, halike⟩ := hchain levels tier ht hw hs (hf.mono (by omega))
    have hend : ¬ s'.Next (tier.operators.flatMap operatorKinds) :=
      not_next_operators (hf.mono hrank).2 fun op' hm => Nat.le_of_eq ((ht.mem op').mp hm).symm
    have hv : Tiered (phrases levels) op.rank s v' s' := by
      rw [ht.tiered]
      exact ⟨first, m, hfirst, hsteps, hend⟩
    have hlow := ht.lt
    exact ⟨v', tiered_of_le hrank (Nat.le_of_lt (Nat.lt_of_lt_of_le hlow (by decide))) hv hf.2, halike⟩
  refine ⟨htiered, fun levels rank tier' ht' hw hrank => ?_, unnamed_binary hl.unnamed⟩
  rcases Nat.eq_or_lt_of_le hrank with rfl | hrank
  · exact hchain levels tier' ht' hw
  · intro s s' hs hf
    obtain ⟨v', hv', halike⟩ := htiered levels (rank + 1) hw hrank hs hf
    exact ⟨v', ⟨v', s', hv', .refl⟩, halike⟩

theorem reads_binary (hl : left.ReadsExpression) (hr : right.ReadsExpression)
    (ha : op.Admits left.rank right.rank) : ReadsExpression ⟨.binary op left right, span⟩ := by
  by_cases hc : op = .concat
  · subst hc
    exact reads_concat hl hr ha
  · by_cases hp : op = .pow
    · subst hp
      exact reads_pow hl hr ha
    · exact reads_chain hl hr hc hp ha

theorem reads_unary {op : UnaryOp} {operand : Node} (h : operand.ReadsExpression)
    (ha : unaryRank ≤ operand.rank) : ReadsExpression ⟨.unary op operand, span⟩ := by
  refine readsExpression_of_tiered (.inr (Nat.le_refl _)) (fun levels hw => ?_) fun hs _ => ?_
  · intro s s' hs hf
    obtain ⟨found, m, ht, hoperand⟩ := hs
    have hweight : operand.weight < levels := weight_child hw List.mem_cons_self
    obtain ⟨levels, rfl⟩ : ∃ n, levels = n + 1 := ⟨levels - 1, by omega⟩
    obtain ⟨v', hv', halike⟩ := h.tiered levels 10 (by omega) ha hoperand hf
    refine ⟨_, .inl ⟨op, found, m, ht, v', hv', rfl⟩, ?_⟩
    simp only [EqBare, bare, respan] at halike ⊢
    rw [halike]
  · exact unnamed_of_next hs.next (by simp [Token.kind])

end Operations

section Atoms
variable {span : Span}

theorem reads_simple (hv : v.rank = operandRank)
    (h : ∀ levels, v.weight ≤ levels →
      Readable (Simple (phrases levels)) (Stream.Stops operandRank) v.tokens v)
    (hu : v.Unnamed) : v.ReadsExpression := by
  refine readsExpression_of_tiered (.inr (by rw [hv]; decide)) ?_ hu
  rw [hv]
  exact h

theorem reads_string {value : Bytes} : ReadsExpression ⟨.string value, span⟩ := by
  refine reads_simple rfl (fun levels _ s s' hs _ => ?_) fun hs _ =>
    unnamed_of_next hs.next (by simp [Token.kind])
  obtain ⟨found, ht⟩ := Stream.spells_singleton.mp hs
  exact ⟨⟨.string value, found⟩, .inr (.inl ⟨value, found, ht, rfl⟩), rfl⟩

theorem reads_number {value : Number} : ReadsExpression ⟨.number value, span⟩ := by
  refine reads_simple rfl (fun levels _ s s' hs _ => ?_) fun hs _ =>
    unnamed_of_next hs.next (by simp [Token.kind])
  obtain ⟨found, ht⟩ := Stream.spells_singleton.mp hs
  exact ⟨⟨.number value, found⟩, .inl ⟨value, found, ht, rfl⟩, rfl⟩

theorem reads_boolean {value : Bool} : ReadsExpression ⟨.boolean value, span⟩ := by
  refine reads_simple rfl (fun levels _ s s' hs _ => ?_) fun hs _ =>
    unnamed_of_next hs.next (by simp [Token.kind])
  obtain ⟨found, ht⟩ := Stream.spells_singleton.mp hs
  cases value with
  | false => exact ⟨_, .inr (.inr (.inr (.inl ⟨found, ht, rfl⟩))), rfl⟩
  | true => exact ⟨_, .inr (.inr (.inr (.inr (.inl ⟨found, ht, rfl⟩)))), rfl⟩

theorem reads_nil : ReadsExpression ⟨.nil, span⟩ := by
  refine reads_simple rfl (fun levels _ s s' hs _ => ?_) fun hs _ => unnamed_of_next hs.next (by decide)
  obtain ⟨found, ht⟩ := Stream.spells_singleton.mp hs
  exact ⟨⟨.nil, found⟩, .inr (.inr (.inl ⟨found, ht, rfl⟩)), rfl⟩

theorem reads_varargs : ReadsExpression ⟨.varargs, span⟩ := by
  refine reads_simple rfl (fun levels _ s s' hs _ => ?_) fun hs _ => unnamed_of_next hs.next (by decide)
  obtain ⟨found, ht⟩ := Stream.spells_singleton.mp hs
  exact ⟨⟨.varargs, found⟩, .inr (.inr (.inr (.inr (.inr (.inl ⟨found, ht, rfl⟩))))), rfl⟩

end Atoms

section Names
variable {text : Bytes} {span : Span} (h : Identifier text)
include h

theorem readsName_of_identifier : ReadsName ⟨.name text, span⟩ := by
  intro s s' hs _
  obtain ⟨found, ht⟩ := Stream.spells_singleton.mp hs
  exact ⟨⟨.name text, found⟩, ⟨text, h, found, ht, rfl⟩, rfl⟩

theorem readsKey_of_identifier : ReadsKey ⟨.string text, span⟩ := by
  intro s s' hs _
  obtain ⟨found, ht⟩ := Stream.spells_singleton.mp hs
  exact ⟨⟨.string text, found⟩, ⟨text, h, found, ht, rfl⟩, rfl⟩

theorem unnamed_name : Unnamed ⟨.name text, span⟩ := by
  intro s s' hs hn
  obtain ⟨found, ht⟩ := Stream.spells_singleton.mp hs
  exact .inr ⟨⟨.string text, found⟩, s', ⟨text, h, found, ht, rfl⟩, hn⟩

end Names

section Suffixes
variable {object : Node} {arguments : List Node} {span : Span}

theorem reads_base (h : v.ReadsBase) (hv : v.rank = operandRank) : v.ReadsExpression := by
  refine reads_simple hv (fun levels hw s s' hs hf => ?_) h.unnamed
  obtain ⟨v', ⟨first, m, hfirst, hsteps⟩, halike⟩ := h.suffixed levels hw hs trivial
  exact ⟨v', .inr (.inr (.inr (.inr (.inr (.inr (.inr (.inr ⟨first, m, hfirst, hsteps, hf.1⟩))))))), halike⟩

theorem reads_name (h : v.ReadsName) (hu : v.Unnamed) : v.ReadsBase := by
  refine ⟨fun levels _ s s' hs _ => ?_, hu⟩
  obtain ⟨v', hv', halike⟩ := h hs trivial
  exact ⟨v', ⟨v', s', .inl hv', .refl⟩, halike⟩

theorem reads_paren (h : v.ReadsExpression) : ReadsBase ⟨.paren v, span⟩ := by
  refine ⟨fun levels hw s s' hs _ => ?_, fun hs _ => unnamed_of_next hs.next (by decide)⟩
  obtain ⟨first, m₁, hopen, hrest⟩ := hs
  obtain ⟨m₂, hinner, hrest⟩ := Stream.spells_append.mp hrest
  obtain ⟨last, hclose⟩ := Stream.spells_singleton.mp hrest
  have hweight := weight_child hw List.mem_cons_self
  obtain ⟨inner, hinner, halike⟩ := h.nested hweight hinner (.inr (hclose.opens.mono (by decide)))
  refine ⟨⟨.paren inner, first.pos, s'.lastEnd⟩, ⟨_, s', .inr ⟨first, m₁, hopen, inner, m₂, hinner, last,
    hclose, rfl⟩, .refl⟩, ?_⟩
  simp only [EqBare, bare, respan] at halike ⊢
  rw [halike]

theorem reads_index {key : Node} (ho : object.ReadsBase) (hk : key.ReadsExpression) :
    ReadsBase ⟨.index object key, span⟩ := by
  refine ⟨fun levels hw s s' hs _ => ?_, fun {s s'} hs _ => ?_⟩
  · simp only [tokens, Stream.spells_append, Stream.Spells] at hs
    obtain ⟨m₃, ⟨m₁, hobject, found, m₂, hopen, hkey⟩, last, m₄, hclose, rfl⟩ := hs
    have hwo : object.weight < levels := weight_child hw List.mem_cons_self
    have hwk : key.weight < levels := weight_child hw (List.mem_cons_of_mem _ List.mem_cons_self)
    obtain ⟨object', ⟨first, m, hfirst, hsteps⟩, hoalike⟩ := ho.suffixed levels (by omega) hobject trivial
    obtain ⟨key', hkey', hkalike⟩ := hk.nested hwk hkey (.inr (hclose.opens.mono (by decide)))
    refine ⟨⟨.index object' key', object'.span.pos, s'.lastEnd⟩, ⟨first, m, hfirst, hsteps.snoc
      (.inr (.inl ⟨found, m₂, hopen, key', m₃, hkey', last, hclose, rfl⟩))⟩, ?_⟩
    simp only [EqBare, bare, respan] at hoalike hkalike ⊢
    rw [hoalike, hkalike]
  · simp only [tokens, Stream.spells_append, Stream.Spells] at hs
    obtain ⟨m₃, ⟨m₁, hobject, found, m₂, hopen, -⟩, -⟩ := hs
    exact ho.unnamed hobject (hopen.opens.disjoint (by decide))

theorem reads_arguments (h : ∀ v ∈ arguments, ReadsExpression v) (hpos : 0 < levels)
    (hw : ∀ v ∈ arguments, v.weight < levels)
    (hs : s.Spells (argumentTokens (arguments.map tokens)) s') :
    ∃ values, Arguments (phrases levels) s values s' ∧ AllEqBare values arguments := by
  simp only [argumentTokens, Stream.spells_append, Stream.Spells] at hs
  obtain ⟨m₂, ⟨found, m₁, hopen, hlist⟩, last, m₃, hclose, rfl⟩ := hs
  cases arguments with
  | nil =>
    obtain rfl : m₂ = m₁ := hlist
    obtain ⟨levels, rfl⟩ : ∃ n, levels = n + 1 := ⟨levels - 1, by omega⟩
    have habsent : ¬ m₂.Next expressionKinds := hclose.opens.disjoint (by decide)
    exact ⟨[], .inl ⟨found, m₂, hopen, none, m₂, ⟨habsent, rfl⟩, last, hclose, rfl⟩, rfl⟩
  | cons v others =>
    obtain ⟨v', m, others', hv, hothers, halike⟩ := readable_list
      (fun w hm => (h w hm).nested (hw w hm)) (fun hn => .inr (hn.mono (by decide))) hlist
      (.inr (hclose.opens.mono (by decide)))
    have hend : ¬ m₂.Next [","] := hclose.opens.disjoint (by decide)
    exact ⟨v' :: others', .inl ⟨found, m₁, hopen, some (v' :: others'), m₂,
      ⟨v', m, hv, others', ⟨hothers, hend⟩, rfl⟩, last, hclose, rfl⟩, halike⟩

theorem reads_call (hc : object.ReadsBase) (ha : ∀ v ∈ arguments, ReadsExpression v) :
    ReadsBase ⟨.call object arguments, span⟩ := by
  refine ⟨fun levels hw s s' hs _ => ?_, fun {s s'} hs _ => ?_⟩
  · obtain ⟨m₁, hobject, harguments⟩ := Stream.spells_append.mp hs
    have hweight : ∀ child ∈ object :: arguments, child.weight < levels := fun child hm =>
      weight_child hw hm
    have hwo := hweight object List.mem_cons_self
    obtain ⟨object', ⟨first, m, hfirst, hsteps⟩, hoalike⟩ := hc.suffixed levels (by omega) hobject trivial
    rw [tokensEach_eq_map] at harguments
    obtain ⟨values, hvalues, halike⟩ := reads_arguments ha (by omega)
      (fun v hm => hweight v (List.mem_cons_of_mem _ hm)) harguments
    refine ⟨⟨.call object' values, object'.span.pos, s'.lastEnd⟩, ⟨first, m, hfirst, hsteps.snoc
      (.inr (.inr (.inr ⟨values, hvalues, rfl⟩)))⟩, ?_⟩
    simp only [EqBare, bare, AllEqBare, respan, respanEach_eq_map] at hoalike halike ⊢
    rw [hoalike, halike]
  · obtain ⟨m₁, hobject, harguments⟩ := Stream.spells_append.mp hs
    exact hc.unnamed hobject (harguments.next.disjoint (by decide))

theorem reads_invoke {method : Node} (ho : object.ReadsBase) (hm : method.ReadsKey)
    (ha : ∀ v ∈ arguments, ReadsExpression v) :
    ReadsBase ⟨.invoke object method arguments, span⟩ := by
  refine ⟨fun levels hw s s' hs _ => ?_, fun {s s'} hs _ => ?_⟩
  · simp only [tokens, Stream.spells_append, Stream.Spells, tokensEach_eq_map] at hs
    obtain ⟨m₃, ⟨m₁, hobject, found, m₂, hcolon, hmethod⟩, harguments⟩ := hs
    have hweight : ∀ child ∈ object :: method :: arguments, child.weight < levels := fun child hm =>
      weight_child hw hm
    have hwo := hweight object List.mem_cons_self
    obtain ⟨object', ⟨first, m, hfirst, hsteps⟩, hoalike⟩ := ho.suffixed levels (by omega) hobject trivial
    obtain ⟨method', hmethod', hmalike⟩ := hm hmethod trivial
    obtain ⟨values, hvalues, halike⟩ := reads_arguments ha (by omega)
      (fun v hm => hweight v (List.mem_cons_of_mem _ (List.mem_cons_of_mem _ hm))) harguments
    refine ⟨⟨.invoke object' method' values, object'.span.pos, s'.lastEnd⟩, ⟨first, m, hfirst, hsteps.snoc
      (.inr (.inr (.inl ⟨found, m₂, hcolon, method', m₃, hmethod', values, hvalues, rfl⟩)))⟩, ?_⟩
    simp only [EqBare, bare, AllEqBare, respan, respanEach_eq_map] at hoalike hmalike halike ⊢
    rw [hoalike, hmalike, halike]
  · simp only [tokens, Stream.spells_append, Stream.Spells] at hs
    obtain ⟨m₃, ⟨m₁, hobject, found, m₂, hcolon, -⟩, -⟩ := hs
    exact ho.unnamed hobject (hcolon.opens.disjoint (by decide))

end Suffixes

end Node

end LuaSyntax
