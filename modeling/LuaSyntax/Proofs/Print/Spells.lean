import LuaSyntax.Proofs.Print.Tokens
import LuaSyntax.Proofs.Respan
import LuaSyntax.Proofs.Operator.Rank
import LuaSyntax.Proofs.Phrase.Operator
import LuaSyntax.Proofs.Phrase.Grammar

/-! # Reading printed tokens

A tree is read back by a phrase if the phrase derives it, up to spans, wherever its tokens
stand in front of something that the phrase does not go on with. An expression ends in front
of a token that closes what it stands in, or of an operator that binds more loosely.
-/
namespace LuaSyntax

namespace Stream

/-- The next tokens of a stream, up to another stream. -/
def Spells : Stream → List Token → Stream → Prop
  | s, [], s' => s' = s
  | s, token :: others, s' => ∃ span m, s.Takes token span m ∧ m.Spells others s'

variable {s m s' : Stream} {token : Token} {first second : List Token}

theorem spells_append : s.Spells (first ++ second) s' ↔ ∃ m, s.Spells first m ∧ m.Spells second s' := by
  induction first generalizing s with
  | nil => simp [Spells]
  | cons token others ih =>
    simp only [List.cons_append, Spells, ih]
    constructor
    · rintro ⟨span, m, ht, m', hm, hs⟩
      exact ⟨m', ⟨span, m, ht, hm⟩, hs⟩
    · rintro ⟨m', ⟨span, m, ht, hm⟩, hs⟩
      exact ⟨span, m, ht, m', hm, hs⟩

theorem spells_singleton : s.Spells [token] s' ↔ ∃ span, s.Takes token span s' := by
  simp [Spells]

theorem Spells.next (h : s.Spells (token :: second) s') : s.Next [token.kind] := by
  obtain ⟨span, m, ht, -⟩ := h
  exact ht.opens

/-- The source ends, or a token comes next that goes on with no expression. -/
def Closes (s : Stream) : Prop :=
  s.lexemes = [] ∨
    s.Next [")", "]", "\x7d", ",", ";", "=", "then", "do", "end", "elseif", "else", "until"]

/-- Nothing comes next that an expression of a rank goes on with. -/
def Stops (rank : Nat) (s : Stream) : Prop :=
  Phrase.NoSuffix s ∧ ∀ op : BinaryOp, rank ≤ op.rank → ¬ s.Next [op.text]

theorem not_next_of_nil {kinds : List Kind} (h : s.lexemes = []) : ¬ s.Next kinds := by
  rintro ⟨token, hn, -⟩
  rw [next?, h] at hn
  cases hn

theorem Closes.not_next {kinds : List Kind} (h : s.Closes)
    (hk : ∀ kind ∈ [Kind.fixed ")", "]", "\x7d", ",", ";", "=", "then", "do", "end", "elseif", "else",
      "until"], kind ∉ kinds) : ¬ s.Next kinds := by
  rcases h with h | h
  · exact not_next_of_nil h
  · exact h.disjoint hk

/-- There is no dot in front of a token that is always written alike, other than a dot. -/
theorem noDot_of_next {kinds : List Kind} (h : s.Next kinds) (hk : Kind.fixed "." ∉ kinds)
    (hn : Kind.number ∉ kinds) : s.NoDot := by
  refine ⟨h.disjoint fun kind hm heq => hk (List.mem_singleton.mp heq ▸ hm), ?_⟩
  rintro lexeme hlexeme value hvalue -
  obtain ⟨token, hnext, hmem⟩ := h
  simp only [next?, Option.map_eq_some_iff] at hnext
  obtain ⟨lexeme', hlexeme', rfl⟩ := hnext
  cases hlexeme.symm.trans hlexeme'
  rw [hvalue] at hmem
  exact hn hmem

theorem noDot_of_nil (h : s.lexemes = []) : s.NoDot :=
  ⟨not_next_of_nil h, by simp [h]⟩

theorem Closes.stops (h : s.Closes) (rank : Nat) : s.Stops rank := by
  refine ⟨⟨?_, h.not_next (by decide)⟩, fun op _ => h.not_next ?_⟩
  · rcases h with h | h
    · exact noDot_of_nil h
    · exact noDot_of_next h (by decide) (by decide)
  · cases op <;> decide

theorem stops_of_operator {op : BinaryOp} {rank : Nat} (h : s.Next [op.text]) (hr : op.rank < rank) :
    s.Stops rank := by
  refine ⟨⟨noDot_of_next h ?_ ?_, h.disjoint ?_⟩, fun op' hr' => h.disjoint ?_⟩
  · cases op <;> decide
  · simp
  · cases op <;> decide
  · simp only [List.mem_singleton, forall_eq, Kind.fixed.injEq]
    intro heq
    obtain rfl := BinaryOp.text_injective heq
    omega

theorem Stops.mono {rank rank' : Nat} (h : s.Stops rank) (hle : rank ≤ rank') : s.Stops rank' :=
  ⟨h.1, fun op hr => h.2 op (Nat.le_trans hle hr)⟩

end Stream

@[simp] theorem Node.tokensEach_eq_map (nodes : List Node) : tokensEach nodes = nodes.map tokens := by
  induction nodes with
  | nil => rfl
  | cons node others ih => rw [tokensEach, ih, List.map_cons]

/-- A phrase derives a tree, up to spans, from its tokens, wherever they stand in front of
something of a kind. -/
def Readable (phrase : Phrase Node) (follow : Stream → Prop) (tokens : List Token) (v : Node) : Prop :=
  ∀ {s s'}, s.Spells tokens s' → follow s' → ∃ v', phrase s v' s' ∧ v'.EqBare v

/-- Trees that differ at most in their spans, one by one. -/
def AllEqBare (nodes nodes' : List Node) : Prop := nodes.map Node.bare = nodes'.map Node.bare

section Lists
variable {phrase : Phrase Node} {follow : Stream → Prop} {v : Node} {others : List Node} {s s' : Stream}

/-- Items with commas between them are read back one after the other. -/
theorem readable_list (h : ∀ w ∈ v :: others, Readable phrase follow w.tokens w)
    (hcomma : ∀ {s : Stream}, s.Next [","] → follow s)
    (hs : s.Spells (separated (.fixed ",") ((v :: others).map Node.tokens)) s') (hf : follow s') :
    ∃ v' m others', phrase s v' m ∧ Sequence (Phrase.After "," phrase) m others' s' ∧
      AllEqBare (v' :: others') (v :: others) := by
  induction others generalizing v s with
  | nil =>
    obtain ⟨v', hv, halike⟩ := h v List.mem_cons_self hs hf
    exact ⟨v', s', [], hv, .nil, by simpa [AllEqBare, Node.EqBare] using halike⟩
  | cons w others ih =>
    simp only [List.map_cons, separated] at hs
    obtain ⟨m, hfirst, span, m', hc, hrest⟩ := Stream.spells_append.mp hs
    obtain ⟨v', hv, halike⟩ := h v List.mem_cons_self hfirst (hcomma hc.opens)
    obtain ⟨w', m'', others', hw, hothers, halikes⟩ := ih (fun w hm => h w (List.mem_cons_of_mem _ hm)) hrest
    refine ⟨v', m, w' :: others', hv, .cons ⟨span, m', hc, hw⟩ hothers, ?_⟩
    simp only [AllEqBare, Node.EqBare, List.map_cons] at halike halikes ⊢
    rw [halike, halikes]

end Lists

end LuaSyntax
