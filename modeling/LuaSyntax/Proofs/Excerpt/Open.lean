import LuaSyntax.Proofs.Excerpt.Statement
import LuaSyntax.Proofs.Excerpt.Standing

/-! # Derivations of nodes

Every node that stands for statements or for an expression is read by a phrase of its own
kind: a series of statements, or an expression with which nothing need go on. An inner node of a
chain of operators or of suffixes is read by the front of the chain.
-/
namespace LuaSyntax

namespace Phrase

open Grammar (Tier indexed selfParameter valueList looseTiers tightTiers)

/-- Statements with any number of semicolons between them, from the first to the last. -/
inductive Series (nested : Phrases) : Phrase (List Node)
  | last {s s' : Stream} {v : Node} (h : Statement nested s v s') : Series nested s [v] s'
  | ret {s s' : Stream} {v : Node} (h : ReturnStatement nested s v s') : Series nested s [v] s'
  | more {s m m' s' : Stream} {v : Node} {others : List Node} {blanks : List Span} (h : Statement nested s v m)
      (hb : Sequence (fun s span s' => s.Takes ";" span s') m blanks m') (ho : Series nested m' others s') :
      Series nested s (v :: others) s'

/-- An expression, or the front of a chain of operators or suffixes. -/
inductive Open (nested : Phrases) : Phrase Node
  | tiered {s s' : Stream} {v : Node} {rank : Nat} (hr : rank ≤ operandRank) (h : Tiered nested rank s v s') :
      Open nested s v s'
  | chain {s s' : Stream} {v : Node} {rank : Nat} {tier : Tier} (ht : TierAt rank tier)
      (h : OpenChain nested rank tier s v s') : Open nested s v s'
  | suffixed {s s' : Stream} {v : Node} (h : OpenSuffixed nested s v s') : Open nested s v s'

section Carries
variable {x : Excerpt} {nested nested' : Phrases} (h : nested.Carries x nested')
include h

theorem carries_series (ht : x.tail = []) : Carries x .last (Series nested) (Series nested') (List.map x.node) := by
  have hstatement : Carries x .last (Statement nested) (Statement nested') x.node :=
    ((carries_statement h).uncleared ht).mono (by decide)
  intro s listed s' hv
  induction hv with
  | last hv =>
    obtain ⟨hr, hc⟩ := hstatement hv
    exact ⟨hr, fun hcovers hl => .last (hc hcovers hl)⟩
  | ret hv =>
    obtain ⟨hr, hc⟩ := carries_returnStatement h hv
    exact ⟨hr, fun hcovers hl => .ret (hc hcovers hl)⟩
  | more hv hb _ ih =>
    obtain ⟨hr, hc⟩ := hstatement hv
    have hblank : Carries x .last (fun s span s' => s.Takes ";" span s') (fun s span s' => s.Takes ";" span s') x.span :=
      carries_takes ";"
    obtain ⟨hrb, hcb⟩ := hblank.sequence hb
    obtain ⟨hr', hc'⟩ := ih
    refine ⟨(hr.trans hrb).trans hr', fun hcovers hl => ?_⟩
    have hl' := hl.before hr'.length_le
    have hm := hcovers.reaches hr
    exact .more (hc hcovers (hl'.before hrb.length_le)) (hcb hm hl') (hc' (hm.reaches hrb) hl)

theorem carries_open : Carries x .expression (Open nested) (Open nested') x.node := by
  intro s v s' hv
  cases hv with
  | tiered hrank hv =>
    obtain ⟨hr, ht⟩ := carries_tiered h _ hv
    exact ⟨hr, fun hc hl => .tiered hrank (ht hc hl)⟩
  | chain htier hv =>
    obtain ⟨hr, ht⟩ := carries_openChain h _ _ hv
    exact ⟨hr, fun hc hl => .chain htier (ht hc hl)⟩
  | suffixed hv =>
    obtain ⟨hr, ht⟩ := (closes_openSuffixed h).carries hv
    exact ⟨hr, fun hc hl => .suffixed (ht hc hl)⟩

end Carries

section Ends
variable {nested : Phrases} {s s' : Stream} {v : Node} {listed : List Node}

/-- Where the stream ends, the front of an expression is one. -/
theorem Open.expression (h : Open nested s v s') (hs : s'.lexemes = []) : Expression nested s v s' := by
  have hstops (rank : Nat) : s'.Stops rank := Stream.Closes.stops (.inl hs) rank
  have hall {rank : Nat} (hr : rank ≤ operandRank) (h : Tiered nested rank s v s') : Expression nested s v s' :=
    tiered_of_le (Nat.zero_le rank) hr h (hstops 0).2
  cases h with
  | tiered hr h => exact hall hr h
  | @chain _ _ _ rank tier ht h =>
    obtain ⟨first, m, hfirst, hsteps⟩ := h
    have hchain : Tiered nested rank s v s' := by
      rw [ht.tiered]
      exact ⟨first, m, hfirst, hsteps, Stream.not_next_of_nil hs⟩
    exact hall (Nat.le_of_lt (Nat.lt_trans ht.lt (by decide))) hchain
  | suffixed h =>
    obtain ⟨first, m, hfirst, hsteps⟩ := h
    have hsimple : Suffixed nested s v s' := ⟨first, m, hfirst, hsteps, (hstops 0).1⟩
    exact hall (Nat.le_refl _) (show Tiered nested 12 s v s' from
      .inr (.inr (.inr (.inr (.inr (.inr (.inr (.inr hsimple))))))))

theorem reaches_of_blanks {blanks : List Span} (h : Sequence (fun s span s' => s.Takes ";" span s') s blanks s') :
    s.Reaches s' := by
  induction h with
  | nil => exact .refl
  | cons ht _ ih => exact ht.reaches.trans ih

theorem sequence_of_blanks {m e : Stream} {blanks : List Span} {found : List (Option Node)}
    (hb : Sequence (fun s span s' => s.Takes ";" span s') s blanks m)
    (hf : Sequence (StatementOrEmpty nested) m found e) :
    ∃ found', Sequence (StatementOrEmpty nested) s found' e ∧
      found'.flatMap Option.toList = found.flatMap Option.toList := by
  induction hb with
  | nil => exact ⟨found, hf, rfl⟩
  | cons ht _ ih =>
    obtain ⟨found', hf', heq⟩ := ih hf
    exact ⟨none :: found', .cons (.inl ⟨_, ht, rfl⟩) hf', heq⟩

theorem Series.statements (h : Series nested s listed s') (hs : s'.lexemes = []) : Statements nested s listed s' := by
  induction h with
  | @last s s' v h =>
    exact ⟨[some v], s', ⟨.cons (.inr ⟨v, h, rfl⟩) .nil, .inl hs⟩, none, ⟨Stream.not_next_of_nil hs, rfl⟩, rfl⟩
  | @ret s s' v h =>
    have hnext : s.Next ["return"] := by
      obtain ⟨first, m, ht, -⟩ := h
      exact ht.opens
    exact ⟨[], s, ⟨.nil, .inr (hnext.mono (by simp))⟩, some v, h, rfl⟩
  | @more s m m' s' v others blanks h hb _ ih =>
    obtain ⟨found, e, ⟨hseq, hend⟩, last, hlast, rfl⟩ := ih hs
    obtain ⟨found', hseq', heq⟩ := sequence_of_blanks hb hseq
    exact ⟨some v :: found', e, ⟨.cons (.inr ⟨v, h, rfl⟩) hseq', hend⟩, last, hlast, by simp [heq]⟩

theorem series_of_statements (h : Statements nested s listed s') (hne : listed ≠ []) :
    ∃ blanks m e, Sequence (fun s span s' => s.Takes ";" span s') s blanks m ∧ Series nested m listed e := by
  obtain ⟨found, m, ⟨hseq, -⟩, last, hlast, rfl⟩ := h
  induction hseq with
  | nil =>
    cases last with
    | none => exact (hne rfl).elim
    | some v => exact ⟨[], _, _, .nil, .ret hlast⟩
  | @cons s t m first others ha hseq ih =>
    by_cases hrest : others.flatMap Option.toList ++ last.toList = []
    · rcases ha with ⟨span, ht, rfl⟩ | ⟨v, hv, rfl⟩
      · exact (hne hrest).elim
      · rw [List.flatMap_cons, List.append_assoc, hrest]
        exact ⟨[], _, _, .nil, .last hv⟩
    · obtain ⟨blanks, m', e, hblanks, hseries⟩ := ih hlast hrest
      rcases ha with ⟨span, ht, rfl⟩ | ⟨v, hv, rfl⟩
      · exact ⟨span :: blanks, m', e, .cons ht hblanks, hseries⟩
      · rw [List.flatMap_cons, List.append_assoc]
        exact ⟨[], s, e, .nil, .more hv hblanks hseries⟩

end Ends

end Phrase

end LuaSyntax
