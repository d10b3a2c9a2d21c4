import LuaSyntax.Proofs.Walk
import LuaSyntax.Proofs.Phrase.Follows

/-! # Spans in order

The lexemes of a stream lie one after the other in the source. A phrase read from such a
stream has the span from its first token to its last one, and the phrases in it lie within
that span in the order in which they are read.
-/
namespace LuaSyntax

/-- Lexemes that lie one after the other from one offset on and up to another. -/
inductive Ascending (limit : Nat) : Nat → List Lexeme → Prop
  | nil {last : Nat} (h : last ≤ limit) : Ascending limit last []
  | cons {last : Nat} {lexeme : Lexeme} {others : List Lexeme} (h : last ≤ lexeme.offset)
      (hne : lexeme.spelling ≠ []) (ho : Ascending limit lexeme.span.endPos others) :
      Ascending limit last (lexeme :: others)

theorem Ascending.le {limit last : Nat} {lexemes : List Lexeme} (h : Ascending limit last lexemes) :
    last ≤ limit := by
  induction h with
  | nil h => exact h
  | cons h _ _ ih =>
    simp only [Lexeme.span] at ih
    omega

namespace Node

/-- No span is empty, and the span of every node contains those of its children. -/
def Spanned (node : Node) : Prop :=
  ∀ n ∈ node.preorder, n.span.pos ≤ n.span.endPos ∧
    ∀ child ∈ n.children, n.span.contains child.span

/-- A node that lies between two positions, which may be its first and its last. -/
structure Within (first last : Nat) (node : Node) : Prop where
  pos : first ≤ node.span.pos
  endPos : node.span.endPos ≤ last
  spanned : node.Spanned

variable {node : Node} {first last first' last' : Nat} {form : Form Node}

theorem Spanned.le (h : node.Spanned) : node.span.pos ≤ node.span.endPos :=
  (forall_mem_preorder.mp h).1.1

/-- The span of the root contains those of all nodes below it. -/
theorem Spanned.contains (h : node.Spanned) :
    ∀ n ∈ node.preorder, node.span.pos ≤ n.span.pos ∧ n.span.endPos ≤ node.span.endPos := by
  induction node using children_induction with
  | h node ih =>
    obtain ⟨⟨hle, hchildren⟩, hbelow⟩ := forall_mem_preorder.mp h
    refine forall_mem_preorder.mpr ⟨⟨Nat.le_refl _, Nat.le_refl _⟩, fun child hc n hn => ?_⟩
    have hchild := hchildren child hc
    simp only [Span.contains, Bool.and_eq_true, decide_eq_true_eq] at hchild
    obtain ⟨hpos, hend⟩ := ih child hc (hbelow child hc) n hn
    omega

theorem Within.mono (h : node.Within first last) (hf : first' ≤ first) (hl : last ≤ last') :
    node.Within first' last' :=
  ⟨Nat.le_trans hf h.pos, Nat.le_trans h.endPos hl, h.spanned⟩

theorem spanned_of_children (h : first ≤ last)
    (hc : ∀ child ∈ form.children, child.Within first last) : Spanned ⟨form, first, last⟩ := by
  refine forall_mem_preorder.mpr ⟨⟨h, fun child hm => ?_⟩, fun child hm => (hc child hm).spanned⟩
  have hchild := hc child hm
  simp only [Span.contains, Bool.and_eq_true, decide_eq_true_eq]
  exact ⟨hchild.pos, hchild.endPos⟩

theorem spanned_of_pair {a b : Node} (hform : form.children = [a, b]) (h : first ≤ last)
    (ha : a.Within first last) (hb : b.Within first last) : Spanned ⟨form, first, last⟩ := by
  refine spanned_of_children h ?_
  rw [hform]
  exact List.forall_mem_cons.mpr ⟨ha, List.forall_mem_singleton.mpr hb⟩

end Node

/-- Nodes that lie one after the other, all of them after a position and none after another. -/
inductive Consecutive : Nat → List Node → Nat → Prop
  | nil {last next : Nat} (h : last ≤ next) : Consecutive last [] next
  | cons {last next : Nat} {v : Node} {others : List Node} (h : last < v.span.pos) (hv : v.Spanned)
      (ho : Consecutive v.span.endPos others next) : Consecutive last (v :: others) next

namespace Consecutive
variable {last next last' next' : Nat} {items others : List Node} {v : Node}

theorem le (h : Consecutive last items next) : last ≤ next := by
  induction h with
  | nil h => exact h
  | cons h hv _ ih =>
    have hle := hv.le
    omega

theorem mono (h : Consecutive last items next) (hl : last' ≤ last) (hn : next ≤ next') :
    Consecutive last' items next' := by
  induction h generalizing last' with
  | nil h => exact .nil (by omega)
  | cons h hv _ ih => exact .cons (by omega) hv (ih (Nat.le_refl _) hn)

theorem append (h : Consecutive last items next) (ho : Consecutive next others next') :
    Consecutive last (items ++ others) next' := by
  induction h with
  | nil h => exact ho.mono h (Nat.le_refl _)
  | cons h hv _ ih => exact .cons h hv (ih ho)

theorem singleton (h : last < v.span.pos) (hv : v.Spanned) (hn : v.span.endPos ≤ next) :
    Consecutive last [v] next := .cons h hv (.nil hn)

theorem within (h : Consecutive last items next) : ∀ v ∈ items, v.Within (last + 1) next := by
  induction h with
  | nil => simp
  | cons h hv ho ih =>
    have hle := hv.le
    refine List.forall_mem_cons.mpr ⟨⟨h, ho.le, hv⟩, fun v hm => ?_⟩
    exact (ih v hm).mono (by omega) (Nat.le_refl _)

/-- The bounds can be drawn in to the first node and the last. -/
theorem narrow (h : Consecutive last (v :: others) next) :
    Consecutive (v.span.pos - 1) (v :: others) ((v :: others).getLast (by simp)).span.endPos := by
  cases h with
  | cons h hv ho =>
    refine .cons (by omega) hv ?_
    clear h hv
    induction others generalizing v with
    | nil => exact .nil (Nat.le_refl _)
    | cons w others ih =>
      cases ho with
      | cons h hw ho => exact .cons h hw (ih ho)

theorem ofItems {form : List Node → Form Node} (h : Consecutive last (v :: others) next)
    (hform : (form (v :: others)).children = v :: others) (anchor : Nat) :
    (Node.ofItems form (v :: others) anchor).Within (last + 1) next := by
  have hnarrow := h.narrow
  have hlast := h.within _ (List.getLast_mem (l := v :: others) (by simp))
  have hend := hnarrow.within _ (List.mem_cons_self)
  have hpos := hend.pos
  cases h with
  | cons h hv ho =>
    have hspan : Node.ofItems form (v :: others) anchor =
        ⟨form (v :: others), v.span.pos, ((v :: others).getLast (by simp)).span.endPos⟩ := by
      have hlast : ((v :: others).map Node.span).getLast (by simp) =
          ((v :: others).getLast (by simp)).span := List.getLast_map _
      simp only [List.map_cons] at hlast
      simp only [Node.ofItems, List.map_cons, Span.cover?, Option.getD_some, Span.between, hlast]
    rw [hspan]
    refine ⟨h, hlast.endPos, Node.spanned_of_children ?_ fun child hm => ?_⟩
    · exact Nat.le_trans hv.le hend.endPos
    · rw [hform] at hm
      exact (hnarrow.within child hm).mono (by omega) (Nat.le_refl _)

end Consecutive

/-- The lexemes still to be read lie between the last one and the end of the source. -/
structure Stream.Ordered (limit : Nat) (s : Stream) : Prop where
  sourceEnd : s.sourceEnd = limit
  lexemes : Ascending limit s.lastEnd s.lexemes

/-- A node that starts at a position and ends with the last token read from a stream. -/
structure Stream.Spans (limit first : Nat) (s : Stream) (v : Node) (s' : Stream) : Prop where
  ordered : s'.Ordered limit
  next : s'.lastEnd ≤ s'.position
  pos : v.span.pos = first
  endPos : v.span.endPos = s'.lastEnd
  lt : s.position < s'.lastEnd
  spanned : v.Spanned

/-- Nodes read one after the other from a stream, of which there may be none. -/
structure Stream.Lists (limit : Nat) (s : Stream) (items : List Node) (s' : Stream) : Prop where
  ordered : s'.Ordered limit
  next : s'.lastEnd ≤ s'.position
  position : s.position ≤ s'.position
  items : Consecutive s.lastEnd items s'.lastEnd

/-- A block read from a stream. An empty one lies on the first byte of the next token. -/
structure Stream.Encloses (limit : Nat) (s : Stream) (v : Node) (s' : Stream) : Prop where
  ordered : s'.Ordered limit
  next : s'.lastEnd ≤ s'.position
  position : s.position ≤ s'.position
  within : v.Within (s.lastEnd + 1) (s'.position + 1)

section Streams
variable {limit : Nat} {s m s' : Stream} {v : Node}

namespace Stream

theorem Ordered.next (h : s.Ordered limit) : s.lastEnd ≤ s.position := by
  obtain ⟨lexemes, last, sourceEnd⟩ := s
  have hend : sourceEnd = limit := h.sourceEnd
  cases h.lexemes with
  | nil h => exact hend ▸ h
  | cons h _ _ => exact h

theorem Ordered.takes {token : Token} {span : Span} (h : s.Ordered limit) (ht : s.Takes token span s') :
    s'.Ordered limit ∧ s'.lastEnd ≤ s'.position ∧ span.pos = s.position + 1 ∧
      span.endPos = s'.lastEnd ∧ s.position < s'.lastEnd := by
  obtain ⟨lexeme, hl, -, rfl, hlast, hend⟩ := ht
  have hlexemes := h.lexemes
  rw [hl] at hlexemes
  cases hlexemes with
  | cons hle hne ho =>
    have ho' : s'.Ordered limit := ⟨hend.trans h.sourceEnd, hlast ▸ ho⟩
    have hpos : s.position = lexeme.offset := by simp [position, hl]
    have hlength := List.length_pos_iff.mpr hne
    refine ⟨ho', ho'.next, by rw [hpos]; rfl, hlast.symm, ?_⟩
    rw [hlast, hpos]
    simp only [Lexeme.span]
    omega

/-- Nodes built one on the other start at the same position. -/
theorem Spans.steps {step : Node → Stream → Node → Stream → Prop} {first : Nat} {x : Node}
    (hstep : ∀ {x m y m'}, s.Spans limit first x m → step x m y m' → s.Spans limit first y m')
    (h : s.Spans limit first x m) (hs : Steps step x m v s') : s.Spans limit first v s' := by
  induction hs with
  | refl => exact h
  | cons hy _ ih => exact ih (hstep h hy)

theorem Lists.nil (h : s.Ordered limit) : s.Lists limit [] s :=
  ⟨h, h.next, Nat.le_refl _, .nil (Nat.le_refl _)⟩

theorem Lists.append {items others : List Node} (h : s.Lists limit items m) (ho : m.Lists limit others s') :
    s.Lists limit (items ++ others) s' :=
  ⟨ho.ordered, ho.next, Nat.le_trans h.position ho.position, h.items.append ho.items⟩

theorem Spans.lists (h : s.Spans limit (s.position + 1) v s') (ho : s.Ordered limit) : s.Lists limit [v] s' := by
  obtain ⟨ho', hn', hp, he, hlt, hv⟩ := h
  have hn := ho.next
  exact ⟨ho', hn', by omega, .singleton (by omega) hv (by omega)⟩

theorem Spans.lists_after {token : Token} {span : Span} (h : m.Spans limit (m.position + 1) v s')
    (ho : s.Ordered limit) (ht : s.Takes token span m) : s.Lists limit [v] s' := by
  obtain ⟨hm, hnm, hp, he, hlt⟩ := ho.takes ht
  obtain ⟨ho', hn', hp', he', hlt', hv⟩ := h
  have hn := ho.next
  exact ⟨ho', hn', by omega, .singleton (by omega) hv (by omega)⟩

end Stream

theorem Sequence.lists {α : Type} {phrase : Phrase α} {items : List α} {f : α → List Node}
    (h : ∀ {s a s'}, s.Ordered limit → phrase s a s' → s.Lists limit (f a) s') (ho : s.Ordered limit)
    (hs : Sequence phrase s items s') : s.Lists limit (items.flatMap f) s' := by
  induction hs with
  | nil => exact .nil ho
  | cons ha _ ih =>
    have hfirst := h ho ha
    rw [List.flatMap_cons]
    exact hfirst.append (ih hfirst.ordered)

theorem Lexed.ordered {c : Cursor} (h : Lexed c s) (hc : c.lastEnd ≤ c.offset) :
    s.Ordered c.toPlace.sourceEnd := by
  refine ⟨h.sourceEnd, ?_⟩
  rw [h.lastEnd]
  induction h with
  | @done c hr =>
    refine .nil ?_
    rw [Place.sourceEnd]
    omega
  | @read c c' lexeme s' h hs ih =>
    obtain ⟨place, hread, hp, hskip⟩ := h.token
    obtain ⟨text, -, -, hp', hlast⟩ := Parse.skipTrivia_spelling hskip
    have hend : c'.toPlace.sourceEnd = c.toPlace.sourceEnd := Place.sourceEnd_eq ⟨_, hp.trans hp'⟩
    have hlexeme := lastEnd_of_reads h
    have hoffset : c'.offset = place.offset + text.length := hp'.offset
    have hplace : c'.lastEnd = place.offset := hlast
    refine .cons (h.offset ▸ hc) (hread.ne_nil hp) ?_
    rw [← hlexeme, ← hend]
    exact ih (by omega)

end Streams

end LuaSyntax
