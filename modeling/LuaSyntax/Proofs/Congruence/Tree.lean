import LuaSyntax.Proofs.Respan
import LuaSyntax.Grammar.Chunk
import Mathlib.Data.List.Forall2

/-! # Trees that correspond

Two runs of the grammar build trees of one shape, whose spans may lie elsewhere. A likeness says how the
positions, the cursors and the trees of the two runs correspond. What the grammar builds out of parts that
correspond then corresponds.
-/
namespace LuaSyntax

open List (Forall₂)

variable {α β : Type}

/-- Forms of one kind with the same data, whose children are related one by one, and whose number has a property. -/
inductive Form.Rel (number : Number → Prop) (R : α → β → Prop) : Form α → Form β → Prop
  | block {a b} (h : Forall₂ R a b) : Rel number R (.block a) (.block b)
  | doBlock {a b} (h : R a b) : Rel number R (.doBlock a) (.doBlock b)
  | conditional {a b c d} (hb : Forall₂ (fun v w => R v.1 w.1 ∧ R v.2 w.2) a b) (ho : Option.Rel R c d) :
      Rel number R (.conditional a c) (.conditional b d)
  | whileLoop {a b c d} (hc : R a b) (hb : R c d) : Rel number R (.whileLoop a c) (.whileLoop b d)
  | repeatLoop {a b c d} (hb : R a b) (hc : R c d) : Rel number R (.repeatLoop a c) (.repeatLoop b d)
  | numericFor {a a' b b' c c' d d' e e'} (hn : R a a') (hs : R b b') (hl : R c c') (hp : Option.Rel R d d')
      (hb : R e e') : Rel number R (.numericFor a b c d e) (.numericFor a' b' c' d' e')
  | genericFor {a a' b b' c c'} (hn : R a a') (hv : R b b') (hb : R c c') :
      Rel number R (.genericFor a b c) (.genericFor a' b' c')
  | localNames {a b c d} (hn : R a b) (hv : R c d) : Rel number R (.localNames a c) (.localNames b d)
  | localFunction {a b c d} (hn : R a b) (hv : R c d) : Rel number R (.localFunction a c) (.localFunction b d)
  | assignment {a b c d} (ht : R a b) (hv : R c d) : Rel number R (.assignment a c) (.assignment b d)
  | label {text} : Rel number R (.label text) (.label text)
  | goto {text} : Rel number R (.goto text) (.goto text)
  | breakLoop : Rel number R .breakLoop .breakLoop
  | returnValues {a b} (h : Forall₂ R a b) : Rel number R (.returnValues a) (.returnValues b)
  | nameList {a b} (h : Forall₂ R a b) : Rel number R (.nameList a) (.nameList b)
  | targetList {a b} (h : Forall₂ R a b) : Rel number R (.targetList a) (.targetList b)
  | valueList {a b} (h : Forall₂ R a b) : Rel number R (.valueList a) (.valueList b)
  | name {text} : Rel number R (.name text) (.name text)
  | string {value} : Rel number R (.string value) (.string value)
  | number {value} (h : number value) : Rel number R (.number value) (.number value)
  | boolean {value} : Rel number R (.boolean value) (.boolean value)
  | nil : Rel number R .nil .nil
  | varargs : Rel number R .varargs .varargs
  | table {a b} (h : Forall₂ R a b) : Rel number R (.table a) (.table b)
  | pair {a b c d} (hk : R a b) (hv : R c d) : Rel number R (.pair a c) (.pair b d)
  | function {a b c d isMethod} (hp : Forall₂ R a b) (hb : R c d) :
      Rel number R (.function a c isMethod) (.function b d isMethod)
  | call {a b c d} (hc : R a b) (ha : Forall₂ R c d) : Rel number R (.call a c) (.call b d)
  | invoke {a a' b b' c c'} (ho : R a a') (hm : R b b') (ha : Forall₂ R c c') :
      Rel number R (.invoke a b c) (.invoke a' b' c')
  | index {a b c d} (ho : R a b) (hk : R c d) : Rel number R (.index a c) (.index b d)
  | paren {a b} (h : R a b) : Rel number R (.paren a) (.paren b)
  | binary {op a b c d} (hl : R a b) (hr : R c d) : Rel number R (.binary op a c) (.binary op b d)
  | unary {op a b} (h : R a b) : Rel number R (.unary op a) (.unary op b)

namespace Form.Rel
variable {number : Number → Prop} {R : α → β → Prop} {form : Form α} {form' : Form β}

/-- Forms whose children correspond as a function says are the function's image of each other. -/
theorem map_eq (h : Form.Rel number R form form') {f : α → β} (hR : ∀ {a b}, R a b → f a = b) : form.map f = form' := by
  have hlist {a : List α} {b : List β} (hl : Forall₂ R a b) : a.map f = b := by
    rw [← List.forall₂_eq_eq_eq, List.forall₂_map_left_iff]
    exact hl.imp fun _ _ => hR
  have hoption {a : Option α} {b : Option β} (ho : Option.Rel R a b) : a.map f = b := by
    cases ho with
    | some hs => exact congrArg some (hR hs)
    | none => rfl
  cases h with
  | @conditional a b c d hb ho =>
    have hbranches : (a.map fun v => (f v.1, f v.2)) = b := by
      rw [← List.forall₂_eq_eq_eq, List.forall₂_map_left_iff]
      exact hb.imp fun _ _ h => Prod.ext (hR h.1) (hR h.2)
    rw [map, hbranches, hoption ho]
  | numericFor hn hs hl hp hb => rw [map, hR hn, hR hs, hR hl, hoption hp, hR hb]
  | _ => grind [map]

theorem children (h : Form.Rel number R form form') : Forall₂ R form.children form'.children := by
  have hoption {a : Option α} {b : Option β} (ho : Option.Rel R a b) : Forall₂ R a.toList b.toList := by
    cases ho with
    | some hs => exact .cons hs .nil
    | none => exact .nil
  have hone {a : α} {b : β} (h : R a b) : Forall₂ R [a] [b] := .cons h .nil
  cases h with
  | conditional hb ho => exact List.rel_append (List.rel_flatMap hb fun _ _ h => .cons h.1 (hone h.2)) (hoption ho)
  | numericFor hn hs hl hp hb =>
    exact List.rel_append (List.rel_append (.cons hn (.cons hs (hone hl))) (hoption hp)) (hone hb)
  | function hp hb => exact List.rel_append hp (hone hb)
  | call hc ha => exact .cons hc ha
  | invoke ho hm ha => exact .cons ho (.cons hm ha)
  | genericFor hn hv hb => exact .cons hn (.cons hv (hone hb))
  | _ => first | assumption | exact .nil | exact hone ‹_› | exact .cons ‹_› (hone ‹_›)

theorem number_of (h : Form.Rel number R form form') {value : Number} (hf : form = .number value) : number value := by
  cases h with
  | number hn =>
    obtain rfl := Form.number.inj hf
    exact hn
  | _ => cases hf

end Form.Rel

/-- All numbers of a tree have a property. -/
def Node.Numbers (P : Number → Prop) (node : Node) : Prop :=
  ∀ n ∈ node.preorder, ∀ value, n.form = .number value → P value

/-- How the trees of two runs correspond, and the positions and cursors on which that depends. At some positions a
failure may be reported: those where a token begins are among them. -/
structure Likeness where
  node : Node → Node → Prop
  number : Number → Prop
  pos : Nat → Nat → Prop
  start : Nat → Nat → Prop
  cursor : Cursor → Cursor → Prop
  node_mk : ∀ {form form' span span'}, Form.Rel number node form form' → pos span.pos span'.pos →
    pos span.endPos span'.endPos → node ⟨form, span⟩ ⟨form', span'⟩
  tag : ∀ {v v'}, node v v' → v.tag = v'.tag
  node_pos : ∀ {v v'}, node v v' → pos v.span.pos v'.span.pos
  node_endPos : ∀ {v v'}, node v v' → pos v.span.endPos v'.span.endPos
  pos_of_start : ∀ {p p'}, start p p' → pos p p'
  cursor_start : ∀ {c c'}, cursor c c' → start (c.offset + 1) (c'.offset + 1)
  cursor_lastEnd : ∀ {c c'}, cursor c c' → pos c.lastEnd c'.lastEnd

namespace Likeness

/-- Two runs that do the same. More may be known of the numbers, of where tokens start and of the cursors. -/
abbrev same (number : Number → Prop) (start : Nat → Prop) (cursor : Cursor → Prop)
    (h : ∀ {c}, cursor c → start (c.offset + 1)) : Likeness where
  node v w := v = w ∧ v.Numbers number
  number := number
  pos := Eq
  start p q := p = q ∧ start p
  cursor c d := c = d ∧ cursor c
  node_mk {form form' span span'} hf hp he := by
    have hform : form = form' := (Form.map_id form).symm.trans (hf.map_eq fun hv => hv.1)
    have hspan : span = span' := by
      cases span
      cases span'
      exact congr (congrArg Span.mk hp) he
    have hchildren := (List.forall₂_and_left _ _).mp (hf.children.imp fun _ _ hv => hv.symm)
    exact ⟨by rw [hform, hspan], Node.forall_mem_preorder.mpr ⟨fun _ hn => hf.number_of hn, hchildren.1⟩⟩
  tag hv := congrArg Node.tag hv.1
  node_pos hv := congrArg (·.span.pos) hv.1
  node_endPos hv := congrArg (·.span.endPos) hv.1
  pos_of_start hp := hp.1
  cursor_start hc := ⟨congrArg (·.offset + 1) hc.1, h hc.2⟩
  cursor_lastEnd hc := congrArg (·.lastEnd) hc.1

/-- Spans of tokens. -/
def token (L : Likeness) (span span' : Span) : Prop := L.start span.pos span'.pos ∧ L.pos span.endPos span'.endPos

/-- Trees that begin with a token. -/
def begun (L : Likeness) (v v' : Node) : Prop := L.node v v' ∧ L.start v.span.pos v'.span.pos

variable (L : Likeness) {v v' w w' : Node} {items items' : List Node}

theorem begun_mk {form form' : Form Node} {span span' : Span} (h : Form.Rel L.number L.node form form')
    (hs : L.token span span') : L.begun ⟨form, span⟩ ⟨form', span'⟩ :=
  ⟨L.node_mk h (L.pos_of_start hs.1) hs.2, hs.1⟩

theorem begun_indexed (h : L.begun v v') (hk : L.node w w') :
    L.begun (Grammar.indexed v w) (Grammar.indexed v' w') :=
  L.begun_mk (.index h.1 hk) ⟨h.2, L.node_endPos hk⟩

theorem node_binary (op : BinaryOp) (h : L.node v v') (hr : L.node w w') : L.node (.binary op v w) (.binary op v' w') :=
  L.node_mk (.binary h hr) (L.node_pos h) (L.node_endPos hr)

theorem node_unary {op : UnaryOp} {span span' : Span} (hs : L.token span span') (h : L.node v v') :
    L.node ⟨.unary op v, .between span v.span⟩ ⟨.unary op v', .between span' v'.span⟩ :=
  L.node_mk (.unary h) (L.pos_of_start hs.1) (L.node_endPos h)

theorem node_selfParameter {span span' : Span} (h : L.token span span') :
    L.node (Grammar.selfParameter span) (Grammar.selfParameter span') :=
  L.node_mk .name (L.pos_of_start h.1) (L.pos_of_start h.1)

/-- The last of several trees ends where the last of the others does. -/
theorem getLast_endPos (h : Forall₂ L.node items items') (hne : items ≠ []) (hne' : items' ≠ []) :
    L.pos (items.getLast hne).span.endPos (items'.getLast hne').span.endPos := by
  induction h with
  | nil => exact (hne rfl).elim
  | cons hv hothers ih =>
    cases hothers with
    | nil => exact L.node_endPos hv
    | cons hw hmore => exact ih (List.cons_ne_nil _ _) (List.cons_ne_nil _ _)

/-- A list node with items goes from the first to the last, and one without is at its anchor. -/
theorem node_ofItems {form : List Node → Form Node} {anchor anchor' : Nat}
    (hform : Form.Rel L.number L.node (form items) (form items')) (h : Forall₂ L.node items items')
    (hanchor : items = [] → L.pos anchor anchor') : L.node (.ofItems form items anchor) (.ofItems form items' anchor') := by
  cases h with
  | nil => exact L.node_mk hform (hanchor rfl) (hanchor rfl)
  | @cons v v' others others' hv ho =>
    have hlast := L.getLast_endPos (.cons hv ho) (List.cons_ne_nil _ _) (List.cons_ne_nil _ _)
    rw [← congrArg Span.endPos (List.getLast_map (l := v :: others) (by simp)),
      ← congrArg Span.endPos (List.getLast_map (l := v' :: others') (by simp))] at hlast
    exact L.node_mk hform (L.node_pos hv) hlast

/-- Two lists, of which the first is not empty. -/
def Listed (items items' : List Node) : Prop := Forall₂ L.node items items' ∧ items ≠ []

variable {L} in
theorem Listed.one (h : L.node v w) : L.Listed [v] [w] := ⟨.cons h .nil, List.cons_ne_nil _ _⟩

variable {L} in
theorem Listed.cons (h : L.Listed items items') {v w : Node} (hv : L.node v w) : L.Listed (v :: items) (w :: items') :=
  ⟨.cons hv h.1, List.cons_ne_nil _ _⟩

/-- The items of a list that is not empty, listed in reverse. -/
theorem node_listed {form : List Node → Form Node}
    (hform : ∀ {items items'}, Forall₂ L.node items items' → Form.Rel L.number L.node (form items) (form items'))
    (h : L.Listed items items') : L.node (.ofItems form items.reverse 0) (.ofItems form items'.reverse 0) := by
  have hl := List.forall₂_reverse_iff.mpr h.1
  exact L.node_ofItems (hform hl) hl fun hnil => (h.2 (List.reverse_eq_nil_iff.mp hnil)).elim

theorem node_valueList (h : Forall₂ L.node items items') (hb : L.node v v') :
    L.node (Grammar.valueList items v) (Grammar.valueList items' v') :=
  L.node_ofItems (.valueList h) h fun _ => L.node_endPos hb

end Likeness

end LuaSyntax
