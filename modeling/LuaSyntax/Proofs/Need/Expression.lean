import LuaSyntax.Proofs.Need.Basic
import LuaSyntax.Proofs.Span.Statement
import LuaSyntax.Proofs.Shape.Phrase

/-! # The nesting levels of expressions

A phrase is read with a number of levels left exactly where there are as many levels as its
value needs, if the phrases one level deeper are.
-/
namespace LuaSyntax
variable {α : Type} {limit levels : Nat}

open Node (need need_le_iff entries attempts Fits FitsBelow)

/-- A phrase read with some number of levels left fits in that many, and can be read wherever
it fits. -/
def Phrase.Needs (limit : Nat) (phrase : Nat → Phrase α) (fits : α → Nat → Prop) (levels : Nat) : Prop :=
  ∀ ⦃s v s'⦄, s.Ordered limit → phrase levels s v s' →
    fits v levels ∧ ∀ more, fits v more → phrase more s v s'

/-- The phrases one level deeper need what their trees do, and the level they are read on. -/
structure Phrases.Needs (limit levels : Nat) : Prop where
  expression : Phrase.Needs limit (fun m => (phrases m).expression) FitsBelow levels
  concatenation : Phrase.Needs limit (fun m => (phrases m).concatenation) FitsBelow levels
  unary : Phrase.Needs limit (fun m => (phrases m).unary) FitsBelow levels
  block : Phrase.Needs limit (fun m => (phrases m).block) FitsBelow levels

/-- To find no expression takes the level on which it is looked for. -/
theorem noExpression_needs {s : Stream} (h : (phrases levels).noExpression s) :
    1 ≤ levels ∧ ∀ more, 1 ≤ more → (phrases more).noExpression s := by
  cases levels with
  | zero => exact h.elim
  | succ levels =>
    refine ⟨Nat.succ_pos _, fun more hm => ?_⟩
    obtain ⟨more, rfl⟩ := Nat.exists_eq_succ_of_ne_zero (Nat.ne_of_gt hm)
    exact h

namespace Phrase

open Grammar (Tier indexed selfParameter valueList looseTiers tightTiers)

variable {s s' m : Stream} {v : Node}

section Terminals

theorem need_of_atom {form : Form Node} {span : Span} (he : entries ⟨form, span⟩ = [])
    (ha : attempts ⟨form, span⟩ = 0) : need ⟨form, span⟩ = 0 := by
  refine Nat.le_zero.mp (need_le_iff.mpr ⟨Nat.le_of_eq ha, ?_⟩)
  rw [he]
  exact List.forall_mem_nil _

theorem need_name (h : Name s v s') : v.need = 0 := by
  obtain ⟨text, -, span, -, rfl⟩ := h
  exact need_of_atom rfl rfl

theorem need_key (h : Key s v s') : v.need = 0 := by
  obtain ⟨text, -, span, -, rfl⟩ := h
  exact need_of_atom rfl rfl

theorem need_string (h : String s v s') : v.need = 0 := by
  obtain ⟨text, span, -, rfl⟩ := h
  exact need_of_atom rfl rfl

/-- Phrases one after the other need what each of them needs. -/
theorem needs_sequence (item : Nat → Phrase α) {fits : α → Nat → Prop} {items : List α}
    (hitem : Needs limit item fits levels)
    (ho : ∀ {s a s'}, s.Ordered limit → item levels s a s' → s'.Ordered limit) (hs : s.Ordered limit)
    (h : Sequence (item levels) s items s') :
    (∀ a ∈ items, fits a levels) ∧
      ∀ more, (∀ a ∈ items, fits a more) → Sequence (item more) s items s' := by
  induction h with
  | nil => exact ⟨List.forall_mem_nil _, fun _ _ => .nil⟩
  | cons ha _ ih =>
    obtain ⟨hle, hmore⟩ := hitem hs ha
    obtain ⟨hle', hmore'⟩ := ih (ho hs ha)
    refine ⟨List.forall_mem_cons.mpr ⟨hle, hle'⟩, fun more hm => ?_⟩
    obtain ⟨hm, hm'⟩ := List.forall_mem_cons.mp hm
    exact .cons (hmore more hm) (hmore' more hm')

end Terminals

section Operators
variable (operand left right : Nat → Phrase Node)

/-- A node that grows step by step needs at the end what it needed before and what every step
needs. -/
theorem needs_steps (step : Nat → Node → Phrase Node) {x : Node}
    (hstep : ∀ {x s y s'}, s.Ordered limit → step levels x s y s' →
      s'.Ordered limit ∧ (x.Fits levels → y.Fits levels) ∧
        ∀ more, y.Fits more → x.Fits more ∧ step more x s y s')
    (ho : s.Ordered limit) (hx : x.Fits levels) (hs : Steps (step levels) x s v s') :
    v.Fits levels ∧ ∀ more, v.Fits more → x.Fits more ∧ Steps (step more) x s v s' := by
  induction hs with
  | refl => exact ⟨hx, fun more hm => ⟨hm, .refl⟩⟩
  | cons h _ ih =>
    obtain ⟨ho', hle, hmore⟩ := hstep ho h
    obtain ⟨hv, hvmore⟩ := ih ho' (hle hx)
    refine ⟨hv, fun more hm => ?_⟩
    obtain ⟨hy, hsteps⟩ := hvmore more hm
    obtain ⟨hx, hxy⟩ := hmore more hy
    exact ⟨hx, .cons hxy hsteps⟩

theorem binary_fits {op : BinaryOp} {x right : Node} {n : Nat} (hop : Node.groupsRight op = false) :
    (Node.binary op x right).Fits n ↔ x.Fits n ∧ right.Fits n := by
  rw [Node.binary, Fits, need_le_iff]
  simp [entries, attempts, hop]

theorem needs_chain {tier : Tier} (hop : ∀ op ∈ tier.operators, Node.groupsRight op = false)
    (ho : Needs limit operand Fits levels) (hspans : (operand levels).Spanned limit) :
    Needs limit (fun m => Chain (operand m) tier) Fits levels := by
  intro s v s' hs ⟨first, m, hfirst, hsteps, hend⟩
  obtain ⟨hle, hmore⟩ := ho hs hfirst
  obtain ⟨hv, hvmore⟩ := needs_steps (fun n x => ChainStep (operand n) tier x)
    (fun {x s y s'} hs hstep => by
      obtain ⟨op, hmem, span, u, ht, right, hr, rfl⟩ := hstep
      have hu := (hs.takes ht).1
      obtain ⟨hrle, hrmore⟩ := ho hu hr
      refine ⟨(hspans hu hr).ordered, fun hx => (binary_fits (hop op hmem)).mpr ⟨hx, hrle⟩, fun more hy => ?_⟩
      obtain ⟨hx, hright⟩ := (binary_fits (hop op hmem)).mp hy
      exact ⟨hx, op, hmem, span, u, ht, right, hrmore more hright, rfl⟩)
    (hspans hs hfirst).ordered hle hsteps
  refine ⟨hv, fun more hm => ?_⟩
  obtain ⟨hx, hsteps⟩ := hvmore more hm
  exact ⟨first, m, hmore more hx, hsteps, hend⟩

theorem needs_chains {tiers : List Tier}
    (hop : ∀ tier ∈ tiers, ∀ op ∈ tier.operators, Node.groupsRight op = false)
    (ho : Needs limit operand Fits levels) (hspans : (operand levels).Spanned limit) :
    Needs limit (fun m => Chains (operand m) tiers) Fits levels := by
  induction tiers with
  | nil => exact ho
  | cons tier tighter ih =>
    obtain ⟨hop, hop'⟩ := List.forall_mem_cons.mp hop
    exact needs_chain (fun m => Chains (operand m) tighter) hop (ih hop')
      (spanned_chains hspans tighter)

theorem needs_withRight {op : BinaryOp} (hop : Node.groupsRight op = true)
    (hl : Needs limit left Fits levels) (hspans : (left levels).Spanned limit)
    (hr : Needs limit right FitsBelow levels) :
    Needs limit (fun m => WithRight (left m) op (right m)) Fits levels := by
  rintro s v s' hs ⟨first, m, hfirst, ⟨span, m', ht, operand, hoperand, rfl⟩ | ⟨hn, rfl, rfl⟩⟩
  · obtain ⟨hle, hmore⟩ := hl hs hfirst
    obtain ⟨hle', hmore'⟩ := hr ((hspans hs hfirst).ordered.takes ht).1 hoperand
    have hneed (n : Nat) : (Node.binary op first operand).need ≤ n ↔
        first.need ≤ n ∧ 1 + operand.need ≤ n := by
      rw [Node.binary, need_le_iff]
      simp [entries, attempts, hop]
    refine ⟨(hneed _).mpr ⟨hle, hle'⟩, fun more hv => ?_⟩
    obtain ⟨hx, hy⟩ := (hneed _).mp hv
    exact ⟨first, m, hmore more hx, .inl ⟨span, m', ht, operand, hmore' more hy, rfl⟩⟩
  · obtain ⟨hle, hmore⟩ := hl hs hfirst
    exact ⟨hle, fun more hv => ⟨_, _, hmore more hv, .inr ⟨hn, rfl, rfl⟩⟩⟩

end Operators

section Functions
variable (h : Phrases.Needs limit levels)
include h

theorem needs_functionBody {first : Span} {isMethod : Bool} :
    Needs limit (fun m => FunctionBody (phrases m) first isMethod) Fits levels := by
  rintro s v s' ho ⟨opening, m₁, hopen, listed, m₂, hlisted, closing, m₃, hclose, body, m₄, hbody, last,
    hlast, rfl⟩
  have ho₁ := (ho.takes hopen).1
  have hparameters : m₂.Ordered limit ∧ ∀ v ∈ listed, v.need = 0 := by
    rcases hlisted with hlisted | ⟨-, rfl, rfl⟩
    · refine ⟨(parameters_lists ho₁ hlisted).ordered, ?_⟩
      clear ho₁ hopen hclose
      induction hlisted with
      | last h _ => exact List.forall_mem_singleton.mpr (need_name h)
      | varargs h =>
        obtain ⟨span, -, rfl⟩ := h
        exact List.forall_mem_singleton.mpr (need_of_atom rfl rfl)
      | more h _ _ ih => exact List.forall_mem_cons.mpr ⟨need_name h, ih⟩
    · exact ⟨ho₁, List.forall_mem_nil _⟩
  obtain ⟨ho₂, hzero⟩ := hparameters
  obtain ⟨hle, hmore⟩ := h.block (ho₂.takes hclose).1 hbody
  have hall : ∀ v ∈ if isMethod then selfParameter opening :: listed else listed, v.need = 0 := by
    split
    · exact List.forall_mem_cons.mpr ⟨need_of_atom rfl rfl, hzero⟩
    · exact hzero
  have hneed (n : Nat) (span : Span) : need ⟨.function (if isMethod then selfParameter opening :: listed
      else listed) body isMethod, span⟩ ≤ n ↔ 1 + body.need ≤ n := by
    rw [need_le_iff]
    simp only [entries, attempts, List.forall_mem_append, List.forall_mem_map, List.forall_mem_singleton]
    refine ⟨fun h => h.2.2, fun h => ⟨Nat.zero_le _, fun v hm => ?_, h⟩⟩
    rw [hall v hm]
    exact Nat.zero_le _
  refine ⟨(hneed _ _).mpr hle, fun more hv => ?_⟩
  exact ⟨opening, m₁, hopen, listed, m₂, hlisted, closing, m₃, hclose, body, m₄,
    hmore more ((hneed _ _).mp hv), last, hlast, rfl⟩

theorem needs_functionLiteral : Needs limit (fun m => FunctionLiteral (phrases m)) Fits levels := by
  rintro s v s' ho ⟨first, m, ht, hbody⟩
  obtain ⟨hle, hmore⟩ := needs_functionBody h (ho.takes ht).1 hbody
  exact ⟨hle, fun more hv => ⟨first, m, ht, hmore more hv⟩⟩

end Functions

section Expressions
variable (h : Phrases.Needs limit levels)
include h

theorem needs_expressions :
    Needs limit (fun m => Expressions (phrases m)) (fun values n => ∀ v ∈ values, v.FitsBelow n)
      levels := by
  rintro s v s' ho ⟨first, m, hfirst, others, ⟨hothers, hend⟩, rfl⟩
  have hspans := phrases_spanned limit levels
  have hitem : Needs limit (fun m => After "," (phrases m).expression) FitsBelow levels := by
    rintro s v s' ho ⟨span, m, ht, hv⟩
    obtain ⟨hle, hmore⟩ := h.expression (ho.takes ht).1 hv
    exact ⟨hle, fun more hv => ⟨span, m, ht, hmore more hv⟩⟩
  have hordered {s v s'} (ho : s.Ordered limit) (h : After "," (phrases levels).expression s v s') :
      s'.Ordered limit := by
    obtain ⟨span, m, ht, hv⟩ := h
    exact (hspans.expression (ho.takes ht).1 hv).ordered
  obtain ⟨hle, hmore⟩ := h.expression ho hfirst
  obtain ⟨hle', hmore'⟩ := needs_sequence (fun m => After "," (phrases m).expression) hitem hordered
    (hspans.expression ho hfirst).ordered hothers
  refine ⟨List.forall_mem_cons.mpr ⟨hle, hle'⟩, fun more hm => ?_⟩
  obtain ⟨hm, hm'⟩ := List.forall_mem_cons.mp hm
  exact ⟨first, m, hmore more hm, others, ⟨hmore' more hm', hend⟩, rfl⟩

theorem needs_parenthesized : Needs limit (fun m => Parenthesized (phrases m)) Fits levels := by
  rintro s v s' ho ⟨first, m₁, hopen, inner, m₂, hinner, close, hclose, rfl⟩
  obtain ⟨hle, hmore⟩ := h.expression (ho.takes hopen).1 hinner
  have hneed (n : Nat) (span : Span) : need ⟨.paren inner, span⟩ ≤ n ↔ 1 + inner.need ≤ n := by
    rw [need_le_iff]
    simp [entries, attempts]
  refine ⟨(hneed _ _).mpr hle, fun more hv => ?_⟩
  exact ⟨first, m₁, hopen, inner, m₂, hmore more ((hneed _ _).mp hv), close, hclose, rfl⟩

omit h in
/-- The tree of a field that is an expression is no pair. -/
theorem tag_ne_pair (he : Shaped .expression v) : v.tag ≠ .pair := by
  cases he with
  | expressionFunction hf =>
    cases hf
    exact nofun
  | expressionBase hb =>
    cases hb with
    | baseName hn => cases hn; exact nofun
    | _ => exact nofun
  | _ => exact nofun

/-- A field that can be read where a number of levels is left. -/
abbrev FieldFits (field : Node) (n : Nat) : Prop := Node.fieldLevels field + field.need ≤ n

omit h in
theorem pair_fits {key value : Node} {span : Span} {n : Nat} :
    FieldFits ⟨.pair key value, span⟩ n ↔ key.FitsBelow n ∧ value.FitsBelow n := by
  have hzero : Node.fieldLevels ⟨.pair key value, span⟩ = 0 := rfl
  rw [FieldFits, hzero, Nat.zero_add, need_le_iff]
  simp [entries, attempts]

theorem needs_field : Needs limit (fun m => Field (phrases m)) FieldFits levels := by
  have hspans := phrases_spanned limit levels
  rintro s v s' ho (⟨first, m₁, hopen, key, m₂, hkey, close, m₃, hclose, equals, m₄, hequals, value,
    hvalue, rfl⟩ | ⟨key, m₁, hkey, equals, m₂, hequals, value, hvalue, rfl⟩ | ⟨hn, hv⟩)
  · have ho₁ := (ho.takes hopen).1
    have ho₂ := (hspans.expression ho₁ hkey).ordered
    obtain ⟨hle, hmore⟩ := h.expression ho₁ hkey
    obtain ⟨hle', hmore'⟩ := h.expression ((ho₂.takes hclose).1.takes hequals).1 hvalue
    refine ⟨pair_fits.mpr ⟨hle, hle'⟩, fun more hv => .inl ?_⟩
    obtain ⟨hk, hv⟩ := pair_fits.mp hv
    exact ⟨first, m₁, hopen, key, m₂, hmore more hk, close, m₃, hclose, equals, m₄, hequals, value,
      hmore' more hv, rfl⟩
  · have ho₁ := (spanned_key ho hkey).ordered
    obtain ⟨hle, hmore⟩ := h.expression (ho₁.takes hequals).1 hvalue
    have hzero := need_key hkey
    refine ⟨pair_fits.mpr ⟨by rw [FitsBelow]; omega, hle⟩, fun more hv => .inr (.inl ?_)⟩
    exact ⟨key, m₁, hkey, equals, m₂, hequals, value, hmore more (pair_fits.mp hv).2, rfl⟩
  · obtain ⟨hle, hmore⟩ := h.expression ho hv
    have hne := tag_ne_pair ((phrases_shaped levels).expression hv)
    have hfits (n : Nat) : FieldFits v n ↔ v.FitsBelow n := by
      rw [FieldFits, Node.fieldLevels, if_neg hne]
    exact ⟨(hfits _).mpr hle, fun more hm => .inr (.inr ⟨hn, hmore more ((hfits _).mp hm)⟩)⟩

omit h in
/-- Every field has an expression that is entered. -/
theorem pos_of_fieldFits {field : Node} {n : Nat} (hf : FieldFits field n) : 1 ≤ n := by
  by_cases htag : field.tag = .pair
  · obtain ⟨form, span⟩ := field
    cases form with
    | pair key value =>
      have hk := (pair_fits.mp hf).1
      rw [FitsBelow] at hk
      omega
    | _ => cases htag
  · rw [FieldFits, Node.fieldLevels, if_neg htag] at hf
    omega

theorem needs_fields {fields : List Node} (ho : s.Ordered limit)
    (hfields : Fields (phrases levels) s fields s') :
    (1 ≤ levels ∧ ∀ v ∈ fields, FieldFits v levels) ∧
      ∀ more, 1 ≤ more → (∀ v ∈ fields, FieldFits v more) → Fields (phrases more) s fields s' := by
  have hspans := phrases_spanned limit levels
  induction hfields with
  | none hn =>
    obtain ⟨hnone, hnoName, hno⟩ := hn
    obtain ⟨hle, hmore⟩ := noExpression_needs hno
    exact ⟨⟨hle, List.forall_mem_nil _⟩, fun more hm _ => .none ⟨hnone, hnoName, hmore more hm⟩⟩
  | last hf hs =>
    obtain ⟨hle, hmore⟩ := needs_field h ho hf
    refine ⟨⟨pos_of_fieldFits hle, List.forall_mem_singleton.mpr hle⟩, fun more _ hm => ?_⟩
    exact .last (hmore more (hm _ List.mem_cons_self)) hs
  | @more s t t' s' v span others hf hs _ ih =>
    have ht := (spanned_field hspans ho hf).ordered
    have ht' : t'.Ordered limit := by
      rcases hs with hs | hs
      · exact (ht.takes hs).1
      · exact (ht.takes hs).1
    obtain ⟨hle, hmore⟩ := needs_field h ho hf
    obtain ⟨⟨hpos, hle'⟩, hmore'⟩ := ih ht'
    refine ⟨⟨hpos, List.forall_mem_cons.mpr ⟨hle, hle'⟩⟩, fun more hp hm => ?_⟩
    obtain ⟨hm, hm'⟩ := List.forall_mem_cons.mp hm
    exact .more (hmore more hm) hs (hmore' more hp hm')

omit h in
theorem table_fits {fields : List Node} {span : Span} {n : Nat} :
    Fits ⟨.table fields, span⟩ n ↔ 1 ≤ n ∧ ∀ v ∈ fields, FieldFits v n := by
  rw [Fits, need_le_iff]
  simp only [entries, List.forall_mem_map]
  cases fields with
  | nil => simp [attempts]
  | cons field others =>
    refine and_congr_left fun hall => iff_of_true (Nat.zero_le _) ?_
    exact pos_of_fieldFits (hall field List.mem_cons_self)

theorem needs_table : Needs limit (fun m => Table (phrases m)) Fits levels := by
  rintro s v s' ho ⟨first, m₁, hopen, fields, m₂, hfields, close, hclose, rfl⟩
  obtain ⟨⟨hpos, hle⟩, hmore⟩ := needs_fields h (ho.takes hopen).1 hfields
  refine ⟨table_fits.mpr ⟨hpos, hle⟩, fun more hv => ?_⟩
  obtain ⟨hp, hall⟩ := table_fits.mp hv
  exact ⟨first, m₁, hopen, fields, m₂, hmore more hp hall, close, hclose, rfl⟩

/-- Arguments that can be read where a number of levels is left, as the end of a call. -/
def ArgumentsFit (span : Span) (arguments : List Node) (n : Nat) : Prop :=
  (arguments = [] → 1 ≤ n) ∧ ∀ v ∈ arguments, Node.closed span v + v.need ≤ n

theorem needs_arguments {values : List Node} (span : Span) (ho : s.Ordered limit)
    (ha : Arguments (phrases levels) s values s') (hspan : span.endPos = s'.lastEnd) :
    ArgumentsFit span values levels ∧
      ∀ more, ArgumentsFit span values more → Arguments (phrases more) s values s' := by
  have hspans := phrases_spanned limit levels
  rcases ha with ⟨first, m₁, hopen, listed, m₂, hlisted, close, hclose, rfl⟩ | ⟨v, hv, rfl⟩ | ⟨v, hv, rfl⟩
  · have ho₁ := (ho.takes hopen).1
    cases listed with
    | none =>
      obtain ⟨hno, rfl⟩ := hlisted
      obtain ⟨hle, hmore⟩ := noExpression_needs hno
      refine ⟨⟨fun _ => hle, List.forall_mem_nil _⟩, fun more hm => .inl ?_⟩
      exact ⟨first, _, hopen, none, _, ⟨hmore more (hm.1 rfl), rfl⟩, close, hclose, rfl⟩
    | some values =>
      obtain ⟨hle, hmore⟩ := needs_expressions h ho₁ hlisted
      have hlists := expressions_lists hspans ho₁ hlisted
      have hlt := (hlists.ordered.takes hclose).2.2.2.2
      have hnext := hlists.next
      -- the parenthesis comes after each of the arguments
      have hclosed : ∀ v ∈ values, Node.closed span v = 1 := by
        intro v hm
        have hend := (hlists.items.within v hm).endPos
        rw [Node.closed, if_pos (by omega)]
      have hfits (n : Nat) : ArgumentsFit span values n ↔ ∀ v ∈ values, v.FitsBelow n := by
        obtain ⟨value, _, _, _, _, rfl⟩ := hlisted
        refine ⟨fun h v hm => ?_, fun h => ⟨nofun, fun v hm => ?_⟩⟩
        · have hv := h.2 v hm
          rwa [hclosed v hm] at hv
        · rw [hclosed v hm]
          exact h v hm
      refine ⟨(hfits _).mpr hle, fun more hm => .inl ?_⟩
      exact ⟨first, m₁, hopen, some values, m₂, hmore more ((hfits _).mp hm), close, hclose, rfl⟩
  · obtain ⟨hle, hmore⟩ := needs_table h ho hv
    have hend := (spanned_table hspans ho hv).endPos
    have hfits (n : Nat) : ArgumentsFit span [v] n ↔ v.Fits n := by
      simp [ArgumentsFit, Node.closed, hspan, hend, Fits]
    exact ⟨(hfits _).mpr hle, fun more hm => .inr (.inl ⟨v, hmore more ((hfits _).mp hm), rfl⟩)⟩
  · have hend := (spanned_string ho hv).endPos
    refine ⟨⟨nofun, ?_⟩, fun more hm => .inr (.inr ⟨v, hv, rfl⟩)⟩
    simp [Node.closed, hspan, hend, need_string hv]

omit h in
theorem index_fits {object key : Node} {span : Span} {n : Nat} :
    Fits ⟨.index object key, span⟩ n ↔ object.Fits n ∧ Node.closed span key + key.need ≤ n := by
  rw [Fits, need_le_iff]
  simp [entries, attempts]

omit h in
theorem call_fits {callee : Node} {arguments : List Node} {span : Span} {n : Nat} :
    Fits ⟨.call callee arguments, span⟩ n ↔ callee.Fits n ∧ ArgumentsFit span arguments n := by
  rw [Fits, need_le_iff, ArgumentsFit]
  cases arguments <;> simp [entries, attempts, and_comm]

omit h in
theorem invoke_fits {object method : Node} {arguments : List Node} {span : Span} {n : Nat} :
    Fits ⟨.invoke object method arguments, span⟩ n ↔
      object.Fits n ∧ method.Fits n ∧ ArgumentsFit span arguments n := by
  rw [Fits, need_le_iff, ArgumentsFit]
  cases arguments <;> simp [entries, attempts, and_comm, and_left_comm]

theorem needs_suffix {object : Node} (ho : s.Ordered limit)
    (hs : Suffix (phrases levels) object s v s') :
    (object.Fits levels → v.Fits levels) ∧
      ∀ more, v.Fits more → object.Fits more ∧ Suffix (phrases more) object s v s' := by
  have hspans := phrases_spanned limit levels
  rcases hs with ⟨dot, m, hd, key, hk, rfl⟩ | ⟨first, m₁, hopen, key, m₂, hkey, close, hclose, rfl⟩ |
    ⟨colon, m₁, hc, method, m₂, hm, values, hvalues, rfl⟩ | ⟨values, hvalues, rfl⟩
  · have hfits (n : Nat) : (indexed object key).Fits n ↔ object.Fits n := by
      rw [indexed, index_fits]
      simp [Node.closed, Span.between, need_key hk]
    exact ⟨(hfits _).mpr, fun more hv => ⟨(hfits _).mp hv, .inl ⟨dot, m, hd, key, hk, rfl⟩⟩⟩
  · have ho₁ := (ho.takes hopen).1
    obtain ⟨hle, hmore⟩ := h.expression ho₁ hkey
    obtain ⟨ho₂, hn₂, -, he₂, -, -⟩ := hspans.expression ho₁ hkey
    have hlt := (ho₂.takes hclose).2.2.2.2
    have hclosed : Node.closed ⟨object.span.pos, s'.lastEnd⟩ key = 1 := by
      rw [Node.closed, if_pos (by simp only; omega)]
    refine ⟨fun hx => index_fits.mpr ⟨hx, hclosed ▸ hle⟩, fun more hv => ?_⟩
    obtain ⟨hx, hk⟩ := index_fits.mp hv
    rw [hclosed] at hk
    exact ⟨hx, .inr (.inl ⟨first, m₁, hopen, key, m₂, hmore more hk, close, hclose, rfl⟩)⟩
  · have ho₂ := (spanned_key (ho.takes hc).1 hm).ordered
    obtain ⟨hle, hmore⟩ := needs_arguments h ⟨object.span.pos, s'.lastEnd⟩ ho₂ hvalues rfl
    have hzero (n : Nat) : method.Fits n := Nat.le_trans (Nat.le_of_eq (need_key hm)) (Nat.zero_le n)
    refine ⟨fun hx => invoke_fits.mpr ⟨hx, hzero _, hle⟩, fun more hv => ?_⟩
    obtain ⟨hx, -, ha⟩ := invoke_fits.mp hv
    exact ⟨hx, .inr (.inr (.inl ⟨colon, m₁, hc, method, m₂, hm, values, hmore more ha, rfl⟩))⟩
  · obtain ⟨hle, hmore⟩ := needs_arguments h ⟨object.span.pos, s'.lastEnd⟩ ho hvalues rfl
    refine ⟨fun hx => call_fits.mpr ⟨hx, hle⟩, fun more hv => ?_⟩
    obtain ⟨hx, ha⟩ := call_fits.mp hv
    exact ⟨hx, .inr (.inr (.inr ⟨values, hmore more ha, rfl⟩))⟩

omit h in
theorem suffix_ordered {nested : Phrases} {object : Node} (hnested : nested.Spanned limit)
    (ho : s.Ordered limit) (hs : Suffix nested object s v s') : s'.Ordered limit := by
  rcases hs with ⟨dot, m, hd, key, hk, -⟩ | ⟨first, m₁, hopen, key, m₂, hkey, close, hclose, -⟩ |
    ⟨colon, m₁, hc, method, m₂, hm, values, hvalues, -⟩ | ⟨values, hvalues, -⟩
  · exact (spanned_key (ho.takes hd).1 hk).ordered
  · exact ((hnested.expression (ho.takes hopen).1 hkey).ordered.takes hclose).1
  · exact (arguments_within hnested (spanned_key (ho.takes hc).1 hm).ordered hvalues).1
  · exact (arguments_within hnested ho hvalues).1

theorem needs_suffixed : Needs limit (fun m => Suffixed (phrases m)) Fits levels := by
  have hspans := phrases_spanned limit levels
  rintro s v s' ho ⟨first, m, hfirst, hsteps, hend⟩
  have hprimary : s.Spans limit (s.position + 1) first m ∧ first.Fits levels ∧
      ∀ more, first.Fits more → Name s first m ∨ Parenthesized (phrases more) s first m := by
    rcases hfirst with hfirst | hfirst
    · exact ⟨spanned_name ho hfirst, by simp [Fits, need_name hfirst], fun _ _ => .inl hfirst⟩
    · obtain ⟨hle, hmore⟩ := needs_parenthesized h ho hfirst
      exact ⟨spanned_parenthesized hspans ho hfirst, hle, fun more hm => .inr (hmore more hm)⟩
  obtain ⟨hspan, hle, hmore⟩ := hprimary
  obtain ⟨hv, hvmore⟩ := needs_steps (fun n x => Suffix (phrases n) x)
    (fun {x s y s'} hs hstep => ⟨suffix_ordered hspans hs hstep, needs_suffix h hs hstep⟩)
    hspan.ordered hle hsteps
  refine ⟨hv, fun more hm => ?_⟩
  obtain ⟨hx, hsteps⟩ := hvmore more hm
  exact ⟨first, m, hmore more hx, hsteps, hend⟩

theorem needs_simple : Needs limit (fun m => Simple (phrases m)) Fits levels := by
  have hzero {token : Token} {form : Form Node} {s s' : Stream} {v : Node} (hv : Atom token form s v s')
      (he : ∀ span, entries ⟨form, span⟩ = []) (ha : ∀ span, attempts ⟨form, span⟩ = 0) :
      v.Fits levels := by
    obtain ⟨span, -, rfl⟩ := hv
    exact Nat.le_trans (Nat.le_of_eq (need_of_atom (he span) (ha span))) (Nat.zero_le _)
  rintro s v s' ho (hv | hv | hv | hv | hv | hv | hv | hv | hv)
  · obtain ⟨value, hv⟩ := hv
    exact ⟨hzero hv (fun _ => rfl) fun _ => rfl, fun _ _ => .inl ⟨value, hv⟩⟩
  · obtain ⟨value, hv⟩ := hv
    exact ⟨hzero hv (fun _ => rfl) fun _ => rfl, fun _ _ => .inr (.inl ⟨value, hv⟩)⟩
  · exact ⟨hzero hv (fun _ => rfl) fun _ => rfl, fun _ _ => .inr (.inr (.inl hv))⟩
  · exact ⟨hzero hv (fun _ => rfl) fun _ => rfl, fun _ _ => .inr (.inr (.inr (.inl hv)))⟩
  · exact ⟨hzero hv (fun _ => rfl) fun _ => rfl, fun _ _ => .inr (.inr (.inr (.inr (.inl hv))))⟩
  · exact ⟨hzero hv (fun _ => rfl) fun _ => rfl, fun _ _ => .inr (.inr (.inr (.inr (.inr (.inl hv)))))⟩
  · obtain ⟨hle, hmore⟩ := needs_functionLiteral h ho hv
    exact ⟨hle, fun more hm => .inr (.inr (.inr (.inr (.inr (.inr (.inl (hmore more hm)))))))⟩
  · obtain ⟨hle, hmore⟩ := needs_table h ho hv
    exact ⟨hle, fun more hm => .inr (.inr (.inr (.inr (.inr (.inr (.inr (.inl (hmore more hm))))))))⟩
  · obtain ⟨hle, hmore⟩ := needs_suffixed h ho hv
    exact ⟨hle, fun more hm => .inr (.inr (.inr (.inr (.inr (.inr (.inr (.inr (hmore more hm))))))))⟩

theorem needs_unary : Needs limit (fun m => Unary (phrases m)) Fits levels := by
  have hspans := phrases_spanned limit levels
  rintro s v s' ho (⟨op, first, m, ht, operand, hoperand, rfl⟩ | hv)
  · obtain ⟨hle, hmore⟩ := h.unary (ho.takes ht).1 hoperand
    have hneed (n : Nat) (span : Span) : Fits ⟨.unary op operand, span⟩ n ↔ operand.FitsBelow n := by
      rw [Fits, need_le_iff]
      simp [entries, attempts]
    refine ⟨(hneed _ _).mpr hle, fun more hv => .inl ?_⟩
    exact ⟨op, first, m, ht, operand, hmore more ((hneed _ _).mp hv), rfl⟩
  · obtain ⟨hle, hmore⟩ := needs_withRight (fun n => Simple (phrases n)) (fun n => (phrases n).unary)
      (by rfl : Node.groupsRight .pow = true) (needs_simple h) (spanned_simple hspans) h.unary ho hv
    exact ⟨hle, fun more hm => .inr (hmore more hm)⟩

theorem needs_concatenation : Needs limit (fun m => Concatenation (phrases m)) Fits levels := by
  have hspans := phrases_spanned limit levels
  have hchains : Needs limit (fun m => Chains (Unary (phrases m)) tightTiers) Fits levels :=
    needs_chains (fun n => Unary (phrases n)) (by decide) (needs_unary h) (spanned_unary hspans)
  intro s v s' ho hv
  exact needs_withRight (fun n => Chains (Unary (phrases n)) tightTiers)
    (fun n => (phrases n).concatenation) (by rfl : Node.groupsRight .concat = true) hchains
    (spanned_chains (spanned_unary hspans) _) h.concatenation ho hv

theorem needs_expression : Needs limit (fun m => Expression (phrases m)) Fits levels :=
  needs_chains (fun n => Concatenation (phrases n)) (by decide) (needs_concatenation h)
    (spanned_concatenation (phrases_spanned limit levels))

end Expressions

end Phrase

end LuaSyntax
