import LuaSyntax.Proofs.Excerpt.Open

/-! # Derivations of all nodes

Going down from a derivation of a tree, every node that stands for statements or for an
expression has a derivation of its own somewhere in the stream of the tree, under no more
nesting levels than the tree has.
-/
namespace LuaSyntax

open Phrase

variable {whole : Stream} {limit : Nat}

/-- A node is read somewhere in a stream as what it stands for, under at most so many nesting
levels. A block is read in front of some token, and its statements from the first to the last
one. -/
def Derived (whole : Stream) (limit : Nat) : Standing → Node → Prop
  | .statement, v => ∃ levels ≤ limit, ∃ s s', whole.Reaches s ∧ Series (phrases levels) s [v] s'
  | .block, v =>
      (v.children ≠ [] → ∃ levels ≤ limit, ∃ s s', whole.Reaches s ∧
        Series (phrases levels) s v.children s' ∧ v.span = ⟨s.position + 1, s'.lastEnd⟩) ∧
      ∃ levels ≤ limit, ∃ s s', whole.Reaches s ∧ Block (phrases levels) s v s' ∧ s'.lexemes ≠ []
  | .expression, v => ∃ levels ≤ limit, ∃ s s', whole.Reaches s ∧ Open (phrases levels) s v s'
  | _, _ => True

/-- A node is read somewhere in a stream as what it stands for, and so are all nodes below
it. -/
def Derives (whole : Stream) (limit : Nat) (standing : Standing) (v : Node) : Prop :=
  ∀ found n, Node.Occurs standing v found n → Derived whole limit found n

namespace Derives
variable {standing : Standing} {v : Node}

theorem iff_parts : Derives whole limit standing v ↔
    Derived whole limit standing v ∧ ∀ part ∈ v.parts standing, Derives whole limit part.1 part.2 := by
  constructor
  · exact fun h => ⟨h _ _ .root, fun part hm found n hn => h found n (.inner hm hn)⟩
  · rintro ⟨h, hparts⟩ found n hn
    cases hn with
    | root => exact h
    | inner hm hn => exact hparts _ hm found n hn

theorem mk (h : Derived whole limit standing v)
    (hparts : ∀ part ∈ v.parts standing, Derives whole limit part.1 part.2) : Derives whole limit standing v :=
  iff_parts.mpr ⟨h, hparts⟩

theorem leaf (h : Derived whole limit standing v) (hc : v.parts standing = []) : Derives whole limit standing v :=
  .mk h (hc ▸ List.forall_mem_nil _)

/-- What a node stands for can be ignored. -/
theorem other (h : Derives whole limit standing v) : Derives whole limit .other v := by
  induction v using Node.children_induction generalizing standing with
  | h v ih =>
    refine .mk trivial fun part hm => ?_
    obtain ⟨-, hparts⟩ := iff_parts.mp h
    obtain ⟨form, span⟩ := v
    cases form with
    | nameList items | targetList items | valueList items =>
      simp only [Node.parts, reduceCtorEq, if_false, List.mem_map] at hm
      obtain ⟨item, hitem, rfl⟩ := hm
      exact ih item hitem (hparts _ (List.mem_map.mpr ⟨item, hitem, rfl⟩))
    | _ => exact hparts part hm

theorem list {form : List Node → Form Node} {items : List Node} {span : Span} (standing : Standing)
    (hs : standing = .list ∨ standing = .other)
    (hform : ∀ standing, (⟨form items, span⟩ : Node).parts standing =
      items.map (if standing = .list then .expression else .other, ·))
    (h : ∀ v ∈ items, Derives whole limit .expression v) : Derives whole limit standing ⟨form items, span⟩ := by
  refine .mk (by rcases hs with rfl | rfl <;> trivial) fun part hm => ?_
  rw [hform, List.mem_map] at hm
  obtain ⟨v, hv, rfl⟩ := hm
  rcases hs with rfl | rfl
  · exact h v hv
  · exact (h v hv).other

end Derives

/-- All nodes of the nested phrases are read somewhere in a stream. -/
structure Phrases.Derives (whole : Stream) (limit : Nat) (nested : Phrases) : Prop where
  expression : ∀ {s v s'}, whole.Reaches s → nested.expression s v s' → LuaSyntax.Derives whole limit .expression v
  concatenation : ∀ {s v s'}, whole.Reaches s → nested.concatenation s v s' →
    LuaSyntax.Derives whole limit .expression v
  unary : ∀ {s v s'}, whole.Reaches s → nested.unary s v s' → LuaSyntax.Derives whole limit .expression v
  block : ∀ {s v s'}, whole.Reaches s → nested.block s v s' → s'.lexemes ≠ [] →
    LuaSyntax.Derives whole limit .block v

namespace Phrase

/-- A phrase leads on in the stream wherever it is put. -/
theorem Carries.reaches {α β : Type} {room : Room} {P : Phrase α} {P' : Phrase β} {f : α → β} {s s' : Stream} {a : α}
    (h : Carries default room P P' f) (ha : P s a s') : s.Reaches s' := h.leads ha

theorem Carries.reaches_cleared {α β : Type} {room : Room} {P : Phrase α} {P' : Phrase β} {f : α → β} {s s' : Stream}
    {a : α} (h : Carries default room (Cleared default P) P' f) (ha : P s a s') : s.Reaches s' :=
  (h.uncleared rfl).leads ha

theorem Closes.reaches {α β : Type} {P : Phrase α} {P' : Phrase β} {f : α → β} {s s' : Stream} {a : α}
    (h : Closes default P P' f) (ha : P s a s') : s.Reaches s' := h.free.leads ha

open Grammar (Tier indexed selfParameter valueList looseTiers tightTiers)

variable {levels : Nat} {s m s' : Stream} {v : Node}

section Terminals
variable (hk : levels ≤ limit) (hs : whole.Reaches s)
include hk hs

theorem derives_name (h : Name s v s') : Derives whole limit .expression v := by
  refine .leaf ⟨levels, hk, s, s', hs, .suffixed ⟨v, s', .inl h, .refl⟩⟩ ?_
  obtain ⟨text, -, span, -, rfl⟩ := h
  rfl

theorem derives_tiered {rank : Nat} (hr : rank ≤ operandRank) (h : Tiered (phrases levels) rank s v s')
    (hparts : ∀ part ∈ v.parts .expression, Derives whole limit part.1 part.2) :
    Derives whole limit .expression v :=
  .mk ⟨levels, hk, s, s', hs, .tiered hr h⟩ hparts

theorem derives_operand (h : Simple (phrases levels) s v s')
    (hparts : ∀ part ∈ v.parts .expression, Derives whole limit part.1 part.2) :
    Derives whole limit .expression v :=
  .mk ⟨levels, hk, s, s', hs, .tiered (Nat.le_refl operandRank) h⟩ hparts

theorem derives_atom {token : Token} {form : Form Node} (ha : Atom token form s v s')
    (h : Simple (phrases levels) s v s') (hform : ∀ span, (⟨form, span⟩ : Node).parts .expression = []) :
    Derives whole limit .expression v := by
  obtain ⟨span, -, rfl⟩ := ha
  exact .leaf ⟨levels, hk, s, s', hs, .tiered (Nat.le_refl operandRank) h⟩ (hform span)

end Terminals

theorem derives_key (h : Key s v s') : Derives whole limit .other v := by
  obtain ⟨text, -, span, -, rfl⟩ := h
  exact .leaf trivial rfl

theorem forall_sequence {α : Type} {phrase : Phrase α} {p : α → Prop} {items : List α}
    (h : ∀ {s a s'}, whole.Reaches s → phrase s a s' → s.Reaches s' ∧ p a) (hs : whole.Reaches s)
    (hi : Sequence phrase s items s') : ∀ a ∈ items, p a := by
  induction hi with
  | nil => exact List.forall_mem_nil _
  | cons ha _ ih =>
    obtain ⟨hr, hp⟩ := h hs ha
    exact List.forall_mem_cons.mpr ⟨hp, ih (hs.trans hr)⟩

theorem forall_sequence_ahead {α : Type} {phrase : Phrase α} {p : α → Prop} {items : List α}
    (hr : ∀ {s a s'}, phrase s a s' → s.Reaches s')
    (h : ∀ {s a s'}, whole.Reaches s → phrase s a s' → s'.lexemes ≠ [] → p a) (hs : whole.Reaches s)
    (hne : s'.lexemes ≠ []) (hi : Sequence phrase s items s') : ∀ a ∈ items, p a := by
  suffices hall : s.Reaches s' ∧ ∀ a ∈ items, p a from hall.2
  induction hi with
  | nil => exact ⟨.refl, List.forall_mem_nil _⟩
  | cons ha _ ih =>
    obtain ⟨hrest, hothers⟩ := ih (hs.trans (hr ha)) hne
    exact ⟨(hr ha).trans hrest, List.forall_mem_cons.mpr ⟨h hs ha (hrest.ne_nil hne), hothers⟩⟩

section Functions
variable (hk : levels ≤ limit) (hd : (phrases levels).Derives whole limit)

include hk in
theorem derives_parameters {listed : List Node} (hs : whole.Reaches s) (h : Parameters s listed s') :
    ∀ v ∈ listed, Derives whole limit .expression v := by
  induction h with
  | last h _ => exact List.forall_mem_singleton.mpr (derives_name hk hs h)
  | varargs h =>
    refine List.forall_mem_singleton.mpr (derives_atom hk hs h ?_ fun _ => rfl)
    exact .inr (.inr (.inr (.inr (.inr (.inl h)))))
  | more h hc _ ih =>
    have hr := closes_name.reaches h
    exact List.forall_mem_cons.mpr ⟨derives_name hk hs h, ih ((hs.trans hr).trans hc.reaches)⟩

include hk hd in
theorem derives_functionBody {first : Span} {isMethod : Bool} (hs : whole.Reaches s)
    (h : FunctionBody (phrases levels) first isMethod s v s') :
    (∀ standing, ∀ part ∈ v.parts standing, Derives whole limit part.1 part.2) ∧ v.isMethod = isMethod ∧
      v.span.pos = first.pos := by
  obtain ⟨opening, m₁, hopen, listed, m₂, hlisted, closing, m₃, hclose, body, m₄, hbody, last, hlast, rfl⟩ := h
  have hs₁ := hs.trans hopen.reaches
  have hparameters : whole.Reaches m₂ ∧ ∀ v ∈ listed, Derives whole limit .expression v := by
    rcases hlisted with hlisted | ⟨-, rfl, rfl⟩
    · exact ⟨hs₁.trans (carries_parameters.reaches hlisted), derives_parameters hk hs₁ hlisted⟩
    · exact ⟨hs₁, List.forall_mem_nil _⟩
  obtain ⟨hs₂, hlisted⟩ := hparameters
  have hblock := hd.block (hs₂.trans hclose.reaches) hbody hlast.ne_nil
  refine ⟨fun standing => ?_, rfl, rfl⟩
  simp only [Node.parts, List.forall_mem_append, List.forall_mem_singleton]
  refine ⟨?_, hblock⟩
  cases isMethod with
  | true =>
    simp only [if_true, Node.parameterStandings, List.forall_mem_cons, List.forall_mem_map]
    exact ⟨.leaf trivial rfl, hlisted⟩
  | false =>
    simp only [Bool.false_eq_true, if_false, Node.parameterStandings_function, List.forall_mem_map]
    exact hlisted

end Functions

section Expressions
variable (hk : levels ≤ limit) (hd : (phrases levels).Derives whole limit)

include hd in
theorem derives_expressions {values : List Node} (hs : whole.Reaches s) (h : Expressions (phrases levels) s values s') :
    ∀ v ∈ values, Derives whole limit .expression v := by
  have hcarries : (phrases levels).Carries default (phrases levels) := phrases_carries levels 0
  obtain ⟨first, m, hfirst, others, ⟨hothers, -⟩, rfl⟩ := h
  refine List.forall_mem_cons.mpr ⟨hd.expression hs hfirst, ?_⟩
  refine forall_sequence (fun hs h => ?_) (hs.trans (hcarries.expression.reaches hfirst)) hothers
  obtain ⟨span, m, hc, hv⟩ := h
  exact ⟨hc.reaches.trans (hcarries.expression.reaches hv), hd.expression (hs.trans hc.reaches) hv⟩

include hk hd

omit hk in
theorem derives_field (hs : whole.Reaches s) (h : Field (phrases levels) s v s') :
    Derives whole limit (if v.tag = .pair then .other else .expression) v := by
  have hcarries : (phrases levels).Carries default (phrases levels) := phrases_carries levels 0
  have hpair {key value : Node} {span : Span} (hkey : Derives whole limit (Node.fieldKeyStanding span key) key)
      (hvalue : Derives whole limit .expression value) : Derives whole limit .other ⟨.pair key value, span⟩ := by
    refine .mk trivial ?_
    simp only [Node.parts, List.forall_mem_cons, List.not_mem_nil, false_imp_iff, implies_true, and_true]
    exact ⟨hkey, hvalue⟩
  rcases h with ⟨first, m₁, hopen, key, m₂, hkey, close, m₃, hclose, equals, m₄, hequals, value, hvalue, rfl⟩ |
    ⟨key, m₁, hkey, equals, m₂, hequals, value, hvalue, rfl⟩ | ⟨-, hv⟩
  · have hs₁ := hs.trans hopen.reaches
    have hs₂ := hs₁.trans (hcarries.expression.reaches hkey)
    refine hpair ?_ (hd.expression ((hs₂.trans hclose.reaches).trans hequals.reaches) hvalue)
    rw [Node.fieldKeyStanding]
    split
    · exact hd.expression hs₁ hkey
    · exact (hd.expression hs₁ hkey).other
  · have hs₁ := hs.trans (closes_key.reaches hkey)
    refine hpair ?_ (hd.expression (hs₁.trans hequals.reaches) hvalue)
    rw [Node.fieldKeyStanding, if_neg (Nat.lt_irrefl _)]
    exact derives_key hkey
  · have hderives := hd.expression hs hv
    split
    · exact hderives.other
    · exact hderives

omit hk in
theorem derives_fields {fields : List Node} (hs : whole.Reaches s) (h : Fields (phrases levels) s fields s') :
    ∀ v ∈ fields, Derives whole limit (if v.tag = .pair then .other else .expression) v := by
  have hcarries : (phrases levels).Carries default (phrases levels) := phrases_carries levels 0
  induction h with
  | none => exact List.forall_mem_nil _
  | last hv _ => exact List.forall_mem_singleton.mpr (derives_field hd hs hv)
  | more hv hsep _ ih =>
    have hm := hs.trans ((carries_field hcarries).reaches hv)
    refine List.forall_mem_cons.mpr ⟨derives_field hd hs hv, ih ?_⟩
    rcases hsep with hsep | hsep
    · exact hm.trans hsep.reaches
    · exact hm.trans hsep.reaches

theorem derives_table (hs : whole.Reaches s) (h : Table (phrases levels) s v s') :
    Derives whole limit .expression v := by
  have hsimple : Simple (phrases levels) s v s' := .inr (.inr (.inr (.inr (.inr (.inr (.inr (.inl h)))))))
  refine derives_operand hk hs hsimple ?_
  obtain ⟨first, m₁, hopen, fields, m₂, hfields, close, hclose, rfl⟩ := h
  simp only [Node.parts, List.forall_mem_map]
  exact derives_fields hd (hs.trans hopen.reaches) hfields

theorem derives_arguments {values : List Node} (hs : whole.Reaches s) (h : Arguments (phrases levels) s values s') :
    ∀ v ∈ values, Derives whole limit .expression v := by
  rcases h with ⟨first, m₁, hopen, listed, m₂, hlisted, close, hclose, rfl⟩ | ⟨v, hv, rfl⟩ | ⟨v, hv, rfl⟩
  · cases listed with
    | none => exact List.forall_mem_nil _
    | some values => exact derives_expressions hd (hs.trans hopen.reaches) hlisted
  · exact List.forall_mem_singleton.mpr (derives_table hk hd hs hv)
  · obtain ⟨value, ha⟩ := hv
    exact List.forall_mem_singleton.mpr (derives_atom hk hs ha (.inr (.inl ⟨value, ha⟩)) fun _ => rfl)

theorem derives_suffix {object : Node} {m' : Stream} (hs : whole.Reaches s)
    (ho : Derives whole limit .expression object) (hopen : OpenSuffixed (phrases levels) s object m)
    (h : Suffix (phrases levels) object m v m') :
    Derives whole limit .expression v ∧ OpenSuffixed (phrases levels) s v m' := by
  have hcarries : (phrases levels).Carries default (phrases levels) := phrases_carries levels 0
  have hm := hs.trans ((closes_openSuffixed hcarries).reaches hopen)
  have hv : OpenSuffixed (phrases levels) s v m' := by
    obtain ⟨first, e, hfirst, hsteps⟩ := hopen
    exact ⟨first, e, hfirst, hsteps.snoc h⟩
  refine ⟨.mk ⟨levels, hk, s, m', hs, .suffixed hv⟩ ?_, hv⟩
  rcases h with ⟨dot, e, hd', key, hkey, rfl⟩ | ⟨first, e, hopen, key, e', hkey, close, hclose, rfl⟩ |
    ⟨colon, e, hc, method, e', hmethod, values, hvalues, rfl⟩ | ⟨values, hvalues, rfl⟩
  · simp only [indexed, Node.parts, Node.keyStanding, Span.between, Nat.lt_irrefl, if_false,
      List.forall_mem_cons, List.not_mem_nil, false_imp_iff, implies_true, and_true]
    exact ⟨ho, derives_key hkey⟩
  · have hkey := hd.expression (hm.trans hopen.reaches) hkey
    simp only [Node.parts, Node.keyStanding, List.forall_mem_cons, List.not_mem_nil, false_imp_iff, implies_true,
      and_true]
    refine ⟨ho, ?_⟩
    split
    · exact hkey
    · exact hkey.other
  · have he := (hm.trans hc.reaches).trans (closes_key.reaches hmethod)
    simp only [Node.parts, List.forall_mem_cons, List.forall_mem_map]
    exact ⟨ho, derives_key hmethod, derives_arguments hk hd he hvalues⟩
  · simp only [Node.parts, List.forall_mem_cons, List.forall_mem_map]
    exact ⟨ho, derives_arguments hk hd hm hvalues⟩

theorem derives_suffixes {first : Node} (hs : whole.Reaches s) (ho : Derives whole limit .expression first)
    (hopen : OpenSuffixed (phrases levels) s first m)
    (hsteps : Steps (fun x s y s' => Suffix (phrases levels) x s y s') first m v s') :
    Derives whole limit .expression v ∧ OpenSuffixed (phrases levels) s v s' := by
  induction hsteps with
  | refl => exact ⟨ho, hopen⟩
  | cons hx _ ih =>
    obtain ⟨ho', hopen'⟩ := derives_suffix hk hd hs ho hopen hx
    exact ih ho' hopen'

theorem derives_suffixed (hs : whole.Reaches s) (h : Suffixed (phrases levels) s v s') :
    Derives whole limit .expression v := by
  obtain ⟨first, m, hfirst, hsteps, -⟩ := h
  refine (derives_suffixes hk hd hs ?_ ⟨first, m, hfirst, .refl⟩ hsteps).1
  rcases hfirst with hfirst | hfirst
  · exact derives_name hk hs hfirst
  · refine .mk ⟨levels, hk, s, m, hs, .suffixed ⟨first, m, .inr hfirst, .refl⟩⟩ ?_
    obtain ⟨opening, m₁, hopen, inner, m₂, hinner, close, hclose, rfl⟩ := hfirst
    simp only [Node.parts, List.forall_mem_singleton]
    exact hd.expression (hs.trans hopen.reaches) hinner

theorem derives_simple (hs : whole.Reaches s) (h : Simple (phrases levels) s v s') :
    Derives whole limit .expression v := by
  have hsimple := h
  rcases h with ⟨value, h⟩ | ⟨value, h⟩ | h | h | h | h | h | h | h
  · exact derives_atom hk hs h hsimple fun _ => rfl
  · exact derives_atom hk hs h hsimple fun _ => rfl
  · exact derives_atom hk hs h hsimple fun _ => rfl
  · exact derives_atom hk hs h hsimple fun _ => rfl
  · exact derives_atom hk hs h hsimple fun _ => rfl
  · exact derives_atom hk hs h hsimple fun _ => rfl
  · obtain ⟨first, m, ht, hbody⟩ := h
    refine derives_operand hk hs hsimple ?_
    exact (derives_functionBody hk hd (hs.trans ht.reaches) hbody).1 _
  · exact derives_table hk hd hs h
  · exact derives_suffixed hk hd hs h

omit hd in
theorem derives_binary {op : BinaryOp} {left right : Node} (hs : whole.Reaches s)
    (h : Open (phrases levels) s (.binary op left right) s') (hl : Derives whole limit .expression left)
    (hr : Derives whole limit .expression right) : Derives whole limit .expression (.binary op left right) := by
  refine .mk ⟨levels, hk, s, s', hs, h⟩ ?_
  simp only [Node.binary, Node.parts, List.forall_mem_cons, List.not_mem_nil, false_imp_iff, implies_true, and_true]
  exact ⟨hl, hr⟩

omit hd in
theorem derives_withRight {left right : Phrase Node} {op : BinaryOp} {rank : Nat} (hrank : rank ≤ operandRank)
    (htier : Tiered (phrases levels) rank = WithRight left op right)
    (hl : ∀ {s v s'}, whole.Reaches s → left s v s' → s.Reaches s' ∧ Derives whole limit .expression v)
    (hr : ∀ {s v s'}, whole.Reaches s → right s v s' → Derives whole limit .expression v) (hs : whole.Reaches s)
    (h : WithRight left op right s v s') : Derives whole limit .expression v := by
  have hopen : Open (phrases levels) s v s' := .tiered hrank (htier ▸ h)
  obtain ⟨first, m, hfirst, ⟨span, m', ht, operand, hoperand, rfl⟩ | ⟨-, rfl, rfl⟩⟩ := h
  · obtain ⟨hreach, hleft⟩ := hl hs hfirst
    exact derives_binary hk hs hopen hleft (hr ((hs.trans hreach).trans ht.reaches) hoperand)
  · exact (hl hs hfirst).2

omit hd in
theorem derives_chain {rank : Nat} {tier : Tier} (htier : TierAt rank tier)
    (ho : ∀ {s v s'}, whole.Reaches s → Tiered (phrases levels) (rank + 1) s v s' →
      Derives whole limit .expression v) (hs : whole.Reaches s) (h : Tiered (phrases levels) rank s v s') :
    Derives whole limit .expression v := by
  have hcarries : (phrases levels).Carries default (phrases levels) := phrases_carries levels 0
  rw [htier.tiered] at h
  obtain ⟨first, m, hfirst, hsteps, -⟩ := h
  have hstart : OpenChain (phrases levels) rank tier s first m := ⟨first, m, hfirst, .refl⟩
  have hx := ho hs hfirst
  clear hfirst
  induction hsteps with
  | refl => exact hx
  | @cons x m y m' z s' hy _ ih =>
    have hm := hs.trans ((carries_openChain hcarries rank tier).reaches hstart)
    have hnext : OpenChain (phrases levels) rank tier s y m' := by
      obtain ⟨first, e, hfirst, hsteps⟩ := hstart
      exact ⟨first, e, hfirst, hsteps.snoc hy⟩
    refine ih hnext ?_
    obtain ⟨op, -, span, e, ht, right, hright, rfl⟩ := hy
    exact derives_binary hk hs (.chain htier hnext) hx (ho (hm.trans ht.reaches) hright)

theorem derives_of_succ {rank : Nat} (hlt : rank < operandRank)
    (ho : ∀ {s v s'}, whole.Reaches s → Tiered (phrases levels) (rank + 1) s v s' →
      Derives whole limit .expression v) (hs : whole.Reaches s) (h : Tiered (phrases levels) rank s v s') :
    Derives whole limit .expression v := by
  have hcarries : (phrases levels).Carries default (phrases levels) := phrases_carries levels 0
  have hchain (op : BinaryOp) (hc : op ≠ .concat) (hp : op ≠ .pow) (hop : op.rank = rank) :
      Derives whole limit .expression v := by
    obtain ⟨tier, htier⟩ := tierAt_of_rank hc hp
    exact derives_chain hk (hop ▸ htier) ho hs h
  match rank with
  | 0 => exact hchain .or nofun nofun rfl
  | 1 => exact hchain .and nofun nofun rfl
  | 2 => exact hchain .eq nofun nofun rfl
  | 3 => exact hchain .bitOr nofun nofun rfl
  | 4 => exact hchain .bitXor nofun nofun rfl
  | 5 => exact hchain .bitAnd nofun nofun rfl
  | 6 => exact hchain .shiftLeft nofun nofun rfl
  | 7 =>
    refine derives_withRight hk (by decide : 7 ≤ operandRank) rfl (fun hs h => ⟨?_, ho hs h⟩) hd.concatenation hs h
    exact (carries_tiered hcarries 8).reaches h
  | 8 => exact hchain .add nofun nofun rfl
  | 9 => exact hchain .mul nofun nofun rfl
  | 10 =>
    rcases h with h | h
    · refine derives_tiered hk hs (by decide : 10 ≤ operandRank) (.inl h) ?_
      obtain ⟨op, first, m, ht, operand, hoperand, rfl⟩ := h
      simp only [Node.parts, List.forall_mem_singleton]
      exact hd.unary (hs.trans ht.reaches) hoperand
    · exact ho hs h
  | 11 =>
    refine derives_withRight hk (by decide : 11 ≤ operandRank) rfl (fun hs h => ⟨?_, ho hs h⟩) hd.unary hs h
    exact (carries_simple hcarries).reaches h
  | rank + 12 => exact absurd hlt (by simp [operandRank])

theorem derives_rank {rank : Nat} (hr : rank ≤ operandRank) (hs : whole.Reaches s)
    (h : Tiered (phrases levels) rank s v s') : Derives whole limit .expression v := by
  obtain ⟨n, hn⟩ := Nat.exists_eq_add_of_le hr
  induction n generalizing rank s v s' with
  | zero =>
    rw [Nat.add_zero] at hn
    subst hn
    exact derives_simple hk hd hs h
  | succ n ih =>
    have hlt : rank < operandRank := by omega
    exact derives_of_succ hk hd hlt (fun hs h => ih hlt hs h (by omega)) hs h

end Expressions

end Phrase

end LuaSyntax
