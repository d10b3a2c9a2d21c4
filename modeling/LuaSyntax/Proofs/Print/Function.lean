import LuaSyntax.Proofs.Print.Expression

/-! # Reading printed functions and tables

The parameters and the block of a function are read back wherever they stand: after the word
of a function value, or after the name in a function statement, where the implicit parameter
of a method is not written. Of the forms of fields only those with brackets and those without
a key are written.
-/
namespace LuaSyntax

open Phrase

namespace Node

/-- A rest parameter is read back. -/
def ReadsRest (v : Node) : Prop := Readable Varargs Anywhere v.tokens v

/-- The tokens of a function after its first word, without an implicit parameter. -/
def bodyTokens : Node → List Token
  | ⟨.function parameters body isMethod, _⟩ =>
    functionTokens ((tokensEach parameters).drop (if isMethod then 1 else 0)) body.tokens
  | _ => []

/-- The parameters and the block of a function are read back. -/
def ReadsFunction (isMethod : Bool) (v : Node) : Prop :=
  ∀ levels first, v.weight ≤ levels →
    Readable (FunctionBody (phrases levels) first isMethod) Anywhere v.bodyTokens v

/-- A field of a table is read back in front of another field or of the end of the table. -/
def ReadsField (v : Node) : Prop :=
  ∀ levels, v.weight < levels →
    Readable (Field (phrases levels)) (fun s => s.Next [",", "\x7d"]) v.tokens v

variable {v body : Node} {levels : Nat} {s s' : Stream} {span : Span}

theorem readsRest_varargs : ReadsRest ⟨.varargs, span⟩ := by
  intro s s' hs _
  obtain ⟨found, ht⟩ := Stream.spells_singleton.mp hs
  exact ⟨⟨.varargs, found⟩, ⟨found, ht, rfl⟩, rfl⟩

section Parameters
variable {names : List Node} {rest : Option Node} (hn : ∀ v ∈ names, v.ReadsName) (hr : ∀ v ∈ rest, v.ReadsRest)
include hn hr

theorem reads_parameters (hne : names ++ rest.toList ≠ [])
    (hs : s.Spells (separated (.fixed ",") ((names ++ rest.toList).map tokens)) s') (hf : s'.Next [")"]) :
    ∃ listed, Parameters s listed s' ∧ AllEqBare listed (names ++ rest.toList) := by
  induction names generalizing s with
  | nil =>
    cases rest with
    | none => exact (hne rfl).elim
    | some v =>
      obtain ⟨v', hv', halike⟩ := hr v rfl hs trivial
      exact ⟨[v'], .varargs hv', by simpa [AllEqBare, EqBare] using halike⟩
  | cons v names ih =>
    obtain ⟨hv, hn⟩ := List.forall_mem_cons.mp hn
    cases hothers : names ++ rest.toList with
    | nil =>
      rw [List.cons_append, hothers] at hs
      obtain ⟨v', hv', halike⟩ := hv hs trivial
      refine ⟨[v'], .last hv' (hf.disjoint (by decide)), ?_⟩
      rw [List.cons_append, hothers]
      simpa [AllEqBare, EqBare] using halike
    | cons w others =>
      rw [List.cons_append, hothers] at hs
      obtain ⟨m, hfirst, found, m', hc, hrest⟩ := Stream.spells_append.mp hs
      obtain ⟨v', hv', halike⟩ := hv hfirst trivial
      have hne' : names ++ rest.toList ≠ [] := by
        rw [hothers]
        exact List.cons_ne_nil _ _
      have hspells : m'.Spells (separated (.fixed ",") ((names ++ rest.toList).map tokens)) s' := by
        rw [hothers]
        exact hrest
      obtain ⟨listed, hlisted, halikes⟩ := ih hn hne' hspells
      refine ⟨v' :: listed, .more hv' hc hlisted, ?_⟩
      simp only [AllEqBare, EqBare, List.cons_append, List.map_cons] at halike halikes ⊢
      rw [halike, halikes]

theorem reads_functionBody {first : Span} {isMethod : Bool} (hb : body.ReadsBlock) (hw : body.weight < levels)
    (hs : s.Spells (functionTokens ((names ++ rest.toList).map tokens) body.tokens) s') :
    ∃ opening listed body' last, FunctionBody (phrases levels) first isMethod s
        ⟨.function (if isMethod then Grammar.selfParameter opening :: listed else listed) body' isMethod, last⟩ s' ∧
      AllEqBare listed (names ++ rest.toList) ∧ body'.EqBare body := by
  simp only [functionTokens, Stream.spells_append, Stream.Spells] at hs
  obtain ⟨m₄, ⟨m₂, ⟨opening, m₁, hopen, hlist⟩, closing, m₃, hclose, hblock⟩, last, m, hend, rfl⟩ := hs
  have hlisted : ∃ listed, (Parameters m₁ listed m₂ ∨ ¬ m₁.Next ["...", .name] ∧ listed = [] ∧ m₂ = m₁) ∧
      AllEqBare listed (names ++ rest.toList) := by
    by_cases hne : names ++ rest.toList = []
    · rw [hne] at hlist
      obtain rfl : m₂ = m₁ := hlist
      exact ⟨[], .inr ⟨hclose.opens.disjoint (by decide), rfl, rfl⟩, by rw [hne]; rfl⟩
    · obtain ⟨listed, hlisted, halikes⟩ := reads_parameters hn hr hne hlist hclose.opens
      exact ⟨listed, .inl hlisted, halikes⟩
  obtain ⟨listed, hlisted, halikes⟩ := hlisted
  obtain ⟨body', hbody, halike⟩ := hb.nested hw hblock (.inr (hend.opens.mono (by decide)))
  exact ⟨opening, listed, body', _, ⟨opening, m₁, hopen, listed, m₂, hlisted, closing, m₃, hclose, body', m₄, hbody,
    last, hend, rfl⟩, halikes, halike⟩

theorem readsFunction_function (hb : body.ReadsBlock) :
    ReadsFunction false ⟨.function (names ++ rest.toList) body false, span⟩ := by
  intro levels first hw s s' hs _
  have hweight : body.weight < levels := weight_child hw (List.mem_append_right _ List.mem_cons_self)
  rw [bodyTokens, tokensEach_eq_map] at hs
  obtain ⟨opening, listed, body', last, hbody, halikes, halike⟩ := reads_functionBody hn hr hb hweight hs
  refine ⟨_, hbody, ?_⟩
  simp only [AllEqBare, EqBare, bare] at halikes halike ⊢
  simp only [respan, respanEach_eq_map, Bool.false_eq_true, if_false]
  rw [halikes, halike]

theorem readsFunction_method {anchor : Span} (hb : body.ReadsBlock) :
    ReadsFunction true ⟨.function (⟨.name (.ofString "self"), anchor⟩ :: (names ++ rest.toList)) body true, span⟩ := by
  intro levels first hw s s' hs _
  have hweight : body.weight < levels := weight_child hw (List.mem_append_right _ List.mem_cons_self)
  rw [bodyTokens, tokensEach_eq_map] at hs
  obtain ⟨opening, listed, body', last, hbody, halikes, halike⟩ := reads_functionBody hn hr hb hweight hs
  refine ⟨_, hbody, ?_⟩
  simp only [AllEqBare, EqBare, bare] at halikes halike ⊢
  simp only [respan, respanEach_eq_map, if_true, List.map_cons, Grammar.selfParameter]
  rw [halikes, halike]

end Parameters

/-- A function is read back as a value. -/
theorem reads_function {parameters : List Node} (h : ReadsFunction false ⟨.function parameters body false, span⟩) :
    ReadsExpression ⟨.function parameters body false, span⟩ := by
  refine reads_simple rfl (fun levels hw s s' hs _ => ?_) fun hs _ => unnamed_of_next hs.next (by decide)
  obtain ⟨first, m, ht, hrest⟩ := hs
  obtain ⟨v', hv', halike⟩ := h levels first hw hrest trivial
  exact ⟨v', .inr (.inr (.inr (.inr (.inr (.inr (.inl ⟨first, m, ht, hv'⟩)))))), halike⟩

section Tables

theorem reads_item (h : v.ReadsExpression) : v.ReadsField := by
  intro levels hw s s' hs hf
  obtain ⟨v', hv', halike⟩ := h.nested hw hs (.inr (hf.mono (by decide)))
  exact ⟨v', .inr (.inr ⟨h.unnamed hs (hf.disjoint (by decide)), hv'⟩), halike⟩

theorem reads_pair {key value : Node} (hk : key.ReadsExpression) (hv : value.ReadsExpression) :
    ReadsField ⟨.pair key value, span⟩ := by
  intro levels hw s s' hs hf
  simp only [tokens, Stream.spells_append, Stream.Spells] at hs
  obtain ⟨m₂, ⟨first, m₁, hopen, hkey⟩, close, m₃, hclose, equals, m₄, hequals, hvalue⟩ := hs
  have hwk : key.weight < levels := weight_child (Nat.le_of_lt hw) List.mem_cons_self
  have hwv : value.weight < levels := weight_child (Nat.le_of_lt hw) (List.mem_cons_of_mem _ List.mem_cons_self)
  obtain ⟨key', hkey', hkalike⟩ := hk.nested hwk hkey (.inr (hclose.opens.mono (by decide)))
  obtain ⟨value', hvalue', hvalike⟩ := hv.nested hwv hvalue (.inr (hf.mono (by decide)))
  refine ⟨⟨.pair key' value', first.pos, s'.lastEnd⟩, .inl ⟨first, m₁, hopen, key', m₂, hkey', close, m₃, hclose,
    equals, m₄, hequals, value', hvalue', rfl⟩, ?_⟩
  simp only [EqBare, bare, respan] at hkalike hvalike ⊢
  rw [hkalike, hvalike]

theorem reads_fields {fields : List Node} (h : ∀ v ∈ fields, v.ReadsField) (hpos : 0 < levels)
    (hw : ∀ v ∈ fields, v.weight < levels) (hs : s.Spells (separated (.fixed ",") (fields.map tokens)) s')
    (hf : s'.Next ["\x7d"]) : ∃ listed, Fields (phrases levels) s listed s' ∧ AllEqBare listed fields := by
  induction fields generalizing s with
  | nil =>
    obtain rfl : s' = s := hs
    obtain ⟨levels, rfl⟩ : ∃ n, levels = n + 1 := ⟨levels - 1, by omega⟩
    have hnext : (phrases (levels + 1)).noExpression s' := hf.disjoint (by decide)
    exact ⟨[], .none ⟨hf.disjoint (by decide), unnamed_of_next hf (by decide), hnext⟩, rfl⟩
  | cons v fields ih =>
    obtain ⟨hv, h⟩ := List.forall_mem_cons.mp h
    obtain ⟨hwv, hw⟩ := List.forall_mem_cons.mp hw
    cases fields with
    | nil =>
      obtain ⟨v', hv', halike⟩ := hv levels hwv hs (hf.mono (by decide))
      exact ⟨[v'], .last hv' (hf.disjoint (by decide)), by simpa [AllEqBare, EqBare] using halike⟩
    | cons w fields =>
      obtain ⟨m, hfirst, found, m', hc, hrest⟩ := Stream.spells_append.mp hs
      obtain ⟨v', hv', halike⟩ := hv levels hwv hfirst (hc.opens.mono (by decide))
      obtain ⟨listed, hlisted, halikes⟩ := ih h hw hrest
      refine ⟨v' :: listed, .more hv' (.inl hc) hlisted, ?_⟩
      simp only [AllEqBare, EqBare, List.map_cons] at halike halikes ⊢
      rw [halike, halikes]

theorem reads_table {fields : List Node} (h : ∀ v ∈ fields, v.ReadsField) : ReadsExpression ⟨.table fields, span⟩ := by
  refine reads_simple rfl (fun levels hw s s' hs _ => ?_) fun hs _ => unnamed_of_next hs.next (by decide)
  simp only [tokens, Stream.spells_append, Stream.Spells, tokensEach_eq_map] at hs
  obtain ⟨m₂, ⟨first, m₁, hopen, hfields⟩, last, m₃, hclose, rfl⟩ := hs
  have hpos : 0 < levels := Nat.lt_of_lt_of_le (weight_pos _) hw
  obtain ⟨listed, hlisted, halikes⟩ := reads_fields h hpos (fun v hm => weight_child hw hm) hfields hclose.opens
  have htable : Table (phrases levels) s ⟨.table listed, first.pos, s'.lastEnd⟩ s' :=
    ⟨first, m₁, hopen, listed, m₂, hlisted, last, hclose, rfl⟩
  refine ⟨_, .inr (.inr (.inr (.inr (.inr (.inr (.inr (.inl htable))))))), ?_⟩
  simp only [AllEqBare, EqBare, bare, respan, respanEach_eq_map] at halikes ⊢
  rw [halikes]

end Tables

end Node

end LuaSyntax
