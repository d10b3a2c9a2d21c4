import LuaSyntax.Proofs.Swap.Combinators

/-! # Expressions in which a part is read otherwise

Suffixes and fields are read otherwise where they stand, and so are the statements in the functions
of an expression. There is a token in front of each of these in an expression.
-/
namespace LuaSyntax
variable {κ : Type} {key : Node → κ} {n : Node} {same : Prop} {room : Room} {levels : Nat}

/-- The kinds of nodes that may be read otherwise. -/
def Tag.isSwappable : Tag → Bool
  | .call | .invoke | .index | .pair | .assignment => true
  | _ => false

/-- No node of another kind is sought. -/
theorem Node.inside_mk (hn : n.tag.isSwappable) {form : Form Node} {span : Span} (hf : form.tag.isSwappable = false) :
    n.Inside ⟨form, span⟩ ↔ ∃ child ∈ form.children, n.Inside child := by
  rw [inside_iff]
  constructor
  · rintro (rfl | ⟨child, hm, h⟩)
    · rw [show Node.tag ⟨form, span⟩ = form.tag from rfl, hf] at hn
      cases hn
    · refine ⟨child, ?_, h⟩
      cases form <;> first | exact hm | cases hf
  · rintro ⟨child, hm, h⟩
    refine .inr ⟨child, ?_, h⟩
    cases form <;> first | exact hm | cases hf

/-- The nested phrases may be read otherwise, and with one nesting level more. -/
structure Phrases.Swaps (key : Node → κ) (n : Node) (levels : Nat) : Prop where
  outlines : Node.Outlines key
  sought : n.tag.isSwappable
  expression : Phrase.Swaps key n True .token key n.Inside (phrases levels).expression (phrases (levels + 1)).expression
  concatenation :
    Phrase.Swaps key n True .token key n.Inside (phrases levels).concatenation (phrases (levels + 1)).concatenation
  unary : Phrase.Swaps key n True .token key n.Inside (phrases levels).unary (phrases (levels + 1)).unary
  block : Phrase.Swaps key n True .statement key n.Inside (phrases levels).block (phrases (levels + 1)).block

namespace Phrase

open Grammar (Tier indexed selfParameter valueList looseTiers tightTiers)

variable (h : Phrases.Swaps key n levels)
include h

section Terminals

omit h in
theorem swaps_token (token : Token) : Swaps key n same .token (fun _ => ()) (fun _ => False)
    (fun s taken s' => s.Takes token taken s') (fun s taken s' => s.Takes token taken s') :=
  have ht := inert_takes token
  .of_copies ht.leads ht.copies fun _ _ _ _ => id

theorem swaps_atom (token : Token) {form : Form Node} (hform : form.children = []) (htag : form.tag.isSwappable = false) :
    Swaps key n same .token key n.Inside (Atom token form) (Atom token form) := by
  refine (swaps_token token).return (fun _ _ _ _ _ => h.outlines.congr rfl) fun _ span _ _ hb => ?_
  obtain ⟨child, hm, -⟩ := (Node.inside_mk h.sought htag).mp hb
  rw [hform] at hm
  cases hm

theorem swaps_name : Swaps key n same .token key n.Inside Name Name :=
  .exists fun _ => .and id fun _ => swaps_atom h _ rfl rfl

theorem swaps_key : Swaps key n same .token key n.Inside Key Key :=
  .exists fun _ => .and id fun _ => swaps_atom h _ rfl rfl

theorem swaps_number : Swaps key n same .token key n.Inside Number Number :=
  .exists fun _ => swaps_atom h _ rfl rfl

theorem swaps_string : Swaps key n same .token key n.Inside String String :=
  .exists fun _ => swaps_atom h _ rfl rfl

theorem swaps_varargs : Swaps key n same .token key n.Inside Varargs Varargs := swaps_atom h _ rfl rfl

omit h in
theorem stays_node {P P' : Phrase Node} (hp : ∀ x, Carries x room P P' x.node) : Stays room P P' :=
  Carries.stays fun x hi => Excerpt.node_eq hi ▸ hp x

omit h in
theorem stays_list {P P' : Phrase (List Node)} (hp : ∀ x : Excerpt, Carries x room P P' (List.map x.node)) : Stays room P P' :=
  Carries.stays fun x hi => by
    have hmap : List.map x.node = id := funext (Excerpt.map_node_eq hi)
    exact hmap ▸ hp x

omit h in
theorem stays_name : Stays .token Name Name := stays_node fun _ => closes_name.carries

omit h in
theorem stays_key : Stays .token Key Key := stays_node fun _ => closes_key.carries

omit h in
theorem stays_expression : Stays .token (phrases levels).expression (phrases (levels + 1)).expression :=
  stays_node fun _ => (phrases_carries levels 1).expression.mono Room.within_token

omit h in
theorem stays_block : Stays .token (phrases levels).block (phrases (levels + 1)).block :=
  stays_node fun _ => (phrases_carries levels 1).block

end Terminals

section Functions

/-- Parameters, or none. -/
theorem not_inside_parameters {s s' : Stream} {listed : List Node}
    (hl : Parameters s listed s' ∨ ¬ s.Next ["...", .name] ∧ listed = [] ∧ s' = s) : ∀ v ∈ listed, ¬ n.Inside v := by
  have hname {s s' : Stream} {v : Node} (hv : Name s v s') : ¬ n.Inside v := by
    obtain ⟨text, -, span, -, rfl⟩ := hv
    rw [Node.inside_mk h.sought rfl]
    simp [Form.children]
  rcases hl with hl | ⟨-, rfl, -⟩
  · induction hl with
    | last hv => exact List.forall_mem_singleton.mpr (hname hv)
    | varargs hv =>
      obtain ⟨span, -, rfl⟩ := hv
      refine List.forall_mem_singleton.mpr ?_
      rw [Node.inside_mk h.sought rfl]
      simp [Form.children]
    | more hv _ _ ih => exact List.forall_mem_cons.mpr ⟨hname hv, ih⟩
  · exact List.forall_mem_nil _

theorem swaps_parameters : Swaps key n same .token (List.map key) (fun listed => ∃ v ∈ listed, n.Inside v)
    (fun s listed s' => Parameters s listed s' ∨ ¬ s.Next ["...", .name] ∧ listed = [] ∧ s' = s)
    (fun s listed s' => Parameters s listed s' ∨ ¬ s.Next ["...", .name] ∧ listed = [] ∧ s' = s) := by
  have hcarries (x : Excerpt) : Carries x (.apart [",", "...", .name])
      (fun s listed s' => Parameters s listed s' ∨ ¬ s.Next ["...", .name] ∧ listed = [] ∧ s' = s)
      (fun s listed s' => Parameters s listed s' ∨ ¬ s.Next ["...", .name] ∧ listed = [] ∧ s' = s) (List.map x.node) :=
    (carries_parameters.mono (by decide)).or (carries_none rfl (Excerpt.keeps_not_next (by decide)))
  refine .of_copies (fun _ _ _ hl => (hcarries default).leads hl) (Carries.copies hcarries ?_) ?_
  · intro x listed
    rw [List.map_map]
    exact List.map_congr_left fun v _ => h.outlines.respan x.span v
  · rintro s listed s' hl ⟨v, hm, hv⟩
    exact not_inside_parameters h hl v hm hv

omit h in
theorem stays_parameters : Stays .token
    (fun s listed s' => Parameters s listed s' ∨ ¬ s.Next ["...", .name] ∧ listed = [] ∧ s' = s)
    (fun s listed s' => Parameters s listed s' ∨ ¬ s.Next ["...", .name] ∧ listed = [] ∧ s' = s) :=
  stays_list fun _ => (carries_parameters.mono Room.within_token).or
    (carries_none rfl (Excerpt.keeps_not_next Room.within_token))

theorem swaps_functionBody (first first' : Span) (isMethod : Bool) :
    Swaps key n same .token key n.Inside (FunctionBody (phrases levels) first isMethod)
      (FunctionBody (phrases (levels + 1)) first' isMethod) := by
  refine .takes fun opening opening' => (swaps_parameters h).bind stays_parameters fun listed listed' hl =>
    .takes fun _ _ => h.block.bind stays_block fun body body' hb => (swaps_token "end").return ?_ ?_
  · intro _ _ s s' _
    refine h.outlines.congr ?_
    have hself : key (selfParameter opening') = key (selfParameter opening) := h.outlines.congr rfl
    cases isMethod <;> simp [Form.map, hb, hl, hself]
  · rintro _ _ _ _ ⟨⟨hin, hlisted⟩, hbody⟩
    obtain ⟨child, hm, hc⟩ := (Node.inside_mk h.sought rfl).mp hin
    have hself : ¬ n.Inside (selfParameter opening) := by
      rw [selfParameter, Node.inside_mk h.sought rfl]
      simp [Form.children]
    have hall : ∀ v ∈ (if isMethod then selfParameter opening :: listed else listed) ++ [body], ¬ n.Inside v := by
      have hlisted : ∀ v ∈ listed, ¬ n.Inside v := fun v hm hv => hlisted ⟨v, hm, hv⟩
      cases isMethod <;> simpa [or_imp, forall_and, hself, hbody] using hlisted
    exact hall child hm hc

theorem swaps_functionLiteral : Swaps key n same .token key n.Inside (FunctionLiteral (phrases levels))
    (FunctionLiteral (phrases (levels + 1))) :=
  .takes fun first first' => swaps_functionBody h first first' false

end Functions

section Operators
variable {operand operand' left left' right right' : Phrase Node} {tiers : List Tier}

theorem inside_binary {op : BinaryOp} {left right : Node} (hv : n.Inside (.binary op left right)) :
    n.Inside left ∨ n.Inside right := by
  obtain ⟨child, hm, hc⟩ := (Node.inside_mk h.sought rfl).mp hv
  simp only [Form.children, List.mem_cons, List.not_mem_nil, or_false] at hm
  rcases hm with rfl | rfl
  · exact .inl hc
  · exact .inr hc

theorem key_binary {op : BinaryOp} {left left' right right' : Node} (hl : key left' = key left)
    (hr : key right' = key right) : key (.binary op left' right') = key (.binary op left right) :=
  h.outlines.congr (by simp [Form.map, hl, hr])

theorem swaps_chainStep (ho : Swaps key n True .token key n.Inside operand operand') (tier : Tier) (v v' : Node)
    (hv : key v' = key v) :
    Swaps key n same .token key (fun w => n.Inside w ∧ ¬ n.Inside v) (ChainStep operand tier v)
      (ChainStep operand' tier v') :=
  .exists fun _ => .and id fun _ => .takes fun _ _ => ho.any.return
    (fun _ _ _ _ hr => key_binary h hv hr) fun _ _ _ _ hw => (inside_binary h hw.1).resolve_left hw.2

theorem swaps_chain (ho : Swaps key n True .token key n.Inside operand operand')
    (hs : ∀ x, Carries x .expression operand operand' x.node) (tier : Tier) :
    Swaps key n same .token key n.Inside (Chain operand tier) (Chain operand' tier) := by
  have hstays : Stays .token operand operand' := stays_node fun x => (hs x).mono Room.within_token
  have hstep (v : Node) : Stays .token (ChainStep operand tier v) (ChainStep operand' tier v) := by
    refine Carries.stays fun x hi => ?_
    have hcarried : Carries x .token (ChainStep operand tier v) (ChainStep operand' tier (x.node v)) x.node :=
      (carries_chainStep (hs x) tier v).mono Room.within_token
    rwa [Excerpt.node_eq hi] at hcarried
  refine ho.any.bind hstays fun first first' hf => ?_
  have hsteps := Swaps.steps first first' hf (fun v v' hv => swaps_chainStep h ho tier v v' hv) hstep
  exact (hsteps.mono Room.within_token And.right fun _ hw => hw).until (copied_not_next _)

theorem swaps_chains (ho : Swaps key n True .token key n.Inside operand operand')
    (hs : ∀ x, Carries x .expression operand operand' x.node)
    (hw : ∀ tier ∈ tiers, (Room.apart (tier.operators.flatMap LuaSyntax.operatorKinds)).Within .expression) :
    Swaps key n True .token key n.Inside (Chains operand tiers) (Chains operand' tiers) := by
  induction tiers with
  | nil => exact ho
  | cons tier tighter ih =>
    rw [List.forall_mem_cons] at hw
    exact swaps_chain h (ih hw.2) (fun x => carries_chains (hs x) hw.2) tier

theorem swaps_withRight (op : BinaryOp) (hl : Swaps key n True .token key n.Inside left left')
    (hs : ∀ x, Carries x .expression left left' x.node)
    (hr : Swaps key n True .token key n.Inside right right') :
    Swaps key n True .token key n.Inside (WithRight left op right) (WithRight left' op right') := by
  have hstays : Stays .token left left' := stays_node fun x => (hs x).mono Room.within_token
  refine hl.bind hstays fun first first' hf => .or ?_ (.none hf (fun hw => hw.2 hw.1) (copied_not_next _))
  exact .takes fun _ _ => hr.any.return (fun _ _ _ _ hr => key_binary h hf hr) fun _ _ _ _ hw =>
    (inside_binary h hw.1).resolve_left hw.2

end Operators

section Fields
variable {s s' : Stream}

theorem swaps_expressions : Swaps key n same .token (List.map key) (fun values => ∃ v ∈ values, n.Inside v)
    (Expressions (phrases levels)) (Expressions (phrases (levels + 1))) := by
  have hafter : Stays .token (After "," (phrases levels).expression) (After "," (phrases (levels + 1)).expression) :=
    stays_node fun x => ((phrases_carries levels 1).expression.mono Room.within_token).after ","
  refine h.expression.any.bind stays_expression fun first first' hf => ?_
  refine (((h.expression.any.after ",").sequence hafter).until (copied_not_next _)).return ?_ ?_
  · intro others others' _ _ ho
    simp [hf, ho]
  · rintro _ others _ - ⟨⟨v, hm, hv⟩, hfirst⟩
    rcases List.mem_cons.mp hm with rfl | hm
    · exact (hfirst hv).elim
    · exact ⟨v, hm, hv⟩

theorem swaps_parenthesized : Swaps key n same .token key n.Inside (Parenthesized (phrases levels))
    (Parenthesized (phrases (levels + 1))) := by
  refine .takes fun _ _ => h.expression.any.bind stays_expression fun inner inner' hi => (swaps_token ")").return ?_ ?_
  · exact fun _ _ _ _ _ => h.outlines.congr (by simp [Form.map, hi])
  · rintro _ _ _ _ ⟨hin, hinner⟩
    obtain ⟨child, hm, hc⟩ := (Node.inside_mk h.sought rfl).mp hin
    obtain rfl := List.mem_singleton.mp hm
    exact hinner hc

omit h in
/-- The token after a name is still there, or what comes after the excerpt is no `=`. -/
theorem noNamedField_put {x : Excerpt} (hc : x.Covers s) (hl : x.Leaves (.apart [.name]) s)
    (hkey : ∀ key m, Key s key m → x.Leaves (.apart ["="]) m) (hs : NoNamedField s) : NoNamedField (x.stream s) := by
  rcases hs with hs | ⟨key, m, hk, hm⟩
  · exact .inl (Excerpt.keeps_not_next (Room.within_self _) s hl hs)
  · have hl' := hkey key m hk
    have hkey' : Carries x (.apart ["="]) Key Key x.node := closes_key.carries
    exact .inr ⟨x.node key, x.stream m, (hkey' hk).2 hc hl', Excerpt.keeps_not_next (Room.within_self _) m hl' hm⟩

omit h in
/-- A pair is sought in its key and its value, unless it is sought itself. -/
theorem inside_pair {key' value : Node} {span : Span} (hv : n.Inside ⟨.pair key' value, span⟩)
    (hne : ¬ ((⟨.pair key' value, span⟩ : Node) = n ∧ n.tag = .pair)) : n.Inside key' ∨ n.Inside value := by
  rcases Node.inside_iff.mp hv with heq | ⟨child, hm, hc⟩
  · exact (hne ⟨heq, heq ▸ rfl⟩).elim
  · simp only [Node.branches, Node.children, Form.children, List.mem_cons, List.not_mem_nil, or_false] at hm
    rcases hm with rfl | rfl
    · exact .inl hc
    · exact .inr hc

/-- The expressions in a field. -/
theorem swaps_innerField : Swaps key n same .token key (fun v => n.Inside v ∧ ¬ (v = n ∧ n.tag = .pair))
    (Field (phrases levels)) (Field (phrases (levels + 1))) := by
  refine .or ?_ (.or ?_ ?_)
  · refine .takes fun _ _ => h.expression.any.bind stays_expression fun key' key'' hk => .takes fun _ _ => .takes fun _ _ =>
      h.expression.any.return ?_ ?_
    · exact fun _ _ _ _ hv => h.outlines.congr (by simp [Form.map, hk, hv])
    · rintro _ value _ _ ⟨⟨hin, hne⟩, hkey⟩
      exact (inside_pair hin hne).resolve_left hkey
  · refine (swaps_key h).bind stays_key fun key' key'' hk => .takes fun _ _ => h.expression.any.return ?_ ?_
    · exact fun _ _ _ _ hv => h.outlines.congr (by simp [Form.map, hk, hv])
    · rintro _ value _ _ ⟨⟨hin, hne⟩, hkey⟩
      exact (inside_pair hin hne).resolve_left hkey
  · refine ⟨fun s v s' hv => h.expression.leads hv.2, ?_, ?_⟩
    · rintro x s v s' hw hc ⟨hs, hv⟩
      obtain ⟨v', hv', hkey⟩ := h.expression.copies hw hc hv
      exact ⟨v', ⟨noNamedField_put hc (hw.leaves _ _) (fun _ m _ => hw.leaves _ m) hs, hv'⟩, hkey⟩
    · rintro s v s' - ⟨hs, hv⟩ ⟨hin, -⟩
      refine (h.expression.finds trivial hv hin).lift .refl .refl ?_
      rintro x - hc hapart hl - - ⟨v', hv', hkey⟩
      refine ⟨hl, v', ⟨noNamedField_put hc (hl.mono Room.within_token) (fun _ m hk => ?_) hs, hv'⟩, hkey⟩
      obtain ⟨text, -, span, htakes, -⟩ := hk
      have hlength := htakes.length
      have hlt : x.front.after < s.lexemes.length := hl
      exact ⟨by omega, fun _ => hapart⟩

theorem swaps_field : Swaps key n same (.apart ["="]) key n.Inside (Field (phrases levels))
    (Field (phrases (levels + 1))) := by
  have hinner : Swaps key n same .token key (fun v => n.Inside v ∧ ¬ (v = n ∧ n.tag = .pair)) (Field (phrases levels))
      (Field (phrases (levels + 1))) := swaps_innerField h
  refine ⟨hinner.leads, hinner.copies, fun s v s' hsame hv hin => ?_⟩
  by_cases heq : v = n ∧ n.tag = .pair
  · obtain ⟨rfl, htag⟩ := heq
    have hreads : Slot.field.Reads (phrases levels) v s s' := ⟨hv, htag⟩
    exact .slot hreads
  · exact (hinner.finds hsame hv ⟨hin, heq⟩).behind .refl (fun _ hl => hl.mono Room.within_token) fun _ _ _ _ he => he

omit h in
theorem stays_field : Stays .token (Field (phrases levels)) (Field (phrases (levels + 1))) :=
  stays_node fun _ => carries_field (phrases_carries levels 1)

omit h in
theorem fields_leads {fields : List Node} (hf : Fields (phrases levels) s fields s') : s.Reaches s' :=
  (carries_fields (x := default) (phrases_carries levels 1)).leads hf

omit h in
theorem separator_put {x : Excerpt} {m m' : Stream} {span : Span} (hs : m.Takes "," span m' ∨ m.Takes ";" span m')
    (hc : x.Covers m) (hle : x.after ≤ m'.lexemes.length) :
    (x.stream m).Takes "," (x.span span) (x.stream m') ∨ (x.stream m).Takes ";" (x.span span) (x.stream m') :=
  hs.imp (fun hs => Excerpt.takes hs hc hle) fun hs => Excerpt.takes hs hc hle

theorem copies_fields : Copies (List.map key) (Fields (phrases levels)) (Fields (phrases (levels + 1))) := by
  have hcarries (x : Excerpt) : (phrases levels).Carries x (phrases (levels + 1)) := phrases_carries levels 1
  have hfield : Swaps key n True (.apart ["="]) key n.Inside (Field (phrases levels)) (Field (phrases (levels + 1))) :=
    swaps_field h
  intro x s fields s' hw hc hf
  induction hf with
  | @none s hno =>
    obtain ⟨hbracket, hname, hexpression⟩ := hno
    refine ⟨[], .none ⟨?_, ?_, ?_⟩, rfl⟩
    · exact Excerpt.keeps_not_next (Room.within_self _) s (hw.leaves _ _) hbracket
    · exact noNamedField_put hc (hw.leaves _ _) (fun _ m _ => hw.leaves _ m) hname
    · exact (hcarries x).noExpression s (hw.leaves _ _) hexpression
  | @last s s' v hv hs =>
    obtain ⟨v', hv', hkey⟩ := hfield.copies hw hc hv
    refine ⟨[v'], .last hv' ?_, congrArg (fun k => [k]) hkey⟩
    exact Excerpt.keeps_not_next (Room.within_self _) s' (hw.leaves _ _) hs
  | @more s m m' s' v span others hv hs _ ih =>
    obtain ⟨v', hv', hkey⟩ := hfield.copies hw hc hv
    have hm := hc.reaches (hfield.leads hv)
    have hm' : x.Covers m' := hs.elim (fun hs => hm.takes hs) fun hs => hm.takes hs
    obtain ⟨others', hothers', hkeys⟩ := ih hm'
    have hs' := separator_put hs hm (hw.after ▸ Nat.zero_le _)
    exact ⟨v' :: others', .more hv' hs' hothers', by simp only [List.map_cons, hkey, hkeys]⟩

theorem swaps_fields : Swaps key n same (.apart ["="]) (List.map key) (fun fields => ∃ v ∈ fields, n.Inside v)
    (Fields (phrases levels)) (Fields (phrases (levels + 1))) := by
  have hfield : Swaps key n True (.apart ["="]) key n.Inside (Field (phrases levels)) (Field (phrases (levels + 1))) :=
    swaps_field h
  have hcopies := copies_fields h
  refine ⟨fun _ _ _ => fields_leads, hcopies, fun s fields s' _ hf hhas => ?_⟩
  induction hf with
  | none =>
    obtain ⟨v, hm, -⟩ := hhas
    cases hm
  | @last s s' v hv hs =>
    obtain ⟨w, hm, hin⟩ := hhas
    obtain rfl := List.mem_singleton.mp hm
    refine (hfield.finds trivial hv hin).before .refl ?_
    rintro x hw - ⟨v', hv', hkey⟩
    refine ⟨[v'], .last hv' ?_, congrArg (fun k => [k]) hkey⟩
    exact Excerpt.keeps_not_next (Room.within_self _) s' (hw.leaves _ _) hs
  | @more s m m' s' v span others hv hs hothers ih =>
    have hseparator := reaches_separator hs
    by_cases hin : n.Inside v
    · refine (hfield.finds trivial hv hin).before (hseparator.1.trans (fields_leads hothers)) ?_
      rintro x hw hc ⟨v', hv', hkey⟩
      obtain ⟨others', hothers', hkeys⟩ := hcopies hw (hc.reaches hseparator.1) hothers
      have hs' := separator_put hs hc (hw.after ▸ Nat.zero_le _)
      exact ⟨v' :: others', .more hv' hs' hothers', by simp only [List.map_cons, hkey, hkeys]⟩
    · have hbehind : ∃ v ∈ others, n.Inside v := by
        obtain ⟨w, hm, hw⟩ := hhas
        rcases List.mem_cons.mp hm with rfl | hm
        · exact (hin hw).elim
        · exact ⟨w, hm, hw⟩
      refine (ih hbehind).behind ((hfield.leads hv).trans hseparator.1) ?_ ?_
      · exact fun x hl => hl.before ((hfield.leads hv).trans hseparator.1).length_le
      · rintro x hi hc hl ⟨others', hothers', hkeys⟩
        have hlt : x.front.Leaves .token m := Nat.lt_of_le_of_lt hl.le hseparator.2
        have hs' := separator_put hs (hc.reaches (hfield.leads hv)) hl.le
        exact ⟨v :: others', .more (stays_field hi hc hlt hv) hs' hothers', by simp only [List.map_cons, hkeys]⟩

theorem swaps_table : Swaps key n same .token key n.Inside (Table (phrases levels)) (Table (phrases (levels + 1))) := by
  have hstays : Stays .token (Fields (phrases levels)) (Fields (phrases (levels + 1))) :=
    stays_list fun _ => carries_fields (phrases_carries levels 1)
  refine .takes fun _ _ => (swaps_fields h).bind hstays fun fields fields' hf => (swaps_token "\x7d").return ?_ ?_
  · exact fun _ _ _ _ _ => h.outlines.congr (by simp [Form.map, hf])
  · rintro _ _ _ _ ⟨hin, hfields⟩
    obtain ⟨child, hm, hc⟩ := (Node.inside_mk h.sought rfl).mp hin
    exact hfields ⟨child, hm, hc⟩

theorem swaps_arguments : Swaps key n same .token (List.map key) (fun values => ∃ v ∈ values, n.Inside v)
    (Arguments (phrases levels)) (Arguments (phrases (levels + 1))) := by
  have hcarries (x : Excerpt) : (phrases levels).Carries x (phrases (levels + 1)) := phrases_carries levels 1
  have hsingle {P P' : Phrase Node} (hp : Swaps key n True .token key n.Inside P P') :
      Swaps key n same .token (List.map key) (fun values => ∃ v ∈ values, n.Inside v)
        (fun s values s' => ∃ v, P s v s' ∧ values = [v]) (fun s values s' => ∃ v, P' s v s' ∧ values = [v]) := by
    refine hp.any.return (fun _ _ _ _ hv => congrArg (fun k => [k]) hv) fun _ v _ _ ⟨w, hm, hw⟩ => ?_
    exact List.mem_singleton.mp hm ▸ hw
  have hstays : Stays .token (Optional (Expressions (phrases levels)) (phrases levels).noExpression)
      (Optional (Expressions (phrases (levels + 1))) (phrases (levels + 1)).noExpression) := by
    refine Carries.stays fun x hi => ?_
    have hmap : Option.map (List.map x.node) = id := by
      funext found
      have hlist : List.map x.node = id := funext (Excerpt.map_node_eq hi)
      rw [hlist, Option.map_id]
    exact hmap ▸ ((carries_expressions (hcarries x)).mono Room.within_token).optional
      ((hcarries x).noExpression.mono Room.within_token)
  refine .or ?_ (.or (hsingle (swaps_table h)) (hsingle (swaps_string h)))
  refine .takes fun _ _ => ((swaps_expressions h).optional (copied_of_keeps fun x => (hcarries x).noExpression)).bind hstays
    fun listed listed' hl => (swaps_token ")").return ?_ ?_
  · intro _ _ _ _ _
    cases listed <;> cases listed' <;> simp at hl ⊢
    exact hl
  · rintro _ _ _ _ ⟨⟨v, hm, hv⟩, hlisted⟩
    cases listed with
    | none => cases hm
    | some values => exact hlisted ⟨values, rfl, v, hm, hv⟩

end Fields

section Suffixes
variable {s s' : Stream}

theorem key_indexed {object object' k k' : Node} (ho : key object' = key object) (hk : key k' = key k) :
    key (indexed object' k') = key (indexed object k) :=
  h.outlines.congr (by simp [Form.map, ho, hk])

/-- The arguments of a suffix, and the key in its brackets. -/
theorem swaps_innerSuffix (v v' : Node) (hv : key v' = key v) :
    Swaps key n same .token key (fun w => (n.Inside w ∧ ¬ n.Inside v) ∧ w ≠ n) (Suffix (phrases levels) v)
      (Suffix (phrases (levels + 1)) v') := by
  have hbelow {w : Node} (hw : (n.Inside w ∧ ¬ n.Inside v) ∧ w ≠ n) : ∃ child ∈ w.branches, child ≠ v ∧ n.Inside child := by
    obtain ⟨child, hm, hc⟩ := (Node.inside_iff.mp hw.1.1).resolve_left hw.2
    exact ⟨child, hm, fun heq => hw.1.2 (heq ▸ hc), hc⟩
  refine .or ?_ (.or ?_ (.or ?_ ?_))
  · refine .takes fun _ _ => (swaps_key h).return (fun _ _ _ _ hk => key_indexed h hv hk) fun _ k _ _ hw => ?_
    obtain ⟨child, hm, hne, hc⟩ := hbelow hw
    obtain rfl : child = k := by simpa [Node.branches, Node.children, Form.children, indexed, hne] using hm
    exact hc
  · refine .takes fun _ _ => h.expression.any.bind stays_expression fun k k' hk => (swaps_token "]").return ?_ ?_
    · exact fun _ _ _ _ _ => h.outlines.congr (by simp [Form.map, hv, hk])
    · rintro _ _ _ _ ⟨hw, hk⟩
      obtain ⟨child, hm, hne, hc⟩ := hbelow hw
      obtain rfl : child = k := by simpa [Node.branches, Node.children, Form.children, hne] using hm
      exact hk hc
  · refine .takes fun _ _ => (swaps_key h).bind stays_key fun k k' hk => (swaps_arguments h).return ?_ ?_
    · exact fun _ _ _ _ ha => h.outlines.congr (by simp [Form.map, hv, hk, ha])
    · rintro _ values _ _ ⟨hw, hk⟩
      obtain ⟨child, hm, hne, hc⟩ := hbelow hw
      have hmem : child = k ∨ child ∈ values := by
        simpa [Node.branches, Node.children, Form.children, hne] using hm
      rcases hmem with rfl | hmem
      · exact (hk hc).elim
      · exact ⟨child, hmem, hc⟩
  · refine (swaps_arguments h).return ?_ ?_
    · exact fun _ _ _ _ ha => h.outlines.congr (by simp [Form.map, hv, ha])
    · intro _ values _ _ hw
      obtain ⟨child, hm, hne, hc⟩ := hbelow hw
      have hmem : child ∈ values := by simpa [Node.branches, Node.children, Form.children, hne] using hm
      exact ⟨child, hmem, hc⟩

/-- A suffix of an expression that ends where the suffix begins. -/
def SuffixOf (nested : Phrases) (object : Node) : Phrase Node := fun s v s' =>
  Suffix nested object s v s' ∧ object.span.endPos = s.lastEnd

omit h in
theorem endPos_of_suffix {nested : Phrases} {object v : Node} (hv : Suffix nested object s v s') :
    v.span.endPos = s'.lastEnd := by
  rcases hv with ⟨dot, m, -, key, ⟨text, -, span, ht, rfl⟩, rfl⟩ | ⟨first, m, -, key, m', -, close, -, rfl⟩ |
    ⟨colon, m, -, method, m', -, values, -, rfl⟩ | ⟨values, -, rfl⟩
  case inl =>
    obtain ⟨lexeme, -, -, rfl, hlast, -⟩ := ht
    exact hlast.symm
  all_goals rfl

omit h in
theorem endPos_of_primary {nested : Phrases} {v : Node} (hv : Name s v s' ∨ Parenthesized nested s v s') :
    v.span.endPos = s'.lastEnd := by
  rcases hv with ⟨text, -, span, ht, rfl⟩ | ⟨first, m, -, inner, m', -, close, -, rfl⟩
  · obtain ⟨lexeme, -, -, rfl, hlast, -⟩ := ht
    exact hlast.symm
  · rfl

omit h in
/-- Every suffix of an expression begins where what comes before it ends. -/
theorem suffixesOf {nested : Phrases} {object v : Node}
    (hv : Steps (fun v s w s' => Suffix nested v s w s') object s v s') (ho : object.span.endPos = s.lastEnd) :
    Steps (fun v s w s' => SuffixOf nested v s w s') object s v s' := by
  induction hv with
  | refl => exact .refl
  | cons hstep _ ih => exact .cons ⟨hstep, ho⟩ (ih (endPos_of_suffix hstep))

theorem swaps_suffix (v v' : Node) (hv : key v' = key v) :
    Swaps key n (v' = v) (.apart ["="]) key (fun w => n.Inside w ∧ ¬ n.Inside v) (SuffixOf (phrases levels) v)
      (Suffix (phrases (levels + 1)) v') := by
  have hinner : Swaps key n (v' = v) .token key (fun w => (n.Inside w ∧ ¬ n.Inside v) ∧ w ≠ n)
      (SuffixOf (phrases levels) v) (Suffix (phrases (levels + 1)) v') :=
    (swaps_innerSuffix h v v' hv).strengthen fun _ _ _ hw => hw.1
  refine ⟨hinner.leads, hinner.copies, ?_⟩
  rintro s w s' rfl hw hin
  by_cases heq : w = n
  · subst heq
    have hreads : (Slot.suffix v').Reads (phrases levels) w s s' := hw
    exact (Found.slot hreads).before .refl fun _ _ _ hfills => hfills v' rfl
  · exact (hinner.finds rfl hw ⟨hin, heq⟩).behind .refl (fun _ hl => hl.mono Room.within_token) fun _ _ _ _ he => he

theorem swaps_suffixes (first first' : Node) (hf : key first' = key first) :
    Swaps key n (first' = first) (.apart ["="]) key (fun w => n.Inside w ∧ ¬ n.Inside first)
      (fun s w s' => Steps (fun v s w s' => SuffixOf (phrases levels) v s w s') first s w s' ∧ NoSuffix s')
      (fun s w s' => Steps (fun v s w s' => Suffix (phrases (levels + 1)) v s w s') first' s w s' ∧ NoSuffix s') := by
  have hstep (v : Node) : Stays (.apart ["="]) (SuffixOf (phrases levels) v) (Suffix (phrases (levels + 1)) v) := by
    have hstays : Stays (.apart ["="]) (Suffix (phrases levels) v) (Suffix (phrases (levels + 1)) v) := by
      refine Carries.stays fun x hi => ?_
      have hcarried : Carries x (.apart ["="]) (Suffix (phrases levels) v) (Suffix (phrases (levels + 1)) (x.node v)) x.node :=
        (closes_suffix (phrases_carries levels 1) v).carries
      rwa [Excerpt.node_eq hi] at hcarried
    exact fun x s w s' hi hc hl hw => hstays hi hc hl hw.1
  exact (Swaps.steps first first' hf (fun v v' hv => swaps_suffix h v v' hv) hstep).until (copied_of_keeps fun _ => keeps_noSuffix)

theorem swaps_suffixed : Swaps key n same .token key n.Inside (Suffixed (phrases levels))
    (Suffixed (phrases (levels + 1))) := by
  have hcarries (x : Excerpt) : (phrases levels).Carries x (phrases (levels + 1)) := phrases_carries levels 1
  have hstays : Stays (.apart []) (fun s v s' => Name s v s' ∨ Parenthesized (phrases levels) s v s')
      (fun s v s' => Name s v s' ∨ Parenthesized (phrases (levels + 1)) s v s') :=
    stays_node fun x => (closes_primary (hcarries x)).carries
  have hprimary : Swaps key n True .token key n.Inside (fun s v s' => Name s v s' ∨ Parenthesized (phrases levels) s v s')
      (fun s v s' => Name s v s' ∨ Parenthesized (phrases (levels + 1)) s v s') :=
    (swaps_name h).or (swaps_parenthesized h)
  refine (hprimary.close hstays (closes_primary (hcarries default)).consumes fun first first' hf =>
    (swaps_suffixes h first first' hf).mono (Room.within_self _) And.right fun _ => id).strengthen ?_
  rintro s v s' ⟨first, m, hfirst, hsteps, hend⟩
  exact ⟨first, m, hfirst, suffixesOf hsteps (endPos_of_primary hfirst), hend⟩

end Suffixes

section Expressions

theorem swaps_simple : Swaps key n same .token key n.Inside (Simple (phrases levels)) (Simple (phrases (levels + 1))) :=
  (swaps_number h).or <| (swaps_string h).or <| (swaps_atom h _ rfl rfl).or <| (swaps_atom h _ rfl rfl).or <|
    (swaps_atom h _ rfl rfl).or <| (swaps_varargs h).or <| (swaps_functionLiteral h).or <| (swaps_table h).or
      (swaps_suffixed h)

theorem swaps_unary : Swaps key n True .token key n.Inside (Unary (phrases levels)) (Unary (phrases (levels + 1))) := by
  have hpower : Swaps key n True .token key n.Inside (Power (phrases levels)) (Power (phrases (levels + 1))) :=
    swaps_withRight h .pow (swaps_simple h) (fun x => carries_simple (phrases_carries levels 1)) h.unary
  refine .or (.exists fun op => .takes fun _ _ => h.unary.any.return ?_ ?_) hpower
  · exact fun _ _ _ _ hv => h.outlines.congr (by simp [Form.map, hv])
  · intro _ operand _ _ hin
    obtain ⟨child, hm, hc⟩ := (Node.inside_mk h.sought rfl).mp hin
    obtain rfl := List.mem_singleton.mp hm
    exact hc

theorem swaps_concatenation : Swaps key n True .token key n.Inside (Concatenation (phrases levels))
    (Concatenation (phrases (levels + 1))) := by
  have hcarries (x : Excerpt) : (phrases levels).Carries x (phrases (levels + 1)) := phrases_carries levels 1
  exact swaps_withRight h .concat (swaps_chains h (swaps_unary h) (fun x => carries_unary (hcarries x)) (by decide))
    (fun x => carries_additive (hcarries x)) h.concatenation

theorem swaps_expression : Swaps key n True .token key n.Inside (Expression (phrases levels))
    (Expression (phrases (levels + 1))) :=
  swaps_chains h (swaps_concatenation h) (fun _ => carries_concatenation (phrases_carries levels 1)) (by decide)

end Expressions

end Phrase

end LuaSyntax
