import LuaSyntax.Proofs.Excerpt.Combinators
import LuaSyntax.Proofs.Print.Expression

/-! # Excerpts of expressions

The phrases of functions and expressions may be taken out of their stream if the nested ones
may, and have as many or more nesting levels where they are put. What ends with a token of its own
leaves any room, and an expression that of the tokens with which it would go on.
-/
namespace LuaSyntax

/-- The kinds of tokens with which an expression goes on. -/
def continuing : List Kind := [
  ".", .number, "[", ":", "(", "\x7b", .string, "or", "and", "==", "~=", "<", "<=", "<<", ">", ">=", ">>", "|", "~",
  "&", "..", "+", "-", "*", "/", "//", "%", "^"]

namespace Room

/-- What is left after an expression. -/
abbrev expression : Room := .apart continuing

/-- What is left after expressions with commas between them. -/
abbrev expressions : Room := .apart ("," :: continuing)

end Room

variable {x : Excerpt} {room : Room} {nested nested' : Phrases}

/-- The nested phrases may be taken out of their stream, blocks together with the token after
them, and become those of other nesting levels. -/
structure Phrases.Carries (x : Excerpt) (nested nested' : Phrases) : Prop where
  expression : Phrase.Carries x .expression nested.expression nested'.expression x.node
  concatenation : Phrase.Carries x .expression nested.concatenation nested'.concatenation x.node
  unary : Phrase.Carries x .expression nested.unary nested'.unary x.node
  block : Phrase.Carries x .token nested.block nested'.block x.node
  noExpression : x.Keeps (.apart Phrase.expressionKinds) nested.noExpression nested'.noExpression
  consumes : Phrase.Consumes nested.expression
  noName : ∀ s, nested.noExpression s → ¬ s.Next [.name]

namespace Phrase

open Grammar (Tier indexed selfParameter valueList looseTiers tightTiers)

section Terminals

theorem closes_atom {token : Token} {form : Form Node}
    (hform : ∀ span, x.node ⟨form, span⟩ = ⟨form, x.span span⟩) :
    Closes x (Atom token form) (Atom token form) x.node :=
  (closes_takes token).return fun span _ => hform span

theorem closes_name : Closes x Name Name x.node := .exists fun _ => (closes_atom fun _ => rfl).and

theorem closes_key : Closes x Key Key x.node := .exists fun _ => (closes_atom fun _ => rfl).and

theorem closes_number : Closes x Number Number x.node := .exists fun _ => closes_atom fun _ => rfl

theorem closes_string : Closes x String String x.node := .exists fun _ => closes_atom fun _ => rfl

theorem closes_varargs : Closes x Varargs Varargs x.node := closes_atom fun _ => rfl

end Terminals

section Functions

theorem carries_parameters : Carries x (.apart [","]) Parameters Parameters (List.map x.node) := by
  have hname : Carries x .token Name Name x.node := closes_name.carries
  intro s listed s' h
  induction h with
  | last h hs =>
    obtain ⟨hr, ht⟩ := closes_name.carries h
    exact ⟨hr, fun hc hl => .last (ht hc hl) (Excerpt.keeps_not_next (by decide) _ hl hs)⟩
  | varargs h =>
    obtain ⟨hr, ht⟩ := closes_varargs.carries h
    exact ⟨hr, fun hc hl => .varargs (ht hc hl)⟩
  | @more s m m' s' v span others h hcomma _ ih =>
    obtain ⟨hr, ht⟩ := hname h
    obtain ⟨hr', ht'⟩ := ih
    refine ⟨(hr.trans hcomma.reaches).trans hr', fun hc hl => ?_⟩
    have hle : x.after ≤ m'.lexemes.length := Nat.le_trans hl.le hr'.length_le
    have hlt : x.Leaves .token m := Nat.lt_of_le_of_lt hle (consumes_takes _ hcomma)
    have hm := hc.reaches hr
    exact .more (ht hc hlt) (Excerpt.takes hcomma hm hle) (ht' (hm.takes hcomma) hl)

theorem closes_functionBody (h : nested.Carries x nested') (first : Span) (isMethod : Bool) :
    Closes x (FunctionBody nested first isMethod) (FunctionBody nested' (x.span first) isMethod) x.node := by
  refine (carries_takes "(").close fun opening => ?_
  refine ((carries_parameters.mono Room.within_token).or
    (carries_none rfl (Excerpt.keeps_not_next Room.within_token))).close fun listed => ?_
  refine (carries_takes ")").close fun _ => h.block.close fun body => (closes_takes "end").return fun _ s' => ?_
  cases isMethod
  · simp [Excerpt.node, Node.respan]
    rfl
  · simp [Excerpt.node, Node.respan, selfParameter]
    exact ⟨rfl, rfl⟩

theorem closes_functionLiteral (h : nested.Carries x nested') :
    Closes x (FunctionLiteral nested) (FunctionLiteral nested') x.node :=
  (carries_takes "function").close fun first => closes_functionBody h first false

theorem closes_pathStep (object : Node) : Closes x (PathStep object) (PathStep (x.node object)) x.node :=
  (carries_takes ".").close fun _ => closes_key.return fun key _ => Excerpt.node_indexed object key

theorem carries_functionName :
    Carries x (.apart [".", .number, ":"]) FunctionName FunctionName (Prod.map x.node id) := by
  refine closes_name.carries.bind fun base => ?_
  refine ((Carries.steps (fun v => (closes_pathStep v).carries) base).until
    (Excerpt.keeps_noDot (by decide))).bind fun path => ?_
  refine Carries.or ?_ (carries_none rfl (Excerpt.keeps_not_next (by decide)))
  refine (carries_takes ":").bind fun _ => closes_key.carries.return fun method _ => ?_
  simp only [Prod.map, Excerpt.node_indexed, id]

theorem closes_functionStatement (h : nested.Carries x nested') :
    Closes x (FunctionStatement nested) (FunctionStatement nested') x.node := by
  refine (carries_takes "function").close fun first => (carries_functionName.mono Room.within_token).close fun target => ?_
  refine (closes_functionBody h first target.2).return fun function s' => ?_
  simp [Excerpt.node, Node.respan]
  rfl

theorem closes_localFunction (h : nested.Carries x nested') (first second : Span) :
    Closes x (LocalFunction nested first second) (LocalFunction nested' (x.span first) (x.span second)) x.node := by
  refine closes_name.carries.close fun declared => (closes_functionBody h second false).return fun function s' => ?_
  simp [Excerpt.node, Node.respan]
  rfl

end Functions

section Operators
variable {operand operand' left left' right right' : Phrase Node}

theorem carries_chainStep (h : Carries x room operand operand' x.node) (tier : Tier) (v : Node) :
    Carries x room (ChainStep operand tier v) (ChainStep operand' tier (x.node v)) x.node :=
  .exists fun op => Carries.and <| (carries_takes op.text).bind fun _ =>
    h.return fun right _ => Excerpt.node_binary op v right

theorem carries_chain {tier : Tier} (h : Carries x room operand operand' x.node)
    (hw : (Room.apart (tier.operators.flatMap operatorKinds)).Within room) :
    Carries x room (Chain operand tier) (Chain operand' tier) x.node :=
  h.bind fun first => (Carries.steps (carries_chainStep h tier) first).until (Excerpt.keeps_not_next hw)

theorem carries_chains {tiers : List Tier} (h : Carries x room operand operand' x.node)
    (hw : ∀ tier ∈ tiers, (Room.apart (tier.operators.flatMap operatorKinds)).Within room) :
    Carries x room (Chains operand tiers) (Chains operand' tiers) x.node := by
  induction tiers with
  | nil => exact h
  | cons tier tighter ih =>
    rw [List.forall_mem_cons] at hw
    exact carries_chain (ih hw.2) hw.1

theorem consumes_chains (h : Carries x room operand operand' x.node) (hc : Consumes operand) (tiers : List Tier)
    (hw : ∀ tier ∈ tiers, (Room.apart (tier.operators.flatMap operatorKinds)).Within room) :
    Consumes (Chains operand tiers) := by
  induction tiers with
  | nil => exact hc
  | cons tier tighter ih =>
    rw [List.forall_mem_cons] at hw
    have hstep := carries_chainStep (carries_chains h hw.2) tier
    refine (ih hw.2).bind fun first m v s' hv => ?_
    exact (Carries.steps hstep first).leads hv.1

theorem carries_rest (op : BinaryOp) (hr : Carries x room right right' x.node)
    (hw : (Room.apart [.fixed op.text]).Within room) (first : Node) :
    Carries x room
      (fun s v s' => (∃ span m, s.Takes op.text span m ∧ ∃ operand, right m operand s' ∧
        v = .binary op first operand) ∨ ¬ s.Next [op.text] ∧ v = first ∧ s' = s)
      (fun s v s' => (∃ span m, s.Takes op.text span m ∧ ∃ operand, right' m operand s' ∧
        v = .binary op (x.node first) operand) ∨ ¬ s.Next [op.text] ∧ v = x.node first ∧ s' = s) x.node := by
  refine Carries.or ?_ (carries_none rfl (Excerpt.keeps_not_next hw))
  exact (carries_takes op.text).bind fun _ => hr.return fun operand _ => Excerpt.node_binary op first operand

theorem carries_withRight (op : BinaryOp) (hl : Carries x room left left' x.node)
    (hr : Carries x room right right' x.node) (hw : (Room.apart [.fixed op.text]).Within room) :
    Carries x room (WithRight left op right) (WithRight left' op right') x.node :=
  hl.bind (carries_rest op hr hw)

theorem consumes_withRight (op : BinaryOp) (hl : Consumes left) (hr : Carries x room right right' x.node)
    (hw : (Room.apart [.fixed op.text]).Within room) : Consumes (WithRight left op right) :=
  hl.bind fun first _ _ _ hv => (carries_rest op hr hw first).leads hv

end Operators

section Expressions
variable (h : nested.Carries x nested')
include h

theorem carries_expressions : Carries x .expressions (Expressions nested) (Expressions nested') (List.map x.node) := by
  have hexpression : Carries x .expressions nested.expression nested'.expression x.node :=
    h.expression.mono (by decide)
  exact hexpression.bind fun _ =>
    ((hexpression.after ",").sequence.until (Excerpt.keeps_not_next (by decide))).return fun _ _ => rfl

theorem closes_parenthesized : Closes x (Parenthesized nested) (Parenthesized nested') x.node :=
  (carries_takes "(").close fun _ => (h.expression.mono Room.within_token).close fun _ =>
    (closes_takes ")").return fun _ _ => rfl

omit h in
/-- The token after a name is still there if the name is. -/
theorem noNamedField_stream {s : Stream} (hc : x.Covers s) (hl : x.Leaves .token s)
    (hkey : ∀ key m, Key s key m → x.Leaves .token m) (hs : NoNamedField s) : NoNamedField (x.stream s) := by
  rcases hs with hs | ⟨key, m, hk, hm⟩
  · exact .inl (Excerpt.keeps_not_next Room.within_token s hl hs)
  · have hl' := hkey key m hk
    exact .inr ⟨x.node key, x.stream m, (closes_key.carries hk).2 hc hl', Excerpt.keeps_not_next Room.within_token m hl' hm⟩

theorem carries_field : Carries x .token (Field nested) (Field nested') x.node := by
  have hexpression : Carries x .token nested.expression nested'.expression x.node := h.expression.mono Room.within_token
  refine Carries.or ?_ (Carries.or ?_ ?_)
  · exact (carries_takes "[").bind fun _ => hexpression.bind fun _ => (carries_takes "]").bind fun _ =>
      (carries_takes "=").bind fun _ => hexpression.return fun _ _ => rfl
  · refine closes_key.carries.bind fun key => (carries_takes "=").bind fun _ => hexpression.return fun value s' => ?_
    simp [Excerpt.node, Node.respan]
    rfl
  · rintro s v s' ⟨hs, hv⟩
    obtain ⟨hr, ht⟩ := hexpression hv
    refine ⟨hr, fun hc hl => ⟨noNamedField_stream hc (hl.before hr.length_le) ?_ hs, ht hc hl⟩⟩
    intro key m hk
    obtain ⟨text, -, span, htakes, -⟩ := hk
    have hlt : x.after < s'.lexemes.length := hl
    have hcons := h.consumes hv
    have hlength := htakes.length
    exact show x.after < m.lexemes.length by omega

omit h in
/-- A separator of fields is a token. -/
theorem reaches_separator {m m' : Stream} {span : Span} (h : m.Takes "," span m' ∨ m.Takes ";" span m') :
    m.Reaches m' ∧ m'.lexemes.length < m.lexemes.length := by
  rcases h with h | h
  · exact ⟨h.reaches, consumes_takes _ h⟩
  · exact ⟨h.reaches, consumes_takes _ h⟩

theorem carries_fields : Carries x .token (Fields nested) (Fields nested') (List.map x.node) := by
  intro s fields s' hf
  induction hf with
  | none hno =>
    obtain ⟨hbracket, hname, hexpression⟩ := hno
    refine ⟨.refl, fun hc hl => .none ⟨Excerpt.keeps_not_next Room.within_token _ hl hbracket, .inl ?_, ?_⟩⟩
    · exact Excerpt.keeps_not_next Room.within_token _ hl (h.noName _ hexpression)
    · exact h.noExpression _ (hl.mono Room.within_token) hexpression
  | last hv hs =>
    obtain ⟨hr, ht⟩ := carries_field h hv
    exact ⟨hr, fun hc hl => .last (ht hc hl) (Excerpt.keeps_not_next Room.within_token _ hl hs)⟩
  | @more s m m' s' v span others hv hs _ ih =>
    obtain ⟨hr, ht⟩ := carries_field h hv
    obtain ⟨hr', ht'⟩ := ih
    have hseparator := reaches_separator hs
    refine ⟨(hr.trans hseparator.1).trans hr', fun hc hl => ?_⟩
    have hle : x.after ≤ m'.lexemes.length := Nat.le_trans hl.le hr'.length_le
    have hlt : x.Leaves .token m := Nat.lt_of_le_of_lt hle hseparator.2
    have hm := hc.reaches hr
    have hs' := hs.imp (fun hs => Excerpt.takes hs hm hle) fun hs => Excerpt.takes hs hm hle
    exact .more (ht hc hlt) hs' (ht' (hm.reaches hseparator.1) hl)

theorem closes_table : Closes x (Table nested) (Table nested') x.node := by
  refine (carries_takes "\x7b").close fun _ => (carries_fields h).close fun fields =>
    (closes_takes "\x7d").return fun _ s' => ?_
  simp [Excerpt.node, Node.respan]
  rfl

theorem closes_arguments : Closes x (Arguments nested) (Arguments nested') (List.map x.node) := by
  refine Closes.or ?_ (Closes.or ?_ ?_)
  · refine (carries_takes "(").close fun _ => ?_
    refine (((carries_expressions h).mono Room.within_token).optional (h.noExpression.mono Room.within_token)).close fun listed =>
      (closes_takes ")").return fun _ _ => ?_
    cases listed <;> rfl
  · exact (closes_table h).return fun _ _ => rfl
  · exact closes_string.return fun _ _ => rfl

theorem closes_suffix (object : Node) :
    Closes x (Suffix nested object) (Suffix nested' (x.node object)) x.node := by
  refine Closes.or ?_ (Closes.or ?_ (Closes.or ?_ ?_))
  · exact (carries_takes ".").close fun _ => closes_key.return fun key _ => Excerpt.node_indexed object key
  · refine (carries_takes "[").close fun _ => (h.expression.mono Room.within_token).close fun key =>
      (closes_takes "]").return fun _ s' => ?_
    simp [Excerpt.node, Node.respan]
    rfl
  · refine (carries_takes ":").close fun _ => closes_key.carries.close fun method =>
      (closes_arguments h).return fun values s' => ?_
    simp [Excerpt.node, Node.respan]
    rfl
  · refine (closes_arguments h).return fun values s' => ?_
    simp [Excerpt.node, Node.respan]
    rfl

theorem closes_primary :
    Closes x (fun s v s' => Name s v s' ∨ Parenthesized nested s v s')
      (fun s v s' => Name s v s' ∨ Parenthesized nested' s v s') x.node :=
  closes_name.or (closes_parenthesized h)

theorem carries_suffixes (first : Node) :
    Carries x room (fun s v s' => Steps (fun x s y s' => Suffix nested x s y s') first s v s')
      (fun s v s' => Steps (fun x s y s' => Suffix nested' x s y s') (x.node first) s v s') x.node :=
  Carries.steps (fun v => (closes_suffix h v).carries) first

/-- An expression with suffixes that may go on. -/
theorem closes_openSuffixed : Closes x (OpenSuffixed nested) (OpenSuffixed nested') x.node := by
  have hsuffixes (first : Node) :
      Carries x (.apart []) (fun s v s' => Steps (fun x s y s' => Suffix nested x s y s') first s v s')
        (fun s v s' => Steps (fun x s y s' => Suffix nested' x s y s') (x.node first) s v s') x.node :=
    carries_suffixes h first
  refine ⟨(closes_primary h).carries.bind hsuffixes, (closes_primary h).consumes.bind ?_⟩
  exact fun first _ _ _ hv => (hsuffixes first).leads hv

omit h in
theorem keeps_noSuffix : x.Keeps .expression NoSuffix NoSuffix := by
  rintro s hl ⟨hdot, hnext⟩
  exact ⟨Excerpt.keeps_noDot (by decide) s hl hdot, Excerpt.keeps_not_next (by decide) s hl hnext⟩

theorem carries_suffixed : Carries x .expression (Suffixed nested) (Suffixed nested') x.node :=
  (closes_primary h).carries.bind fun first => (carries_suffixes h first).until keeps_noSuffix

theorem consumes_suffixed : Consumes (Suffixed nested) := by
  rintro s v s' ⟨first, m, hfirst, hsteps, -⟩
  have hopen := closes_openSuffixed h
  exact hopen.consumes ⟨first, m, hfirst, hsteps⟩

theorem carries_simple : Carries x .expression (Simple nested) (Simple nested') x.node :=
  closes_number.carries.or <| closes_string.carries.or <| (closes_atom fun _ => rfl).carries.or <|
    (closes_atom fun _ => rfl).carries.or <| (closes_atom fun _ => rfl).carries.or <| closes_varargs.carries.or <|
      (closes_functionLiteral h).carries.or <| (closes_table h).carries.or (carries_suffixed h)

theorem consumes_simple : Consumes (Simple nested) := by
  have hatom (token : Token) (form : Form Node) : Consumes (Atom token form) := by
    rintro s v s' ⟨span, ht, -⟩
    exact consumes_takes token ht
  have hnumber : Closes x Number Number x.node := closes_number
  have hstring : Closes x String String x.node := closes_string
  exact hnumber.consumes.or <| hstring.consumes.or <| (hatom _ _).or <| (hatom _ _).or <| (hatom _ _).or <|
    (hatom _ _).or <| (closes_functionLiteral h).consumes.or <| (closes_table h).consumes.or (consumes_suffixed h)

theorem carries_power : Carries x .expression (Power nested) (Power nested') x.node :=
  carries_withRight .pow (carries_simple h) h.unary (by decide)

theorem carries_unaryOperation : Carries x .expression (UnaryOperation nested) (UnaryOperation nested') x.node := by
  refine Carries.exists fun op => (carries_takes op.text).bind fun _ => h.unary.return fun operand _ => ?_
  simp [Excerpt.node, Node.respan]
  rfl

theorem carries_unary : Carries x .expression (Unary nested) (Unary nested') x.node :=
  (carries_unaryOperation h).or (carries_power h)

theorem consumes_unary : Consumes (Unary nested) := by
  refine Consumes.or ?_ (consumes_withRight .pow (consumes_simple h) h.unary (by decide))
  rintro s v s' ⟨op, first, m, ht, operand, hv, -⟩
  exact Nat.lt_of_le_of_lt (h.unary.leads hv).length_le (consumes_takes _ ht)

theorem carries_additive : Carries x .expression (Chains (Unary nested) tightTiers) (Chains (Unary nested') tightTiers)
    x.node :=
  carries_chains (carries_unary h) (by decide)

theorem carries_concatenation : Carries x .expression (Concatenation nested) (Concatenation nested') x.node :=
  carries_withRight .concat (carries_additive h) h.concatenation (by decide)

theorem carries_expression : Carries x .expression (Expression nested) (Expression nested') x.node :=
  carries_chains (carries_concatenation h) (by decide)

theorem consumes_expression : Consumes (Expression nested) := by
  refine consumes_chains (carries_concatenation h) ?_ looseTiers (by decide)
  refine consumes_withRight .concat ?_ h.concatenation (by decide)
  exact consumes_chains (carries_unary h) (consumes_unary h) tightTiers (by decide)

/-- An expression of a rank. -/
theorem carries_tiered (rank : Nat) : Carries x .expression (Tiered nested rank) (Tiered nested' rank) x.node := by
  have hloose : ∀ tier ∈ looseTiers, (Room.apart (tier.operators.flatMap operatorKinds)).Within .expression := by decide
  have htight : ∀ tier ∈ tightTiers, (Room.apart (tier.operators.flatMap operatorKinds)).Within .expression := by decide
  unfold Tiered
  split
  · exact carries_chains (carries_concatenation h) fun tier hm => hloose tier (List.mem_of_mem_drop hm)
  · split
    · exact carries_chains (carries_unary h) fun tier hm => htight tier (List.mem_of_mem_drop hm)
    · split
      · exact carries_power h
      · exact carries_simple h

theorem carries_openChain (rank : Nat) (tier : Tier) :
    Carries x .expression (OpenChain nested rank tier) (OpenChain nested' rank tier) x.node :=
  (carries_tiered h _).bind fun first => Carries.steps (carries_chainStep (carries_tiered h _) tier) first

end Expressions

end Phrase

end LuaSyntax
