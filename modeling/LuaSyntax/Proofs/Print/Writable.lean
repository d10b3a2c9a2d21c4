import LuaSyntax.Proofs.Print.Text
import LuaSyntax.Proofs.Print.Block

/-! # Tokens of printed trees

A tree of the right shape has only tokens that can be written, if its numbers are integers.
For each form this follows from the same of its children.
-/
namespace LuaSyntax

theorem Token.written_fixed {text : String} : (Token.fixed text).Written ↔ text ∈ fixedTexts := by
  constructor
  · intro h
    cases h with
    | fixed h => exact h
  · exact .fixed

theorem Token.written_operator : (∀ op : BinaryOp, op.text ∈ fixedTexts) ∧ ∀ op : UnaryOp, op.text ∈ fixedTexts := by
  constructor <;> intro op <;> cases op <;> decide

/-- Tokens that all can be written. -/
def Writable (tokens : List Token) : Prop := ∀ token ∈ tokens, token.Written

section Writable
variable {first second : List Token} {token : Token} {text : String}

theorem writable_nil : Writable [] := List.forall_mem_nil _

theorem writable_append : Writable (first ++ second) ↔ Writable first ∧ Writable second := List.forall_mem_append

theorem writable_cons : Writable (token :: second) ↔ token.Written ∧ Writable second := List.forall_mem_cons

theorem writable_separated {items : List (List Token)} (hs : token.Written) (h : ∀ item ∈ items, Writable item) :
    Writable (separated token items) := by
  induction items with
  | nil => exact writable_nil
  | cons item items ih =>
    obtain ⟨hitem, h⟩ := List.forall_mem_cons.mp h
    cases items with
    | nil => exact hitem
    | cons next items => exact writable_append.mpr ⟨hitem, writable_cons.mpr ⟨hs, ih h⟩⟩

theorem writable_functionTokens {parameters : List (List Token)} (hp : ∀ item ∈ parameters, Writable item)
    (hb : Writable second) : Writable (functionTokens parameters second) := by
  simp only [functionTokens, writable_append, writable_cons, Token.written_fixed]
  exact ⟨⟨⟨by decide, writable_separated (.fixed (by decide)) hp⟩, by decide, hb⟩, by decide, writable_nil⟩

theorem writable_argumentTokens {arguments : List (List Token)} (h : ∀ item ∈ arguments, Writable item) :
    Writable (argumentTokens arguments) := by
  simp only [argumentTokens, writable_append, writable_cons, Token.written_fixed]
  exact ⟨⟨by decide, writable_separated (.fixed (by decide)) h⟩, by decide, writable_nil⟩

end Writable

namespace Node

/-- No number that only a numeral with a fraction or an exponent could write. -/
def Integral (v : Node) : Prop := ∀ value, v.form ≠ .number (.float value)

/-- The tokens of a tree in its role. -/
def roleTokens : Role → Node → List Token
  | .key, v => v.methodTokens
  | .path, v => v.pathTokens
  | .function, v => v.bodyTokens
  | .method, v => v.bodyTokens
  | _, v => v.tokens

/-- The tokens of a tree in its role can be written, if its numbers are integers. -/
def Prints (role : Role) (v : Node) : Prop := v.Every Integral → Writable (v.roleTokens role)

/-- A child prints as a part of a tree with no other numbers than integers. -/
theorem Prints.child {role : Role} {v : Node} {form : Form Node} {span : Span} (h : v.Prints role)
    (hi : Every Integral ⟨form, span⟩) (hm : v ∈ form.children) : Writable (v.roleTokens role) :=
  h ((every_mk.mp hi).2 v hm)

variable {span : Span} {body : Node}

theorem writable_commas {nodes : List Node} (h : ∀ v ∈ nodes, Writable v.tokens) :
    Writable (separated (.fixed ",") (tokensEach nodes)) := by
  rw [tokensEach_eq_map]
  exact writable_separated (.fixed (by decide)) (List.forall_mem_map.mpr h)

theorem prints_fixed {role : Role} {v : Node} {text : String} (h : v.roleTokens role = [.fixed text])
    (ht : text ∈ fixedTexts) : v.Prints role := by
  intro _
  rw [h]
  exact writable_cons.mpr ⟨.fixed ht, writable_nil⟩

theorem prints_name {role : Role} {v : Node} {text : Bytes} (h : v.roleTokens role = [.name text])
    (ht : Identifier text) : v.Prints role := by
  intro _
  rw [h]
  exact writable_cons.mpr ⟨.name ht, writable_nil⟩

section Expressions
variable {object key callee left right : Node} {arguments : List Node}

theorem prints_number {value : Number} : Prints .expression ⟨.number value, span⟩ := by
  intro hi
  refine writable_cons.mpr ⟨?_, writable_nil⟩
  cases value with
  | integer => exact .integer
  | float value => exact ((every_mk.mp hi).1 value rfl).elim

theorem prints_pathIndex (ho : object.Prints .path) (hk : key.Prints .key) :
    Prints .path ⟨.index object key, span⟩ := by
  intro hi
  have hobject : Writable object.pathTokens := ho.child hi (by simp [Form.children])
  have hkey : Writable key.methodTokens := hk.child hi (by simp [Form.children])
  simp only [roleTokens, pathTokens, writable_append, writable_cons, Token.written_fixed]
  exact ⟨hobject, by decide, hkey⟩

theorem prints_paren (h : body.Prints .expression) : Prints .base ⟨.paren body, span⟩ := by
  intro hi
  have hinner : Writable body.tokens := h.child hi List.mem_cons_self
  simp only [roleTokens, tokens, writable_append, writable_cons, Token.written_fixed]
  exact ⟨⟨by decide, hinner⟩, by decide, writable_nil⟩

theorem prints_index (ho : object.Prints .base) (hk : key.Prints .expression) :
    Prints .base ⟨.index object key, span⟩ := by
  intro hi
  have hobject : Writable object.tokens := ho.child hi (by simp [Form.children])
  have hkey : Writable key.tokens := hk.child hi (by simp [Form.children])
  simp only [roleTokens, tokens, writable_append, writable_cons, Token.written_fixed]
  exact ⟨⟨hobject, by decide, hkey⟩, by decide, writable_nil⟩

theorem prints_call (hc : callee.Prints .base) (ha : ∀ v ∈ arguments, v.Prints .expression) :
    Prints .base ⟨.call callee arguments, span⟩ := by
  intro hi
  have hcallee : Writable callee.tokens := hc.child hi (by simp [Form.children])
  have harguments : ∀ v ∈ arguments, Writable v.tokens := fun v hm => (ha v hm).child hi (by simp [Form.children, hm])
  simp only [roleTokens, tokens, writable_append, tokensEach_eq_map]
  exact ⟨hcallee, writable_argumentTokens (List.forall_mem_map.mpr harguments)⟩

theorem prints_invoke (ho : object.Prints .base) (hk : key.Prints .key) (ha : ∀ v ∈ arguments, v.Prints .expression) :
    Prints .base ⟨.invoke object key arguments, span⟩ := by
  intro hi
  have hobject : Writable object.tokens := ho.child hi (by simp [Form.children])
  have hkey : Writable key.methodTokens := hk.child hi (by simp [Form.children])
  have harguments : ∀ v ∈ arguments, Writable v.tokens := fun v hm => (ha v hm).child hi (by simp [Form.children, hm])
  simp only [roleTokens, tokens, writable_append, writable_cons, Token.written_fixed, tokensEach_eq_map]
  exact ⟨⟨hobject, by decide, hkey⟩, writable_argumentTokens (List.forall_mem_map.mpr harguments)⟩

theorem prints_table {fields : List Node} (h : ∀ v ∈ fields, v.Prints .field) :
    Prints .expression ⟨.table fields, span⟩ := by
  intro hi
  have hfields : ∀ v ∈ fields, Writable v.tokens := fun v hm => (h v hm).child hi hm
  simp only [roleTokens, tokens, writable_append, writable_cons, Token.written_fixed]
  exact ⟨⟨by decide, writable_commas hfields⟩, by decide, writable_nil⟩

theorem prints_binary {op : BinaryOp} (hl : left.Prints .expression) (hr : right.Prints .expression) :
    Prints .expression ⟨.binary op left right, span⟩ := by
  intro hi
  have hleft : Writable left.tokens := hl.child hi (by simp [Form.children])
  have hright : Writable right.tokens := hr.child hi (by simp [Form.children])
  simp only [roleTokens, tokens, writable_append, writable_cons, Token.written_fixed]
  exact ⟨hleft, Token.written_operator.1 op, hright⟩

theorem prints_unary {op : UnaryOp} (h : body.Prints .expression) : Prints .expression ⟨.unary op body, span⟩ := by
  intro hi
  have hoperand : Writable body.tokens := h.child hi List.mem_cons_self
  exact writable_cons.mpr ⟨.fixed (Token.written_operator.2 op), hoperand⟩

theorem prints_pair (hk : key.Prints .expression) (hv : body.Prints .expression) :
    Prints .field ⟨.pair key body, span⟩ := by
  intro hi
  have hkey : Writable key.tokens := hk.child hi (by simp [Form.children])
  have hvalue : Writable body.tokens := hv.child hi (by simp [Form.children])
  simp only [roleTokens, tokens, writable_append, writable_cons, Token.written_fixed]
  exact ⟨⟨by decide, hkey⟩, by decide, by decide, hvalue⟩

end Expressions

section Functions
variable {names : List Node} {rest : Option Node}

theorem writable_parameters {form : Form Node} (hn : ∀ v ∈ names, v.Prints .name) (hr : ∀ v ∈ rest, v.Prints .rest)
    (hi : Every Integral ⟨form, span⟩) (hm : ∀ v ∈ names ++ rest.toList, v ∈ form.children) :
    ∀ item ∈ (names ++ rest.toList).map tokens, Writable item := by
  obtain ⟨hnames, hrest⟩ := List.forall_mem_append.mp hm
  refine List.forall_mem_map.mpr (List.forall_mem_append.mpr ⟨fun v h => ?_, fun v h => ?_⟩)
  · exact (hn v h).child hi (hnames v h)
  · exact (hr v (Option.mem_toList.mp h)).child hi (hrest v h)

theorem prints_function (hn : ∀ v ∈ names, v.Prints .name) (hr : ∀ v ∈ rest, v.Prints .rest) (hb : body.Prints .block) :
    Prints .function ⟨.function (names ++ rest.toList) body false, span⟩ := by
  intro hi
  have hparameters := writable_parameters hn hr hi fun v hm => List.mem_append_left _ hm
  have hbody : Writable body.tokens := hb.child hi (by simp [Form.children])
  simp only [roleTokens, bodyTokens, tokensEach_eq_map]
  exact writable_functionTokens hparameters hbody

/-- The implicit parameter of a method is not printed. -/
theorem prints_method {implicit : Node} (hn : ∀ v ∈ names, v.Prints .name) (hr : ∀ v ∈ rest, v.Prints .rest)
    (hb : body.Prints .block) : Prints .method ⟨.function (implicit :: (names ++ rest.toList)) body true, span⟩ := by
  intro hi
  have hparameters := writable_parameters hn hr hi fun v hm => List.mem_append_left _ (List.mem_cons_of_mem _ hm)
  have hbody : Writable body.tokens := hb.child hi (by simp [Form.children])
  simp only [roleTokens, bodyTokens, tokensEach_eq_map]
  exact writable_functionTokens hparameters hbody

end Functions

section Statements
variable {condition names values : Node}

theorem writable_branchTokens {branches : List (Node × Node)} {word : String} (hw : word = "if" ∨ word = "elseif")
    (hc : ∀ b ∈ branches, Writable b.1.tokens) (hb : ∀ b ∈ branches, Writable b.2.tokens) :
    Writable (branchTokens word branches) := by
  induction branches generalizing word with
  | nil => exact writable_nil
  | cons branch branches ih =>
    obtain ⟨condition, body⟩ := branch
    obtain ⟨hc, hcothers⟩ := List.forall_mem_cons.mp hc
    obtain ⟨hb, hbothers⟩ := List.forall_mem_cons.mp hb
    simp only [branchTokens, writable_append, writable_cons, Token.written_fixed]
    refine ⟨⟨⟨?_, hc⟩, by decide, hb⟩, ih (.inr rfl) hcothers hbothers⟩
    rcases hw with rfl | rfl <;> decide

theorem writable_otherwiseTokens {otherwise : Option Node} (h : ∀ v ∈ otherwise, Writable v.tokens) :
    Writable (otherwiseTokens otherwise) := by
  cases otherwise with
  | none => exact writable_nil
  | some body => exact writable_cons.mpr ⟨.fixed (by decide), h body rfl⟩

theorem writable_stepTokens {step : Option Node} (h : ∀ v ∈ step, Writable v.tokens) : Writable (stepTokens step) := by
  cases step with
  | none => exact writable_nil
  | some step => exact writable_cons.mpr ⟨.fixed (by decide), h step rfl⟩

theorem prints_doBlock (h : body.Prints .block) : Prints .statement ⟨.doBlock body, span⟩ := by
  intro hi
  have hbody : Writable body.tokens := h.child hi List.mem_cons_self
  simp only [roleTokens, tokens, writable_append, writable_cons, Token.written_fixed]
  exact ⟨⟨by decide, hbody⟩, by decide, writable_nil⟩

theorem prints_conditional {branches : List (Node × Node)} {otherwise : Option Node}
    (hc : ∀ b ∈ branches, b.1.Prints .expression) (hb : ∀ b ∈ branches, b.2.Prints .block)
    (ho : ∀ v ∈ otherwise, v.Prints .block) : Prints .statement ⟨.conditional branches otherwise, span⟩ := by
  intro hi
  have hpart {b : Node × Node} (hm : b ∈ branches) :
      b.1 ∈ Form.children (.conditional branches otherwise) ∧ b.2 ∈ Form.children (.conditional branches otherwise) :=
    ⟨List.mem_append_left _ (List.mem_flatMap.mpr ⟨b, hm, by simp⟩),
      List.mem_append_left _ (List.mem_flatMap.mpr ⟨b, hm, by simp⟩)⟩
  have hconditions : ∀ b ∈ branches, Writable b.1.tokens := fun b hm => (hc b hm).child hi (hpart hm).1
  have hbodies : ∀ b ∈ branches, Writable b.2.tokens := fun b hm => (hb b hm).child hi (hpart hm).2
  have hotherwise : ∀ v ∈ otherwise, Writable v.tokens := fun v hm =>
    (ho v hm).child hi (List.mem_append_right _ (Option.mem_toList.mpr hm))
  simp only [roleTokens, tokens, writable_append, writable_cons, Token.written_fixed]
  exact ⟨⟨writable_branchTokens (.inl rfl) hconditions hbodies, writable_otherwiseTokens hotherwise⟩, by decide,
    writable_nil⟩

theorem prints_whileLoop (hc : condition.Prints .expression) (hb : body.Prints .block) :
    Prints .statement ⟨.whileLoop condition body, span⟩ := by
  intro hi
  have hcondition : Writable condition.tokens := hc.child hi (by simp [Form.children])
  have hbody : Writable body.tokens := hb.child hi (by simp [Form.children])
  simp only [roleTokens, tokens, writable_append, writable_cons, Token.written_fixed]
  exact ⟨⟨⟨by decide, hcondition⟩, by decide, hbody⟩, by decide, writable_nil⟩

theorem prints_repeatLoop (hb : body.Prints .block) (hc : condition.Prints .expression) :
    Prints .statement ⟨.repeatLoop body condition, span⟩ := by
  intro hi
  have hcondition : Writable condition.tokens := hc.child hi (by simp [Form.children])
  have hbody : Writable body.tokens := hb.child hi (by simp [Form.children])
  simp only [roleTokens, tokens, writable_append, writable_cons, Token.written_fixed]
  exact ⟨⟨by decide, hbody⟩, by decide, hcondition⟩

theorem prints_numericFor {counter start limit : Node} {step : Option Node} (hn : counter.Prints .name)
    (hs : start.Prints .expression) (hl : limit.Prints .expression) (hp : ∀ v ∈ step, v.Prints .expression)
    (hb : body.Prints .block) : Prints .statement ⟨.numericFor counter start limit step body, span⟩ := by
  intro hi
  have hcounter : Writable counter.tokens := hn.child hi (by simp [Form.children])
  have hstart : Writable start.tokens := hs.child hi (by simp [Form.children])
  have hlimit : Writable limit.tokens := hl.child hi (by simp [Form.children])
  have hstep : ∀ v ∈ step, Writable v.tokens := fun v hm =>
    (hp v hm).child hi (by simp [Form.children, Option.mem_def.mp hm])
  have hbody : Writable body.tokens := hb.child hi (by simp [Form.children])
  simp only [roleTokens, tokens, writable_append, writable_cons, Token.written_fixed]
  exact ⟨⟨⟨⟨⟨⟨by decide, hcounter⟩, by decide, hstart⟩, by decide, hlimit⟩, writable_stepTokens hstep⟩, by decide,
    hbody⟩, by decide, writable_nil⟩

theorem prints_genericFor (hn : names.Prints .names) (hv : values.Prints .values) (hb : body.Prints .block) :
    Prints .statement ⟨.genericFor names values body, span⟩ := by
  intro hi
  have hnames : Writable names.tokens := hn.child hi (by simp [Form.children])
  have hvalues : Writable values.tokens := hv.child hi (by simp [Form.children])
  have hbody : Writable body.tokens := hb.child hi (by simp [Form.children])
  simp only [roleTokens, tokens, writable_append, writable_cons, Token.written_fixed]
  exact ⟨⟨⟨⟨by decide, hnames⟩, by decide, hvalues⟩, by decide, hbody⟩, by decide, writable_nil⟩

theorem prints_localNames (hn : names.Prints .names) (hv : values.Prints .values) :
    Prints .statement ⟨.localNames names values, span⟩ := by
  intro hi
  have hnames : Writable names.tokens := hn.child hi (by simp [Form.children])
  have hvalues : Writable values.tokens := hv.child hi (by simp [Form.children])
  simp only [roleTokens, tokens, writable_append, writable_cons, Token.written_fixed]
  refine ⟨⟨by decide, hnames⟩, ?_⟩
  split
  · exact writable_nil
  · exact writable_cons.mpr ⟨.fixed (by decide), hvalues⟩

theorem prints_assignment {targets : Node} {values : List Node} {inner : Span} (ht : targets.Prints .targets)
    (hv : Prints .values ⟨.valueList values, inner⟩) (h : ∀ v ∈ values, v.Plain) :
    Prints .statement ⟨.assignment targets ⟨.valueList values, inner⟩, span⟩ := by
  intro hi
  have htargets : Writable targets.tokens := ht.child hi (by simp [Form.children])
  have hvalues : Writable (tokens ⟨.valueList values, inner⟩) := hv.child hi (by simp [Form.children])
  simp only [roleTokens]
  rw [tokens_assignment h]
  exact writable_append.mpr ⟨htargets, writable_cons.mpr ⟨.fixed (by decide), hvalues⟩⟩

theorem prints_returnValues {values : List Node} (h : ∀ v ∈ values, v.Prints .expression) :
    Prints .last ⟨.returnValues values, span⟩ := by
  intro hi
  have hvalues : ∀ v ∈ values, Writable v.tokens := fun v hm => (h v hm).child hi hm
  exact writable_cons.mpr ⟨.fixed (by decide), writable_commas hvalues⟩

theorem prints_block {statements : List Node} {last : Option Node} (hs : ∀ v ∈ statements, v.Prints .statement)
    (hl : ∀ v ∈ last, v.Prints .last) : Prints .block ⟨.block (statements ++ last.toList), span⟩ := by
  intro hi
  have hstatements : ∀ v ∈ statements, Writable v.tokens := fun v hm =>
    (hs v hm).child hi (List.mem_append_left _ hm)
  have hlast : ∀ v ∈ last.toList, Writable v.tokens := fun v hm =>
    (hl v (Option.mem_toList.mp hm)).child hi (List.mem_append_right _ hm)
  simp only [roleTokens, tokens, tokensEach_eq_map]
  have hall := List.forall_mem_append.mpr ⟨hstatements, hlast⟩
  exact writable_separated (.fixed (by decide)) (List.forall_mem_map.mpr hall)

end Statements

section Definitions
variable {function : Node} {inner inner' : Span}

theorem prints_localFunction {declared : Node} (hn : declared.Prints .name) (hs : Shaped .function function)
    (hf : function.Prints .function) :
    Prints .statement ⟨.localFunction ⟨.nameList [declared], inner⟩ ⟨.valueList [function], inner'⟩, span⟩ := by
  intro hi
  obtain ⟨-, hi⟩ := every_mk.mp hi
  have hdeclared : Writable declared.tokens := hn.child (hi _ List.mem_cons_self) List.mem_cons_self
  have hbody : Writable function.bodyTokens := hf.child (hi _ (.tail _ (.head _))) List.mem_cons_self
  cases hs with
  | function =>
    simp only [roleTokens, tokens, writable_append, writable_cons, Token.written_fixed]
    exact ⟨⟨by decide, by decide, hdeclared⟩, hbody⟩

theorem prints_methodDefinition {object key : Node} {inner'' : Span} (ho : object.Prints .path) (hk : key.Prints .key)
    (hs : Shaped .method function) (hf : function.Prints .method) :
    Prints .statement ⟨.assignment ⟨.targetList [⟨.index object key, inner⟩], inner'⟩ ⟨.valueList [function], inner''⟩,
      span⟩ := by
  intro hi
  obtain ⟨-, hi⟩ := every_mk.mp hi
  obtain ⟨-, htarget⟩ := every_mk.mp (hi _ List.mem_cons_self)
  have hobject : Writable object.pathTokens := ho.child (htarget _ List.mem_cons_self) List.mem_cons_self
  have hkey : Writable key.methodTokens := hk.child (htarget _ List.mem_cons_self) (by simp [Form.children])
  have hbody : Writable function.bodyTokens := hf.child (hi _ (.tail _ (.head _))) List.mem_cons_self
  cases hs with
  | method =>
    simp only [roleTokens, tokens, targetTokens, writable_append, writable_cons, Token.written_fixed]
    exact ⟨⟨by decide, hobject, by decide, hkey⟩, hbody⟩

end Definitions

/-- All tokens of a tree of the right shape can be written. -/
theorem prints_of_shaped {role : Role} {v : Node} (h : Shaped role v) : Prints role v := by
  induction h with
  | name h | key h => exact prints_name rfl h
  | pathName h =>
    cases h with
    | name h => exact prints_name rfl h
  | rest | nil | varargs | breakLoop => exact prints_fixed rfl (by decide)
  | @boolean value => cases value <;> exact prints_fixed rfl (by decide)
  | string => exact fun _ => writable_cons.mpr ⟨.string, writable_nil⟩
  | number => exact prints_number
  | label h => exact fun _ => writable_cons.mpr ⟨.fixed (by decide), writable_cons.mpr ⟨.name h,
      writable_cons.mpr ⟨.fixed (by decide), writable_nil⟩⟩⟩
  | goto h => exact fun _ => writable_cons.mpr ⟨.fixed (by decide), writable_cons.mpr ⟨.name h, writable_nil⟩⟩
  -- the roles of a tree that has the same tokens in another
  | baseName _ ih | expressionBase _ ih | fieldItem _ ih | statementCall _ _ ih => exact ih
  | expressionFunction h ih =>
    cases h with
    | function => exact fun hi => writable_cons.mpr ⟨.fixed (by decide), ih hi⟩
  | pathIndex _ _ iho ihk => exact prints_pathIndex iho ihk
  | paren _ ih => exact prints_paren ih
  | index _ _ iho ihk => exact prints_index iho ihk
  | call _ _ ihc iha => exact prints_call ihc iha
  | invoke _ _ _ iho ihm iha => exact prints_invoke iho ihm iha
  | table _ ih => exact prints_table ih
  | binary _ _ _ ihl ihr => exact prints_binary ihl ihr
  | unary _ _ ih => exact prints_unary ih
  | pair _ _ ihk ihv => exact prints_pair ihk ihv
  | function _ _ _ ihn ihr ihb => exact prints_function ihn ihr ihb
  | method _ _ _ ihn ihr ihb => exact prints_method ihn ihr ihb
  | names _ _ ih | targets _ _ _ ih | values _ ih => exact fun hi => writable_commas fun v hm => (ih v hm).child hi hm
  | doBlock _ ih => exact prints_doBlock ih
  | conditional _ _ _ _ ihc ihb iho => exact prints_conditional ihc ihb iho
  | whileLoop _ _ ihc ihb => exact prints_whileLoop ihc ihb
  | repeatLoop _ _ ihb ihc => exact prints_repeatLoop ihb ihc
  | numericFor _ _ _ _ _ ihn ihs ihl ihp ihb => exact prints_numericFor ihn ihs ihl ihp ihb
  | genericFor _ _ _ _ ihn ihv ihb => exact prints_genericFor ihn ihv ihb
  | localNames _ _ ihn ihv => exact prints_localNames ihn ihv
  | localFunction _ h ihn ihf => exact prints_localFunction ihn h ihf
  | assignment _ hv _ iht ihv =>
    obtain ⟨values, _, rfl, hvalues⟩ := reads_of_shaped hv
    exact prints_assignment iht ihv fun v hm => (hvalues v hm).2
  | methodDefinition _ _ h iho ihk ihf => exact prints_methodDefinition iho ihk h ihf
  | returnValues _ ih => exact prints_returnValues ih
  | block _ _ ihs ihl => exact prints_block ihs ihl

end Node

end LuaSyntax
