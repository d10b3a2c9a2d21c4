import LuaSyntax.Proofs.Phrase.Operator

/-! # Terminals and nested rules

What it means that the nested rules follow the grammar, and the rules for single tokens as
rules that are told from the next token.
-/
namespace LuaSyntax.Grammar

open Rule Parse Phrase

/-- The nested rules match the nested phrases. -/
structure Nested.Follows (nested : Nested) (phrases : Phrases) : Prop where
  steady : nested.Steady
  expression : Rule.Follows nested.expression phrases.expression phrases.noExpression
  concatenation : Rule.Follows nested.concatenation phrases.concatenation phrases.noExpression
  unary : Rule.Follows nested.unary phrases.unary phrases.noExpression
  block : Parse.Follows nested.block phrases.block
  opens : ∀ {s v s'}, phrases.expression s v s' → s.Next expressionKinds

section Terminals

theorem predicts_keyword {word : String} (hw : word ∈ reservedWords) :
    Rule.Predicts (keyword word) (fun s span s' => s.Takes word span s') [word] :=
  ⟨follows_keyword hw, Stream.Takes.opens, steady_symbolUnless _
    (ofString_ne_nil word (List.mem_append_left _ hw))⟩

theorem predicts_symbol {text : String} (ht : text ∈ plainSymbols) :
    Rule.Predicts (symbol text) (fun s span s' => s.Takes text span s') [text] :=
  ⟨follows_symbol ht, Stream.Takes.opens, steady_symbolUnless _
    ((by decide : ∀ text ∈ plainSymbols, Bytes.ofString text ≠ []) text ht)⟩

theorem predicts_equals : Rule.Predicts (single '=') (fun s span s' => s.Takes "=" span s') ["="] :=
  ⟨follows_equals, Stream.Takes.opens, steady_single (by decide)⟩

theorem predicts_colon : Rule.Predicts (single ':') (fun s span s' => s.Takes ":" span s') [":"] :=
  ⟨follows_colon, Stream.Takes.opens, steady_single (by decide)⟩

theorem predicts_openBracket : Rule.Predicts openBracket (fun s span s' => s.Takes "[" span s') ["["] :=
  ⟨follows_openBracket, Stream.Takes.opens, steady_openBracket⟩

theorem predicts_nameToken : Rule.Predicts (token Scan.name)
    (fun s a s' => s.Takes (.name a.1) a.2 s' ∧ Identifier a.1) [.name] :=
  ⟨follows_nameToken, fun h => h.1.opens, .token Scan.steady_name⟩

theorem predicts_name : Rule.Predicts name Name [.name] :=
  (predicts_nameToken.map _).congr fun s v s' => by
    constructor
    · rintro ⟨⟨text, span⟩, ⟨ht, hi⟩, hv⟩
      exact ⟨text, hi, span, ht, hv⟩
    · rintro ⟨text, hi, span, ht, hv⟩
      exact ⟨(text, span), ⟨ht, hi⟩, hv⟩

theorem predicts_key : Rule.Predicts key Key [.name] :=
  (predicts_nameToken.map _).congr fun s v s' => by
    constructor
    · rintro ⟨⟨text, span⟩, ⟨ht, hi⟩, hv⟩
      exact ⟨text, hi, span, ht, hv⟩
    · rintro ⟨text, hi, span, ht, hv⟩
      exact ⟨(text, span), ⟨ht, hi⟩, hv⟩

theorem predicts_number : Rule.Predicts number Phrase.Number [.number, "."] where
  follows := (follows_numberToken.map _).congr (fun s v s' => by simp only [Phrase.Number, Atom, Prod.exists])
    fun _ => Iff.rfl
  opens := by
    rintro s v s' ⟨value, span, h, -⟩
    exact ⟨_, h.next, List.mem_cons_self⟩
  steady := steady_number

theorem predicts_string : Rule.Predicts string Phrase.String [.string] where
  follows := (follows_stringToken.map _).congr
    (fun s v s' => by simp only [Phrase.String, Atom, Prod.exists]) fun _ => Iff.rfl
  opens := by
    rintro s v s' ⟨value, span, h, -⟩
    exact h.opens
  steady := steady_string

theorem predicts_varargs : Rule.Predicts varargs Varargs ["..."] := (predicts_symbol (by decide)).map _

end Terminals

/-- A list of expressions with commas between them. -/
theorem follows_expressions {nested : Nested} {phrases : Phrases} (h : nested.Follows phrases)
    (missing : Label) :
    Rule.Follows (expressions nested missing) (Expressions phrases) phrases.noExpression := by
  have hcomma := predicts_symbol (by decide : "," ∈ plainSymbols)
  have hstep : ∀ listed : List Node, Rule.Follows
      ((symbol ",").andThen fun _ => do return (← expect nested.expression missing) :: listed)
      (fun s next s' => ∃ v, After "," phrases.expression s v s' ∧ next = v :: listed)
      (¬ ·.Next [","]) := fun listed =>
    (hcomma.follows.andThen fun _ => (h.expression.expect missing).return (· :: listed)).congr
      (fun s next s' => by
        constructor
        · rintro ⟨span, m, hs, v, hv, rfl⟩
          exact ⟨v, ⟨span, m, hs, hv⟩, rfl⟩
        · rintro ⟨v, ⟨span, m, hs, hv⟩, rfl⟩
          exact ⟨span, m, hs, v, hv, rfl⟩) fun _ => Iff.rfl
  have hsteady := fun listed : List Node => hcomma.steady.andThen fun _ =>
    Forward.bind (.expect h.steady.expression missing) fun v => .pure (v :: listed)
  refine (h.expression.andThen fun first =>
    (Parse.Follows.iterateList hstep hsteady [first]).return List.reverse).congr ?_ fun _ => Iff.rfl
  intro s values s'
  constructor
  · rintro ⟨first, m, hf, _, ⟨others, ho, rfl⟩, rfl⟩
    exact ⟨first, m, hf, others, ho, by simp⟩
  · rintro ⟨first, m, hf, others, ho, rfl⟩
    exact ⟨first, m, hf, _, ⟨others, ho, rfl⟩, by simp⟩

end LuaSyntax.Grammar
