import LuaSyntax.Proofs.Viable.Operator

/-! # Expressions in two sources

An expression of one source is an expression of another that has the same tokens and goes on the same way,
or with a token that ends expressions. Where it fails, the tokens up to there are completed: behind what the
label asks for, the constructs that are open are closed one after the other, from the innermost.
-/
namespace LuaSyntax

open Rule Parse Grammar

instance : Nonempty BinaryOp := ⟨.or⟩

instance : Nonempty UnaryOp := ⟨.not⟩

instance : Nonempty Node := ⟨⟨.nil, default⟩⟩

namespace Ahead

/-- The source goes on as it did, behind a name as well. -/
def same : Ahead := .limited [] [] true

theorem same_spares (kinds : List Kind) : same.Spares kinds [] := ⟨List.forall_mem_nil _, List.forall_mem_nil _⟩

theorem same_admits {kind : Kind} (h : kind ≠ .name) : same.Admits kind := ⟨List.not_mem_nil, fun _ => h⟩

/-- The source goes on as it did, or with a token that ends expressions. No number comes next. -/
def closed : Ahead := .limited closers [.number] false

/-- A statement comes next, as in the source or one that begins with a name, or the end of a block. -/
def further : Ahead := .limited ["end", "until", .name] [.number, ","] false

/-- The source goes on as it did behind a block, or with the word that ends the block. -/
def ended : Ahead := .limited ["end", "until"] [.number, ","] false

end Ahead

/-- A label asks for the expression `nil`. -/
def Label.AsksNil (label : Label) : Prop := ∀ item, label.Asks item ↔ item = lineFeed :: Bytes.ofString "nil"

/-- A rule matches the expression `nil` in front of what ends it. -/
def Rule.Fills (rule : Rule Node) : Prop :=
  ∀ ⦃span s s'⦄, s.Takes "nil" span s' → Ahead.closed.Ends s' → rule.Gets (fun _ => True) s s'

/-- A rule for operands, of which the other matches at least as much. -/
structure Rule.Operand (deep : Prop) (rule rule' : Rule Node) : Prop where
  tracks : rule.Tracks deep (fun _ : Unit => rule') AnyResult .same .closed
  steady : rule.Steady
  steady' : rule'.Steady
  avoids : rule.Avoids
  fills : deep → rule'.Fills

section Operands
variable {ι : Type} {deep : Prop} {rule rule' operand operand' left left' right right' : Rule Node} {label : Label}
  {tier : Tier} {tiers : List Tier} {op : BinaryOp}

theorem Rule.Shuns.avoids (h : ∀ {b}, b ∈ doublingBytes → rule.Shuns b) : rule.Avoids :=
  fun c _ hb hc => .inl (h hb c hc)

theorem Rule.Avoids.andThen (h : rule.Avoids) (f : Node → Parse Node) : Avoids (rule.andThen f) := by
  intro c b hb hc
  rcases h hb hc with hnone | ⟨offset, c', hdeep⟩
  · exact .inl (andThen_eq_none.mpr hnone)
  · exact .inr ⟨offset, c', andThen_eq_error.mpr (.inl hdeep)⟩

/-- The operators of a tier are told apart, and none of them ends an expression. -/
structure Grammar.Tier.Apart (tier : Tier) : Prop where
  apart : tier.operators.Pairwise fun first second => .fixed second.text ∉ operatorKinds first
  spares : Ahead.closed.Spares (tier.operators.flatMap operatorKinds) []
  asks : tier.missing.AsksNil

namespace Rule.Fills

theorem chain (h : operand.Fills) (hs : operand.Steady) (ht : tier.Apart) : Fills (Grammar.chain operand tier) := by
  intro span s s' htakes hend
  refine (h htakes hend).andThen fun first _ => .iterate_done (steady_chainStep hs tier) ?_ trivial
  exact (settles_operators.ends trivial hend ht.spares).andThen

theorem chains (h : operand.Fills) (hs : operand.Steady) (ht : ∀ tier ∈ tiers, tier.Apart) :
    Fills (Grammar.chains operand tiers) := by
  induction tiers with
  | nil => exact h
  | cons tier tighter ih =>
    have htighter := ih fun other hm => ht other (List.mem_cons_of_mem _ hm)
    exact htighter.chain (steady_chains hs tighter) (ht tier List.mem_cons_self)

theorem withRight (h : left.Fills) (hspares : Ahead.closed.Spares (operatorKinds op) []) :
    Fills (Grammar.withRight left op right label) := by
  intro span s s' htakes hend
  have hlacks : (binaryOperator op).Lacks s' := settles_binaryOperator.ends trivial hend hspares
  exact (h htakes hend).andThen fun first _ => hlacks.bind (.pure trivial)

end Rule.Fills

theorem Rule.Settles.chains {kinds silent : List Kind} (h : Settles deep operand operand' kinds silent) :
    Settles deep (Grammar.chains operand tiers) (Grammar.chains operand' tiers) kinds silent := by
  induction tiers with
  | nil => exact h
  | cons tier tighter ih => exact ih.andThen _ _

namespace Rule.Operand

theorem supplies (h : Operand deep rule rule') (hlabel : label.AsksNil) (hd : deep) :
    label.Supplies .anything .closed fun s s' => ∀ _ : ι, rule'.Gets (fun _ => True) s s' := by
  have hnil : Token.Written "nil" := .fixed (by decide)
  refine ⟨⟨_, (hlabel _).mpr rfl⟩, fun item hitem => ?_⟩
  obtain rfl := (hlabel item).mp hitem
  refine ⟨fun b hb => (Option.some.inj hb).symm, ["nil"], [], writes_line (writes_text hnil),
    List.forall_mem_singleton.mpr hnil, fun s s' hspells hstop => ⟨trivial, fun _ => ?_⟩⟩
  obtain ⟨span, htakes⟩ := Stream.spells_singleton.mp hspells
  exact h.fills hd htakes hstop

theorem tracks_of (h : Operand deep rule rule') : rule.Tracks deep (fun _ : ι => rule') AnyResult .same .closed :=
  h.tracks.reindex fun _ => ()

/-- An operand that has to be there. -/
theorem expect (h : Operand deep rule rule') (hlabel : label.AsksNil) :
    (Parse.expect rule label).Tracks deep (fun _ : ι => Parse.expect rule' label) AnyResult .anything .closed :=
  (h.tracks_of.within (Ahead.within_anything _) (.refl _)).expect h.steady (h.supplies hlabel)

theorem chain (h : Operand deep operand operand') (ht : tier.Apart) :
    Operand deep (Grammar.chain operand tier) (Grammar.chain operand' tier) where
  tracks := by
    have hgrabs : Grabs (firstOf (tier.operators.map binaryOperator)) _ Ahead.closed :=
      grabs_operators ht.apart fun op _ => ⟨by simp, nofun⟩
    have hstep (left : Node) : Tracks deep (chainStep operand tier left)
        (fun x : (Unit × Node) × Node => chainStep operand' tier x.2) AnyResult .closed .closed := by
      refine hgrabs.tracks ?_ (h.tracks_of.within (Ahead.within_anything _) (.refl _)) h.steady h.avoids (h.supplies ht.asks)
        fun op right => .pure fun _ => trivial
      rintro _ ⟨op, -, rfl⟩
      exact ⟨by simp [Token.kind], nofun⟩
    exact h.tracks.andThen fun first => .iterateAny (steady_chainStep h.steady tier)
      (fun _ => steady_chainStep h.steady' tier) hstep (.refl _) (fun _ _ _ => settles_operators.andThen _ _) ht.spares
  steady := steady_chain h.steady tier
  steady' := steady_chain h.steady' tier
  avoids := h.avoids.andThen _
  fills hd := (h.fills hd).chain h.steady' ht

theorem chains (h : Operand deep operand operand') (ht : ∀ tier ∈ tiers, tier.Apart) :
    Operand deep (Grammar.chains operand tiers) (Grammar.chains operand' tiers) := by
  induction tiers with
  | nil => exact h
  | cons tier tighter ih => exact (ih fun other hm => ht other (List.mem_cons_of_mem _ hm)).chain (ht tier List.mem_cons_self)

theorem withRight (hl : Operand deep left left') (hr : Operand deep right right')
    (hop : op ∉ [BinaryOp.lt, .gt, .div]) (hs : Ahead.closed.Spares (operatorKinds op) []) (hlabel : label.AsksNil) :
    Operand deep (Grammar.withRight left op right label) (Grammar.withRight left' op right' label) where
  tracks := by
    have hfound : (binaryOperator op).Tracks deep (fun _ : Unit × Node => binaryOperator op) AnyResult .closed .anything :=
      (lexes_binaryOperator hop).tracks_fixed ⟨by simp, nofun⟩
    refine hl.tracks.andThen fun first => hfound.bindOptional (fun _ => settles_binaryOperator)
      (steady_binaryOperator op) hs (fun found => ?_) (.pure fun _ => trivial)
    exact (hr.expect hlabel).bind fun operand => .pure fun _ => trivial
  steady := steady_withRight hl.steady hr.steady op label
  steady' := steady_withRight hl.steady' hr.steady' op label
  avoids := hl.avoids.andThen _
  fills hd := (hl.fills hd).withRight hs

end Rule.Operand
end Operands
end LuaSyntax
