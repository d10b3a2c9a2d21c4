import LuaSyntax.Proofs.Loop
import LuaSyntax.Proofs.Keep.Place

/-! # The end of the last token

Where a source is taken up again, the end of the last token before is no longer that of a token of
this parse. It is not used: a statement begins with a token, and from then on only what this parse
has read counts. Until then it is left as it was found.
-/
namespace LuaSyntax
variable {α β : Type} {idle : α → Prop} {idle' : β → Prop} {last last' : Nat}

/-- Two runs from one place, for which the last token ended at different offsets. Either they are the
same, or each leaves that offset as it found it and they agree otherwise; with a result only if it is
one of those that say that nothing was read. -/
inductive SameButLastEnd (idle : α → Prop) (last last' : Nat) : Run α → Run α → Prop
  | same (run : Run α) : SameButLastEnd idle last last' run run
  | ok {a : α} (place : Place) (ha : idle a) :
      SameButLastEnd idle last last' (.ok a ⟨place, last⟩) (.ok a ⟨place, last'⟩)
  | error (e : Failure) (place : Place) :
      SameButLastEnd idle last last' (.error e ⟨place, last⟩) (.error e ⟨place, last'⟩)

/-- A computation that does not use the end of the last token before it. -/
def Parse.Forgets (idle : α → Prop) (p : Parse α) : Prop :=
  ∀ place last last', SameButLastEnd idle last last' (p ⟨place, last⟩) (p ⟨place, last'⟩)

namespace Parse
variable {p : Parse α} {f : α → Parse β}

theorem Forgets.mono {more : α → Prop} (h : p.Forgets idle) (hm : ∀ a, idle a → more a) : p.Forgets more := by
  intro place last last'
  have hp := h place last last'
  generalize p ⟨place, last⟩ = run at hp ⊢
  generalize p ⟨place, last'⟩ = run' at hp ⊢
  cases hp with
  | same => exact .same run
  | ok place ha => exact .ok place (hm _ ha)
  | error e place => exact .error e place

/-- Only what comes after an idle first part must forget as well: after any other the two runs are the
same. -/
theorem Forgets.bind (h : p.Forgets idle) (hf : ∀ a, idle a → (f a).Forgets idle') : (p >>= f).Forgets idle' := by
  intro place last last'
  have hp := h place last last'
  generalize hrun : p ⟨place, last⟩ = run at hp
  generalize hrun' : p ⟨place, last'⟩ = run' at hp
  cases hp with
  | same =>
    rw [bind_of_eq (hrun.trans hrun'.symm)]
    exact .same _
  | ok m ha =>
    rw [bind_of_ok hrun, bind_of_ok hrun']
    exact hf _ ha m last last'
  | error e m =>
    rw [bind_of_error hrun, bind_of_error hrun']
    exact .error e m

theorem Forgets.pure {a : α} (ha : idle a) : (Pure.pure a : Parse α).Forgets idle :=
  fun place _ _ => .ok place ha

theorem Forgets.failAt (label : Label) (offset : Nat) : (failAt label offset : Parse α).Forgets idle :=
  fun place _ _ => .error _ place

theorem Forgets.getBind {f : Cursor → Parse β} (hplace : ∀ place last last', f ⟨place, last⟩ = f ⟨place, last'⟩)
    (hf : ∀ c, (f c).Forgets idle') : (get >>= f).Forgets idle' := by
  intro place last last'
  change SameButLastEnd idle' last last' (f ⟨place, last⟩ ⟨place, last⟩) (f ⟨place, last'⟩ ⟨place, last'⟩)
  rw [hplace place last last']
  exact hf _ place last last'

theorem Forgets.fail (label : Label) : (fail label : Parse α).Forgets idle :=
  .getBind (fun _ _ _ => rfl) fun _ => .failAt label _

theorem Forgets.expect {rule : Rule α} (h : Forgets (· = none) rule) (label : Label) :
    (expect rule label).Forgets fun _ => False := by
  refine h.bind fun found hnone => ?_
  subst hnone
  exact .fail label

theorem Forgets.iterate {rule : α → Rule α} (h : ∀ a, Forgets (fun _ => True) (rule a)) (a : α) :
    (iterate rule a).Forgets fun _ => True := by
  have hrest : rest.Forgets fun _ => True := .getBind (fun _ _ _ => rfl) fun _ => .pure trivial
  refine hrest.bind fun bound _ => ?_
  exact iterateWithin_of (P := Forgets fun _ => True) (fun hp hf => hp.bind fun a _ => hf a)
    (fun _ => .pure trivial) h bound a

theorem forgets_skipTrivia : skipTrivia.Forgets fun _ => True := by
  have hstep : Forgets (fun _ => True) skipTrivium := by
    intro place last last'
    simp only [skipTrivium]
    cases Scan.trivium place with
    | ok result => exact .ok result.2 trivial
    | error failure => exact .error failure place
  exact .iterate (fun _ => hstep) ()

end Parse

namespace Rule
open Parse
variable {rule : Rule α}

theorem forgets_andThen (h : Forgets (· = none) rule) (f : α → Parse β) : Forgets (· = none) (rule.andThen f) := by
  refine h.bind fun found hnone => ?_
  subst hnone
  exact .pure rfl

theorem forgets_firstOf {rules : List (Rule α)} (h : ∀ rule ∈ rules, Forgets (· = none) rule) :
    Forgets (· = none) (firstOf rules) := by
  induction rules with
  | nil => exact .pure rfl
  | cons rule others ih =>
    refine (h rule List.mem_cons_self).bind fun found hnone => ?_
    subst hnone
    exact ih fun other hm => h other (List.mem_cons_of_mem _ hm)

theorem forgets_token (scan : Scan (Option α)) : Forgets (· = none) (token scan) := by
  intro place last last'
  cases hscan : scan place with
  | error e =>
    have hfails (last : Nat) : token scan ⟨place, last⟩ = .error e ⟨place, last⟩ :=
      token_eq_error.mpr (.inl ⟨hscan, rfl⟩)
    rw [hfails last, hfails last']
    exact .error e place
  | ok result =>
    obtain ⟨found, m⟩ := result
    cases found with
    | none =>
      have hdeclines (last : Nat) : token scan ⟨place, last⟩ = .ok none ⟨place, last⟩ :=
        token_eq_none.mpr ⟨⟨m, hscan⟩, rfl⟩
      rw [hdeclines last, hdeclines last']
      exact .ok place rfl
    | some a =>
      have hreads : token scan ⟨place, last⟩ = token scan ⟨place, last'⟩ := by
        have hnoted (c : Cursor) : (get : Parse Cursor) c = .ok c c := rfl
        rw [token, bind_of_ok (hnoted _), bind_of_ok (hnoted _)]
        simp only [hscan]
        rfl
      rw [hreads]
      exact .same _

theorem forgets_symbolUnless (barred : UInt8 → Bool) (text : String) : Forgets (· = none) (symbolUnless barred text) :=
  forgets_andThen (forgets_token _) _

theorem forgets_keyword (word : String) : Forgets (· = none) (keyword word) := forgets_symbolUnless _ word

theorem forgets_symbol (text : String) : Forgets (· = none) (symbol text) := forgets_symbolUnless _ text

end Rule

namespace Grammar
open Parse Rule
variable (nested : Nested)

theorem forgets_suffixed : Forgets (· = none) (suffixed nested) := by
  refine forgets_andThen (forgets_firstOf ?_) _
  simp only [List.mem_cons, List.not_mem_nil, or_false, forall_eq_or_imp, forall_eq]
  exact ⟨forgets_andThen (forgets_token _) _, forgets_andThen (forgets_symbol _) _⟩

theorem forgets_statementForms : ∀ rule ∈ statementForms nested, Forgets (· = none) rule := by
  simp only [statementForms, List.map_cons, List.map_nil, List.mem_cons, List.not_mem_nil, or_false,
    forall_eq_or_imp, forall_eq]
  have hword {f : Span → Parse Node} (word : String) :
      Forgets (· = none) (Rule.map ((keyword word).andThen f) some) :=
    forgets_andThen (forgets_andThen (forgets_keyword word) f) _
  exact ⟨forgets_andThen (forgets_symbol _) _, hword _, hword _, hword _, hword _, hword _, hword _, hword _,
    hword _, forgets_andThen (forgets_andThen (forgets_symbol _) _) _, hword _,
    forgets_andThen (forgets_andThen (forgets_suffixed nested) _) _⟩

theorem forgets_statementStep (listed : List Node) : Forgets (· = none) (statementStep nested listed) := by
  have hread : (some <$> (· ++ listed) <$> Option.toList <$> statement nested).Forgets (· = none) := by
    simp only [← bind_pure_comp, bind_assoc, pure_bind]
    exact (Forgets.expect (forgets_firstOf (forgets_statementForms nested)) _).bind fun _ hnone => hnone.elim
  intro place last last'
  unfold statementStep
  dsimp only
  split
  · exact .ok place rfl
  · exact hread place last last'

theorem forgets_statements : (statements nested).Forgets fun _ => True := by
  have hstep (listed : List Node) := (forgets_statementStep nested listed).mono fun _ _ => trivial
  refine (Forgets.iterate hstep []).bind fun listed _ => ?_
  have hlast : Forgets (· = none) (returnStatement nested) := forgets_andThen (forgets_keyword _) _
  exact hlast.bind fun last _ => .pure trivial

theorem forgets_chunk (limit : Nat) : (chunk limit).Forgets fun _ => True := by
  have hline : (modify skipShebang : Parse PUnit).Forgets fun _ => True := by
    intro place last last'
    have hskip (last : Nat) : skipShebang ⟨place, last⟩ = ⟨(skipShebang ⟨place, 0⟩).toPlace, last⟩ := by
      unfold skipShebang
      dsimp only
      split <;> rfl
    have hrun (last : Nat) : (modify skipShebang : Parse PUnit) ⟨place, last⟩ =
        .ok .unit ⟨(skipShebang ⟨place, 0⟩).toPlace, last⟩ := congrArg _ (hskip last)
    rw [hrun last, hrun last']
    exact .ok _ trivial
  refine hline.bind fun _ _ => forgets_skipTrivia.bind fun _ _ => (forgets_statements _).bind fun body _ => ?_
  refine .getBind (fun _ _ _ => rfl) fun c => ?_
  split
  · exact .pure trivial
  · exact .fail _

end Grammar

end LuaSyntax
