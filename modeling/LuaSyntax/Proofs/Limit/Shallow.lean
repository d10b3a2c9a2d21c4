import LuaSyntax.Proofs.Literal.CodePoint
import LuaSyntax.Proofs.Outcome.Failure

/-! # Tokens and the nesting limit

Only the nested rules of the grammar can go too deep. A scan has none of them, so neither it
nor the trivia and the tokens read with it fail that way, nor do rules made of tokens alone.
-/
namespace LuaSyntax
variable {α β γ : Type}

namespace Scan

/-- A scan that does not fail by going too deep. -/
def Shallow (scan : Scan α) : Prop := ∀ p offset, scan p ≠ .error (.tooDeep offset)

variable {scan : Scan α} {f : α → Scan β}

theorem Shallow.bind (h : scan.Shallow) (hf : ∀ a, (f a).Shallow) : (scan >>= f).Shallow := by
  intro p offset ho
  change (scan p >>= fun (a, m) => f a m) = _ at ho
  cases hs : scan p with
  | error failure =>
    rw [hs] at ho
    have he : failure = .tooDeep offset := Except.error.inj ho
    exact h p offset (he ▸ hs)
  | ok result =>
    rw [hs] at ho
    exact hf _ _ _ ho

theorem Shallow.pure (a : α) : (Pure.pure a : Scan α).Shallow := fun _ _ h => nomatch h

theorem Shallow.map (h : scan.Shallow) (g : α → β) : (g <$> scan).Shallow := by
  rw [← bind_pure_comp]
  exact h.bind fun a => .pure (g a)

theorem Shallow.get : (MonadState.get : Scan Place).Shallow := fun _ _ h => nomatch h

theorem Shallow.failAt (label : Label) (offset : Nat) : (failAt label offset : Scan α).Shallow :=
  fun _ _ h => nomatch h

theorem Shallow.fail (label : Label) : (fail label : Scan α).Shallow :=
  .bind .get fun _ => .failAt _ _

theorem Shallow.rest : rest.Shallow := fun _ _ h => nomatch h

theorem Shallow.advance (count : Nat) : (advance count).Shallow := fun _ _ h => nomatch h

theorem Shallow.takeWhile (q : UInt8 → Bool) : (takeWhile q).Shallow := fun _ _ h => nomatch h

theorem Shallow.ite {cond : Prop} [Decidable cond] {yes no : Scan α} (hy : yes.Shallow)
    (hn : no.Shallow) : (if cond then yes else no).Shallow := by
  split
  · exact hy
  · exact hn

theorem Shallow.iterate {step : α → Scan (Option α)} (h : ∀ a, (step a).Shallow) (a : α) :
    (iterate step a).Shallow :=
  .bind .rest fun bound => iterateWithin_of .bind .pure h bound a

theorem shallow_text (bytes : Bytes) (barred : UInt8 → Bool) : (text bytes barred).Shallow :=
  .bind .rest fun _ => .ite (.bind (.advance _) fun _ => .pure _) (.pure _)

theorem shallow_name : name.Shallow :=
  .bind .rest fun _ => .ite (.bind (.takeWhile _) fun _ => .pure _) (.pure _)

theorem shallow_longBracket : longBracket.Shallow := by
  refine .bind .rest fun source => ?_
  cases LongBracket.level? source with
  | none => exact .pure _
  | some level =>
    refine .bind (.advance _) fun _ => .bind .rest fun _ => .bind (.advance _) fun _ =>
      .bind .get fun place => ?_
    cases LongBracket.contentBefore? (LongBracket.closing level) [] place.rest with
    | none => exact .failAt _ _
    | some content => exact .bind (.advance _) fun _ => .pure _

theorem shallow_trivium : trivium.Shallow := by
  refine .bind .rest fun source => .ite (.bind (.takeWhile _) fun _ => .pure _) (.ite ?_ (.pure _))
  refine .bind (.advance _) fun _ => .bind shallow_longBracket fun content => ?_
  cases content with
  | none => exact .bind (.bind (.takeWhile _) fun _ => .pure _) fun _ => .pure _
  | some _ => exact .pure _

theorem shallow_digits (q : UInt8 → Bool) (missing : Label) : (digits q missing).Shallow :=
  .bind (.takeWhile _) fun _ => .ite (.bind (.fail _) fun _ => .pure _) (.pure _)

theorem shallow_fraction (whole : Bytes) : (fraction whole).Shallow :=
  .bind .rest fun _ => .ite (.pure _) <| .bind (.advance _) fun _ =>
    .ite (.bind (shallow_digits _ _) fun _ => .pure _) (.bind (.takeWhile _) fun _ => .pure _)

theorem shallow_exponent : exponent.Shallow := by
  refine .bind .rest fun _ => .ite ?_ (.pure _)
  refine .bind (.advance _) fun _ => .bind .rest fun _ => .ite (.bind (.advance _) fun _ => ?_) ?_
  · exact .bind (shallow_digits _ _) fun _ => .pure _
  · exact .bind (shallow_digits _ _) fun _ => .pure _

theorem shallow_decimal : decimal.Shallow := by
  refine .bind (.takeWhile _) fun whole => .bind (shallow_fraction whole) fun fraction =>
    .bind shallow_exponent fun exponent => ?_
  cases fraction <;> cases exponent <;> exact .pure _

theorem shallow_numeral : numeral.Shallow :=
  .bind .rest fun _ => .ite (.map (.bind (.advance _) fun _ =>
    .bind (shallow_digits _ _) fun _ => .pure _) _) (.ite (.map shallow_decimal _) (.pure _))

theorem shallow_hexEscape : hexEscape.Shallow := by
  refine .bind .rest fun source => ?_
  split
  · exact .bind (.advance _) fun _ => .pure _
  · exact .fail _

theorem shallow_decimalEscape : decimalEscape.Shallow :=
  .bind .rest fun _ => .ite (.bind (.fail _) fun _ => .bind (.advance _) fun _ => .pure _)
    (.bind (.advance _) fun _ => .pure _)

theorem shallow_codePointEscape : codePointEscape.Shallow := by
  rw [codePointEscape_eq]
  refine .bind .rest fun _ => .ite (.bind (.fail _) fun _ => ?_) ?_
  all_goals
    refine .bind (.advance _) fun _ => .bind .get fun _ => .bind (shallow_digits _ _) fun _ =>
      .ite (.bind (.failAt _ _) fun _ => .bind .rest fun _ => .ite (.bind (.fail _) fun _ => ?_) ?_)
        (.bind .rest fun _ => .ite (.bind (.fail _) fun _ => ?_) ?_)
    all_goals exact .bind (.advance _) fun _ => .pure _

theorem shallow_escape : escape.Shallow := by
  refine .bind .rest fun source => ?_
  cases source with
  | nil => exact .fail _
  | cons b tail =>
    dsimp only
    split
    · exact .bind (.advance _) fun _ => .pure _
    · refine .ite (.bind (.advance _) fun _ => .pure _) <| .ite (.bind (.advance _) fun _ =>
        .bind (.takeWhile _) fun _ => .pure _) <| .ite (.bind (.advance _) fun _ =>
        shallow_hexEscape) <| .ite (.bind (.advance _) fun _ => shallow_codePointEscape) <|
        .ite shallow_decimalEscape (.fail _)

theorem shallow_quotedItem (quote : UInt8) : (quotedItem quote).Shallow := by
  refine .bind .rest fun source => ?_
  cases source with
  | nil => exact .fail _
  | cons b tail =>
    exact .ite (.pure _) <| .ite (.fail _) <| .bind (.advance _) fun _ =>
      .ite (.map shallow_escape _) (.pure _)

theorem shallow_quoted (quote : UInt8) : (quoted quote).Shallow := by
  have hitems : (quotedItems quote).Shallow := by
    refine .bind (.iterate (fun decoded => .bind (shallow_quotedItem quote) fun found => ?_) _)
      fun _ => .pure _
    cases found <;> exact .pure _
  exact .bind (.advance _) fun _ => .bind hitems fun _ => .bind (.advance _) fun _ => .pure _

theorem shallow_string : string.Shallow := by
  refine .bind .rest fun source => ?_
  split
  · exact .ite (.map (shallow_quoted _) _) shallow_longBracket
  · exact .pure _

end Scan

namespace Parse
variable {p : Parse α} {f : α → Parse β}

/-- A computation that does not fail by going too deep. -/
def Shallow (p : Parse α) : Prop := ∀ c offset c', p c ≠ .error (.tooDeep offset) c'

theorem Shallow.bind (h : p.Shallow) (hf : ∀ a, (f a).Shallow) : (p >>= f).Shallow := by
  intro c offset c' ho
  rcases bind_eq_error.mp ho with ho | ⟨a, m, -, ho⟩
  · exact h c offset c' ho
  · exact hf a m offset c' ho

theorem Shallow.pure (a : α) : (Pure.pure a : Parse α).Shallow := fun _ _ _ h => nomatch h

theorem Shallow.get : (MonadState.get : Parse Cursor).Shallow := fun _ _ _ h => nomatch h

theorem Shallow.set (c : Cursor) : (MonadStateOf.set c : Parse PUnit).Shallow :=
  fun _ _ _ h => nomatch h

theorem Shallow.iterate {rule : α → Rule α} (h : ∀ a, Shallow (rule a)) (a : α) :
    (iterate rule a).Shallow :=
  .bind (.bind .get fun _ => .pure _) fun bound => iterateWithin_of .bind .pure h bound a

theorem shallow_skipTrivia : skipTrivia.Shallow := by
  refine .iterate (fun _ c offset c' ho => ?_) ()
  cases hs : Scan.trivium c.toPlace with
  | ok result =>
    simp only [hs] at ho
    cases ho
  | error failure =>
    simp only [hs] at ho
    obtain ⟨rfl, rfl⟩ := EStateM.Result.error.inj ho
    exact Scan.shallow_trivium _ _ hs

end Parse

namespace Rule
open Parse
variable {rule : Rule α}

theorem shallow_token {scan : Scan (Option α)} (h : scan.Shallow) : Shallow (token scan) := by
  refine .bind .get fun c => ?_
  cases hc : scan c.toPlace with
  | ok result =>
    obtain ⟨found, place⟩ := result
    cases found with
    | none => exact .pure _
    | some value => exact .bind (.set _) fun _ => .bind shallow_skipTrivia fun _ => .pure _
  | error failure =>
    intro m offset c' ho
    obtain ⟨rfl, rfl⟩ := EStateM.Result.error.inj ho
    exact h _ _ hc

theorem shallow_map (h : Shallow rule) (g : α → β) : Shallow (rule.map g) := by
  refine .bind h fun found => ?_
  cases found with
  | none => exact .pure _
  | some value => exact .bind (.pure _) fun _ => .pure _

theorem shallow_firstOf {rules : List (Rule α)} (h : ∀ rule ∈ rules, Shallow rule) : Shallow (firstOf rules) := by
  induction rules with
  | nil => exact .pure _
  | cons rule others ih =>
    refine .bind (h rule List.mem_cons_self) fun found => ?_
    cases found with
    | none => exact ih fun other hm => h other (List.mem_cons_of_mem _ hm)
    | some value => exact .pure _

theorem shallow_both {second : Rule β} (h : Shallow rule) (h' : Shallow second) : Shallow (both rule second) := by
  refine .bind .get fun c => .bind h fun found => ?_
  cases found with
  | none => exact .pure _
  | some value =>
    refine .bind h' fun found => ?_
    cases found with
    | none => exact .bind (.set _) fun _ => .pure _
    | some value => exact .pure _

theorem shallow_symbolUnless (barred : UInt8 → Bool) (text : String) : Shallow (symbolUnless barred text) :=
  shallow_map (shallow_token (Scan.shallow_text _ barred)) _

theorem shallow_openBracket : Shallow openBracket := by
  intro c offset c' ho
  unfold openBracket at ho
  split at ho
  · cases ho
  · exact shallow_symbolUnless _ _ _ _ _ ho

end Rule

end LuaSyntax
