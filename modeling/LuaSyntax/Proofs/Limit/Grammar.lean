import LuaSyntax.Proofs.Limit.Combinators
import LuaSyntax.Proofs.Progress.Grammar

/-! # The grammar under two limits

Every rule of the grammar reads something before it can go too deep, hence it does the same
under two limits until the lower one is reached, at every nesting level.
-/
namespace LuaSyntax

open Parse Rule
open List (Forall₂)

/-- The two runs are at the same cursor until the second goes too deep. -/
abbrev Sequencing.limits (strict : Bool) : Sequencing where
  toLikeness := .same (fun _ => True) (fun _ => True) (fun _ => True) fun _ => trivial
  Runs late _ _ V p q := Parse.Curbs strict late V p q
  weaken h := h.weaken
  pure hv := .pure hv
  bind h hf := h.bind hf
  get := .of_shallow .get (.mk fun ho => by rw [(get_eq_ok.mp ho).2]; exact Place.le_refl _) fun _ => ⟨rfl, trivial⟩
  failAt hp := hp.1 ▸ .failAt

abbrev Combining.limits (strict : Bool) : Combining where
  toSequencing := .limits strict
  Rules late _ _ V r s := Rule.Curbs strict late V r s
  weakenRule h := ⟨h.toGives, h.run.weaken⟩
  run h := h.run
  declines := ⟨.declines, .pure .none⟩
  andThen h hf := ⟨h.toGives.andThen fun _ ha => ha.elim fun _ hv => (hf hv).toGives,
    (Sequencing.limits strict).runs_andThen h.run hf⟩
  orElse h ho := ⟨h.toGives.orElse ho.toGives, (Sequencing.limits strict).runs_orElse h.run ho.run⟩
  orElse_late h ho := ⟨h.toGives.orElse ho.toGives, h.orElse_late ho.run⟩
  always h := ⟨h.toGives.always _, (Sequencing.limits strict).runs_always h.run⟩

section Items
variable {strict : Bool} {α β γ : Type} {V : α → β → Prop} {W : γ → γ → Prop} {item : Rule α} {item' : Rule β}
  {separator : Rule γ}

/-- The separator after an item lies behind all that the item has read. -/
theorem itemStep_outlasts (h : Rule.Curbs strict false V item item') (hs : separator.Steady) (hd : Shallow separator)
    {a : List α × Bool} {b : List β × Bool} (hab : a.2 = b.2) {listed : List α} {c m : Cursor}
    (ho : itemStep item separator a c = .ok (some (listed, true)) m) :
    c.offset < m.offset ∧
      ∀ offset c', itemStep item' separator b c = .error (.tooDeep offset) c' → offset < m.offset := by
  obtain ⟨a, separated⟩ := a
  obtain ⟨b, separated'⟩ := b
  obtain rfl : separated = separated' := hab
  cases separated with
  | false => cases ho
  | true =>
    obtain ⟨next, n, hf, hrest⟩ := andThen_eq_some.mp ho
    obtain ⟨found, n', hsep, hv⟩ := bind_eq_ok.mp hrest
    cases found with
    | none => cases hv
    | some found =>
      obtain ⟨-, rfl⟩ := pure_eq_ok.mp hv
      have hlt := Place.offset_lt (hs.advances hsep)
      have hle := Place.offset_lt (h.advances hf)
      refine ⟨Nat.lt_trans hle hlt, fun offset c' hs => ?_⟩
      rcases andThen_eq_error.mp hs with hs | ⟨_, _, -, hs⟩
      · have hout := h.run.outlasts hs
        rw [hf] at hout
        have hout : offset ≤ n.offset := hout
        exact Nat.lt_of_le_of_lt hout hlt
      · refine (Shallow.bind hd fun _ => .pure _) _ _ _ hs |>.elim

theorem curbs_items (h : Rule.Curbs strict false V item item') (hs : Rule.Curbs strict true W separator separator)
    (hd : Shallow separator) : Parse.Curbs strict false (fun a b => Forall₂ V a.1 b.1 ∧ a.2 = b.2)
      (iterate (itemStep item separator) ([], true)) (iterate (itemStep item' separator) ([], true)) := by
  have hstep {a : List α × Bool} {b : List β × Bool} (hl : Forall₂ V a.1 b.1 ∧ a.2 = b.2) :=
    (Combining.limits strict).run ((Combining.limits strict).itemStep h hs hl)
  refine .iterate_of hstep (fun {a b a' b' c m} hl hl' ho => ?_) ⟨.nil, rfl⟩ (hstep ⟨.nil, rfl⟩)
  obtain ⟨listed, separated⟩ := a'
  obtain ⟨listed', separated'⟩ := b'
  obtain ⟨-, rfl⟩ := hl'
  cases separated with
  | false => exact .inl (.pure .none)
  | true => exact .inr (itemStep_outlasts h hs.toSteady hd hl.2 ho)

end Items

theorem curbs_read {strict : Bool} {α : Type} {scan : Scan (Option α)} (hs : scan.Steady) (hd : scan.Shallow) :
    Rule.Curbs strict true (Sequencing.limits strict).read (token scan) (token scan) :=
  .of_shallow (shallow_token hd) ⟨.token hs, fun _ => ⟨rfl, ⟨rfl, trivial⟩, rfl⟩⟩

/-- Every rule does the same with fewer levels until they are used up, and reads something before. -/
abbrev Congruence.limits (strict : Bool) : Congruence where
  toCombining := .limits strict
  Tests _ := True
  tests_level := trivial
  tests_endsBlock := trivial
  guarded {_ _ _ _ _ test _} _ h := h.guarded (t := fun c => test c.rest)
  iterate h hab := (Sequencing.limits strict).iterate_of_rest (fun hc => congrArg (·.rest) hc.1)
    (fun hv => (h hv).run) hab
  iterate_items h hs hd := curbs_items h hs hd
  read_bind h hd hnone hf := h.bind_shallow hd hnone hf
  read_andThen h hd hf := by
    refine ⟨h.toGives.andThen fun _ ha => ha.elim fun _ hv => (hf hv).toGives, h.bind_shallow hd (.pure .none) fun hv => ?_⟩
    exact (hf hv).bind fun hw => .pure (.some hw)
  both h hd _ h' hd' := by
    refine .of_shallow (shallow_both hd hd') ⟨(h.toGives.both h'.toGives).toSteady, fun {c found c'} ho => ?_⟩
    obtain ⟨a, b⟩ := found
    obtain ⟨m, ho, ho'⟩ := both_eq_some.mp ho
    exact ⟨Option.rel_some_some.mp (h.run.self ho), Option.rel_some_some.mp (h'.run.self ho')⟩
  read_word hw := curbs_read (Scan.steady_text _ (isPlain_iff.mp (isWord_iff.mp hw).1).1) (Scan.shallow_text _ _)
  read_semicolon := curbs_read (Scan.steady_text _ (List.cons_ne_nil _ _)) (Scan.shallow_text _ _)
  read_name := curbs_read Scan.steady_name Scan.shallow_name
  read_numeral := (Combining.limits strict).ruleMono (curbs_read Scan.steady_numeral Scan.shallow_numeral) (.intro trivial)
  read_string := curbs_read Scan.steady_string Scan.shallow_string

end LuaSyntax
