import LuaSyntax.Proofs.Limit.Grammar
import LuaSyntax.Session

/-! # Parsing under two limits

The nesting limit cuts a parse off and does not change it otherwise: under a lower limit the
result is the same, or an overflow of that limit. An overflow is reported further on the
higher the limit is.
-/
namespace LuaSyntax

open Parse

namespace Grammar
variable {strict : Bool} {α β : Type} {V : α → β → Prop}

theorem delays_tooDeep {c : Cursor} : Delays false c.offset (tooDeep c : Run α) := by
  intro offset c' ho
  obtain ⟨ho, -⟩ := EStateM.Result.error.inj ho
  obtain rfl := Failure.tooDeep.inj ho
  exact ⟨Nat.le_refl _, nofun⟩

theorem curbs_tooDeep {long : Parse α} {short : Parse β} (h : Parse.Curbs false true V long short) :
    Parse.Curbs strict false V long tooDeep where
  toGives := h.toGives
  long_delays c := (h.long_delays c).weaken (Nat.le_refl _)
  short_delays _ := delays_tooDeep
  cutOff c := .tooDeep (.rest h.offset_le (Nat.le_refl _) (h.long_delays c))

theorem curbs_tooDeep_self : Parse.Curbs false false V tooDeep tooDeep where
  le ho := nomatch ho
  result ho := nomatch ho
  long_delays _ := delays_tooDeep
  short_delays _ := delays_tooDeep
  cutOff _ := .tooDeep ⟨Nat.le_refl _, nofun⟩

theorem curbs_nesting_self (levels : Nat) : Nested.Congr (.limits false) (nesting levels) (nesting levels) := by
  induction levels with
  | zero =>
    have hrule : Rule.Curbs false false (Sequencing.limits false).node (tooDeep : Rule Node) tooDeep :=
      ⟨⟨⟨nofun, nofun⟩, nofun⟩, curbs_tooDeep_self⟩
    exact ⟨hrule, hrule, hrule, curbs_tooDeep_self⟩
  | succ levels ih => exact ih.succ

theorem curbs_nesting {lower upper : Nat} (h : lower < upper) :
    Nested.Congr (.limits true) (nesting upper) (nesting lower) := by
  induction lower generalizing upper with
  | zero =>
    obtain ⟨levels, rfl⟩ := Nat.exists_eq_succ_of_ne_zero (Nat.ne_of_gt h)
    have hrule {rule : Rule Node} (h : Rule.Curbs false true (Sequencing.limits false).node rule rule) :
        Rule.Curbs true false (Sequencing.limits true).node rule tooDeep := ⟨h.toGives, curbs_tooDeep h.run⟩
    have hself := curbs_nesting_self levels
    exact ⟨hrule (congr_expression hself), hrule (congr_concatenation hself), hrule (congr_unary hself),
      curbs_tooDeep (congr_block hself)⟩
  | succ lower ih =>
    obtain ⟨levels, rfl⟩ := Nat.exists_eq_succ_of_ne_zero (Nat.ne_of_gt (Nat.lt_of_le_of_lt (Nat.zero_le _) h))
    exact (ih (Nat.lt_of_succ_lt_succ h)).succ

theorem curbs_chunk {lower upper : Nat} (h : lower < upper) :
    Parse.Curbs true true (Sequencing.limits true).node (chunk upper) (chunk lower) := by
  have hline : Parse.Curbs true true Eq (modify skipShebang : Parse PUnit) (modify skipShebang) :=
    .of_shallow (fun _ _ _ ho => nomatch ho) forward_skipShebang fun _ => rfl
  refine congr_chunk (curbs_nesting h) hline (.of_shallow shallow_skipTrivia forward_skipTrivia fun _ => rfl) rfl ?_
  intro c d hc
  rw [hc.1]
  exact ⟨rfl, rfl⟩

end Grammar

open Grammar

/-- Under a lower limit a parse has the same result, tree or syntax error, or exceeds that
limit. Where both limits are exceeded, the lower one is exceeded earlier in the source. -/
theorem parse_of_limit_le {source : Bytes} {lower upper : Nat} {filename : String}
    (h : lower ≤ upper) :
    (parse source lower filename = parse source upper filename ∨
      ∃ error, parse source lower filename = .error error ∧ error.cause = .tooDeep lower) ∧
    (lower < upper → ∀ low high, parse source lower filename = .error low →
      parse source upper filename = .error high → low.cause = .tooDeep lower →
      high.cause = .tooDeep upper → low.offset < high.offset) := by
  rcases Nat.eq_or_lt_of_le h with rfl | hlt
  · exact ⟨.inl rfl, fun hlt => (Nat.lt_irrefl _ hlt).elim⟩
  have hcut := (curbs_chunk hlt).cutOff (.start source)
  simp only [parse, Session.parse, Session.start]
  generalize chunk lower (.start source) = short at hcut
  generalize chunk upper (.start source) = long at hcut
  cases hcut with
  | ok hv c =>
    rw [hv.1]
    exact ⟨.inl rfl, fun _ low high hlow => nomatch hlow⟩
  | expected label offset c =>
    refine ⟨.inl rfl, fun _ low high hlow _ hcause => ?_⟩
    cases hlow
    cases hcause
  | @tooDeep offset c _ hout =>
    refine ⟨.inr ⟨_, rfl, rfl⟩, fun _ low high hlow hhigh _ hcause => ?_⟩
    cases hlow
    cases long with
    | ok root c => cases hhigh
    | error failure c =>
      cases hhigh
      cases failure with
      | expected label offset => cases hcause
      | tooDeep further => exact hout.2 rfl

theorem parse_of_limit_le_parentheses :
    ∃ low high, parse (.ofString "return (((1)))") 1 "" = .error low ∧
      parse (.ofString "return (((1)))") 2 "" = .error high ∧ low.cause = .tooDeep 1 ∧
      high.cause = .tooDeep 2 ∧ low.offset < high.offset := by
  have hlow : parse (.ofString "return (((1)))") 1 "" = .error ⟨"", ⟨1, 9⟩, 8, .tooDeep 1⟩ := rfl
  have hhigh : parse (.ofString "return (((1)))") 2 "" = .error ⟨"", ⟨1, 10⟩, 9, .tooDeep 2⟩ := rfl
  have hall := @parse_of_limit_le (.ofString "return (((1)))") 1 2 "" (by decide)
  exact ⟨_, _, hlow, hhigh, rfl, rfl, hall.2 (by decide) _ _ hlow hhigh rfl rfl⟩

end LuaSyntax
