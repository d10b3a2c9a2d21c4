import LuaSyntax.Proofs.Limit.Shallow
import LuaSyntax.Proofs.Progress.Combinators

/-! # Runs under two limits

Two runs of one computation start at the same cursor, and the first has no more nesting levels
left than the second. Until the first goes too deep they do the same, and the second gets past
the offset where it does. Every way of putting computations together keeps this, because behind
a nested rule something is read before the next nested rule is tried.
-/
namespace LuaSyntax
variable {α β : Type} {strict late : Bool}

/-- The run that the computations of the grammar are. -/
abbrev Run (α : Type) := EStateM.Result Failure Cursor α

/-- A run got to an offset, and past it where it went too deep itself. A run that is not
`strict` may have gone too deep at the same offset. -/
def Outlasts (strict : Bool) (offset : Nat) : Run α → Prop
  | .ok _ cursor => offset ≤ cursor.offset
  | .error (.tooDeep further) _ => offset ≤ further ∧ (strict → offset < further)
  | .error (.expected _ _) _ => True

/-- What a run with fewer levels left does, beside what a run with more of them does. -/
inductive CutOff (strict : Bool) (V : α → β → Prop) : (long : Run α) → (short : Run β) → Prop
  | ok {a : α} {b : β} (hv : V a b) (c : Cursor) : CutOff strict V (.ok a c) (.ok b c)
  | expected (label : Label) (offset : Nat) (c : Cursor) :
      CutOff strict V (.error (.expected label offset) c) (.error (.expected label offset) c)
  | tooDeep {offset : Nat} {c : Cursor} {long : Run α} (h : Outlasts strict offset long) :
      CutOff strict V long (.error (.tooDeep offset) c)

/-- A run does not go too deep in front of an offset, nor at it if it is to be late. -/
def Delays (late : Bool) (start : Nat) (run : Run α) : Prop :=
  ∀ offset c, run = .error (.tooDeep offset) c → start ≤ offset ∧ (late → start < offset)

theorem Delays.weaken {start start' : Nat} {run : Run α} (h : Delays true start' run)
    (hs : start ≤ start') : Delays late start run := by
  intro offset c hr
  have := (h offset c hr).2 rfl
  exact ⟨by omega, fun _ => by omega⟩

theorem Delays.behind {start start' : Nat} {run : Run α} (h : Delays false start' run)
    (hle : start ≤ start') (hlt : late → start < start') : Delays late start run := by
  intro offset c hr
  have hd := (h offset c hr).1
  exact ⟨Nat.le_trans hle hd, fun hl => Nat.lt_of_lt_of_le (hlt hl) hd⟩

theorem Delays.of_error {start : Nat} {run : Run α} {failure : Failure} {m : Cursor}
    (h : Delays late start run) (hr : run = .error failure m) :
    Delays late start (.error failure m : Run β) := by
  intro offset c ho
  obtain ⟨rfl, rfl⟩ := EStateM.Result.error.inj ho
  exact h _ _ hr

theorem Outlasts.of_error {offset : Nat} {run : Run α} {failure : Failure} {m : Cursor}
    (h : Outlasts strict offset run) (hr : run = .error failure m) :
    Outlasts strict offset (.error failure m : Run β) := by
  subst hr
  cases failure <;> exact h

/-- A rest that starts where the longer run got to, past the offset where the shorter run was
cut off. -/
theorem Outlasts.rest {offset : Nat} {c : Cursor} {rest : Parse α}
    (hf : ∀ {a c'}, rest c = .ok a c' → c.offset ≤ c'.offset) (hle : offset ≤ c.offset)
    (hd : Delays true offset (rest c)) : Outlasts strict offset (rest c) := by
  cases hr : rest c with
  | ok a c' => exact Nat.le_trans hle (hf hr)
  | error failure c' =>
    cases failure with
    | expected label offset => trivial
    | tooDeep further =>
      have hlt := (hd further c' hr).2 rfl
      exact ⟨Nat.le_of_lt hlt, fun _ => hlt⟩

/-- The second computation is the first with fewer levels left. A late one reads something before it can go too
deep. -/
structure Parse.Curbs (strict late : Bool) (V : α → β → Prop) (long : Parse α) (short : Parse β) : Prop
    extends long.Gives fun a => ∃ b, V a b where
  long_delays : ∀ c, Delays late c.offset (long c)
  short_delays : ∀ c, Delays late c.offset (short c)
  cutOff : ∀ c, CutOff strict V (long c) (short c)

namespace Parse
variable {γ δ : Type} {V : α → β → Prop} {W : γ → δ → Prop} {long : Parse α} {short : Parse β} {f : α → Parse γ}
  {g : β → Parse δ}

theorem Curbs.long_of_ok (h : Curbs strict late V long short) {c m : Cursor} {b : β} (hs : short c = .ok b m) :
    ∃ a, V a b ∧ long c = .ok a m := by
  have hc := h.cutOff c
  rw [hs] at hc
  generalize long c = run at hc
  cases hc with
  | ok hv => exact ⟨_, hv, rfl⟩

theorem Curbs.long_of_expected (h : Curbs strict late V long short) {c m : Cursor} {label : Label}
    {offset : Nat} (hs : short c = .error (.expected label offset) m) :
    long c = .error (.expected label offset) m := by
  have hc := h.cutOff c
  rw [hs] at hc
  generalize long c = run at hc
  cases hc with
  | expected => rfl

theorem Curbs.outlasts (h : Curbs strict late V long short) {c m : Cursor} {offset : Nat}
    (hs : short c = .error (.tooDeep offset) m) : Outlasts strict offset (long c) := by
  have hc := h.cutOff c
  rw [hs] at hc
  generalize long c = run at hc
  cases hc with
  | tooDeep h => exact h

/-- Nothing is lost where nothing has to be read. -/
theorem Curbs.weaken (h : Curbs strict true V long short) : Curbs strict late V long short :=
  ⟨h.toGives, fun c => (h.long_delays c).weaken (Nat.le_refl _), fun c => (h.short_delays c).weaken (Nat.le_refl _),
    h.cutOff⟩

/-- Two computations in a row. Where the second one is not late, the first must have got past
where it was cut off, and have read something if the whole is to be late. -/
theorem Curbs.bind_of (h : Curbs strict late V long short)
    (hf : ∀ {a b}, V a b → Curbs strict false W (f a) (g b))
    (hread : ∀ {c a b m}, V a b → long c = .ok a m → Curbs strict true W (f a) (g b) ∨
      (late → c.offset < m.offset) ∧
        ∀ offset c', short c = .error (.tooDeep offset) c' → offset < m.offset) :
    Curbs strict late W (long >>= f) (short >>= g) where
  toGives := h.toGives.bind fun _ ha => ha.elim fun _ hv => (hf hv).toGives
  long_delays c := by
    cases hl : long c with
    | error failure m =>
      rw [bind_of_error hl]
      exact (h.long_delays c).of_error hl
    | ok a m =>
      rw [bind_of_ok hl]
      obtain ⟨b, hv⟩ := h.result hl
      rcases hread hv hl with hlate | ⟨hlt, -⟩
      · exact (hlate.long_delays m).weaken (h.offset_le hl)
      · exact ((hf hv).long_delays m).behind (h.offset_le hl) hlt
  short_delays c := by
    cases hs : short c with
    | error failure m =>
      rw [bind_of_error hs]
      exact (h.short_delays c).of_error hs
    | ok b m =>
      rw [bind_of_ok hs]
      obtain ⟨a, hv, hl⟩ := h.long_of_ok hs
      rcases hread hv hl with hlate | ⟨hlt, -⟩
      · exact (hlate.short_delays m).weaken (h.offset_le hl)
      · exact ((hf hv).short_delays m).behind (h.offset_le hl) hlt
  cutOff c := by
    cases hs : short c with
    | ok b m =>
      obtain ⟨a, hv, hl⟩ := h.long_of_ok hs
      rw [bind_of_ok hs, bind_of_ok hl]
      exact (hf hv).cutOff m
    | error failure m =>
      rw [bind_of_error hs]
      cases failure with
      | expected label offset =>
        rw [bind_of_error (h.long_of_expected hs)]
        exact .expected label offset m
      | tooDeep offset =>
        refine .tooDeep ?_
        have hout := h.outlasts hs
        cases hl : long c with
        | error failure m' =>
          rw [bind_of_error hl]
          exact hout.of_error hl
        | ok a m' =>
          rw [hl] at hout
          rw [bind_of_ok hl]
          obtain ⟨b, hv⟩ := h.result hl
          refine Outlasts.rest (hf hv).offset_le hout ?_
          rcases hread hv hl with hlate | ⟨-, hlt⟩
          · exact (hlate.long_delays m').weaken hout
          · have hlt := hlt offset m hs
            exact ((hf hv).long_delays m').behind (Nat.le_of_lt hlt) fun _ => hlt

theorem Curbs.bind (h : Curbs strict late V long short) (hf : ∀ {a b}, V a b → Curbs strict true W (f a) (g b)) :
    Curbs strict late W (long >>= f) (short >>= g) :=
  h.bind_of (fun hv => (hf hv).weaken) fun hv _ => .inl (hf hv)

theorem Curbs.of_shallow {V : α → α → Prop} {p : Parse α} (hp : p.Shallow) (hf : p.Forward)
    (hV : ∀ {c a c'}, p c = .ok a c' → V a a) : Curbs strict true V p p where
  toGives := ⟨hf, fun ho => ⟨_, hV ho⟩⟩
  long_delays c offset c' ho := (hp _ _ _ ho).elim
  short_delays c offset c' ho := (hp _ _ _ ho).elim
  cutOff c := by
    cases ho : p c with
    | ok a m => exact .ok (hV ho) m
    | error failure m =>
      cases failure with
      | expected label offset => exact .expected label offset m
      | tooDeep offset => exact (hp _ _ _ ho).elim

theorem Curbs.pure {a : α} {b : β} (h : V a b) : Curbs strict true V (Pure.pure a) (Pure.pure b) where
  toGives := .pure ⟨b, h⟩
  long_delays _ _ _ ho := nomatch ho
  short_delays _ _ _ ho := nomatch ho
  cutOff c := .ok h c

theorem Curbs.failAt {label : Label} {offset : Nat} :
    Curbs strict true V (Parse.failAt label offset) (Parse.failAt label offset) where
  toGives := .failAt
  long_delays _ _ _ ho := nomatch ho
  short_delays _ _ _ ho := nomatch ho
  cutOff c := .expected label offset c

/-- What a computation gives beside itself. -/
theorem Curbs.self {V : α → α → Prop} {p : Parse α} (h : Curbs strict late V p p) {c m : Cursor} {a : α}
    (ho : p c = .ok a m) : V a a := by
  obtain ⟨b, hv, hl⟩ := h.long_of_ok ho
  obtain ⟨rfl, -⟩ := EStateM.Result.ok.inj (ho.symm.trans hl)
  exact hv

theorem Curbs.get_bind {f : Cursor → Parse γ} {g : Cursor → Parse δ} (h : ∀ c, Curbs strict late W (f c) (g c)) :
    Curbs strict late W (MonadState.get >>= f) (MonadState.get >>= g) where
  le {c} _ _ ho := (h c).le ho
  result {c} _ _ ho := (h c).result ho
  long_delays c := (h c).long_delays c
  short_delays c := (h c).short_delays c
  cutOff c := (h c).cutOff c

/-- A loop whose every step is late, or starts behind the offset where the one before was cut
off. -/
theorem Curbs.iterate_of {f : α → Rule α} {g : β → Rule β}
    (h : ∀ {a b}, V a b → Curbs strict false (Option.Rel V) (f a) (g b))
    (hread : ∀ {a b a' b' c m}, V a b → V a' b' → f a c = .ok (some a') m →
      Curbs strict true (Option.Rel V) (f a') (g b') ∨
        c.offset < m.offset ∧ ∀ offset c', g b c = .error (.tooDeep offset) c' → offset < m.offset)
    {a : α} {b : β} (hab : V a b) (ha : Curbs strict late (Option.Rel V) (f a) (g b)) :
    Curbs strict late V (iterate f a) (iterate g b) := by
  unfold iterate Parse.rest
  simp only [bind_assoc, pure_bind]
  refine .get_bind fun c => ?_
  induction c.rest generalizing a b late with
  | nil =>
    refine ha.bind fun hfound => ?_
    cases hfound with
    | none => exact .pure hab
    | some hv => exact .pure hv
  | cons _ fewer ih =>
    refine ha.bind_of (fun hfound => ?_) fun {c found found' m} hfound ho => ?_
    · cases hfound with
      | none => exact (Curbs.pure hab).weaken
      | some hv => exact ih hv (h hv)
    · cases hfound with
      | none => exact .inl (.pure hab)
      | some hv => exact (hread hab hv ho).imp (fun hb => ih hv hb) fun ⟨hlt, hcut⟩ => ⟨fun _ => hlt, hcut⟩

end Parse

/-- The second rule is the first with fewer levels left. -/
structure Rule.Curbs (strict late : Bool) (V : α → β → Prop) (long : Rule α) (short : Rule β) : Prop
    extends long.Gives fun a => ∃ b, V a b where
  run : Parse.Curbs strict late (Option.Rel V) long short

namespace Rule
variable {γ δ : Type} {V : α → β → Prop} {W : γ → δ → Prop} {long : Rule α} {short : Rule β}

/-- A rule of tokens alone. -/
theorem Curbs.of_shallow {V : α → α → Prop} {rule : Rule α} (hd : Parse.Shallow rule) (h : rule.Gives fun a => V a a) :
    Rule.Curbs strict true V rule rule := by
  refine ⟨⟨h.toSteady, fun ho => ⟨_, h.result ho⟩⟩, .of_shallow hd h.forward fun {c found c'} ho => ?_⟩
  cases found with
  | none => exact .none
  | some a => exact .some (h.result ho)

/-- What follows the match of a rule of tokens need not be late: the rule has read something. -/
theorem Curbs.bind_shallow {V : α → α → Prop} {rule : Rule α} {f : Option α → Parse γ} {g : Option α → Parse δ}
    (h : Rule.Curbs strict true V rule rule) (hd : Parse.Shallow rule) (hnone : Parse.Curbs strict true W (f none) (g none))
    (hf : ∀ {a b}, V a b → Parse.Curbs strict false W (f (some a)) (g (some b))) :
    Parse.Curbs strict true W (rule >>= f) (rule >>= g) := by
  refine h.run.bind_of (fun hfound => ?_) fun {c found found' m} hfound ho => ?_
  · cases hfound with
    | none => exact hnone.weaken
    | some hv => exact hf hv
  · cases hfound with
    | none => exact .inl hnone
    | some hv =>
      have hlt := Place.offset_lt (h.advances ho)
      exact .inr ⟨fun _ => hlt, fun offset c' hs => (hd _ _ _ hs).elim⟩

/-- Where a late rule declines it was not cut off either, so the alternatives after it need
not be late. -/
theorem Curbs.orElse_late {others : List (Rule α)} {others' : List (Rule β)} (h : Rule.Curbs strict true V long short)
    (ho : Parse.Curbs strict false (Option.Rel V) (firstOf others) (firstOf others')) :
    Parse.Curbs strict false (Option.Rel V) (firstOf (long :: others)) (firstOf (short :: others')) := by
  have hweak : Parse.Curbs strict false (Option.Rel V) long short := h.run.weaken
  refine hweak.bind_of (fun hfound => ?_) fun {c found found' m} hfound hr => ?_
  · cases hfound with
    | none => exact ho
    | some hv => exact (Parse.Curbs.pure (.some hv)).weaken
  · cases hfound with
    | some hv => exact .inl (.pure (.some hv))
    | none =>
      refine .inr ⟨nofun, fun offset c' hs => ?_⟩
      have hout := h.run.outlasts hs
      rw [hr] at hout
      have hle : offset ≤ m.offset := hout
      have hlt := (h.run.short_delays c offset c' hs).2 rfl
      rw [h.stays hr] at hle
      omega

/-- A rule that is tried only where a test does not hold. -/
theorem Curbs.guarded {t : Cursor → Bool} (h : Rule.Curbs strict late V long short) :
    Rule.Curbs strict late V (fun c => if t c then .ok none c else long c)
      (fun c => if t c then .ok none c else short c) := by
  have hgives := h.toGives.guarded (t := t)
  refine ⟨hgives, hgives.rel, fun c => ?_, fun c => ?_, fun c => ?_⟩
  · by_cases ht : t c
    · simp only [ht, if_true]
      exact fun _ _ ho => nomatch ho
    · simp only [ht]
      exact h.run.long_delays c
  · by_cases ht : t c
    · simp only [ht, if_true]
      exact fun _ _ ho => nomatch ho
    · simp only [ht]
      exact h.run.short_delays c
  · by_cases ht : t c
    · simp only [ht, if_true]
      exact .ok .none c
    · simp only [ht]
      exact h.run.cutOff c

end Rule

end LuaSyntax
