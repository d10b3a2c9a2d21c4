import LuaSyntax.Proofs.Shift.Scan
import LuaSyntax.Proofs.Congruence.Basic

/-! # Rules in a larger source

A computation does the same in a larger source, and what it builds is moved by the bytes that come
before. It does so where it leaves something of the source behind it, or nothing comes after the
source, in which case it fails there as it does in the source alone. Every way of putting
computations together keeps this.
-/
namespace LuaSyntax
variable {α β γ δ : Type} {x : Shift}

namespace Shift
variable (x : Shift)

theorem node_mk (form : Form Node) (span : Span) : x.node ⟨form, span⟩ = ⟨form.map x.node, x.span span⟩ :=
  Node.respan_mk x.span form span

theorem node_span (v : Node) : (x.node v).span = x.span v.span := Node.respan_span x.span v

theorem node_tag (v : Node) : (x.node v).tag = v.tag := by
  obtain ⟨form, span⟩ := v
  rw [node_mk]
  cases form <;> rfl

end Shift

/-- Trees, positions and cursors in a source, and those in the larger one. -/
abbrev Likeness.shifts (x : Shift) : Likeness where
  node v w := x.node v = w
  number _ := True
  pos p q := q = p + x.ahead
  start p q := q = p + x.ahead ∧ 0 < p
  cursor c d := x.cursor c = d
  node_mk {form form' span span'} hf hp he := by
    have hspan : x.span span = span' := congr (congrArg Span.mk hp.symm) he.symm
    rw [x.node_mk, hf.map_eq id, hspan]
  tag {v v'} hv := hv ▸ (x.node_tag v).symm
  node_pos {v v'} hv := hv ▸ congrArg Span.pos (x.node_span v)
  node_endPos {v v'} hv := hv ▸ congrArg Span.endPos (x.node_span v)
  pos_of_start hp := hp.1
  cursor_start {c c'} hc := hc ▸ ⟨Nat.add_right_comm _ _ _, Nat.succ_pos _⟩
  cursor_lastEnd hc := hc ▸ rfl

theorem Place.suffix_of_le {p p' : Place} (h : p ≤ p') : p'.rest <:+ p.rest := by
  obtain ⟨bytes, hp⟩ := h
  exact ⟨bytes, hp.rest.symm⟩

/-- A computation becomes another one in the larger source, with results that correspond. -/
structure Parse.Shifts (x : Shift) (V : α → β → Prop) (p : Parse α) (p' : Parse β) : Prop
    extends p.Gives fun a => ∃ b, V a b where
  ok : ∀ {c a c'}, p c = .ok a c' → c.rest <:+ x.whole → x.Leaves c'.rest →
    ∃ b, V a b ∧ p' (x.cursor c) = .ok b (x.cursor c')
  error : x.tail = [] → ∀ {c e c'}, p c = .error e c' → c.rest <:+ x.whole →
    p' (x.cursor c) = .error (x.failure e) (x.cursor c')

/-- A rule becomes another one in the larger source, and makes progress. -/
structure Rule.Shifts (x : Shift) (V : α → β → Prop) (r : Rule α) (r' : Rule β) : Prop
    extends r.Gives fun a => ∃ b, V a b where
  run : Parse.Shifts x (Option.Rel V) r r'

namespace Parse
variable {V : α → β → Prop} {W : γ → δ → Prop} {p : Parse α} {p' : Parse β} {q : α → Parse γ} {q' : β → Parse δ}

theorem Shifts.bind (h : Shifts x V p p') (hq : ∀ {a b}, V a b → Shifts x W (q a) (q' b)) :
    Shifts x W (p >>= q) (p' >>= q') where
  toGives := h.toGives.bind fun _ ha => ha.elim fun _ hv => (hq hv).toGives
  ok ho hp hl := by
    obtain ⟨a, m, ho, ho'⟩ := bind_eq_ok.mp ho
    obtain ⟨_, hv⟩ := h.result ho
    have hm := (Place.suffix_of_le (h.le ho)).trans hp
    obtain ⟨b, hv, hb⟩ := h.ok ho hp (hl.before ((hq hv).le ho') hm)
    obtain ⟨d, hw, hd⟩ := (hq hv).ok ho' hm hl
    exact ⟨d, hw, bind_eq_ok.mpr ⟨b, x.cursor m, hb, hd⟩⟩
  error ht := by
    intro c e c' ho hp
    rcases bind_eq_error.mp ho with ho | ⟨a, m, ho, ho'⟩
    · exact bind_eq_error.mpr (.inl (h.error ht ho hp))
    · have hm := (Place.suffix_of_le (h.le ho)).trans hp
      obtain ⟨b, hv, hb⟩ := h.ok ho hp ⟨hm, .inl ht⟩
      exact bind_eq_error.mpr (.inr ⟨b, x.cursor m, hb, (hq hv).error ht ho' hm⟩)

theorem Shifts.pure {a : α} {b : β} (h : V a b) : Shifts x V (Pure.pure a) (Pure.pure b) where
  toGives := .pure ⟨b, h⟩
  ok ho _ _ := by
    obtain ⟨rfl, rfl⟩ := pure_eq_ok.mp ho
    exact ⟨b, h, rfl⟩
  error _ _ _ _ ho _ := nomatch ho

theorem Shifts.get : Shifts x (Likeness.shifts x).cursor MonadState.get MonadState.get where
  toGives := .get fun c => ⟨x.cursor c, rfl⟩
  ok {c a c'} ho _ _ := by
    obtain ⟨rfl, rfl⟩ := get_eq_ok.mp ho
    exact ⟨_, rfl, rfl⟩
  error _ _ _ _ ho _ := nomatch ho

theorem Shifts.failAt {label : Label} {offset offset' : Nat} (ho : offset' = offset + x.ahead) :
    Shifts x V (failAt label offset) (failAt label offset') where
  toGives := .failAt
  ok h := (failAt_ne_ok h).elim
  error _ _ _ _ h _ := by
    obtain ⟨rfl, rfl⟩ := EStateM.Result.error.inj h
    subst ho
    rfl

end Parse

/-- A rule that is tried only where a test does not hold, which comes out alike in the larger source. -/
theorem Rule.Shifts.guarded {V : α → β → Prop} {r : Rule α} {r' : Rule β} (h : Rule.Shifts x V r r') {test : Bytes → Bool}
    (ht : ∀ {c : Cursor}, x.Leaves c.rest → test (x.cursor c).rest = test c.rest) :
    Rule.Shifts x V (fun c => if test c.rest then .ok none c else r c)
      (fun c => if test c.rest then .ok none c else r' c) := by
  have hgives := h.toGives.guarded (t := fun c => test c.rest)
  refine ⟨hgives, hgives.rel, fun {c found c'} ho hp hl => ?_, fun htail c e c' ho hp => ?_⟩
  · change (if test c.rest then _ else _) = _ at ho
    split at ho
    · next htest =>
      cases ho
      exact ⟨none, .none, if_pos ((ht hl).trans htest)⟩
    · next htest =>
      obtain ⟨b, hv, hb⟩ := h.run.ok ho hp hl
      have hsame := ht (hl.before (h.run.le ho) hp)
      exact ⟨b, hv, (if_neg (hsame ▸ htest)).trans hb⟩
  · change (if test c.rest then _ else _) = _ at ho
    split at ho
    · cases ho
    · next htest =>
      have hsame := ht (c := c) ⟨hp, .inl htail⟩
      exact (if_neg (hsame ▸ htest)).trans (h.run.error htail ho hp)

/-- What is known of the larger source while the source itself is read. -/
abbrev Sequencing.shifts (x : Shift) : Sequencing where
  toLikeness := .shifts x
  Runs _ _ _ V p q := Parse.Shifts x V p q
  weaken h := h
  pure hv := .pure hv
  bind h hf := h.bind hf
  get := .get
  failAt hp := .failAt (by
    obtain ⟨rfl, hpos⟩ := hp
    omega)

theorem Rule.Shifts.runs {V : α → β → Prop} {r : Rule α} {r' : Rule β} (h : Rule.Shifts x V r r') :
    (Sequencing.shifts x).Runs true (Option.Rel V) r r' := h.run

abbrev Combining.shifts (x : Shift) : Combining where
  toSequencing := .shifts x
  Rules _ _ _ V r s := Rule.Shifts x V r s
  weakenRule h := h
  run h := h.run
  declines := ⟨.declines, .pure .none⟩
  andThen h hf := ⟨h.toGives.andThen fun _ ha => ha.elim fun _ hv => (hf hv).toGives,
    (Sequencing.shifts x).runs_andThen (Rule.Shifts.runs h) hf⟩
  orElse h ho := ⟨h.toGives.orElse ho.toGives, (Sequencing.shifts x).runs_orElse (Rule.Shifts.runs h) ho.run⟩
  orElse_late h ho := ⟨h.toGives.orElse ho.toGives, (Sequencing.shifts x).runs_orElse (Rule.Shifts.runs h) ho.run⟩
  always h := ⟨h.toGives.always _, (Sequencing.shifts x).runs_always (Rule.Shifts.runs h)⟩

section Repetition
variable {V : α → β → Prop} {f : α → Rule α} {g : β → Rule β} {a z : α} {b : β} {c c' : Cursor}

open Parse

theorem shifts_steps (h : ∀ {a b}, V a b → Rule.Shifts x V (f a) (g b)) (hab : V a b) (hs : Steps (Next f) a c z c')
    (hp : c.rest <:+ x.whole) (hl : x.Leaves c'.rest) :
    c.toPlace ≤ c'.toPlace ∧ ∃ z', V z z' ∧ Steps (Next g) b (x.cursor c) z' (x.cursor c') := by
  induction hs generalizing b with
  | refl => exact ⟨Place.le_refl _, b, hab, .refl⟩
  | @cons a c a' m z c' hnext _ ih =>
    have hle := Place.le_of_lt ((h hab).advances hnext)
    have hm := (Place.suffix_of_le hle).trans hp
    obtain ⟨_, hv⟩ := (h hab).result hnext
    obtain ⟨hle', -⟩ := ih hv hm hl
    obtain ⟨found, hfound, hnext'⟩ := (h hab).run.ok hnext hp (hl.before hle' hm)
    cases hfound with
    | some hv =>
      obtain ⟨-, z', hz, hsteps⟩ := ih hv hm hl
      exact ⟨Place.le_trans hle hle', z', hz, .cons hnext' hsteps⟩

theorem shifts_within {ι : Type} (h : ∀ {a b}, V a b → Rule.Shifts x V (f a) (g b)) (bound : List ι) (hab : V a b) :
    Parse.Shifts x V (iterateWithin f bound a) (iterateWithin g bound b) :=
  iterateWithin_rel (R := fun V p q => Parse.Shifts x V p q) Shifts.bind Shifts.pure (fun hv => (h hv).run) bound hab

theorem iterateWithin_of_declines {ι : Type} (h : ∀ {a b}, V a b → Rule.Shifts x V (f a) (g b)) (bound : List ι)
    (hab : V a b) (ho : f a c = .ok none c') (hp : c.rest <:+ x.whole) (hl : x.Leaves c'.rest) :
    c' = c ∧ iterateWithin g bound b (x.cursor c) = .ok b (x.cursor c) := by
  obtain rfl := (h hab).stays ho
  obtain ⟨_, hfound, hg⟩ := (h hab).run.ok ho hp hl
  refine ⟨rfl, ?_⟩
  cases hfound with
  | none => cases bound <;> exact bind_of_ok hg

/-- The bounds of the two loops may differ, because neither is reached. -/
theorem iterateWithin_shifted {ι κ : Type} (h : ∀ {a b}, V a b → Rule.Shifts x V (f a) (g b)) {bound : List ι}
    {bound' : List κ} (hab : V a b) (hc : c.rest.length ≤ bound.length) (hb : bound.length ≤ bound'.length)
    (ho : iterateWithin f bound a c = .ok z c') (hp : c.rest <:+ x.whole) (hl : x.Leaves c'.rest) :
    ∃ z', V z z' ∧ iterateWithin g bound' b (x.cursor c) = .ok z' (x.cursor c') := by
  induction bound generalizing a b c bound' with
  | nil =>
    obtain ⟨found, m, hf, hz⟩ := bind_eq_ok.mp ho
    obtain ⟨rfl, rfl⟩ := pure_eq_ok.mp hz
    cases found with
    | none =>
      obtain ⟨rfl, hg⟩ := iterateWithin_of_declines h bound' hab hf hp hl
      exact ⟨b, hab, hg⟩
    | some a' =>
      have hlt := Place.length_lt ((h hab).advances hf)
      exact (Nat.not_lt_of_le hc (Nat.lt_of_le_of_lt (Nat.zero_le _) hlt)).elim
  | cons _ fewer ih =>
    obtain ⟨found, m, hf, hz⟩ := bind_eq_ok.mp ho
    cases found with
    | none =>
      obtain ⟨rfl, rfl⟩ := pure_eq_ok.mp hz
      obtain ⟨rfl, hg⟩ := iterateWithin_of_declines h bound' hab hf hp hl
      exact ⟨b, hab, hg⟩
    | some a' =>
      have hlt := (h hab).advances hf
      obtain ⟨_, hv⟩ := (h hab).result hf
      have hm := (Place.suffix_of_le (Place.le_of_lt hlt)).trans hp
      have hshorter := Place.length_lt hlt
      obtain ⟨_, hfound, hg⟩ := (h hab).run.ok hf hp (hl.before ((shifts_within h fewer hv).le hz) hm)
      cases hfound with
      | some hv =>
        cases bound' with
        | nil => exact (Nat.not_succ_le_zero _ hb).elim
        | cons _ fewer' =>
          have hc : m.rest.length ≤ fewer.length := Nat.le_of_lt_succ (Nat.lt_of_lt_of_le hshorter hc)
          obtain ⟨z', hz', hloop⟩ := ih hv hc (Nat.le_of_succ_le_succ hb) hz hm
          exact ⟨z', hz', bind_eq_ok.mpr ⟨_, _, hg, hloop⟩⟩

theorem Parse.Shifts.iterate (h : ∀ {a b}, V a b → Rule.Shifts x V (f a) (g b)) (hab : V a b) :
    Parse.Shifts x V (iterate f a) (iterate g b) where
  le {c} _ _ ho := (shifts_within h c.rest hab).le ho
  result {c} _ _ ho := (shifts_within h c.rest hab).result ho
  ok {c} _ _ ho hp hl := by
    have hlength : c.rest.length ≤ (x.cursor c).rest.length := by
      rw [Shift.cursor, Shift.place, List.length_append]
      exact Nat.le_add_right _ _
    exact iterateWithin_shifted h hab (Nat.le_refl _) hlength ho hp hl
  error ht := by
    intro c e c' ho hp
    have hrest : (x.cursor c).rest = c.rest := Shift.place_rest ht
    have herror := (shifts_within h c.rest hab).error ht ho hp
    rw [← hrest] at herror
    exact herror

end Repetition

end LuaSyntax
