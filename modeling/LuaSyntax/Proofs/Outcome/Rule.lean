import LuaSyntax.Grammar.Chunk

/-! # Successful outcomes

A composite computation succeeds exactly when its parts do, one after the other. There is
one statement for each way of putting computations together, so that a grammar rule is
taken apart by rewriting.
-/
namespace LuaSyntax
variable {α β : Type} {c c' : Cursor}

namespace Parse

theorem bind_eq_ok {p : Parse α} {f : α → Parse β} {b : β} :
    (p >>= f) c = .ok b c' ↔ ∃ a m, p c = .ok a m ∧ f a m = .ok b c' := by
  change EStateM.bind p f c = _ ↔ _
  cases h : p c with
  | ok a m =>
    simp only [EStateM.bind, h, EStateM.Result.ok.injEq]
    exact ⟨fun h => ⟨a, m, ⟨rfl, rfl⟩, h⟩, fun ⟨_, _, ⟨ha, hm⟩, h⟩ => ha ▸ hm ▸ h⟩
  | error e m => simp [EStateM.bind, h]

theorem map_eq_ok {p : Parse α} {f : α → β} {b : β} :
    (f <$> p) c = .ok b c' ↔ ∃ a, p c = .ok a c' ∧ f a = b := by
  change EStateM.map f p c = _ ↔ _
  cases h : p c with
  | ok a m =>
    simp only [EStateM.map, h, EStateM.Result.ok.injEq]
    exact ⟨fun ⟨hb, hm⟩ => ⟨a, ⟨rfl, hm⟩, hb⟩, fun ⟨_, ⟨ha, hm⟩, hb⟩ => ⟨ha ▸ hb, hm⟩⟩
  | error e m => simp [EStateM.map, h]

theorem pure_eq_ok {a b : α} : (pure a : Parse α) c = .ok b c' ↔ a = b ∧ c = c' := by
  change EStateM.pure a c = _ ↔ _
  simp [EStateM.pure]

theorem get_eq_ok {m : Cursor} : (get : Parse Cursor) c = .ok m c' ↔ m = c ∧ c = c' := by
  change EStateM.Result.ok c c = _ ↔ _
  simp [eq_comm]

theorem set_eq_ok {m : Cursor} {u : PUnit} : (set m : Parse PUnit) c = .ok u c' ↔ m = c' := by
  change EStateM.Result.ok PUnit.unit m = _ ↔ _
  simp

theorem modify_eq_ok {f : Cursor → Cursor} {u : PUnit} :
    (modify f : Parse PUnit) c = .ok u c' ↔ c' = f c := by
  change EStateM.Result.ok PUnit.unit (f c) = _ ↔ _
  simp [eq_comm]

theorem throw_ne_ok {failure : Failure} {a : α} : ¬ (throw failure : Parse α) c = .ok a c' := by
  change ¬ EStateM.Result.error failure c = _
  simp

theorem failAt_ne_ok {label : Label} {offset : Nat} {a : α} :
    ¬ (failAt label offset : Parse α) c = .ok a c' := throw_ne_ok

theorem fail_ne_ok {label : Label} {a : α} : ¬ (fail label : Parse α) c = .ok a c' := by
  rw [fail, bind_eq_ok]
  rintro ⟨_, _, _, h⟩
  exact failAt_ne_ok h

theorem expect_eq_ok {rule : Rule α} {label : Label} {a : α} :
    expect rule label c = .ok a c' ↔ rule c = .ok (some a) c' := by
  rw [expect, bind_eq_ok]
  constructor
  · rintro ⟨_ | b, m, h, hb⟩
    · exact (fail_ne_ok hb).elim
    · obtain ⟨rfl, rfl⟩ := pure_eq_ok.mp hb
      exact h
  · exact fun h => ⟨some a, c', h, pure_eq_ok.mpr ⟨rfl, rfl⟩⟩

theorem nodeFrom_eq_ok {first : Span} {form : Form Node} {node : Node} :
    nodeFrom first form c = .ok node c' ↔ node = ⟨form, first.pos, c.lastEnd⟩ ∧ c = c' := by
  simp only [nodeFrom, bind_eq_ok, get_eq_ok, pure_eq_ok]
  constructor
  · rintro ⟨_, _, ⟨rfl, rfl⟩, rfl, rfl⟩
    exact ⟨rfl, rfl⟩
  · rintro ⟨rfl, rfl⟩
    exact ⟨_, _, ⟨rfl, rfl⟩, rfl, rfl⟩

end Parse

namespace Rule
open Parse

theorem andThen_eq_some {rule : Rule α} {f : α → Parse β} {b : β} :
    rule.andThen f c = .ok (some b) c' ↔ ∃ a m, rule c = .ok (some a) m ∧ f a m = .ok b c' := by
  rw [andThen, bind_eq_ok]
  constructor
  · rintro ⟨_ | a, m, h, hb⟩
    · simp [pure_eq_ok] at hb
    · simp only [bind_eq_ok, pure_eq_ok, Option.some.injEq] at hb
      obtain ⟨_, _, hb, rfl, rfl⟩ := hb
      exact ⟨a, m, h, hb⟩
  · rintro ⟨a, m, h, hb⟩
    exact ⟨some a, m, h, bind_eq_ok.mpr ⟨b, c', hb, pure_eq_ok.mpr ⟨rfl, rfl⟩⟩⟩

theorem andThen_eq_none {rule : Rule α} {f : α → Parse β} :
    rule.andThen f c = .ok none c' ↔ rule c = .ok none c' := by
  rw [andThen, bind_eq_ok]
  constructor
  · rintro ⟨_ | a, m, h, hb⟩
    · obtain ⟨-, rfl⟩ := pure_eq_ok.mp hb
      exact h
    · simp only [bind_eq_ok, pure_eq_ok, reduceCtorEq, false_and, and_false, exists_false] at hb
  · exact fun h => ⟨none, c', h, pure_eq_ok.mpr ⟨rfl, rfl⟩⟩

theorem map_eq_some {rule : Rule α} {f : α → β} {b : β} :
    rule.map f c = .ok (some b) c' ↔ ∃ a, rule c = .ok (some a) c' ∧ f a = b := by
  simp only [map, andThen_eq_some, pure_eq_ok]
  constructor
  · rintro ⟨a, m, h, rfl, rfl⟩
    exact ⟨a, h, rfl⟩
  · rintro ⟨a, h, rfl⟩
    exact ⟨a, c', h, rfl, rfl⟩

theorem map_eq_none {rule : Rule α} {f : α → β} :
    rule.map f c = .ok none c' ↔ rule c = .ok none c' := andThen_eq_none

theorem firstOf_nil_ne_some {a : α} : ¬ firstOf ([] : List (Rule α)) c = .ok (some a) c' := by
  simp [firstOf, pure_eq_ok]

theorem firstOf_nil_eq_none : firstOf ([] : List (Rule α)) c = .ok none c' ↔ c = c' := by
  simp [firstOf, pure_eq_ok]

theorem firstOf_cons_eq_some {rule : Rule α} {others : List (Rule α)} {a : α} :
    firstOf (rule :: others) c = .ok (some a) c' ↔
      rule c = .ok (some a) c' ∨ ∃ m, rule c = .ok none m ∧ firstOf others m = .ok (some a) c' := by
  rw [firstOf, bind_eq_ok]
  constructor
  · rintro ⟨_ | b, m, h, hb⟩
    · exact .inr ⟨m, h, hb⟩
    · obtain ⟨hba, rfl⟩ := pure_eq_ok.mp hb
      exact .inl (hba ▸ h)
  · rintro (h | ⟨m, h, hb⟩)
    · exact ⟨some a, c', h, pure_eq_ok.mpr ⟨rfl, rfl⟩⟩
    · exact ⟨none, m, h, hb⟩

theorem firstOf_cons_eq_none {rule : Rule α} {others : List (Rule α)} :
    firstOf (rule :: others) c = .ok none c' ↔
      ∃ m, rule c = .ok none m ∧ firstOf others m = .ok none c' := by
  rw [firstOf, bind_eq_ok]
  constructor
  · rintro ⟨_ | b, m, h, hb⟩
    · exact ⟨m, h, hb⟩
    · simp [pure_eq_ok] at hb
  · rintro ⟨m, h, hb⟩
    exact ⟨none, m, h, hb⟩

theorem both_eq_some {first : Rule α} {second : Rule β} {a : α} {b : β} :
    both first second c = .ok (some (a, b)) c' ↔
      ∃ m, first c = .ok (some a) m ∧ second m = .ok (some b) c' := by
  simp only [both, bind_eq_ok, get_eq_ok]
  constructor
  · rintro ⟨_, _, ⟨rfl, rfl⟩, _ | a, m, h, hb⟩
    · simp [pure_eq_ok] at hb
    · simp only [bind_eq_ok] at hb
      obtain ⟨_ | b, m', hb, he⟩ := hb
      · simp only [bind_eq_ok, pure_eq_ok, reduceCtorEq, false_and, and_false, exists_false] at he
      · simp only [pure_eq_ok, Option.some.injEq, Prod.mk.injEq] at he
        obtain ⟨⟨rfl, rfl⟩, rfl⟩ := he
        exact ⟨m, h, hb⟩
  · rintro ⟨m, h, hb⟩
    refine ⟨c, c, ⟨rfl, rfl⟩, some a, m, h, ?_⟩
    exact bind_eq_ok.mpr ⟨some b, c', hb, pure_eq_ok.mpr ⟨rfl, rfl⟩⟩

theorem both_eq_none {first : Rule α} {second : Rule β} :
    both first second c = .ok none c' ↔
      first c = .ok none c' ∨
        c = c' ∧ ∃ a m m', first c = .ok (some a) m ∧ second m = .ok none m' := by
  simp only [both, bind_eq_ok, get_eq_ok]
  constructor
  · rintro ⟨_, _, ⟨rfl, rfl⟩, _ | a, m, h, hb⟩
    · obtain ⟨-, rfl⟩ := pure_eq_ok.mp hb
      exact .inl h
    · simp only [bind_eq_ok] at hb
      obtain ⟨_ | b, m', hb, he⟩ := hb
      · simp only [bind_eq_ok, set_eq_ok, pure_eq_ok] at he
        obtain ⟨_, _, rfl, -, rfl⟩ := he
        exact .inr ⟨rfl, a, m, m', h, hb⟩
      · simp [pure_eq_ok] at he
  · rintro (h | ⟨rfl, a, m, m', h, hb⟩)
    · exact ⟨c, c, ⟨rfl, rfl⟩, none, c', h, pure_eq_ok.mpr ⟨rfl, rfl⟩⟩
    · refine ⟨c, c, ⟨rfl, rfl⟩, some a, m, h, bind_eq_ok.mpr ⟨none, m', hb, ?_⟩⟩
      exact bind_eq_ok.mpr ⟨⟨⟩, c, set_eq_ok.mpr rfl, pure_eq_ok.mpr ⟨rfl, rfl⟩⟩

theorem token_eq_some {scan : Scan (Option α)} {a : α} {span : Span} :
    token scan c = .ok (some (a, span)) c' ↔
      ∃ place, scan c.toPlace = .ok (some a, place) ∧ span = ⟨c.offset + 1, place.offset⟩ ∧
        skipTrivia ⟨place, place.offset⟩ = .ok () c' := by
  simp only [token, bind_eq_ok, get_eq_ok]
  constructor
  · rintro ⟨m, _, ⟨rfl, rfl⟩, h⟩
    cases hs : scan m.toPlace with
    | error failure =>
      simp only [hs] at h
      exact (throw_ne_ok h).elim
    | ok result =>
      obtain ⟨_ | b, place⟩ := result
      · simp [hs, pure_eq_ok] at h
      · simp only [hs, bind_eq_ok, set_eq_ok, pure_eq_ok, Option.some.injEq, Prod.mk.injEq] at h
        obtain ⟨_, _, rfl, _, _, h, ⟨rfl, rfl⟩, rfl⟩ := h
        exact ⟨place, rfl, rfl, h⟩
  · rintro ⟨place, hs, rfl, h⟩
    refine ⟨_, _, ⟨rfl, rfl⟩, ?_⟩
    simp only [hs, bind_eq_ok, set_eq_ok, pure_eq_ok]
    exact ⟨⟨⟩, _, rfl, (), _, h, trivial, rfl⟩

theorem token_eq_none {scan : Scan (Option α)} :
    token scan c = .ok none c' ↔ (∃ place, scan c.toPlace = .ok (none, place)) ∧ c = c' := by
  simp only [token, bind_eq_ok, get_eq_ok]
  constructor
  · rintro ⟨m, _, ⟨rfl, rfl⟩, h⟩
    cases hs : scan m.toPlace with
    | error failure =>
      simp only [hs] at h
      exact (throw_ne_ok h).elim
    | ok result =>
      obtain ⟨_ | b, place⟩ := result
      · simp only [hs, pure_eq_ok] at h
        exact ⟨⟨place, rfl⟩, h.2⟩
      · simp only [hs, bind_eq_ok, pure_eq_ok, reduceCtorEq, false_and, and_false, exists_false] at h
  · rintro ⟨⟨place, hs⟩, rfl⟩
    refine ⟨_, _, ⟨rfl, rfl⟩, ?_⟩
    simp only [hs, pure_eq_ok]
    exact ⟨trivial, trivial⟩

theorem openBracket_eq_ok {value : Option Span} :
    openBracket c = .ok value c' ↔
      if (LongBracket.level? c.rest).isSome then value = none ∧ c = c'
      else symbol "[" c = .ok value c' := by
  unfold openBracket
  split <;> simp [eq_comm]

end Rule

end LuaSyntax
