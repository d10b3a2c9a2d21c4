import LuaSyntax.Proofs.Lexeme.Basic

/-! # Rules and phrases

A phrase relates a stream of lexemes to a value and to the stream left after it. A rule
follows a grammar of phrases when it matches exactly these, wherever the rest of the source
is cut into lexemes. Every way of putting rules together has its counterpart for phrases.
-/
namespace LuaSyntax
variable {α β : Type}

/-- What may be read from a stream, with its value and the stream left after it. -/
abbrev Phrase (α : Type) := Stream → α → Stream → Prop

/-- A computation succeeds exactly on the phrases of a grammar. -/
structure Parse.Follows (parse : Parse α) (phrase : Phrase α) : Prop where
  sound : ∀ {c a c' s'}, parse c = .ok a c' → Lexed c' s' → ∃ s, Lexed c s ∧ phrase s a s'
  complete : ∀ {c s a s'}, Lexed c s → phrase s a s' → ∃ c', parse c = .ok a c' ∧ Lexed c' s'

/-- A rule matches exactly the phrases of a grammar, and declines exactly where they are
absent. -/
structure Rule.Follows (rule : Rule α) (phrase : Phrase α) (absent : Stream → Prop) : Prop where
  sound : ∀ {c a c' s'}, rule c = .ok (some a) c' → Lexed c' s' → ∃ s, Lexed c s ∧ phrase s a s'
  complete : ∀ {c s a s'}, Lexed c s → phrase s a s' → ∃ c', rule c = .ok (some a) c' ∧ Lexed c' s'
  declines : ∀ {c s}, Lexed c s → (rule c = .ok none c ↔ absent s)

/-- A phrase that may be left out where it is absent. -/
def Optional (phrase : Phrase α) (absent : Stream → Prop) : Phrase (Option α)
  | s, some a, s' => phrase s a s'
  | s, none, s' => absent s ∧ s' = s

/-- Phrases one after the other. -/
inductive Sequence (phrase : Phrase α) : Phrase (List α)
  | nil {s : Stream} : Sequence phrase s [] s
  | cons {s m s' : Stream} {a : α} {others : List α} (h : phrase s a m)
      (ho : Sequence phrase m others s') : Sequence phrase s (a :: others) s'

namespace Parse
variable {p : Parse α} {f : α → Parse β} {P P' : Phrase α} {Q : α → Phrase β}

theorem Follows.congr (h : p.Follows P) (hp : ∀ s a s', P s a s' ↔ P' s a s') : p.Follows P' where
  sound ho hl := by
    obtain ⟨s, hs, ha⟩ := h.sound ho hl
    exact ⟨s, hs, (hp _ _ _).mp ha⟩
  complete hl ha := h.complete hl ((hp _ _ _).mpr ha)

theorem Follows.bind (h : p.Follows P) (hf : ∀ a, (f a).Follows (Q a)) :
    (p >>= f).Follows fun s b s' => ∃ a m, P s a m ∧ Q a m b s' where
  sound ho hl := by
    obtain ⟨a, m, ho, ho'⟩ := bind_eq_ok.mp ho
    obtain ⟨sm, hm, hb⟩ := (hf a).sound ho' hl
    obtain ⟨s, hs, ha⟩ := h.sound ho hm
    exact ⟨s, hs, a, sm, ha, hb⟩
  complete := by
    rintro c s b s' hl ⟨a, m, ha, hb⟩
    obtain ⟨cm, ho, hm⟩ := h.complete hl ha
    obtain ⟨c', ho', hl'⟩ := (hf a).complete hm hb
    exact ⟨c', bind_eq_ok.mpr ⟨a, cm, ho, ho'⟩, hl'⟩

theorem Follows.pure (a : α) : (Pure.pure a : Parse α).Follows fun s b s' => b = a ∧ s' = s where
  sound {c b c' s'} ho hl := by
    obtain ⟨rfl, rfl⟩ := pure_eq_ok.mp ho
    exact ⟨s', hl, rfl, rfl⟩
  complete := by
    rintro c s b s' hl ⟨rfl, rfl⟩
    exact ⟨c, pure_eq_ok.mpr ⟨rfl, rfl⟩, hl⟩

theorem Follows.nodeFrom (first : Span) (form : Form Node) :
    (Parse.nodeFrom first form).Follows fun s v s' => v = ⟨form, first.pos, s.lastEnd⟩ ∧ s' = s where
  sound {c v c' s'} ho hl := by
    obtain ⟨rfl, rfl⟩ := nodeFrom_eq_ok.mp ho
    exact ⟨s', hl, by rw [hl.lastEnd], rfl⟩
  complete := by
    rintro c s v s' hl ⟨rfl, rfl⟩
    exact ⟨c, nodeFrom_eq_ok.mpr ⟨by rw [hl.lastEnd], rfl⟩, hl⟩

/-- The last step of a computation leaves the stream alone. -/
theorem Follows.return (h : p.Follows P) (g : α → β) :
    (p >>= fun a => Pure.pure (g a)).Follows fun s b s' => ∃ a, P s a s' ∧ b = g a :=
  (h.bind fun a => .pure (g a)).congr fun s b s' => by
    constructor
    · rintro ⟨a, m, ha, rfl, rfl⟩
      exact ⟨a, ha, rfl⟩
    · rintro ⟨a, ha, rfl⟩
      exact ⟨a, s', ha, rfl, rfl⟩

theorem Follows.node (h : p.Follows P) (first : Span) (form : α → Form Node) :
    (p >>= fun a => Parse.nodeFrom first (form a)).Follows fun s v s' =>
      ∃ a, P s a s' ∧ v = ⟨form a, first.pos, s'.lastEnd⟩ :=
  (h.bind fun a => .nodeFrom first (form a)).congr fun s b s' => by
    constructor
    · rintro ⟨a, m, ha, rfl, rfl⟩
      exact ⟨a, ha, rfl⟩
    · rintro ⟨a, ha, rfl⟩
      exact ⟨a, s', ha, rfl, rfl⟩

theorem Follows.map (h : p.Follows P) (g : α → β) :
    (g <$> p).Follows fun s b s' => ∃ a, P s a s' ∧ b = g a where
  sound ho hl := by
    obtain ⟨a, hok, rfl⟩ := map_eq_ok.mp ho
    obtain ⟨s, hs, ha⟩ := h.sound hok hl
    exact ⟨s, hs, a, ha, rfl⟩
  complete := by
    rintro c s b s' hl ⟨a, ha, rfl⟩
    obtain ⟨c', ho, hl'⟩ := h.complete hl ha
    exact ⟨c', map_eq_ok.mpr ⟨a, ho, rfl⟩, hl'⟩

theorem Follows.getBind {f : Cursor → Parse β} {Q : Nat → Phrase β}
    (hf : ∀ c : Cursor, (f c).Follows (Q c.offset)) :
    (MonadState.get >>= f).Follows fun s b s' => Q s.position s b s' where
  sound ho hl := by
    obtain ⟨c, m, hget, ho⟩ := bind_eq_ok.mp ho
    obtain ⟨rfl, rfl⟩ := get_eq_ok.mp hget
    obtain ⟨s, hs, hb⟩ := (hf _).sound ho hl
    exact ⟨s, hs, hs.position ▸ hb⟩
  complete {c s b s'} hl hb := by
    obtain ⟨c', ho, hl'⟩ := (hf c).complete hl (hl.position ▸ hb)
    exact ⟨c', bind_eq_ok.mpr ⟨c, c, get_eq_ok.mpr ⟨rfl, rfl⟩, ho⟩, hl'⟩

theorem Follows.ite {cond : Prop} [Decidable cond] {q : Parse α} {Q : Phrase α} (h : p.Follows P)
    (h' : q.Follows Q) :
    (if cond then p else q).Follows fun s a s' => cond ∧ P s a s' ∨ ¬ cond ∧ Q s a s' := by
  split
  · next hc => exact h.congr fun _ _ _ => by simp [hc]
  · next hc => exact h'.congr fun _ _ _ => by simp [hc]

theorem Follows.bindOptional {rule : Parse (Option α)} {absent : Stream → Prop} {f : Option α → Parse β}
    {R : Phrase β} (h : Follows rule (Optional P absent)) (hsome : ∀ a, (f (some a)).Follows (Q a))
    (hnone : (f none).Follows R) :
    (rule >>= f).Follows fun s b s' => (∃ a m, P s a m ∧ Q a m b s') ∨ absent s ∧ R s b s' where
  sound ho hl := by
    obtain ⟨found, m, ho, ho'⟩ := bind_eq_ok.mp ho
    cases found with
    | some a =>
      obtain ⟨sm, hm, hb⟩ := (hsome a).sound ho' hl
      obtain ⟨s, hs, ha⟩ := h.sound ho hm
      exact ⟨s, hs, .inl ⟨a, sm, ha, hb⟩⟩
    | none =>
      obtain ⟨sm, hm, hb⟩ := hnone.sound ho' hl
      obtain ⟨s, hs, ha, rfl⟩ := h.sound ho hm
      exact ⟨_, hs, .inr ⟨ha, hb⟩⟩
  complete := by
    rintro c s b s' hl (⟨a, m, ha, hb⟩ | ⟨ha, hb⟩)
    · obtain ⟨cm, ho, hm⟩ := h.complete (a := some a) hl ha
      obtain ⟨c', ho', hl'⟩ := (hsome a).complete hm hb
      exact ⟨c', bind_eq_ok.mpr ⟨some a, cm, ho, ho'⟩, hl'⟩
    · obtain ⟨cm, ho, hm⟩ := h.complete (a := none) hl ⟨ha, rfl⟩
      obtain ⟨c', ho', hl'⟩ := hnone.complete hm hb
      exact ⟨c', bind_eq_ok.mpr ⟨none, cm, ho, ho'⟩, hl'⟩

theorem Follows.failAt (label : Label) (offset : Nat) :
    (Parse.failAt label offset : Parse α).Follows fun _ _ _ => False where
  sound ho _ := (failAt_ne_ok ho).elim
  complete _ ha := ha.elim

end Parse

namespace Rule
variable {rule : Rule α} {f : α → Parse β} {P P' : Phrase α} {Q : α → Phrase β}
  {absent absent' : Stream → Prop}

theorem Follows.congr (h : rule.Follows P absent) (hp : ∀ s a s', P s a s' ↔ P' s a s')
    (ha : ∀ s, absent s ↔ absent' s) : rule.Follows P' absent' where
  sound ho hl := by
    obtain ⟨s, hs, ha⟩ := h.sound ho hl
    exact ⟨s, hs, (hp _ _ _).mp ha⟩
  complete hl ha := h.complete hl ((hp _ _ _).mpr ha)
  declines hl := (h.declines hl).trans (ha _)

theorem Follows.expect (h : rule.Follows P absent) (label : Label) :
    (Parse.expect rule label).Follows P where
  sound ho hl := h.sound (Parse.expect_eq_ok.mp ho) hl
  complete hl ha := by
    obtain ⟨c', ho, hl'⟩ := h.complete hl ha
    exact ⟨c', Parse.expect_eq_ok.mpr ho, hl'⟩

theorem Follows.optional (h : rule.Follows P absent) (hs : rule.Steady) :
    Parse.Follows rule (Optional P absent) where
  sound {c found c' s'} ho hl := by
    cases found with
    | some a => exact h.sound ho hl
    | none =>
      obtain rfl := hs.stays ho
      exact ⟨s', hl, (h.declines hl).mp ho, rfl⟩
  complete {c s found s'} hl ha := by
    cases found with
    | some a => exact h.complete hl ha
    | none =>
      obtain ⟨ha, rfl⟩ := ha
      exact ⟨c, (h.declines hl).mpr ha, hl⟩

theorem Follows.andThen (h : rule.Follows P absent) (hf : ∀ a, (f a).Follows (Q a)) :
    Rule.Follows (rule.andThen f) (fun s b s' => ∃ a m, P s a m ∧ Q a m b s') absent where
  sound ho hl := by
    obtain ⟨a, m, ho, ho'⟩ := andThen_eq_some.mp ho
    obtain ⟨sm, hm, hb⟩ := (hf a).sound ho' hl
    obtain ⟨s, hs, ha⟩ := h.sound ho hm
    exact ⟨s, hs, a, sm, ha, hb⟩
  complete := by
    rintro c s b s' hl ⟨a, m, ha, hb⟩
    obtain ⟨cm, ho, hm⟩ := h.complete hl ha
    obtain ⟨c', ho', hl'⟩ := (hf a).complete hm hb
    exact ⟨c', andThen_eq_some.mpr ⟨a, cm, ho, ho'⟩, hl'⟩
  declines hl := andThen_eq_none.trans (h.declines hl)

theorem Follows.map (h : rule.Follows P absent) (g : α → β) :
    Rule.Follows (rule.map g) (fun s b s' => ∃ a, P s a s' ∧ b = g a) absent :=
  (h.andThen fun a => .pure (g a)).congr (fun s b s' => by
    constructor
    · rintro ⟨a, m, ha, rfl, rfl⟩
      exact ⟨a, ha, rfl⟩
    · rintro ⟨a, ha, rfl⟩
      exact ⟨a, s', ha, rfl, rfl⟩) fun _ => Iff.rfl

theorem Follows.node (h : rule.Follows P absent) {first : α → Span} {form : α → Form Node} :
    Rule.Follows (rule.andThen fun a => Parse.nodeFrom (first a) (form a))
      (fun s v s' => ∃ a, P s a s' ∧ v = ⟨form a, (first a).pos, s'.lastEnd⟩) absent :=
  (h.andThen fun a => .nodeFrom (first a) (form a)).congr (fun s b s' => by
    constructor
    · rintro ⟨a, m, ha, rfl, rfl⟩
      exact ⟨a, ha, rfl⟩
    · rintro ⟨a, ha, rfl⟩
      exact ⟨a, s', ha, rfl, rfl⟩) fun _ => Iff.rfl

theorem Follows.unless {t : Cursor → Bool} {E : Stream → Prop} (h : rule.Follows P absent)
    (ht : ∀ {c s}, Lexed c s → (t c ↔ E s)) :
    Rule.Follows (fun cursor => if t cursor then .ok none cursor else rule cursor)
      (fun s a s' => ¬ E s ∧ P s a s') (fun s => E s ∨ absent s) where
  sound {c a c' s'} ho hl := by
    change (if t c then _ else _) = _ at ho
    split at ho
    · cases ho
    · next hc =>
      obtain ⟨s, hs, ha⟩ := h.sound ho hl
      exact ⟨s, hs, fun he => hc ((ht hs).mpr he), ha⟩
  complete := by
    rintro c s a s' hl ⟨hn, ha⟩
    obtain ⟨c', ho, hl'⟩ := h.complete hl ha
    exact ⟨c', (if_neg fun hc => hn ((ht hl).mp hc)).trans ho, hl'⟩
  declines {c s} hl := by
    rw [← ht hl, ← h.declines hl]
    split
    · next hc => simp [hc]
    · next hc => simp [hc]

theorem follows_firstOf_nil : Rule.Follows (firstOf ([] : List (Rule α))) (fun _ _ _ => False)
    fun _ => True where
  sound ho _ := (firstOf_nil_ne_some ho).elim
  complete _ ha := ha.elim
  declines _ := by rw [firstOf_nil_eq_none]; simp

theorem Follows.orElse {others : List (Rule α)} {Q : Phrase α} (h : rule.Follows P absent)
    (ho : Rule.Follows (firstOf others) Q absent') (hs : rule.Steady) :
    Rule.Follows (firstOf (rule :: others)) (fun s a s' => P s a s' ∨ absent s ∧ Q s a s')
      (fun s => absent s ∧ absent' s) where
  sound {c a c' s'} hok hl := by
    rcases firstOf_cons_eq_some.mp hok with hok | ⟨m, hok, hok'⟩
    · obtain ⟨s, hs, ha⟩ := h.sound hok hl
      exact ⟨s, hs, .inl ha⟩
    · obtain rfl := hs.stays hok
      obtain ⟨s, hs, ha⟩ := ho.sound hok' hl
      exact ⟨s, hs, .inr ⟨(h.declines hs).mp hok, ha⟩⟩
  complete := by
    rintro c s a s' hl (ha | ⟨hn, ha⟩)
    · obtain ⟨c', hok, hl'⟩ := h.complete hl ha
      exact ⟨c', firstOf_cons_eq_some.mpr (.inl hok), hl'⟩
    · obtain ⟨c', hok, hl'⟩ := ho.complete hl ha
      exact ⟨c', firstOf_cons_eq_some.mpr (.inr ⟨c, (h.declines hl).mpr hn, hok⟩), hl'⟩
  declines {c s} hl := by
    rw [firstOf_cons_eq_none, ← h.declines hl, ← ho.declines hl]
    constructor
    · rintro ⟨m, hok, hok'⟩
      obtain rfl := hs.stays hok
      exact ⟨hok, hok'⟩
    · rintro ⟨hok, hok'⟩
      exact ⟨c, hok, hok'⟩

/-- Alternatives of which the later ones stand only where the earlier one is absent. -/
theorem Follows.or {others : List (Rule α)} {Q : Phrase α} (h : rule.Follows P absent)
    (ho : Rule.Follows (firstOf others) Q absent') (hs : rule.Steady)
    (hx : ∀ {s a s'}, Q s a s' → absent s) :
    Rule.Follows (firstOf (rule :: others)) (fun s a s' => P s a s' ∨ Q s a s')
      (fun s => absent s ∧ absent' s) :=
  (h.orElse ho hs).congr
    (fun _ _ _ => or_congr_right ⟨And.right, fun ha => ⟨hx ha, ha⟩⟩) fun _ => Iff.rfl

theorem Follows.firstOf_singleton (h : rule.Follows P absent) (hs : rule.Steady) :
    Rule.Follows (firstOf [rule]) P absent :=
  (h.orElse follows_firstOf_nil hs).congr (fun _ _ _ => by simp) fun _ => by simp

/-- A computation that never declines, as a rule. -/
theorem follows_some {p : Parse α} (h : p.Follows P) :
    Rule.Follows (some <$> p : Parse (Option α)) P fun _ => False where
  sound {c a c' s'} ho hl := by
    obtain ⟨b, hok, hb⟩ := Parse.map_eq_ok.mp ho
    cases hb
    exact h.sound hok hl
  complete hl ha := by
    obtain ⟨c', ho, hl'⟩ := h.complete hl ha
    exact ⟨c', Parse.map_eq_ok.mpr ⟨_, ho, rfl⟩, hl'⟩
  declines _ := by simp [Parse.map_eq_ok]

/-- Two phrases in a row are absent where the first is, or the second after it. -/
theorem Follows.both {second : Rule β} {Q : Phrase β} (h : rule.Follows P absent)
    (h' : second.Follows Q absent') (hs : second.Steady) (hd : ∀ {c s}, Lexed c s → absent s ∨ ∃ a m, P s a m) :
    Rule.Follows (both rule second) (fun s v s' => ∃ m, P s v.1 m ∧ Q m v.2 s')
      (fun s => absent s ∨ ∃ a m, P s a m ∧ absent' m) where
  sound {c v c' s'} ho hl := by
    obtain ⟨a, b⟩ := v
    obtain ⟨m, ho, ho'⟩ := both_eq_some.mp ho
    obtain ⟨sm, hm, hb⟩ := h'.sound ho' hl
    obtain ⟨s, hs, ha⟩ := h.sound ho hm
    exact ⟨s, hs, sm, ha, hb⟩
  complete := by
    rintro c s ⟨a, b⟩ s' hl ⟨m, ha, hb⟩
    obtain ⟨cm, ho, hm⟩ := h.complete hl ha
    obtain ⟨c', ho', hl'⟩ := h'.complete hm hb
    exact ⟨c', both_eq_some.mpr ⟨cm, ho, ho'⟩, hl'⟩
  declines {c s} hl := by
    rw [both_eq_none, h.declines hl]
    constructor
    · rintro (ha | ⟨-, a, m, m', ho, ho'⟩)
      · exact .inl ha
      · rcases hd hl with ha | ⟨a', sm, ha⟩
        · exact .inl ha
        · obtain ⟨cm, ho'', hm⟩ := h.complete hl ha
          rw [ho] at ho''
          cases ho''
          obtain rfl := hs.stays ho'
          exact .inr ⟨_, sm, ha, (h'.declines hm).mp ho'⟩
    · rintro (ha | ⟨a, m, ha, hn⟩)
      · exact .inl ha
      · obtain ⟨cm, ho, hm⟩ := h.complete hl ha
        exact .inr ⟨rfl, a, cm, cm, ho, (h'.declines hm).mpr hn⟩

end Rule

theorem Stream.next_append {s : Stream} {first second : List Kind} :
    s.Next (first ++ second) ↔ s.Next first ∨ s.Next second := by
  simp only [Next, List.mem_append]
  constructor
  · rintro ⟨token, hn, hk | hk⟩
    · exact .inl ⟨token, hn, hk⟩
    · exact .inr ⟨token, hn, hk⟩
  · rintro (⟨token, hn, hk⟩ | ⟨token, hn, hk⟩)
    · exact ⟨token, hn, .inl hk⟩
    · exact ⟨token, hn, .inr hk⟩

theorem Stream.Next.disjoint {s : Stream} {first second : List Kind} (h : s.Next first)
    (hd : ∀ kind ∈ first, kind ∉ second) : ¬ s.Next second := by
  obtain ⟨token, hn, hk⟩ := h
  rintro ⟨token', hn', hk'⟩
  rw [hn] at hn'
  cases hn'
  exact hd _ hk hk'

theorem Stream.Next.mono {s : Stream} {first second : List Kind} (h : s.Next first)
    (hs : ∀ kind ∈ first, kind ∈ second) : s.Next second := by
  obtain ⟨token, hn, hk⟩ := h
  exact ⟨token, hn, hs _ hk⟩

theorem Stream.Takes.opens {s s' : Stream} {token : Token} {span : Span} (h : s.Takes token span s') :
    s.Next [token.kind] := ⟨token, h.next, List.mem_singleton_self _⟩

/-- A rule whose phrases are told from the next token alone. -/
structure Rule.Predicts (rule : Rule α) (phrase : Phrase α) (first : List Kind) : Prop where
  follows : rule.Follows phrase fun s => ¬ s.Next first
  opens : ∀ {s a s'}, phrase s a s' → s.Next first
  steady : rule.Steady

namespace Rule
variable {rule : Rule α} {f : α → Parse β} {P P' : Phrase α} {Q : α → Phrase β} {first first' : List Kind}

theorem Predicts.congr (h : rule.Predicts P first) (hp : ∀ s a s', P s a s' ↔ P' s a s') :
    rule.Predicts P' first :=
  ⟨h.follows.congr hp fun _ => Iff.rfl, fun ha => h.opens ((hp _ _ _).mpr ha), h.steady⟩

theorem Predicts.andThen (h : rule.Predicts P first) (hf : ∀ a, (f a).Follows (Q a))
    (hs : Steady (rule.andThen f)) :
    Rule.Predicts (rule.andThen f) (fun s b s' => ∃ a m, P s a m ∧ Q a m b s') first where
  follows := h.follows.andThen hf
  opens := by
    rintro s b s' ⟨a, m, ha, -⟩
    exact h.opens ha
  steady := hs

theorem Predicts.map (h : rule.Predicts P first) (g : α → β) :
    Rule.Predicts (rule.map g) (fun s b s' => ∃ a, P s a s' ∧ b = g a) first where
  follows := h.follows.map g
  opens := by
    rintro s b s' ⟨a, ha, -⟩
    exact h.opens ha
  steady := h.steady.map g

theorem Predicts.optional (h : rule.Predicts P first) :
    Parse.Follows rule (Optional P (¬ ·.Next first)) := h.follows.optional h.steady

theorem Predicts.expect (h : rule.Predicts P first) (label : Label) :
    (Parse.expect rule label).Follows P := h.follows.expect label

theorem Predicts.firstOf_singleton (h : rule.Predicts P first) : Rule.Predicts (firstOf [rule]) P first where
  follows := h.follows.firstOf_singleton h.steady
  opens := h.opens
  steady := (h.steady.gives.orElse .declines).toSteady

/-- Alternatives that begin with different tokens. -/
theorem Predicts.firstOf_cons {others : List (Rule α)} {Q : Phrase α} (h : rule.Predicts P first)
    (ho : Rule.Predicts (firstOf others) Q first') (hd : ∀ kind ∈ first', kind ∉ first) :
    Rule.Predicts (firstOf (rule :: others)) (fun s a s' => P s a s' ∨ Q s a s') (first ++ first') where
  follows := (h.follows.or ho.follows h.steady fun ha => (ho.opens ha).disjoint hd).congr
    (fun _ _ _ => Iff.rfl) fun s => by rw [Stream.next_append, not_or]
  opens ha := Stream.next_append.mpr (ha.imp h.opens ho.opens)
  steady := (h.steady.gives.orElse ho.steady.gives).toSteady

end Rule

section Repetition
variable {rule : α → Rule α} {step : α → Phrase α} {A : α → Stream → Prop}

theorem sound_steps {x z : α} {c c' : Cursor} {s' : Stream}
    (h : ∀ x, (rule x).Follows (step x) (A x)) (hs : Steps (Parse.Next rule) x c z c')
    (hl : Lexed c' s') : ∃ s, Lexed c s ∧ Steps (fun x s y s' => step x s y s') x s z s' := by
  induction hs with
  | refl => exact ⟨s', hl, .refl⟩
  | cons hnext _ ih =>
    obtain ⟨m, hm, hsteps⟩ := ih hl
    obtain ⟨s, hs, hy⟩ := (h _).sound hnext hm
    exact ⟨s, hs, .cons hy hsteps⟩

theorem complete_steps {x z : α} {c : Cursor} {s s' : Stream}
    (h : ∀ x, (rule x).Follows (step x) (A x)) (hl : Lexed c s)
    (hs : Steps (fun x s y s' => step x s y s') x s z s') :
    ∃ c', Steps (Parse.Next rule) x c z c' ∧ Lexed c' s' := by
  induction hs generalizing c with
  | refl => exact ⟨c, .refl, hl⟩
  | cons hy _ ih =>
    obtain ⟨m, hnext, hm⟩ := (h _).complete hl hy
    obtain ⟨c', hsteps, hl'⟩ := ih hm
    exact ⟨c', .cons hnext hsteps, hl'⟩

theorem Parse.Follows.iterate (h : ∀ x, (rule x).Follows (step x) (A x))
    (hs : ∀ x, (rule x).Steady) (x : α) :
    (Parse.iterate rule x).Follows fun s z s' =>
      Steps (fun x s y s' => step x s y s') x s z s' ∧ A z s' where
  sound ho hl := by
    obtain ⟨hsteps, hend⟩ := (iterate_eq_ok hs).mp ho
    obtain ⟨s, hl', hsteps'⟩ := sound_steps h hsteps hl
    exact ⟨s, hl', hsteps', ((h _).declines hl).mp hend⟩
  complete := by
    rintro c s z s' hl ⟨hsteps, hend⟩
    obtain ⟨c', hsteps', hl'⟩ := complete_steps h hl hsteps
    exact ⟨c', (iterate_eq_ok hs).mpr ⟨hsteps', ((h _).declines hl').mpr hend⟩, hl'⟩

end Repetition

section Lists
variable {item : Phrase α} {absent : Stream → Prop} {rule : List α → Rule (List α)}

theorem steps_cons_iff {listed z : List α} {s s' : Stream} :
    Steps (fun listed s next s' => ∃ a, item s a s' ∧ next = a :: listed) listed s z s' ↔
      ∃ others, Sequence item s others s' ∧ z = others.reverse ++ listed := by
  constructor
  · intro h
    induction h with
    | refl => exact ⟨[], .nil, rfl⟩
    | cons hnext _ ih =>
      obtain ⟨a, ha, rfl⟩ := hnext
      obtain ⟨others, ho, rfl⟩ := ih
      exact ⟨a :: others, .cons ha ho, by simp⟩
  · rintro ⟨others, ho, rfl⟩
    induction ho generalizing listed with
    | nil => exact .refl
    | cons ha _ ih => exact .cons ⟨_, ha, rfl⟩ (by simpa using ih)

/-- A loop that puts one item after the other in front of those listed so far. -/
theorem Parse.Follows.iterateList
    (h : ∀ listed, (rule listed).Follows (fun s next s' => ∃ a, item s a s' ∧ next = a :: listed) absent)
    (hs : ∀ listed, (rule listed).Steady) (listed : List α) :
    (Parse.iterate rule listed).Follows fun s z s' =>
      ∃ others, (Sequence item s others s' ∧ absent s') ∧ z = others.reverse ++ listed :=
  (Follows.iterate (A := fun _ => absent) h hs listed).congr fun s z s' => by
    rw [steps_cons_iff]
    constructor
    · rintro ⟨⟨others, ho, rfl⟩, ha⟩
      exact ⟨others, ⟨ho, ha⟩, rfl⟩
    · rintro ⟨others, ⟨ho, ha⟩, rfl⟩
      exact ⟨⟨others, ho, rfl⟩, ha⟩

end Lists

end LuaSyntax
