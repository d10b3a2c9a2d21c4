import LuaSyntax.Proofs.Viable.Ahead
import LuaSyntax.Proofs.Viable.Item
import LuaSyntax.Proofs.Viable.Text
import LuaSyntax.Proofs.Outcome.Failure
import LuaSyntax.Proofs.Loop

/-! # Rules that go on otherwise

A rule reads a source up to where it succeeds or fails. In another source that has the same tokens up to
there, and that goes on as expected or is completed with what the failure asks for and with some words, a
rule of at least as many nesting levels succeeds. Failures are followed only where there are more levels,
which leaves room for the words. Every way of putting rules together keeps to this.
-/
namespace LuaSyntax

open Rule Parse

section Relations
variable {c m c' : Cursor} {start mid stop start' stop' : Ahead} {T T' T'' : Stream → Stream → Prop}
  {label : Label} {offset : Nat}

/-- Whatever comes next as expected after the tokens between two cursors, the tokens come as expected
before it, and lead there in some way. -/
def Cursor.Carried (c c' : Cursor) (start stop : Ahead) (T : Stream → Stream → Prop) : Prop :=
  ∃ tokens, c.Cuts tokens c' ∧ ∀ s s', s.Spells tokens s' → stop.Sees c' s' → start.Sees c s ∧ T s s'

/-- Some words lead in some way to what is expected in the end. -/
def Ahead.Closed (start stop : Ahead) (T : Stream → Stream → Prop) : Prop :=
  ∃ word : List Token, (∀ token ∈ word, token.Written) ∧
    ∀ s s', s.Spells word s' → stop.Ends s' → start.Ends s ∧ T s s'

/-- The tokens from a cursor to an offset, with what a label asks for there and with some words, lead in
some way to what is expected in the end. -/
def Cursor.Completed (c : Cursor) (label : Label) (offset : Nat) (start stop : Ahead)
    (T : Stream → Stream → Prop) : Prop :=
  label.Served fun item => ∃ tokens word, c.Breaks offset item tokens ∧ (∀ token ∈ word, token.Written) ∧
    ∀ s s', s.Spells (tokens ++ word) s' → stop.Ends s' → start.Sees c s ∧ T s s'

/-- What some tokens lead to and what others lead to from there, one after the other. -/
theorem leads_append {first others : List Token} {P M Q : Stream → Prop} (h : ∀ s t, s.Spells first t → M t → P s ∧ T s t)
    (h' : ∀ t s', t.Spells others s' → Q s' → M t ∧ T' t s') :
    ∀ s s', s.Spells (first ++ others) s' → Q s' → P s ∧ ∃ t, T s t ∧ T' t s' := by
  intro s s' hs hstop
  obtain ⟨t, ht, ht'⟩ := Stream.spells_append.mp hs
  obtain ⟨hmid, hT'⟩ := h' t s' ht' hstop
  obtain ⟨hstart, hT⟩ := h s t ht hmid
  exact ⟨hstart, t, hT, hT'⟩

theorem Cursor.Carried.ready (h : c.Carried c' start stop T) (hc : c.Ready) : c'.Ready := by
  obtain ⟨tokens, hcuts, -⟩ := h
  exact hcuts.ready hc

theorem Cursor.Carried.mono (h : c.Carried c' start stop T) (hT : ∀ s s', T s s' → T' s s') :
    c.Carried c' start stop T' := by
  obtain ⟨tokens, hcuts, hall⟩ := h
  exact ⟨tokens, hcuts, fun s s' hs hstop => (hall s s' hs hstop).imp id (hT s s')⟩

theorem Cursor.Carried.sees (h : c.Carried c' start stop T) :
    c.Carried c' start stop fun s s' => T s s' ∧ stop.Sees c' s' := by
  obtain ⟨tokens, hcuts, hall⟩ := h
  exact ⟨tokens, hcuts, fun s s' hs hstop => (hall s s' hs hstop).imp id fun hT => ⟨hT, hstop⟩⟩

theorem Cursor.Carried.within (h : c.Carried c' start stop T) (hstart : start.Within start')
    (hstop : stop'.Within stop) : c.Carried c' start' stop' T := by
  obtain ⟨tokens, hcuts, hall⟩ := h
  exact ⟨tokens, hcuts, fun s s' hs hs' => (hall s s' hs (hs'.mono hstop)).imp (·.mono hstart) id⟩

theorem Cursor.Carried.refl (hT : ∀ s, start.Sees c s → T s s) : c.Carried c start start T := by
  refine ⟨[], .nil, fun s s' hs hstop => ?_⟩
  obtain rfl : s' = s := hs
  exact ⟨hstop, hT _ hstop⟩

theorem Cursor.Carried.trans (h : c.Carried m start mid T) (h' : m.Carried c' mid stop T') :
    c.Carried c' start stop fun s s' => ∃ t, T s t ∧ T' t s' := by
  obtain ⟨first, hfirst, hall⟩ := h
  obtain ⟨others, hothers, hall'⟩ := h'
  exact ⟨first ++ others, hfirst.trans hothers, leads_append hall hall'⟩

theorem Ahead.Closed.mono (h : start.Closed stop T) (hT : ∀ s s', T s s' → T' s s') : start.Closed stop T' := by
  obtain ⟨word, hword, hall⟩ := h
  exact ⟨word, hword, fun s s' hs hstop => (hall s s' hs hstop).imp id (hT s s')⟩

theorem Ahead.Closed.within (h : start.Closed stop T) (hstart : start.Within start') (hstop : stop'.Within stop) :
    start'.Closed stop' T := by
  obtain ⟨word, hword, hall⟩ := h
  exact ⟨word, hword, fun s s' hs hs' => (hall s s' hs (hs'.mono hstop)).imp (·.mono hstart) id⟩

theorem Ahead.Closed.refl (hT : ∀ s, start.Ends s → T s s) : start.Closed start T := by
  refine ⟨[], List.forall_mem_nil _, fun s s' hs hstop => ?_⟩
  obtain rfl : s' = s := hs
  exact ⟨hstop, hT _ hstop⟩

theorem Ahead.Closed.trans (h : start.Closed mid T) (h' : mid.Closed stop T') :
    start.Closed stop fun s s' => ∃ t, T s t ∧ T' t s' := by
  obtain ⟨first, hfirst, hall⟩ := h
  obtain ⟨others, hothers, hall'⟩ := h'
  exact ⟨first ++ others, List.forall_mem_append.mpr ⟨hfirst, hothers⟩, leads_append hall hall'⟩

theorem Cursor.Completed.mono (h : c.Completed label offset start stop T) (hT : ∀ s s', T s s' → T' s s') :
    c.Completed label offset start stop T' := by
  refine Label.Served.mono h ?_
  rintro item ⟨tokens, word, hbreaks, hword, hall⟩
  exact ⟨tokens, word, hbreaks, hword, fun s s' hs hstop => (hall s s' hs hstop).imp id (hT s s')⟩

theorem Cursor.Completed.ends (h : c.Completed label offset start stop T) :
    c.Completed label offset start stop fun s s' => T s s' ∧ stop.Ends s' := by
  refine Label.Served.mono h ?_
  rintro item ⟨tokens, word, hbreaks, hword, hall⟩
  exact ⟨tokens, word, hbreaks, hword, fun s s' hs hstop => (hall s s' hs hstop).imp id fun hT => ⟨hT, hstop⟩⟩

theorem Cursor.Completed.within (h : c.Completed label offset start stop T) (hstart : start.Within start')
    (hstop : stop'.Within stop) : c.Completed label offset start' stop' T := by
  refine Label.Served.mono h ?_
  rintro item ⟨tokens, word, hbreaks, hword, hall⟩
  exact ⟨tokens, word, hbreaks, hword, fun s s' hs hs' => (hall s s' hs (hs'.mono hstop)).imp (·.mono hstart) id⟩

theorem Cursor.Carried.completed (h : c.Carried m start mid T) (hc : c.Ready)
    (h' : m.Completed label offset mid stop T') :
    c.Completed label offset start stop fun s s' => ∃ t, T s t ∧ T' t s' := by
  obtain ⟨first, hfirst, hall⟩ := h
  refine Label.Served.mono h' ?_
  rintro item ⟨tokens, word, hbreaks, hword, hall'⟩
  refine ⟨first ++ tokens, word, hfirst.breaks hc hbreaks, hword, ?_⟩
  rw [List.append_assoc]
  exact leads_append hall hall'

theorem Cursor.Completed.closed (h : c.Completed label offset start mid T) (h' : mid.Closed stop T') :
    c.Completed label offset start stop fun s s' => ∃ t, T s t ∧ T' t s' := by
  obtain ⟨others, hothers, hall'⟩ := h'
  refine Label.Served.mono h ?_
  rintro item ⟨tokens, word, hbreaks, hword, hall⟩
  refine ⟨tokens, word ++ others, hbreaks, List.forall_mem_append.mpr ⟨hword, hothers⟩, ?_⟩
  rw [← List.append_assoc]
  exact leads_append hall hall'

/-- Whatever a label asks for begins on a new line, and leads with some words in some way to what is
expected in the end. -/
def Label.Supplies (label : Label) (start stop : Ahead) (T : Stream → Stream → Prop) : Prop :=
  label.Served fun item => OnNewLine item ∧ ∃ tokens word, Writes item tokens ∧ (∀ token ∈ tokens ++ word, token.Written) ∧
    ∀ s s', s.Spells (tokens ++ word) s' → stop.Ends s' → start.Ends s ∧ T s s'

theorem Label.Supplies.mono (h : label.Supplies start stop T) (hT : ∀ s s', T s s' → T' s s') :
    label.Supplies start stop T' := by
  refine Label.Served.mono h ?_
  rintro item ⟨hline, tokens, word, hwrites, hwritten, hall⟩
  exact ⟨hline, tokens, word, hwrites, hwritten, fun s s' hs hstop => (hall s s' hs hstop).imp id (hT s s')⟩

theorem Label.Supplies.within (h : label.Supplies start stop T) (hstart : start.Within start')
    (hstop : stop'.Within stop) : label.Supplies start' stop' T := by
  refine Label.Served.mono h ?_
  rintro item ⟨hline, tokens, word, hwrites, hwritten, hall⟩
  exact ⟨hline, tokens, word, hwrites, hwritten,
    fun s s' hs hs' => (hall s s' hs (hs'.mono hstop)).imp (·.mono hstart) id⟩

theorem Label.Supplies.ends (h : label.Supplies start stop T) :
    label.Supplies start stop fun s s' => T s s' ∧ stop.Ends s' := by
  refine Label.Served.mono h ?_
  rintro item ⟨hline, tokens, word, hwrites, hwritten, hall⟩
  exact ⟨hline, tokens, word, hwrites, hwritten, fun s s' hs hstop => (hall s s' hs hstop).imp id fun hT => ⟨hT, hstop⟩⟩

theorem Label.Supplies.before (h : label.Supplies start mid T) (h' : mid.Closed stop T') :
    label.Supplies start stop fun s s' => ∃ t, T s t ∧ T' t s' := by
  obtain ⟨others, hothers, hall'⟩ := h'
  refine Label.Served.mono h ?_
  rintro item ⟨hline, tokens, word, hwrites, hwritten, hall⟩
  refine ⟨hline, tokens, word ++ others, hwrites, ?_⟩
  rw [← List.append_assoc]
  exact ⟨List.forall_mem_append.mpr ⟨hwritten, hothers⟩, leads_append hall hall'⟩

theorem Label.Supplies.completed (h : label.Supplies start stop T) (c : Cursor) :
    c.Completed label c.offset start stop T := by
  refine Label.Served.mono h ?_
  rintro item ⟨hline, tokens, word, hwrites, hwritten, hall⟩
  refine ⟨tokens, word, c.breaks_line hline hwrites, (List.forall_mem_append.mp hwritten).2, fun s s' hs hstop => ?_⟩
  exact (hall s s' hs hstop).imp (·.sees c) id

theorem Label.Supplies.closed (h : label.Supplies start stop T) : start.Closed stop T := by
  obtain ⟨⟨item, hitem⟩, hall⟩ := h
  obtain ⟨-, tokens, word, -, hwritten, hall⟩ := hall item hitem
  exact ⟨tokens ++ word, hwritten, hall⟩

end Relations

variable {α β ι κ : Type} {deep : Prop} {start mid stop start' stop' : Ahead} {R : α → α → Prop}
  {S : β → β → Prop} {s m s' : Stream} {P : α → Prop} {Q : β → Prop}

theorem Parse.expect_eq_error {rule : Rule α} {label : Label} {c c' : Cursor} {e : Failure} :
    Parse.expect rule label c = .error e c' ↔
      rule c = .error e c' ∨ rule c = .ok none c' ∧ e = .expected label c'.offset := by
  rw [Parse.expect, bind_eq_error]
  refine or_congr_right ⟨?_, ?_⟩
  · rintro ⟨found, m, ho, he⟩
    cases found with
    | some a => cases he
    | none =>
      cases he
      exact ⟨ho, rfl⟩
  · rintro ⟨ho, rfl⟩
    exact ⟨none, c', ho, rfl⟩

theorem Parse.map_eq_error {p : Parse α} {f : α → β} {c c' : Cursor} {e : Failure} :
    (f <$> p) c = .error e c' ↔ p c = .error e c' := by
  rw [← bind_pure_comp, bind_eq_error]
  exact or_iff_left fun ⟨_, _, _, he⟩ => nomatch he

theorem Rule.firstOf_cons_eq_error {rule : Rule α} {others : List (Rule α)} {c c' : Cursor} {e : Failure} :
    firstOf (rule :: others) c = .error e c' ↔
      rule c = .error e c' ∨ ∃ m, rule c = .ok none m ∧ firstOf others m = .error e c' := by
  rw [firstOf, bind_eq_error]
  refine or_congr_right ⟨?_, ?_⟩
  · rintro ⟨found, m, ho, he⟩
    cases found with
    | some a => cases he
    | none => exact ⟨m, ho, he⟩
  · rintro ⟨m, ho, he⟩
    exact ⟨none, m, ho, he⟩

/-- No matter what the results are. -/
def AnyResult : α → α → Prop := fun _ _ => True

theorem Parse.Gets.mono {p : Parse α} {P' : α → Prop} (h : p.Gets P s s') (hP : ∀ a, P a → P' a) : p.Gets P' s s' := by
  intro d hd
  obtain ⟨a, d', ho, ha, hd'⟩ := h hd
  exact ⟨a, d', ho, hP a ha, hd'⟩

theorem Parse.Gets.bind {p : Parse α} {f : α → Parse β} (h : p.Gets P s m) (hf : ∀ a, P a → (f a).Gets Q m s') :
    (p >>= f).Gets Q s s' := by
  intro d hd
  obtain ⟨a, e, ho, ha, he⟩ := h hd
  obtain ⟨b, d', ho', hb, hd'⟩ := hf a ha he
  exact ⟨b, d', bind_eq_ok.mpr ⟨a, e, ho, ho'⟩, hb, hd'⟩

theorem Parse.Gets.pure {a : α} (ha : P a) : (Pure.pure a : Parse α).Gets P s s :=
  fun d hd => ⟨a, d, pure_eq_ok.mpr ⟨rfl, rfl⟩, ha, hd⟩

theorem Parse.Gets.nodeFrom {first : Span} {form : Form Node} {P : Node → Prop} (h : ∀ v, v.form = form → P v) :
    (Parse.nodeFrom first form).Gets P s s :=
  fun d hd => ⟨_, d, nodeFrom_eq_ok.mpr ⟨rfl, rfl⟩, h _ rfl, hd⟩

theorem Rule.Gets.mono {rule : Rule α} {P' : α → Prop} (h : rule.Gets P s s') (hP : ∀ a, P a → P' a) :
    rule.Gets P' s s' := by
  intro d hd
  obtain ⟨a, d', ho, ha, hd'⟩ := h hd
  exact ⟨a, d', ho, hP a ha, hd'⟩

theorem Rule.Gets.andThen {rule : Rule α} {f : α → Parse β} (h : rule.Gets P s m)
    (hf : ∀ a, P a → (f a).Gets Q m s') : Gets (rule.andThen f) Q s s' := by
  intro d hd
  obtain ⟨a, e, ho, ha, he⟩ := h hd
  obtain ⟨b, d', ho', hb, hd'⟩ := hf a ha he
  exact ⟨b, d', andThen_eq_some.mpr ⟨a, e, ho, ho'⟩, hb, hd'⟩

/-- A computation in front of a rule. -/
theorem Parse.Gets.bindRule {p : Parse α} {f : α → Rule β} (h : p.Gets P s m) (hf : ∀ a, P a → (f a).Gets Q m s') :
    Rule.Gets (p >>= f : Parse (Option β)) Q s s' := by
  intro d hd
  obtain ⟨a, e, ho, ha, he⟩ := h hd
  obtain ⟨b, d', ho', hb, hd'⟩ := hf a ha he
  exact ⟨b, d', bind_eq_ok.mpr ⟨a, e, ho, ho'⟩, hb, hd'⟩

theorem Rule.Gets.expect {rule : Rule α} {label : Label} (h : rule.Gets P s s') :
    (Parse.expect rule label).Gets P s s' := by
  intro d hd
  obtain ⟨a, d', ho, ha, hd'⟩ := h hd
  exact ⟨a, d', expect_eq_ok.mpr ho, ha, hd'⟩

theorem Rule.Gets.bind {rule : Rule α} {f : Option α → Parse β} (h : rule.Gets P s m)
    (hf : ∀ a, P a → (f (some a)).Gets Q m s') : Parse.Gets (rule >>= f) Q s s' := by
  intro d hd
  obtain ⟨a, e, ho, ha, he⟩ := h hd
  obtain ⟨b, d', ho', hb, hd'⟩ := hf a ha he
  exact ⟨b, d', bind_eq_ok.mpr ⟨some a, e, ho, ho'⟩, hb, hd'⟩

theorem Rule.Gets.both {rule : Rule α} {other : Rule β} (h : rule.Gets P s m) (ho : other.Gets Q m s') :
    Rule.Gets (both rule other) (fun _ => True) s s' := by
  intro d hd
  obtain ⟨a, e, ho', -, he⟩ := h hd
  obtain ⟨b, d', ho'', -, hd'⟩ := ho he
  exact ⟨(a, b), d', both_eq_some.mpr ⟨e, ho', ho''⟩, trivial, hd'⟩

theorem Rule.Lacks.bind {rule : Rule α} {f : Option α → Parse β} (h : rule.Lacks s) (hf : (f none).Gets Q s s') :
    Parse.Gets (rule >>= f) Q s s' := by
  intro d hd
  obtain ⟨b, d', ho', hb, hd'⟩ := hf hd
  exact ⟨b, d', bind_eq_ok.mpr ⟨none, d, h hd, ho'⟩, hb, hd'⟩

theorem Rule.Gets.firstOf_head {rule : Rule α} {others : List (Rule α)} (h : rule.Gets P s s') :
    Gets (firstOf (rule :: others)) P s s' := by
  intro d hd
  obtain ⟨a, d', ho, ha, hd'⟩ := h hd
  exact ⟨a, d', firstOf_cons_eq_some.mpr (.inl ho), ha, hd'⟩

theorem Rule.Gets.firstOf_tail {rule : Rule α} {others : List (Rule α)} (hn : rule.Lacks s)
    (h : Gets (firstOf others) P s s') : Gets (firstOf (rule :: others)) P s s' := by
  intro d hd
  obtain ⟨a, d', ho, ha, hd'⟩ := h hd
  exact ⟨a, d', firstOf_cons_eq_some.mpr (.inr ⟨d, hn hd, ho⟩), ha, hd'⟩

/-- Where a computation succeeds, others succeed in other sources with the same tokens. Where it fails,
they succeed in sources that are completed. They succeed in the end with some words alone. -/
structure Parse.Tracks (deep : Prop) (p : Parse α) (q : ι → Parse α) (R : α → α → Prop) (start stop : Ahead) :
    Prop where
  ok : ∀ {c a c'}, c.Ready → p c = .ok a c' → c.Carried c' start stop fun s s' => ∀ i, (q i).Gets (R a) s s'
  error : deep → ∀ {c label offset c'}, c.Ready → p c = .error (.expected label offset) c' →
    c.Completed label offset start stop fun s s' => ∀ i, (q i).Gets (fun _ => True) s s'
  closes : deep → start.Closed stop fun s s' => ∀ i, (q i).Gets (fun _ => True) s s'

/-- Where a rule matches, others match in other sources with the same tokens. Where it fails, they match
in sources that are completed. -/
structure Rule.Tracks (deep : Prop) (rule : Rule α) (rule' : ι → Rule α) (R : α → α → Prop) (start stop : Ahead) :
    Prop where
  ok : ∀ {c a c'}, c.Ready → rule c = .ok (some a) c' →
    c.Carried c' start stop fun s s' => ∀ i, (rule' i).Gets (R a) s s'
  error : deep → ∀ {c label offset c'}, c.Ready → rule c = .error (.expected label offset) c' →
    c.Completed label offset start stop fun s s' => ∀ i, (rule' i).Gets (fun _ => True) s s'

namespace Parse
variable {p : Parse α} {q : ι → Parse α} {f : α → Parse β} {g : ι → α → Parse β}

theorem Tracks.within (h : p.Tracks deep q R start stop) (hstart : start.Within start') (hstop : stop'.Within stop) :
    p.Tracks deep q R start' stop' where
  ok hc ho := (h.ok hc ho).within hstart hstop
  error hd _ _ _ _ hc he := (h.error hd hc he).within hstart hstop
  closes hd := (h.closes hd).within hstart hstop

theorem Tracks.reindex (h : p.Tracks deep q R start stop) (k : κ → ι) :
    p.Tracks deep (fun i => q (k i)) R start stop where
  ok hc ho := (h.ok hc ho).mono fun _ _ hall i => hall (k i)
  error hd _ _ _ _ hc he := (h.error hd hc he).mono fun _ _ hall i => hall (k i)
  closes hd := (h.closes hd).mono fun _ _ hall i => hall (k i)

/-- What comes after a computation depends on what it yields. -/
theorem Tracks.bindAlike (h : p.Tracks deep q R start mid)
    (hf : ∀ a, (f a).Tracks deep (fun x : ι × Subtype (R a) => g x.1 x.2.1) S mid stop)
    (hclose : deep → mid.Closed stop fun s s' => ∀ i a, (g i a).Gets (fun _ => True) s s') :
    (p >>= f).Tracks deep (fun i => q i >>= g i) S start stop where
  ok hc ho := by
    obtain ⟨a, m, ho, ho'⟩ := bind_eq_ok.mp ho
    have hfirst := h.ok hc ho
    refine (hfirst.trans ((hf a).ok (hfirst.ready hc) ho')).mono ?_
    rintro s s' ⟨t, hall, hall'⟩ i
    exact (hall i).bind fun b hb => hall' (i, ⟨b, hb⟩)
  error hd c label offset c' hc he := by
    rcases bind_eq_error.mp he with he | ⟨a, m, ho, he⟩
    · refine ((h.error hd hc he).closed (hclose hd)).mono ?_
      rintro s s' ⟨t, hall, hall'⟩ i
      exact (hall i).bind fun b _ => hall' i b
    · have hfirst := h.ok hc ho
      refine (hfirst.completed hc ((hf a).error hd (hfirst.ready hc) he)).mono ?_
      rintro s s' ⟨t, hall, hall'⟩ i
      exact (hall i).bind fun b hb => hall' (i, ⟨b, hb⟩)
  closes hd := by
    refine ((h.closes hd).trans (hclose hd)).mono ?_
    rintro s s' ⟨t, hall, hall'⟩ i
    exact (hall i).bind fun b _ => hall' i b

theorem Tracks.bind [Nonempty α] (h : p.Tracks deep q R start mid)
    (hf : ∀ a, (f a).Tracks deep (fun x : ι × α => g x.1 x.2) S mid stop) :
    (p >>= f).Tracks deep (fun i => q i >>= g i) S start stop :=
  h.bindAlike (fun a => (hf a).reindex fun x : ι × Subtype (R a) => (x.1, x.2.1)) fun hd =>
    ((hf (Classical.ofNonempty)).closes hd).mono fun _ _ hall i a => hall (i, a)

theorem Tracks.pure {a : α} {b : ι → α} (h : ∀ i, R a (b i)) :
    (Pure.pure a : Parse α).Tracks deep (fun i => Pure.pure (b i)) R start start where
  ok hc ho := by
    obtain ⟨rfl, rfl⟩ := pure_eq_ok.mp ho
    exact .refl fun s _ i => .pure (h i)
  error _ _ _ _ _ _ he := nomatch he
  closes _ := .refl fun _ _ _ => .pure trivial

theorem Tracks.nodeOf {first : Span} {first' : ι → Span} {form : Form Node} {form' : ι → Form Node} {R : Node → Node → Prop}
    (hR : ∀ i a b, a.form = form → b.form = form' i → R a b) :
    (Parse.nodeFrom first form).Tracks deep (fun i => Parse.nodeFrom (first' i) (form' i)) R start start where
  ok hc ho := by
    obtain ⟨rfl, rfl⟩ := nodeFrom_eq_ok.mp ho
    exact .refl fun _ _ i => .nodeFrom fun b hb => hR i _ b rfl hb
  error _ _ _ _ _ _ he := nomatch he
  closes _ := .refl fun _ _ _ => .nodeFrom fun _ _ => trivial

theorem Tracks.nodeFrom {first : Span} {first' : ι → Span} {form : Form Node} {form' : ι → Form Node} :
    (Parse.nodeFrom first form).Tracks deep (fun i => Parse.nodeFrom (first' i) (form' i)) AnyResult start start :=
  .nodeOf fun _ _ _ _ _ => trivial

end Parse

namespace Rule
variable {rule : Rule α} {rule' : ι → Rule α} {f : α → Parse β} {g : ι → α → Parse β} {kinds kinds' silent : List Kind}
  {label : Label}

theorem Tracks.within (h : rule.Tracks deep rule' R start stop) (hstart : start.Within start')
    (hstop : stop'.Within stop) : rule.Tracks deep rule' R start' stop' where
  ok hc ho := (h.ok hc ho).within hstart hstop
  error hd _ _ _ _ hc he := (h.error hd hc he).within hstart hstop

theorem Tracks.mono {R' : α → α → Prop} (h : rule.Tracks deep rule' R start stop) (hR : ∀ a b, R a b → R' a b) :
    rule.Tracks deep rule' R' start stop where
  ok hc ho := (h.ok hc ho).mono fun _ _ hall i => (hall i).mono (hR _)
  error := h.error

theorem Tracks.any (h : rule.Tracks deep rule' R start stop) : rule.Tracks deep rule' AnyResult start stop :=
  h.mono fun _ _ _ => trivial

theorem Tracks.reindex (h : rule.Tracks deep rule' R start stop) (k : κ → ι) :
    rule.Tracks deep (fun i => rule' (k i)) R start stop where
  ok hc ho := (h.ok hc ho).mono fun _ _ hall i => hall (k i)
  error hd _ _ _ _ hc he := (h.error hd hc he).mono fun _ _ hall i => hall (k i)

theorem Tracks.results {P P' : α → Prop} (h : rule.Tracks deep rule' R start stop)
    (hP : ∀ {c a c'}, rule c = .ok (some a) c' → P a) (hP' : ∀ {i c a c'}, rule' i c = .ok (some a) c' → P' a) :
    rule.Tracks deep rule' (fun a b => P a ∧ P' b) start stop where
  ok hc ho := (h.ok hc ho).mono fun _ _ hall i d hd => by
    obtain ⟨b, d', ho', -, hd'⟩ := hall i hd
    exact ⟨b, d', ho', ⟨hP ho, hP' ho'⟩, hd'⟩
  error := h.error

theorem Tracks.andThenAlike (h : rule.Tracks deep rule' R start mid)
    (hf : ∀ a, (f a).Tracks deep (fun x : ι × Subtype (R a) => g x.1 x.2.1) S mid stop)
    (hclose : deep → mid.Closed stop fun s s' => ∀ i a, (g i a).Gets (fun _ => True) s s') :
    Tracks deep (rule.andThen f) (fun i => (rule' i).andThen (g i)) S start stop where
  ok hc ho := by
    obtain ⟨a, m, ho, ho'⟩ := andThen_eq_some.mp ho
    have hfirst := h.ok hc ho
    refine (hfirst.trans ((hf a).ok (hfirst.ready hc) ho')).mono ?_
    rintro s s' ⟨t, hall, hall'⟩ i
    exact (hall i).andThen fun b hb => hall' (i, ⟨b, hb⟩)
  error hd c label offset c' hc he := by
    rcases andThen_eq_error.mp he with he | ⟨a, m, ho, he⟩
    · refine ((h.error hd hc he).closed (hclose hd)).mono ?_
      rintro s s' ⟨t, hall, hall'⟩ i
      exact (hall i).andThen fun b _ => hall' i b
    · have hfirst := h.ok hc ho
      refine (hfirst.completed hc ((hf a).error hd (hfirst.ready hc) he)).mono ?_
      rintro s s' ⟨t, hall, hall'⟩ i
      exact (hall i).andThen fun b hb => hall' (i, ⟨b, hb⟩)

theorem Tracks.andThen [Nonempty α] (h : rule.Tracks deep rule' R start mid)
    (hf : ∀ a, (f a).Tracks deep (fun x : ι × α => g x.1 x.2) S mid stop) :
    Tracks deep (rule.andThen f) (fun i => (rule' i).andThen (g i)) S start stop :=
  h.andThenAlike (fun a => (hf a).reindex fun x : ι × Subtype (R a) => (x.1, x.2.1)) fun hd =>
    ((hf (Classical.ofNonempty)).closes hd).mono fun _ _ hall i a => hall (i, a)

theorem Tracks.map [Nonempty α] {k : α → β} {k' : ι → α → β} (h : rule.Tracks deep rule' R start stop) :
    Tracks deep (rule.map k) (fun i => (rule' i).map (k' i)) AnyResult start stop :=
  h.andThen fun _ => .pure fun _ => trivial

/-- Two rules in a row. Where the first fails, it is completed in front of the second. -/
theorem Tracks.both {other : Rule β} {other' : ι → Rule β} {last : Ahead} (h : rule.Tracks deep rule' R start mid)
    (ho : other.Tracks deep other' S mid stop)
    (herror : deep → ∀ {c label offset c'}, c.Ready → rule c = .error (.expected label offset) c' →
      c.Completed label offset start last fun s s' => ∀ i, (rule' i).Gets (fun _ => True) s s')
    (hclose : deep → last.Closed stop fun s s' => ∀ i, (other' i).Gets (fun _ => True) s s') :
    Tracks deep (both rule other) (fun i => both (rule' i) (other' i)) AnyResult start stop where
  ok {c found c'} hc hok := by
    obtain ⟨a, b⟩ := found
    obtain ⟨m, hok, hok'⟩ := both_eq_some.mp hok
    have hfirst := h.ok hc hok
    refine (hfirst.trans (ho.ok (hfirst.ready hc) hok')).mono ?_
    rintro s s' ⟨t, hall, hall'⟩ i
    exact (hall i).both (hall' i)
  error hd c label offset c' hc he := by
    rcases both_eq_error.mp he with he | ⟨a, m, hok, he⟩
    · refine ((herror hd hc he).closed (hclose hd)).mono ?_
      rintro s s' ⟨t, hall, hall'⟩ i
      exact (hall i).both (hall' i)
    · have hfirst := h.ok hc hok
      refine (hfirst.completed hc (ho.error hd (hfirst.ready hc) he)).mono ?_
      rintro s s' ⟨t, hall, hall'⟩ i
      exact (hall i).both (hall' i)

theorem Tracks.expect (h : rule.Tracks deep rule' R start stop) (hs : rule.Steady)
    (hlabel : deep → label.Supplies start stop fun s s' => ∀ i, (rule' i).Gets (fun _ => True) s s') :
    (Parse.expect rule label).Tracks deep (fun i => Parse.expect (rule' i) label) R start stop where
  ok hc ho := (h.ok hc (expect_eq_ok.mp ho)).mono fun _ _ hall i => (hall i).expect
  error hd c _ _ c' hc he := by
    rcases expect_eq_error.mp he with hrule | ⟨ho, hfailure⟩
    · exact (h.error hd hc hrule).mono fun _ _ hall i => (hall i).expect
    · obtain rfl := hs.stays ho
      obtain ⟨rfl, rfl⟩ := Failure.expected.inj hfailure
      exact ((hlabel hd).completed _).mono fun _ _ hall i => (hall i).expect
  closes hd := (hlabel hd).closed.mono fun _ _ hall i => (hall i).expect

/-- An alternative that is passed over declines in the other source too where others match. -/
theorem Tracks.firstOf_of {others : List (Rule α)} {others' : ι → List (Rule α)}
    (h : rule.Tracks deep rule' R start stop) (hs : rule.Steady)
    (hn : ∀ {c c'}, rule c = .ok none c' → ∀ {s}, start.Sees c s → ∀ i {s'},
      Gets (firstOf (others' i)) (fun _ => True) s s' → (rule' i).Lacks s)
    (ho : Tracks deep (firstOf others) (fun i => firstOf (others' i)) R start stop) :
    Tracks deep (firstOf (rule :: others)) (fun i => firstOf (rule' i :: others' i)) R start stop where
  ok {c a c'} hc hok := by
    rcases firstOf_cons_eq_some.mp hok with hfirst | ⟨m, hnone, hothers⟩
    · exact (h.ok hc hfirst).mono fun _ _ hall i => (hall i).firstOf_head
    · obtain rfl := hs.stays hnone
      obtain ⟨tokens, hcuts, hall⟩ := ho.ok hc hothers
      refine ⟨tokens, hcuts, fun s s' hspells hstop => ?_⟩
      obtain ⟨hstart, hgets⟩ := hall s s' hspells hstop
      exact ⟨hstart, fun i => (hgets i).firstOf_tail (hn hnone hstart i ((hgets i).mono fun _ _ => trivial))⟩
  error hd c label offset c' hc he := by
    rcases firstOf_cons_eq_error.mp he with hfirst | ⟨m, hnone, hothers⟩
    · exact (h.error hd hc hfirst).mono fun _ _ hall i => (hall i).firstOf_head
    · obtain rfl := hs.stays hnone
      refine Label.Served.mono (ho.error hd hc hothers) ?_
      rintro item ⟨tokens, word, hbreaks, hword, hall⟩
      refine ⟨tokens, word, hbreaks, hword, fun s s' hspells hstop => ?_⟩
      obtain ⟨hstart, hgets⟩ := hall s s' hspells hstop
      exact ⟨hstart, fun i => (hgets i).firstOf_tail (hn hnone hstart i (hgets i))⟩

theorem Tracks.firstOf_cons {others : List (Rule α)} {others' : ι → List (Rule α)}
    (h : rule.Tracks deep rule' R start stop) (hn : ∀ i, rule.Settles deep (rule' i) kinds silent)
    (hs : rule.Steady) (hk : start.Spares kinds silent)
    (ho : Tracks deep (firstOf others) (fun i => firstOf (others' i)) R start stop) :
    Tracks deep (firstOf (rule :: others)) (fun i => firstOf (rule' i :: others' i)) R start stop :=
  h.firstOf_of hs (fun hnone _ hsees i _ _ => (hn i).sees hnone hsees hk) ho

theorem Predicts.lacks {phrase : Phrase α} (h : rule.Predicts phrase kinds) (hn : ¬ s.Next kinds) : rule.Lacks s :=
  fun _ hd => (h.follows.declines hd).mpr hn

/-- A rule declines where another matches that begins with tokens of other kinds. -/
theorem Predicts.lacks_of_gets {other : Rule β} {phrase : Phrase α} {phrase' : Phrase β} {P : β → Prop}
    (h : rule.Predicts phrase kinds) (ho : other.Predicts phrase' kinds') (hk : ∀ kind ∈ kinds', kind ∉ kinds)
    (hgets : other.Gets P s s') : rule.Lacks s := by
  intro d hd
  obtain ⟨a, d', hok, -, hd'⟩ := hgets hd
  obtain ⟨t, ht, hphrase⟩ := ho.follows.sound hok hd'
  exact (h.follows.declines ht).mpr ((ho.opens hphrase).disjoint hk)

theorem Tracks.nil : Tracks deep (firstOf ([] : List (Rule α))) (fun _ : ι => firstOf []) R start stop where
  ok _ ho := (firstOf_nil_ne_some ho).elim
  error _ _ _ _ _ _ he := nomatch he

theorem Tracks.singleton (h : rule.Tracks deep rule' R start stop) :
    Tracks deep (firstOf [rule]) (fun i => firstOf [rule' i]) R start stop where
  ok hc ho := by
    rcases firstOf_cons_eq_some.mp ho with ho | ⟨m, -, ho⟩
    · exact (h.ok hc ho).mono fun _ _ hall i => (hall i).firstOf_head
    · exact (firstOf_nil_ne_some ho).elim
  error hd _ _ _ _ hc he := by
    rcases firstOf_cons_eq_error.mp he with he | ⟨m, -, he⟩
    · exact (h.error hd hc he).mono fun _ _ hall i => (hall i).firstOf_head
    · cases he

end Rule

theorem Parse.Tracks.bindRule {p : Parse α} {q : ι → Parse α} {f : α → Rule β} {g : ι → α → Rule β}
    (h : p.Tracks deep q R start mid) (hf : ∀ a, (f a).Tracks deep (fun x : ι × α => g x.1 x.2) S mid stop)
    (hclose : deep → mid.Closed stop fun s s' => ∀ i a, (g i a).Gets (fun _ => True) s s') :
    Rule.Tracks deep (p >>= f : Parse (Option β)) (fun i => (q i >>= g i : Parse (Option β))) S start stop where
  ok hc ho := by
    obtain ⟨a, m, ho, ho'⟩ := bind_eq_ok.mp ho
    have hfirst := h.ok hc ho
    refine (hfirst.trans ((hf a).ok (hfirst.ready hc) ho')).mono ?_
    rintro s s' ⟨t, hall, hall'⟩ i
    exact (hall i).bindRule fun b _ => hall' (i, b)
  error hd c label offset c' hc he := by
    rcases bind_eq_error.mp he with he | ⟨a, m, ho, he⟩
    · refine ((h.error hd hc he).closed (hclose hd)).mono ?_
      rintro s s' ⟨t, hall, hall'⟩ i
      exact (hall i).bindRule fun b _ => hall' i b
    · have hfirst := h.ok hc ho
      refine (hfirst.completed hc ((hf a).error hd (hfirst.ready hc) he)).mono ?_
      rintro s s' ⟨t, hall, hall'⟩ i
      exact (hall i).bindRule fun b _ => hall' (i, b)

theorem Rule.Tracks.bindOptionalAlike {rule : Rule α} {rule' : ι → Rule α} {f : Option α → Parse β}
    {g : ι → Option α → Parse β} {kinds silent : List Kind} (h : rule.Tracks deep rule' R start mid)
    (hn : ∀ i, rule.Settles deep (rule' i) kinds silent) (hs : rule.Steady) (hk : start.Spares kinds silent)
    (hsome : ∀ a, (f (some a)).Tracks deep (fun x : ι × Subtype (R a) => g x.1 (some x.2.1)) S mid stop)
    (hclose : deep → mid.Closed stop fun s s' => ∀ i a, (g i (some a)).Gets (fun _ => True) s s')
    (hnone : (f none).Tracks deep (fun i => g i none) S start stop) :
    Parse.Tracks deep (rule >>= f) (fun i => rule' i >>= g i) S start stop where
  ok {c b c'} hc ho := by
    obtain ⟨found, m, ho, ho'⟩ := bind_eq_ok.mp ho
    cases found with
    | some a =>
      have hfirst := h.ok hc ho
      refine (hfirst.trans ((hsome a).ok (hfirst.ready hc) ho')).mono ?_
      rintro s s' ⟨t, hall, hall'⟩ i
      exact (hall i).bind fun b hb => hall' (i, ⟨b, hb⟩)
    | none =>
      obtain rfl := hs.stays ho
      obtain ⟨tokens, hcuts, hall⟩ := hnone.ok hc ho'
      refine ⟨tokens, hcuts, fun s s' hspells hstop => ?_⟩
      obtain ⟨hstart, hgets⟩ := hall s s' hspells hstop
      exact ⟨hstart, fun i => ((hn i).sees ho hstart hk).bind (hgets i)⟩
  error hd c label offset c' hc he := by
    rcases bind_eq_error.mp he with he | ⟨found, m, ho, herror⟩
    · refine ((h.error hd hc he).closed (hclose hd)).mono ?_
      rintro s s' ⟨t, hall, hall'⟩ i
      exact (hall i).bind fun b _ => hall' i b
    · cases found with
      | some a =>
        have hfirst := h.ok hc ho
        refine (hfirst.completed hc ((hsome a).error hd (hfirst.ready hc) herror)).mono ?_
        rintro s s' ⟨t, hall, hall'⟩ i
        exact (hall i).bind fun b hb => hall' (i, ⟨b, hb⟩)
      | none =>
        obtain rfl := hs.stays ho
        refine Label.Served.mono (hnone.error hd hc herror) ?_
        rintro item ⟨tokens, word, hbreaks, hword, hall⟩
        refine ⟨tokens, word, hbreaks, hword, fun s s' hspells hstop => ?_⟩
        obtain ⟨hstart, hgets⟩ := hall s s' hspells hstop
        exact ⟨hstart, fun i => ((hn i).sees ho hstart hk).bind (hgets i)⟩
  closes hd := by
    obtain ⟨word, hword, hall⟩ := hnone.closes hd
    refine ⟨word, hword, fun s s' hspells hstop => ?_⟩
    obtain ⟨hstart, hgets⟩ := hall s s' hspells hstop
    exact ⟨hstart, fun i => ((hn i).ends hd hstart hk).bind (hgets i)⟩

theorem Rule.Tracks.bindOptional [Nonempty α] {rule : Rule α} {rule' : ι → Rule α} {f : Option α → Parse β}
    {g : ι → Option α → Parse β} {kinds silent : List Kind} (h : rule.Tracks deep rule' R start mid)
    (hn : ∀ i, rule.Settles deep (rule' i) kinds silent) (hs : rule.Steady) (hk : start.Spares kinds silent)
    (hsome : ∀ a, (f (some a)).Tracks deep (fun x : ι × α => g x.1 (some x.2)) S mid stop)
    (hnone : (f none).Tracks deep (fun i => g i none) S start stop) :
    Parse.Tracks deep (rule >>= f) (fun i => rule' i >>= g i) S start stop :=
  h.bindOptionalAlike hn hs hk (fun a => (hsome a).reindex fun x : ι × Subtype (R a) => (x.1, x.2.1))
    (fun hd => ((hsome Classical.ofNonempty).closes hd).mono fun _ _ hall i a => hall (i, a)) hnone

theorem Rule.Tracks.optional {rule : Rule α} {rule' : ι → Rule α} {kinds silent : List Kind}
    (h : rule.Tracks deep rule' R start stop) (hn : ∀ i, rule.Settles deep (rule' i) kinds silent) (hs : rule.Steady)
    (hw : stop.Within start) (hk : stop.Spares kinds silent) :
    Parse.Tracks deep rule rule' AnyResult start stop := by
  have hsome {P : α → Prop} {rule : Rule α} {s s' : Stream} (h : rule.Gets P s s') : Parse.Gets rule (fun _ => True) s s' := by
    intro d hd
    obtain ⟨a, d', ho, -, hd'⟩ := h hd
    exact ⟨some a, d', ho, trivial, hd'⟩
  have hnone {rule : Rule α} {s : Stream} (h : rule.Lacks s) : Parse.Gets rule (fun _ => True) s s :=
    fun d hd => ⟨none, d, h hd, trivial, hd⟩
  constructor
  · intro c found c' hc ho
    cases found with
    | some a => exact (h.ok hc ho).mono fun _ _ hall i => hsome (hall i)
    | none =>
      obtain rfl := hs.stays ho
      exact (Cursor.Carried.refl fun s hsees i => hnone ((hn i).sees ho hsees hk)).within hw (.refl stop)
  · intro hd c label offset c' hc he
    exact (h.error hd hc he).mono fun _ _ hall i => hsome (hall i)
  · intro hd
    exact (Ahead.Closed.refl fun s hends i => hnone ((hn i).ends hd hends hk)).within hw (.refl stop)

section Loops
variable {rule : α → Rule α} {rule' : ι → α → Rule α} {loop : α → Ahead} {a : α} {b : ι → α}

theorem Parse.Gets.iterate_done {rule : α → Rule α} {b : α} (hs : ∀ a, (rule a).Steady) (h : (rule b).Lacks s)
    (hb : P b) : (iterate rule b).Gets P s s :=
  fun d hd => ⟨b, d, (iterate_eq_ok hs).mpr ⟨.refl, h hd⟩, hb, hd⟩

theorem Parse.Gets.iterate_next {rule : α → Rule α} {b : α} {P' : α → Prop} (hs : ∀ a, (rule a).Steady)
    (h : (rule b).Gets P s m) (hrest : ∀ a, P a → (iterate rule a).Gets P' m s') : (iterate rule b).Gets P' s s' := by
  intro d hd
  obtain ⟨next, e, ho, hnext, he⟩ := h hd
  obtain ⟨z, d', ho', hz, hd'⟩ := hrest next hnext he
  exact ⟨z, d', (iterate_of_next hs ho).trans ho', hz, hd'⟩

/-- The steps of a loop, one after the other, in front of what is expected after each of them. -/
theorem Parse.Steps.carried {x z : α} {c c' : Cursor} (hs' : ∀ i a, (rule' i a).Steady)
    (hok : ∀ {a c b m}, c.Ready → rule a c = .ok (some b) m →
      c.Carried m (loop a) (loop b) fun s s' => ∀ i a', R a a' → (rule' i a').Gets (R b) s s')
    (hsteps : Steps (Next rule) x c z c') (hc : c.Ready)
    (hlast : c'.Carried c' (loop z) stop fun s s' => ∀ i b, R z b → (iterate (rule' i) b).Gets P s s') :
    c.Carried c' (loop x) stop fun s s' => ∀ i b, R x b → (iterate (rule' i) b).Gets P s s' := by
  induction hsteps with
  | refl => exact hlast
  | cons hnext _ ih =>
    have hfirst := hok hc hnext
    refine (hfirst.trans (ih (hfirst.ready hc) hlast)).mono ?_
    rintro s s' ⟨t, hall, hall'⟩ i b hb
    exact .iterate_next (hs' i) (hall i b hb) fun y hy => hall' i y hy

theorem Parse.iterate_completed {c c' : Cursor} {label : Label} {offset : Nat} {last : Ahead}
    (hs' : ∀ i a, (rule' i a).Steady)
    (hok : ∀ {a c b m}, c.Ready → rule a c = .ok (some b) m →
      c.Carried m (loop a) (loop b) fun s s' => ∀ i a', R a a' → (rule' i a').Gets (R b) s s')
    (herror : ∀ {a c label offset c'}, c.Ready → rule a c = .error (.expected label offset) c' →
      c.Completed label offset (loop a) last fun s s' => ∀ i a', R a a' → (rule' i a').Gets (fun _ => True) s s')
    (hlast : last.Closed stop fun s s' => ∀ i b, (iterate (rule' i) b).Gets P s s')
    (hc : c.Ready) (he : iterate rule a c = .error (.expected label offset) c') :
    c.Completed label offset (loop a) stop fun s s' => ∀ i b, R a b → (iterate (rule' i) b).Gets P s s' := by
  obtain ⟨y, m, hsteps, hfails⟩ := iterate_eq_error he
  clear he
  induction hsteps with
  | refl =>
    refine ((herror hc hfails).closed hlast).mono ?_
    rintro s s' ⟨t, hall, hall'⟩ i b hb
    exact .iterate_next (hs' i) (hall i b hb) fun y _ => hall' i y
  | cons hnext _ ih =>
    have hfirst := hok hc hnext
    refine (hfirst.completed hc (ih (hfirst.ready hc) hfails)).mono ?_
    rintro s s' ⟨t, hall, hall'⟩ i b hb
    exact .iterate_next (hs' i) (hall i b hb) fun y hy => hall' i y hy

/-- A loop whose results are related from step to step, and that ends where it ends in the other source. -/
theorem Parse.Tracks.iterate_of {last : Ahead} (hs : ∀ a, (rule a).Steady) (hs' : ∀ i a, (rule' i a).Steady)
    (hok : ∀ {a c b m}, c.Ready → rule a c = .ok (some b) m →
      c.Carried m (loop a) (loop b) fun s s' => ∀ i a', R a a' → (rule' i a').Gets (R b) s s')
    (herror : deep → ∀ {a c label offset c'}, c.Ready → rule a c = .error (.expected label offset) c' →
      c.Completed label offset (loop a) last fun s s' => ∀ i a', R a a' → (rule' i a').Gets (fun _ => True) s s')
    (hstop : ∀ a, stop.Within (loop a)) (hlast : stop.Within last)
    (hdone : ∀ {i a b c c' s}, R a b → rule a c = .ok none c' → stop.Sees c s → (rule' i b).Lacks s)
    (hend : deep → ∀ {i b s}, stop.Ends s → (rule' i b).Lacks s) (hab : ∀ i, R a (b i)) :
    (Parse.iterate rule a).Tracks deep (fun i => Parse.iterate (rule' i) (b i)) R (loop a) stop where
  ok hc ho := by
    obtain ⟨hsteps, hnone⟩ := (iterate_eq_ok hs).mp ho
    refine (Steps.carried hs' hok hsteps hc ?_).mono fun s s' hall i => hall i (b i) (hab i)
    refine (Cursor.Carried.refl fun s hsees i b hb => ?_).within (hstop _) (.refl stop)
    exact .iterate_done (hs' i) (hdone hb hnone hsees) hb
  error hd _ _ _ _ hc he := by
    refine (iterate_completed hs' hok (herror hd) ?_ hc he).mono fun s s' hall i => hall i (b i) (hab i)
    exact (Ahead.Closed.refl fun s hends i b => .iterate_done (hs' i) (hend hd hends) trivial).within hlast (.refl stop)
  closes hd := (Ahead.Closed.refl fun s hends i => .iterate_done (hs' i) (hend hd hends) trivial).within (hstop a) (.refl stop)

end Loops

theorem Parse.Tracks.iterateAny {rule : α → Rule α} {rule' : ι → α → Rule α} {loop : Ahead} {kinds silent : List Kind}
    {a : α} {b : ι → α} (hs : ∀ a, (rule a).Steady) (hs' : ∀ i a, (rule' i a).Steady)
    (hstep : ∀ a, (rule a).Tracks deep (fun x : ι × α => rule' x.1 x.2) AnyResult loop loop) (hstop : stop.Within loop)
    (hn : ∀ i a b, (rule a).Settles deep (rule' i b) kinds silent) (hk : stop.Spares kinds silent) :
    (Parse.iterate rule a).Tracks deep (fun i => Parse.iterate (rule' i) (b i)) AnyResult loop stop :=
  .iterate_of hs hs'
    (fun {a} _ _ _ hc ho => ((hstep a).ok hc ho).mono fun _ _ hall i a' _ => hall (i, a'))
    (fun hd {a} _ _ _ _ hc he => ((hstep a).error hd hc he).mono fun _ _ hall i a' _ => hall (i, a'))
    (fun _ => hstop) hstop (fun {i a b} _ _ _ _ ho hsees => (hn i a b).sees ho hsees hk)
    (fun hd {i b} _ hends => (hn i b b).ends hd hends hk) fun _ => trivial

theorem Rule.Gets.separated {separator : Rule Span} {item : Rule α} {missing : Label} (h : item.Gets P s s')
    (hn : separator.Lacks s') (hi : item.Steady) (hs : separator.Steady) :
    (Rule.separated separator item missing).Gets (fun _ => True) s s' := by
  refine h.andThen fun first _ => ?_
  have hsteady (listed : List α) : Steady (separator.andThen fun _ => do return (← Parse.expect item missing) :: listed) :=
    hs.andThen fun _ => .bind (.expect hi missing) fun _ => .pure _
  have hdone := @Parse.Gets.iterate_done _ s' (fun _ => True) _ [first] hsteady hn.andThen trivial
  exact hdone.bind fun _ _ => .pure trivial

theorem Rule.Tracks.separated [Nonempty α] {separator : Rule Span} {item : Rule α} {item' : ι → Rule α} {missing : Label}
    {loop : Ahead} {kinds silent : List Kind} (hi : item.Tracks deep item' R start loop)
    (hsteady : item.Steady) (hsteady' : ∀ i, (item' i).Steady) (hseparator : separator.Steady)
    (hs : separator.Tracks deep (fun _ : ι => separator) AnyResult loop .anything)
    (hexpect : (Parse.expect item missing).Tracks deep (fun i => Parse.expect (item' i) missing) R .anything loop)
    (hn : separator.Settles deep separator kinds silent) (hstop : stop.Within loop) (hk : stop.Spares kinds silent) :
    Tracks deep (Rule.separated separator item missing) (fun i => Rule.separated separator (item' i) missing)
      AnyResult start stop := by
  have hstays {item : Rule α} (hitem : item.Steady) (listed : List α) :
      Steady (separator.andThen fun _ => do return (← Parse.expect item missing) :: listed) :=
    hseparator.andThen fun _ => .bind (.expect hitem missing) fun _ => .pure _
  have hstep (listed : List α) : Tracks deep (separator.andThen fun _ => do return (← Parse.expect item missing) :: listed)
      (fun x : ι × List α => separator.andThen fun _ => do return (← Parse.expect (item' x.1) missing) :: x.2)
      AnyResult loop loop :=
    (hs.reindex Prod.fst).andThen fun _ => (hexpect.reindex fun x : (ι × List α) × Span => x.1.1).bind fun _ =>
      .pure fun _ => trivial
  exact hi.andThen fun first => .bind (.iterateAny (hstays hsteady) (fun x => hstays (hsteady' x.1)) (fun listed =>
    (hstep listed).reindex fun x : (ι × α) × List α => (x.1.1, x.2)) hstop (fun _ _ _ => hn.andThen _ _) hk)
      fun items => .pure fun _ => trivial

end LuaSyntax
