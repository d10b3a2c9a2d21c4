import LuaSyntax.Proofs.Excerpt.Stream

/-! # Excerpts of phrases

A phrase is still one when it is taken out of its stream, if the excerpt leaves the room after it
that its value and its end depend on: a token for a block, which may be anchored on the next one,
and for most other phrases no token with which they would go on. Every way of putting phrases
together keeps this.
-/
namespace LuaSyntax
variable {α β α' β' : Type}

/-- Phrases of one kind lead from a stream to another and become phrases of another kind in an
excerpt that leaves some room after them. -/
def Phrase.Carries (x : Excerpt) (room : Room) (phrase : Phrase α) (phrase' : Phrase β) (f : α → β) : Prop :=
  ∀ ⦃s a s'⦄, phrase s a s' → s.Reaches s' ∧
    (x.Covers s → x.Leaves room s' → phrase' (x.stream s) (f a) (x.stream s'))

/-- Phrases that are no name after a comma away from what comes after the excerpt. -/
def Phrase.Cleared (x : Excerpt) (phrase : Phrase α) : Phrase α := fun s a s' => phrase s a s' ∧ x.Clear s'

/-- Phrases that take at least one token. -/
def Phrase.Consumes (phrase : Phrase α) : Prop :=
  ∀ ⦃s a s'⦄, phrase s a s' → s'.lexemes.length < s.lexemes.length

/-- Phrases that end with a token after which anything may come. -/
structure Phrase.Closes (x : Excerpt) (phrase : Phrase α) (phrase' : Phrase β) (f : α → β) : Prop where
  free : Carries x (.apart []) phrase phrase' f
  consumes : Consumes phrase

namespace Phrase

open Grammar (Tier)

variable {x : Excerpt} {room : Room} {P : Phrase α} {P' : Phrase β} {f : α → β}

/-- A phrase leads on in the stream. -/
theorem Carries.leads {s s' : Stream} {a : α} (h : Carries x room P P' f) (ha : P s a s') : s.Reaches s' := (h ha).1

theorem Carries.mono {room' : Room} (h : Carries x room P P' f) (hw : room.Within room') : Carries x room' P P' f :=
  fun _ _ _ ha => ⟨(h ha).1, fun hc hl => (h ha).2 hc (hl.mono hw)⟩

theorem Carries.cleared (h : Carries x room P P' f) : Carries x room (Cleared x P) P' f := fun _ _ _ ha => h ha.1

theorem Carries.uncleared (h : Carries x room (Cleared x P) P' f) (ht : x.tail = []) : Carries x room P P' f :=
  fun _ _ _ ha => h ⟨ha, Excerpt.clear_of_tail ht⟩

theorem Closes.carries (h : Closes x P P' f) : Carries x room P P' f := by
  apply h.free.mono
  cases room with
  | token => exact trivial
  | apart kinds => exact List.forall_mem_nil _

theorem Closes.of_imp {Q : Phrase α} (h : Closes x Q P' f) (hi : ∀ ⦃s a s'⦄, P s a s' → Q s a s') : Closes x P P' f :=
  ⟨fun _ _ _ ha => h.free (hi ha), fun _ _ _ ha => h.consumes (hi ha)⟩

theorem carries_takes (token : Token) :
    Carries x room (fun s taken s' => s.Takes token taken s') (fun s taken s' => s.Takes token taken s')
      x.span :=
  fun _ _ _ h => ⟨h.reaches, fun hc hl => Excerpt.takes h hc hl.le⟩

section Sequencing
variable {α₁ β₁ : Type} {Q : α → Phrase α₁} {Q' : β → Phrase β₁} {g : α₁ → β₁}

theorem Carries.bind (h : Carries x room P P' f) (hq : ∀ a, Carries x room (Q a) (Q' (f a)) g) :
    Carries x room (fun s b s' => ∃ a m, P s a m ∧ Q a m b s') (fun s b s' => ∃ a m, P' s a m ∧ Q' a m b s')
      g := by
  rintro s b s' ⟨a, m, ha, hb⟩
  obtain ⟨hr, ht⟩ := h ha
  obtain ⟨hr', ht'⟩ := hq a hb
  refine ⟨hr.trans hr', fun hc hl => ?_⟩
  exact ⟨f a, x.stream m, ht hc (hl.before hr'.length_le), ht' (hc.reaches hr) hl⟩

theorem Consumes.bind (h : Consumes P) (hq : ∀ ⦃a m b s'⦄, Q a m b s' → m.Reaches s') :
    Consumes fun s b s' => ∃ a m, P s a m ∧ Q a m b s' := by
  rintro s b s' ⟨a, m, ha, hb⟩
  exact Nat.lt_of_le_of_lt (hq hb).length_le (h ha)

theorem consumes_takes (token : Token) : Consumes fun s taken s' => s.Takes token taken s' := by
  intro s taken s' h
  have hlength := h.length
  omega

theorem closes_takes (token : Token) : Closes x (fun s taken s' => s.Takes token taken s')
    (fun s taken s' => s.Takes token taken s') x.span :=
  ⟨carries_takes token, consumes_takes token⟩

theorem Carries.ahead (h : Carries x .token P P' f) (hq : ∀ a, Carries x room (Q a) (Q' (f a)) g)
    (hc : ∀ a, Consumes (Q a)) :
    Carries x room (fun s b s' => ∃ a m, P s a m ∧ Q a m b s') (fun s b s' => ∃ a m, P' s a m ∧ Q' a m b s')
      g := by
  rintro s b s' ⟨a, m, ha, hb⟩
  obtain ⟨hr, ht⟩ := h ha
  obtain ⟨hr', ht'⟩ := hq a hb
  refine ⟨hr.trans hr', fun hcovers hl => ?_⟩
  have hlt : x.Leaves .token m := Nat.lt_of_le_of_lt hl.le (hc a hb)
  exact ⟨f a, x.stream m, ht hcovers hlt, ht' (hcovers.reaches hr) hl⟩

theorem Carries.close (h : Carries x .token P P' f) (hq : ∀ a, Closes x (Q a) (Q' (f a)) g) :
    Closes x (fun s b s' => ∃ a m, P s a m ∧ Q a m b s') (fun s b s' => ∃ a m, P' s a m ∧ Q' a m b s') g where
  free := h.ahead (fun a => (hq a).free) fun a => (hq a).consumes
  consumes := by
    rintro s b s' ⟨a, m, ha, hb⟩
    exact Nat.lt_of_lt_of_le ((hq a).consumes hb) (h ha).1.length_le

variable {F : α → Stream → α₁} {F' : β → Stream → β₁}

theorem Carries.return (h : Carries x room P P' f) (hF : ∀ a s', g (F a s') = F' (f a) (x.stream s')) :
    Carries x room (fun s b s' => ∃ a, P s a s' ∧ b = F a s') (fun s b s' => ∃ a, P' s a s' ∧ b = F' a s')
      g := by
  rintro s b s' ⟨a, ha, rfl⟩
  obtain ⟨hr, ht⟩ := h ha
  exact ⟨hr, fun hc hl => ⟨f a, ht hc hl, hF a s'⟩⟩

theorem Closes.return (h : Closes x P P' f) (hF : ∀ a s', g (F a s') = F' (f a) (x.stream s')) :
    Closes x (fun s b s' => ∃ a, P s a s' ∧ b = F a s') (fun s b s' => ∃ a, P' s a s' ∧ b = F' a s') g where
  free := h.free.return hF
  consumes := by
    rintro s b s' ⟨a, ha, -⟩
    exact h.consumes ha

end Sequencing

section Alternatives
variable {Q : Phrase α} {Q' : Phrase β} {C C' : Stream → Prop}

theorem Carries.or (h : Carries x room P P' f) (h' : Carries x room Q Q' f) :
    Carries x room (fun s a s' => P s a s' ∨ Q s a s') (fun s a s' => P' s a s' ∨ Q' s a s') f := by
  rintro s a s' (ha | ha)
  · obtain ⟨hr, ht⟩ := h ha
    exact ⟨hr, fun hc hn => .inl (ht hc hn)⟩
  · obtain ⟨hr, ht⟩ := h' ha
    exact ⟨hr, fun hc hn => .inr (ht hc hn)⟩

theorem Carries.clearedOr (h : Carries x room (Cleared x P) P' f) (h' : Carries x room (Cleared x Q) Q' f) :
    Carries x room (Cleared x fun s a s' => P s a s' ∨ Q s a s') (fun s a s' => P' s a s' ∨ Q' s a s') f := by
  rintro s a s' ⟨ha | ha, hclear⟩
  · exact h.or h' (.inl ⟨ha, hclear⟩)
  · exact h.or h' (.inr ⟨ha, hclear⟩)

theorem Consumes.or (h : Consumes P) (h' : Consumes Q) : Consumes fun s a s' => P s a s' ∨ Q s a s' := by
  rintro s a s' (ha | ha)
  · exact h ha
  · exact h' ha

theorem Closes.or (h : Closes x P P' f) (h' : Closes x Q Q' f) :
    Closes x (fun s a s' => P s a s' ∨ Q s a s') (fun s a s' => P' s a s' ∨ Q' s a s') f :=
  ⟨h.free.or h'.free, h.consumes.or h'.consumes⟩

theorem Carries.exists {ι : Type} {R : ι → Phrase α} {R' : ι → Phrase β}
    (h : ∀ i, Carries x room (R i) (R' i) f) :
    Carries x room (fun s a s' => ∃ i, R i s a s') (fun s a s' => ∃ i, R' i s a s') f := by
  rintro s a s' ⟨i, ha⟩
  obtain ⟨hr, ht⟩ := h i ha
  exact ⟨hr, fun hc hn => ⟨i, ht hc hn⟩⟩

theorem Closes.exists {ι : Type} {R : ι → Phrase α} {R' : ι → Phrase β} (h : ∀ i, Closes x (R i) (R' i) f) :
    Closes x (fun s a s' => ∃ i, R i s a s') (fun s a s' => ∃ i, R' i s a s') f where
  free := .exists fun i => (h i).free
  consumes := by
    rintro s a s' ⟨i, ha⟩
    exact (h i).consumes ha

theorem Carries.and (h : Carries x room P P' f) {p : Prop} :
    Carries x room (fun s a s' => p ∧ P s a s') (fun s a s' => p ∧ P' s a s') f := by
  rintro s a s' ⟨hp, ha⟩
  obtain ⟨hr, ht⟩ := h ha
  exact ⟨hr, fun hc hn => ⟨hp, ht hc hn⟩⟩

theorem Closes.and (h : Closes x P P' f) {p : Prop} :
    Closes x (fun s a s' => p ∧ P s a s') (fun s a s' => p ∧ P' s a s') f :=
  ⟨h.free.and, fun _ _ _ ha => h.consumes ha.2⟩

theorem Carries.until (h : Carries x room P P' f) (hC : x.Keeps room C C') :
    Carries x room (fun s a s' => P s a s' ∧ C s') (fun s a s' => P' s a s' ∧ C' s') f := by
  rintro s a s' ⟨ha, hs⟩
  obtain ⟨hr, ht⟩ := h ha
  exact ⟨hr, fun hc hl => ⟨ht hc hl, hC s' hl hs⟩⟩

theorem carries_none {a : α} {b : β} (hab : f a = b) (hC : x.Keeps room C C') :
    Carries x room (fun s v s' => C s ∧ v = a ∧ s' = s) (fun s v s' => C' s ∧ v = b ∧ s' = s) f := by
  rintro s v s' ⟨hs, rfl, rfl⟩
  exact ⟨.refl, fun _ hl => ⟨hC _ hl hs, hab, rfl⟩⟩

theorem Carries.optional (h : Carries x room P P' f) (hC : x.Keeps room C C') :
    Carries x room (Optional P C) (Optional P' C') (Option.map f) := by
  rintro s (_ | a) s' ha
  · obtain ⟨hs, rfl⟩ := ha
    exact ⟨.refl, fun _ hl => ⟨hC _ hl hs, rfl⟩⟩
  · exact h ha

end Alternatives

section Lists

theorem Carries.after (h : Carries x room P P' f) (separator : Token) :
    Carries x room (After separator P) (After separator P') f :=
  (carries_takes separator).bind fun _ => h

theorem Carries.sequence (h : Carries x room P P' f) :
    Carries x room (Sequence P) (Sequence P') (List.map f) := by
  intro s items s' hs
  induction hs with
  | nil => exact ⟨.refl, fun _ _ => .nil⟩
  | cons ha _ ih =>
    obtain ⟨hr, ht⟩ := h ha
    obtain ⟨hr', ht'⟩ := ih
    refine ⟨hr.trans hr', fun hc hl => ?_⟩
    exact .cons (ht hc (hl.before hr'.length_le)) (ht' (hc.reaches hr) hl)

theorem Carries.steps {step step' : Node → Phrase Node} (h : ∀ v, Carries x room (step v) (step' (x.node v)) x.node)
    (v : Node) : Carries x room (fun s w s' => Steps (fun v s w s' => step v s w s') v s w s')
      (fun s w s' => Steps (fun v s w s' => step' v s w s') (x.node v) s w s') x.node := by
  intro s w s' hs
  induction hs with
  | refl => exact ⟨.refl, fun _ _ => .refl⟩
  | cons hv _ ih =>
    obtain ⟨hr, ht⟩ := h _ hv
    obtain ⟨hr', ht'⟩ := ih
    refine ⟨hr.trans hr', fun hc hl => ?_⟩
    exact .cons (ht hc (hl.before hr'.length_le)) (ht' (hc.reaches hr) hl)

end Lists

end Phrase

namespace Excerpt
variable {x : Excerpt}

theorem node_span (v : Node) : (x.node v).span = x.span v.span := Node.respan_span x.span v

theorem node_binary (op : BinaryOp) (left right : Node) :
    x.node (.binary op left right) = .binary op (x.node left) (x.node right) :=
  Node.respan_binary x.position op left right

theorem node_indexed (object key : Node) :
    x.node (Grammar.indexed object key) = Grammar.indexed (x.node object) (x.node key) :=
  Node.respan_index x.position object key

theorem node_ofItems {form : List Node → Form Node} {items : List Node} {anchor anchor' : Nat}
    (hform : (form items).map x.node = form (items.map x.node)) (hanchor : items = [] → anchor' = x.position anchor) :
    x.node (.ofItems form items anchor) = .ofItems form (items.map x.node) anchor' :=
  Node.respan_ofItems x.position hform hanchor

end Excerpt

end LuaSyntax
