import LuaSyntax.Proofs.Excerpt.Statement
import LuaSyntax.Proofs.Swap.Outline

/-! # Phrases in which a part is read otherwise

A node is read as a suffix, as a field or as a statement in the middle of a larger phrase. If other
tokens stand in its place that are read as a node of the same outline there, the larger phrase is
still one, and its outline is the same. Every way of putting phrases together keeps this.
-/
namespace LuaSyntax
variable {κ : Type}

open Phrase

/-- All the rest of a stream, with nothing after it. -/
structure Excerpt.Whole (x : Excerpt) : Prop where
  after : x.after = 0
  tail : x.tail = []

/-- What comes before and after the tokens that are put in the place of others, where what comes
before stays. -/
structure Swap where
  front : Excerpt
  back : Excerpt

/-- Between two streams some tokens at least are left out. -/
structure Swap.Fits (x : Swap) (first last : Stream) : Prop where
  stays : x.front.position = id
  after : x.front.after ≤ first.lexemes.length
  whole : x.back.Whole
  covers : x.back.Covers last

/-- What a node is read as where something else may be put in its place. -/
inductive Slot where
  | suffix (object : Node)
  | field
  | statement

namespace Slot

/-- The kinds of tokens that an expression without suffixes goes on with. -/
def operatorKinds : List Kind := [
  "or", "and", "==", "~=", "<", "<=", "<<", ">", ">=", ">>", "|", "~", "&", "..", "+", "-", "*", "/", "//", "%", "^"]

/-- A node is read in the slot. The object of a suffix ends where the slot begins, and no expression
could go on after a statement. -/
def Reads (nested : Phrases) (n : Node) : Slot → Stream → Stream → Prop
  | suffix object, s, s' => Suffix nested object s n s' ∧ object.span.endPos = s.lastEnd
  | field, s, s' => Field nested s n s' ∧ n.tag = .pair
  | statement, s, s' => Statement nested s n s' ∧ n.tag = .assignment ∧ ¬ s'.Next ("," :: operatorKinds)

/-- A node of the same outline is read in the slot. -/
def Fills (key : Node → κ) (nested : Phrases) (n : Node) : Slot → Stream → Stream → Prop
  | suffix object, s, s' => ∀ object', key object' = key object → ∃ n', Suffix nested object' s n' s' ∧ key n' = key n
  | field, s, s' => ∃ n', Field nested s n' s' ∧ key n' = key n
  | statement, s, s' => ∃ n', Statement nested s n' s' ∧ key n' = key n

/-- The kinds of tokens with which what is put in a slot does not begin. -/
def kinds : Slot → List Kind
  | statement => "=" :: "," :: continuing
  | _ => ["="]

end Slot

/-- A slot in which a node is read lies between two streams. Whatever fills it leaves some room in
front of it, and has some effect on what is around it. -/
def Found (key : Node → κ) (n : Node) (room : Room) (s s' : Stream) (effect : Swap → Prop) : Prop :=
  ∃ (slot : Slot) (levels : Nat) (first last : Stream), s.Reaches first ∧ last.Reaches s' ∧
    slot.Reads (phrases levels) n first last ∧
    ∀ x : Swap, x.Fits first last → x.front.Covers s → x.front.Apart slot.kinds →
      slot.Fills key (phrases (levels + 1)) n (x.front.stream first) (x.back.stream last) →
      x.front.Leaves room s ∧ effect x

namespace Phrase
variable {α β : Type}

/-- Phrases of the rest of a stream become others of the same outline where it is put. -/
def Copies (img : α → β) (P P' : Phrase α) : Prop :=
  ∀ ⦃x : Excerpt⦄ ⦃s a s'⦄, x.Whole → x.Covers s → P s a s' → ∃ a', P' (x.stream s) a' (x.stream s') ∧ img a' = img a

/-- Phrases that stay where they are become others with the same value. -/
def Stays (room : Room) (P P' : Phrase α) : Prop :=
  ∀ ⦃x : Excerpt⦄ ⦃s a s'⦄, x.position = id → x.Covers s → x.Leaves room s' → P s a s' → P' (x.stream s) a (x.stream s')

/-- A condition on a stream holds of its copies. -/
def Copied (C C' : Stream → Prop) : Prop := ∀ ⦃x : Excerpt⦄ ⦃s⦄, x.Whole → x.Covers s → C s → C' (x.stream s)

/-- Phrases become others of the same outline when they are copied and when a node in them that
has some property is read otherwise. Those from different values before them need only be copied. -/
structure Swaps (key : Node → κ) (n : Node) (same : Prop) (room : Room) (img : α → β) (has : α → Prop)
    (P P' : Phrase α) : Prop where
  leads : ∀ ⦃s a s'⦄, P s a s' → s.Reaches s'
  copies : Copies img P P'
  finds : ∀ ⦃s a s'⦄, same → P s a s' → has a →
    Found key n room s s' fun x => ∃ a', P' (x.front.stream s) a' (x.back.stream s') ∧ img a' = img a

end Phrase

section Excerpts
variable {x : Excerpt} {s : Stream}

theorem Excerpt.Whole.leaves (h : x.Whole) (kinds : List Kind) (s : Stream) : x.Leaves (.apart kinds) s :=
  .of_tail h.tail (h.after ▸ Nat.zero_le _)

theorem Room.within_self (room : Room) : room.Within room := by
  cases room with
  | token => exact trivial
  | apart kinds => exact fun kind hk => hk

theorem Excerpt.span_eq (h : x.position = id) (span : Span) : x.span span = span := by
  rw [Excerpt.span, h]
  rfl

theorem Excerpt.node_eq (h : x.position = id) : x.node = id := by
  funext v
  have hspan : x.span = fun span => span := funext (Excerpt.span_eq h)
  rw [Excerpt.node, hspan]
  exact v.respan_id

theorem Excerpt.map_node_eq (h : x.position = id) (nodes : List Node) : nodes.map x.node = nodes := by
  rw [Excerpt.node_eq h, List.map_id]

theorem Slot.mem_kinds (slot : Slot) : Kind.fixed "=" ∈ slot.kinds := by
  cases slot <;> simp [Slot.kinds]

end Excerpts

section Finding
variable {key : Node → κ} {n : Node} {room room' : Room} {s₀ s t t' : Stream} {effect effect' : Swap → Prop}

/-- What is around a slot, seen from further away. -/
theorem Found.lift (h : Found key n room s t effect) (hs : s₀.Reaches s) (ht : t.Reaches t')
    (he : ∀ x : Swap, x.front.position = id → x.front.Covers s₀ → x.front.Apart ["="] → x.front.Leaves room s →
      x.back.Whole → x.back.Covers t → effect x → x.front.Leaves room' s₀ ∧ effect' x) :
    Found key n room' s₀ t' effect' := by
  obtain ⟨slot, levels, first, last, hfirst, hlast, hreads, hfill⟩ := h
  refine ⟨slot, levels, first, last, hs.trans hfirst, hlast.trans ht, hreads, ?_⟩
  intro x hfits hcovers hapart hfills
  obtain ⟨hleaves, heffect⟩ := hfill x hfits (hcovers.reaches hs) hapart hfills
  have hequals : x.front.Apart ["="] := hapart.mono (List.forall_mem_singleton.mpr slot.mem_kinds)
  exact he x hfits.stays hcovers hequals hleaves hfits.whole (hfits.covers.reaches hlast) heffect

theorem Found.before (h : Found key n room s t effect) (ht : t.Reaches t')
    (he : ∀ x : Swap, x.back.Whole → x.back.Covers t → effect x → effect' x) :
    Found key n room s t' effect' :=
  h.lift .refl ht fun x _ _ _ hl hw hc heffect => ⟨hl, he x hw hc heffect⟩

theorem Found.behind (h : Found key n room s t effect) (hs : s₀.Reaches s)
    (hroom : ∀ x : Excerpt, x.Leaves room s → x.Leaves room' s₀)
    (he : ∀ x : Swap, x.front.position = id → x.front.Covers s₀ → x.front.Leaves room s → effect x → effect' x) :
    Found key n room' s₀ t effect' :=
  h.lift hs .refl fun x hi hc _ hl _ _ heffect => ⟨hroom _ hl, he x hi hc hl heffect⟩

theorem Found.slot {slot : Slot} {levels : Nat} (h : slot.Reads (phrases levels) n s t) :
    Found key n (.apart slot.kinds) s t fun x =>
      slot.Fills key (phrases (levels + 1)) n (x.front.stream s) (x.back.stream t) :=
  ⟨slot, levels, s, t, .refl, .refl, h, fun _ hfits _ hapart hfills =>
    ⟨⟨hfits.after, fun _ => hapart⟩, hfills⟩⟩

end Finding

namespace Phrase
variable {α β α₁ β₁ : Type} {key : Node → κ} {n : Node} {same : Prop} {room : Room} {kinds : List Kind}
  {img : α → β} {img₁ : α₁ → β₁} {has : α → Prop} {has₁ : α₁ → Prop} {P P' : Phrase α}

theorem copied_of_keeps {C C' : Stream → Prop} (h : ∀ x : Excerpt, x.Keeps (.apart kinds) C C') : Copied C C' :=
  fun x s hw _ hs => h x s (hw.leaves _ _) hs

theorem copied_not_next (kinds : List Kind) : Copied (¬ ·.Next kinds) (¬ ·.Next kinds) :=
  copied_of_keeps fun _ => Excerpt.keeps_not_next (Room.within_self _)

section Carried
variable {f : Excerpt → α → α}

theorem Carries.stays (h : ∀ x : Excerpt, x.position = id → Carries x room P P' id) : Stays room P P' :=
  fun x _ _ _ hi hc hl ha => (h x hi ha).2 hc hl

theorem Carries.copies (h : ∀ x, Carries x (.apart kinds) P P' (f x)) (hf : ∀ x a, img (f x a) = img a) :
    Copies img P P' :=
  fun x _ a _ hw hc ha => ⟨f x a, (h x ha).2 hc (hw.leaves _ _), hf x a⟩

/-- Phrases in which nothing is found are copied or stay where they are. -/
structure Inert (room : Room) (img : α → β) (P P' : Phrase α) : Prop where
  leads : ∀ ⦃s a s'⦄, P s a s' → s.Reaches s'
  copies : Copies img P P'
  stays : Stays room P P'

theorem Carries.inert (h : ∀ x, Carries x (.apart kinds) P P' (f x)) (hi : ∀ x : Excerpt, x.position = id → f x = id)
    (hf : ∀ x a, img (f x a) = img a) : Inert (.apart kinds) img P P' :=
  ⟨fun _ _ _ ha => (h default ha).1, Carries.copies h hf, Carries.stays fun x hx => hi x hx ▸ h x⟩

end Carried

theorem inert_takes (token : Token) : Inert (.apart []) (fun _ => ()) (fun s taken s' => s.Takes token taken s')
    (fun s taken s' => s.Takes token taken s') :=
  Carries.inert (fun _ => carries_takes token) (fun _ hi => funext (Excerpt.span_eq hi)) fun _ _ => rfl

namespace Swaps

theorem mono {room' : Room} {has' : α → Prop} {same' : Prop} (h : Swaps key n same room img has P P')
    (hr : room'.Within room) (hs : same' → same) (hh : ∀ a, has' a → has a) :
    Swaps key n same' room' img has' P P' where
  leads := h.leads
  copies := h.copies
  finds _ _ _ hsame ha hhas := (h.finds (hs hsame) ha (hh _ hhas)).behind .refl (fun _ hl => hl.mono hr)
    fun _ _ _ _ heffect => heffect

/-- What is found whatever comes before. -/
theorem any (h : Swaps key n True room img has P P') : Swaps key n same room img has P P' :=
  h.mono room.within_self (fun _ => trivial) fun _ => id

theorem strengthen {Q : Phrase α} (h : Swaps key n same room img has P P') (hq : ∀ ⦃s a s'⦄, Q s a s' → P s a s') :
    Swaps key n same room img has Q P' where
  leads _ _ _ ha := h.leads (hq ha)
  copies _ _ _ _ hw hc ha := h.copies hw hc (hq ha)
  finds _ _ _ hsame ha hhas := h.finds hsame (hq ha) hhas

theorem of_copies (hl : ∀ ⦃s a s'⦄, P s a s' → s.Reaches s') (hc : Copies img P P')
    (hn : ∀ ⦃s a s'⦄, P s a s' → ¬ has a) : Swaps key n same room img has P P' :=
  ⟨hl, hc, fun _ _ _ _ ha hhas => (hn ha hhas).elim⟩

section Sequencing
variable {Q : α → Phrase α₁} {Q' : α → Phrase α₁}

/-- What is found in the first of two phrases is in front of the second, which is copied; what is
found in the second is behind the first, which stays where it is. -/
theorem seq {front behind : Room} (hp : Swaps key n True front img has P P')
    (hs : ∀ ⦃x : Excerpt⦄ ⦃s a m b s'⦄, same → x.position = id → x.Covers s → x.Leaves behind m → P s a m →
      Q a m b s' → has₁ b ∧ ¬ has a → P' (x.stream s) a (x.stream m) ∧ x.Leaves front s)
    (hq : ∀ a a', img a' = img a →
      Swaps key n (same ∧ a' = a) behind img₁ (fun b => has₁ b ∧ ¬ has a) (Q a) (Q' a')) :
    Swaps key n same front img₁ has₁ (fun s b s' => ∃ a m, P s a m ∧ Q a m b s')
      (fun s b s' => ∃ a m, P' s a m ∧ Q' a m b s') where
  leads := by
    rintro s b s' ⟨a, m, ha, hb⟩
    exact (hp.leads ha).trans ((hq a a rfl).leads hb)
  copies := by
    rintro x s b s' hw hc ⟨a, m, ha, hb⟩
    obtain ⟨a', ha', himg⟩ := hp.copies hw hc ha
    obtain ⟨b', hb', himg'⟩ := (hq a a' himg).copies hw (hc.reaches (hp.leads ha)) hb
    exact ⟨b', ⟨a', _, ha', hb'⟩, himg'⟩
  finds := by
    rintro s b s' hsame ⟨a, m, ha, hb⟩ hhas
    by_cases hfirst : has a
    · refine (hp.finds trivial ha hfirst).before ((hq a a rfl).leads hb) ?_
      rintro x hw hc ⟨a', ha', himg⟩
      obtain ⟨b', hb', himg'⟩ := (hq a a' himg).copies hw hc hb
      exact ⟨b', ⟨a', _, ha', hb'⟩, himg'⟩
    · refine ((hq a a rfl).finds ⟨hsame, rfl⟩ hb ⟨hhas, hfirst⟩).lift (hp.leads ha) .refl ?_
      rintro x hi hc - hl - - ⟨b', hb', himg'⟩
      obtain ⟨ha', hl'⟩ := hs hsame hi hc hl ha hb ⟨hhas, hfirst⟩
      exact ⟨hl', b', ⟨a, _, ha', hb'⟩, himg'⟩

theorem bind (hp : Swaps key n True room img has P P') (hs : Stays .token P P')
    (hq : ∀ a a', img a' = img a →
      Swaps key n (same ∧ a' = a) .token img₁ (fun b => has₁ b ∧ ¬ has a) (Q a) (Q' a')) :
    Swaps key n same room img₁ has₁ (fun s b s' => ∃ a m, P s a m ∧ Q a m b s')
      (fun s b s' => ∃ a m, P' s a m ∧ Q' a m b s') :=
  seq hp (fun _ _ _ _ _ _ _ hi hc hl ha _ _ =>
    ⟨hs hi hc hl ha, .of_lt (Nat.lt_of_lt_of_le hl (hp.leads ha).length_le)⟩) hq

/-- After a phrase that takes tokens and ends with one of its own, anything may come. -/
theorem close (hp : Swaps key n True .token img has P P') (hs : Stays (.apart []) P P') (ht : Consumes P)
    (hq : ∀ a a', img a' = img a →
      Swaps key n (same ∧ a' = a) room img₁ (fun b => has₁ b ∧ ¬ has a) (Q a) (Q' a')) :
    Swaps key n same .token img₁ has₁ (fun s b s' => ∃ a m, P s a m ∧ Q a m b s')
      (fun s b s' => ∃ a m, P' s a m ∧ Q' a m b s') := by
  refine seq hp (fun x s a m b s' _ hi hc hl ha _ _ => ⟨hs hi hc ?_ ha, Nat.lt_of_le_of_lt hl.le (ht ha)⟩) hq
  exact ⟨hl.le, fun _ _ _ => List.not_mem_nil⟩

theorem takes {token : Token} {Q Q' : Span → Phrase α₁}
    (hq : ∀ span span', Swaps key n (same ∧ span' = span) room img₁ has₁ (Q span) (Q' span')) :
    Swaps key n same .token img₁ has₁ (fun s b s' => ∃ span m, s.Takes token span m ∧ Q span m b s')
      (fun s b s' => ∃ span m, s.Takes token span m ∧ Q' span m b s') := by
  have ht := inert_takes token
  have hnone : Swaps key n True .token (fun _ : Span => ()) (fun _ => False) (fun s taken s' => s.Takes token taken s')
      (fun s taken s' => s.Takes token taken s') :=
    of_copies ht.leads ht.copies fun _ _ _ _ => id
  have hrest (span span' : Span) : Swaps key n (same ∧ span' = span) room img₁ (fun b => has₁ b ∧ ¬ False) (Q span)
      (Q' span') :=
    (hq span span').mono room.within_self id fun _ hb => hb.1
  exact close hnone ht.stays (consumes_takes token) fun span span' _ => hrest span span'

variable {F : α → Stream → α₁} {F' : α → Stream → α₁}

theorem «return» (h : Swaps key n same room img has P P')
    (hF : ∀ a a' s s', img a' = img a → img₁ (F' a' s') = img₁ (F a s)) (hh : ∀ ⦃s a s'⦄, P s a s' → has₁ (F a s') → has a) :
    Swaps key n same room img₁ has₁ (fun s b s' => ∃ a, P s a s' ∧ b = F a s')
      (fun s b s' => ∃ a, P' s a s' ∧ b = F' a s') where
  leads := by
    rintro s b s' ⟨a, ha, -⟩
    exact h.leads ha
  copies := by
    rintro x s b s' hw hc ⟨a, ha, rfl⟩
    obtain ⟨a', ha', himg⟩ := h.copies hw hc ha
    exact ⟨_, ⟨a', ha', rfl⟩, hF _ _ _ _ himg⟩
  finds := by
    rintro s b s' hsame ⟨a, ha, rfl⟩ hhas
    refine (h.finds hsame ha (hh ha hhas)).before .refl ?_
    rintro x - - ⟨a', ha', himg⟩
    exact ⟨_, ⟨a', ha', rfl⟩, hF _ _ _ _ himg⟩

end Sequencing

section Alternatives
variable {Q Q' : Phrase α} {C C' : Stream → Prop}

theorem or (h : Swaps key n same room img has P P') (h' : Swaps key n same room img has Q Q') :
    Swaps key n same room img has (fun s a s' => P s a s' ∨ Q s a s') (fun s a s' => P' s a s' ∨ Q' s a s') where
  leads _ _ _ ha := ha.elim (fun ha => h.leads ha) fun ha => h'.leads ha
  copies := by
    rintro x s a s' hw hc (ha | ha)
    · obtain ⟨a', ha', himg⟩ := h.copies hw hc ha
      exact ⟨a', .inl ha', himg⟩
    · obtain ⟨a', ha', himg⟩ := h'.copies hw hc ha
      exact ⟨a', .inr ha', himg⟩
  finds := by
    rintro s a s' hsame (ha | ha) hhas
    · exact (h.finds hsame ha hhas).before .refl fun x _ _ ⟨a', ha', himg⟩ => ⟨a', .inl ha', himg⟩
    · exact (h'.finds hsame ha hhas).before .refl fun x _ _ ⟨a', ha', himg⟩ => ⟨a', .inr ha', himg⟩

theorem «exists» {ι : Type} {R R' : ι → Phrase α} (h : ∀ i, Swaps key n same room img has (R i) (R' i)) :
    Swaps key n same room img has (fun s a s' => ∃ i, R i s a s') (fun s a s' => ∃ i, R' i s a s') where
  leads _ _ _ := fun ⟨i, ha⟩ => (h i).leads ha
  copies := by
    rintro x s a s' hw hc ⟨i, ha⟩
    obtain ⟨a', ha', himg⟩ := (h i).copies hw hc ha
    exact ⟨a', ⟨i, ha'⟩, himg⟩
  finds := by
    rintro s a s' hsame ⟨i, ha⟩ hhas
    exact ((h i).finds hsame ha hhas).before .refl fun x _ _ ⟨a', ha', himg⟩ => ⟨a', ⟨i, ha'⟩, himg⟩

theorem and {p p' : Prop} (hp : p → p') (h : p → Swaps key n same room img has P P') :
    Swaps key n same room img has (fun s a s' => p ∧ P s a s') (fun s a s' => p' ∧ P' s a s') where
  leads _ _ _ := fun ⟨hprop, ha⟩ => (h hprop).leads ha
  copies := by
    rintro x s a s' hw hc ⟨hprop, ha⟩
    obtain ⟨a', ha', himg⟩ := (h hprop).copies hw hc ha
    exact ⟨a', ⟨hp hprop, ha'⟩, himg⟩
  finds := by
    rintro s a s' hsame ⟨hprop, ha⟩ hhas
    exact ((h hprop).finds hsame ha hhas).before .refl fun x _ _ ⟨a', ha', himg⟩ => ⟨a', ⟨hp hprop, ha'⟩, himg⟩

theorem «unless» (h : Swaps key n same .token img has P P') (hC : ∀ x : Excerpt, x.Keeps (.apart kinds) C C') :
    Swaps key n same .token img has (fun s a s' => C s ∧ P s a s') (fun s a s' => C' s ∧ P' s a s') where
  leads _ _ _ ha := h.leads ha.2
  copies := by
    rintro x s a s' hw hc ⟨hs, ha⟩
    obtain ⟨a', ha', himg⟩ := h.copies hw hc ha
    exact ⟨a', ⟨hC x s (hw.leaves _ _) hs, ha'⟩, himg⟩
  finds := by
    rintro s a s' hsame ⟨hs, ha⟩ hhas
    refine (h.finds hsame ha hhas).lift .refl .refl ?_
    rintro x - - - hl - - ⟨a', ha', himg⟩
    exact ⟨hl, a', ⟨hC _ s (hl.mono Room.within_token) hs, ha'⟩, himg⟩

theorem «until» (h : Swaps key n same room img has P P') (hC : Copied C C') :
    Swaps key n same room img has (fun s a s' => P s a s' ∧ C s') (fun s a s' => P' s a s' ∧ C' s') where
  leads _ _ _ ha := h.leads ha.1
  copies := by
    rintro x s a s' hw hc ⟨ha, hs⟩
    obtain ⟨a', ha', himg⟩ := h.copies hw hc ha
    exact ⟨a', ⟨ha', hC hw (hc.reaches (h.leads ha)) hs⟩, himg⟩
  finds := by
    rintro s a s' hsame ⟨ha, hs⟩ hhas
    refine (h.finds hsame ha hhas).before .refl ?_
    rintro x hw hc ⟨a', ha', himg⟩
    exact ⟨a', ⟨ha', hC hw hc hs⟩, himg⟩

theorem kept (h : Swaps key n same room img has P P') {p : α → Prop} (hp : ∀ a a', img a' = img a → p a → p a') :
    Swaps key n same room img has (fun s a s' => P s a s' ∧ p a) (fun s a s' => P' s a s' ∧ p a) where
  leads _ _ _ ha := h.leads ha.1
  copies := by
    rintro x s a s' hw hc ⟨ha, hpa⟩
    obtain ⟨a', ha', himg⟩ := h.copies hw hc ha
    exact ⟨a', ⟨ha', hp a a' himg hpa⟩, himg⟩
  finds := by
    rintro s a s' hsame ⟨ha, hpa⟩ hhas
    exact (h.finds hsame ha hhas).before .refl fun x _ _ ⟨a', ha', himg⟩ => ⟨a', ⟨ha', hp a a' himg hpa⟩, himg⟩

theorem none {a a' : α} (ha : img a' = img a) (hn : ¬ has a) (hC : Copied C C') :
    Swaps key n same room img has (fun s v s' => C s ∧ v = a ∧ s' = s) (fun s v s' => C' s ∧ v = a' ∧ s' = s) where
  leads := by
    rintro s v s' ⟨-, -, rfl⟩
    exact .refl
  copies := by
    rintro x s v s' hw hc ⟨hs, rfl, rfl⟩
    exact ⟨a', ⟨hC hw hc hs, rfl, rfl⟩, ha⟩
  finds := by
    rintro s v s' - ⟨-, rfl, -⟩ hhas
    exact (hn hhas).elim

theorem optional (h : Swaps key n same .token img has P P') (hC : Copied C C') :
    Swaps key n same .token (Option.map img) (fun found => ∃ a ∈ found, has a) (Optional P C) (Optional P' C') where
  leads := by
    rintro s (_ | a) s' ha
    · exact ha.2 ▸ .refl
    · exact h.leads ha
  copies := by
    rintro x s (_ | a) s' hw hc ha
    · obtain ⟨hs, rfl⟩ := ha
      exact ⟨.none, ⟨hC hw hc hs, rfl⟩, rfl⟩
    · obtain ⟨a', ha', himg⟩ := h.copies hw hc ha
      exact ⟨.some a', ha', congrArg some himg⟩
  finds := by
    rintro s (_ | a) s' hsame ha ⟨w, hw, hhas⟩
    · cases hw
    · cases hw
      exact (h.finds hsame ha hhas).before .refl fun x _ _ ⟨a', ha', himg⟩ => ⟨.some a', ha', congrArg some himg⟩

end Alternatives

section Lists

theorem after (h : Swaps key n same room img has P P') (separator : Token) :
    Swaps key n same .token img has (After separator P) (After separator P') :=
  takes fun _ _ => h.mono (room.within_self) And.left fun _ => id

theorem sequence (h : Swaps key n same .token img has P P') (hs : Stays .token P P') :
    Swaps key n same .token (List.map img) (fun items => ∃ a ∈ items, has a) (Sequence P) (Sequence P') := by
  have hreach {s s' : Stream} {items : List α} (hitems : Sequence P s items s') : s.Reaches s' := by
    induction hitems with
    | nil => exact .refl
    | cons ha _ ih => exact (h.leads ha).trans ih
  have hcopies : Copies (List.map img) (Sequence P) (Sequence P') := by
    intro x s items s' hw hc hitems
    induction hitems with
    | nil => exact ⟨[], .nil, rfl⟩
    | cons ha _ ih =>
      obtain ⟨a', ha', himg⟩ := h.copies hw hc ha
      obtain ⟨items', hitems', himgs⟩ := ih (hc.reaches (h.leads ha))
      exact ⟨a' :: items', .cons ha' hitems', by simp only [List.map_cons, himg, himgs]⟩
  refine ⟨fun _ _ _ => hreach, hcopies, ?_⟩
  intro s items s' hsame hitems hhas
  induction hitems with
  | nil =>
    obtain ⟨a, hm, -⟩ := hhas
    cases hm
  | @cons s m s' first others ha hothers ih =>
    by_cases hfirst : has first
    · refine (h.finds hsame ha hfirst).before (hreach hothers) ?_
      rintro x hw hc ⟨a', ha', himg⟩
      obtain ⟨items', hitems', himgs⟩ := hcopies hw hc hothers
      exact ⟨a' :: items', .cons ha' hitems', by simp only [List.map_cons, himg, himgs]⟩
    · have hbehind : ∃ a ∈ others, has a := by
        obtain ⟨a, hm, hhas⟩ := hhas
        rcases List.mem_cons.mp hm with rfl | hm
        · exact (hfirst hhas).elim
        · exact ⟨a, hm, hhas⟩
      refine (ih hbehind).behind (h.leads ha) ?_ ?_
      · exact fun x hl => .of_lt (Nat.lt_of_lt_of_le hl (h.leads ha).length_le)
      · rintro x hi hc hl ⟨items', hitems', himgs⟩
        exact ⟨first :: items', .cons (hs hi hc hl ha) hitems', by simp only [List.map_cons, himgs]⟩

theorem steps {step step' : Node → Phrase Node} (v v' : Node) (hv : key v' = key v)
    (h : ∀ v v', key v' = key v →
      Swaps key n (v' = v) room key (fun w => n.Inside w ∧ ¬ n.Inside v) (step v) (step' v'))
    (hs : ∀ v, Stays room (step v) (step' v)) :
    Swaps key n (v' = v) room key (fun w => n.Inside w ∧ ¬ n.Inside v)
      (fun s w s' => Steps (fun v s w s' => step v s w s') v s w s')
      (fun s w s' => Steps (fun v s w s' => step' v s w s') v' s w s') := by
  have hreach {s s' : Stream} {v w : Node} (hsteps : Steps (fun v s w s' => step v s w s') v s w s') :
      s.Reaches s' := by
    induction hsteps with
    | refl => exact .refl
    | cons hstep _ ih => exact ((h _ _ rfl).leads hstep).trans ih
  have hcopies (v v' : Node) (hv : key v' = key v) : Copies key
      (fun s w s' => Steps (fun v s w s' => step v s w s') v s w s')
      (fun s w s' => Steps (fun v s w s' => step' v s w s') v' s w s') := by
    intro x s w s' hw hc hsteps
    induction hsteps generalizing v' with
    | refl => exact ⟨v', .refl, hv⟩
    | cons hstep _ ih =>
      obtain ⟨u', hu', hkey⟩ := (h _ _ hv).copies hw hc hstep
      obtain ⟨w', hw', hkey'⟩ := ih u' hkey (hc.reaches ((h _ _ rfl).leads hstep))
      exact ⟨w', .cons hu' hw', hkey'⟩
  refine ⟨fun _ _ _ => hreach, hcopies v v' hv, ?_⟩
  rintro s w s' rfl hsteps ⟨hhas, hfirst⟩
  clear hv
  induction hsteps with
  | refl => exact (hfirst hhas).elim
  | @cons v s u m w s' hstep hsteps ih =>
    by_cases hu : n.Inside u
    · refine ((h _ _ rfl).finds rfl hstep ⟨hu, hfirst⟩).before (hreach hsteps) ?_
      rintro x hw hc ⟨u', hu', hkey⟩
      obtain ⟨w', hw', hkey'⟩ := hcopies _ _ hkey hw hc hsteps
      exact ⟨w', .cons hu' hw', hkey'⟩
    · refine (ih hhas hu).behind ((h _ _ rfl).leads hstep) ?_ ?_
      · exact fun x hl => hl.before ((h _ _ rfl).leads hstep).length_le
      · rintro x hi hc hl ⟨w', hw', hkey⟩
        exact ⟨w', .cons (hs _ hi hc hl hstep) hw', hkey⟩

end Lists

end Swaps

end Phrase

end LuaSyntax
