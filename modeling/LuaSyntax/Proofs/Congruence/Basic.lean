import LuaSyntax.Proofs.Congruence.Tree
import LuaSyntax.Proofs.Limit.Shallow
import LuaSyntax.Proofs.Retreat

/-! # Runs that correspond

A congruence relates the computations of two runs along with their results, and every way of putting computations
together keeps it. Where going too deep matters, a computation is late that reads something before it can do so.
Behind a token the rest need not be late, because the token has been read by then.
-/
namespace LuaSyntax

open Parse Rule
open List (Forall₂)

/-- The bytes that stand for a character by themselves. -/
def isAscii (b : UInt8) : Bool := b < 0x80

/-- A text of such bytes that is not empty, as every symbol and every reserved word is. -/
def isPlain (text : Bytes) : Bool := !text.isEmpty && text.all isAscii

theorem isPlain_iff {text : Bytes} : isPlain text ↔ text ≠ [] ∧ ∀ b ∈ text, isAscii b := by
  simp [isPlain]

/-- A symbol or a reserved word in which no semicolon occurs. -/
def isWord (text : Bytes) : Bool := isPlain text && !text.contains semicolon

theorem isWord_iff {text : Bytes} : isWord text ↔ isPlain text ∧ semicolon ∉ text := by
  simp [isWord]

/-- One item of a list in which separators follow the items, in front of those listed so far in reverse. The list
goes on only behind a separator. -/
def itemStep {α β : Type} (item : Rule α) (separator : Rule β) : List α × Bool → Rule (List α × Bool) :=
  fun (listed, separated) cursor =>
    if separated then
      (item.andThen fun next => do
        let found ← separator
        return (next :: listed, found.isSome)) cursor
    else .ok none cursor

/-- The same value, read between tokens that correspond. -/
def Likeness.read {α : Type} (L : Likeness) (a b : α × Span) : Prop := a.1 = b.1 ∧ L.token a.2 b.2

theorem Rule.andThen_pure {α : Type} (rule : Rule α) : rule.andThen pure = rule := by
  have hpure : (rule >>= pure : Parse (Option α)) = rule := bind_pure (m := Parse) rule
  refine Eq.trans (bind_congr (m := Parse) fun found => ?_) hpure
  cases found with
  | some value => exact pure_bind value _
  | none => rfl

/-- A relation between the computations of two runs that is kept when they are put one after the other. Where the
flag is set, the computations are late. -/
structure Sequencing extends Likeness where
  Runs : Bool → {α β : Type} → (α → β → Prop) → Parse α → Parse β → Prop
  weaken : ∀ {α β : Type} {V : α → β → Prop} {p : Parse α} {q : Parse β} {late},
    Runs true V p q → Runs late V p q
  pure : ∀ {α β : Type} {V : α → β → Prop} {a : α} {b : β}, V a b → Runs true V (Pure.pure a) (Pure.pure b)
  bind : ∀ {α β γ δ : Type} {V : α → β → Prop} {W : γ → δ → Prop} {p : Parse α} {q : Parse β}
    {f : α → Parse γ} {g : β → Parse δ} {late}, Runs late V p q → (∀ {a b}, V a b → Runs true W (f a) (g b)) →
    Runs late W (p >>= f) (q >>= g)
  get : Runs true cursor MonadState.get MonadState.get
  failAt : ∀ {α β : Type} {V : α → β → Prop} {label : Label} {p q}, start p q →
    Runs true V (Parse.failAt label (p - 1)) (Parse.failAt label (q - 1))

namespace Sequencing
variable (S : Sequencing) {α β γ δ : Type} {V V' : α → β → Prop} {W : γ → δ → Prop} {late : Bool} {label : Label}
  {p : Parse α} {q : Parse β}

theorem map {f : α → γ} {g : β → δ} (h : S.Runs late V p q) (hf : ∀ {a b}, V a b → W (f a) (g b)) :
    S.Runs late W (f <$> p) (g <$> q) := by
  rw [← bind_pure_comp, ← bind_pure_comp]
  exact S.bind h fun hv => S.pure (hf hv)

theorem mono (h : S.Runs late V p q) (hV : ∀ {a b}, V a b → V' a b) : S.Runs late V' p q := by
  rw [← bind_pure p, ← bind_pure q]
  exact S.bind h fun hv => S.pure (hV hv)

theorem fail : S.Runs true V (Parse.fail label) (Parse.fail label) :=
  S.bind S.get fun hc => S.failAt (S.cursor_start hc)

section Rules
variable {r : Rule α} {s : Rule β}

/-- What follows a rule, where it declines and where it matches. -/
theorem bind_found {f : Option α → Parse γ} {g : Option β → Parse δ} (h : S.Runs late (Option.Rel V) r s)
    (hnone : S.Runs true W (f none) (g none)) (hsome : ∀ {a b}, V a b → S.Runs true W (f (some a)) (g (some b))) :
    S.Runs late W (r >>= f) (s >>= g) := by
  refine S.bind h fun hfound => ?_
  cases hfound with
  | none => exact hnone
  | some hv => exact hsome hv

theorem runs_expect (h : S.Runs late (Option.Rel V) r s) : S.Runs late V (Parse.expect r label) (Parse.expect s label) :=
  S.bind_found h S.fail S.pure

theorem runs_always (h : S.Runs late (Option.Rel V) r s) : S.Runs late (Option.Rel V)
    (some <$> Parse.expect r label : Parse (Option α)) (some <$> Parse.expect s label : Parse (Option β)) :=
  S.map (S.runs_expect h) .some

theorem runs_declines : S.Runs true (Option.Rel V) (Pure.pure none : Parse (Option α)) (Pure.pure none : Parse (Option β)) :=
  S.pure .none

theorem runs_andThen {f : α → Parse γ} {g : β → Parse δ} (h : S.Runs late (Option.Rel V) r s)
    (hf : ∀ {a b}, V a b → S.Runs true W (f a) (g b)) : S.Runs late (Option.Rel W) (r.andThen f) (s.andThen g) :=
  S.bind_found h (S.pure .none) fun hv => S.bind (hf hv) fun hw => S.pure (.some hw)

theorem runs_orElse {rs : List (Rule α)} {ss : List (Rule β)} (h : S.Runs late (Option.Rel V) r s)
    (ho : S.Runs true (Option.Rel V) (firstOf rs) (firstOf ss)) :
    S.Runs late (Option.Rel V) (firstOf (r :: rs)) (firstOf (s :: ss)) :=
  S.bind_found h ho fun hv => S.pure (.some hv)

end Rules

/-- A loop whose bound is the same in both runs. -/
theorem iterate_of_rest {f : α → Rule α} {g : β → Rule β} {a : α} {b : β} (hc : ∀ {c d}, S.cursor c d → c.rest = d.rest)
    (h : ∀ {a b}, V a b → S.Runs true (Option.Rel V) (f a) (g b)) (hab : V a b) :
    S.Runs true V (Parse.iterate f a) (Parse.iterate g b) := by
  have hrest : S.Runs true Eq Parse.rest Parse.rest := S.bind S.get fun hd => S.pure (hc hd)
  refine S.bind hrest fun {bound bound'} hbound => ?_
  subst hbound
  exact iterateWithin_rel (R := fun V p q => S.Runs true V p q) S.bind S.pure h bound hab

end Sequencing

/-- A relation between the rules of two runs too, which is kept when rules are put together. -/
structure Combining extends Sequencing where
  Rules : Bool → {α β : Type} → (α → β → Prop) → Rule α → Rule β → Prop
  weakenRule : ∀ {α β : Type} {V : α → β → Prop} {r : Rule α} {s : Rule β} {late},
    Rules true V r s → Rules late V r s
  run : ∀ {α β : Type} {V : α → β → Prop} {r : Rule α} {s : Rule β} {late},
    Rules late V r s → Runs late (Option.Rel V) r s
  declines : ∀ {α β : Type} {V : α → β → Prop},
    Rules true V (Pure.pure none : Parse (Option α)) (Pure.pure none : Parse (Option β))
  andThen : ∀ {α β γ δ : Type} {V : α → β → Prop} {W : γ → δ → Prop} {r : Rule α} {s : Rule β}
    {f : α → Parse γ} {g : β → Parse δ} {late}, Rules late V r s → (∀ {a b}, V a b → Runs true W (f a) (g b)) →
    Rules late W (r.andThen f) (s.andThen g)
  orElse : ∀ {α β : Type} {V : α → β → Prop} {r : Rule α} {s : Rule β} {rs : List (Rule α)} {ss : List (Rule β)}
    {late}, Rules late V r s → Rules true V (firstOf rs) (firstOf ss) →
    Rules late V (firstOf (r :: rs)) (firstOf (s :: ss))
  /-- Where a late rule declines, nothing has been read and nothing went too deep. -/
  orElse_late : ∀ {α β : Type} {V : α → β → Prop} {r : Rule α} {s : Rule β} {rs : List (Rule α)} {ss : List (Rule β)},
    Rules true V r s → Rules false V (firstOf rs) (firstOf ss) → Rules false V (firstOf (r :: rs)) (firstOf (s :: ss))
  always : ∀ {α β : Type} {V : α → β → Prop} {r : Rule α} {s : Rule β} {label : Label} {late}, Rules late V r s →
    Rules late V (some <$> Parse.expect r label : Parse (Option α)) (some <$> Parse.expect s label : Parse (Option β))

/-- Where it does not matter what is late, rules are related as the computations they are. -/
abbrev Sequencing.combining (S : Sequencing) (hlate : ∀ {α β : Type} {V : α → β → Prop} {p : Parse α} {q : Parse β},
    S.Runs false V p q → S.Runs true V p q) : Combining where
  toSequencing := S
  Rules late _ _ V r s := S.Runs late (Option.Rel V) r s
  weakenRule h := S.weaken h
  run h := h
  declines := S.runs_declines
  andThen h hf := S.runs_andThen h hf
  orElse h ho := S.runs_orElse h ho
  orElse_late h ho := S.weaken (S.runs_orElse h (hlate ho))
  always h := S.runs_always h

namespace Combining
variable (C : Combining) {α β γ δ : Type} {V V' : α → β → Prop} {W : γ → δ → Prop} {late : Bool} {label : Label}

section
variable {r : Rule α} {s : Rule β} {f : α → γ} {g : β → δ}

theorem expect (h : C.Rules late V r s) : C.Runs late V (Parse.expect r label) (Parse.expect s label) :=
  C.runs_expect (C.run h)

theorem ruleMap (h : C.Rules late V r s) (hf : ∀ {a b}, V a b → W (f a) (g b)) : C.Rules late W (r.map f) (s.map g) :=
  C.andThen h fun hv => C.pure (hf hv)

theorem ruleMono (h : C.Rules late V r s) (hV : ∀ {a b}, V a b → V' a b) : C.Rules late V' r s := by
  rw [← Rule.andThen_pure r, ← Rule.andThen_pure s]
  exact C.andThen h fun hv => C.pure (hV hv)

end

theorem firstOf {rs : List (Rule α)} {ss : List (Rule β)} (h : Forall₂ (C.Rules true V) rs ss) :
    C.Rules true V (Rule.firstOf rs) (Rule.firstOf ss) := by
  induction h with
  | nil => exact C.declines
  | cons hr _ ih => exact C.orElse hr ih

variable {first first' : Span} {form form' : Form Node}

theorem nodeFrom_begun (hs : C.start first.pos first'.pos) (h : Form.Rel C.number C.node form form') :
    C.Runs true C.begun (nodeFrom first form) (nodeFrom first' form') :=
  C.bind C.get fun hc => C.pure (C.begun_mk h ⟨hs, C.cursor_lastEnd hc⟩)

theorem nodeFrom (hs : C.start first.pos first'.pos) (h : Form.Rel C.number C.node form form') :
    C.Runs true C.node (Parse.nodeFrom first form) (Parse.nodeFrom first' form') :=
  C.mono (C.nodeFrom_begun hs h) And.left

theorem itemStep {item : Rule α} {item' : Rule β} {separator : Rule γ} {separator' : Rule δ}
    (h : C.Rules false V item item') (hs : C.Rules true W separator separator') {a : List α × Bool} {b : List β × Bool}
    (hl : Forall₂ V a.1 b.1 ∧ a.2 = b.2) :
    C.Rules false (fun a b => Forall₂ V a.1 b.1 ∧ a.2 = b.2) (LuaSyntax.itemStep item separator a)
      (LuaSyntax.itemStep item' separator' b) := by
  obtain ⟨listed, separated⟩ := a
  obtain ⟨listed', separated'⟩ := b
  obtain ⟨hl, rfl⟩ := hl
  cases separated with
  | false => exact C.weakenRule C.declines
  | true =>
    refine C.andThen h fun hv => C.bind (C.run hs) fun hfound => C.pure ⟨.cons hv hl, ?_⟩
    cases hfound <;> rfl

end Combining

/-- Relations that are kept by loops too, and that tokens have. -/
structure Congruence extends Combining where
  /-- Tests of what is left of the source that come out alike. -/
  Tests : (Bytes → Bool) → Prop
  tests_level : Tests fun rest => (LongBracket.level? rest).isSome
  tests_endsBlock : Tests Grammar.endsBlock
  guarded : ∀ {α β : Type} {V : α → β → Prop} {r : Rule α} {s : Rule β} {test : Bytes → Bool} {late}, Tests test →
    Rules late V r s → Rules late V (fun c => if test c.rest then .ok none c else r c)
      (fun c => if test c.rest then .ok none c else s c)
  iterate : ∀ {α β : Type} {V : α → β → Prop} {f : α → Rule α} {g : β → Rule β} {a b},
    (∀ {a b}, V a b → Rules true V (f a) (g b)) → V a b → Runs true V (Parse.iterate f a) (Parse.iterate g b)
  /-- The items need not be late, because there is a separator between them. -/
  iterate_items : ∀ {α β γ : Type} {V : α → β → Prop} {W : γ → γ → Prop} {item : Rule α} {item' : Rule β}
    {separator : Rule γ}, Rules false V item item' → Rules true W separator separator → Shallow separator →
    Runs false (fun a b => Forall₂ V a.1 b.1 ∧ a.2 = b.2) (Parse.iterate (itemStep item separator) ([], true))
      (Parse.iterate (itemStep item' separator) ([], true))
  read_bind : ∀ {α γ δ : Type} {V : α → α → Prop} {W : γ → δ → Prop} {r : Rule α} {f : Option α → Parse γ}
    {g : Option α → Parse δ}, Rules true V r r → Shallow r → Runs true W (f .none) (g .none) →
    (∀ {a b}, V a b → Runs false W (f (some a)) (g (some b))) → Runs true W (r >>= f) (r >>= g)
  read_andThen : ∀ {α γ δ : Type} {V : α → α → Prop} {W : γ → δ → Prop} {r : Rule α} {f : α → Parse γ}
    {g : α → Parse δ}, Rules true V r r → Shallow r → (∀ {a b}, V a b → Runs false W (f a) (g b)) →
    Rules true W (r.andThen f) (r.andThen g)
  both : ∀ {α β : Type} {V : α → α → Prop} {W : β → β → Prop} {r : Rule α} {s : Rule β}, Rules true V r r → Shallow r →
    r.LeavesSemicolon → Rules true W s s → Shallow s →
    Rules true (fun a b => V a.1 b.1 ∧ W a.2 b.2) (Rule.both r s) (Rule.both r s)
  read_word : ∀ {word : Bytes} {barred : UInt8 → Bool}, isWord word →
    Rules true toLikeness.read (token (Scan.text word barred)) (token (Scan.text word barred))
  read_semicolon : Rules true toLikeness.read (token (Scan.text [semicolon] never)) (token (Scan.text [semicolon] never))
  read_name : Rules true toLikeness.read (token Scan.name) (token Scan.name)
  read_numeral : Rules true (fun a b => number a.1 ∧ toLikeness.read a b) (token Scan.numeral) (token Scan.numeral)
  read_string : Rules true toLikeness.read (token Scan.string) (token Scan.string)

namespace Congruence
variable {C : Congruence} {α β γ δ : Type}

/-- A rule made of tokens, which both runs have. -/
structure Terminal (C : Congruence) (V : α → α → Prop) (rule : Rule α) : Prop where
  like : C.Rules true V rule rule
  shallow : Shallow rule

namespace Terminal
variable {V : α → α → Prop} {W : β → β → Prop} {rule : Rule α} {rule' : Rule β}

theorem andThen {f : α → Parse γ} {g : α → Parse δ} {U : γ → δ → Prop} (h : C.Terminal V rule)
    (hf : ∀ {a b}, V a b → C.Runs false U (f a) (g b)) : C.Rules true U (rule.andThen f) (rule.andThen g) :=
  C.read_andThen h.like h.shallow hf

theorem bind {f : Option α → Parse γ} {g : Option α → Parse δ} {U : γ → δ → Prop} (h : C.Terminal V rule)
    (hnone : C.Runs true U (f none) (g none)) (hf : ∀ {a b}, V a b → C.Runs false U (f (some a)) (g (some b))) :
    C.Runs true U (rule >>= f) (rule >>= g) :=
  C.read_bind h.like h.shallow hnone hf

/-- A token that has to come. If it does not, nothing is done of what was to follow. -/
theorem expect {f : α → Parse γ} {g : α → Parse δ} {U : γ → δ → Prop} {label : Label} (h : C.Terminal V rule)
    (hf : ∀ {a b}, V a b → C.Runs false U (f a) (g b)) :
    C.Runs true U (Parse.expect rule label >>= f) (Parse.expect rule label >>= g) := by
  rw [Parse.expect, bind_assoc, bind_assoc]
  refine h.bind ?_ fun hv => ?_
  · exact C.bind (V := fun _ _ => False) C.fail False.elim
  · simpa only [pure_bind] using hf hv

theorem map {f : α → β} (h : C.Terminal V rule) (hf : ∀ {a b}, V a b → W (f a) (f b)) : C.Terminal W (rule.map f) :=
  ⟨C.ruleMap h.like hf, shallow_map h.shallow f⟩

theorem firstOf {rules : List (Rule α)} (h : ∀ rule ∈ rules, C.Terminal V rule) : C.Terminal V (Rule.firstOf rules) := by
  refine ⟨C.firstOf (List.forall₂_same.mpr fun rule hm => (h rule hm).like), ?_⟩
  exact shallow_firstOf fun rule hm => (h rule hm).shallow

theorem both (h : C.Terminal V rule) (h' : C.Terminal W rule') (hl : rule.LeavesSemicolon) :
    C.Terminal (fun a b => V a.1 b.1 ∧ W a.2 b.2) (Rule.both rule rule') :=
  ⟨C.both h.like h.shallow hl h'.like h'.shallow, shallow_both h.shallow h'.shallow⟩

theorem symbolUnless {text : String} (barred : UInt8 → Bool) (ht : isWord (.ofString text)) :
    C.Terminal C.token (symbolUnless barred text) :=
  ⟨C.ruleMap (C.read_word ht) And.right, shallow_symbolUnless barred text⟩

theorem symbol {text : String} (ht : isWord (.ofString text)) : C.Terminal C.token (symbol text) := symbolUnless never ht

theorem keyword {word : String} (hw : isWord (.ofString word)) : C.Terminal C.token (keyword word) :=
  symbolUnless isNamePart hw

theorem single {c : Char} (hc : isWord (.ofString c.toString)) : C.Terminal C.token (single c) := symbolUnless (isByte c) hc

theorem semicolon : C.Terminal C.token (Rule.symbol ";") :=
  ⟨C.ruleMap C.read_semicolon And.right, shallow_symbolUnless never ";"⟩

theorem openBracket : C.Terminal C.token openBracket := by
  have hbracket : C.Terminal C.token (Rule.symbol "[") := symbol (by decide)
  exact ⟨C.guarded C.tests_level hbracket.like, shallow_openBracket⟩

end Terminal

end Congruence

end LuaSyntax
