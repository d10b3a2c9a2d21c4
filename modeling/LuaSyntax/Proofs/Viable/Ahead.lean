import LuaSyntax.Proofs.Phrase.Expression
import LuaSyntax.Proofs.Print.Spells

/-! # What comes next in two sources

A source that fails to parse is compared with one that goes on otherwise from the failure on. Up to
there the same tokens come next in both, and a rule that declines in the one declines in the other.
Behind that, what comes next in the other source ends everything that has been read.
-/
namespace LuaSyntax

open Rule Parse Grammar

/-- A token begins at a place of a source, which may be cut off within it or go on with it otherwise. -/
inductive Place.Opens (p : Place) : Token → Prop
  | reads {token : Token} {p' : Place} (h : p.Reads token p') : Opens p token
  | front {op : BinaryOp} (ho : op ∈ [BinaryOp.lt, .gt, .div]) (hp : Bytes.ofString op.text <+: p.rest) :
      Opens p (.fixed op.text)
  | number {value : Number} {e : Failure} (h : Scan.numeral p = .error e) : Opens p (.number value)
  | string {value : Bytes} {e : Failure} (h : Scan.string p = .error e) : Opens p (.string value)

/-- The tokens that end an expression where they stand behind it. -/
def closers : List Kind := [")", "]", "\x7d", ",", "then", "do", "end", "until", "in", .name]

/-- The token that begins at the cursor of a source comes next in another one. -/
def Cursor.Meets (c : Cursor) (s : Stream) : Prop := ∃ token, c.toPlace.Opens token ∧ s.next? = some token

/-- The source ends, or a token of one of some kinds comes next. -/
def Stream.Halts (kinds : List Kind) (s : Stream) : Prop := s.lexemes = [] ∨ s.Next kinds

/-- Behind a name at the cursor, the same token comes next in another source, or one that ends an
expression. -/
def Cursor.Firm (c : Cursor) (s : Stream) : Prop :=
  ∀ ⦃lexeme m span s'⦄, c.Reads lexeme m → lexeme.token.kind = .name → s.Takes lexeme.token span s' →
    m.Meets s' ∨ s'.Halts closers

/-- What comes next in another source where a source has been read to a cursor: what begins there, the
end or a token of some kinds, and none of some other kinds. -/
inductive Ahead where
  | anything
  | limited (halts bars : List Kind) (firm : Bool)

namespace Ahead

def Sees : Ahead → Cursor → Stream → Prop
  | anything, _, _ => True
  | limited halts bars firm, c, s => (c.Meets s ∧ (firm → c.Firm s) ∨ s.Halts halts) ∧ ¬ s.Next bars

/-- What comes next in the other source where nothing is left to read of the source itself. -/
def Ends : Ahead → Stream → Prop
  | anything, _ => True
  | limited halts bars _, s => s.Halts halts ∧ ¬ s.Next bars

/-- One expectation holds wherever another does. -/
def Within : Ahead → Ahead → Prop
  | _, anything => True
  | limited halts bars firm, limited halts' bars' firm' =>
      (∀ kind ∈ halts, kind ∈ halts') ∧ (∀ kind ∈ bars', kind ∈ bars) ∧ (firm' → firm)
  | anything, limited .. => False

instance (ahead ahead' : Ahead) : Decidable (ahead.Within ahead') :=
  match ahead, ahead' with
  | anything, anything => isTrue trivial
  | limited .., anything => isTrue trivial
  | limited halts bars firm, limited halts' bars' firm' =>
      inferInstanceAs (Decidable ((∀ kind ∈ halts, kind ∈ halts') ∧ (∀ kind ∈ bars', kind ∈ bars) ∧ (firm' → firm)))
  | anything, limited .. => isFalse id

/-- Nothing that is expected begins with one of some kinds, of which some are barred. -/
def Spares (kinds silent : List Kind) : Ahead → Prop
  | anything => False
  | limited halts bars _ => (∀ kind ∈ halts, kind ∉ kinds ++ silent) ∧ ∀ kind ∈ silent, kind ∈ bars

instance (kinds silent : List Kind) (ahead : Ahead) : Decidable (ahead.Spares kinds silent) :=
  match ahead with
  | anything => isFalse id
  | limited halts bars _ =>
      inferInstanceAs (Decidable ((∀ kind ∈ halts, kind ∉ kinds ++ silent) ∧ ∀ kind ∈ silent, kind ∈ bars))

variable {ahead ahead' : Ahead} {c : Cursor} {s : Stream}

theorem Spares.mono {kinds kinds' silent silent' : List Kind} (h : ahead.Spares kinds silent)
    (hk : ∀ kind ∈ kinds', kind ∈ kinds) (hs : ∀ kind ∈ silent', kind ∈ silent) : ahead.Spares kinds' silent' := by
  cases ahead with
  | anything => exact h
  | limited halts bars firm =>
    refine ⟨fun kind hh hm => h.1 kind hh ?_, fun kind hm => h.2 kind (hs kind hm)⟩
    exact List.mem_append.mpr ((List.mem_append.mp hm).imp (hk kind) (hs kind))

theorem Sees.mono (h : ahead.Sees c s) (hw : ahead.Within ahead') : ahead'.Sees c s := by
  cases ahead' with
  | anything => exact trivial
  | limited halts' bars' firm' =>
    cases ahead with
    | anything => exact hw.elim
    | limited halts bars firm =>
      obtain ⟨hhalts, hbars, hfirm⟩ := hw
      obtain ⟨hs, hb⟩ := h
      refine ⟨?_, fun hn => hb (hn.mono hbars)⟩
      rcases hs with ⟨hmeets, hf⟩ | hnil | hn
      · exact .inl ⟨hmeets, fun h => hf (hfirm h)⟩
      · exact .inr (.inl hnil)
      · exact .inr (.inr (hn.mono hhalts))

theorem Ends.mono (h : ahead.Ends s) (hw : ahead.Within ahead') : ahead'.Ends s := by
  cases ahead' with
  | anything => exact trivial
  | limited halts' bars' firm' =>
    cases ahead with
    | anything => exact hw.elim
    | limited halts bars firm =>
      obtain ⟨hhalts, hbars, -⟩ := hw
      obtain ⟨hs, hb⟩ := h
      exact ⟨hs.imp_right fun hn => hn.mono hhalts, fun hn => hb (hn.mono hbars)⟩

theorem Ends.sees (h : ahead.Ends s) (c : Cursor) : ahead.Sees c s := by
  cases ahead with
  | anything => exact trivial
  | limited halts bars firm => exact ⟨.inr h.1, h.2⟩

theorem Within.refl (ahead : Ahead) : ahead.Within ahead := by
  cases ahead with
  | anything => exact trivial
  | limited halts bars firm => exact ⟨fun _ h => h, fun _ h => h, id⟩

theorem within_anything (ahead : Ahead) : ahead.Within anything := by cases ahead <;> exact trivial

/-- Where the tokens at the cursor are of other kinds, none of some kinds comes next. -/
theorem Sees.not_next {kinds silent : List Kind} (h : ahead.Sees c s) (hs : ahead.Spares kinds silent)
    (ht : ∀ {token}, c.toPlace.Opens token → token.kind ∉ kinds) : ¬ s.Next (kinds ++ silent) := by
  cases ahead with
  | anything => exact hs.elim
  | limited halts bars firm =>
    obtain ⟨hhalts, hbars⟩ := hs
    obtain ⟨hs, hb⟩ := h
    rintro ⟨token, hn, hk⟩
    rcases List.mem_append.mp hk with hk | hk
    · rcases hs with ⟨⟨token', hopens, hn'⟩, -⟩ | hnil | ⟨token', hn', hk'⟩
      · rw [hn] at hn'
        obtain rfl := Option.some.inj hn'
        exact ht hopens hk
      · exact Stream.not_next_of_nil hnil ⟨token, hn, hk⟩
      · rw [hn] at hn'
        obtain rfl := Option.some.inj hn'
        exact hhalts _ hk' (List.mem_append_left _ hk)
    · exact hb ⟨token, hn, hbars _ hk⟩

theorem Ends.not_next {kinds silent : List Kind} (h : ahead.Ends s) (hs : ahead.Spares kinds silent) :
    ¬ s.Next (kinds ++ silent) := by
  cases ahead with
  | anything => exact hs.elim
  | limited halts bars firm =>
    rcases h.1 with hnil | hn
    · exact Stream.not_next_of_nil hnil
    · exact hn.disjoint hs.1

end Ahead

variable {α β : Type} {c c' : Cursor} {s s' : Stream} {deep : Prop}

/-- A rule declines in front of a stream. -/
def Rule.Lacks (rule : Rule α) (s : Stream) : Prop := ∀ ⦃d⦄, Lexed d s → rule d = .ok none d

/-- A computation leads from one stream to another, with a result of a kind. -/
def Parse.Gets (p : Parse α) (P : α → Prop) (s s' : Stream) : Prop :=
  ∀ ⦃d⦄, Lexed d s → ∃ a d', p d = .ok a d' ∧ P a ∧ Lexed d' s'

/-- A rule matches what leads from one stream to another. -/
def Rule.Gets (rule : Rule α) (P : α → Prop) (s s' : Stream) : Prop :=
  ∀ ⦃d⦄, Lexed d s → ∃ a d', rule d = .ok (some a) d' ∧ P a ∧ Lexed d' s'

/-- Where a rule declines, none of the tokens that it matches begins, and so the rule for another source
declines if what comes next there is as expected. Of the silent kinds it cannot be told where they
begin. -/
structure Rule.Settles (deep : Prop) (rule rule' : Rule α) (kinds silent : List Kind) : Prop where
  tells : ∀ {c c'}, rule c = .ok none c' → ∀ {token}, c.toPlace.Opens token → token.kind ∉ kinds
  lacks : (deep ∨ ∃ c c', rule c = .ok none c') → ∀ {s}, ¬ s.Next (kinds ++ silent) → rule'.Lacks s

namespace Rule
variable {rule rule' : Rule α} {kinds kinds' silent silent' : List Kind} {ahead : Ahead}

theorem Settles.sees (h : Settles deep rule rule' kinds silent) (ho : rule c = .ok none c')
    (hs : ahead.Sees c s) (hk : ahead.Spares kinds silent) : rule'.Lacks s :=
  h.lacks (.inr ⟨c, c', ho⟩) (hs.not_next hk (h.tells ho))

theorem Settles.ends (h : Settles deep rule rule' kinds silent) (hd : deep) (hs : ahead.Ends s)
    (hk : ahead.Spares kinds silent) : rule'.Lacks s :=
  h.lacks (.inl hd) (hs.not_next hk)

theorem Lacks.andThen {f : α → Parse β} (h : rule.Lacks s) : Lacks (rule.andThen f) s :=
  fun _ hd => andThen_eq_none.mpr (h hd)

theorem Lacks.firstOf_cons {others : List (Rule α)} (h : rule.Lacks s) (ho : Lacks (firstOf others) s) :
    Lacks (firstOf (rule :: others)) s :=
  fun d hd => firstOf_cons_eq_none.mpr ⟨d, h hd, ho hd⟩

theorem lacks_firstOf_nil : Lacks (firstOf ([] : List (Rule α))) s := fun _ _ => firstOf_nil_eq_none.mpr rfl

theorem Settles.andThen (h : Settles deep rule rule' kinds silent) (f g : α → Parse β) :
    Settles deep (rule.andThen f) (rule'.andThen g) kinds silent where
  tells ho := h.tells (andThen_eq_none.mp ho)
  lacks hd _ hs := (h.lacks (hd.imp_right fun ⟨c, c', ho⟩ => ⟨c, c', andThen_eq_none.mp ho⟩) hs).andThen

theorem Settles.map (h : Settles deep rule rule' kinds silent) (f g : α → β) :
    Settles deep (rule.map f) (rule'.map g) kinds silent := h.andThen _ _

theorem settles_firstOf_nil : Settles deep (firstOf ([] : List (Rule α))) (firstOf []) [] [] where
  tells _ _ _ := List.not_mem_nil
  lacks _ _ _ := lacks_firstOf_nil

theorem Settles.firstOf_cons {others others' : List (Rule α)} (h : Settles deep rule rule' kinds silent)
    (ho : Settles deep (firstOf others) (firstOf others') kinds' silent') (hs : rule.Steady) :
    Settles deep (firstOf (rule :: others)) (firstOf (rule' :: others')) (kinds ++ kinds') (silent ++ silent') where
  tells hc _ hopens := by
    obtain ⟨m, hr, hr'⟩ := firstOf_cons_eq_none.mp hc
    obtain rfl := hs.stays hr
    rw [List.mem_append, not_or]
    exact ⟨h.tells hr hopens, ho.tells hr' hopens⟩
  lacks hd s hn := by
    have hfirst : ¬ s.Next (kinds ++ silent) := fun hk => hn (hk.mono (by grind))
    have hothers : ¬ s.Next (kinds' ++ silent') := fun hk => hn (hk.mono (by grind))
    refine (h.lacks (hd.imp_right ?_) hfirst).firstOf_cons (ho.lacks (hd.imp_right ?_) hothers)
    · rintro ⟨c, c', hc⟩
      obtain ⟨m, hr, -⟩ := firstOf_cons_eq_none.mp hc
      exact ⟨c, m, hr⟩
    · rintro ⟨c, c', hc⟩
      obtain ⟨m, -, hr⟩ := firstOf_cons_eq_none.mp hc
      exact ⟨m, c', hr⟩

theorem Settles.singleton (h : Settles deep rule rule' kinds silent) (hs : rule.Steady) :
    Settles deep (firstOf [rule]) (firstOf [rule']) kinds silent := by
  have hcons := h.firstOf_cons settles_firstOf_nil hs
  rwa [List.append_nil, List.append_nil] at hcons

/-- Fewer kinds are told apart where the others are of no matter. -/
theorem Settles.congr (h : Settles deep rule rule' kinds silent) (hk : ∀ kind ∈ kinds', kind ∈ kinds)
    (hs : ∀ kind ∈ kinds ++ silent, kind ∈ kinds' ++ silent') : Settles deep rule rule' kinds' silent' where
  tells ho _ hopens hm := h.tells ho hopens (hk _ hm)
  lacks hd _ hn := h.lacks hd fun hnext => hn (hnext.mono hs)

end Rule

end LuaSyntax
