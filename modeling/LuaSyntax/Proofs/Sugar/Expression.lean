import LuaSyntax.Proofs.Shape.WellFormed
import LuaSyntax.Proofs.Swap.Source

/-! # Arguments without parentheses, names after dots and named fields

A string or a table alone is an argument as it is one in parentheses, and a name after a dot or in front
of a field is the key that it is in brackets and quotes.
-/
namespace LuaSyntax
variable {κ : Type}

open Phrase

/-- The only argument of a call, which ends with it: there are no parentheses around it. -/
inductive Node.EndsCall (a : Node) : Node → Prop
  | call {object : Node} {span : Span} (he : a.span.endPos = span.endPos) : EndsCall a ⟨.call object [a], span⟩
  | invoke {object method : Node} {span : Span} (he : a.span.endPos = span.endPos) :
      EndsCall a ⟨.invoke object method [a], span⟩

namespace Phrase
variable {nested : Phrases} {levels size : Nat} {source : Bytes} {s s' first last : Stream} {a n object : Node} {key : Node → κ}

theorem expression_of_simple (h : Simple nested s a s') (hs : ¬ s'.Next Slot.operatorKinds) : Expression nested s a s' := by
  have hsimple : Tiered nested 12 s a s' := h
  refine tiered_of_le (Nat.zero_le 12) (Nat.le_refl _) hsimple fun op _ hn => hs (hn.mono ?_)
  cases op <;> decide

theorem expression_of_string {value : Bytes} {span : Span} (ht : s.Takes (.string value) span s')
    (hs : ¬ s'.Next Slot.operatorKinds) : Expression nested s ⟨.string value, span⟩ s' :=
  expression_of_simple (.inr (.inl ⟨value, span, ht, rfl⟩)) hs

def Bare (nested : Phrases) : Phrase Node := fun s a s' => Table nested s a s' ∨ String s a s'

theorem Bare.simple (h : Bare nested s a s') : Simple nested s a s' := by
  rcases h with h | h
  · exact .inr (.inr (.inr (.inr (.inr (.inr (.inr (.inl h)))))))
  · exact .inr (.inl h)

/-- The last token of a string or a table is read in front of anything but the mark of a long bracket. -/
theorem Bare.ends (h : Bare (phrases levels) s a s') (hs : s.StandsIn source) :
    ∃ (m : Stream) (token : Token) (span : Span), s.Reaches m ∧ m.Takes token span s' ∧
      ∀ new, ∀ lexeme ∈ m.lexemes.head?, lexeme.Precedes new := by
  rcases h with ⟨first, m, hopen, fields, m', hfields, close, hclose, -⟩ | ⟨value, span, ht, -⟩
  · have hr := hopen.reaches.trans (fields_leads hfields)
    refine ⟨m', _, _, hr, hclose, fun new => (hs.reaches hr).precedes_fixed hclose (fun b _ => ?_) nofun⟩
    exact not_joins_plain (by decide) b
  · exact ⟨s, _, _, .refl, ht, hs.precedes_string ht⟩

theorem arguments_bare {limit : Nat} (ho : s.Ordered limit) (h : Arguments (phrases levels) s [a] s')
    (he : a.span.endPos = s'.lastEnd) : Bare (phrases levels) s a s' := by
  rcases h with ⟨first, m, hopen, listed, m', hlisted, close, hclose, hvalues⟩ | ⟨v, hv, heq⟩ | ⟨v, hv, heq⟩
  · obtain ⟨hm, -⟩ := ho.takes hopen
    cases listed with
    | none => cases hvalues
    | some values =>
      obtain rfl : [a] = values := hvalues
      obtain ⟨hm', hnext, -, hitems⟩ := expressions_lists (phrases_spanned limit levels) hm hlisted
      obtain ⟨-, -, -, -, hlt⟩ := hm'.takes hclose
      have hwithin := (hitems.within a (List.mem_singleton_self a)).endPos
      omega
  · obtain rfl := List.singleton_inj.mp heq
    exact .inl hv
  · obtain rfl := List.singleton_inj.mp heq
    exact .inr hv

/-- A call with an argument without parentheses is read as one of the same outline where other arguments
of the same outline are read. -/
theorem suffix_of_bare {limit : Nat} (hk : Node.Outlines key) (ho : first.Ordered limit)
    (h : Suffix (phrases levels) object first n last) (ha : a.EndsCall n) :
    ∃ s, first.Reaches s ∧ Bare (phrases levels) s a last ∧
      ∀ (x : Excerpt) (nested' : Phrases) (a' : Node) (t : Stream), x.position = id → x.after = s.lexemes.length →
        Arguments nested' (x.stream s) [a'] t → key a' = key a → ∀ object', key object' = key object →
          ∃ n', Suffix nested' object' (x.stream first) n' t ∧ key n' = key n := by
  rcases h with ⟨dot, m, -, k, -, rfl⟩ | ⟨bracket, m, -, k, m', -, close, -, rfl⟩ |
    ⟨colon, m, hcolon, method, m', hmethod, values, hvalues, rfl⟩ | ⟨values, hvalues, rfl⟩
  · cases ha
  · cases ha
  · cases ha with
    | invoke he =>
      have hkey : m.Reaches m' := (closes_key (x := default)).free.leads hmethod
      have hr := hcolon.reaches.trans hkey
      refine ⟨m', hr, arguments_bare (hr.ordered ho) hvalues he, ?_⟩
      intro x nested' a' t hid hafter hvalues' ha' object' hobject
      have hcovers := Excerpt.covers_of_id hid first
      have hmethod' := (closes_key.free hmethod).2 (hcovers.takes hcolon) ⟨Nat.le_of_eq hafter, fun _ _ _ => List.not_mem_nil⟩
      have hcolon' := Excerpt.takes hcolon hcovers (hafter ▸ hkey.length_le)
      refine ⟨_, .inr (.inr (.inl ⟨_, _, hcolon', _, _, hmethod', _, hvalues', rfl⟩)), ?_⟩
      have hname : key (x.node method) = key method := hk.respan x.span method
      exact hk.congr (by simp [Form.map, hobject, ha', hname])
  · cases ha with
    | call he =>
      refine ⟨first, .refl, arguments_bare ho hvalues he, ?_⟩
      intro x nested' a' t _ _ hvalues' ha' object' hobject
      exact ⟨_, .inr (.inr (.inr ⟨_, hvalues', rfl⟩)), hk.congr (by simp [Form.map, hobject, ha'])⟩

theorem lays_argument (hk : Node.Outlines key) (hs : s.StandsIn source) (ha : Bare (phrases levels) s a s') :
    Lays (.ofString "(" ++ (source.slice ⟨s.position + 1, s'.lastEnd⟩ ++ (.ofString ")" ++
        ' '.toUInt8 :: source.drop s'.lastEnd))) fun u =>
      u.Next ["("] ∧ ∃ (a' : Node) (back : Excerpt), back.Whole ∧ back.Covers s' ∧
        Arguments (phrases (levels + 1)) u [a'] (back.stream s') ∧ key a' = key a := by
  obtain ⟨m, token, span, hm, ht, hprecedes⟩ := ha.ends hs
  have hclose := (lays_behind (hs.reaches hm) ht).withSymbol ")" (by decide) (by decide)
  have hopen : Unbracketed (.ofString ")" ++ ' '.toUInt8 :: source.drop s'.lastEnd) := Bytes.forall_head (by decide) _
  have hargument := hclose.withSegment hs hm ht (hprecedes _) hopen (fun hd => absurd (Option.some.inj hd) (by decide))
  refine (hargument.withSymbol "(" (by decide) (by decide)).mono ?_
  rintro u ⟨span₁, m₁, htakes, x, hafter, hcovers, rfl, span₂, m₂, htakes', back, hwhole, hback, rfl⟩
  have hleaves : x.Leaves (.apart []) s' := ⟨Nat.le_of_eq hafter, fun _ _ _ => List.not_mem_nil⟩
  have hput : Bare (phrases levels) (x.stream s) (x.node a) (x.stream s') :=
    ha.imp (fun ha => ((closes_table (phrases_carries levels 0)).free ha).2 hcovers hleaves)
      fun ha => (closes_string.free ha).2 hcovers hleaves
  have hexpression : (phrases (levels + 1)).expression (x.stream s) (x.node a) (x.stream s') :=
    expression_of_simple hput.simple (htakes'.opens.disjoint (by decide))
  refine ⟨htakes.opens, x.node a, back, hwhole, hback, .inl ?_, hk.respan x.span a⟩
  have hlist : Expressions (phrases (levels + 1)) (x.stream s) [x.node a] (x.stream s') :=
    ⟨_, _, hexpression, [], ⟨.nil, htakes'.opens.disjoint (by decide)⟩, rfl⟩
  exact ⟨_, _, htakes, some [x.node a], _, hlist, _, htakes', rfl⟩

theorem suffix_of_name {limit : Nat} {name : Bytes} {object' : Node} {k span : Span} (ho : first.Ordered limit)
    (h : Suffix (phrases levels) object first ⟨.index object' ⟨.string name, k⟩, span⟩ last) (he : k.endPos = span.endPos) :
    object' = object ∧ Identifier name ∧ ∃ dot m, first.Takes "." dot m ∧ m.Takes (.name name) k last := by
  rcases h with ⟨dot, m, hdot, k', hk, heq⟩ | ⟨bracket, m, hopen, k', m', hk, close, hclose, heq⟩ |
    ⟨colon, m, -, method, m', -, values, -, heq⟩ | ⟨values, -, heq⟩
  · obtain ⟨text, htext, span', ht, rfl⟩ := hk
    cases heq
    exact ⟨rfl, htext, dot, m, hdot, ht⟩
  · cases heq
    obtain ⟨hm, -⟩ := ho.takes hopen
    obtain ⟨hm', hnext, -, hend, -⟩ := (phrases_spanned limit levels).expression hm hk
    obtain ⟨-, -, -, -, hlt⟩ := hm'.takes hclose
    simp only at he hend
    omega
  · cases heq
  · cases heq

theorem lays_key {name : Bytes} (hi : Identifier name) (hs : s.StandsIn source) {token : Token} {span : Span}
    (ht : s.Takes token span s') :
    Lays (.ofString "[" ++ ('"'.toUInt8 :: name ++ ['"'.toUInt8] ++ (.ofString "]" ++
        ' '.toUInt8 :: source.drop s'.lastEnd))) fun u =>
      u.Next ["["] ∧ ∃ (span : Span) (back : Excerpt), back.Whole ∧ back.Covers s' ∧ ∀ object,
        Suffix (phrases (levels + 1)) object u ⟨.index object ⟨.string name, span⟩, object.span.pos, (back.stream s').lastEnd⟩
          (back.stream s') := by
  have hclose := ((lays_behind hs ht).withSymbol "]" (by decide) (by decide)).withQuoted hi
  refine (hclose.withFixed "[" (by decide) (by decide) (Bytes.forall_head (by decide +kernel) _)
    fun _ => Bytes.forall_head (by decide) _).mono ?_
  rintro u ⟨span₁, m₁, htakes, span₂, m₂, hstring, span₃, m₃, htakes', back, hwhole, hback, rfl⟩
  refine ⟨htakes.opens, span₂, back, hwhole, hback, fun object => .inr (.inl ?_)⟩
  have hexpression : (phrases (levels + 1)).expression m₁ ⟨.string name, span₂⟩ m₂ :=
    expression_of_string hstring (htakes'.opens.disjoint (by decide))
  exact ⟨_, _, htakes, _, _, hexpression, _, htakes', rfl⟩

theorem field_of_name {limit : Nat} {name : Bytes} {value : Node} {k span : Span} (ho : first.Ordered limit)
    (h : Field (phrases levels) first ⟨.pair ⟨.string name, k⟩ value, span⟩ last) (hp : k.pos = span.pos) :
    Identifier name ∧ span = ⟨first.position + 1, last.lastEnd⟩ ∧ ∃ m equals m', first.Takes (.name name) k m ∧
      m.Takes "=" equals m' ∧ (phrases levels).expression m' value last := by
  rcases h with ⟨bracket, m, hopen, k', m', hk, close, m₁, -, equals, m₂, -, value', -, heq⟩ |
    ⟨k', m, ⟨text, htext, span', ht, rfl⟩, equals, m', hequals, value', hvalue, heq⟩ | ⟨-, hv⟩
  · cases heq
    obtain ⟨hm, hnext, hopen, -, hlt⟩ := ho.takes hopen
    obtain ⟨-, -, hpos, -⟩ := (phrases_spanned limit levels).expression hm hk
    simp only at hp hpos
    omega
  · cases heq
    obtain ⟨-, -, hpos, -⟩ := ho.takes ht
    exact ⟨htext, by rw [hpos], m, equals, m', ht, hequals, hvalue⟩
  · have hexpression := Node.isExpression_of_isOperand ((phrases_shaped levels).expression hv).fits
    cases hexpression

theorem lays_pair {name : Bytes} {value : Node} {m m' : Stream} {equals : Span} (hk : Node.Outlines key) (hi : Identifier name)
    (hm : m.StandsIn source) (hequals : m.Takes "=" equals m') (hv : (phrases levels).expression m' value last) :
    Lays (.ofString "[" ++ ('"'.toUInt8 :: name ++ ['"'.toUInt8] ++ (.ofString "]" ++ ' '.toUInt8 :: (Bytes.ofString "=" ++
        ' '.toUInt8 :: (source.slice ⟨m'.position + 1, last.lastEnd⟩ ++ ' '.toUInt8 :: source.drop last.lastEnd))))) fun u =>
      u.Next ["["] ∧ ∃ (span : Span) (value' : Node) (back : Excerpt), back.Whole ∧ back.Covers last ∧ key value' = key value ∧
        ∃ pos, Field (phrases (levels + 1)) u ⟨.pair ⟨.string name, span⟩ value', pos, (back.stream last).lastEnd⟩
          (back.stream last) := by
  have hr : m'.Reaches last := ((phrases_carries levels 1).expression (x := default)).leads hv
  obtain ⟨m₁, token, span, hm₁, ht⟩ := hequals.last hr
  have hrest := lays_rest (hm.takes hequals).1 hr (hm.reaches hm₁) ht
  have hvalue := hrest.withSpace.withFixed "=" (by decide) (by decide) (Bytes.forall_head (by decide) _) nofun
  have hclose := (hvalue.withSpace.withSymbol "]" (by decide) (by decide)).withQuoted hi
  refine (hclose.withFixed "[" (by decide) (by decide) (Bytes.forall_head (by decide +kernel) _)
    fun _ => Bytes.forall_head (by decide) _).mono ?_
  rintro u ⟨span₁, u₁, hopen, span₂, u₂, hstring, span₃, u₃, hclose', span₄, u₄, hequals', back, hwhole, hback, rfl⟩
  have hexpression : (phrases (levels + 1)).expression u₁ ⟨.string name, span₂⟩ u₂ :=
    expression_of_string hstring (hclose'.opens.disjoint (by decide))
  have hput := ((phrases_carries levels 1).expression hv).2 hback (hwhole.leaves _ _)
  refine ⟨hopen.opens, span₂, back.node value, back, hwhole, hback.reaches hr, hk.respan back.span value, span₁.pos, .inl ?_⟩
  exact ⟨_, _, hopen, _, _, hexpression, _, _, hclose', _, _, hequals', _, hput, rfl⟩

end Phrase

section Sources
variable {source : Bytes} {limit : Nat} {filename : String} {root : Node}

theorem parse_parenthesized (h : parse source limit filename = .ok root) {n a : Node} (hn : n.Inside root)
    (ha : a.EndsCall n) :
    ∃ root', (source.replace a.span (.ofString " (" ++ source.slice a.span ++ .ofString ") ")).AcceptedAs root' ∧
      root'.EqBare root := by
  have htag : n.tag.isSwappable := by cases ha <;> rfl
  obtain ⟨whole, slot, levels, first, last, hstands, -, hfirst, hreads, hparse⟩ := parse_swapped h Node.outlines_bare htag hn
  have ho := hstands.ordered
  cases slot with
  | field =>
    have hpair := hreads.2
    cases ha <;> cases hpair
  | statement =>
    have hassignment := hreads.2.1
    cases ha <;> cases hassignment
  | suffix object =>
    obtain ⟨s, hr, hbare, hsuffix⟩ := suffix_of_bare Node.outlines_bare (hfirst.ordered ho) hreads.1 ha
    have hs := hstands.reaches (hfirst.trans hr)
    have hlays := lays_argument Node.outlines_bare hs hbare
    obtain ⟨-, -, hpos, hend, hlt, -⟩ := spanned_simple (phrases_spanned source.length levels) hs.ordered hbare.simple
    have hspan : a.span = ⟨s.position + 1, last.lastEnd⟩ := by rw [← hpos, ← hend]
    obtain ⟨m, token, span, hm, ht, -⟩ := hbare.ends hs
    have hfills (x : Excerpt) (hid : x.position = id) (hafter : x.after = s.lexemes.length)
        (hargument : (x.stream s).Next ["("] ∧ ∃ (a' : Node) (back : Excerpt), back.Whole ∧ back.Covers last ∧
          Arguments (phrases (levels + 1)) (x.stream s) [a'] (back.stream last) ∧ a'.bare = a.bare) :
        ¬ (x.stream s).Next ["="] ∧ ∃ back : Excerpt, back.Whole ∧ back.Covers last ∧
          (Slot.suffix object).Fills Node.bare (phrases (levels + 1)) n (x.stream first) (back.stream last) := by
      obtain ⟨hnext, a', back, hwhole, hback, harguments, hkey⟩ := hargument
      exact ⟨hnext.disjoint (by decide), back, hwhole, hback, hsuffix x _ a' _ hid hafter harguments hkey⟩
    obtain ⟨root', haccepted, halike⟩ := hparse s _ _ hr (hm.ne_nil ht.ne_nil) hlays hfills
    refine ⟨root', ?_, halike⟩
    rw [hspan]
    simp only [Bytes.replace, List.append_assoc]
    exact haccepted

theorem parse_bracketed (h : parse source limit filename = .ok root) {object : Node} {name : Bytes} {key span : Span}
    (hn : (⟨.index object ⟨.string name, key⟩, span⟩ : Node).Inside root) (he : key.endPos = span.endPos) :
    ∃ dot, source.OnlyTrivia object.span.endPos dot ∧ source[dot]? = some '.'.toUInt8 ∧
      source.OnlyTrivia (dot + 1) (key.pos - 1) ∧
      ∃ root', (source.replace ⟨dot + 1, span.endPos⟩ (.ofString " [\"" ++ name ++ .ofString "\"] ")).AcceptedAs root' ∧
        root'.EqBare root := by
  obtain ⟨whole, slot, levels, first, last, hstands, hzero, hfirst, hreads, hparse⟩ :=
    parse_swapped h Node.outlines_bare rfl hn
  have ho := hstands.ordered
  cases slot with
  | field => cases hreads.2
  | statement => cases hreads.2.1
  | suffix object' =>
    obtain ⟨hsuffix, hobject⟩ := hreads
    obtain ⟨rfl, hi, dot, m, hdot, ht⟩ := suffix_of_name (hfirst.ordered ho) hsuffix he
    have hs := hstands.reaches hfirst
    obtain ⟨hbyte, hlast⟩ := hs.fixed hdot
    have hm := (hs.takes hdot).1
    obtain ⟨-, -, hpos, hend, -⟩ := hm.ordered.takes ht
    have hobject' : first.lastEnd ≠ whole.lastEnd := by
      obtain ⟨hspanned, hspan⟩ := parse_spanned h
      have hchild : object ∈ root.preorder :=
        hn.mem_preorder (Node.mem_preorder_of_child (.head _) (Node.mem_preorder_self object))
      obtain ⟨hle, -⟩ := hspanned object hchild
      obtain ⟨hpos, -⟩ := hspanned.contains object hchild
      rw [hspan] at hpos
      simp only at hpos
      omega
    refine ⟨first.position, hobject ▸ hstands.onlyTrivia_of_reaches hfirst hobject', ?_, ?_, ?_⟩
    · rw [← List.head?_drop, hbyte]
      rfl
    · have honly := hs.onlyTrivia hdot
      rw [hlast] at honly
      rw [hpos]
      exact honly
    · have hfills (x : Excerpt) (_ : x.position = id) (_ : x.after = first.lexemes.length)
          (hkey : (x.stream first).Next ["["] ∧ ∃ (span' : Span) (back : Excerpt), back.Whole ∧ back.Covers last ∧
            ∀ v, Suffix (phrases (levels + 1)) v (x.stream first)
              ⟨.index v ⟨.string name, span'⟩, v.span.pos, (back.stream last).lastEnd⟩ (back.stream last)) :
          ¬ (x.stream first).Next ["="] ∧ ∃ back : Excerpt, back.Whole ∧ back.Covers last ∧
            (Slot.suffix object).Fills Node.bare (phrases (levels + 1)) ⟨.index object ⟨.string name, key⟩, span⟩
              (x.stream first) (back.stream last) := by
        obtain ⟨hnext, span', back, hwhole, hback, hput⟩ := hkey
        refine ⟨hnext.disjoint (by decide), back, hwhole, hback, fun v hv => ⟨_, hput v, ?_⟩⟩
        have hname : (⟨.string name, span'⟩ : Node).bare = (⟨.string name, key⟩ : Node).bare := rfl
        exact Node.outlines_bare.congr (by simp [Form.map, hv, hname])
      obtain ⟨root', haccepted, halike⟩ := hparse first _ _ .refl hdot.ne_nil (lays_key hi hm ht) hfills
      refine ⟨root', ?_, halike⟩
      rw [← he, hend]
      simp only [Bytes.replace, List.append_assoc] at haccepted ⊢
      exact haccepted

theorem parse_keyed (h : parse source limit filename = .ok root) {name : Bytes} {value : Node} {key span : Span}
    (hn : (⟨.pair ⟨.string name, key⟩ value, span⟩ : Node).Inside root) (hp : key.pos = span.pos) :
    ∃ root', (source.replace span (.ofString " [\"" ++ name ++ .ofString "\"] = " ++ source.slice value.span ++
        .ofString " ")).AcceptedAs root' ∧ root'.EqBare root := by
  obtain ⟨whole, slot, levels, first, last, hstands, -, hfirst, hreads, hparse⟩ :=
    parse_swapped h Node.outlines_bare rfl hn
  have ho := hstands.ordered
  cases slot with
  | suffix object =>
    obtain ⟨⟨_, _, -, _, -, heq⟩ | ⟨_, _, -, _, _, -, _, -, heq⟩ | ⟨_, _, -, _, _, -, _, -, heq⟩ | ⟨_, -, heq⟩, -⟩ := hreads
    all_goals cases heq
  | statement => cases hreads.2.1
  | field =>
    obtain ⟨hi, rfl, m, equals, m', ht, hequals, hv⟩ := field_of_name (hfirst.ordered ho) hreads.1 hp
    have hs := hstands.reaches hfirst
    have hm := (hs.takes ht).1
    have hlays := lays_pair Node.outlines_bare hi hm hequals hv
    have hfills (x : Excerpt) (_ : x.position = id) (_ : x.after = first.lexemes.length)
        (hpair : (x.stream first).Next ["["] ∧ ∃ (span' : Span) (value' : Node) (back : Excerpt), back.Whole ∧
          back.Covers last ∧ value'.bare = value.bare ∧ ∃ pos, Field (phrases (levels + 1)) (x.stream first)
            ⟨.pair ⟨.string name, span'⟩ value', pos, (back.stream last).lastEnd⟩ (back.stream last)) :
        ¬ (x.stream first).Next ["="] ∧ ∃ back : Excerpt, back.Whole ∧ back.Covers last ∧
          Slot.field.Fills Node.bare (phrases (levels + 1)) ⟨.pair ⟨.string name, key⟩ value, first.position + 1, last.lastEnd⟩
            (x.stream first) (back.stream last) := by
      obtain ⟨hnext, span', value', back, hwhole, hback, hvalue, pos, hput⟩ := hpair
      refine ⟨hnext.disjoint (by decide), back, hwhole, hback, _, hput, ?_⟩
      have hname : (⟨.string name, span'⟩ : Node).bare = (⟨.string name, key⟩ : Node).bare := rfl
      exact Node.outlines_bare.congr (by simp [Form.map, hname, hvalue])
    obtain ⟨root', haccepted, halike⟩ := hparse first _ _ .refl ht.ne_nil hlays hfills
    refine ⟨root', ?_, halike⟩
    obtain ⟨-, -, hpos, hend, -⟩ := (phrases_spanned source.length levels).expression (hm.takes hequals).1.ordered hv
    have hspan : value.span = ⟨m'.position + 1, last.lastEnd⟩ := by rw [← hpos, ← hend]
    rw [hspan]
    simp only [Bytes.replace, List.append_assoc] at haccepted ⊢
    exact haccepted

end Sources

end LuaSyntax
