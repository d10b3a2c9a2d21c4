import LuaSyntax.Proofs.Span.Order
import LuaSyntax.Proofs.Phrase.Grammar
import LuaSyntax.Proofs.Respan

/-! # Excerpts of streams

The lexemes of a phrase, taken out of their stream and put elsewhere, are a stream of their
own that ends where the phrase does. What comes next in it comes next in the whole stream,
so that nothing goes on with a phrase that did not go on with it before.
-/
namespace LuaSyntax

namespace Stream

/-- Reading some tokens leads from one stream to another. -/
inductive Reaches : Stream → Stream → Prop
  | refl {s : Stream} : Reaches s s
  | take {s m s' : Stream} {token : Token} {span : Span} (h : s.Takes token span m) (hs : Reaches m s') :
      Reaches s s'

variable {s m s' : Stream} {token : Token} {span : Span} {kinds : List Kind}

theorem Takes.reaches (h : s.Takes token span s') : s.Reaches s' := .take h .refl

theorem Reaches.trans (h : s.Reaches m) (h' : m.Reaches s') : s.Reaches s' := by
  induction h with
  | refl => exact h'
  | take ht _ ih => exact .take ht (ih h')

theorem Takes.length (h : s.Takes token span s') : s.lexemes.length = s'.lexemes.length + 1 := by
  obtain ⟨lexeme, hl, -⟩ := h
  rw [hl, List.length_cons]

theorem Reaches.length_le (h : s.Reaches s') : s'.lexemes.length ≤ s.lexemes.length := by
  induction h with
  | refl => exact Nat.le_refl _
  | take ht _ ih =>
    have := ht.length
    omega

theorem Takes.ne_nil (h : s.Takes token span s') : s.lexemes ≠ [] := by
  obtain ⟨lexeme, hl, -⟩ := h
  exact hl ▸ List.cons_ne_nil lexeme _

/-- Something is left before what is left. -/
theorem Reaches.ne_nil (h : s.Reaches s') (hs : s'.lexemes ≠ []) : s.lexemes ≠ [] := by
  cases h with
  | refl => exact hs
  | take ht _ => exact ht.ne_nil

theorem Reaches.ordered {limit : Nat} (h : s.Reaches s') (ho : s.Ordered limit) : s'.Ordered limit := by
  induction h with
  | refl => exact ho
  | take ht _ ih => exact ih (ho.takes ht).1

theorem Reaches.position_le {limit : Nat} (h : s.Reaches s') (ho : s.Ordered limit) : s.position ≤ s'.position := by
  induction h with
  | refl => exact Nat.le_refl _
  | take ht _ ih =>
    obtain ⟨ho', hn, -, -, hlt⟩ := ho.takes ht
    have hle := ih ho'
    omega

end Stream

/-- Where an excerpt is put: the number of lexemes after it in the whole stream, where the
positions of the whole source go, the lexemes that come after it there, and the offset of the end
of the source there. -/
structure Excerpt where
  after : Nat
  position : Nat → Nat
  tail : List Lexeme
  sourceEnd : Nat
  deriving Inhabited

/-- What is left of an excerpt after a phrase: a token at least, or maybe nothing, and then no token
of some kinds comes after the excerpt. -/
inductive Room where
  | token
  | apart (kinds : List Kind)

/-- A room that is asked for wherever another one is. -/
def Room.Within : Room → Room → Prop
  | _, .token => True
  | .apart kinds, .apart others => ∀ kind ∈ kinds, kind ∈ others
  | .token, .apart _ => False

/-- A token is as much room as any. -/
theorem Room.within_token {room : Room} : room.Within .token := by cases room <;> exact trivial

theorem Room.Within.trans {room room' room'' : Room} (h : room.Within room') (h' : room'.Within room'') :
    room.Within room'' := by
  cases room'' with
  | token => exact within_token
  | apart kinds =>
    cases room' with
    | token => exact h'.elim
    | apart others =>
      cases room with
      | token => exact h.elim
      | apart _ => exact fun kind hk => h' kind (h kind hk)

instance (room room' : Room) : Decidable (room.Within room') :=
  match room, room' with
  | .token, .token => isTrue trivial
  | .apart _, .token => isTrue trivial
  | .apart kinds, .apart others => inferInstanceAs (Decidable (∀ kind ∈ kinds, kind ∈ others))
  | .token, .apart _ => isFalse id

namespace Excerpt

/-- An excerpt from an offset on that is moved to another offset, after a token that ends
somewhere, and with nothing after it. -/
def moved (after first place lastEnd sourceEnd : Nat) : Excerpt where
  after := after
  position p := if p ≤ first then lastEnd else p + place - first
  tail := []
  sourceEnd := sourceEnd

theorem moved_position {after first place lastEnd sourceEnd p : Nat} (h : first < p) :
    (moved after first place lastEnd sourceEnd).position p = p + place - first :=
  if_neg (Nat.not_le.mpr h)

section Definitions
variable (x : Excerpt)

def span (old : Span) : Span := ⟨x.position old.pos, x.position old.endPos⟩

def lexeme (lexeme : Lexeme) : Lexeme := { lexeme with offset := x.position (lexeme.offset + 1) - 1 }

/-- The lexemes of a stream that belong to the excerpt, and what comes after it. -/
def stream (s : Stream) : Stream :=
  ⟨(s.lexemes.take (s.lexemes.length - x.after)).map x.lexeme ++ x.tail, x.position s.lastEnd, x.sourceEnd⟩

def node (v : Node) : Node := v.respan x.span

/-- The lexemes of a stream are put somewhere as they are, each from its first byte to its last. -/
def Covers (s : Stream) : Prop := ∀ lexeme ∈ s.lexemes,
  0 < x.position (lexeme.offset + 1) ∧
    x.position (lexeme.offset + lexeme.spelling.length) + 1 =
      x.position (lexeme.offset + 1) + lexeme.spelling.length

/-- What comes after the excerpt does not begin with a token of some kinds. -/
def Apart (kinds : List Kind) : Prop := ∀ lexeme ∈ x.tail.head?, lexeme.token.kind ∉ kinds

/-- A stream in the excerpt leaves some room. -/
def Leaves : Room → Stream → Prop
  | .token, s => x.after < s.lexemes.length
  | .apart kinds, s => x.after ≤ s.lexemes.length ∧ (s.lexemes.length = x.after → x.Apart kinds)

/-- What comes after the excerpt is no name after a comma. -/
def Clear (s : Stream) : Prop := x.Apart [.name] ∨ ¬ s.Next [","]

/-- A condition becomes another one in the excerpt where it leaves some room. -/
def Keeps (room : Room) (cond cond' : Stream → Prop) : Prop := ∀ s, x.Leaves room s → cond s → cond' (x.stream s)

end Definitions

variable {x : Excerpt} {s s' : Stream} {token : Token} {taken : Span} {kinds : List Kind} {room room' : Room}

theorem Covers.takes (h : x.Covers s) (ht : s.Takes token taken s') : x.Covers s' := by
  obtain ⟨lexeme, hl, -⟩ := ht
  exact fun other hm => h other (hl ▸ List.mem_cons_of_mem _ hm)

theorem Covers.reaches (h : x.Covers s) (hr : s.Reaches s') : x.Covers s' := by
  induction hr with
  | refl => exact h
  | take ht _ ih => exact ih (h.takes ht)

theorem Apart.mono {others : List Kind} (h : x.Apart others) (hk : ∀ kind ∈ kinds, kind ∈ others) : x.Apart kinds :=
  fun lexeme hm hkind => h lexeme hm (hk _ hkind)

theorem apart_of_tail (ht : x.tail = []) : x.Apart kinds := by
  intro lexeme hm
  rw [ht] at hm
  cases hm

theorem clear_of_tail (ht : x.tail = []) : x.Clear s := .inl (apart_of_tail ht)

namespace Leaves

theorem of_lt (h : x.after < s.lexemes.length) : x.Leaves room s := by
  cases room with
  | token => exact h
  | apart kinds => exact ⟨Nat.le_of_lt h, fun heq => (Nat.ne_of_gt h heq).elim⟩

theorem of_tail (ht : x.tail = []) (h : x.after ≤ s.lexemes.length) : x.Leaves (.apart kinds) s :=
  ⟨h, fun _ => apart_of_tail ht⟩

theorem le (h : x.Leaves room s) : x.after ≤ s.lexemes.length := by
  cases room with
  | token => exact Nat.le_of_lt h
  | apart kinds => exact h.1

theorem mono (h : x.Leaves room' s) (hw : room.Within room') : x.Leaves room s := by
  cases room' with
  | token => exact of_lt h
  | apart others =>
    cases room with
    | token => exact hw.elim
    | apart kinds => exact ⟨h.1, fun heq => (h.2 heq).mono hw⟩

/-- There is as much room before something has been read. -/
theorem before (h : x.Leaves room s') (hle : s'.lexemes.length ≤ s.lexemes.length) : x.Leaves room s := by
  cases room with
  | token => exact Nat.lt_of_lt_of_le h hle
  | apart kinds =>
    refine ⟨Nat.le_trans h.1 hle, fun heq => h.2 ?_⟩
    exact Nat.le_antisymm (heq ▸ hle) h.1

end Leaves

theorem takes (h : s.Takes token taken s') (hc : x.Covers s) (hn : x.after ≤ s'.lexemes.length) :
    (x.stream s).Takes token (x.span taken) (x.stream s') := by
  have hlength := h.length
  obtain ⟨lexeme, hl, htoken, rfl, hlast, hend⟩ := h
  obtain ⟨hfirst, hend'⟩ := hc lexeme (hl ▸ List.mem_cons_self)
  have hcount : s.lexemes.length - x.after = s'.lexemes.length - x.after + 1 := by omega
  refine ⟨x.lexeme lexeme, ?_, htoken, ?_, ?_, rfl⟩
  · simp only [stream]
    rw [hcount, hl, List.take_succ_cons, List.map_cons, List.cons_append]
  · simp only [Lexeme.span, span, Excerpt.lexeme, Span.mk.injEq]
    omega
  · simp only [stream, hlast, span]

theorem lexemes_eq_tail (h : s.lexemes.length ≤ x.after) : (x.stream s).lexemes = x.tail := by
  simp [stream, Nat.sub_eq_zero_of_le h]

theorem next?_stream (h : x.after < s.lexemes.length) : (x.stream s).next? = s.next? := by
  cases hl : s.lexemes with
  | nil =>
    rw [hl] at h
    exact (Nat.not_lt_zero _ h).elim
  | cons lexeme others =>
    have hcount : s.lexemes.length - x.after = (s.lexemes.length - x.after - 1) + 1 := by omega
    simp only [Stream.next?, stream]
    rw [hcount, hl, List.take_succ_cons, List.map_cons, List.cons_append, List.head?_cons, List.head?_cons]
    rfl

theorem next (h : (x.stream s).Next kinds) (hl : x.Leaves (.apart kinds) s) : s.Next kinds := by
  obtain ⟨token, ht, hk⟩ := h
  rcases Nat.eq_or_lt_of_le hl.1 with heq | hlt
  · rw [Stream.next?, lexemes_eq_tail (Nat.le_of_eq heq.symm), Option.map_eq_some_iff] at ht
    obtain ⟨lexeme, hm, rfl⟩ := ht
    exact (hl.2 heq.symm lexeme hm hk).elim
  · exact ⟨token, next?_stream hlt ▸ ht, hk⟩

theorem Keeps.mono {cond cond' : Stream → Prop} (h : x.Keeps room cond cond') (hw : room.Within room') :
    x.Keeps room' cond cond' :=
  fun s hl hs => h s (hl.mono hw) hs

theorem keeps_not_next (hw : (Room.apart kinds).Within room) :
    x.Keeps room (fun s => ¬ s.Next kinds) fun s => ¬ s.Next kinds :=
  fun _ hl h hn => h (next hn (hl.mono hw))

theorem keeps_noDot (hw : (Room.apart [".", .number]).Within room) : x.Keeps room Stream.NoDot Stream.NoDot := by
  rintro s hl ⟨hdot, hnumber⟩
  have hl := hl.mono hw
  refine ⟨fun hn => hdot (next hn (hl.mono (by decide))), ?_⟩
  intro moved hm value htoken
  rcases Nat.eq_or_lt_of_le hl.1 with heq | hlt
  · rw [lexemes_eq_tail (Nat.le_of_eq heq.symm)] at hm
    have hkind := hl.2 heq.symm moved hm
    rw [htoken] at hkind
    exact (hkind (by simp [Token.kind])).elim
  · have hcount : ¬ s.lexemes.length - x.after = 0 := by omega
    simp only [stream, List.head?_append, List.head?_map, List.head?_take, if_neg hcount] at hm
    cases hs : s.lexemes.head? with
    | none =>
      rw [List.head?_eq_none_iff] at hs
      rw [hs] at hlt
      exact (Nat.not_lt_zero _ hlt).elim
    | some lexeme =>
      rw [hs] at hm
      obtain rfl := Option.some.inj hm
      exact hnumber lexeme hs value htoken

/-- A block ends in the excerpt where it does in the whole stream, if a token is left there. -/
theorem keeps_blockEnds : x.Keeps .token Phrase.BlockEnds Phrase.BlockEnds := by
  rintro s hl (hnil | ⟨token, ht, hk⟩)
  · have hlt : x.after < s.lexemes.length := hl
    rw [hnil] at hlt
    exact (Nat.not_lt_zero _ hlt).elim
  · exact .inr ⟨token, (next?_stream hl).trans ht, hk⟩

theorem keeps_blockEnds_of_tail (ht : x.tail = []) : x.Keeps room Phrase.BlockEnds Phrase.BlockEnds := by
  intro s hl h
  rcases Nat.eq_or_lt_of_le hl.le with heq | hlt
  · exact .inl ((lexemes_eq_tail (Nat.le_of_eq heq.symm)).trans ht)
  · exact keeps_blockEnds s hlt h

theorem stream_position (hc : x.Covers s) (hn : x.after < s.lexemes.length) :
    (x.stream s).position + 1 = x.position (s.position + 1) := by
  cases hl : s.lexemes with
  | nil =>
    rw [hl] at hn
    exact (Nat.not_lt_zero _ hn).elim
  | cons lexeme others =>
    obtain ⟨hfirst, -⟩ := hc lexeme (hl ▸ List.mem_cons_self)
    have hcount : s.lexemes.length - x.after = (s.lexemes.length - x.after - 1) + 1 := by omega
    have hold : s.position = lexeme.offset := by simp [Stream.position, hl]
    have hnew : (x.stream s).position = x.position (lexeme.offset + 1) - 1 := by
      simp only [Stream.position, stream]
      rw [hcount, hl, List.take_succ_cons]
      rfl
    rw [hold, hnew, Nat.sub_add_cancel hfirst]

end Excerpt

end LuaSyntax
