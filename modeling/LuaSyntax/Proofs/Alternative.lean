import LuaSyntax.Proofs.Lexeme.Word
import LuaSyntax.Proofs.Progress.Grammar
import Mathlib.Data.List.Forall2

/-! # Alternatives

The alternatives of a statement, and those of an operand, are told apart by what a source begins with: no
two of them apply at one cursor. So it does not matter in which order they are tried.
-/
namespace LuaSyntax

open Parse Rule Grammar

variable {α β : Type}

namespace Rule

section Choice
variable {rules others : List (Rule α)} {rule : Rule α} {c : Cursor}

end Choice
end Rule

/-- What tells the alternatives apart at the front of a source. An operand begins with a name or an opening
parenthesis. -/
inductive Lead
  | word (text : String)
  | symbol (text : String)
  | numeral
  | string
  | operand
  deriving DecidableEq

namespace Lead

/-- A source begins as the lead says. -/
def Fits (source : Bytes) : Lead → Prop
  | word text => startsWithKeyword text source
  | symbol text => Bytes.ofString text <+: source
  | numeral => startsHexadecimal source ∨ startsDecimal source
  | string => source.head? = some '"'.toUInt8 ∨ source.head? = some '\''.toUInt8 ∨ LongBracket.level? source ≠ none
  | operand => startsName source ∧ ¬ isReserved (source.takeWhile isNamePart) ∨ Bytes.ofString "(" <+: source

/-- The only lead that a source can begin with, of those that tell alternatives apart. -/
def ofFront (source : Bytes) : Option Lead :=
  source.head?.map fun b =>
    if isNameStart b then (reservedWords.find? (startsWithKeyword · source)).elim operand word
    else if isDigit b || b == '.'.toUInt8 && source.tail.head? != some '.'.toUInt8 then numeral
    else if b == '"'.toUInt8 || b == '\''.toUInt8 || b == '['.toUInt8 then string
    else if b == '('.toUInt8 then operand
    else ([";", "::", "...", "\x7b"].find? fun text => (Bytes.ofString text).head? == some b).elim operand symbol

section Front
variable {source : Bytes} {text : String}

theorem find?_startsWithKeyword (hw : text ∈ reservedWords) (h : startsWithKeyword text source) :
    reservedWords.find? (startsWithKeyword · source) = some text := by
  cases hfind : reservedWords.find? (startsWithKeyword · source) with
  | none => exact (List.find?_eq_none.mp hfind text hw h).elim
  | some other =>
    have ho := List.mem_of_find?_eq_some hfind
    have hother : startsWithKeyword other source := List.find?_some (p := (startsWithKeyword · source)) hfind
    have hsame := ((startsWithKeyword_iff ho).mp hother).symm.trans ((startsWithKeyword_iff hw).mp h)
    rw [ofString_injective other ho text hw hsame]

theorem ofFront_of_word (hw : text ∈ reservedWords) (h : Fits source (word text)) :
    ofFront source = some (word text) := by
  obtain ⟨b, hb, hstart⟩ := (Option.any_eq_true _ _).mp (takeWhile_of_word hw h).2
  simp only [ofFront, hb, Option.map_some, hstart, if_true, find?_startsWithKeyword hw h, Option.elim_some]

theorem ofFront_of_symbol (ht : text ∈ [";", "::", "...", "\x7b"]) (h : Fits source (symbol text)) :
    ofFront source = some (symbol text) := by
  obtain ⟨tail, rfl⟩ := h
  simp only [List.mem_cons, List.not_mem_nil, or_false] at ht
  rcases ht with rfl | rfl | rfl | rfl <;> rfl

theorem ofFront_of_numeral (h : Fits source numeral) : ofFront source = some numeral := by
  obtain ⟨b, tail, rfl, hb⟩ := head_of_numeral h
  have hname : ¬ isNameStart b := not_startsName_of_numeral h
  have hfront : isDigit b || b == '.'.toUInt8 && tail.head? != some '.'.toUInt8 := by simpa using hb
  rw [ofFront, List.head?_cons, Option.map_some, if_neg hname, List.tail_cons, if_pos hfront]

theorem ofFront_of_string (h : Fits source string) : ofFront source = some string := by
  rcases head_of_string h with hb | hb | hb <;> obtain ⟨tail, rfl⟩ := List.head?_eq_some_iff.mp hb <;> rfl

theorem ofFront_of_operand (h : Fits source operand) : ofFront source = some operand := by
  rcases h with ⟨hs, hr⟩ | ⟨tail, rfl⟩
  · obtain ⟨b, hb, hstart⟩ := (Option.any_eq_true _ _).mp hs
    have hfind : reservedWords.find? (startsWithKeyword · source) = none := by
      refine List.find?_eq_none.mpr fun word hw hword => hr (isReserved_iff.mpr ⟨word, hw, ?_⟩)
      exact (startsWithKeyword_iff hw).mp hword
    simp only [ofFront, hb, Option.map_some, hstart, if_true, hfind, Option.elim_none]
  · rfl

end Front

/-- The leads of the alternatives of a statement and of an operand. -/
inductive Known : Lead → Prop
  | word {text : String} (hw : text ∈ reservedWords) : Known (word text)
  | symbol {text : String} (ht : text ∈ [";", "::", "...", "\x7b"]) : Known (symbol text)
  | numeral : Known numeral
  | string : Known string
  | operand : Known operand

theorem Known.ofFront {lead : Lead} (hk : lead.Known) {source : Bytes} (h : lead.Fits source) :
    ofFront source = some lead := by
  cases hk with
  | word hw => exact ofFront_of_word hw h
  | symbol ht => exact ofFront_of_symbol ht h
  | numeral => exact ofFront_of_numeral h
  | string => exact ofFront_of_string h
  | operand => exact ofFront_of_operand h

end Lead

/-- A rule applies where the source has a property, and declines elsewhere without moving. -/
structure Rule.Applies (front : Bytes → Prop) (rule : Rule α) : Prop where
  declines : ∀ {c c'}, rule c = .ok none c' ↔ ¬ front c.rest ∧ c' = c

namespace Rule
variable {front other : Bytes → Prop} {rule : Rule α} {f : α → Parse β}

theorem applies_token {scan : Scan (Option α)}
    (h : ∀ {p p' : Place}, scan p = .ok (none, p') ↔ ¬ front p.rest ∧ p = p') : Applies front (token scan) where
  declines {c c'} := by
    simp only [token_eq_none, h, exists_and_left, exists_eq', and_true, eq_comm (a := c)]

theorem Applies.andThen (h : Applies front rule) : Applies front (rule.andThen f) := ⟨andThen_eq_none.trans h.declines⟩

theorem Applies.map (h : Applies front rule) (g : α → β) : Applies front (rule.map g) := h.andThen

theorem applies_firstOf_nil : Applies (fun _ => False) (firstOf ([] : List (Rule α))) where
  declines {c c'} := by
    simp only [firstOf_nil_eq_none, not_false_eq_true, true_and, eq_comm (a := c)]

theorem Applies.firstOf_cons {others : List (Rule α)} (h : Applies front rule) (ho : Applies other (firstOf others)) :
    Applies (fun source => front source ∨ other source) (firstOf (rule :: others)) where
  declines {c c'} := by
    rw [firstOf_cons_eq_none, not_or]
    constructor
    · rintro ⟨m, hfirst, hothers⟩
      obtain ⟨hnot, rfl⟩ := h.declines.mp hfirst
      obtain ⟨hnot', rfl⟩ := ho.declines.mp hothers
      exact ⟨⟨hnot, hnot'⟩, rfl⟩
    · rintro ⟨⟨hnot, hnot'⟩, rfl⟩
      exact ⟨c', h.declines.mpr ⟨hnot, rfl⟩, ho.declines.mpr ⟨hnot', rfl⟩⟩

theorem applies_symbolUnless (barred : UInt8 → Bool) (text : String) :
    Applies (fun source => startsWith (.ofString text) barred source) (symbolUnless barred text) :=
  (applies_token Scan.text_eq_none).map _

theorem applies_symbol (text : String) : Applies (Bytes.ofString text <+: ·) (symbol text) := by
  refine ⟨(applies_symbolUnless never text).declines.trans (and_congr_left' (not_congr ?_))⟩
  rw [startsWith_iff]
  exact and_iff_left fun _ _ => Bool.false_ne_true

end Rule

/-- A rule that applies where the source begins with its lead. -/
structure Rule.Led (lead : Lead) (rule : Rule α) : Prop where
  known : lead.Known
  applies : rule.Applies fun source => lead.Fits source

namespace Rule.Led
variable {lead other : Lead} {rule second : Rule α} {f : α → Parse β}

theorem stays (h : rule.Led lead) (c c' : Cursor) (ho : rule c = .ok none c') : c' = c := (h.applies.declines.mp ho).2

theorem andThen (h : rule.Led lead) : Led lead (rule.andThen f) := ⟨h.known, h.applies.andThen⟩

theorem map (h : rule.Led lead) (g : α → β) : Led lead (rule.map g) := h.andThen

theorem symbol {text : String} (ht : text ∈ [";", "::", "...", "\x7b"]) : Led (.symbol text) (symbol text) :=
  ⟨.symbol ht, applies_symbol text⟩

theorem keyword {text : String} (hw : text ∈ reservedWords) : Led (.word text) (keyword text) :=
  ⟨.word hw, applies_symbolUnless isNamePart text⟩

theorem number : Led .numeral number := by
  refine ⟨.numeral, (applies_token fun {p p'} => ?_).map _⟩
  rw [Scan.numeral_eq_none, Lead.Fits, not_or, and_assoc, Bool.not_eq_true, Bool.not_eq_true]

theorem string : Led .string string := by
  refine ⟨.string, (applies_token fun {p p'} => ?_).map _⟩
  rw [Scan.string_eq_none, Lead.Fits, not_or, not_or, not_not, and_assoc, and_assoc]

theorem suffixed (nested : Nested) : Led .operand (suffixed nested) := by
  have hname : Applies (fun source => startsName source ∧ ¬ isReserved (source.takeWhile isNamePart)) name := by
    refine (applies_token fun {p p'} => ?_).map _
    rw [Scan.name_eq_none, Bool.not_eq_true]
  have hparen : Applies (Bytes.ofString "(" <+: ·) (parenthesized nested) := (applies_symbol "(").andThen
  have hprimary := hname.firstOf_cons (hparen.firstOf_cons applies_firstOf_nil)
  simp only [or_false] at hprimary
  exact ⟨.operand, hprimary.andThen⟩

end Rule.Led

section Lists
variable {leads : List Lead} {rules others : List (Rule α)}

end Lists

namespace Grammar
variable (nested : Nested)

end Grammar

end LuaSyntax
