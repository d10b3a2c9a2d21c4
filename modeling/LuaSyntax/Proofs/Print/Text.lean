import LuaSyntax.Proofs.Print.Spells
import LuaSyntax.Proofs.Rescan.Token

/-! # Reading printed text

Every token is read back from its text in front of white space or at the end of the source,
and so texts with a space between them are cut into the tokens they are the texts of.
-/
namespace LuaSyntax

/-- The tokens that have a text to write. -/
inductive Token.Written : Token → Prop
  | fixed {text : String} (h : text ∈ fixedTexts) : Written (.fixed text)
  | name {text : Bytes} (h : Identifier text) : Written (.name text)
  | integer {value : Int64} : Written (.number (.integer value))
  | string {value : Bytes} : Written (.string value)

section Integers

theorem hexDigit?_hexDigit : ∀ value < 16, hexDigit? (hexDigit value) = some value := by decide

theorem length_hexDigits (value count : Nat) : (hexDigits value count).length = count := by
  induction count generalizing value with
  | zero => rfl
  | succ count ih => rw [hexDigits, List.length_append, ih, List.length_singleton]

theorem isHexDigit_of_mem_hexDigits {value count : Nat} : ∀ b ∈ hexDigits value count, isHexDigit b := by
  induction count generalizing value with
  | zero => exact List.forall_mem_nil _
  | succ count ih =>
    refine List.forall_mem_append.mpr ⟨ih, List.forall_mem_singleton.mpr ?_⟩
    rw [isHexDigit, hexDigit?_hexDigit _ (Nat.mod_lt _ (by decide))]
    rfl

/-- The digits of a value stand for it if there are enough of them. -/
theorem digitsValue_hexDigits {value count : Nat} (h : value < Nat.pow 16 count) :
    digitsValue 16 (hexDigits value count) = value := by
  induction count generalizing value with
  | zero =>
    have hzero : value = 0 := Nat.lt_one_iff.mp h
    rw [hzero]
    rfl
  | succ count ih =>
    have hlt : value / 16 < Nat.pow 16 count := by
      have hmul : value < Nat.pow 16 count * 16 := h
      omega
    have hvalue := ih hlt
    unfold digitsValue at hvalue ⊢
    rw [hexDigits, List.foldl_append, hvalue]
    simp only [List.foldl_cons, List.foldl_nil, hexDigit?_hexDigit _ (Nat.mod_lt value (by decide : 0 < 16)),
      Option.getD_some]
    omega

theorem ofHexadecimal_hexDigits (value : Int64) :
    Number.ofHexadecimal (hexDigits value.toUInt64.toNat 16) = .integer value := by
  rw [Number.ofHexadecimal_eq, digitsValue_hexDigits value.toUInt64.toNat_lt]
  have hvalue : Int64.ofNat value.toUInt64.toNat = (UInt64.ofNat value.toUInt64.toNat).toInt64 := rfl
  rw [hvalue, UInt64.ofNat_toNat]
  rfl

end Integers

section Strings

theorem isDigit_ofNat : ∀ value < 10, isDigit (UInt8.ofNat (0x30 + value)) ∧
    hexDigit? (UInt8.ofNat (0x30 + value)) = some value := by decide

/-- Three decimal digits after a backslash stand for the byte, whatever follows. -/
theorem escapeSpelling_escapeByte (b : UInt8) (next : Bytes) :
    EscapeSpelling (escapeByte b).tail [b] next := by
  have hlt : b.toNat < 256 := b.toNat_lt
  obtain ⟨hd₁, hv₁⟩ := isDigit_ofNat (b.toNat / 100) (by omega)
  obtain ⟨hd₂, hv₂⟩ := isDigit_ofNat (b.toNat / 10 % 10) (by omega)
  obtain ⟨hd₃, hv₃⟩ := isDigit_ofNat (b.toNat % 10) (by omega)
  have hvalue : digitsValue 10 (escapeByte b).tail = b.toNat := by
    simp only [escapeByte, List.tail_cons, digitsValue, List.foldl_cons, List.foldl_nil, hv₁, hv₂, hv₃,
      Option.getD_some]
    omega
  have hb : UInt8.ofNat (digitsValue 10 (escapeByte b).tail) = b := by
    rw [hvalue]
    exact UInt8.ofNat_toNat
  have hspelling : EscapeSpelling (escapeByte b).tail [UInt8.ofNat (digitsValue 10 (escapeByte b).tail)] next := by
    refine .decimal ?_ (List.cons_ne_nil _ _) (Nat.le_refl 3) (.inl rfl) (by omega)
    simp only [escapeByte, List.tail_cons, List.forall_mem_cons, List.not_mem_nil, false_imp_iff, implies_true,
      and_true]
    exact ⟨hd₁, hd₂, hd₃⟩
  rwa [hb] at hspelling

theorem quotedSpelling_escapes (value : Bytes) :
    QuotedSpelling '"'.toUInt8 (value.flatMap escapeByte ++ ['"'.toUInt8]) value := by
  induction value with
  | nil => exact .close
  | cons b value ih =>
    rw [List.flatMap_cons, List.append_assoc]
    exact .escape (escapeSpelling_escapeByte b _) ih

end Strings

variable {p p' : Place} {token : Token}

theorem not_isNamePart_of_isSpace {b : UInt8} (h : isSpace b) : ¬ isNamePart b :=
  fun hpart => not_goesOnNumeral_of_isSpace h (by simp [goesOnNumeral, hpart])

theorem numeral_of_digits {digits : Bytes} (hp : p.Passes ('0'.toUInt8 :: 'x'.toUInt8 :: digits) p')
    (hd : ∀ b ∈ digits, isHexDigit b) (hne : digits ≠ []) (ht : Parted p'.rest) :
    Scan.numeral p = .ok (some (.ofHexadecimal digits), p') := by
  have hopen : p.Passes (['0'.toUInt8, 'x'.toUInt8] ++ digits) p' := hp
  obtain ⟨hmark, hdigits⟩ := hopen.split
  have hstart : startsHexadecimal p.rest := by
    rw [hmark.rest]
    rfl
  have hrun : Scan.digits isHexDigit .hexDigit (p.advance 2) = .ok (digits, p') := by
    refine Scan.digits_of_passes hdigits hd hne fun b hb hdigit => ?_
    exact not_goesOnNumeral_of_isSpace (ht b hb) (goesOnNumeral_of_isHexDigit b hdigit)
  simp only [Scan.numeral, Scan.bind_eq_ok, Scan.rest_eq_ok]
  refine ⟨_, _, ⟨rfl, rfl⟩, ?_⟩
  rw [if_pos hstart]
  simp only [Scan.map_eq_ok, Scan.hexadecimal, Scan.bind_eq_ok, Scan.advance_eq_ok, Scan.pure_eq_ok, Option.some.injEq,
    exists_eq_right]
  exact ⟨(), _, rfl, digits, _, hrun, rfl, rfl⟩

theorem reads_text (h : token.Written) (hp : p.Passes token.text p') (ht : Parted p'.rest) : p.Reads token p' := by
  cases h with
  | @fixed text hfixed =>
    have hword : startsWith (.ofString text) (joins text) p.rest := by
      refine startsWith_iff.mpr ⟨⟨_, hp.rest.symm⟩, ?_⟩
      rw [hp.rest, Token.text, List.drop_left]
      exact fun b hb => not_joins_of_isSpace hfixed (ht b hb)
    have hread : p.Reads (.fixed text) (p.advance (Bytes.ofString text).length) := by
      refine .fixed hfixed hword fun hbracket => ?_
      have hrest := hp.rest
      rw [Token.text, hbracket] at hrest
      rw [hrest]
      exact level?_bracket ht
    rwa [← Token.text, hp.advance] at hread
  | name hname => exact .name (Scan.name_of_passes hname hp fun b hb => not_isNamePart_of_isSpace (ht b hb))
  | @integer value =>
    have hdigit : ∀ b ∈ hexDigits value.toUInt64.toNat 16, isHexDigit b := isHexDigit_of_mem_hexDigits
    have hne : hexDigits value.toUInt64.toNat 16 ≠ [] :=
      List.ne_nil_of_length_pos (Nat.lt_of_lt_of_eq (by decide) (length_hexDigits _ _).symm)
    have hvalue := ofHexadecimal_hexDigits value
    rw [Token.text] at hp
    generalize hexDigits value.toUInt64.toNat 16 = digits at hp hdigit hne hvalue
    exact .number (hvalue ▸ numeral_of_digits hp hdigit hne ht)
  | @string value => exact .string (Scan.string_of_spelling (.quoted (.inl rfl) (quotedSpelling_escapes value)) hp)

theorem head_text (h : token.Written) : ∃ b others, token.text = b :: others ∧ ¬ isSpace b ∧
    (b = '-'.toUInt8 → others = []) := by
  cases h with
  | @fixed text hfixed =>
    have hall : ∀ text ∈ fixedTexts, (Bytes.ofString text).head?.any (fun b => !isSpace b) ∧
        ((Bytes.ofString text).head? = some '-'.toUInt8 → (Bytes.ofString text).tail = []) := by decide +kernel
    obtain ⟨hspace, hdash⟩ := hall text hfixed
    cases htext : Bytes.ofString text with
    | nil => exact (ofString_ne_nil text hfixed htext).elim
    | cons b others =>
      rw [htext] at hspace hdash
      exact ⟨b, others, htext, by simpa using hspace, fun hb => hdash (by rw [hb]; rfl)⟩
  | @name text hname =>
    obtain ⟨hstart, hparts, -⟩ := hname
    cases text with
    | nil => cases hstart
    | cons b others =>
      have hpart := hparts b List.mem_cons_self
      refine ⟨b, others, rfl, fun hspace => not_isNamePart_of_isSpace hspace hpart, fun hb => ?_⟩
      exact absurd hpart (hb ▸ by decide)
  | integer => exact ⟨_, _, rfl, by decide, fun hb => absurd hb (by decide)⟩
  | string => exact ⟨_, _, rfl, by decide, fun hb => absurd hb (by decide)⟩

theorem not_startsTrivium_text {tail : Bytes} (h : token.Written) (ht : Parted tail) :
    ¬ startsTrivium (token.text ++ tail) := by
  obtain ⟨b, others, htext, hspace, hdash⟩ := head_text h
  rw [htext, startsTrivium, Bool.or_eq_true, not_or]
  refine ⟨hspace, fun hcomment => ?_⟩
  obtain ⟨after, hafter⟩ := startsComment_iff.mp hcomment
  obtain ⟨hb, hrest⟩ := List.cons.inj hafter
  rw [hdash hb.symm] at hrest
  have htail : tail = '-'.toUInt8 :: after := hrest.symm
  exact absurd (ht '-'.toUInt8 (htail ▸ rfl)) (by decide)

variable {tokens : List Token}

theorem parted_space (tail : Bytes) : Parted (' '.toUInt8 :: tail) := by
  intro b hb
  obtain rfl : ' '.toUInt8 = b := Option.some.inj hb
  decide

theorem not_startsTrivium_separated (h : ∀ token ∈ tokens, token.Written) :
    ¬ startsTrivium (separated ' '.toUInt8 (tokens.map Token.text)) := by
  cases tokens with
  | nil => exact Bool.false_ne_true
  | cons token others =>
    have hw := h token List.mem_cons_self
    cases others with
    | nil =>
      have hnone : ¬ startsTrivium (token.text ++ []) := not_startsTrivium_text hw nofun
      rwa [List.append_nil] at hnone
    | cons next others => exact not_startsTrivium_text hw (parted_space _)

/-- Texts with a space between them are cut into the tokens they are the texts of. -/
theorem lexed_text (h : ∀ token ∈ tokens, token.Written) (offset lastEnd : Nat) :
    ∃ s s', Lexed ⟨⟨separated ' '.toUInt8 (tokens.map Token.text), offset⟩, lastEnd⟩ s ∧ s.Spells tokens s' ∧
      s'.lexemes = [] := by
  induction tokens generalizing offset lastEnd with
  | nil => exact ⟨_, _, .done rfl, rfl, rfl⟩
  | cons token others ih =>
    obtain ⟨hw, ho⟩ := List.forall_mem_cons.mp h
    have hcut : ∃ tail trivia, separated ' '.toUInt8 ((token :: others).map Token.text) =
        token.text ++ (trivia ++ tail) ∧ tail = separated ' '.toUInt8 (others.map Token.text) ∧
        TriviaSpelling tail trivia ∧ Parted (trivia ++ tail) := by
      cases others with
      | nil => exact ⟨[], [], (List.append_nil _).symm, rfl, .none, nofun⟩
      | cons next others =>
        refine ⟨_, [' '.toUInt8], rfl, rfl, ?_, parted_space _⟩
        have hspace : ∀ b ∈ [' '.toUInt8], isSpace b := List.forall_mem_singleton.mpr (by decide)
        have hblank : TriviumSpelling ([] ++ separated ' '.toUInt8 ((next :: others).map Token.text)) [' '.toUInt8] :=
          .space hspace (List.cons_ne_nil _ _)
        exact .more hblank .none
    obtain ⟨tail, trivia, htext, rfl, htrivia, hparted⟩ := hcut
    obtain ⟨s, s', hs, hspells, hnil⟩ := ih ho (offset + token.text.length + trivia.length) (offset + token.text.length)
    have hreads : (⟨⟨separated ' '.toUInt8 ((token :: others).map Token.text), offset⟩, lastEnd⟩ : Cursor).Reads
        ⟨token, offset, token.text⟩
        ⟨⟨separated ' '.toUInt8 (others.map Token.text), offset + token.text.length + trivia.length⟩,
          offset + token.text.length⟩ := by
      rw [htext]
      refine ⟨rfl, ⟨_, offset + token.text.length⟩, reads_text hw ⟨rfl, rfl⟩ hparted, ⟨rfl, rfl⟩, ?_⟩
      exact Parse.skipTrivia_of_spelling htrivia (not_startsTrivium_separated ho) ⟨rfl, rfl⟩ rfl
    obtain ⟨whole, hwhole, htakes⟩ := Lexed.read_takes hreads hs
    exact ⟨whole, s', hwhole, ⟨_, s, htakes, hspells⟩, hnil⟩

end LuaSyntax
