import LuaSyntax.Proofs.Lexeme.Basic

/-! # The front of a token

Which tests on the source hold where a token stands. The tests that the grammar makes for
a reserved word, a name, a number, a string or a symbol hold only where such a token
stands, apart from those for a symbol with which a longer symbol or a numeral begins.
-/
namespace LuaSyntax

/-- A front that is longer than a text decides whether the source starts with the text. -/
theorem startsWith_of_front {text longer source : Bytes} {barred : UInt8 → Bool}
    (hp : longer <+: source) (hl : text.length < longer.length) :
    startsWith text barred source ↔ startsWith text barred longer := by
  obtain ⟨tail, rfl⟩ := hp
  have hprefix : text <+: longer ++ tail ↔ text <+: longer :=
    ⟨fun h => List.prefix_of_prefix_length_le h (List.prefix_append _ _) (Nat.le_of_lt hl),
      fun h => h.trans (List.prefix_append _ _)⟩
  have hnext : ((longer ++ tail).drop text.length).head? = (longer.drop text.length).head? := by
    rw [List.drop_append_of_le_length (Nat.le_of_lt hl), List.head?_append]
    cases hd : longer.drop text.length with
    | nil => simp only [List.drop_eq_nil_iff] at hd; omega
    | cons => rfl
  rw [startsWith_iff, startsWith_iff, hprefix, hnext]

theorem startsWith_self (text : Bytes) (barred : UInt8 → Bool) : startsWith text barred text := by
  simp [startsWith_iff]

theorem joins_word {word : String} (hw : word ∈ reservedWords) : joins word = isNamePart := if_pos hw

theorem joins_symbol {text : String} (hs : text ∈ symbols) :
    joins text = (continuations text).contains :=
  if_neg fun hw => absurd hw ((by decide : ∀ text ∈ symbols, text ∉ reservedWords) text hs)

/-- The symbols that no longer symbol begins with. -/
def plainSymbols : List String := [
  "+", "-", "*", "//", "%", "^", "#", "&", "|", "~=", "<<", ">>", "==", "<=", ">=", "(", ")",
  "\x7b", "\x7d", "]", "::", ";", ",", "..."]

section Tables

theorem ofString_injective : ∀ first ∈ reservedWords, ∀ second ∈ reservedWords,
    Bytes.ofString first = Bytes.ofString second → first = second := by decide

theorem word_head : ∀ word ∈ reservedWords, startsName (Bytes.ofString word) := by decide

theorem word_takeWhile : ∀ word ∈ reservedWords,
    (Bytes.ofString word).takeWhile isNamePart = Bytes.ofString word := by decide

theorem symbol_head : ∀ text ∈ symbols, (Bytes.ofString text).head?.any fun b =>
    !isNameStart b && !isDigit b && b != '"'.toUInt8 && b != '\''.toUInt8 := by decide

theorem symbol_bracket : ∀ text ∈ symbols, ['['.toUInt8] <+: Bytes.ofString text → text = "[" := by
  decide

theorem symbol_dot : ∀ text ∈ symbols, ['.'.toUInt8] <+: Bytes.ofString text →
    text = "." ∨ ['.'.toUInt8, '.'.toUInt8] <+: Bytes.ofString text := by decide

/-- A symbol is followed by one of its continuations in every longer symbol. -/
theorem symbol_continuation : ∀ text ∈ symbols, ∀ longer ∈ symbols,
    Bytes.ofString text <+: Bytes.ofString longer → text = longer ∨
      ∃ b ∈ continuations text, ((Bytes.ofString longer).drop (Bytes.ofString text).length).head? = some b := by
  decide +kernel

theorem continuations_plain : ∀ text ∈ plainSymbols, continuations text = [] := by decide +kernel

theorem joins_plain {text : String} (ht : text ∈ plainSymbols) : joins text = never := by
  rw [joins_symbol ((by decide : ∀ text ∈ plainSymbols, text ∈ symbols) text ht),
    continuations_plain text ht]
  rfl

theorem not_joins_plain {text : String} (ht : text ∈ plainSymbols) (b : UInt8) : ¬ joins text b := by
  rw [joins_plain ht]
  exact not_never b

theorem joins_of_continuations {text : String} {c : Char} {others : Bytes} (ht : text ∈ symbols)
    (hc : continuations text = c.toUInt8 :: others) (ho : ∀ b ∈ others, b = c.toUInt8) :
    joins text = isByte c := by
  funext b
  rw [joins_symbol ht, hc, Bool.eq_iff_iff]
  simp only [List.contains_eq_mem, List.mem_cons, decide_eq_true_eq, isByte, beq_iff_eq]
  exact ⟨fun h => h.elim id (ho b), .inl⟩

theorem joins_dot : joins "." = isByte '.' :=
  joins_of_continuations (by decide) (by decide +kernel : continuations "." = ['.'.toUInt8, '.'.toUInt8])
    (by simp)

theorem joins_dots : joins ".." = isByte '.' :=
  joins_of_continuations (by decide) (by decide +kernel : continuations ".." = ['.'.toUInt8]) (by simp)

theorem joins_equals : joins "=" = isByte '=' :=
  joins_of_continuations (by decide) (by decide +kernel : continuations "=" = ['='.toUInt8]) (by simp)

theorem joins_colon : joins ":" = isByte ':' :=
  joins_of_continuations (by decide) (by decide +kernel : continuations ":" = [':'.toUInt8]) (by simp)

theorem joins_tilde : joins "~" = isByte '=' :=
  joins_of_continuations (by decide) (by decide +kernel : continuations "~" = ['='.toUInt8]) (by simp)

end Tables

theorem not_isNameStart_of_isDigit {b : UInt8} (h : isDigit b) : ¬ isNameStart b := by
  simp only [isDigit, isNameStart, isLetter, Bool.and_eq_true, Bool.or_eq_true, decide_eq_true_eq,
    beq_iff_eq, UInt8.le_iff_toNat_le, ← UInt8.toNat_inj] at h ⊢
  simp only [UInt8.reduceToNat] at h ⊢
  omega

theorem head_of_symbol {text : String} {source : Bytes} (ht : text ∈ symbols)
    (hp : Bytes.ofString text <+: source) :
    ∃ b tail, source = b :: tail ∧ ¬ isNameStart b ∧ ¬ isDigit b ∧ b ≠ '"'.toUInt8 ∧ b ≠ '\''.toUInt8 := by
  obtain ⟨after, rfl⟩ := hp
  have hb := symbol_head text ht
  cases hbytes : Bytes.ofString text with
  | nil => simp [hbytes] at hb
  | cons b tail => exact ⟨b, tail ++ after, rfl, by simpa [hbytes, and_assoc] using hb⟩

/-- The longest word at the front of a source that starts with a reserved word. -/
theorem takeWhile_of_word {word : String} {source : Bytes} (hw : word ∈ reservedWords)
    (hs : startsWith (.ofString word) isNamePart source) :
    source.takeWhile isNamePart = Bytes.ofString word ∧ startsName source := by
  obtain ⟨⟨tail, rfl⟩, hnext⟩ := startsWith_iff.mp hs
  rw [List.drop_left] at hnext
  have htail : tail.takeWhile isNamePart = [] := by
    cases tail with
    | nil => rfl
    | cons b _ => exact List.takeWhile_cons_of_neg (hnext b rfl)
  have hall : ∀ b ∈ Bytes.ofString word, isNamePart b := by
    have hrun := word_takeWhile word hw
    rw [← hrun]
    exact fun _ => List.mem_takeWhile_imp
  have hname := word_head word hw
  refine ⟨by rw [List.takeWhile_append_of_pos hall, htail, List.append_nil], ?_⟩
  rw [startsName, List.head?_append]
  cases hbytes : Bytes.ofString word with
  | nil => simp [hbytes, startsName] at hname
  | cons b _ => simpa [hbytes, startsName] using hname

theorem head_of_numeral {source : Bytes} (hn : startsHexadecimal source ∨ startsDecimal source) :
    ∃ b tail, source = b :: tail ∧ (isDigit b ∨ b = '.'.toUInt8 ∧ tail.head? ≠ some '.'.toUInt8) := by
  rcases hn with hhex | hdec
  · obtain ⟨mark, tail, hrest, -⟩ := Scan.startsHexadecimal_eq_true hhex
    exact ⟨_, _, hrest, .inl (by decide)⟩
  · cases source with
    | nil => simp [startsDecimal] at hdec
    | cons b tail => exact ⟨b, tail, rfl, by simpa [startsDecimal] using hdec⟩

theorem not_startsName_of_numeral {source : Bytes}
    (hn : startsHexadecimal source ∨ startsDecimal source) : ¬ startsName source := by
  obtain ⟨b, tail, rfl, hb⟩ := head_of_numeral hn
  simp only [startsName, List.head?_cons, Option.any_some]
  rcases hb with hb | ⟨rfl, -⟩
  · exact not_isNameStart_of_isDigit hb
  · decide

theorem not_symbol_of_numeral {source : Bytes} {symbol : String}
    (hn : startsHexadecimal source ∨ startsDecimal source) (hs : symbol ∈ symbols)
    (hdot : symbol ≠ ".") : ¬ Bytes.ofString symbol <+: source := by
  intro hp
  obtain ⟨b, tail, rfl, hb⟩ := head_of_numeral hn
  obtain ⟨b', tail', hrest', -, hdigit, -⟩ := head_of_symbol hs hp
  obtain ⟨rfl, rfl⟩ := List.cons.inj hrest'
  rcases hb with hb | ⟨rfl, hnot⟩
  · exact hdigit hb
  · have hlead : ['.'.toUInt8] <+: Bytes.ofString symbol :=
      List.prefix_of_prefix_length_le ⟨tail, rfl⟩ hp
        (List.length_pos_iff.mpr (ofString_ne_nil symbol (List.mem_append_right _ hs)))
    rcases symbol_dot symbol hs hlead with rfl | hdots
    · exact hdot rfl
    · obtain ⟨after, hafter⟩ := hdots.trans hp
      obtain ⟨-, htail⟩ := List.cons.inj hafter
      exact hnot (by rw [← htail]; rfl)

theorem head_of_string {source : Bytes} (hs : source.head? = some '"'.toUInt8 ∨
    source.head? = some '\''.toUInt8 ∨ LongBracket.level? source ≠ none) :
    source.head? = some '"'.toUInt8 ∨ source.head? = some '\''.toUInt8 ∨
      source.head? = some '['.toUInt8 := by
  rcases hs with hs | hs | hs
  · exact .inl hs
  · exact .inr (.inl hs)
  · obtain ⟨level, hlevel⟩ := Option.ne_none_iff_exists'.mp hs
    obtain ⟨tail, rfl⟩ := LongBracket.level?_eq_some hlevel
    exact .inr (.inr rfl)

namespace Place.Reads
variable {p p' : Place}

theorem head_name {text : Bytes} (h : p.Reads (.name text) p') : startsName p.rest := by
  cases h with
  | name h => exact (Scan.name_eq_some.mp h).1

theorem head_number {value : Number} (h : p.Reads (.number value) p') :
    startsHexadecimal p.rest ∨ startsDecimal p.rest := by
  cases h with
  | number h =>
    refine Decidable.byContradiction fun hn => ?_
    simp only [not_or, Bool.not_eq_true] at hn
    rw [Scan.numeral_eq_none.mpr ⟨hn.1, hn.2, rfl⟩] at h
    cases h

theorem head_string {value : Bytes} (h : p.Reads (.string value) p') :
    p.rest.head? = some '"'.toUInt8 ∨ p.rest.head? = some '\''.toUInt8 ∨
      LongBracket.level? p.rest ≠ none := by
  cases h with
  | string h =>
    refine Decidable.byContradiction fun hn => ?_
    simp only [not_or, Decidable.not_not] at hn
    rw [Scan.string_eq_none.mpr ⟨hn.1, hn.2.1, hn.2.2, rfl⟩] at h
    cases h

theorem token_of_startsName {token : Token} (h : p.Reads token p') (hs : startsName p.rest) :
    (∃ text, token = .name text) ∨ ∃ word ∈ reservedWords, token = .fixed word := by
  cases token with
  | name text => exact .inl ⟨text, rfl⟩
  | fixed text =>
    refine .inr ⟨text, ?_, rfl⟩
    cases h with
    | fixed ht hs' _ =>
      rcases List.mem_append.mp ht with ht | ht
      · exact ht
      · obtain ⟨b, tail, hrest, hb, -⟩ := head_of_symbol ht (startsWith_iff.mp hs').1
        simp [startsName, hrest, hb] at hs
  | number value => exact (not_startsName_of_numeral (head_number h) hs).elim
  | string value =>
    rw [startsName] at hs
    rcases head_of_string (head_string h) with hb | hb | hb <;> exact absurd hs (by rw [hb]; decide)

theorem isReserved_ofString {word : String} (hw : word ∈ reservedWords) :
    isReserved (.ofString word) = true := by
  simp only [isReserved, reservedBytes, List.contains_eq_mem, decide_eq_true_eq]
  exact List.mem_map_of_mem hw

theorem word_iff {token : Token} {word : String} (h : p.Reads token p') (hw : word ∈ reservedWords) :
    startsWith (.ofString word) isNamePart p.rest ↔ token = .fixed word := by
  constructor
  · intro hs
    obtain ⟨hrun, hname⟩ := takeWhile_of_word hw hs
    rcases token_of_startsName h hname with ⟨text, rfl⟩ | ⟨other, ho, rfl⟩
    · cases h with
      | name h =>
        obtain ⟨-, hres, rfl, -⟩ := Scan.name_eq_some.mp h
        rw [hrun, isReserved_ofString hw] at hres
        cases hres
    · cases h with
      | fixed _ hs' _ =>
        rw [joins_word ho] at hs'
        have heq := (takeWhile_of_word ho hs').1.symm.trans hrun
        rw [ofString_injective other ho word hw heq]
  · rintro rfl
    cases h with
    | fixed _ hs _ => rwa [joins_word hw] at hs

theorem not_symbol_of_name {text : Bytes} {symbol : String} (h : p.Reads (.name text) p')
    (hs : symbol ∈ symbols) : ¬ Bytes.ofString symbol <+: p.rest := by
  intro hp
  obtain ⟨b, tail, hrest, hb, -⟩ := head_of_symbol hs hp
  have hname := head_name h
  simp [startsName, hrest, hb] at hname

theorem not_symbol_of_string {value : Bytes} {symbol : String} (h : p.Reads (.string value) p')
    (hs : symbol ∈ symbols) (hbracket : symbol ≠ "[") : ¬ Bytes.ofString symbol <+: p.rest := by
  intro hp
  obtain ⟨b, tail, hrest, -, -, hdouble, hsingle⟩ := head_of_symbol hs hp
  rcases head_of_string (head_string h) with hq | hq | hq <;> rw [hrest] at hq <;> obtain rfl := Option.some.inj hq
  · exact hdouble rfl
  · exact hsingle rfl
  · have hlead : ['['.toUInt8] <+: Bytes.ofString symbol :=
      List.prefix_of_prefix_length_le ⟨tail, hrest.symm⟩ hp
        (List.length_pos_iff.mpr (ofString_ne_nil symbol (List.mem_append_right _ hs)))
    exact hbracket (symbol_bracket symbol hs hlead)

theorem symbol_of_fixed {text symbol : String} (h : p.Reads (.fixed text) p') (hs : symbol ∈ symbols)
    (hp : Bytes.ofString symbol <+: p.rest) : text ∈ symbols := by
  obtain ⟨b, tail, hrest, hb, -⟩ := head_of_symbol hs hp
  cases h with
  | fixed ht hs' _ =>
    rcases List.mem_append.mp ht with ht | ht
    · rw [joins_word ht] at hs'
      have hname := (takeWhile_of_word ht hs').2
      simp [startsName, hrest, hb] at hname
    · exact ht

/-- Of two symbols in front of one source, the one that stands there is the longer one. -/
theorem length_le_of_symbol {text symbol : String} (h : p.Reads (.fixed text) p') (hs : symbol ∈ symbols)
    (hp : Bytes.ofString symbol <+: p.rest) :
    symbol = text ∨ (Bytes.ofString symbol).length < (Bytes.ofString text).length := by
  have ht := symbol_of_fixed h hs hp
  cases h with
  | fixed _ hs' _ =>
    obtain ⟨hp', hnext⟩ := startsWith_iff.mp hs'
    rw [joins_symbol ht] at hnext
    rcases Nat.lt_or_ge (Bytes.ofString symbol).length (Bytes.ofString text).length with hlt | hge
    · exact .inr hlt
    · have hpre := List.prefix_of_prefix_length_le hp' hp hge
      rcases symbol_continuation text ht symbol hs hpre with rfl | ⟨b, hb, hb'⟩
      · exact .inl rfl
      · obtain ⟨after, hafter⟩ := hp
        refine (hnext b ?_ (by simpa using hb)).elim
        rw [← hafter, List.drop_append_of_le_length hge, List.head?_append, hb']
        rfl

/-- A symbol is in front where it stands, or a longer token that begins with it. -/
theorem symbol_iff {token : Token} {symbol : String} {barred : UInt8 → Bool} (h : p.Reads token p')
    (hs : symbol ∈ symbols) (hbracket : symbol ≠ "[") (hdot : symbol ≠ ".")
    (hb : ∀ b, barred b → joins symbol b) :
    startsWith (.ofString symbol) barred p.rest ↔
      ∃ text, token = .fixed text ∧ startsWith (.ofString symbol) barred (.ofString text) := by
  constructor
  · intro hfront
    have hp := (startsWith_iff.mp hfront).1
    cases token with
    | name => exact (not_symbol_of_name h hs hp).elim
    | number => exact (not_symbol_of_numeral (head_number h) hs hdot hp).elim
    | string => exact (not_symbol_of_string h hs hbracket hp).elim
    | fixed text =>
      refine ⟨text, rfl, ?_⟩
      rcases length_le_of_symbol h hs hp with rfl | hlt
      · exact startsWith_self _ _
      · cases h with
        | fixed _ hs' _ => exact (startsWith_of_front (startsWith_iff.mp hs').1 hlt).mp hfront
  · rintro ⟨text, rfl, hfront⟩
    have hp := (startsWith_iff.mp hfront).1
    cases h with
    | fixed ht hs' hbracket' =>
      obtain ⟨hp', hnext⟩ := startsWith_iff.mp hs'
      rcases length_le_of_symbol (.fixed ht hs' hbracket') hs (hp.trans hp') with rfl | hlt
      · exact startsWith_iff.mpr ⟨hp', fun b hm hbar => hnext b hm (hb b hbar)⟩
      · exact (startsWith_of_front hp' hlt).mpr hfront

theorem exact_iff {token : Token} {text : String} (h : p.Reads token p') (ht : text ∈ fixedTexts)
    (hbracket : text ≠ "[") (hdot : text ≠ ".") :
    startsWith (.ofString text) (joins text) p.rest ↔ token = .fixed text := by
  rcases List.mem_append.mp ht with hw | hs
  · rw [joins_word hw]
    exact word_iff h hw
  · rw [symbol_iff h hs hbracket hdot fun _ hb => hb]
    constructor
    · rintro ⟨longer, rfl, hfront⟩
      obtain ⟨hp, hnext⟩ := startsWith_iff.mp hfront
      have hl : longer ∈ symbols := by
        cases h with
        | fixed ht' hs' hb' => exact symbol_of_fixed (.fixed ht' hs' hb') hs (hp.trans (startsWith_iff.mp hs').1)
      rcases symbol_continuation text hs longer hl hp with rfl | ⟨b, hb, hb'⟩
      · rfl
      · rw [joins_symbol hs] at hnext
        exact (hnext b hb' (by simpa using hb)).elim
    · rintro rfl
      exact ⟨text, rfl, startsWith_self _ _⟩

theorem dot_iff {token : Token} (h : p.Reads token p') :
    startsWith (.ofString ".") (isByte '.') p.rest ↔
      token = .fixed "." ∨ (∃ value, token = .number value) ∧ p.rest.head? = some '.'.toUInt8 := by
  constructor
  · intro hfront
    obtain ⟨hp, hnext⟩ := startsWith_iff.mp hfront
    cases token with
    | name => exact (not_symbol_of_name h (by decide) hp).elim
    | string => exact (not_symbol_of_string h (by decide) (by decide) hp).elim
    | number value =>
      refine .inr ⟨⟨value, rfl⟩, ?_⟩
      obtain ⟨after, hafter⟩ := hp
      rw [← hafter]
      rfl
    | fixed text =>
      refine .inl ?_
      rcases length_le_of_symbol h (by decide) hp with rfl | hlt
      · rfl
      · cases h with
        | fixed ht hs' _ =>
          have hlonger := (startsWith_of_front (startsWith_iff.mp hs').1 hlt).mp hfront
          have hshort : ∀ text ∈ fixedTexts, startsWith (.ofString ".") (isByte '.') (.ofString text) →
              (Bytes.ofString text).length ≤ 1 := by decide
          exact absurd hlt (Nat.not_lt_of_le (hshort text ht hlonger))
  · rintro (rfl | ⟨⟨value, rfl⟩, hdot⟩)
    · cases h with
      | fixed _ hs' _ => rwa [joins_dot] at hs'
    · obtain ⟨b, tail, hrest, hb⟩ := head_of_numeral (head_number h)
      rw [hrest, List.head?_cons, Option.some.injEq] at hdot
      subst hdot
      rcases hb with hb | ⟨-, hnot⟩
      · exact absurd hb (by decide)
      · rw [hrest]
        refine startsWith_iff.mpr ⟨⟨tail, rfl⟩, fun b hm hb => ?_⟩
        have hb : b = '.'.toUInt8 := by simpa [isByte] using hb
        exact hnot (hb ▸ hm)

theorem bracket_iff {token : Token} (h : p.Reads token p') :
    LongBracket.level? p.rest = none ∧ startsWith (.ofString "[") never p.rest ↔ token = .fixed "[" := by
  constructor
  · rintro ⟨hlevel, hfront⟩
    have hp := (startsWith_iff.mp hfront).1
    cases token with
    | name => exact (not_symbol_of_name h (by decide) hp).elim
    | number => exact (not_symbol_of_numeral (head_number h) (by decide) (by decide) hp).elim
    | string =>
      have hhead : p.rest.head? = some '['.toUInt8 := by
        obtain ⟨after, hafter⟩ := hp
        rw [← hafter]
        rfl
      rcases head_string h with hq | hq | hq
      · exact absurd (hhead.symm.trans hq) (by decide)
      · exact absurd (hhead.symm.trans hq) (by decide)
      · exact (hq hlevel).elim
    | fixed text =>
      rcases length_le_of_symbol h (by decide) hp with rfl | hlt
      · rfl
      · have ht := symbol_of_fixed h (by decide) hp
        cases h with
        | fixed _ hs' _ =>
          have hlead := List.prefix_of_prefix_length_le hp (startsWith_iff.mp hs').1 (Nat.le_of_lt hlt)
          rw [symbol_bracket text ht hlead]
  · rintro rfl
    cases h with
    | fixed _ hs' hlevel =>
      exact ⟨hlevel rfl, startsWith_never.mpr (startsWith_iff.mp hs').1⟩

theorem name_iff {token : Token} (h : p.Reads token p') :
    (∃ place, Scan.name p = .ok (none, place)) ↔ ∀ text, token ≠ .name text := by
  constructor
  · rintro ⟨place, hnone⟩ text rfl
    cases h with
    | name h =>
      rw [hnone] at h
      cases h
  · intro hne
    refine ⟨p, Scan.name_eq_none.mpr ⟨?_, rfl⟩⟩
    rintro ⟨hname, hres⟩
    rcases token_of_startsName h hname with ⟨text, rfl⟩ | ⟨word, hw, rfl⟩
    · exact hne text rfl
    · cases h with
      | fixed _ hs _ =>
        rw [joins_word hw] at hs
        rw [(takeWhile_of_word hw hs).1, isReserved_ofString hw] at hres
        cases hres

theorem number_iff {token : Token} (h : p.Reads token p') :
    (∃ place, Scan.numeral p = .ok (none, place)) ↔
      (∀ value, token ≠ .number value) ∧ token ≠ .fixed "." := by
  constructor
  · rintro ⟨place, hnone⟩
    refine ⟨?_, ?_⟩
    · rintro value rfl
      cases h with
      | number h =>
        rw [hnone] at h
        cases h
    · rintro rfl
      obtain ⟨-, hdec, -⟩ := Scan.numeral_eq_none.mp hnone
      obtain ⟨⟨tail, htail⟩, hnext⟩ := startsWith_iff.mp ((dot_iff h).mpr (.inl rfl))
      have hrest : p.rest = '.'.toUInt8 :: tail := htail.symm
      rw [hrest] at hdec hnext
      simp only [startsDecimal, (by decide : isDigit '.'.toUInt8 = false), Bool.false_or, beq_self_eq_true,
        Bool.true_and, bne_eq_false_iff_eq] at hdec
      exact hnext _ hdec (by decide)
  · rintro ⟨hnumber, hdot⟩
    suffices hn : ¬ (startsHexadecimal p.rest ∨ startsDecimal p.rest) by
      simp only [not_or, Bool.not_eq_true] at hn
      exact ⟨p, Scan.numeral_eq_none.mpr ⟨hn.1, hn.2, rfl⟩⟩
    intro hn
    cases token with
    | number value => exact hnumber value rfl
    | name text => exact not_startsName_of_numeral hn (head_name h)
    | string value =>
      obtain ⟨b, tail, hrest, hb⟩ := head_of_numeral hn
      have hhead : p.rest.head? = some b := by rw [hrest]; rfl
      rcases head_of_string (head_string h) with hq | hq | hq <;> obtain rfl := Option.some.inj (hhead.symm.trans hq) <;>
        rcases hb with hb | ⟨hb, -⟩ <;> exact absurd hb (by decide)
    | fixed text =>
      cases h with
      | fixed ht hs _ =>
        rcases List.mem_append.mp ht with ht | ht
        · rw [joins_word ht] at hs
          exact not_startsName_of_numeral hn (takeWhile_of_word ht hs).2
        · exact not_symbol_of_numeral hn ht (fun heq => hdot (heq ▸ rfl)) (startsWith_iff.mp hs).1

theorem string_iff {token : Token} (h : p.Reads token p') :
    (∃ place, Scan.string p = .ok (none, place)) ↔ ∀ value, token ≠ .string value := by
  constructor
  · rintro ⟨place, hnone⟩ value rfl
    cases h with
    | string h =>
      rw [hnone] at h
      cases h
  · intro hne
    suffices hn : ¬ (p.rest.head? = some '"'.toUInt8 ∨ p.rest.head? = some '\''.toUInt8 ∨
        LongBracket.level? p.rest ≠ none) by
      simp only [not_or, Decidable.not_not] at hn
      exact ⟨p, Scan.string_eq_none.mpr ⟨hn.1, hn.2.1, hn.2.2, rfl⟩⟩
    intro hopen
    have hhead := head_of_string hopen
    have hname : ¬ startsName p.rest := by
      rw [startsName]
      rcases hhead with hq | hq | hq <;> rw [hq] <;> decide
    cases token with
    | string value => exact hne value rfl
    | name text => exact hname (head_name h)
    | number value =>
      obtain ⟨b, tail, hrest, hb⟩ := head_of_numeral (head_number h)
      rw [hrest] at hhead
      rcases hhead with hq | hq | hq <;> obtain rfl := Option.some.inj hq <;>
        rcases hb with hb | ⟨hb, -⟩ <;> exact absurd hb (by decide)
    | fixed text =>
      cases h with
      | fixed ht hs hbracket =>
        rcases List.mem_append.mp ht with ht | ht
        · rw [joins_word ht] at hs
          exact hname (takeWhile_of_word ht hs).2
        · have hp := (startsWith_iff.mp hs).1
          obtain ⟨b, tail, hrest, -, -, hdouble, hsingle⟩ := head_of_symbol ht hp
          rw [hrest] at hhead
          rcases hhead with hq | hq | hq <;> obtain rfl := Option.some.inj hq
          · exact hdouble rfl
          · exact hsingle rfl
          · have hlead : ['['.toUInt8] <+: Bytes.ofString text :=
              List.prefix_of_prefix_length_le ⟨tail, hrest.symm⟩ hp
                (List.length_pos_iff.mpr (ofString_ne_nil text (List.mem_append_right _ ht)))
            have hlevel := hbracket (symbol_bracket text ht hlead)
            rcases hopen with hq | hq | hq
            · rw [hrest] at hq
              exact absurd (Option.some.inj hq) (by decide)
            · rw [hrest] at hq
              exact absurd (Option.some.inj hq) (by decide)
            · exact hq hlevel

/-- A token is read in one way only, unless it begins with a dot, which may be a token or the front of a numeral. -/
theorem unique {token token' : Token} {p'' : Place} (h : p.Reads token p') (h' : p.Reads token' p'')
    (hdot : p.rest.head? ≠ some '.'.toUInt8) : token' = token ∧ p'' = p' := by
  have hfixed {token : Token} {q : Place} (hr : p.Reads token q) : token ≠ .fixed "." := by
    rintro rfl
    cases hr with
    | fixed _ hs _ =>
      obtain ⟨tail, htail⟩ := (startsWith_iff.mp hs).1
      exact hdot (htail ▸ rfl)
  cases h with
  | @fixed text ht hs hb =>
    obtain rfl : token' = .fixed text := by
      by_cases hbracket : text = "["
      · subst hbracket
        exact (bracket_iff h').mp ⟨hb rfl, startsWith_never.mpr (startsWith_iff.mp hs).1⟩
      · exact (exact_iff h' ht hbracket fun heq => hfixed (.fixed ht hs hb) (heq ▸ rfl)).mp hs
    cases h'
    exact ⟨rfl, rfl⟩
  | name hscan =>
    obtain ⟨text, rfl⟩ : ∃ text, token' = .name text := by
      by_contra hne
      obtain ⟨place, hnone⟩ := (name_iff h').mpr fun text heq => hne ⟨text, heq⟩
      cases hscan.symm.trans hnone
    cases h' with
    | name hscan' =>
      cases hscan.symm.trans hscan'
      exact ⟨rfl, rfl⟩
  | number hscan =>
    obtain ⟨value, rfl⟩ : ∃ value, token' = .number value := by
      by_contra hne
      obtain ⟨place, hnone⟩ := (number_iff h').mpr ⟨fun value heq => hne ⟨value, heq⟩, hfixed h'⟩
      cases hscan.symm.trans hnone
    cases h' with
    | number hscan' =>
      cases hscan.symm.trans hscan'
      exact ⟨rfl, rfl⟩
  | string hscan =>
    obtain ⟨value, rfl⟩ : ∃ value, token' = .string value := by
      by_contra hne
      obtain ⟨place, hnone⟩ := (string_iff h').mpr fun value heq => hne ⟨value, heq⟩
      cases hscan.symm.trans hnone
    cases h' with
    | string hscan' =>
      cases hscan.symm.trans hscan'
      exact ⟨rfl, rfl⟩

end Place.Reads

theorem Cursor.Reads.unique {c m m' : Cursor} {lexeme lexeme' : Lexeme} (h : c.Reads lexeme m) (h' : c.Reads lexeme' m')
    (hdot : c.rest.head? ≠ some '.'.toUInt8) : lexeme' = lexeme ∧ m' = m := by
  obtain ⟨place, hread, hp, hskip⟩ := h.token
  obtain ⟨place', hread', hp', hskip'⟩ := h'.token
  obtain ⟨htoken, rfl⟩ := hread.unique hread' hdot
  have hoffset : lexeme'.offset = lexeme.offset := h'.offset.trans h.offset.symm
  have hspelling : lexeme'.spelling = lexeme.spelling := hp'.unique hp
  obtain ⟨token, offset, spelling⟩ := lexeme
  obtain ⟨token', offset', spelling'⟩ := lexeme'
  cases htoken
  cases hoffset
  cases hspelling
  cases hskip.symm.trans hskip'
  exact ⟨rfl, rfl⟩

theorem Lexed.unique {c : Cursor} {s s' : Stream} (h : Lexed c s) (h' : Lexed c s') (hdot : '.'.toUInt8 ∉ c.rest) :
    s' = s := by
  induction h generalizing s' with
  | done hr =>
    cases h' with
    | done => rfl
    | read hreads hs => exact (List.cons_ne_nil _ _ ((Lexed.read hreads hs).nil_iff.mpr hr)).elim
  | @read c m lexeme s hreads hs ih =>
    cases h' with
    | done hr => exact (List.cons_ne_nil _ _ ((Lexed.read hreads hs).nil_iff.mpr hr)).elim
    | read hreads' hs' =>
      obtain ⟨place, -, hp, hskip⟩ := hreads.token
      obtain ⟨trivia, -, -, hp', -⟩ := Parse.skipTrivia_spelling hskip
      have hrest : m.rest <:+ c.rest := ⟨_, (hp.trans hp').rest.symm⟩
      obtain ⟨rfl, rfl⟩ := hreads.unique hreads' fun hhead => hdot (List.mem_of_mem_head? hhead)
      rw [ih hs' fun hmem => hdot (hrest.subset hmem)]

end LuaSyntax
