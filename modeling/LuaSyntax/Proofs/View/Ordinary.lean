import LuaSyntax.Proofs.Progress.Grammar
import LuaSyntax.Proofs.Literal.Numeral
import LuaSyntax.Session

/-! # Ordinary numbers

A numeral has no sign and its value is rounded, to infinity at most, so no numeral makes a NaN or a
negative zero. All numbers of parsed trees are ordinary ones, and these are equal only where they are the
same.
-/
namespace LuaSyntax

namespace Binary64
variable {x y : Binary64}

/-- From zero to infinity, without a sign. -/
def Ordinary (x : Binary64) : Prop := x.bits ≤ infinity.bits

theorem ordinary_ofRatio (num den : Nat) : (ofRatio num den).Ordinary := by
  have hround (word : Nat) : Ordinary (if word < infinity.bits.toNat then ⟨UInt64.ofNat word⟩ else infinity) := by
    split
    · next hlt =>
      have hle : UInt64.ofNat word ≤ infinity.bits := by
        rw [UInt64.le_iff_toNat_le, UInt64.toNat_ofNat']
        exact Nat.le_trans (Nat.mod_le _ _) (Nat.le_of_lt hlt)
      exact hle
    · exact UInt64.le_refl _
  exact hround _

theorem ordinary_zero : zero.Ordinary := UInt64.le_iff_toNat_le.mpr (Nat.zero_le _)

theorem ordinary_infinity : infinity.Ordinary := UInt64.le_refl _

theorem ordinary_ofDecimal (significand : Nat) (exponent : Int) : (ofDecimal significand exponent).Ordinary := by
  unfold ofDecimal
  split
  · exact ordinary_zero
  · split
    · split
      · exact ordinary_infinity
      · exact ordinary_ofRatio _ _
    · simp only
      split
      · exact ordinary_zero
      · exact ordinary_ofRatio _ _

theorem Ordinary.magnitude_eq (h : x.Ordinary) : x.magnitude = x.bits.toNat := by
  have hle : x.bits.toNat ≤ infinity.bits.toNat := UInt64.le_iff_toNat_le.mp h
  have hinfinity : infinity.bits.toNat < 0x8000000000000000 := by decide
  exact Nat.mod_eq_of_lt (by omega)

theorem Ordinary.not_isNaN (h : x.Ordinary) : x.isNaN = false := by
  have hle : x.bits.toNat ≤ infinity.bits.toNat := UInt64.le_iff_toNat_le.mp h
  have hinfinity : infinity.magnitude = infinity.bits.toNat := by decide
  simpa [isNaN, h.magnitude_eq, hinfinity] using hle

/-- Ordinary doubles are equal as numbers only if they have the same bits. -/
theorem Ordinary.equals_iff (hx : x.Ordinary) (hy : y.Ordinary) : x.equals y ↔ x = y := by
  have hzero : x.bits.toNat = 0 ∧ y.bits.toNat = 0 → x.bits = y.bits := by
    rintro ⟨h, h'⟩
    exact UInt64.toNat_inj.mp (h.trans h'.symm)
  have hbits : x = y ↔ x.bits = y.bits := ⟨fun h => h ▸ rfl, fun h => by cases x; cases y; simpa using h⟩
  simp only [equals, hx.not_isNaN, hy.not_isNaN, hx.magnitude_eq, hy.magnitude_eq, Bool.not_false, Bool.true_and,
    Bool.or_eq_true, Bool.and_eq_true, beq_iff_eq, hbits]
  exact ⟨fun h => h.elim id hzero, .inl⟩

end Binary64

namespace Number
variable {value value' : Number}

def Ordinary : Number → Prop
  | integer _ => True
  | float value => value.Ordinary

theorem Ordinary.equals_iff (h : value.Ordinary) (h' : value'.Ordinary) : value.equals value' ↔ value = value' := by
  cases value <;> cases value' <;> simp [equals]
  exact Binary64.Ordinary.equals_iff h h'

theorem ordinary_of_spelling {text : Bytes} (h : NumeralSpelling text value) : value.Ordinary := by
  cases h with
  | hexadecimal => trivial
  | @integer digits =>
    unfold ofDecimal
    simp only
    split
    · trivial
    · exact Binary64.ordinary_ofDecimal _ _
  | floating => exact Binary64.ordinary_ofDecimal _ _

end Number

theorem parse_ordinary {source : Bytes} {limit : Nat} {filename : String} {root : Node}
    (h : parse source limit filename = .ok root) : root.Numbers Number.Ordinary := by
  have hnumeral {c c' : Cursor} {found : Number × Span} (ho : Rule.token Scan.numeral c = .ok (some found) c') :
      found.1.Ordinary := by
    obtain ⟨value, span⟩ := found
    obtain ⟨place, hscan, -⟩ := Rule.token_eq_some.mp ho
    obtain ⟨text, hspelling, -⟩ := Scan.numeral_spelling hscan
    exact Number.ordinary_of_spelling hspelling
  simp only [parse, Session.parse, Session.start] at h
  split at h
  · next hchunk =>
    obtain rfl := Except.ok.inj h
    exact Grammar.numbers_chunk hnumeral hchunk
  · cases h

end LuaSyntax
