import LyaLang.Machine.Program
import LyaLang.Proofs.Mode.Proper

/-! # Canonical programs

A program is canonical if each of its instructions has an operation that is defined, nothing where the operation
takes no operand, and a constant that can be spelled where it takes one: an integer, a truth value, a character
or a text.
-/

namespace LyaLang

/-- A word that is an integer, a truth value, a character or a text, and nothing besides. -/
def Word.isLiteral (w : Word) : Bool :=
  match w.kind with
  | .int => w.text.isEmpty
  | .bool => w.text.isEmpty && (w.number == 0 || w.number == 1)
  | .char => w.text.isEmpty && 0 ≤ w.number && w.number.toNatClampNeg.isValidChar
  | .text => w.number == 0
  | .other _ => false

/-- An instruction with an operation that is defined and only the operands that the operation takes. -/
def Instruction.isCanonical (i : Instruction) : Bool :=
  match i.op with
  | .unknown _ => false
  | .ldc => i.a == 0 && i.b == 0 && i.k.isLiteral
  | op => (1 ≤ op.operands || i.a == 0) && (2 ≤ op.operands || i.b == 0) && i.k == {}

namespace Word

/-- The number of a character is its code. -/
theorem number_ofChar (c : Char) : (Word.ofChar c).number.toInt = c.toNat := by
  have small : c.toNat < 2 ^ 31 := by
    have valid := c.valid
    have same : c.toNat = c.val.toNat := rfl
    omega
  rw [ofChar, char, Int32.toInt_toInt64, Int32.toInt_ofNat_of_lt small]

theorem isLiteral_ofChar (c : Char) : (Word.ofChar c).isLiteral = true := by
  have code := number_ofChar c
  have nonneg : (0) ≤ (Word.ofChar c).number := by
    rw [Int64.le_iff_toInt_le, code]
    exact Int.natCast_nonneg _
  have same : (Word.ofChar c).number.toNatClampNeg = c.toNat := by
    rw [Int64.toNatClampNeg, code, Int.toNat_natCast]
  have valid : (Word.ofChar c).number.toNatClampNeg.isValidChar := same ▸ c.valid
  exact Bool.and_eq_true_iff.mpr ⟨decide_eq_true nonneg, decide_eq_true valid⟩

/-- The words that assembler text can spell. -/
theorem isLiteral_iff {w : Word} : w.isLiteral = true ↔
    (∃ n, w = .int n) ∨ (∃ b, w = .bool b) ∨ (∃ c, w = .ofChar c) ∨ ∃ t, w = .ofText t := by
  constructor
  · intro literal
    obtain ⟨kind, number, text⟩ := w
    cases kind with
    | int =>
      obtain rfl := List.isEmpty_iff.mp literal
      exact .inl ⟨number, rfl⟩
    | bool =>
      obtain ⟨empty, value⟩ := Bool.and_eq_true_iff.mp literal
      obtain rfl := List.isEmpty_iff.mp empty
      rcases Bool.or_eq_true_iff.mp value with zero | one
      · obtain rfl := eq_of_beq zero
        exact .inr (.inl ⟨false, rfl⟩)
      · obtain rfl := eq_of_beq one
        exact .inr (.inl ⟨true, rfl⟩)
    | char =>
      obtain ⟨front, valid⟩ := Bool.and_eq_true_iff.mp literal
      obtain ⟨empty, nonneg⟩ := Bool.and_eq_true_iff.mp front
      obtain rfl := List.isEmpty_iff.mp empty
      have valid : number.toNatClampNeg.isValidChar := of_decide_eq_true valid
      have nonneg : 0 ≤ number.toInt := Int64.le_iff_toInt_le.mp (of_decide_eq_true nonneg)
      have code := number_ofChar (Char.ofNatAux number.toNatClampNeg valid)
      have same : (Word.ofChar (Char.ofNatAux number.toNatClampNeg valid)).number = number := by
        apply Int64.toInt_inj.mp
        rw [code]
        exact Int.toNat_of_nonneg nonneg
      exact .inr (.inr (.inl ⟨Char.ofNatAux number.toNatClampNeg valid, congrArg (Word.mk .char · []) same.symm⟩))
    | text =>
      obtain rfl := eq_of_beq literal
      exact .inr (.inr (.inr ⟨text, rfl⟩))
    | other tag => cases literal
  · rintro (⟨n, rfl⟩ | ⟨b, rfl⟩ | ⟨c, rfl⟩ | ⟨t, rfl⟩)
    · rfl
    · cases b <;> rfl
    · exact isLiteral_ofChar c
    · rfl

/-- Constants of a type are literals. -/
theorem Fits.isLiteral {k : Word} {t : ValueType} (fits : k.Fits t) : k.isLiteral = true := by
  rw [isLiteral_iff]
  cases t with
  | int => exact .inl fits
  | bool => exact .inr (.inl fits)
  | char => exact .inr (.inr (.inl fits))
  | string => exact .inr (.inr (.inr fits))
  | _ => exact fits.elim

end Word

end LyaLang
