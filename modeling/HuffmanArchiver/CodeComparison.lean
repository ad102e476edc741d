import HuffmanArchiver.CodeWords
import HuffmanArchiver.LongArithmetic

/-! The comparisons of codes and the strings that `operator<<` prints. `operator!=` of both types asks for
another length and another value, where one of the two is enough. -/
namespace HuffmanArchiver.CodeComparison
open Machine Codes CodeWords LongCodes LongArithmetic Library.BitString

def Agree (equal notEqual : Bool) (print print' : Exec (List Bool)) : Prop :=
  ∃ s s', print = .ok s ∧ print' = .ok s' ∧ (equal = true ↔ s = s') ∧ (notEqual = true ↔ s ≠ s')

section Printed
variable {equal notEqual : Bool} {print print' : Exec (List Bool)} {s s' : List Bool}
  (printed : print = .ok s) (printed' : print' = .ok s')
include printed printed'

theorem agreeOn : Agree equal notEqual print print' ↔ (equal = true ↔ s = s') ∧ (notEqual = true ↔ s ≠ s') := by
  constructor
  · rintro ⟨t,t',known,known',answers⟩
    cases Except.ok.inj (printed.symm.trans known)
    cases Except.ok.inj (printed'.symm.trans known')
    exact answers
  · intro answers
    exact ⟨s,s',printed,printed',answers⟩

theorem agreeIff {sameLen sameValue : Prop} (strings : s = s' ↔ sameLen ∧ sameValue)
    (both : equal = true ↔ sameLen ∧ sameValue) (neither : notEqual = true ↔ ¬ sameLen ∧ ¬ sameValue) :
    Agree equal notEqual print print' ↔ (sameLen ↔ sameValue) := by
  rw [agreeOn printed printed',both,neither,ne_eq,strings]
  by_cases len : sameLen <;> by_cases value : sameValue <;> simp [len,value]

theorem missed (strings : s ≠ s') (silent : notEqual = false) : ¬ Agree equal notEqual print print' := by
  rw [agreeOn printed printed',silent]
  rintro ⟨_,differ⟩
  exact Bool.false_ne_true (differ.mpr strings)

end Printed

def Fits (c : CodeT) : Prop := c.len.toNat ≤ 64 ∧ c.data.toNat < 2^c.len.toNat

instance : DecidablePred Fits := fun _ => inferInstanceAs (Decidable (_ ∧ _))

theorem wordInj {a b : CodeT} (fitsA : Fits a) (fitsB : Fits b) : word a = word b ↔ a.len = b.len ∧
    a.data = b.data := by
  rw [word,word,bitsInj fitsA.2 fitsB.2,UInt8.toNat_inj,UInt64.toNat_inj]

theorem codeAgree {a b : CodeT} (fitsA : Fits a) (fitsB : Fits b) :
    Agree (a.equal b) (a.notEqual b) a.print b.print ↔ (a.len = b.len ↔ a.data = b.data) :=
  agreeIff (printWord fitsA.1) (printWord fitsB.1) (wordInj fitsA fitsB) decide_eq_true_iff decide_eq_true_iff

def LongFits (c : LongCodeT) : Prop := c.len.toNat ≤ 255 ∧ number c.blocks < 2^c.len.toNat

instance : DecidablePred LongFits := fun _ => inferInstanceAs (Decidable (_ ∧ _))

theorem longInj {a b : LongCodeT} (fitsA : LongFits a) (fitsB : LongFits b) :
    bits a.len.toNat (number a.blocks) = bits b.len.toNat (number b.blocks) ↔ a.len = b.len ∧
      a.blocks = b.blocks := by
  rw [bitsInj fitsA.2 fitsB.2,UInt8.toNat_inj,numberInj]

theorem longAgree {a b : LongCodeT} (fitsA : LongFits a) (fitsB : LongFits b) :
    Agree (a.equal b) (a.notEqual b) a.print b.print ↔ (a.len = b.len ↔ a.blocks = b.blocks) := by
  have same : a.equal b = true ↔ a.len = b.len ∧ a.blocks = b.blocks := decide_eq_true_iff.trans and_comm
  have other : a.notEqual b = true ↔ ¬ a.len = b.len ∧ ¬ a.blocks = b.blocks := decide_eq_true_iff.trans and_comm
  exact agreeIff (printBits a) (printBits b) (longInj fitsA fitsB) same other

theorem comparisonAgrees {a b : CodeT} {c d : LongCodeT} (fitsA : Fits a) (fitsB : Fits b) (fitsC : LongFits c)
    (fitsD : LongFits d) :
    (Agree (a.equal b) (a.notEqual b) a.print b.print ↔ (a.len = b.len ↔ a.data = b.data)) ∧
    (Agree (c.equal d) (c.notEqual d) c.print d.print ↔ (c.len = d.len ↔ c.blocks = d.blocks)) :=
  ⟨codeAgree fitsA fitsB,longAgree fitsC fitsD⟩

def oneZero : CodeT := {len := 1}
def twoZeros : CodeT := {len := 2}
def oneZeroLong : LongCodeT := {len := 1}
def twoZerosLong : LongCodeT := {len := 2}

theorem comparisonAgreesZeros :
    (Agree (oneZero.equal twoZeros) (oneZero.notEqual twoZeros) oneZero.print twoZeros.print ↔
      (oneZero.len = twoZeros.len ↔ oneZero.data = twoZeros.data)) ∧
    (Agree (oneZeroLong.equal twoZerosLong) (oneZeroLong.notEqual twoZerosLong) oneZeroLong.print
      twoZerosLong.print ↔
      (oneZeroLong.len = twoZerosLong.len ↔ oneZeroLong.blocks = twoZerosLong.blocks)) :=
  comparisonAgrees (by decide) (by decide) (by decide) (by decide)

theorem zerosMissed :
    ¬ (∀ a b : CodeT, Fits a → Fits b → Agree (a.equal b) (a.notEqual b) a.print b.print) ∧
    ¬ (∀ a b : LongCodeT, LongFits a → LongFits b → Agree (a.equal b) (a.notEqual b) a.print b.print) := by
  constructor
  · intro all
    have one : oneZero.print = .ok [false] := rfl
    have two : twoZeros.print = .ok [false,false] := rfl
    exact missed one two (by decide) (by decide) (all oneZero twoZeros (by decide) (by decide))
  · intro all
    have one : oneZeroLong.print = .ok [false] := rfl
    have two : twoZerosLong.print = .ok [false,false] := rfl
    exact missed one two (by decide) (by decide) (all oneZeroLong twoZerosLong (by decide) (by decide))

end HuffmanArchiver.CodeComparison
