import HuffmanArchiver.Codes
import HuffmanArchiver.Library.BitString

/-! A `code_t` as a number and as a bit string. Bits of `data` beyond the length do not count: the left
alignment shifts them out. -/
namespace HuffmanArchiver.CodeWords
open Machine Codes Library.BitString

def value (c : CodeT) : ℕ := c.data.toNat % 2^c.len.toNat

theorem valueLt (c : CodeT) : value c < 2^c.len.toNat := Nat.mod_lt _ (Nat.two_pow_pos _)

def word (c : CodeT) : List Bool := bits c.len.toNat c.data.toNat

@[simp] theorem wordLength (c : CodeT) : (word c).length = c.len.toNat := bitsLength _ _

theorem wordValue (c : CodeT) : word c = bits c.len.toNat (value c) := (bitsMod _ _).symm

def Coded (codes : CodeTable) (b : UInt8) : Prop := (codes b).len ≠ 0

theorem codedPos {codes : CodeTable} {b : UInt8} (coded : Coded codes b) : 0 < (codes b).len.toNat :=
  nonzeroIff.mp coded

theorem leftAlignSpec {c : CodeT} (pos : 0 < c.len.toNat) (fits : c.len.toNat ≤ 64) :
    ∃ data, c.leftAlign = .ok {c with data := data} ∧ data.toNat = value c * 2^(64-c.len.toNat) := by
  have shift : sizeSub bitSize c.len.toNat = 64-c.len.toNat := sizeSubLe fits (by norm_num [bitSize])
  have whole : 2^64 = 2^c.len.toNat * 2^(64-c.len.toNat) := powSplit (by omega)
  refine ⟨UInt64.ofNat (c.data.toNat <<< (64-c.len.toNat)),?_,?_⟩
  · have small : 64-c.len.toNat < 64 := Nat.sub_lt (by norm_num) pos
    simp only [CodeT.leftAlign,shift,shl64,if_pos small,okBind]
  · rw [UInt64.toNat_ofNat',Nat.shiftLeft_eq,whole,Nat.mul_mod_mul_right]
    rfl

theorem msbSize {fuel : ℕ} {d : UInt64} (enough : Nat.size d.toNat ≤ fuel) (pos : UInt8) :
    CodeT.msbPos fuel d pos = pos + UInt8.ofNat (Nat.size d.toNat) := by
  rw [← countUp]
  refine halvings (fun _ _ => rfl) (fun fuel x count => ?_) (fun x => UInt64.toNat_div x 2) enough pos
  rw [CodeT.msbPos]
  simp only [UInt64.lt_iff_toNat_lt]
  rfl

theorem recalcLenSpec (c : CodeT) : c.recalcLen.len.toNat = max c.len.toNat (Nat.size c.data.toNat) := by
  have le : Nat.size c.data.toNat ≤ bitSize := Nat.size_le.mpr c.data.toNat_lt
  have fits : Nat.size c.data.toNat < 256 := le.trans_lt (by norm_num [bitSize])
  simp only [CodeT.recalcLen,UInt8.toNat_max,msbSize le,UInt8.zero_add,narrowByte fits]

theorem incrementLen (c : CodeT) : c.increment.len.toNat = max c.len.toNat (Nat.size (c.data+1).toNat) :=
  recalcLenSpec _

theorem incrementSpec {c : CodeT} (short : c.len.toNat < 64) (lt : c.data.toNat < 2^c.len.toNat) :
    c.increment.data.toNat = c.data.toNat + 1 ∧
      c.increment.len.toNat = if c.data.toNat + 1 = 2^c.len.toNat then c.len.toNat + 1 else c.len.toNat := by
  have data : (c.data+1).toNat = c.data.toNat + 1 := by
    have half : 2^c.len.toNat ≤ 2^63 := Nat.pow_le_pow_right (by norm_num) (Nat.le_of_lt_succ short)
    rw [UInt64.toNat_add]; simp; omega
  refine ⟨data,?_⟩
  rw [incrementLen,data]
  split
  · rename_i full
    rw [full,Nat.size_pow]
    exact Nat.max_eq_right (Nat.le_succ _)
  · have le : Nat.size (c.data.toNat+1) ≤ c.len.toNat := Nat.size_le.mpr (by omega)
    exact Nat.max_eq_left le

theorem incrementFull {c : CodeT} (full : c.len.toNat = 64) : c.increment.len.toNat = 64 := by
  have le : Nat.size (c.data+1).toNat ≤ 64 := Nat.size_le.mpr (c.data+1).toNat_lt
  rw [incrementLen,full,Nat.max_eq_left le]

theorem shiftLeftOk {c : CodeT} {shl : UInt8} (lt : shl.toNat < 64) :
    c.shiftLeft shl = .ok ⟨c.len+shl,UInt64.ofNat (c.data.toNat <<< shl.toNat)⟩ := by
  simp [CodeT.shiftLeft,shl64,require,bitSize,lt]

theorem shiftLeftFails {c : CodeT} {shl : UInt8} (le : 64 ≤ shl.toNat) : c.shiftLeft shl = .error .assertion := by
  simp [CodeT.shiftLeft,require,bitSize,Nat.not_lt.mpr le]

theorem shiftLeftLen {c after : CodeT} {len : UInt8} (ran : c.shiftLeft (len-c.len) = .ok after) :
    after.len = len := by
  by_cases lt : (len-c.len).toNat < 64
  · rw [shiftLeftOk lt] at ran
    cases Except.ok.inj ran
    exact add_sub_cancel _ _
  · rw [shiftLeftFails (Nat.le_of_not_lt lt)] at ran
    contradiction

theorem printDataBits {n : ℕ} (fits : n ≤ 64) (data : UInt64) :
    CodeT.printData n data = .ok (bits n data.toNat) := by
  induction n with
  | zero => rfl
  | succ i ih =>
    obtain ⟨shifted,ran,value⟩ := shr64Spec data fits
    have bit : shifted &&& 1 = 1 ↔ data.toNat / 2^i % 2 = 1 := by
      rw [← UInt64.toNat_inj,UInt64.toNat_and,UInt64.toNat_one,Nat.and_one_is_mod,value]
    simp only [CodeT.printData,ran,ih (by omega),okBind,bits,Nat.testBit_eq_decide_div_mod_eq,bit]

theorem printWord {c : CodeT} (fits : c.len.toNat ≤ 64) : c.print = .ok (word c) := printDataBits fits c.data

end HuffmanArchiver.CodeWords
