import HuffmanArchiver.CodeWords
import HuffmanArchiver.LongArithmetic
import HuffmanArchiver.Library.Refinement

/-! `code_t` and `long_code_t` refine one machine, a binary word without bounds: the first one up to 64 bits
and the second one up to 255. Within 64 bits they cannot be told apart. -/
namespace HuffmanArchiver.CodeRefinement
open Machine Codes CodeWords LongCodes LongArithmetic Library.BitString Library.Refinement

inductive CodeOp where
  | increment
  | shiftLeft (shl : UInt8)
  deriving DecidableEq, Repr

def stepCode (c : CodeT) : CodeOp → Exec CodeT
  | .increment => .ok c.increment
  | .shiftLeft shl => c.shiftLeft shl

def stepLong (c : LongCodeT) : CodeOp → Exec LongCodeT
  | .increment => c.increment
  | .shiftLeft shl => c.shiftLeft shl

structure Word where
  len : ℕ
  value : ℕ
  fits : value < 2^len

namespace Word

def ofValue (value : ℕ) : Word := ⟨Nat.size value,value,Nat.lt_size_self value⟩

theorem incrementFits (w : Word) : w.value+1 < 2^(max w.len (Nat.size (w.value+1))) :=
  Nat.size_le.mp (le_max_right _ _)

theorem shiftFits (w : Word) (k : ℕ) : w.value*2^k < 2^(w.len+k) := by
  rw [Nat.pow_add]
  exact Nat.mul_lt_mul_of_pos_right w.fits (Nat.two_pow_pos k)

def step (w : Word) : CodeOp → Word
  | .increment => ⟨max w.len (Nat.size (w.value+1)),w.value+1,w.incrementFits⟩
  | .shiftLeft shl => ⟨w.len+shl.toNat,w.value*2^shl.toNat,w.shiftFits _⟩

theorem valueBelow (w : Word) {n : ℕ} (short : w.len ≤ n) : w.value < 2^n :=
  w.fits.trans_le (Nat.pow_le_pow_right (by norm_num) short)

end Word

def smallShift : CodeOp → Prop
  | .increment => True
  | .shiftLeft shl => shl.toNat < bitSize

instance : DecidablePred smallShift
  | .increment => inferInstanceAs (Decidable True)
  | .shiftLeft _ => inferInstanceAs (Decidable (_ < _))

def Narrow (w : Word) : Prop := w.value < 2^64 ∧ w.len ≤ 64

def narrowStep (w : Word) (op : CodeOp) : Prop := smallShift op ∧ Narrow (w.step op)

structure CodeWord (c : CodeT) (w : Word) : Prop where
  len : c.len.toNat = w.len
  data : c.data.toNat = w.value

structure LongWord (l : LongCodeT) (w : Word) : Prop where
  len : l.len.toNat = w.len
  number : number l.blocks = w.value

theorem codeRefines : Refines Word.step narrowStep stepCode CodeWord := by
  intro c w op same allowed
  obtain ⟨small,below,short⟩ := allowed
  cases op with
  | increment =>
    have data : (c.data+1).toNat = w.value+1 := by
      rw [UInt64.toNat_add,same.data]
      exact Nat.mod_eq_of_lt below
    exact ⟨c.increment,rfl,by rw [incrementLen,data,same.len]; rfl,data⟩
  | shiftLeft shl =>
    have len : (c.len+shl).toNat = w.len+shl.toNat := by
      rw [UInt8.toNat_add,same.len]
      exact Nat.mod_eq_of_lt (Nat.lt_of_le_of_lt short (by norm_num))
    refine ⟨_,shiftLeftOk small,len,?_⟩
    rw [UInt64.toNat_ofNat',same.data,Nat.shiftLeft_eq]
    exact Nat.mod_eq_of_lt below

theorem longRefines : Refines Word.step (fun w op => (w.step op).len ≤ 255) stepLong LongWord := by
  intro l w op same short
  have below := (w.step op).valueBelow short
  cases op with
  | increment =>
    obtain ⟨l',ran,sum,len⟩ := LongArithmetic.incrementSpec (c := l) (by rw [same.number]; exact below)
    exact ⟨l',ran,by rw [len,same.len,same.number]; rfl,by rw [sum,same.number]; rfl⟩
  | shiftLeft shl =>
    have room : number l.blocks * 2^shl.toNat < 2^256 := by
      rw [same.number]
      exact below.trans (by norm_num)
    obtain ⟨blocks,ran,product⟩ := shiftLeftSpec room
    -- 255 is the greatest length that its byte holds
    have len : (l.len+shl).toNat = w.len+shl.toNat := by
      rw [UInt8.toNat_add,same.len]
      exact Nat.mod_eq_of_lt (Nat.lt_succ_of_le short)
    exact ⟨_,ran,len,by rw [product,same.number]; rfl⟩

inductive Start where
  | ofCode (code : UInt64)
  | ofCodeLen (code : UInt64) (len : UInt8) (short : len.toNat ≤ 64) (fits : code.toNat < 2^len.toNat)

namespace Start

def code : Start → CodeT
  | .ofCode code => .ofCode code
  | .ofCodeLen code len _ _ => .ofCodeLen code len

def long : Start → Exec LongCodeT
  | .ofCode code => LongCodeT.ofCode code
  | .ofCodeLen code len _ _ => .ok (.ofCodeLen code len)

def word : Start → Word
  | .ofCode code => .ofValue code.toNat
  | .ofCodeLen code len _ fits => ⟨len.toNat,code.toNat,fits⟩

end Start

theorem startCode (start : Start) : CodeWord start.code start.word := by
  cases start with
  | ofCode code =>
    exact ⟨(recalcLenSpec {data := code}).trans (Nat.zero_max _),rfl⟩
  | ofCodeLen code len short fits => exact ⟨rfl,rfl⟩

theorem halves (code : UInt64) (len : UInt8) : number (LongCodeT.ofCodeLen code len).blocks = code.toNat := by
  have low : code.toUInt32.toNat = code.toNat % 2^32 := UInt64.toNat_toUInt32 code
  have high : (code >>> 32).toUInt32.toNat = code.toNat / 2^32 := by
    have lt := code.toNat_lt
    rw [UInt64.toNat_toUInt32,UInt64.toNat_shiftRight]
    simp only [UInt64.toNat_ofNat,Nat.shiftRight_eq_div_pow,Nat.reducePow,Nat.reduceMod]
    omega
  have digits : number (LongCodeT.ofCodeLen code len).blocks = code.toUInt32.toNat +
    2^32 * (code >>> 32).toUInt32.toNat := by
    simp [number,limbs,LongCodeT.ofCodeLen,Nat.ofDigits_cons]
  rw [digits,low,high,Nat.mod_add_div]

theorem startLong (start : Start) : ∃ l, start.long = .ok l ∧ LongWord l start.word := by
  cases start with
  | ofCode code =>
    have le : Nat.size code.toNat ≤ 64 := Nat.size_le.mpr code.toNat_lt
    refine ⟨_,recalcSpec _,?_,halves code 0⟩
    rw [halves,UInt8.toNat_max,narrowByte (Nat.lt_of_le_of_lt le (by norm_num))]
    exact Nat.zero_max _
  | ofCodeLen code len short fits => exact ⟨_,rfl,rfl,halves code len⟩

theorem startNarrow (start : Start) : Narrow start.word := by
  cases start with
  | ofCode code => exact ⟨code.toNat_lt,Nat.size_le.mpr code.toNat_lt⟩
  | ofCodeLen code len short fits => exact ⟨code.toNat_lt,short⟩

theorem equalAgree {c c' : CodeT} {l l' : LongCodeT} {w w' : Word} (code : CodeWord c w) (code' : CodeWord c' w')
    (long : LongWord l w) (long' : LongWord l' w') : c.equal c' = l.equal l' := by
  have len : c.len = c'.len ↔ l.len = l'.len := by
    rw [← UInt8.toNat_inj,← UInt8.toNat_inj,code.len,code'.len,long.len,long'.len]
  have value : c.data = c'.data ↔ l.blocks = l'.blocks := by
    rw [← UInt64.toNat_inj,← numberInj,code.data,code'.data,long.number,long'.number]
  rw [CodeT.equal,LongCodeT.equal,decide_eq_decide,len,value,and_comm]

structure InStep (c : CodeT) (l : LongCodeT) : Prop where
  len : c.len = l.len
  blocks : l.blocks.val = [c.data.toUInt32,(c.data >>> 32).toUInt32,0,0,0,0,0,0]
  print : ∃ printed, c.print = .ok printed ∧ l.print = .ok printed

theorem inStep {c : CodeT} {l : LongCodeT} {w : Word} (code : CodeWord c w) (long : LongWord l w)
    (narrow : Narrow w) : InStep c l := by
  have number : number l.blocks = number (LongCodeT.ofCodeLen c.data c.len).blocks := by
    rw [halves,long.number,code.data]
  have short : c.len.toNat ≤ 64 := by
    rw [code.len]
    exact narrow.2
  refine ⟨?_,congrArg Subtype.val (numberInj.mp number),word c,printWord short,?_⟩
  · rw [← UInt8.toNat_inj,code.len,long.len]
  · rw [printBits,long.len,long.number,← code.len,← code.data]
    rfl

def runCode (start : Start) (ops : List CodeOp) : Exec CodeT := ops.foldlM stepCode start.code

def runLong (start : Start) (ops : List CodeOp) : Exec LongCodeT := do
  let l ← start.long
  ops.foldlM stepLong l

def NarrowRun (start : Start) (ops : List CodeOp) (w : Word) : Prop := Run Word.step narrowStep start.word ops w

theorem narrowRuns {start : Start} {ops : List CodeOp} {w : Word} (run : NarrowRun start ops w) :
    ∃ c l, runCode start ops = .ok c ∧ runLong start ops = .ok l ∧ CodeWord c w ∧ LongWord l w ∧ InStep c l := by
  obtain ⟨c,ranCode,code⟩ := refinesRun codeRefines run (startCode start)
  obtain ⟨first,made,begins⟩ := startLong start
  have wide : Run Word.step (fun v op => (v.step op).len ≤ 255) start.word ops w :=
    run.mono (fun _ _ fine => Nat.le_trans fine.2.2 (by norm_num))
  obtain ⟨l,ranLong,long⟩ := refinesRun longRefines wide begins
  have narrow := run.ends (startNarrow start) (fun _ _ fine => fine.2)
  exact ⟨c,l,ranCode,by rw [runLong,made]; exact ranLong,code,long,inStep code long narrow⟩

theorem codesAgree {start start' : Start} {ops ops' : List CodeOp} {w w' : Word} (run : NarrowRun start ops w)
    (run' : NarrowRun start' ops' w') : ∃ c l c' l',
      (runCode start ops = .ok c ∧ runLong start ops = .ok l ∧ InStep c l) ∧
      (runCode start' ops' = .ok c' ∧ runLong start' ops' = .ok l' ∧ InStep c' l') ∧ c.equal c' = l.equal l' := by
  obtain ⟨c,l,ranCode,ranLong,code,long,same⟩ := narrowRuns run
  obtain ⟨c',l',ranCode',ranLong',code',long',same'⟩ := narrowRuns run'
  exact ⟨c,l,c',l',⟨ranCode,ranLong,same⟩,⟨ranCode',ranLong',same'⟩,equalAgree code code' long long'⟩

def fullBlock : Start := .ofCodeLen 0xFFFFFFFF 32 (by decide) (by decide)

theorem carryRun : NarrowRun fullBlock [.increment,.shiftLeft 31] ((fullBlock.word.step .increment).step
    (.shiftLeft 31)) :=
  .cons ⟨trivial,by decide,by decide⟩ (.cons ⟨by decide,by decide,by decide⟩ .nil)

theorem shiftRun : NarrowRun (.ofCode 5) [.shiftLeft 61] ((Start.ofCode 5).word.step (.shiftLeft 61)) :=
  .cons ⟨by decide,by decide,by decide⟩ .nil

theorem codesAgreeCarry : ∃ c l c' l',
    (runCode fullBlock [.increment,.shiftLeft 31] = .ok c ∧ runLong fullBlock [.increment,.shiftLeft 31] =
      .ok l ∧ InStep c l) ∧
    (runCode (.ofCode 5) [.shiftLeft 61] = .ok c' ∧ runLong (.ofCode 5) [.shiftLeft 61] = .ok l' ∧ InStep c' l') ∧
    c.equal c' = l.equal l' := codesAgree carryRun shiftRun

end HuffmanArchiver.CodeRefinement
