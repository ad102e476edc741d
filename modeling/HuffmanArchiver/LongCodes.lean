import HuffmanArchiver.Machine

/-! `long_code_t` of `long_code.h` and `long_code.cpp`, with the constructors and the operators of `code_t`. The
definitions on lists of blocks are the loops of the operators. -/
namespace HuffmanArchiver.LongCodes
open Machine

def blocksNum : ℕ := 8

abbrev Blocks := {blocks : List UInt32 // blocks.length = blocksNum}

def blockAt (blocks : Blocks) (i : ℕ) : Exec UInt32 :=
  if h : i < blocks.val.length then .ok blocks.val[i] else .error .index

structure LongCodeT where
  len : UInt8 := 0
  blocks : Blocks := ⟨List.replicate blocksNum 0,rfl⟩
  deriving DecidableEq

namespace LongCodeT

/-- The first loop of `recalc_len`, at block `i`. -/
def lastNonZero : (i last : UInt8) → List UInt32 → UInt8
  | _, last, [] => last
  | i, last, block :: rest => lastNonZero (i+1) (if 0 < block then i else last) rest

def msbPos : (fuel : ℕ) → (block : UInt32) → (pos : UInt8) → UInt8
  | 0, _, pos => pos
  | fuel+1, block, pos => if 0 < block then msbPos fuel (block/2) (pos+1) else pos

def recalcLen (c : LongCodeT) : Exec LongCodeT := do
  let last := lastNonZero 0 0 c.blocks.val
  let block ← blockAt c.blocks last.toNat
  .ok {c with len := max c.len (UInt8.ofNat (last.toNat*32 + (msbPos 32 block 0).toNat))}

def ofCodeLen (code : UInt64) (len : UInt8) : LongCodeT :=
  {len := len, blocks := ⟨[code.toUInt32,(code >>> 32).toUInt32,0,0,0,0,0,0],rfl⟩}

def ofCode (code : UInt64) : Exec LongCodeT := recalcLen (ofCodeLen code 0)

def incrementBlocks : (carry : Bool) → List UInt32 → List UInt32
  | _, [] => []
  | false, blocks => blocks
  | true, block :: rest => (block+1) :: incrementBlocks (block+1 = 0) rest

theorem incrementLength (carry : Bool) (blocks : List UInt32) :
    (incrementBlocks carry blocks).length = blocks.length := by
  induction blocks generalizing carry with
  | nil => cases carry <;> rfl
  | cons block rest ih =>
    cases carry with
    | false => rfl
    | true => simp only [incrementBlocks,List.length_cons,ih]

def increment (c : LongCodeT) : Exec LongCodeT :=
  recalcLen {c with blocks := ⟨incrementBlocks true c.blocks.val,(incrementLength _ _).trans c.blocks.property⟩}

def moveBlocks (bigShl : ℕ) (blocks : List UInt32) : List UInt32 :=
  blocks.take bigShl ++ blocks.take (blocksNum-bigShl)

def fillBlocks (bigShl : ℕ) (blocks : List UInt32) : List UInt32 := List.replicate bigShl 0 ++ blocks.drop bigShl

theorem fillMoveLength {bigShl : ℕ} {blocks : List UInt32} (le : bigShl ≤ blocksNum)
    (size : blocks.length = blocksNum) :
    (fillBlocks bigShl (moveBlocks bigShl blocks)).length = blocksNum := by
  simp only [fillBlocks,moveBlocks,List.length_append,List.length_replicate,List.length_drop,List.length_take,size]
  omega

def shiftBig (blocks : Blocks) (bigShl : ℕ) : Exec Blocks :=
  if le : bigShl ≤ blocksNum then .ok ⟨fillBlocks bigShl (moveBlocks bigShl blocks.val),fillMoveLength le
    blocks.property⟩
  else .error .index

def shiftBlocks (smallShl remainderBitsMask : UInt32) : (carry : UInt32) → List UInt32 → List UInt32
  | _, [] => []
  | pCarry, block :: rest =>
      let carry := (block &&& remainderBitsMask) >>> (32-smallShl)
      ((block <<< smallShl) ||| pCarry) :: shiftBlocks smallShl remainderBitsMask carry rest

theorem shiftLength (smallShl mask carry : UInt32) (blocks : List UInt32) :
    (shiftBlocks smallShl mask carry blocks).length = blocks.length := by
  induction blocks generalizing carry with
  | nil => rfl
  | cons block rest ih => simp only [shiftBlocks,List.length_cons,ih]

def shiftSmall (blocks : Blocks) (smallShl : UInt8) : Exec Blocks :=
  if smallShl ≠ 0 then do
    -- all shifts below are by one of these amounts
    require (smallShl < 32 ∧ 32-smallShl < 32) .shift
    let shiftedBitsMask := UInt32.ofNat (1 <<< smallShl.toNat - 1)
    let remainderBitsMask := shiftedBitsMask <<< (32-smallShl).toUInt32
    .ok ⟨shiftBlocks smallShl.toUInt32 remainderBitsMask 0 blocks.val,(shiftLength _ _ _ _).trans blocks.property⟩
  else .ok blocks

def shiftLeft (c : LongCodeT) (shl : UInt8) : Exec LongCodeT := do
  let blocks ← shiftBig c.blocks (shl/32).toNat
  let blocks ← shiftSmall blocks (shl%32)
  .ok {len := c.len+shl, blocks := blocks}

def equal (a b : LongCodeT) : Bool := a.blocks = b.blocks ∧ a.len = b.len

def notEqual (a b : LongCodeT) : Bool := a.blocks ≠ b.blocks ∧ a.len ≠ b.len

def printBlock : (n : ℕ) → (block : UInt32) → List Bool
  | 0, _ => []
  | i+1, block => ((block >>> UInt32.ofNat i) &&& 1 = 1) :: printBlock i block

def printBlocks (blocks : Blocks) : (b : ℕ) → Exec (List Bool)
  | 0 => .ok []
  | i+1 => do
      let block ← blockAt blocks i
      let rest ← printBlocks blocks i
      .ok (printBlock 32 block ++ rest)

def print (c : LongCodeT) : Exec (List Bool) := do
  let b := (c.len/32).toNat
  let block ← blockAt c.blocks b
  let rest ← printBlocks c.blocks b
  .ok (printBlock (c.len%32).toNat block ++ rest)

end LongCodeT
end HuffmanArchiver.LongCodes
