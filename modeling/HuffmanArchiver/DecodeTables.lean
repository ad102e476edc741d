import HuffmanArchiver.Codes

/-! The nested decode table of `decode_table.h`: tables of `2^bits` cells in one vector. -/
namespace HuffmanArchiver.DecodeTables
open Machine Codes

structure DecodeElemT where
  table : UInt16 := 0 -- 0 means it points nowhere
  byte : UInt8 := 0
  len : UInt8 := 0
  deriving DecidableEq, Repr

abbrev DecodeTableT (bits : ℕ) := Vector DecodeElemT (2^bits)
abbrev DecodeTable (bits : ℕ) := Array (DecodeTableT bits)

variable {bits : ℕ}

def emplaceBack (table : DecodeTable bits) : DecodeTable bits := table.push (Vector.replicate (2^bits) {})

def cell (table : DecodeTable bits) (ind index : ℕ) : Exec DecodeElemT :=
  if h : ind < table.size then
    if g : index < 2^bits then .ok table[ind][index] else .error .index
  else .error .index

def modify (table : DecodeTable bits) (ind index : ℕ) (f : DecodeElemT → DecodeElemT) : Exec (DecodeTable bits) :=
  if h : ind < table.size then
    if g : index < 2^bits then .ok (table.set ind (table[ind].set index (f table[ind][index])))
    else .error .index
  else .error .index

/-- `for (auto index = block; (index & mask) == block; ++index)`. -/
def fillLeaf (ind : ℕ) (mask block : UInt64) (len byte : UInt8) :
    (fuel : ℕ) → (index : UInt64) → DecodeTable bits → Exec (DecodeTable bits)
  | 0, _, _ => .error .diverges
  | fuel+1, index, table =>
      if index &&& mask = block then do
        let table ← modify table ind index.toNat (fun c => {c with len := len, byte := byte})
        fillLeaf ind mask block len byte fuel (index+1) table
      else .ok table

/-- The case of a block with more blocks behind it; the result carries the new `cur_ind`. -/
def nest (table : DecodeTable bits) (curInd block : ℕ) (len : UInt8) : Exec (ℕ × DecodeTable bits) := do
  let old ← cell table curInd block
  let table ← if old.table = 0 then
      let grown := emplaceBack table
      modify grown curInd block (fun c => {c with len := len, table := UInt16.ofNat (grown.size-1)})
    else .ok table
  let linked ← cell table curInd block
  require (linked.table.toNat < table.size) .index
  .ok (linked.table.toNat,table)

def insertBlocks (byte len : UInt8) (blocks : ℕ) :
    (left : ℕ) → (data : UInt64) → (curInd : ℕ) → DecodeTable bits → Exec (DecodeTable bits)
  | 0, _, _, table => .ok table
  | left+1, data, curInd, table => do
      let i := blocks-(left+1)
      let remainder := len.toNat % bits
      let remRoundUp := if remainder ≠ 0 then remainder else bits
      let blockLen := if i+1 < blocks then bits else remRoundUp
      let mask : UInt64 := ~~~ UInt64.ofNat (1 <<< (bits-blockLen) - 1)
      let top ← shr64 data (64-bits)
      let block := top &&& mask
      let data ← shl64 data blockLen
      if i+1 = blocks then do
        let table ← fillLeaf curInd mask block (UInt8.ofNat blockLen) byte (2^bits+1) block table
        insertBlocks byte len blocks left data curInd table
      else do
        let (curInd,table) ← nest table curInd block.toNat (UInt8.ofNat blockLen)
        insertBlocks byte len blocks left data curInd table

def insertCode (codes : CodeTable) (table : DecodeTable bits) (byte : UInt8) : Exec (DecodeTable bits) :=
  if (codes byte).len = 0 then .ok table
  else do
    let code ← (codes byte).leftAlign
    let blocks := (code.len.toNat+bits-1) / bits
    insertBlocks byte code.len blocks blocks code.data 0 table

def buildDecodeTable (bits : ℕ) (codes : CodeTable) : Exec (DecodeTable bits) :=
  allBytes.foldlM (insertCode codes) (emplaceBack #[])

end HuffmanArchiver.DecodeTables
