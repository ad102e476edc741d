import HuffmanArchiver.DecodeTables
import HuffmanArchiver.FastIo

/-! `code_reader` and `code_writer` of `code_io.h`. -/
namespace HuffmanArchiver.CodeIo
open Machine Codes DecodeTables FastIo

inductive NestingFactor where
  | noNesting
  | singleNesting
  | unlimitedNesting
  deriving DecidableEq, Repr

structure CodeReader (bits : ℕ) where
  table : DecodeTable bits
  reader : BitReader
  buffer : UInt16

namespace CodeReader
variable {bits : ℕ}

def create (bits : ℕ) (codes : CodeTable) (input : IStream) : Exec (CodeReader bits) := do
  let table ← buildDecodeTable bits codes
  let (buffer,reader) ← BitReader.read {input := input} (UInt8.ofNat bits)
  .ok {table := table, reader := reader, buffer := buffer}

def advance (r : CodeReader bits) (n : UInt8) : Exec (CodeReader bits) := do
  let shifted ← shl16 r.buffer n.toNat
  let (word,reader) ← r.reader.read n
  .ok {r with reader := reader, buffer := (shifted &&& UInt16.ofNat (1 <<< bits - 1)) ||| word}

/-- `while (cur[buffer].table)`, with the index of `cur` in the vector of tables. -/
def descendLoop : (fuel : ℕ) → (r : CodeReader bits) → (cur : ℕ) → Exec (ℕ × CodeReader bits)
  | 0, _, _ => .error .diverges
  | fuel+1, r, cur => do
      let entry ← cell r.table cur r.buffer.toNat
      if entry.table ≠ 0 then
        require (entry.table.toNat < r.table.size) .index
        let r ← r.advance (UInt8.ofNat bits)
        descendLoop fuel r entry.table.toNat
      else .ok (cur,r)

def descend (nesting : NestingFactor) (r : CodeReader bits) : Exec (ℕ × CodeReader bits) :=
  match nesting with
  | .noNesting => .ok (0,r)
  | .singleNesting => do
      let entry ← cell r.table 0 r.buffer.toNat
      if entry.table ≠ 0 then
        require (entry.table.toNat < r.table.size) .index
        let r ← r.advance (UInt8.ofNat bits)
        .ok (entry.table.toNat,r)
      else .ok (0,r)
  | .unlimitedNesting => descendLoop r.table.size r 0

def readNext (nesting : NestingFactor) (r : CodeReader bits) : Exec (UInt8 × CodeReader bits) := do
  let (cur,r) ← r.descend nesting
  let entry ← cell r.table cur r.buffer.toNat
  let r ← r.advance entry.len
  .ok (entry.byte,r)

def readBytes (r : CodeReader bits) : UInt64 := r.reader.readBytes

end CodeReader

structure CodeWriter where
  writer : ByteWriter
  len : UInt8 := 0
  buffer : UInt64 := 0
  writtenBytesCnt : UInt64 := 0

namespace CodeWriter

def blockSizeBits : ℕ := 32
def bufferSizeBits : ℕ := 64

def writeBlock (w : CodeWriter) (block : UInt32) : Exec CodeWriter := do
  let writer ← w.writer.write (memory 4 (htonl block).toNat)
  .ok {w with writer := writer, writtenBytesCnt := w.writtenBytesCnt+4}

def writeByte (w : CodeWriter) (byte : UInt8) : Exec CodeWriter := do
  let writer ← w.writer.writeByte byte
  .ok {w with writer := writer, writtenBytesCnt := w.writtenBytesCnt+1}

def writeBufferBlock (w : CodeWriter) : Exec CodeWriter := do
  let block ← shr64 w.buffer blockSizeBits
  let w ← w.writeBlock block.toUInt32
  let buffer ← shl64 w.buffer blockSizeBits
  .ok {w with buffer := buffer, len := w.len-32}

def append (w : CodeWriter) (block : UInt32) (aLen : UInt8) : Exec CodeWriter := do
  let shifted ← shl64 block.toUInt64 (sizeSub blockSizeBits w.len.toNat)
  .ok {w with buffer := w.buffer ||| shifted, len := w.len+aLen}

/-- The part of `write` for the high half of a code of at least 32 bits; the result carries the
low half. -/
def writeHigh (w : CodeWriter) (code : CodeT) : Exec (CodeT × CodeWriter) :=
  if blockSizeBits ≤ code.len.toNat then do
    let high ← shr64 code.data blockSizeBits
    let w ← w.append high.toUInt32 32
    let data ← shl64 code.data blockSizeBits
    let w ← w.writeBufferBlock
    .ok ({len := code.len-32, data := data},w)
  else .ok (code,w)

def write (w : CodeWriter) (code : CodeT) : Exec CodeWriter := do
  let code ← code.leftAlign
  let (code,w) ← w.writeHigh code
  let high ← shr64 code.data blockSizeBits
  let w ← w.append high.toUInt32 code.len
  if blockSizeBits ≤ w.len.toNat then w.writeBufferBlock else .ok w

def flushBytes : (remainingBytes : ℕ) → CodeWriter → Exec CodeWriter
  | 0, w => .ok w
  | n+1, w => do
      -- extracting the most significant byte
      let byte ← shr64 w.buffer (bufferSizeBits-8)
      let buffer ← shl64 w.buffer 8
      let w ← writeByte {w with buffer := buffer} byte.toUInt8
      flushBytes n w

def flush (w : CodeWriter) : Exec CodeWriter := do
  let w ← flushBytes ((w.len.toNat+8-1) / 8) w
  let writer ← w.writer.flush
  .ok {w with writer := writer, len := 0}

def writtenBytes (w : CodeWriter) : UInt64 := w.writtenBytesCnt

def destroy (w : CodeWriter) : Exec Bytes := do
  let w ← w.flush
  let writer ← w.writer.flush
  .ok writer.out

end CodeWriter
end HuffmanArchiver.CodeIo
