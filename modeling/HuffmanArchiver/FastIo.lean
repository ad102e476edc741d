import HuffmanArchiver.Machine

/-! `bit_reader`, `byte_writer` and `byte_reader` of `fast_io.h`. The storage of a fresh buffer is
uninitialised in the source; here it holds zeros, and no result below depends on that. The result of
a destructor is the output stream. -/
namespace HuffmanArchiver.FastIo
open Machine

structure BitReader where
  firstRead : Bool := true
  buffer : Buffer := Vector.replicate bufferSize 0
  offset : ℕ := 0
  readCnt : UInt64 := 0
  input : IStream

namespace BitReader

/-- `in.read(buffer + keep, buffer_size - keep)`, counted, with the rest of the buffer zeroed. -/
def fetch (r : BitReader) (keep : ℕ) : Exec BitReader := do
  let (chunk,input) := r.input.read (bufferSize-keep)
  let buffer ← store r.buffer keep chunk
  let buffer ← store buffer (keep+chunk.length) (List.replicate (bufferSize-chunk.length-keep) 0)
  .ok {r with buffer := buffer, readCnt := r.readCnt + UInt64.ofNat chunk.length, input := input}

/-- The two refilling branches of `read`; the result carries the new `byte_pos`. -/
def refill (r : BitReader) (bytePos bitPos : ℕ) : Exec (ℕ × BitReader) :=
  if r.firstRead = true ∨ bytePos = bufferSize then do
    let r ← r.fetch 0
    .ok (0,{r with firstRead := false, offset := 0})
  else if bytePos+1 = bufferSize then do
    -- two contiguous bytes of the buffer have to be available for reading
    let last ← load r.buffer bytePos
    let buffer ← store r.buffer 0 [last]
    let r ← fetch {r with buffer := buffer} 1
    .ok (0,{r with offset := bitPos})
  else .ok (bytePos,r)

/-- `htons(*(uint16_t *) (buffer + byte_pos))`. -/
def block (buffer : Buffer) (bytePos : ℕ) : Exec UInt16 := do
  let low ← load buffer bytePos
  let high ← load buffer (bytePos+1)
  .ok (htons (UInt16.ofNat (fromMemory [low,high])))

def read (r : BitReader) (bits : UInt8) : Exec (UInt16 × BitReader) := do
  require (bits.toNat ≤ 2*8) .assertion
  let bitPos := r.offset % 8
  let (bytePos,r) ← r.refill (r.offset / 8) bitPos
  let word ← block r.buffer bytePos
  let mask := UInt16.ofNat (1 <<< bits.toNat - 1)
  let res ← shr16 word (sizeSub (sizeSub 16 bitPos) bits.toNat)
  .ok (res &&& mask,{r with offset := r.offset + bits.toNat})

def readBytes (r : BitReader) : UInt64 := r.readCnt

end BitReader

structure ByteWriter where
  out : Bytes := []
  buffer : Buffer := Vector.replicate bufferSize 0
  bufferPnt : ℕ := 0

namespace ByteWriter

def flush (w : ByteWriter) : Exec ByteWriter := do
  require (w.bufferPnt ≤ bufferSize) .index
  .ok {w with out := w.out ++ w.buffer.toList.take w.bufferPnt, bufferPnt := 0}

def copy (w : ByteWriter) (data : Bytes) : Exec ByteWriter := do
  let buffer ← store w.buffer w.bufferPnt data
  .ok {w with buffer := buffer, bufferPnt := w.bufferPnt + data.length}

def writeByte (w : ByteWriter) (byte : UInt8) : Exec ByteWriter := do
  let w ← if w.bufferPnt = bufferSize then w.flush else .ok w
  w.copy [byte]

def write (w : ByteWriter) (data : Bytes) : Exec ByteWriter :=
  if bufferSize < w.bufferPnt + data.length then do
    let front := sizeSub bufferSize w.bufferPnt
    require (front ≤ data.length) .index
    let w ← w.copy (data.take front)
    let w ← w.flush
    w.copy (data.drop front)
  else w.copy data

def destroy (w : ByteWriter) : Exec Bytes := do
  let w ← w.flush
  .ok w.out

end ByteWriter

structure ByteReader where
  input : IStream
  buffer : Buffer := Vector.replicate bufferSize 0
  bufferPnt : ℕ := 0
  filledSize : ℕ := 0
  firstRead : Bool := true

namespace ByteReader

def refill (r : ByteReader) : Exec ByteReader :=
  if r.firstRead = true ∨ r.bufferPnt = bufferSize then do
    let (chunk,input) := r.input.read bufferSize
    let buffer ← store r.buffer 0 chunk
    .ok {input := input, buffer := buffer, bufferPnt := 0, filledSize := chunk.length, firstRead := false}
  else .ok r

/-- The byte goes to the caller's reference whether or not it is one of the stream. -/
def read (r : ByteReader) : Exec (Bool × UInt8 × ByteReader) := do
  let r ← r.refill
  let byte ← load r.buffer r.bufferPnt
  let r := {r with bufferPnt := r.bufferPnt+1}
  .ok (decide (r.bufferPnt ≤ r.filledSize),byte,r)

def whileRead {σ : Type} (body : σ → UInt8 → Exec σ) : (fuel : ℕ) → ByteReader → σ → Exec σ
  | 0, _, _ => .error .diverges
  | fuel+1, r, s => do
      let (more,byte,r) ← r.read
      if more then
        let s ← body s byte
        whileRead body fuel r s
      else .ok s

end ByteReader
end HuffmanArchiver.FastIo
