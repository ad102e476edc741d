import HuffmanArchiver.HuffmanTree
import HuffmanArchiver.CodeIo
import HuffmanArchiver.Headers

/-! `compress_file` and `decompress_file` of `huffman.cpp`. An output stream is the list of the bytes
it has received, and it takes every byte; the source does not ask whether it did. -/
namespace HuffmanArchiver.Huffman
open Machine Codes HuffmanTree CodeIo FastIo Headers

def fill {α : Type} (_table : Table α) (value : α) : Table α := fun _ => value

def countByte (s : FrequencyTable × UInt64) (byte : UInt8) : Exec (FrequencyTable × UInt64) :=
  .ok (s.1.set byte (s.1 byte + 1),s.2 + 1)

/-- `table` and `filesize` are the caller's objects on entry and, in the result, on return. -/
def buildFrequencyTable (input : IStream) (table : FrequencyTable) (_filesize : UInt64) :
    Exec (FrequencyTable × UInt64) :=
  ByteReader.whileRead countByte (input.rest.length+1) {input := input} (fill table 0,0)

def encodeBody (input : IStream) (out : Bytes) (codes : CodeTable) : Exec (UInt64 × Bytes) := do
  let writer ← ByteReader.whileRead (fun w byte => CodeWriter.write w (codes byte)) (input.rest.length+1)
    {input := input} {writer := {out := out}}
  let writer ← writer.flush
  let written := writer.writtenBytes
  let out ← writer.destroy
  .ok (written,out)

def decodeLoop {bits : ℕ} (nesting : NestingFactor) :
    (filesize : ℕ) → CodeReader bits → ByteWriter → Exec (CodeReader bits × ByteWriter)
  | 0, reader, writer => .ok (reader,writer)
  | filesize+1, reader, writer => do
      let (byte,reader) ← reader.readNext nesting
      let writer ← writer.writeByte byte
      decodeLoop nesting filesize reader writer

def maxCodeLen (lengths : CodeLengthTable) : UInt8 := (allBytes.map lengths).foldl max 0

def chooseNesting (bits : ℕ) (lengths : CodeLengthTable) : NestingFactor :=
  let nestingRatio := ((maxCodeLen lengths).toNat+bits-1) / bits
  if nestingRatio ≤ 1 then .noNesting else if nestingRatio = 2 then .singleNesting else .unlimitedNesting

def decodeBits : ℕ := 9

def decodeBody (input : IStream) (out : Bytes) (lengths : CodeLengthTable) (codes : CodeTable) (filesize : UInt64) :
    Exec (UInt64 × Bytes) := do
  let reader ← CodeReader.create decodeBits codes input
  let (reader,writer) ← decodeLoop (chooseNesting decodeBits lengths) filesize.toNat reader {out := out}
  let writer ← writer.flush
  .ok (reader.readBytes,writer.out)

structure CompressionInfo where
  originalFileLength : UInt64 := 0
  compressedFileBodyLength : UInt64 := 0
  compressedFileHeaderLength : UInt64 := 0
  deriving DecidableEq, Repr

def rewind (input : IStream) : IStream := {input with pos := 0}

/-- Of the input stream only the bytes of the file are used: it is opened at the start. -/
def compressFile (file : Bytes) : Exec (CompressionInfo × Bytes) := do
  let input : IStream := {data := file, pos := 0}
  let (freq,filesize) ← buildFrequencyTable input (fun _ => 0) 0
  let lengths ← HuffmanTree.buildCodeLengths freq
  let codes ← constructCodes lengths
  let header : FileHeader := {filesize := filesize, lengths := lengths}
  let (compressedSize,out) ← encodeBody (rewind input) (writeFileHeader header) codes
  .ok (⟨filesize,compressedSize,UInt64.ofNat fileHeaderSize⟩,out)

def decompressFile (file : Bytes) : Exec (CompressionInfo × Bytes) := do
  let (header,input) ← readFileHeader {data := file, pos := 0}
  let codes ← constructCodes header.lengths
  let (readBytes,out) ← decodeBody input [] header.lengths codes header.filesize
  .ok (⟨header.filesize,readBytes,UInt64.ofNat fileHeaderSize⟩,out)

end HuffmanArchiver.Huffman
