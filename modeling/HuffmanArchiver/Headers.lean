import HuffmanArchiver.Codes

/-! The packed file header of `headers.h` and `headers.cpp`. -/
namespace HuffmanArchiver.Headers
open Machine Codes

def correctSignature : Bytes := [37,72,85,70,70]

structure FileHeader where
  signature : Bytes := [0,0,0,0,0]
  filesize : UInt64 := 0
  lengths : CodeLengthTable := fun _ => 0

/-- `sizeof(file_header)` of the packed struct. -/
def fileHeaderSize : ℕ := 5+8+256

def FileHeader.toBytes (h : FileHeader) : Bytes :=
  h.signature ++ memory 8 h.filesize.toNat ++ allBytes.map h.lengths

def FileHeader.ofBytes (raw : Bytes) : FileHeader where
  signature := raw.take 5
  filesize := UInt64.ofNat (fromMemory ((raw.drop 5).take 8))
  lengths := fun b => raw.getD (5+8+b.toNat) 0

def invalidFileHeader (what : String) : Fault := .invalidFileHeader ("Invalid file header. " ++ what)

def readFileHeader (input : IStream) : Exec (FileHeader × IStream) := do
  let (raw,input) := input.read fileHeaderSize
  require (raw.length = fileHeaderSize) (invalidFileHeader "File header can't be read.")
  let header := FileHeader.ofBytes raw
  require (header.signature = correctSignature) (invalidFileHeader "Signature doesn't match.")
  .ok (header,input)

def writeFileHeader (header : FileHeader) : Bytes := FileHeader.toBytes {header with signature := correctSignature}

end HuffmanArchiver.Headers
