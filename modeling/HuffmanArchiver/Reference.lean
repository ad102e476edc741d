import HuffmanArchiver.Archives
import HuffmanArchiver.CanonicalOrder
import HuffmanArchiver.Textbook

/-! The archive of a file from the description of the format, without heaps, buffers and tables: the lengths of
the textbook, the canonical words, and their bits in bytes. `compress_file` refines it. -/
namespace HuffmanArchiver.Reference
open Machine Codes CodeWords HuffmanTree CodeLengths Canonical CanonicalOrder CompleteCode Textbook
  BitReading Packing FastIo Headers
open HostileHeader Huffman Decoding PrefixDecoding RoundTrip Outcomes Archives Library.BitString

def Ahead (len : UInt8 → ℕ) (c b : UInt8) : Prop := 0 < len c ∧ (len c < len b ∨ len c = len b ∧ c < b)

instance (len : UInt8 → ℕ) (c b : UInt8) : Decidable (Ahead len c b) := inferInstanceAs (Decidable (_ ∧ _))

def canonicalWord (len : UInt8 → ℕ) (b : UInt8) : List Bool :=
  bits (len b) (∑ c with Ahead len c b, 2^(len b-len c))

def packBits (l : List Bool) : Bytes :=
  (List.range ((l.length+7)/8)).map (fun i => UInt8.ofNat (window (stream l) (8*i) 8))

def archive (file : Bytes) : Bytes :=
  let len := textbookLengths (byteCounts file)
  correctSignature ++ memory 8 file.length ++ allBytes.map (fun b => UInt8.ofNat (len b)) ++ packBits
    (file.flatMap (canonicalWord len))

section Words
variable {lengths : CodeLengthTable} {codes : CodeTable}

theorem aheadIff (b c : UInt8) : Ahead (fun b => (lengths b).toNat) c b ↔ lengths c ≠ 0 ∧ Earlier lengths c b := by
  simp only [Ahead,Earlier,← nonzeroIff,UInt8.lt_iff_toNat_lt,UInt8.toNat_inj]

theorem headOf (built : constructCodes lengths = .ok codes) :
    ∀ p ∈ (lengthBytePairs lengths).head?, p.1.toNat < 64 := by
  intro p hp
  obtain ⟨rest,split⟩ := List.head?_eq_some_iff.mp hp
  have shifts := amountsBelow built
  rw [split,shiftAmounts] at shifts
  have first := shifts _ List.mem_cons_self
  rwa [show p.1-({} : CodeT).len = p.1 from sub_zero p.1] at first

theorem wordCanonical (built : constructCodes lengths = .ok codes) (fits : ∀ b, (lengths b).toNat ≤ 64)
    (kraft : ∑ b with lengths b ≠ 0, (1/2 : ℚ)^(lengths b).toNat ≤ 1) {b : UInt8} (coded : lengths b ≠ 0) :
    word (codes b) = canonicalWord (fun b => (lengths b).toNat) b := by
  have len := constructLen built
  have place := fun b => builtPlace built fits (headOf built) (takenFits fits kraft) (b := b)
  rw [word,len b,dataSum place fits len coded,canonicalWord]
  simp only [aheadIff]

end Words

theorem treeKraft {frequencies : FrequencyTable} {lengths : CodeLengthTable}
    (read : buildCodeLengths frequencies = .ok lengths) :
    ∑ b with lengths b ≠ 0, (1/2 : ℚ)^(lengths b).toNat ≤ 1 := by
  obtain ⟨lens,read',⟨none_coded,rfl⟩ | ⟨root,built,table⟩⟩ := lengthsOf frequencies
  · cases Except.ok.inj (read.symm.trans read')
    simp
  · cases Except.ok.inj (read.symm.trans read')
    rw [lengthsKraft table]
    exact pow_le_one₀ (by norm_num) (by norm_num)

theorem streamZeros (l : List Bool) (n : ℕ) : stream (l ++ List.replicate n false) = stream l := by
  funext i
  rcases Nat.lt_or_ge i l.length with inside | beyond
  · exact streamLeft _ _ _ inside
  · obtain ⟨j,rfl⟩ := Nat.exists_eq_add_of_le beyond
    have behind : stream l (l.length+j) = false := by
      rw [stream,List.getD_eq_getElem?_getD,List.getElem?_eq_none (Nat.le_add_right _ _)]
      rfl
    rw [streamRight,behind,stream,List.getD_eq_getElem?_getD,List.getElem?_replicate]
    split <;> rfl

theorem packedBytes {body : Bytes} {l : List Bool} {n : ℕ} (size : body.length = (l.length+7)/8)
    (spelled : byteBits body = l ++ List.replicate n false) : body = packBits l := by
  have same : bitStream body = stream l := by rw [bitStream,spelled,streamZeros]
  refine List.ext_getElem? (fun i => ?_)
  rw [packBits,List.getElem?_map]
  rcases Nat.lt_or_ge i body.length with inside | beyond
  · have byte := byteWindow body i
    rw [same,List.getD_eq_getElem?_getD,List.getElem?_eq_getElem inside,Option.getD_some] at byte
    rw [List.getElem?_range (by omega),List.getElem?_eq_getElem inside,Option.map_some,byte,UInt8.ofNat_toNat]
  · rw [List.getElem?_eq_none beyond,List.getElem?_eq_none (by rw [List.length_range]; omega)]
    rfl

theorem archiveReference {file out : Bytes} {info : CompressionInfo} (short : file.length < 2^64)
    (compressed : compressFile file = .ok (info,out)) : out = archive file := by
  obtain ⟨codes,header,body,rfl,of,read,_⟩ := archiveForm short compressed
  obtain ⟨lens,read',same⟩ := textbookSameLengths (byteCounts file)
  cases Except.ok.inj (read.symm.trans read')
  have words : file.flatMap (fun b => word (codes b)) = file.flatMap
    (canonicalWord (textbookLengths (byteCounts file))) := by
    have len : (fun b => (header.lengths b).toNat) = textbookLengths (byteCounts file) := funext same
    refine List.flatMap_congr (fun b hb => ?_)
    rw [wordCanonical of.built of.partition.fits (treeKraft read) (nonzeroIff.mpr (by
      rw [← of.partition.len b]
      exact codedPos (of.coded b hb))),len]
  have packed := packedBytes (l := file.flatMap (fun b => word (codes b)))
    (by rw [codedLengthWord]; exact of.size) of.spelled
  have table : allBytes.map header.lengths = allBytes.map (fun b =>
    UInt8.ofNat (textbookLengths (byteCounts file) b)) := by
    refine List.map_congr_left (fun b _ => ?_)
    rw [← same b,UInt8.ofNat_toNat]
  simp only [archive,writeFileHeader,FileHeader.toBytes,of.filesize,table,packed,words]

theorem compressReference (file : Bytes) (short : file.length < 2^64) (info : CompressionInfo) (out : Bytes) :
    compressFile file = .ok (info,out) ↔ (∀ b, textbookLengths (byteCounts file) b ≤ 64) ∧ out = archive file ∧
      info = ⟨UInt64.ofNat file.length,UInt64.ofNat (out.length-fileHeaderSize),UInt64.ofNat fileHeaderSize⟩ := by
  obtain ⟨lens,read,same⟩ := textbookSameLengths (byteCounts file)
  have about : ∀ {info out}, compressFile file = .ok (info,out) →
      info = ⟨UInt64.ofNat file.length,UInt64.ofNat (out.length-fileHeaderSize),UInt64.ofNat fileHeaderSize⟩ := by
    intro info out compressed
    obtain ⟨codes,header,body,rfl,of,_,rfl⟩ := archiveForm short compressed
    rw [List.length_append,headerLength,Nat.add_sub_cancel_left,← of.filesize,UInt64.ofNat_toNat]
  constructor
  · intro compressed
    refine ⟨fun b => ?_,archiveReference short compressed,about compressed⟩
    rw [← same b]
    exact lengthsFit compressed read b
  · rintro ⟨fits,rfl,rfl⟩
    obtain ⟨info,out,compressed⟩ := (compressOkIff short).mpr (fun lens' read' b => by
      cases Except.ok.inj (read.symm.trans read')
      rw [same b]
      exact fits b)
    cases archiveReference short compressed
    rw [compressed,about compressed]

theorem compressReferenceThreeBytes : ∃ info, compressFile threeBytes = .ok (info,archive threeBytes) := by
  obtain ⟨info,out,compressed⟩ := threeBytesCompressed
  obtain ⟨_,rfl,_⟩ := (compressReference threeBytes (by decide) info out).mp compressed
  exact ⟨info,compressed⟩

/-- The bits of the body begin with the canonical words of the bytes; behind its end there are zeros. -/
def Spells (lengths : CodeLengthTable) (body : Bytes) (out : Bytes) : Prop :=
  (∀ b ∈ out, lengths b ≠ 0) ∧
    ∀ i x, (out.flatMap (canonicalWord (fun b => (lengths b).toNat)))[i]? = some x → bitStream body i = x

section Complete
variable {file : Bytes} (long : fileHeaderSize ≤ file.length) (signed : file.take 5 = correctSignature)
  (fits : ∀ b, (rawLengths file b).toNat ≤ 64)

theorem rawWords {codes : CodeTable} (fits : ∀ b, (rawLengths file b).toNat ≤ 64)
    (built : constructCodes (rawLengths file) = .ok codes)
    (complete : ∑ b with rawLengths file b ≠ 0, (1/2 : ℚ)^(rawLengths file b).toNat = 1) {bs : Bytes}
    (coded : ∀ b ∈ bs, rawLengths file b ≠ 0) :
    bs.flatMap (canonicalWord (fun b => (rawLengths file b).toNat)) = bs.flatMap (fun b => word (codes b)) :=
  List.flatMap_congr (fun b hb => (wordCanonical built fits complete.le (coded b hb)).symm)

include long signed fits

theorem standsDecoded {codes : CodeTable} (built : constructCodes (rawLengths file) = .ok codes)
    (partition : Partition (rawLengths file) codes)
    {bs : Bytes} (size : bs.length = fromMemory ((file.drop 5).take 8))
    (stand : StandAll codes (bitStream (file.drop fileHeaderSize)) 0 bs) :
      ∃ info, decompressFile file = .ok (info,bs) := by
  obtain ⟨header,input,read,lengths,filesize,rest⟩ := readHeader long signed
  have small := fromMemoryLt ((file.drop 5).take 8)
  have count : header.filesize.toNat = fromMemory ((file.drop 5).take 8) := by
    have eight : 8*((file.drop 5).take 8).length ≤ 64 := Nat.mul_le_mul_left 8 (List.length_take_le _ _)
    have narrow : 2^(8*((file.drop 5).take 8).length) ≤ 2^64 := Nat.pow_le_pow_right two_pos eight
    rw [filesize]
    exact UInt64.toNat_ofNat_of_lt' (small.trans_le narrow)
  rw [← rest] at stand
  obtain ⟨reader,decoded,_⟩ := decodeBodySpec fits partition.len (partitionFree partition) input bs
    (size.trans count.symm) stand
  refine ⟨⟨header.filesize,reader.readBytes,UInt64.ofNat fileHeaderSize⟩,?_⟩
  simp only [decompressFile,read,lengths,built,decoded,okBind]

variable (complete : ∑ b with rawLengths file b ≠ 0, (1/2 : ℚ)^(rawLengths file b).toNat = 1)
include complete

theorem decodedSpells {out : Bytes} {info : CompressionInfo} (ran : decompressFile file = .ok (info,out)) :
    out.length = fromMemory ((file.drop 5).take 8) ∧ Spells (rawLengths file) (file.drop fileHeaderSize) out := by
  obtain ⟨full,codes,built,partition⟩ := completeCode fits complete
  obtain ⟨bs,size,stand⟩ :=
    coveredRun partition full (bitStream (file.drop fileHeaderSize)) (fromMemory ((file.drop 5).take 8)) 0
  obtain ⟨info',ran'⟩ := standsDecoded long signed fits built partition size stand
  cases Except.ok.inj (ran.symm.trans ran')
  have coded : ∀ b ∈ out, rawLengths file b ≠ 0 :=
    fun b hb zero => standCoded stand b hb ((partition.len b).trans zero)
  refine ⟨size,coded,fun i x at_i => ?_⟩
  rw [rawWords fits built complete coded] at at_i
  have bit := bitsOfStands stand i x at_i
  rwa [Nat.zero_add] at bit

theorem spelledDecoded {out : Bytes} (size : out.length = fromMemory ((file.drop 5).take 8))
    (spells : Spells (rawLengths file) (file.drop fileHeaderSize) out) :
      ∃ info, decompressFile file = .ok (info,out) := by
  obtain ⟨_,codes,built,partition⟩ := completeCode fits complete
  obtain ⟨coded,front⟩ := spells
  rw [rawWords fits built complete coded] at front
  refine standsDecoded long signed fits built partition size
    (standsOfBits (fun b hb zero => coded b hb ((partition.len b).symm.trans zero)) (fun i x at_i => ?_))
  rw [Nat.zero_add]
  exact front i x at_i

end Complete

theorem decompressReference (file : Bytes) (long : fileHeaderSize ≤ file.length)
    (signed : file.take 5 = correctSignature)
    (fits : ∀ b, (rawLengths file b).toNat ≤ 64)
    (complete : ∑ b with rawLengths file b ≠ 0, (1/2 : ℚ)^(rawLengths file b).toNat = 1) (out : Bytes) :
    (∃ info, decompressFile file = .ok (info,out)) ↔
      out.length = fromMemory ((file.drop 5).take 8) ∧ Spells (rawLengths file) (file.drop fileHeaderSize) out :=
  ⟨fun ⟨_,ran⟩ => decodedSpells long signed fits complete ran,
    fun ⟨size,spells⟩ => spelledDecoded long signed fits complete size spells⟩

def twoInOne : Bytes := writeFileHeader {filesize := 2, lengths := threeLengths} ++ [0x40]

theorem twoInOneComplete : fileHeaderSize ≤ twoInOne.length ∧ twoInOne.take 5 = correctSignature ∧
    (∀ b, (rawLengths twoInOne b).toNat ≤ 64) ∧ ∑ b with rawLengths twoInOne b ≠ 0,
      (1/2 : ℚ)^(rawLengths twoInOne b).toNat = 1 := by
  obtain ⟨long,signed,lengths,_⟩ := rawWritten {filesize := 2, lengths := threeLengths} [0x40]
  refine ⟨long,signed,?_,?_⟩
  · rw [twoInOne,lengths]
    decide +kernel
  · rw [twoInOne,lengths]
    exact threeKraft

theorem twoInOneSpells : Spells (rawLengths twoInOne) (twoInOne.drop fileHeaderSize) [0,1] := by
  obtain ⟨_,_,lengths,_⟩ := rawWritten {filesize := 2, lengths := threeLengths} [0x40]
  have words : ([0,1] : Bytes).flatMap (canonicalWord (fun b => (rawLengths twoInOne b).toNat)) =
    [false,true,false] := by
    rw [twoInOne,lengths]
    decide +kernel
  refine ⟨?_,fun i x at_i => ?_⟩
  · rw [twoInOne,lengths]
    decide +kernel
  · rw [words] at at_i
    have body : ∀ i < 3, [false,true,false][i]? = some (bitStream (twoInOne.drop fileHeaderSize) i) := by
      decide +kernel
    have inside : i < 3 := (List.getElem?_eq_some_iff.mp at_i).1
    exact Option.some.inj ((body i inside).symm.trans at_i)

theorem decompressReferenceTwoInOne : ∃ info, decompressFile twoInOne = .ok (info,[0,1]) := by
  obtain ⟨long,signed,fits,complete⟩ := twoInOneComplete
  exact (decompressReference twoInOne long signed fits complete [0,1]).mpr ⟨by decide +kernel,twoInOneSpells⟩

end HuffmanArchiver.Reference
