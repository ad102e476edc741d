import HuffmanArchiver.Outcomes

/-! The archive as a format: its header can be read in one way only, it shows where it ends, and what is
damaged behind some bit is not missed before it. -/
namespace HuffmanArchiver.Archives
open Machine Codes CodeWords HuffmanTree CodeLengths Canonical FastIo BitReading ByteIo CodeIo Headers
  HostileHeader Huffman Decoding
open TableWalk PrefixDecoding CompleteCode RoundTrip Outcomes Library.BitString Library.StreamDecoder

/-! The header. -/

theorem memoryOfFrom (l : Bytes) : memory l.length (fromMemory l) = l := by
  induction l with
  | nil => rfl
  | cons b rest ih =>
    have low : (b.toNat + 256 * fromMemory rest) % 256 = b.toNat := by
      have lt := b.toNat_lt
      omega
    have high : (b.toNat + 256 * fromMemory rest) / 256 = fromMemory rest := by
      have lt := b.toNat_lt
      omega
    rw [List.length_cons,memory,fromMemory,low,high,ih,UInt8.ofNat_toNat]

theorem fromMemoryLt (l : Bytes) : fromMemory l < 2^(8*l.length) := by
  induction l with
  | nil => exact Nat.one_pos
  | cons b rest ih =>
    have lt := b.toNat_lt
    have split : 2^(8*(b :: rest).length) = 256 * 2^(8*rest.length) := by
      rw [List.length_cons,Nat.mul_succ,Nat.pow_add,Nat.mul_comm]
    rw [fromMemory,split]
    omega

theorem bytesOfBytes {raw : Bytes} (size : raw.length = fileHeaderSize) :
    (FileHeader.ofBytes raw).toBytes = raw := by
  have whole : raw.length = 5+(8+256) := size
  have middle : ((raw.drop 5).take 8).length = 8 := by
    rw [List.length_take,List.length_drop]
    omega
  have filesize : memory 8 (FileHeader.ofBytes raw).filesize.toNat = (raw.drop 5).take 8 := by
    have small := fromMemoryLt ((raw.drop 5).take 8)
    have back := memoryOfFrom ((raw.drop 5).take 8)
    rw [middle] at small back
    rw [FileHeader.ofBytes,UInt64.toNat_ofNat_of_lt' small,back]
  have lengths : allBytes.map (FileHeader.ofBytes raw).lengths = (raw.drop 5).drop 8 := by
    refine List.ext_getElem? (fun i => ?_)
    rw [List.drop_drop,List.getElem?_drop,List.getElem?_map]
    rcases Nat.lt_or_ge i 256 with inside | beyond
    · have narrow : (UInt8.ofNat i).toNat = i := narrowByte inside
      have there := allBytesAt (UInt8.ofNat i)
      rw [narrow] at there
      have at_i : raw[5+8+i]? = some (raw.getD (5+8+i) 0) := by
        rw [List.getD_eq_getElem?_getD,List.getElem?_eq_getElem (by omega)]
        rfl
      rw [there,at_i]
      simp only [FileHeader.ofBytes,narrow,Option.map_some]
    · rw [List.getElem?_eq_none (by rw [allBytesLength]; exact beyond),List.getElem?_eq_none (by omega)]
      rfl
  rw [FileHeader.toBytes,filesize,lengths,List.append_assoc,List.take_append_drop]
  exact List.take_append_drop 5 raw

theorem ofBytesOf {h : FileHeader} (size : h.signature.length = 5) : FileHeader.ofBytes h.toBytes = h := by
  have file : h.toBytes = h.signature ++ (memory 8 h.filesize.toNat ++ allBytes.map h.lengths) :=
    List.append_assoc _ _ _
  have signature : h.toBytes.take 5 = h.signature := by rw [file,List.take_left' size]
  have filesize : UInt64.ofNat (fromMemory ((h.toBytes.drop 5).take 8)) = h.filesize := by
    rw [file,List.drop_left' size,List.take_left' (memoryLength _ _),fromMemoryOf,Nat.mod_eq_of_lt
      h.filesize.toNat_lt,
      UInt64.ofNat_toNat]
  have lengths : (fun b : UInt8 => h.toBytes.getD (5+8+b.toNat) 0) = h.lengths := by
    funext b
    have front : (h.signature ++ memory 8 h.filesize.toNat).length = 5+8 := by
      rw [List.length_append,size,memoryLength]
    rw [FileHeader.toBytes,List.getD_eq_getElem?_getD,List.getElem?_append_right (by omega),front,
      Nat.add_sub_cancel_left,
      List.getElem?_map,allBytesAt]
    rfl
  unfold FileHeader.ofBytes
  rw [signature,filesize,lengths]

theorem writtenBytes {h : FileHeader} (signed : h.signature = correctSignature) :
    writeFileHeader h = h.toBytes := by
  rw [writeFileHeader,← signed]

theorem headerParsed (input input' : IStream) (header : FileHeader) : readFileHeader input = .ok (header,input') ↔
    header.signature = correctSignature ∧ input.rest = writeFileHeader header ++ input'.rest ∧
      input' = {input with pos := input.pos+fileHeaderSize} := by
  have raw : (input.read fileHeaderSize).1 = input.rest.take fileHeaderSize := rfl
  have behind := IStream.readRest input fileHeaderSize
  constructor
  · intro read
    simp only [readFileHeader,bindOk] at read
    obtain ⟨_,long,_,signed,last⟩ := read
    have size : (input.rest.take fileHeaderSize).length = fileHeaderSize := by
      by_contra short
      rw [raw,requireFails short] at long
      contradiction
    have signature : (FileHeader.ofBytes (input.rest.take fileHeaderSize)).signature = correctSignature := by
      by_contra other
      rw [raw,requireFails other] at signed
      contradiction
    cases Except.ok.inj last
    refine ⟨signature,?_,?_⟩
    · rw [raw,behind,writtenBytes signature,bytesOfBytes size,List.take_append_drop]
    · rw [IStream.read,size]
  · rintro ⟨signed,split,rfl⟩
    have size : (writeFileHeader header).length = fileHeaderSize := headerLength header
    have front : input.rest.take fileHeaderSize = writeFileHeader header := by rw [split,List.take_left' size]
    have same : FileHeader.ofBytes (writeFileHeader header) = header := by
      rw [writtenBytes signed]
      exact ofBytesOf (by rw [signed]; rfl)
    have moved : (input.read fileHeaderSize).2 = {input with pos := input.pos+fileHeaderSize} := by
      rw [IStream.read,front,size]
    simp only [readFileHeader,raw,front,same,size,signed,requireOk,okBind,moved]

structure ArchiveOf (file : Bytes) (codes : CodeTable) (header : FileHeader) (body : Bytes) : Prop where
  built : constructCodes header.lengths = .ok codes
  partition : Partition header.lengths codes
  filesize : header.filesize.toNat = file.length
  coded : ∀ b ∈ file, Coded codes b
  size : body.length = (codedLength codes file+7)/8
  spelled : byteBits body = file.flatMap (fun b => word (codes b)) ++ List.replicate
    (8*body.length-codedLength codes file) false

theorem archiveForm {file archive : Bytes} {info : CompressionInfo} (short : file.length < 2^64)
    (compressed : compressFile file = .ok (info,archive)) :
      ∃ codes header body, archive = writeFileHeader header ++ body ∧
      ArchiveOf file codes header body ∧ buildCodeLengths (byteCounts file) = .ok header.lengths ∧
      info = ⟨header.filesize,UInt64.ofNat body.length,UInt64.ofNat fileHeaderSize⟩ := by
  obtain ⟨lengths,read,_⟩ := lengthsOf (byteCounts file)
  have fits := lengthsFit compressed read
  obtain ⟨codes,built,partition⟩ := treeCodes read fits
  have coded : ∀ b ∈ file, Coded codes b :=
    fun b occurs => (codedIff partition b).mpr (occurringCoded short read occurs)
  have narrow : ∀ b, (codes b).len.toNat ≤ 64 := fun b => by rw [partition.len b]; exact fits b
  obtain ⟨header,named⟩ : ∃ header : FileHeader,
      header = {filesize := UInt64.ofNat file.length, lengths := lengths} := ⟨_,rfl⟩
  obtain ⟨body,encoded,size,spelled⟩ :=
    encodeBodySpec narrow {data := file, pos := 0} (writeFileHeader header) coded
  simp only [compressFile,frequencySpec,read,built,rewind,okBind,← named,encoded] at compressed
  cases Except.ok.inj compressed
  refine ⟨codes,header,body,rfl,?_,by rw [named]; exact read,by rw [named]⟩
  rw [named]
  exact ⟨built,partition,UInt64.toNat_ofNat_of_lt' short,coded,size,spelled⟩

theorem bodySmall {file archive : Bytes} {info : CompressionInfo} (short : file.length < 2^64)
    (compressed : compressFile file = .ok (info,archive)) :
      archive.length = fileHeaderSize + info.compressedFileBodyLength.toNat := by
  obtain ⟨codes,header,body,rfl,of,read,rfl⟩ := archiveForm short compressed
  have bits := codedSumLe short read
  rw [← codedSum short of.partition.len] at bits
  have small : body.length < 2^64 := by
    rw [of.size]
    omega
  rw [List.length_append,headerLength,UInt64.toNat_ofNat_of_lt' small]

theorem compressOutcome (file : Bytes) (short : file.length < 2^64) :
    ((∃ info archive, compressFile file = .ok (info,archive)) ↔
      ∀ lengths, buildCodeLengths (byteCounts file) = .ok lengths → ∀ b, (lengths b).toNat ≤ bitSize) ∧
    (∀ what, compressFile file ≠ .error (.invalidFileHeader what)) ∧
    ∀ info archive, compressFile file = .ok (info,archive) → info.originalFileLength.toNat = file.length ∧
      info.compressedFileHeaderLength.toNat = fileHeaderSize ∧ archive.take 5 = correctSignature ∧
      archive.length = fileHeaderSize + info.compressedFileBodyLength.toNat := by
  refine ⟨compressOkIff short,compressThrowless file,fun info archive compressed => ?_⟩
  have size := bodySmall short compressed
  obtain ⟨codes,header,body,rfl,of,_,rfl⟩ := archiveForm short compressed
  refine ⟨of.filesize,rfl,?_,size⟩
  rw [writeFileHeader,FileHeader.toBytes,List.append_assoc,List.append_assoc]
  exact List.take_left' rfl

theorem compressOutcomeThreeBytes : ((∃ info archive, compressFile threeBytes = .ok (info,archive)) ↔
      ∀ lengths, buildCodeLengths (byteCounts threeBytes) = .ok lengths → ∀ b, (lengths b).toNat ≤ bitSize) ∧
    (∀ what, compressFile threeBytes ≠ .error (.invalidFileHeader what)) ∧
    ∀ info archive, compressFile threeBytes = .ok (info,archive) →
      info.originalFileLength.toNat = threeBytes.length ∧
      info.compressedFileHeaderLength.toNat = fileHeaderSize ∧ archive.take 5 = correctSignature ∧
      archive.length = fileHeaderSize + info.compressedFileBodyLength.toNat :=
  compressOutcome threeBytes (by decide)

theorem loopAppend {bits : ℕ} {nesting : NestingFactor} {m n : ℕ} {r r₁ r₂ : CodeReader bits} {w w₁ w₂ : ByteWriter}
    (first : decodeLoop nesting m r w = .ok (r₁,w₁)) (second : decodeLoop nesting n r₁ w₁ = .ok (r₂,w₂)) :
    decodeLoop nesting (m+n) r w = .ok (r₂,w₂) := by
  induction m generalizing r w with
  | zero =>
    cases Except.ok.inj first
    rwa [Nat.zero_add]
  | succ m ih =>
    simp only [decodeLoop,bindOk,Prod.exists] at first
    obtain ⟨byte,r',read,w',wrote,first⟩ := first
    rw [Nat.add_right_comm]
    simp only [decodeLoop,read,wrote,okBind]
    exact ih first

theorem decodeBodyFront {lengths : CodeLengthTable} {codes : CodeTable}
    (partition : Partition lengths codes) (input : IStream)
    {filesize : UInt64} {bs : List UInt8} (few : bs.length ≤ filesize.toNat)
    (stand : StandAll codes (bitStream input.rest) 0 bs) :
    ∃ readBytes out, decodeBody input [] lengths codes filesize = .ok (readBytes,out) ∧
      out.length = filesize.toNat ∧ bs <+: out := by
  obtain ⟨reader,addr,created,here,nested,leaves⟩ :=
    createDecoder (fun b => by rw [partition.len b]; exact partition.fits b) input
  have sees := chosenSees partition.len nested
  obtain ⟨reader₁,writer₁,ran,same,here₁,holds₁⟩ :=
    decodeLoopSpec (by decide) here nested (leaves (partitionFree partition)) stand sees
    (holdsEmpty [])
  rw [← same] at nested sees
  obtain ⟨reader₂,writer₂,pos,more,ran',read,_,holds₂⟩ :=
    decodeLoopWalk (by decide) (filesize.toNat-bs.length) here₁ nested sees holds₁
  obtain ⟨writer',flushed,_,out,_⟩ := flushSpec holds₂
  have whole := loopAppend ran ran'
  rw [Nat.add_sub_cancel' few] at whole
  refine ⟨reader₂.readBytes,bs ++ more,?_,
    by rw [List.length_append,symbolsLength read,Nat.add_sub_cancel' few],List.prefix_append _ _⟩
  simp only [decodeBody,created,whole,flushed,out,okBind,List.nil_append]

section Damaged
variable {file body : Bytes} {codes : CodeTable} {header : FileHeader} (of : ArchiveOf file codes header body)
include of

theorem standsUndamaged {body' : Bytes} {k m : ℕ} (agree : ∀ i < m, bitStream body' i = bitStream body i)
    (before : codedLength codes (file.take k) ≤ m) : StandAll codes (bitStream body') 0 (file.take k) := by
  refine standsOfBits (fun b hb => of.coded b (List.mem_of_mem_take hb)) (fun i x at_i => ?_)
  have inside := (List.getElem?_eq_some_iff.mp at_i).1
  have short : i < m := by
    rw [codedLengthWord] at inside
    exact inside.trans_le before
  have split : file.flatMap (fun b => word (codes b)) =
      (file.take k).flatMap (fun b => word (codes b)) ++ (file.drop k).flatMap (fun b => word (codes b)) := by
    rw [← List.flatMap_append,List.take_append_drop]
  rw [Nat.zero_add,agree i short,bitStream,of.spelled,split,List.append_assoc,streamLeft _ _ _ inside,stream,
    List.getD_eq_getElem?_getD,at_i]
  rfl

theorem damagedBody (body' : Bytes) {m : ℕ} (agree : ∀ i < m, bitStream body' i = bitStream body i) {k : ℕ}
    (before : codedLength codes (file.take k) ≤ m) :
      ∃ info out, decompressFile (writeFileHeader header ++ body') = .ok (info,out) ∧
      info.originalFileLength = header.filesize ∧ out.length = file.length ∧ file.take k <+: out := by
  obtain ⟨header',input,read,lengths,filesize,rfl⟩ := readWritten header body'
  have few : (file.take k).length ≤ header.filesize.toNat := by
    rw [of.filesize]
    exact List.length_take_le' _ _
  obtain ⟨readBytes,out,decoded,size,front⟩ :=
    decodeBodyFront of.partition input few (standsUndamaged of agree before)
  refine ⟨⟨header.filesize,readBytes,UInt64.ofNat fileHeaderSize⟩,out,?_,rfl,size.trans of.filesize,front⟩
  simp only [decompressFile,read,lengths,filesize,of.built,decoded,okBind]

end Damaged

def bitsOf (lengths : CodeLengthTable) (file : Bytes) (k : ℕ) : ℕ :=
  ((file.take k).map (fun b => (lengths b).toNat)).sum

theorem damageStays {file archive : Bytes} {info : CompressionInfo} (short : file.length < 2^64)
    (compressed : compressFile file = .ok (info,archive)) (body : Bytes) : ∃ lengths info' out,
      buildCodeLengths (byteCounts file) = .ok lengths ∧
      decompressFile (archive.take fileHeaderSize ++ body) = .ok (info',out) ∧ out.length = file.length ∧
      ∀ m, (∀ i < m, bitStream body i = bitStream (archive.drop fileHeaderSize) i) →
        ∀ k, bitsOf lengths file k ≤ m → file.take k <+: out := by
  obtain ⟨codes,header,body₀,rfl,of,read,_⟩ := archiveForm short compressed
  have size := headerLength header
  rw [List.take_left' size,List.drop_left' size]
  obtain ⟨info',out,ran,_,whole,_⟩ := damagedBody of body (m := 0) (by simp) (k := 0) (by simp [codedLength])
  refine ⟨header.lengths,info',out,read,ran,whole,fun m agree k before => ?_⟩
  have same : bitsOf header.lengths file k = codedLength codes (file.take k) := by
    simp only [bitsOf,codedLength,of.partition.len]
  rw [same] at before
  obtain ⟨info'',out',ran',_,_,front⟩ := damagedBody of body agree before
  cases Except.ok.inj (ran.symm.trans ran')
  exact front

theorem threeBytesCompressed : ∃ info archive, compressFile threeBytes = .ok (info,archive) := by
  obtain ⟨lengths,read,_⟩ := lengthsOf (byteCounts threeBytes)
  obtain ⟨header,body,info,compressed,_⟩ :=
    archived (by decide) (frequencySpec threeBytes _ _) read (threeBytesFit read)
  exact ⟨info,_,compressed⟩

theorem damageStaysThreeBytes : ∃ info archive, compressFile threeBytes = .ok (info,archive) ∧
    ∀ body, ∃ lengths info' out,
    buildCodeLengths (byteCounts threeBytes) = .ok lengths ∧
    decompressFile (archive.take fileHeaderSize ++ body) = .ok (info',out) ∧ out.length = threeBytes.length ∧
    ∀ m, (∀ i < m, bitStream body i = bitStream (archive.drop fileHeaderSize) i) →
      ∀ k, bitsOf lengths threeBytes k ≤ m → threeBytes.take k <+: out := by
  obtain ⟨info,archive,compressed⟩ := threeBytesCompressed
  exact ⟨info,archive,compressed,damageStays (by decide) compressed⟩

theorem tailIgnored {file archive : Bytes} {info : CompressionInfo} (short : file.length < 2^64)
    (compressed : compressFile file = .ok (info,archive)) (tail : Bytes) : ∃ info',
      decompressFile (archive ++ tail) = .ok (info',file) ∧ info'.originalFileLength = info.originalFileLength := by
  obtain ⟨codes,header,body,rfl,of,_,rfl⟩ := archiveForm short compressed
  have agree : ∀ i < 8*body.length, bitStream (body ++ tail) i = bitStream body i := by
    intro i hi
    rw [bitStream,Packing.byteBitsAppend]
    exact streamLeft _ _ _ (by rwa [byteBitsLength])
  have before : codedLength codes (file.take file.length) ≤ 8*body.length := by
    have size := of.size
    rw [List.take_length]
    omega
  obtain ⟨info',out,ran,same,whole,front⟩ := damagedBody of (body ++ tail) agree before
  rw [List.take_length] at front
  cases front.eq_of_length whole.symm
  exact ⟨info',by rw [List.append_assoc]; exact ran,same⟩

theorem selfDelimiting {file archive : Bytes} {info : CompressionInfo} (short : file.length < 2^64)
    (compressed : compressFile file = .ok (info,archive)) :
    (∀ tail, ∃ info', decompressFile (archive ++ tail) = .ok (info',file) ∧
      info'.originalFileLength = info.originalFileLength) ∧
      ∀ other archive' info', other.length < 2^64 → compressFile other = .ok (info',archive') →
        archive <+: archive' →
        file = other ∧ archive = archive' := by
  refine ⟨tailIgnored short compressed,fun other archive' info' short' compressed' front => ?_⟩
  obtain ⟨tail,rfl⟩ := front
  obtain ⟨_,ran,_⟩ := tailIgnored short compressed tail
  obtain ⟨_,ran',_⟩ := tailIgnored short' compressed' []
  rw [List.append_nil] at ran'
  cases Except.ok.inj (ran.symm.trans ran')
  exact ⟨rfl,congrArg Prod.snd (Except.ok.inj (compressed.symm.trans compressed'))⟩

theorem selfDelimitingThreeBytes : ∃ info archive, compressFile threeBytes = .ok (info,archive) ∧
    (∀ tail, ∃ info', decompressFile (archive ++ tail) = .ok (info',threeBytes) ∧
      info'.originalFileLength = info.originalFileLength) ∧
    ∀ other archive' info', other.length < 2^64 → compressFile other = .ok (info',archive') → archive <+: archive' →
      threeBytes = other ∧ archive = archive' := by
  obtain ⟨info,archive,compressed⟩ := threeBytesCompressed
  exact ⟨info,archive,compressed,selfDelimiting (by decide) compressed⟩

end HuffmanArchiver.Archives
