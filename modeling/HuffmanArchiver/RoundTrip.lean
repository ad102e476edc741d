import HuffmanArchiver.Optimality
import HuffmanArchiver.CompleteCode
import HuffmanArchiver.Packing
import HuffmanArchiver.HostileHeader

/-! A file through `compress_file` and back. The only thing that can go wrong is a code of more than
64 bits; nothing checks for it. -/
namespace HuffmanArchiver.RoundTrip
open Machine Codes CodeWords HuffmanTree Forest CodeLengths Canonical FastIo CodeIo Headers HostileHeader Huffman
open Optimality BitReading ByteIo Packing Decoding PrefixDecoding CompleteCode Library.BitString Library.GreedyTree

def byteCounts (file : Bytes) : FrequencyTable := fun b => UInt64.ofNat (file.count b)

theorem countedSpec (file : Bytes) (table : FrequencyTable) (filesize : UInt64) :
    file.foldlM countByte (table,filesize) =
      .ok (fun b => table b + UInt64.ofNat (file.count b),filesize + UInt64.ofNat file.length) := by
  induction file generalizing table filesize with
  | nil => simp; rfl
  | cons c rest ih =>
    simp only [List.foldlM_cons,countByte,okBind,ih]
    refine congrArg Except.ok (Prod.ext (funext (fun b => ?_)) ?_)
    · show Table.set table c (table c + 1) b + UInt64.ofNat (rest.count b) = table b + UInt64.ofNat
        ((c :: rest).count b)
      by_cases same : b = c
      · subst same
        rw [tableSetSelf,List.count_cons_self,UInt64.ofNat_add,add_assoc,add_comm 1]
        rfl
      · rw [tableSetOther _ _ same,List.count_cons_of_ne (fun eq => same eq.symm)]
    · simp only [List.length_cons,UInt64.ofNat_add]
      rw [add_assoc,add_comm 1]
      rfl

theorem frequencySpec (file : Bytes) (table : FrequencyTable) (filesize : UInt64) :
    buildFrequencyTable {data := file, pos := 0} table filesize =
      .ok (byteCounts file,UInt64.ofNat file.length) := by
  have fresh : Remaining {input := {data := file, pos := 0}} file := .inl ⟨rfl,rfl⟩
  rw [buildFrequencyTable,show (IStream.rest {data := file, pos := 0}) = file from rfl,whileReadSpec _
    fresh,countedSpec]
  refine congrArg Except.ok (Prod.ext (funext (fun b => ?_)) ?_)
  · exact zero_add _
  · exact zero_add _

theorem countSum (file : Bytes) (f : UInt8 → ℕ) : ∑ b, file.count b * f b = (file.map f).sum := by
  rw [Finset.sum_list_map_count]
  refine (Finset.sum_subset (Finset.subset_univ _) (fun b _ absent => ?_)).symm
  rw [List.count_eq_zero_of_not_mem (fun inside => absent (List.mem_toFinset.mpr inside)),Nat.zero_mul]

theorem countTotal (file : Bytes) : ∑ b, file.count b = file.length := by
  have sum := countSum file (fun _ => 1)
  simpa using sum

section Counts
variable {file : Bytes} (short : file.length < 2^64)
include short

theorem countToNat (b : UInt8) : (byteCounts file b).toNat = file.count b :=
  UInt64.toNat_ofNat_of_lt' (List.count_le_length.trans_lt short)

theorem countPositive {b : UInt8} (occurs : b ∈ file) : byteCounts file b ≠ 0 := by
  intro zero
  have count := countToNat short b
  rw [zero] at count
  exact absurd (List.count_pos_iff.mpr occurs) (by rw [← count]; exact lt_irrefl _)

end Counts

theorem treeCodes {frequencies : FrequencyTable} {lengths : CodeLengthTable}
    (read : buildCodeLengths frequencies = .ok lengths)
    (fits : ∀ b, (lengths b).toNat ≤ 64) : ∃ codes, constructCodes lengths = .ok codes ∧
      Partition lengths codes := by
  obtain ⟨lens,read',⟨none_coded,rfl⟩ | ⟨root,built,table⟩⟩ := lengthsOf frequencies
  · cases Except.ok.inj (read.symm.trans read')
    have empty : lengthBytePairs (fun _ => 0) = [] := (startIff _).1.mpr (fun _ => rfl)
    exact constructPartition fits (by simp [empty]) (by simp [empty])
  · cases Except.ok.inj (read.symm.trans read')
    have kraft := lengthsKraft table
    cases root with
    | leaf g c =>
      -- the single code of one bit takes half of the words
      have half : ∑ b with lengths b ≠ 0, (1/2 : ℚ)^(lengths b).toNat ≤ 1 := by
        rw [kraft]
        exact pow_le_one₀ (by norm_num) (by norm_num)
      refine constructPartition fits (fun p hp => ?_) (takenFits fits half)
      have bound := lengthBound table p.2
      rw [((pairsMem lengths).mp (List.mem_of_mem_head? hp)).1]
      simp only [shape,BinTree.height] at bound
      omega
    | inner g n l r => exact (completeCode fits (kraft.trans (by simp [rootDepth,NodeT.isLeaf]))).2

section Body
variable {codes : CodeTable} (fits : ∀ b, (codes b).len.toNat ≤ 64)

theorem freshPacked (out : Bytes) : Packed out [] 0 {writer := {out := out}} :=
  ⟨[],0,by rw [List.append_nil]; exact holdsEmpty out,rfl,⟨rfl,by norm_num,by norm_num⟩,rfl⟩

include fits in
theorem writeAll (file : Bytes) {start : Bytes} {done : List Bool} {len : ℕ} {w : CodeWriter}
    (packed : Packed start done len w)
    (short : len < 32) (coded : ∀ b ∈ file, Coded codes b) :
    ∃ w' len', file.foldlM (fun w byte => CodeWriter.write w (codes byte)) w = .ok w' ∧ len' < 32 ∧
      Packed start (done ++ file.flatMap (fun b => word (codes b))) len' w' := by
  induction file generalizing done len w with
  | nil => exact ⟨w,len,rfl,short,by simpa using packed⟩
  | cons b rest ih =>
    obtain ⟨w₁,len₁,wrote,short₁,packed₁⟩ := writePacked packed short (codedPos (coded b (by simp))) (fits b)
    obtain ⟨w',len',ran,short',packed'⟩ := ih packed₁ short₁ (fun c hc => coded c (List.mem_cons_of_mem _ hc))
    rw [List.append_assoc] at packed'
    refine ⟨w',len',?_,short',packed'⟩
    rw [List.foldlM_cons,wrote]
    exact ran

include fits in
theorem encodeBodySpec (input : IStream) (out : Bytes) (coded : ∀ b ∈ input.rest, Coded codes b) :
    ∃ body, encodeBody input out codes = .ok (UInt64.ofNat body.length,out ++ body) ∧
      body.length = (codedLength codes input.rest+7)/8 ∧
      byteBits body = input.rest.flatMap (fun b => word (codes b)) ++
        List.replicate (8*body.length-codedLength codes input.rest) false := by
  have fresh : Remaining {input := input} input.rest := .inl ⟨rfl,rfl⟩
  obtain ⟨w,len,ran,short,packed⟩ := writeAll fits input.rest (freshPacked out) (by norm_num) coded
  obtain ⟨w',body,flushed,empty,holds,count,size,spelled,_,_⟩ := flushPacked packed short
  rw [List.nil_append,codedLengthWord] at size spelled
  refine ⟨body,?_,size,spelled⟩
  simp only [encodeBody,whileReadSpec _ fresh,ran,okBind,flushed,destroySpec empty holds,
    CodeWriter.writtenBytes,count]

theorem decodePacked {lengths : CodeLengthTable} (partition : Partition lengths codes) {input : IStream}
    {filesize : UInt64}
    {file : Bytes} (coded : ∀ b ∈ file, Coded codes b) (length : file.length = filesize.toNat)
    (size : input.rest.length = (codedLength codes file+7)/8) {padding : List Bool}
    (spelled : byteBits input.rest = file.flatMap (fun b => word (codes b)) ++ padding) :
    decodeBody input [] lengths codes filesize = .ok (UInt64.ofNat input.rest.length,file) := by
  have stand : StandAll codes (bitStream input.rest) 0 file := by
    refine standsOfBits coded (fun i x at_i => ?_)
    have inside := (List.getElem?_eq_some_iff.mp at_i).1
    rw [Nat.zero_add,bitStream,spelled,streamLeft _ _ _ inside,stream,List.getD_eq_getElem?_getD,at_i]
    rfl
  obtain ⟨r,decoded,here⟩ := decodeBodySpec partition.fits partition.len (partitionFree partition) input
    file length stand
  obtain ⟨base,reads,ahead⟩ := here.source
  rw [decoded,CodeReader.readBytes,BitReader.readBytes,reads.count,Nat.min_eq_right (by omega)]

end Body

theorem headerLength (h : FileHeader) : (writeFileHeader h).length = fileHeaderSize := by
  simp [writeFileHeader,FileHeader.toBytes,correctSignature,fileHeaderSize]

theorem readWritten (h : FileHeader) (body : Bytes) :
    ∃ header input, readFileHeader {data := writeFileHeader h ++ body, pos := 0} = .ok (header,input) ∧
      header.lengths = h.lengths ∧ header.filesize = h.filesize ∧ input.rest = body := by
  have long : fileHeaderSize ≤ (writeFileHeader h ++ body).length := by
    rw [List.length_append,headerLength]
    exact Nat.le_add_right _ _
  have file : writeFileHeader h ++ body =
      correctSignature ++ (memory 8 h.filesize.toNat ++ (allBytes.map h.lengths ++ body)) := by
    simp only [writeFileHeader,FileHeader.toBytes,List.append_assoc]
  have signed : (writeFileHeader h ++ body).take 5 = correctSignature := by rw [file]; rfl
  have size : ((writeFileHeader h ++ body).drop 5).take 8 = memory 8 h.filesize.toNat := by
    rw [file,List.drop_left' (show correctSignature.length = 5 from rfl),List.take_left' (memoryLength _ _)]
  obtain ⟨header,input,read,lengths,filesize,rest⟩ := readHeader long signed
  refine ⟨header,input,read,?_,?_,?_⟩
  · rw [lengths]
    funext b
    have lt := b.toNat_lt
    have front : (correctSignature ++ memory 8 h.filesize.toNat).length = 5+8 := by simp [correctSignature]
    rw [rawLengths,file,← List.append_assoc,List.getD_eq_getElem?_getD,List.getElem?_append_right (by omega),front,
      Nat.add_sub_cancel_left,List.getElem?_append_left
        (by rw [List.length_map,allBytesLength]; exact lt),List.getElem?_map,
      allBytesAt]
    rfl
  · rw [filesize,size,fromMemoryOf,Nat.mod_eq_of_lt h.filesize.toNat_lt,UInt64.ofNat_toNat]
  · rw [rest,List.drop_left' (headerLength h)]

theorem byteLengths (frequencies : FrequencyTable) : PrefixLengths frequencies (fun _ => 8) := by
  refine ⟨fun _ _ => by norm_num,?_⟩
  have few : ((codedBytes frequencies).length : ℚ) ≤ 256 := by
    have le := List.length_filter_le (fun b => decide (frequencies b ≠ 0)) allBytes
    rw [allBytesLength] at le
    exact_mod_cast le
  rw [sumCoded,List.map_const',List.sum_replicate,nsmul_eq_mul]
  linarith

section Counted
variable {file : Bytes} {lengths : CodeLengthTable} (short : file.length < 2^64)
include short

theorem codedSum {codes : CodeTable} (len : ∀ b, (codes b).len = lengths b) :
    codedLength codes file = ∑ b, (byteCounts file b).toNat * (lengths b).toNat := by
  simp only [countToNat short,countSum,codedLength,len]

theorem countsSmall : ∑ b, (byteCounts file b).toNat < 2^64 := by
  simpa only [countToNat short,countTotal] using short

theorem codedSumLe (read : buildCodeLengths (byteCounts file) = .ok lengths) :
    ∑ b, (byteCounts file b).toNat * (lengths b).toNat ≤ 8*file.length := by
  obtain ⟨lens,read',⟨none_coded,rfl⟩ | ⟨root,built,table⟩⟩ := lengthsOf (byteCounts file)
  · cases Except.ok.inj (read.symm.trans read')
    simp
  · cases Except.ok.inj (read.symm.trans read')
    refine (leastCost (countsSmall short) built table (byteLengths _)).trans (le_of_eq ?_)
    simp only [codeCost,countToNat short,← Finset.sum_mul,countTotal,Nat.mul_comm]

theorem occurringCoded (read : buildCodeLengths (byteCounts file) = .ok lengths) {b : UInt8} (occurs : b ∈ file) :
    0 < (lengths b).toNat := by
  have positive := countPositive short occurs
  obtain ⟨lens,read',⟨none_coded,_⟩ | ⟨root,built,table⟩⟩ := lengthsOf (byteCounts file)
  · exact absurd (none_coded b) positive
  · cases Except.ok.inj (read.symm.trans read')
    exact lengthPositive table positive

end Counted

section Archive
variable {file : Bytes} {freq : FrequencyTable} {filesize : UInt64} {lengths : CodeLengthTable}
  (short : file.length < 2^64)
  (counted : buildFrequencyTable {data := file, pos := 0} (fun _ => 0) 0 = .ok (freq,filesize))
  (read : buildCodeLengths freq = .ok lengths) (fits : ∀ b, (lengths b).toNat ≤ bitSize)
include short counted read fits

theorem archived : ∃ header body info,
    compressFile file = .ok (info,writeFileHeader header ++ body) ∧
    decompressFile (writeFileHeader header ++ body) = .ok (info,file) ∧
    info.compressedFileBodyLength.toNat = body.length ∧
    body.length = (∑ b, (freq b).toNat * (lengths b).toNat + 7)/8 := by
  cases Except.ok.inj (counted.symm.trans (frequencySpec file _ _))
  obtain ⟨codes,built,partition⟩ := treeCodes read fits
  have coded : ∀ b ∈ file, Coded codes b :=
    fun b occurs => (codedIff partition b).mpr (occurringCoded short read occurs)
  have narrow : ∀ b, (codes b).len.toNat ≤ 64 := fun b => by rw [partition.len b]; exact fits b
  obtain ⟨header,named⟩ : ∃ header : FileHeader,
      header = {filesize := UInt64.ofNat file.length, lengths := lengths} := ⟨_,rfl⟩
  obtain ⟨body,encoded,size,spelled⟩ :=
    encodeBodySpec narrow {data := file, pos := 0} (writeFileHeader header) coded
  obtain ⟨header',input,reread,lengths',filesize',rfl⟩ := readWritten header body
  have decoded := decodePacked partition coded (UInt64.toNat_ofNat_of_lt' short).symm size spelled
  have total := codedSum short partition.len
  have few := codedSumLe short read
  rw [show (IStream.rest {data := file, pos := 0}) = file from rfl,total] at size
  refine ⟨header,input.rest,⟨UInt64.ofNat file.length,UInt64.ofNat input.rest.length,
    UInt64.ofNat fileHeaderSize⟩,?_,?_,?_,size⟩
  · simp only [compressFile,frequencySpec,read,built,rewind,okBind,← named,encoded]
  · rw [named] at lengths' filesize'
    simp only [decompressFile,reread,lengths',filesize',built,decoded,okBind]
  · have few : input.rest.length < 2^64 := by omega
    exact UInt64.toNat_ofNat_of_lt' few

theorem roundTrip : ∃ info archive info', compressFile file = .ok (info,archive) ∧
    decompressFile archive = .ok (info',file) := by
  obtain ⟨header,body,info,compressed,decompressed,_⟩ := archived short counted read fits
  exact ⟨info,_,info,compressed,decompressed⟩

theorem bodyLengthReported : ∃ info archive info' out, compressFile file = .ok (info,archive) ∧
    decompressFile archive = .ok (info',out) ∧
    archive.length = fileHeaderSize + info.compressedFileBodyLength.toNat ∧
    info.compressedFileBodyLength.toNat = (∑ b, (freq b).toNat * (lengths b).toNat + 7)/8 ∧
    info'.compressedFileBodyLength = info.compressedFileBodyLength ∧
    info'.originalFileLength = info.originalFileLength := by
  obtain ⟨header,body,info,compressed,decompressed,reported,size⟩ := archived short counted read fits
  refine ⟨info,_,info,file,compressed,decompressed,?_,reported.trans size,rfl,rfl⟩
  rw [List.length_append,headerLength,reported]

end Archive

def threeBytes : Bytes := [97,98,97]

theorem threeBytesFit {lengths : CodeLengthTable}
    (read : buildCodeLengths (byteCounts threeBytes) = .ok lengths) (b : UInt8) :
    (lengths b).toNat ≤ bitSize := by
  have all : (buildCodeLengths (byteCounts threeBytes)).map (fun l =>
    allBytes.all (fun b => (l b).toNat ≤ bitSize)) = .ok true := by
    decide +kernel
  rw [read] at all
  have every := Except.ok.inj all
  exact of_decide_eq_true (List.all_eq_true.mp every b (allBytesMem b))

theorem roundTripThreeBytes : ∃ info archive info', compressFile threeBytes = .ok (info,archive) ∧
    decompressFile archive = .ok (info',threeBytes) := by
  obtain ⟨lengths,read,_⟩ := lengthsOf (byteCounts threeBytes)
  exact roundTrip (by decide) (frequencySpec threeBytes _ _) read (threeBytesFit read)

theorem bodyLengthReportedThreeBytes : ∃ lengths, buildCodeLengths (byteCounts threeBytes) = .ok lengths ∧
    ∃ info archive info' out, compressFile threeBytes = .ok (info,archive) ∧
    decompressFile archive = .ok (info',out) ∧
    archive.length = fileHeaderSize + info.compressedFileBodyLength.toNat ∧
    info.compressedFileBodyLength.toNat = (∑ b, (byteCounts threeBytes b).toNat * (lengths b).toNat + 7)/8 ∧
    info'.compressedFileBodyLength = info.compressedFileBodyLength ∧
    info'.originalFileLength = info.originalFileLength := by
  obtain ⟨lengths,read,_⟩ := lengthsOf (byteCounts threeBytes)
  exact ⟨lengths,read,bodyLengthReported (by decide) (frequencySpec threeBytes _ _) read (threeBytesFit read)⟩

end HuffmanArchiver.RoundTrip
