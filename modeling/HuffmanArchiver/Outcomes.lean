import HuffmanArchiver.RoundTrip
import HuffmanArchiver.TableWalk

/-! Which files `compress_file` and `decompress_file` get through, and how they end on all others. -/
namespace HuffmanArchiver.Outcomes
open Machine Codes CodeWords HuffmanTree CodeLengths Canonical FastIo BitReading ByteIo CodeIo DecodeTables
  DecodeTree Headers
open HostileHeader Huffman Decoding TableWalk PrefixDecoding RoundTrip Library.StreamDecoder

/-! A loop that comes to its end has got through every pass. -/

theorem everyPass {σ ι : Type} {f : σ → ι → Exec σ} {l : List ι} {s s' : σ} (ran : l.foldlM f s = .ok s')
    {x : ι} (hx : x ∈ l) :
    ∃ before after, f before x = .ok after := by
  induction l generalizing s with
  | nil => contradiction
  | cons y rest ih =>
    rw [List.foldlM_cons,bindOk] at ran
    obtain ⟨next,first,ran⟩ := ran
    rcases List.mem_cons.mp hx with rfl | inside
    · exact ⟨s,next,first⟩
    · exact ih ran inside

theorem alignedFits {c after : CodeT} (ran : c.leftAlign = .ok after) : c.len.toNat ≤ bitSize := by
  simp only [CodeT.leftAlign,bindOk] at ran
  obtain ⟨data,shifted,_⟩ := ran
  by_contra long
  have beyond : ¬ sizeSub bitSize c.len.toNat < 64 := by
    have lt := c.len.toNat_lt
    unfold sizeSub bitSize at *
    omega
  rw [shl64,if_neg beyond] at shifted
  contradiction

theorem builtFits {bits : ℕ} {codes : CodeTable} {table : DecodeTable bits}
    (built : buildDecodeTable bits codes = .ok table)
    (b : UInt8) : (codes b).len.toNat ≤ bitSize := by
  obtain ⟨before,after,inserted⟩ := everyPass built (allBytesMem b)
  unfold insertCode at inserted
  split at inserted
  · rename_i empty
    rw [empty]
    exact Nat.zero_le _
  · obtain ⟨aligned,ran,_⟩ := bindOk.mp inserted
    exact alignedFits ran

theorem writtenFits {code : CodeT} {w w' : CodeWriter} (ran : w.write code = .ok w') :
    code.len.toNat ≤ bitSize := by
  obtain ⟨aligned,ran,_⟩ := bindOk.mp ran
  exact alignedFits ran

theorem encodedFits {input : IStream} {out : Bytes} {codes : CodeTable} {written : UInt64} {out' : Bytes}
    (ran : encodeBody input out codes = .ok (written,out')) {b : UInt8} (hb : b ∈ input.rest) :
      (codes b).len.toNat ≤ bitSize := by
  have fresh : Remaining {input := input} input.rest := .inl ⟨rfl,rfl⟩
  rw [encodeBody,whileReadSpec _ fresh] at ran
  obtain ⟨writer,wrote,_⟩ := bindOk.mp ran
  obtain ⟨before,after,wrote⟩ := everyPass wrote hb
  exact writtenFits wrote

theorem lengthsFit {file : Bytes} {info : CompressionInfo} {archive : Bytes}
    (compressed : compressFile file = .ok (info,archive))
    {lengths : CodeLengthTable} (read : buildCodeLengths (byteCounts file) = .ok lengths) (b : UInt8) :
    (lengths b).toNat ≤ bitSize := by
  simp only [compressFile,frequencySpec,read,okBind,bindOk,Prod.exists] at compressed
  obtain ⟨codes,built,written,out,encoded,_⟩ := compressed
  by_cases occurs : b ∈ file
  · rw [← constructLen built b]
    exact encodedFits encoded occurs
  · have absent : byteCounts file b = 0 := by
      rw [byteCounts,List.count_eq_zero_of_not_mem occurs]
      rfl
    obtain ⟨lengths',read',⟨_,rfl⟩ | ⟨root,_,table⟩⟩ := lengthsOf (byteCounts file)
    · cases Except.ok.inj (read.symm.trans read')
      exact Nat.zero_le _
    · cases Except.ok.inj (read.symm.trans read')
      rw [table.absent b absent]
      exact Nat.zero_le _

theorem compressOkIff {file : Bytes} (short : file.length < 2^64) :
    (∃ info archive, compressFile file = .ok (info,archive)) ↔
    ∀ lengths, buildCodeLengths (byteCounts file) = .ok lengths → ∀ b, (lengths b).toNat ≤ bitSize := by
  constructor
  · rintro ⟨info,archive,compressed⟩ lengths read
    exact lengthsFit compressed read
  · intro fits
    obtain ⟨lengths,read,_⟩ := lengthsOf (byteCounts file)
    obtain ⟨header,body,info,compressed,_⟩ := archived short (frequencySpec file _ _) read (fits lengths read)
    exact ⟨info,_,compressed⟩

theorem decodeBodyRuns {lengths : CodeLengthTable} {codes : CodeTable} (built : constructCodes lengths = .ok codes)
    (fits : ∀ b, (lengths b).toNat ≤ bitSize) : ∃ table, buildDecodeTable decodeBits codes = .ok table ∧
      Within (tableDecoder table) 72 ∧
      ∀ input filesize, ∃ readBytes out pos, decodeBody input [] lengths codes filesize = .ok (readBytes,out) ∧
        symbols (tableDecoder table) (bitStream input.rest) filesize.toNat 0 = some (out,pos) ∧
          readBytes.toNat ≤ input.rest.length := by
  have len := constructLen built
  have narrowCodes : ∀ b, (codes b).len.toNat ≤ 64 := fun b => by rw [len b]; exact fits b
  have some_bits : 0 < decodeBits := by decide
  have few_bits : decodeBits ≤ 16 := by decide
  obtain ⟨table,addr,made,_,nested,_,_⟩ := buildSpec some_bits few_bits narrowCodes
  refine ⟨table,made,tableWithin nested narrowCodes (by decide),fun input filesize => ?_⟩
  obtain ⟨reader,addr,created,here,nested,_⟩ := createDecoder narrowCodes input
  have same : reader.table = table := Except.ok.inj ((createdTable created).symm.trans made)
  obtain ⟨reader',writer,pos,bs,ran,read,here',holds⟩ :=
    decodeLoopWalk (by decide) filesize.toNat here nested (chosenSees len nested)
    (holdsEmpty [])
  obtain ⟨writer',flushed,_,out,_⟩ := flushSpec holds
  obtain ⟨base,reads,_⟩ := here'.source
  rw [same] at read
  refine ⟨reader'.readBytes,bs,pos,?_,read,?_⟩
  · simp only [decodeBody,created,ran,flushed,out,okBind,List.nil_append]
  · rw [CodeReader.readBytes,BitReader.readBytes,reads.count,UInt64.toNat_ofNat']
    exact (Nat.mod_le _ _).trans (Nat.min_le_right _ _)

theorem decompressRuns {lengths : CodeLengthTable} (usable : Usable lengths) :
    ∃ codes table, constructCodes lengths = .ok codes ∧
    buildDecodeTable decodeBits codes = .ok table ∧ Within (tableDecoder table) 72 ∧
    ∀ {file header input}, readFileHeader {data := file, pos := 0} = .ok (header,input) → header.lengths = lengths →
      ∃ readBytes out pos, decompressFile file = .ok (⟨header.filesize,readBytes,UInt64.ofNat fileHeaderSize⟩,out) ∧
        symbols (tableDecoder table) (bitStream input.rest) header.filesize.toNat 0 = some (out,pos) ∧
        readBytes.toNat ≤ input.rest.length := by
  obtain ⟨codes,built,_⟩ := (usableIff _).mpr usable
  obtain ⟨table,made,within,runs⟩ := decodeBodyRuns built usable.fits
  refine ⟨codes,table,built,made,within,fun {file header input} read same => ?_⟩
  obtain ⟨readBytes,out,pos,decoded,symbols,le⟩ := runs input header.filesize
  refine ⟨readBytes,out,pos,?_,symbols,le⟩
  simp only [decompressFile,read,same,built,decoded,okBind]

structure Extracted (file : Bytes) (info : CompressionInfo) (out : Bytes) : Prop where
  filesize : info.originalFileLength = UInt64.ofNat (fromMemory ((file.drop 5).take 8))
  size : out.length = info.originalFileLength.toNat
  body : info.compressedFileBodyLength.toNat + fileHeaderSize ≤ file.length
  header : info.compressedFileHeaderLength.toNat = fileHeaderSize

theorem decompressSigned {file : Bytes} (long : fileHeaderSize ≤ file.length)
    (signed : file.take 5 = correctSignature) :
    (Usable (rawLengths file) → ∃ info out, decompressFile file = .ok (info,out) ∧ Extracted file info out) ∧
      ((∃ info out, decompressFile file = .ok (info,out)) → Usable (rawLengths file)) := by
  obtain ⟨header,input,read,lengths,filesize,rest⟩ := readHeader long signed
  constructor
  · intro usable
    obtain ⟨_,_,_,_,_,runs⟩ := decompressRuns usable
    obtain ⟨readBytes,out,pos,ran,symbols,le⟩ := runs read lengths
    rw [rest,List.length_drop] at le
    exact ⟨_,out,ran,filesize,symbolsLength symbols,by simp only; omega,rfl⟩
  · rintro ⟨info,out,ran⟩
    simp only [decompressFile,read,okBind,bindOk,Prod.exists] at ran
    obtain ⟨codes,built,readBytes,out',decoded,_⟩ := ran
    rw [lengths] at built
    refine (usableIff _).mp ⟨codes,built,fun b coded => ⟨nonzeroIff.mp coded,?_⟩⟩
    obtain ⟨reader,created,_⟩ := bindOk.mp decoded
    obtain ⟨table,made,_⟩ := bindOk.mp created
    exact builtFits made b

/-! Only the reading of the header throws. -/

def Throwless {α : Type} (x : Exec α) : Prop := ∀ what, x ≠ .error (.invalidFileHeader what)

theorem okThrowless {α : Type} (a : α) : Throwless (.ok a : Exec α) := by
  intro what same
  contradiction

theorem bindThrowless {α β : Type} {x : Exec α} {f : α → Exec β} (first : Throwless x)
    (second : ∀ a, Throwless (f a)) :
    Throwless (x >>= f) := by
  cases x with
  | error e => exact fun what same => first what (congrArg Except.error (Except.error.inj same))
  | ok a => exact second a

theorem shl64Throwless (x : UInt64) (s : ℕ) : Throwless (shl64 x s) := by
  intro what same
  unfold shl64 at same
  split at same <;> simp at same

theorem shr64Throwless (x : UInt64) (s : ℕ) : Throwless (shr64 x s) := by
  intro what same
  unfold shr64 at same
  split at same <;> simp at same

theorem requireThrowless {c : Prop} [Decidable c] {fault : Fault}
    (inner : ∀ what, fault ≠ .invalidFileHeader what) :
    Throwless (require c fault) := by
  intro what same
  unfold require at same
  split at same
  · contradiction
  · exact inner what (Except.error.inj same)

theorem shiftLeftThrowless (c : CodeT) (shl : UInt8) : Throwless (c.shiftLeft shl) :=
  bindThrowless (requireThrowless (fun _ => by simp)) (fun _ => bindThrowless (shl64Throwless _ _) (fun _ =>
    okThrowless _))

theorem leftAlignThrowless (c : CodeT) : Throwless c.leftAlign :=
  bindThrowless (shl64Throwless _ _) (fun _ => okThrowless _)

theorem assignThrowless (pairs : List (UInt8 × UInt8)) (current : CodeT) (codes : CodeTable) :
    Throwless (assignCodes pairs current codes) := by
  induction pairs generalizing current codes with
  | nil => exact okThrowless _
  | cons p rest ih => exact bindThrowless (shiftLeftThrowless _ _) (fun _ => ih _ _)

section Tables
variable {bits : ℕ}

theorem cellThrowless (table : DecodeTable bits) (ind index : ℕ) : Throwless (cell table ind index) := by
  intro what same
  unfold cell at same
  split at same
  · split at same <;> simp at same
  · simp at same

theorem modifyThrowless (table : DecodeTable bits) (ind index : ℕ) (f : DecodeElemT → DecodeElemT) :
    Throwless (DecodeTables.modify table ind index f) := by
  intro what same
  unfold DecodeTables.modify at same
  split at same
  · split at same <;> simp at same
  · simp at same

theorem fillThrowless (ind : ℕ) (mask block : UInt64) (len byte : UInt8) (fuel : ℕ) (index : UInt64)
    (table : DecodeTable bits) :
    Throwless (fillLeaf ind mask block len byte fuel index table) := by
  induction fuel generalizing index table with
  | zero => exact fun what same => by simp [fillLeaf] at same
  | succ fuel ih =>
    unfold fillLeaf
    split
    · exact bindThrowless (modifyThrowless _ _ _ _) (fun _ => ih _ _)
    · exact okThrowless _

theorem nestThrowless (table : DecodeTable bits) (curInd block : ℕ) (len : UInt8) :
    Throwless (nest table curInd block len) := by
  have linked : ∀ table : DecodeTable bits, Throwless (do
      let linked ← cell table curInd block
      require (linked.table.toNat < table.size) .index
      .ok (linked.table.toNat,table)) := fun table =>
    bindThrowless (cellThrowless _ _ _) (fun _ => bindThrowless (requireThrowless (fun _ => by simp))
      (fun _ => okThrowless _))
  refine bindThrowless (cellThrowless _ _ _) (fun old => ?_)
  dsimp only
  split
  · exact bindThrowless (modifyThrowless _ _ _ _) linked
  · exact linked table

theorem insertThrowless (byte len : UInt8) (blocks left : ℕ) (data : UInt64) (curInd : ℕ)
    (table : DecodeTable bits) :
    Throwless (insertBlocks byte len blocks left data curInd table) := by
  induction left generalizing data curInd table with
  | zero => exact okThrowless _
  | succ left ih =>
    refine bindThrowless (shr64Throwless _ _) (fun top => bindThrowless (shl64Throwless _ _) (fun data => ?_))
    split
    · exact bindThrowless (fillThrowless _ _ _ _ _ _ _ _) (fun _ => ih _ _ _)
    · exact bindThrowless (nestThrowless _ _ _ _) (fun _ => ih _ _ _)

theorem codeThrowless (codes : CodeTable) (table : DecodeTable bits) (byte : UInt8) :
    Throwless (insertCode codes table byte) := by
  unfold insertCode
  split
  · exact okThrowless _
  · exact bindThrowless (leftAlignThrowless _) (fun _ => insertThrowless _ _ _ _ _ _ _)

theorem foldThrowless {σ ι : Type} {f : σ → ι → Exec σ} (each : ∀ s x, Throwless (f s x)) (l : List ι) (s : σ) :
    Throwless (l.foldlM f s) := by
  induction l generalizing s with
  | nil => exact okThrowless s
  | cons x rest ih => exact bindThrowless (each s x) (fun _ => ih _)

end Tables

section Writers

theorem iteThrowless {α : Type} {c : Prop} [Decidable c] {x y : Exec α} (yes : Throwless x) (no : Throwless y) :
    Throwless (if c then x else y) := by
  split
  · exact yes
  · exact no

theorem flushThrowless (w : ByteWriter) : Throwless w.flush :=
  bindThrowless (requireThrowless (fun _ => by simp)) (fun _ => okThrowless _)

theorem copyThrowless (w : ByteWriter) (data : Bytes) : Throwless (w.copy data) := by
  refine bindThrowless (fun what same => ?_) (fun _ => okThrowless _)
  unfold store at same
  split at same <;> simp at same

theorem writeByteThrowless (w : ByteWriter) (byte : UInt8) : Throwless (w.writeByte byte) :=
  iteThrowless (bindThrowless (flushThrowless w) (fun _ => copyThrowless _ _)) (copyThrowless _ _)

theorem writeThrowless (w : ByteWriter) (data : Bytes) : Throwless (w.write data) :=
  iteThrowless (bindThrowless (requireThrowless (fun _ => by simp)) (fun _ =>
    bindThrowless (copyThrowless _ _) (fun _ =>
    bindThrowless (flushThrowless _) (fun _ => copyThrowless _ _)))) (copyThrowless _ _)

theorem blockThrowless (w : CodeWriter) : Throwless w.writeBufferBlock :=
  bindThrowless (shr64Throwless _ _) (fun _ =>
    bindThrowless (bindThrowless (writeThrowless _ _) (fun _ => okThrowless _)) (fun _ =>
    bindThrowless (shl64Throwless _ _) (fun _ => okThrowless _)))

theorem appendThrowless (w : CodeWriter) (block : UInt32) (len : UInt8) : Throwless (w.append block len) :=
  bindThrowless (shl64Throwless _ _) (fun _ => okThrowless _)

theorem highThrowless (w : CodeWriter) (code : CodeT) : Throwless (w.writeHigh code) :=
  iteThrowless (bindThrowless (shr64Throwless _ _) (fun _ => bindThrowless (appendThrowless _ _ _) (fun _ =>
    bindThrowless (shl64Throwless _ _) (fun _ => bindThrowless (blockThrowless _) (fun _ =>
      okThrowless _))))) (okThrowless _)

theorem codeWriterThrowless (w : CodeWriter) (code : CodeT) : Throwless (w.write code) :=
  bindThrowless (leftAlignThrowless _) (fun _ => bindThrowless (highThrowless _ _) (fun _ =>
    bindThrowless (shr64Throwless _ _) (fun _ =>
    bindThrowless (appendThrowless _ _ _) (fun _ => iteThrowless (blockThrowless _) (okThrowless _)))))

theorem flushBytesThrowless (n : ℕ) (w : CodeWriter) : Throwless (CodeWriter.flushBytes n w) := by
  induction n generalizing w with
  | zero => exact okThrowless w
  | succ n ih =>
    exact bindThrowless (shr64Throwless _ _) (fun _ => bindThrowless (shl64Throwless _ _) (fun _ =>
      bindThrowless (bindThrowless (writeByteThrowless _ _) (fun _ => okThrowless _)) (fun _ => ih _)))

theorem codeFlushThrowless (w : CodeWriter) : Throwless w.flush :=
  bindThrowless (flushBytesThrowless _ _) (fun _ => bindThrowless (flushThrowless _) (fun _ => okThrowless _))

end Writers

theorem compressThrowless (file : Bytes) : Throwless (compressFile file) := by
  obtain ⟨lengths,read,_⟩ := lengthsOf (byteCounts file)
  have encoded : ∀ input out codes, Throwless (encodeBody input out codes) := by
    intro input out codes
    have fresh : Remaining {input := input} input.rest := .inl ⟨rfl,rfl⟩
    rw [encodeBody,whileReadSpec _ fresh]
    exact bindThrowless (foldThrowless (fun _ _ => codeWriterThrowless _ _) _ _) (fun _ =>
      bindThrowless (codeFlushThrowless _) (fun _ =>
      bindThrowless (bindThrowless (codeFlushThrowless _) (fun _ =>
        bindThrowless (flushThrowless _) (fun _ => okThrowless _)))
        (fun _ => okThrowless _)))
  simp only [compressFile,frequencySpec,read,okBind]
  exact bindThrowless (assignThrowless _ _ _) (fun _ => bindThrowless (encoded _ _ _) (fun _ => okThrowless _))

theorem signedThrowless {file : Bytes} (long : fileHeaderSize ≤ file.length)
    (signed : file.take 5 = correctSignature) :
    Throwless (decompressFile file) := by
  obtain ⟨header,input,read,lengths,_,_⟩ := readHeader long signed
  cases built : constructCodes header.lengths with
  | error e =>
    intro what same
    simp only [decompressFile,read,built,okBind,errorBind] at same
    exact assignThrowless _ _ _ what (built.trans (congrArg Except.error (Except.error.inj same)))
  | ok codes =>
    by_cases fits : ∀ b, (header.lengths b).toNat ≤ bitSize
    · obtain ⟨_,_,_,runs⟩ := decodeBodyRuns built fits
      obtain ⟨readBytes,out,pos,decoded,_⟩ := runs input header.filesize
      intro what same
      simp only [decompressFile,read,built,decoded,okBind] at same
      contradiction
    · -- the table is not finished, as the code of some byte cannot be aligned
      cases made : buildDecodeTable decodeBits codes with
      | ok table =>
        refine absurd (fun b => ?_) fits
        rw [← constructLen built b]
        exact builtFits made b
      | error e =>
        intro what same
        simp only [decompressFile,decodeBody,CodeReader.create,read,built,made,okBind,errorBind] at same
        exact foldThrowless (codeThrowless codes) _ _ what
          (made.trans (congrArg Except.error (Except.error.inj same)))

theorem shortThrown {file : Bytes} (short : file.length < fileHeaderSize) :
    decompressFile file = .error (invalidFileHeader "File header can't be read.") := by
  rw [decompressFile,headerShort short]
  rfl

theorem unsignedThrown {file : Bytes} (long : fileHeaderSize ≤ file.length)
    (unsigned : file.take 5 ≠ correctSignature) :
    decompressFile file = .error (invalidFileHeader "Signature doesn't match.") := by
  rw [decompressFile,headerUnsigned long unsigned]
  rfl

theorem decompressOutcome (file : Bytes) :
    (∀ info out, decompressFile file = .ok (info,out) → Extracted file info out) ∧
    ((∃ info out, decompressFile file = .ok (info,out)) ↔
      fileHeaderSize ≤ file.length ∧ file.take 5 = correctSignature ∧ Usable (rawLengths file)) ∧
    ∀ what, decompressFile file = .error (.invalidFileHeader what) ↔
      (file.length < fileHeaderSize ∧ what = "Invalid file header. " ++ "File header can't be read.") ∨
      (fileHeaderSize ≤ file.length ∧ file.take 5 ≠ correctSignature ∧ what = "Invalid file header. " ++
        "Signature doesn't match.") := by
  rcases Nat.lt_or_ge file.length fileHeaderSize with short | long
  · have thrown := shortThrown short
    have other : ¬ fileHeaderSize ≤ file.length := Nat.not_le.mpr short
    simp only [thrown,other,short,invalidFileHeader,reduceCtorEq,false_imp_iff,implies_true,exists_false,
      false_and,true_and,
      Except.error.injEq,Fault.invalidFileHeader.injEq,or_false,eq_comm]
  · have other : ¬ file.length < fileHeaderSize := Nat.not_lt.mpr long
    by_cases signed : file.take 5 = correctSignature
    · obtain ⟨runs,usable⟩ := decompressSigned long signed
      refine ⟨fun info out ran => ?_,⟨fun ran => ⟨long,signed,usable ran⟩,fun ⟨_,_,fine⟩ => ?_⟩,fun what => ?_⟩
      · obtain ⟨info',out',ran',extracted⟩ := runs (usable ⟨info,out,ran⟩)
        cases Except.ok.inj (ran.symm.trans ran')
        exact extracted
      · obtain ⟨info,out,ran,_⟩ := runs fine
        exact ⟨info,out,ran⟩
      · simp only [other,signed,false_and,ne_eq,not_true_eq_false,and_false,or_false,iff_false]
        exact signedThrowless long signed what
    · have thrown := unsignedThrown long signed
      simp only [thrown,other,long,signed,invalidFileHeader,reduceCtorEq,false_imp_iff,implies_true,
        exists_false,false_and,and_false,
        true_and,Except.error.injEq,Fault.invalidFileHeader.injEq,false_or,ne_eq,not_false_eq_true,eq_comm]

theorem rawWritten (h : FileHeader) (body : Bytes) : fileHeaderSize ≤ (writeFileHeader h ++ body).length ∧
    (writeFileHeader h ++ body).take 5 = correctSignature ∧ rawLengths (writeFileHeader h ++ body) = h.lengths ∧
    UInt64.ofNat (fromMemory (((writeFileHeader h ++ body).drop 5).take 8)) = h.filesize := by
  have long : fileHeaderSize ≤ (writeFileHeader h ++ body).length := by
    rw [List.length_append,headerLength]
    exact Nat.le_add_right _ _
  have signed : (writeFileHeader h ++ body).take 5 = correctSignature := by
    simp only [writeFileHeader,FileHeader.toBytes,List.append_assoc]
    exact List.take_left' rfl
  obtain ⟨header,input,read,lengths,filesize,_⟩ := readHeader long signed
  obtain ⟨header',input',read',lengths',filesize',_⟩ := readWritten h body
  cases Except.ok.inj (read.symm.trans read')
  exact ⟨long,signed,lengths.symm.trans lengths',filesize.symm.trans filesize'⟩

theorem decompressWalk {file : Bytes} (long : fileHeaderSize ≤ file.length)
    (signed : file.take 5 = correctSignature)
    (usable : Usable (rawLengths file)) : ∃ codes table info out pos, constructCodes (rawLengths file) = .ok codes ∧
      buildDecodeTable decodeBits codes = .ok table ∧ decompressFile file = .ok (info,out) ∧
      symbols (tableDecoder table) (bitStream (file.drop fileHeaderSize))
        (UInt64.ofNat (fromMemory ((file.drop 5).take 8))).toNat 0 =
        some (out,pos) := by
  obtain ⟨header,input,read,lengths,filesize,rest⟩ := readHeader long signed
  obtain ⟨codes,table,built,made,_,runs⟩ := decompressRuns usable
  obtain ⟨readBytes,out,pos,ran,symbols,_⟩ := runs read lengths
  rw [rest,filesize] at symbols
  exact ⟨codes,table,_,out,pos,built,made,ran,symbols⟩

def overlapped : Bytes := writeFileHeader {filesize := 3, lengths := overlapping} ++ [0x40]

theorem overlappingUsable : Usable overlapping := by
  have fine : (constructCodes overlapping).isOk = true := by decide +kernel
  obtain ⟨codes,built⟩ := okExists fine
  have small : ∀ b, (overlapping b).toNat ≤ bitSize := by decide +kernel
  refine (usableIff _).mp ⟨codes,built,fun b coded => ⟨nonzeroIff.mp coded,?_⟩⟩
  rw [constructLen built b]
  exact small b

theorem overlappedRead : fileHeaderSize ≤ overlapped.length ∧ overlapped.take 5 = correctSignature ∧
    Usable (rawLengths overlapped) ∧ UInt64.ofNat (fromMemory ((overlapped.drop 5).take 8)) = 3 := by
  obtain ⟨long,signed,lengths,filesize⟩ := rawWritten {filesize := 3, lengths := overlapping} [0x40]
  refine ⟨long,signed,?_,filesize⟩
  rw [overlapped,lengths]
  exact overlappingUsable

theorem decompressWalkOverlapped : ∃ codes table info out pos, constructCodes (rawLengths overlapped) = .ok codes ∧
    buildDecodeTable decodeBits codes = .ok table ∧ decompressFile overlapped = .ok (info,out) ∧
    symbols (tableDecoder table) (bitStream (overlapped.drop fileHeaderSize))
      (UInt64.ofNat (fromMemory ((overlapped.drop 5).take 8))).toNat 0 = some (out,pos) := by
  obtain ⟨long,signed,usable,_⟩ := overlappedRead
  exact decompressWalk long signed usable

theorem outputFront {h h' : FileHeader} (usable : Usable h.lengths) (lengths : h'.lengths = h.lengths)
    (body body' : Bytes) :
    ∃ info out info' out', decompressFile (writeFileHeader h ++ body) = .ok (info,out) ∧
      decompressFile (writeFileHeader h' ++ body') = .ok (info',out') ∧
      ∀ k ≤ h.filesize.toNat, k ≤ h'.filesize.toNat → (∀ i < 72*k, bitStream body i = bitStream body' i) →
        out.take k = out'.take k := by
  obtain ⟨codes,table,_,_,within,runs⟩ := decompressRuns usable
  obtain ⟨header,input,read,same,filesize,rfl⟩ := readWritten h body
  obtain ⟨header',input',read',same',filesize',rfl⟩ := readWritten h' body'
  obtain ⟨_,out,pos,ran,decoded,_⟩ := runs read same
  obtain ⟨_,out',pos',ran',decoded',_⟩ := runs read' (same'.trans lengths)
  rw [filesize] at decoded
  rw [filesize'] at decoded'
  refine ⟨_,out,_,out',ran,ran',fun k le le' agree => ?_⟩
  obtain ⟨mid,front⟩ := symbolsTake decoded le
  obtain ⟨mid',front'⟩ := symbolsTake decoded' le'
  rw [symbolsBlind within (fun i hi => agree i (by omega)),front'] at front
  exact (congrArg Prod.fst (Option.some.inj front)).symm

theorem outputFrontOverlapping : ∃ info out info' out',
    decompressFile (writeFileHeader {filesize := 3, lengths := overlapping} ++
      (List.replicate 9 64 ++ [64])) = .ok (info,out) ∧
    decompressFile (writeFileHeader {filesize := 1, lengths := overlapping} ++ List.replicate 9 64) =
      .ok (info',out') ∧
    out.take 1 = out'.take 1 := by
  obtain ⟨info,out,info',out',ran,ran',same⟩ := @outputFront {filesize := 3, lengths := overlapping}
    {filesize := 1, lengths := overlapping} overlappingUsable rfl (List.replicate 9 64 ++ [64])
    (List.replicate 9 64)
  refine ⟨info,out,info',out',ran,ran',same 1 (by decide) (by decide) (fun i hi => ?_)⟩
  rw [bitStream,Packing.byteBitsAppend]
  exact Library.BitString.streamLeft _ _ _ (by rw [byteBitsLength]; exact hi)

end HuffmanArchiver.Outcomes
