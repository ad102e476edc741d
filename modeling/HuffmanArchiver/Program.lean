import HuffmanArchiver.CommandLine
import HuffmanArchiver.Archives

/-! `open_files` and `main` of `main.cpp` over the files that a run finds and leaves behind. There is room
for everything that a run puts out. -/
namespace HuffmanArchiver.Program
open Machine Codes HuffmanTree CodeLengths FastIo Headers HostileHeader Huffman RoundTrip Outcomes Archives
  Argparse ParserRuns CommandLine

variable {ι : Type} [DecidableEq ι]

/-- Names stand for places, more than one perhaps for the same place. -/
structure Volume (ι : Type) where
  place : Word → ι
  readable : ι → Bool
  writable : ι → Bool

abbrev Files (ι : Type) := ι → Option Bytes

def put (files : Files ι) (i : ι) (data : Bytes) : Files ι := Function.update files i (some data)

/-- Opening the output empties it, and nothing has been read from the input yet. -/
def openFiles (v : Volume ι) (args : ArgsT) (files : Files ι) : Parse (Files ι) :=
  if ¬((files (v.place args.inputFilename)).isSome ∧ v.readable (v.place args.inputFilename)) then
    .error (.exception "Input file can't be opened.")
  else if ¬v.writable (v.place args.outputFilename) then .error (.exception "Output file can't be opened.")
  else .ok (put files (v.place args.outputFilename) [])

def runMode : ModeT → Bytes → Exec (CompressionInfo × Bytes)
  | .compress => compressFile
  | .decompress => decompressFile

def printInfo (mode : ModeT) (info : CompressionInfo) : String :=
  let original := toString info.originalFileLength.toNat
  let body := toString info.compressedFileBodyLength.toNat
  let header := toString info.compressedFileHeaderLength.toNat
  match mode with
  | .compress => "decompressed size: " ++ original ++ "\n" ++ "compressed size: " ++ body ++ "\n" ++
      "additional data size: " ++ header ++ "\n"
  | .decompress => "compressed size: " ++ body ++ "\n" ++ "decompressed size: " ++ original ++ "\n" ++
      "additional data size: " ++ header ++ "\n"

structure Report (ι : Type) where
  files : Files ι
  out : String := ""
  err : String := ""
  status : Int := 0

def caught (files : Files ι) (what : String) : Report ι where
  files := files
  err := "Something went wrong:" ++ "\n" ++ what ++ "\n"
  status := -1

/-- The output stream passes all of its bytes on when it is closed. -/
def runOpened (v : Volume ι) (args : ArgsT) (opened : Files ι) : Exec (Report ι) :=
  match runMode args.mode ((opened (v.place args.inputFilename)).getD []) with
  | .ok (info,bytes) =>
      .ok {files := put opened (v.place args.outputFilename) bytes, out := printInfo args.mode info}
  | .error (.invalidFileHeader what) => .ok (caught opened what)
  | .error fault => .error fault

def main (v : Volume ι) (files : Files ι) (argv : List Word) : Exec (Report ι) :=
  match parseArgs argv with
  | .error (.exit out) => .ok {files := files, out := out}
  | .error (.exception what) => .ok (caught files what)
  | .error (.fault fault) => .error fault
  | .ok args =>
      match openFiles v args files with
      | .error (.exit out) => .ok {files := files, out := out}
      | .error (.exception what) => .ok (caught files what)
      | .error (.fault fault) => .error fault
      | .ok opened => runOpened v args opened

omit [DecidableEq ι] in
@[simp] theorem caughtFiles (files : Files ι) (what : String) : (caught files what).files = files := rfl

@[simp] theorem putSelf (files : Files ι) (i : ι) (data : Bytes) : put files i data i = some data :=
  Function.update_self _ _ _

theorem putOther {files : Files ι} {i j : ι} (data : Bytes) (other : j ≠ i) :
    put files i data j = files j := Function.update_of_ne other _ _

@[simp] theorem putPut (files : Files ι) (i : ι) (data data' : Bytes) :
    put (put files i data) i data' = put files i data' :=
  Function.update_idem _ _ _

structure Opens (v : Volume ι) (files : Files ι) (args : ArgsT) : Prop where
  there : (files (v.place args.inputFilename)).isSome = true
  readable : v.readable (v.place args.inputFilename) = true
  writable : v.writable (v.place args.outputFilename) = true

theorem openFilesIff {v : Volume ι} {files opened : Files ι} {args : ArgsT} :
    openFiles v args files = .ok opened ↔ Opens v files args ∧
      opened = put files (v.place args.outputFilename) [] := by
  unfold openFiles
  split
  · rename_i closed
    exact ⟨fun same => by contradiction,fun ⟨opens,_⟩ => absurd ⟨opens.there,opens.readable⟩ closed⟩
  · rename_i input
    rw [not_not] at input
    split
    · rename_i closed
      exact ⟨fun same => by contradiction,fun ⟨opens,_⟩ => absurd opens.writable closed⟩
    · rename_i output
      rw [not_not] at output
      exact ⟨fun same => ⟨⟨input.1,input.2,output⟩,(Except.ok.inj same).symm⟩,fun ⟨_,same⟩ => by rw [same]⟩

theorem unopened {v : Volume ι} {files : Files ι} {args : ArgsT} (closed : ¬ Opens v files args) :
    openFiles v args files = .error (.exception "Input file can't be opened.") ∨
      openFiles v args files = .error (.exception "Output file can't be opened.") := by
  unfold openFiles
  split
  · exact .inl rfl
  · rename_i input
    rw [not_not] at input
    split
    · exact .inr rfl
    · rename_i output
      rw [not_not] at output
      exact absurd ⟨input.1,input.2,output⟩ closed

theorem inputSeen {v : Volume ι} {files : Files ι} {args : ArgsT} {file : Bytes}
    (there : files (v.place args.inputFilename) = some file)
    (apart : v.place args.inputFilename ≠ v.place args.outputFilename) :
    (put files (v.place args.outputFilename) [] (v.place args.inputFilename)).getD [] = file := by
  rw [putOther _ apart,there]
  rfl

section Accepted
variable {v : Volume ι} {files : Files ι} {argv : List Word} {args : ArgsT} (accepted : parseArgs argv = .ok args)
include accepted

theorem mainOpened (opens : Opens v files args) :
    main v files argv = runOpened v args (put files (v.place args.outputFilename) []) := by
  have opened := openFilesIff.mpr ⟨opens,rfl⟩
  simp only [main,accepted,opened]

theorem mainUnopened (closed : ¬ Opens v files args) : ∃ what, main v files argv = .ok (caught files what) ∧
    (what = "Input file can't be opened." ∨ what = "Output file can't be opened.") := by
  rcases unopened closed with input | output
  · exact ⟨_,by simp only [main,accepted,input],.inl rfl⟩
  · exact ⟨_,by simp only [main,accepted,output],.inr rfl⟩

theorem mainApart (opens : Opens v files args) {file : Bytes}
    (there : files (v.place args.inputFilename) = some file)
    (apart : v.place args.inputFilename ≠ v.place args.outputFilename) :
    (∀ info bytes, runMode args.mode file = .ok (info,bytes) →
      main v files argv =
        .ok {files := put files (v.place args.outputFilename) bytes, out := printInfo args.mode info}) ∧
    ∀ what, runMode args.mode file = .error (.invalidFileHeader what) →
      main v files argv = .ok (caught (put files (v.place args.outputFilename) []) what) := by
  have seen := inputSeen there apart
  constructor
  · intro info bytes ran
    simp only [mainOpened accepted opens,runOpened,seen,ran,putPut]
  · intro what thrown
    simp only [mainOpened accepted opens,runOpened,seen,thrown]

theorem mainKeeps {r : Report ι} (ran : main v files argv = .ok r) {i : ι}
    (other : i ≠ v.place args.outputFilename) :
    r.files i = files i := by
  by_cases opens : Opens v files args
  · rw [mainOpened accepted opens,runOpened] at ran
    split at ran
    · cases Except.ok.inj ran
      simp only [putOther _ other]
    · cases Except.ok.inj ran
      rw [caughtFiles,putOther _ other]
    · contradiction
  · obtain ⟨what,caught,_⟩ := mainUnopened accepted opens
    cases Except.ok.inj (caught.symm.trans ran)
    rfl

end Accepted

/-! A disk on which every name is a file of its own. -/

def desk : Volume Word where
  place := id
  readable := fun _ => true
  writable := fun _ => true

def deskFiles (data : Bytes) : Files Word := fun name => if name = ['a'] then some data else none

def packLine : List Word := [['h'],['-','c','f'],['a'],['-','-','o','u','t','p','u','t'],['b']]

def unpackLine : List Word := [['h'],['-','u'],['-','o'],['c'],['-','f'],['b']]

theorem packLineRead :
    parseArgs packLine = .ok {mode := .compress, inputFilename := ['a'], outputFilename := ['b']} := rfl

theorem unpackLineRead :
    parseArgs unpackLine = .ok {mode := .decompress, inputFilename := ['b'], outputFilename := ['c']} := rfl

theorem refusedRun (v : Volume ι) (files : Files ι) {name : Word} {words : List Word} {h : Halt}
    (refused : parseArgs (name :: words) = .error h) :
    (∃ out, main v files (name :: words) = .ok {files := files, out := out} ∧
      (out = parser.print ∨ out = parser.mVersion ++ "\n")) ∨
    ∃ what ∈ complaints ++ objections, main v files (name :: words) = .ok (caught files what) := by
  rcases refusedHalts refused with rfl | rfl | ⟨what,mem,rfl⟩
  · exact .inl ⟨_,by simp only [main,refused],.inl rfl⟩
  · exact .inl ⟨_,by simp only [main,refused],.inr rfl⟩
  · exact .inr ⟨what,mem,by simp only [main,refused]⟩

theorem nothingChanged (v : Volume ι) (files : Files ι) (name : Word) (words : List Word)
    (closed : ∀ args, parseArgs (name :: words) = .ok args → ¬ Opens v files args) :
    ∃ r, main v files (name :: words) = .ok r ∧ r.files = files ∧
      ((r.status = 0 ∧ r.err = "" ∧ (r.out = parser.print ∨ r.out = parser.mVersion ++ "\n")) ∨
        (r.status = -1 ∧ r.out = "" ∧
          ∃ what ∈ complaints ++ objections ++ ["Input file can't be opened.","Output file can't be opened."],
            r.err = "Something went wrong:" ++ "\n" ++ what ++ "\n")) := by
  cases read : parseArgs (name :: words) with
  | error h =>
    rcases refusedRun v files read with ⟨out,ran,texts⟩ | ⟨what,mem,ran⟩
    · exact ⟨_,ran,rfl,.inl ⟨rfl,rfl,texts⟩⟩
    · exact ⟨_,ran,rfl,.inr ⟨rfl,rfl,what,List.mem_append_left _ mem,rfl⟩⟩
  | ok args =>
    obtain ⟨what,ran,texts⟩ := mainUnopened read (closed args read)
    refine ⟨_,ran,rfl,.inr ⟨rfl,rfl,what,List.mem_append_right _ ?_,rfl⟩⟩
    rcases texts with rfl | rfl
    · exact List.mem_cons_self
    · exact List.mem_cons_of_mem _ List.mem_cons_self

theorem nothingChangedEmpty : ∃ r, main desk (fun _ => none) packLine = .ok r ∧ r.files = (fun _ => none) ∧
    ((r.status = 0 ∧ r.err = "" ∧ (r.out = parser.print ∨ r.out = parser.mVersion ++ "\n")) ∨
      (r.status = -1 ∧ r.out = "" ∧
        ∃ what ∈ complaints ++ objections ++ ["Input file can't be opened.","Output file can't be opened."],
          r.err = "Something went wrong:" ++ "\n" ++ what ++ "\n")) :=
  nothingChanged desk _ _ _ (fun args read opens => by
    cases Except.ok.inj (packLineRead.symm.trans read)
    exact absurd opens.there (by decide))

theorem foreignThrown {file : Bytes} (foreign : file.length < fileHeaderSize ∨ file.take 5 ≠ correctSignature) :
    ∃ what, decompressFile file = .error (.invalidFileHeader what) := by
  rcases Nat.lt_or_ge file.length fileHeaderSize with short | long
  · exact ⟨_,shortThrown short⟩
  · exact ⟨_,unsignedThrown long (foreign.resolve_left (Nat.not_lt.mpr long))⟩

section Apart
variable {v : Volume ι} {files : Files ι} {argv : List Word} {args : ArgsT} {file : Bytes}
  (accepted : parseArgs argv = .ok args)
  (opens : Opens v files args) (there : files (v.place args.inputFilename) = some file)
  (apart : v.place args.inputFilename ≠ v.place args.outputFilename)
include accepted opens there apart

theorem unpackRun (mode : args.mode = .decompress) :
    ((∃ r, main v files argv = .ok r) ↔
      (file.length < fileHeaderSize ∨ file.take 5 ≠ correctSignature) ∨ Usable (rawLengths file)) ∧
    ∀ r, main v files argv = .ok r →
      (r.status = -1 ∧ r.files = put files (v.place args.outputFilename) [] ∧
        (file.length < fileHeaderSize ∨ file.take 5 ≠ correctSignature)) ∨
      (r.status = 0 ∧ fileHeaderSize ≤ file.length ∧ file.take 5 = correctSignature ∧
        ∃ out, r.files = put files (v.place args.outputFilename) out ∧
          out.length = (UInt64.ofNat (fromMemory ((file.drop 5).take 8))).toNat) := by
  obtain ⟨completed,rejected⟩ := mainApart accepted opens there apart
  rw [mode] at completed rejected
  by_cases foreign : file.length < fileHeaderSize ∨ file.take 5 ≠ correctSignature
  · obtain ⟨what,thrown⟩ := foreignThrown foreign
    have ran := rejected what thrown
    refine ⟨⟨fun _ => .inl foreign,fun _ => ⟨_,ran⟩⟩,fun r ran' => ?_⟩
    cases Except.ok.inj (ran.symm.trans ran')
    exact .inl ⟨rfl,rfl,foreign⟩
  · obtain ⟨long,signed⟩ := not_or.mp foreign
    have long := Nat.not_lt.mp long
    have signed := not_not.mp signed
    obtain ⟨runs,usable⟩ := decompressSigned long signed
    by_cases fine : Usable (rawLengths file)
    · obtain ⟨info,out,decoded,extracted⟩ := runs fine
      have ran := completed info out decoded
      refine ⟨⟨fun _ => .inr fine,fun _ => ⟨_,ran⟩⟩,fun r ran' => ?_⟩
      cases Except.ok.inj (ran.symm.trans ran')
      exact .inr ⟨rfl,long,signed,out,rfl,extracted.size.trans (congrArg _ extracted.filesize)⟩
    · have faulted : ∀ r, main v files argv ≠ .ok r := by
        intro r ran
        cases decoded : decompressFile file with
        | ok result => exact fine (usable ⟨result.1,result.2,decoded⟩)
        | error fault =>
          rw [mainOpened accepted opens,runOpened,inputSeen there apart,mode,runMode,decoded] at ran
          cases fault with
          | invalidFileHeader what => exact signedThrowless long signed what decoded
          | assertion => contradiction
          | shift => contradiction
          | index => contradiction
          | diverges => contradiction
      refine ⟨⟨fun ⟨r,ran⟩ => absurd ran (faulted r),fun ends => ?_⟩,fun r ran => absurd ran (faulted r)⟩
      exact absurd (ends.resolve_left foreign) fine

end Apart

theorem unpackRunOverlapped : ∃ r out, main desk (put (fun _ => none) ['b'] overlapped) unpackLine = .ok r ∧
    r.status = 0 ∧
    r.files = put (put (fun _ => none) ['b'] overlapped) ['c'] out ∧ out.length = 3 := by
  obtain ⟨long,signed,usable,filesize⟩ := overlappedRead
  have there : put (fun _ => none) ['b'] overlapped ['b'] = some overlapped := putSelf _ _ _
  have opens : Opens desk (put (fun _ => none) ['b'] overlapped)
    {mode := .decompress, inputFilename := ['b'], outputFilename := ['c']} :=
    ⟨congrArg Option.isSome there,rfl,rfl⟩
  obtain ⟨ends,left⟩ := unpackRun unpackLineRead opens there (by decide) rfl
  obtain ⟨r,ran⟩ := ends.mpr (.inr usable)
  rcases left r ran with ⟨_,_,foreign⟩ | ⟨done,_,_,out,files,size⟩
  · exact absurd foreign (not_or.mpr ⟨Nat.not_lt.mpr long,not_not.mpr signed⟩)
  · exact ⟨r,out,ran,done,files,size.trans (congrArg UInt64.toNat filesize)⟩

section Packed
variable {v : Volume ι} {files : Files ι} {argv : List Word} {args : ArgsT} {file : Bytes}
  (accepted : parseArgs argv = .ok args)
  (opens : Opens v files args) (there : files (v.place args.inputFilename) = some file)
  (apart : v.place args.inputFilename ≠ v.place args.outputFilename)
include accepted opens there apart

theorem packed (mode : args.mode = .compress) {r : Report ι} (ran : main v files argv = .ok r) :
    ∃ info archive, compressFile file = .ok (info,archive) ∧
      r = {files := put files (v.place args.outputFilename) archive, out := printInfo .compress info} := by
  obtain ⟨completed,rejected⟩ := mainApart accepted opens there apart
  rw [mode] at completed rejected
  cases compressed : compressFile file with
  | ok result => exact ⟨_,_,rfl,(Except.ok.inj ((completed result.1 result.2 compressed).symm.trans ran)).symm⟩
  | error fault =>
    rw [mainOpened accepted opens,runOpened,inputSeen there apart,mode,runMode,compressed] at ran
    cases fault with
    | invalidFileHeader what => exact absurd compressed (compressThrowless file what)
    | assertion => contradiction
    | shift => contradiction
    | index => contradiction
    | diverges => contradiction

end Packed

theorem emptyCompressed : ∃ info archive, compressFile [] = .ok (info,archive) := by
  obtain ⟨lengths,read,shaped⟩ := lengthsOf (byteCounts [])
  have fits : ∀ b, (lengths b).toNat ≤ bitSize := by
    intro b
    rcases shaped with ⟨_,rfl⟩ | ⟨root,_,table⟩
    · exact Nat.zero_le _
    · rw [table.absent b rfl]
      exact Nat.zero_le _
  obtain ⟨header,body,info,compressed,_⟩ := archived (by decide) (frequencySpec [] _ _) read fits
  exact ⟨info,_,compressed⟩

theorem sameFile {v : Volume ι} {files : Files ι} {argv : List Word} {args : ArgsT}
    (accepted : parseArgs argv = .ok args)
    (opens : Opens v files args) (same : v.place args.outputFilename = v.place args.inputFilename) :
    (args.mode = .compress → ∃ info archive info', compressFile [] = .ok (info,archive) ∧
      decompressFile archive = .ok (info',[]) ∧
      main v files argv =
        .ok {files := put files (v.place args.inputFilename) archive, out := printInfo .compress info}) ∧
    (args.mode = .decompress → main v files argv =
      .ok (caught (put files (v.place args.inputFilename) []) ("Invalid file header. " ++
        "File header can't be read."))) := by
  have ran := mainOpened accepted opens
  rw [same] at ran
  have seen : (put files (v.place args.inputFilename) [] (v.place args.inputFilename)).getD [] = [] := by
    rw [putSelf]
    rfl
  constructor
  · intro mode
    obtain ⟨info,archive,compressed⟩ := emptyCompressed
    obtain ⟨info',decompressed,_⟩ := tailIgnored (by decide) compressed []
    rw [List.append_nil] at decompressed
    refine ⟨info,archive,info',compressed,decompressed,?_⟩
    simp only [ran,runOpened,seen,mode,runMode,compressed,same,putPut]
  · intro mode
    have thrown : decompressFile [] = .error (invalidFileHeader "File header can't be read.") :=
      shortThrown (by decide)
    simp only [ran,runOpened,seen,mode,runMode,thrown,invalidFileHeader]

def ownPackLine : List Word := [['h'],['-','c','f','o'],['a'],['a']]

def ownUnpackLine : List Word := [['h'],['-','u','f','o'],['a'],['a']]

theorem ownPackLineRead :
    parseArgs ownPackLine = .ok {mode := .compress, inputFilename := ['a'], outputFilename := ['a']} := rfl

theorem ownUnpackLineRead :
    parseArgs ownUnpackLine = .ok {mode := .decompress, inputFilename := ['a'], outputFilename := ['a']} :=
    rfl

theorem sameFileDesk : (∃ info archive info', compressFile [] = .ok (info,archive) ∧
    decompressFile archive = .ok (info',[]) ∧
      main desk (deskFiles threeBytes) ownPackLine =
        .ok {files := put (deskFiles threeBytes) ['a'] archive, out := printInfo .compress info}) ∧
    main desk (deskFiles threeBytes) ownUnpackLine =
      .ok (caught (put (deskFiles threeBytes) ['a'] [])
        ("Invalid file header. " ++ "File header can't be read.")) := by
  have opens : ∀ mode, Opens desk (deskFiles threeBytes)
      {mode := mode, inputFilename := ['a'], outputFilename := ['a']} := fun mode => ⟨rfl,rfl,rfl⟩
  exact ⟨(sameFile ownPackLineRead (opens _) rfl).1 rfl,(sameFile ownUnpackLineRead (opens _) rfl).2 rfl⟩

theorem restored {v : Volume ι} {files : Files ι} {argv : List Word} {args : ArgsT} {file archive : Bytes}
    {info : CompressionInfo}
    (short : file.length < 2^64) (compressed : compressFile file = .ok (info,archive))
    (accepted : parseArgs argv = .ok args)
    (mode : args.mode = .decompress) (opens : Opens v files args)
    (there : files (v.place args.inputFilename) = some archive)
    (apart : v.place args.inputFilename ≠ v.place args.outputFilename) : ∃ info', main v files argv =
      .ok {files := put files (v.place args.outputFilename) file, out := printInfo .decompress info'} ∧
        info'.originalFileLength = info.originalFileLength := by
  obtain ⟨info',decompressed,same⟩ := tailIgnored short compressed []
  rw [List.append_nil] at decompressed
  have ran := (mainApart accepted opens there apart).1 info' file
  rw [mode] at ran
  exact ⟨info',ran decompressed,same⟩

end HuffmanArchiver.Program
