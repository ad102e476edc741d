import HuffmanArchiver.Program

/-! Output streams that run out of room. Nothing in the source asks an output stream for its state. Here a
stream takes what its file has room for and refuses the rest, and what it has taken stays there when an
exception ends the function that wrote it. The program itself is written out once more over such streams;
of its buffers and tables the definitions above are used. -/
namespace HuffmanArchiver.OutputStreams
open Machine Codes CodeIo FastIo Headers Huffman Outcomes Argparse CommandLine Program RoundTrip Archives

/-- `std::ofstream`: once it has refused a byte it is bad, and takes nothing more. -/
structure OStream where
  taken : Bytes := []
  room : ℕ
  bad : Bool := false

def OStream.write (s : OStream) (block : Bytes) : OStream :=
  if s.bad = true then s
  else {taken := s.taken ++ block.take s.room, room := s.room-block.length, bad := decide (s.room < block.length)}

abbrev Emit (α : Type) := EStateM Fault OStream α

def undisturbed {α : Type} : Exec α → Emit α
  | .ok a => pure a
  | .error fault => throw fault

instance : MonadLift (Except Fault) (EStateM Fault OStream) := ⟨undisturbed⟩

def send (block : Bytes) : Emit Unit := modify (fun s => s.write block)

/-- What a call of the writer has flushed goes to the stream before the next one. -/
def ByteWriter.passed (call : Exec ByteWriter) : Emit ByteWriter := do
  let w ← call
  send w.out
  return {w with out := []}

def CodeWriter.passed (call : Exec CodeWriter) : Emit CodeWriter := do
  let w ← call
  send w.writer.out
  return {w with writer := {w.writer with out := []}}

def whileReadTo {σ : Type} (body : σ → UInt8 → Emit σ) : (fuel : ℕ) → ByteReader → σ → Emit σ
  | 0, _, _ => throw .diverges
  | fuel+1, r, s => do
      let (more,byte,r) ← r.read
      if more = true then
        let s ← body s byte
        whileReadTo body fuel r s
      else return s

def encodeBodyTo (input : IStream) (codes : CodeTable) : Emit UInt64 := do
  let writer ← whileReadTo (fun w byte => CodeWriter.passed (w.write (codes byte))) (input.rest.length+1)
    {input := input} {writer := {}}
  let writer ← CodeWriter.passed writer.flush
  let written := writer.writtenBytes
  let out ← writer.destroy
  send out
  return written

def decodeLoopTo {bits : ℕ} (nesting : NestingFactor) :
    (filesize : ℕ) → CodeReader bits → ByteWriter → Emit (CodeReader bits × ByteWriter)
  | 0, reader, writer => return (reader,writer)
  | filesize+1, reader, writer => do
      let (byte,reader) ← reader.readNext nesting
      let writer ← ByteWriter.passed (writer.writeByte byte)
      decodeLoopTo nesting filesize reader writer

def decodeBodyTo (input : IStream) (lengths : CodeLengthTable) (codes : CodeTable) (filesize : UInt64) :
    Emit UInt64 := do
  let reader ← CodeReader.create decodeBits codes input
  let (reader,writer) ← decodeLoopTo (chooseNesting decodeBits lengths) filesize.toNat reader {}
  let out ← writer.destroy
  send out
  return reader.readBytes

def compressFileTo (file : Bytes) : Emit CompressionInfo := do
  let input : IStream := {data := file, pos := 0}
  let (freq,filesize) ← buildFrequencyTable input (fun _ => 0) 0
  let lengths ← HuffmanTree.buildCodeLengths freq
  let codes ← constructCodes lengths
  let header : FileHeader := {filesize := filesize, lengths := lengths}
  send (writeFileHeader header)
  let compressedSize ← encodeBodyTo (rewind input) codes
  return ⟨filesize,compressedSize,UInt64.ofNat fileHeaderSize⟩

def decompressFileTo (file : Bytes) : Emit CompressionInfo := do
  let (header,input) ← readFileHeader {data := file, pos := 0}
  let codes ← constructCodes header.lengths
  let readBytes ← decodeBodyTo input header.lengths codes header.filesize
  return ⟨header.filesize,readBytes,UInt64.ofNat fileHeaderSize⟩

def runModeTo : ModeT → Bytes → Emit CompressionInfo
  | .compress => compressFileTo
  | .decompress => decompressFileTo

section Program
variable {ι : Type} [DecidableEq ι]

def runOpenedTo (v : Volume ι) (room : ι → ℕ) (args : ArgsT) (opened : Files ι) : Exec (Report ι) :=
  let output := v.place args.outputFilename
  match (runModeTo args.mode ((opened (v.place args.inputFilename)).getD [])).run {room := room output} with
  | .ok info stream => .ok {files := put opened output stream.taken, out := printInfo args.mode info}
  | .error (.invalidFileHeader what) stream => .ok (caught (put opened output stream.taken) what)
  | .error fault _ => .error fault

def mainTo (v : Volume ι) (room : ι → ℕ) (files : Files ι) (argv : List Word) : Exec (Report ι) :=
  match parseArgs argv with
  | .error (.exit out) => .ok {files := files, out := out}
  | .error (.exception what) => .ok (caught files what)
  | .error (.fault fault) => .error fault
  | .ok args =>
      match openFiles v args files with
      | .error (.exit out) => .ok {files := files, out := out}
      | .error (.exception what) => .ok (caught files what)
      | .error (.fault fault) => .error fault
      | .ok opened => runOpenedTo v room args opened

end Program

/-! One block after the other is one long block. -/

theorem writeWrite (s : OStream) (a b : Bytes) : (s.write a).write b = s.write (a ++ b) := by
  by_cases bad : s.bad = true
  · simp only [OStream.write,if_pos bad]
  · by_cases beyond : s.room < a.length
    · have beyond' : s.room < (a ++ b).length := by rw [List.length_append]; omega
      have front : (a ++ b).take s.room = a.take s.room := List.take_append_of_le_length beyond.le
      have rest : s.room - a.length = s.room - (a ++ b).length := by omega
      simp only [OStream.write,if_neg bad,beyond,beyond',front,rest,decide_true,if_true]
    · have front : (a ++ b).take s.room = a.take s.room ++ b.take (s.room-a.length) := List.take_append
      have rest : s.room - a.length - b.length = s.room - (a ++ b).length := by rw [List.length_append]; omega
      have limit : s.room - a.length < b.length ↔ s.room < (a ++ b).length := by rw [List.length_append]; omega
      simp [OStream.write,bad,beyond,front,rest,limit]

theorem writeNothing (s : OStream) : s.write [] = s := by
  by_cases bad : s.bad = true
  · simp [OStream.write,bad]
  · obtain ⟨taken,room,bad'⟩ := s
    simp at bad
    simp [OStream.write,bad]

/-! What a writer has flushed earlier makes no difference to what it does next. -/

def ByteWriter.onto (start : Bytes) (w : ByteWriter) : ByteWriter := {w with out := start ++ w.out}

def CodeWriter.onto (start : Bytes) (w : CodeWriter) : CodeWriter :=
  {w with writer := ByteWriter.onto start w.writer}

section Bind
variable {α β γ δ : Type} {x : Exec α} {f : α → Exec β} {h : β → δ}

theorem bindOnto {x' : Exec γ} {g : α → γ} {f' : γ → Exec δ} (first : x' = x.map g)
    (each : ∀ a, f' (g a) = (f a).map h) :
    x' >>= f' = (x >>= f).map h := by
  rw [first]
  cases x with
  | error fault => rfl
  | ok a => exact each a

theorem bindSame {f' : α → Exec δ} (each : ∀ a, f' a = (f a).map h) : x >>= f' = (x >>= f).map h := by
  cases x with
  | error fault => rfl
  | ok a => exact each a

end Bind

section Onto
variable (start : Bytes)

theorem flushOnto (w : ByteWriter) : (ByteWriter.onto start w).flush = w.flush.map (ByteWriter.onto start) := by
  refine bindSame (fun _ => ?_)
  simp [ByteWriter.onto,Except.map]

theorem copyOnto (w : ByteWriter) (data : Bytes) :
    (ByteWriter.onto start w).copy data = (w.copy data).map (ByteWriter.onto start) :=
  bindSame (fun _ => rfl)

theorem writeByteOnto (w : ByteWriter) (byte : UInt8) :
    (ByteWriter.onto start w).writeByte byte = (w.writeByte byte).map (ByteWriter.onto start) := by
  have pnt : (ByteWriter.onto start w).bufferPnt = w.bufferPnt := rfl
  unfold ByteWriter.writeByte
  rw [pnt]
  split
  · exact bindOnto (flushOnto start w) (fun w => copyOnto start w [byte])
  · exact copyOnto start w [byte]

theorem writeOnto (w : ByteWriter) (data : Bytes) :
    (ByteWriter.onto start w).write data = (w.write data).map (ByteWriter.onto start) := by
  have pnt : (ByteWriter.onto start w).bufferPnt = w.bufferPnt := rfl
  unfold ByteWriter.write
  rw [pnt]
  split
  · refine bindSame (fun _ => bindOnto (copyOnto start w _) (fun w => ?_))
    exact bindOnto (flushOnto start w) (fun w => copyOnto start w _)
  · exact copyOnto start w data

theorem blockOnto (w : CodeWriter) :
    (CodeWriter.onto start w).writeBufferBlock = w.writeBufferBlock.map (CodeWriter.onto start) := by
  refine bindSame (fun block => ?_)
  have written : (CodeWriter.onto start w).writeBlock block.toUInt32 =
      (w.writeBlock block.toUInt32).map (CodeWriter.onto start) :=
    bindOnto (writeOnto start w.writer _) (fun _ => rfl)
  exact bindOnto written (fun _ => bindSame (fun _ => rfl))

theorem appendOnto (w : CodeWriter) (block : UInt32) (aLen : UInt8) :
    (CodeWriter.onto start w).append block aLen = (w.append block aLen).map (CodeWriter.onto start) :=
  bindSame (fun _ => rfl)

theorem highOnto (w : CodeWriter) (code : CodeT) :
    (CodeWriter.onto start w).writeHigh code = (w.writeHigh code).map (Prod.map id (CodeWriter.onto start)) := by
  unfold CodeWriter.writeHigh
  split
  · refine bindSame (fun high => bindOnto (appendOnto start w _ _) (fun w => bindSame (fun data => ?_)))
    exact bindOnto (blockOnto start w) (fun _ => rfl)
  · rfl

theorem codeOnto (w : CodeWriter) (code : CodeT) :
    (CodeWriter.onto start w).write code = (w.write code).map (CodeWriter.onto start) := by
  refine bindSame (fun code => bindOnto (highOnto start w code) (fun (code,w) => bindSame (fun high => ?_)))
  refine bindOnto (appendOnto start w _ _) (fun w => ?_)
  have len : (CodeWriter.onto start w).len = w.len := rfl
  rw [len]
  split
  · exact blockOnto start w
  · rfl

theorem flushBytesOnto (n : ℕ) (w : CodeWriter) :
    CodeWriter.flushBytes n (CodeWriter.onto start w) = (CodeWriter.flushBytes n w).map
      (CodeWriter.onto start) := by
  induction n generalizing w with
  | zero => rfl
  | succ n ih =>
    refine bindSame (fun byte => bindSame (fun buffer => bindOnto (g := CodeWriter.onto start) ?_ ih))
    exact bindOnto (writeByteOnto start w.writer _) (fun _ => rfl)

theorem codeFlushOnto (w : CodeWriter) : (CodeWriter.onto start w).flush = w.flush.map (CodeWriter.onto start) :=
  bindOnto (flushBytesOnto start _ w) (fun w => bindOnto (flushOnto start w.writer) (fun _ => rfl))

theorem byteDestroyOnto (w : ByteWriter) : (ByteWriter.onto start w).destroy = w.destroy.map (start ++ ·) :=
  bindOnto (flushOnto start w) (fun _ => rfl)

theorem destroyOnto (w : CodeWriter) : (CodeWriter.onto start w).destroy = w.destroy.map (start ++ ·) :=
  bindOnto (codeFlushOnto start w) (fun w => bindOnto (flushOnto start w.writer) (fun _ => rfl))

end Onto

def Follows {α β : Type} (x : EStateM.Result Fault OStream α) (y : Exec β) (result : β → α)
    (stream : β → OStream) : Prop :=
  match y with
  | .ok b => x = .ok (result b) (stream b)
  | .error fault => ∃ s, x = .error fault s

section Follows
variable {α β γ δ : Type} {s : OStream} {result : δ → γ} {stream : δ → OStream}

theorem followsBind {x : Emit α} {y : Exec β} {f : α → Emit γ} {g : β → Exec δ} {between : β → α}
    {middle : β → OStream}
    (first : Follows (x.run s) y between middle)
    (each : ∀ b, Follows ((f (between b)).run (middle b)) (g b) result stream) :
    Follows ((x >>= f).run s) (y >>= g) result stream := by
  rw [EStateM.run_bind]
  cases y with
  | error fault =>
    obtain ⟨s',stopped⟩ := first
    rw [stopped]
    exact ⟨s',rfl⟩
  | ok b =>
    rw [show x.run s = .ok (between b) (middle b) from first]
    exact each b

theorem followsLift {y : Exec β} {f : β → Emit γ} {g : β → Exec δ}
    (each : ∀ b, Follows ((f b).run s) (g b) result stream) :
    Follows ((liftM y >>= f).run s) (y >>= g) result stream := by
  have first : Follows ((liftM y : Emit β).run s) y id (fun _ => s) := by
    cases y with
    | error fault => exact ⟨s,rfl⟩
    | ok b => rfl
  exact followsBind first each

theorem followsSend {block : Bytes} {f : Unit → Emit γ} {y : Exec δ}
    (rest : Follows ((f ()).run (s.write block)) y result stream) :
    Follows ((send block >>= f).run s) y result stream := rest

end Follows

def ByteWriter.emptied (w : ByteWriter) : ByteWriter := {w with out := []}

def CodeWriter.emptied (w : CodeWriter) : CodeWriter := {w with writer := ByteWriter.emptied w.writer}

theorem byteOntoEmptied (w : ByteWriter) : ByteWriter.onto w.out (ByteWriter.emptied w) = w := by
  simp [ByteWriter.onto,ByteWriter.emptied]

theorem ontoEmptied (w : CodeWriter) : CodeWriter.onto w.writer.out (CodeWriter.emptied w) = w := by
  simp [CodeWriter.onto,CodeWriter.emptied,ByteWriter.onto,ByteWriter.emptied]

section Writers
variable (s : OStream)

theorem passedFollows {σ : Type} (out : σ → Bytes) {emptied : σ → σ} {onto : Bytes → σ → σ}
    (ontoOut : ∀ w, onto (out w) (emptied w) = w) (outOnto : ∀ start w, out (onto start w) = start ++ out w)
    (emptiedOnto : ∀ start w, emptied (onto start w) = emptied w) {f : σ → Exec σ}
    (same : ∀ start w, f (onto start w) = (f w).map (onto start)) (w : σ) :
    Follows ((do let w ← f (emptied w); send (out w); return emptied w : Emit σ).run (s.write (out w))) (f w)
      emptied (fun w => s.write (out w)) := by
  have later := same (out w) (emptied w)
  rw [ontoOut] at later
  rw [later]
  cases f (emptied w) with
  | error fault => exact ⟨_,rfl⟩
  | ok w' =>
    change EStateM.Result.ok (emptied w') ((s.write (out w)).write (out w')) =
      .ok (emptied (onto (out w) w')) (s.write (out (onto (out w) w')))
    rw [writeWrite,outOnto,emptiedOnto]

theorem bytePassedFollows {f : ByteWriter → Exec ByteWriter}
    (same : ∀ start w, f (ByteWriter.onto start w) = (f w).map (ByteWriter.onto start)) (w : ByteWriter) :
    Follows ((ByteWriter.passed (f (ByteWriter.emptied w))).run (s.write w.out)) (f w)
      ByteWriter.emptied (fun w => s.write w.out) :=
  passedFollows s ByteWriter.out byteOntoEmptied (fun _ _ => rfl) (fun _ _ => rfl) same w

theorem codePassedFollows {f : CodeWriter → Exec CodeWriter}
    (same : ∀ start w, f (CodeWriter.onto start w) = (f w).map (CodeWriter.onto start)) (w : CodeWriter) :
    Follows ((CodeWriter.passed (f (CodeWriter.emptied w))).run (s.write w.writer.out)) (f w)
      CodeWriter.emptied (fun w => s.write w.writer.out) :=
  passedFollows s (fun w : CodeWriter => w.writer.out) ontoEmptied (fun _ _ => rfl) (fun _ _ => rfl) same w

theorem whileReadFollows (codes : CodeTable) (fuel : ℕ) (r : ByteReader) (w : CodeWriter) :
    Follows ((whileReadTo (fun w byte => CodeWriter.passed (w.write (codes byte))) fuel r
        (CodeWriter.emptied w)).run (s.write w.writer.out))
      (ByteReader.whileRead (fun w byte => CodeWriter.write w (codes byte)) fuel r w)
      CodeWriter.emptied (fun w => s.write w.writer.out) := by
  induction fuel generalizing r w with
  | zero => exact ⟨_,rfl⟩
  | succ fuel ih =>
    refine followsLift (fun (more,byte,r) => ?_)
    cases more with
    | false => rfl
    | true => exact followsBind (codePassedFollows s (f := (CodeWriter.write · (codes byte)))
        (codeOnto · · _) w) (ih r)

theorem decodeLoopFollows {bits : ℕ} (nesting : NestingFactor) (count : ℕ) (r : CodeReader bits) (w : ByteWriter) :
    Follows ((decodeLoopTo nesting count r (ByteWriter.emptied w)).run (s.write w.out))
      (decodeLoop nesting count r w)
      (Prod.map id ByteWriter.emptied) (fun p => s.write p.2.out) := by
  induction count generalizing r w with
  | zero => rfl
  | succ count ih =>
    refine followsLift (fun (byte,r) => ?_)
    exact followsBind (bytePassedFollows s (f := (ByteWriter.writeByte · byte)) (writeByteOnto · · _) w) (ih r)

theorem sentFollows {α : Type} {start : Bytes} {y whole : Exec Bytes} (same : whole = y.map (start ++ ·)) (a : α) :
    Follows ((do send (← y); return a : Emit α).run (s.write start)) (whole >>= fun out => .ok (a,out))
      Prod.fst (fun p => s.write p.2) := by
  rw [same]
  cases y with
  | error fault => exact ⟨_,rfl⟩
  | ok out =>
    change EStateM.Result.ok a ((s.write start).write out) = _
    rw [writeWrite]

theorem encodeBodyFollows (input : IStream) (start : Bytes) (codes : CodeTable) :
    Follows ((encodeBodyTo input codes).run (s.write start)) (encodeBody input start codes) Prod.fst
      (fun p => s.write p.2) := by
  refine followsBind (whileReadFollows s codes _ {input := input} {writer := {out := start}}) (fun w => ?_)
  refine followsBind (codePassedFollows s (f := CodeWriter.flush) codeFlushOnto w) (fun w => ?_)
  have same := destroyOnto w.writer.out (CodeWriter.emptied w)
  rw [ontoEmptied] at same
  exact sentFollows s same w.writtenBytes

theorem decodeBodyFollows (input : IStream) (lengths : CodeLengthTable) (codes : CodeTable) (filesize : UInt64) :
    Follows ((decodeBodyTo input lengths codes filesize).run s) (decodeBody input [] lengths codes filesize)
      Prod.fst (fun p => s.write p.2) := by
  refine followsLift (fun reader => ?_)
  have looped := decodeLoopFollows s (chooseNesting decodeBits lengths) filesize.toNat reader {}
  rw [writeNothing] at looped
  refine followsBind looped (fun (reader,w) => ?_)
  have same := byteDestroyOnto w.out (ByteWriter.emptied w)
  rw [byteOntoEmptied] at same
  have flushed : (w.flush >>= fun w => .ok (reader.readBytes,w.out)) = w.destroy >>= fun out =>
    .ok (reader.readBytes,out) := by
    rw [ByteWriter.destroy]
    cases w.flush with
    | error fault => rfl
    | ok w => rfl
  change Follows _ (w.flush >>= fun w => .ok (reader.readBytes,w.out)) _ _
  rw [flushed]
  exact sentFollows s same reader.readBytes

end Writers

theorem compressFollows (file : Bytes) (s : OStream) :
    Follows ((compressFileTo file).run s) (compressFile file) Prod.fst (fun p => s.write p.2) := by
  refine followsLift (fun (freq,filesize) => followsLift (fun lengths => followsLift (fun codes => ?_)))
  exact followsSend (followsBind (encodeBodyFollows s (rewind {data := file, pos := 0}) _ codes) (fun _ => rfl))

theorem decompressFollows (file : Bytes) (s : OStream) :
    Follows ((decompressFileTo file).run s) (decompressFile file) Prod.fst (fun p => s.write p.2) := by
  refine followsLift (fun (header,input) => followsLift (fun codes => ?_))
  exact followsBind (decodeBodyFollows s input _ codes _) (fun _ => rfl)

theorem headerThrown {file : Bytes} {fault : Fault}
    (thrown : readFileHeader {data := file, pos := 0} = .error fault)
    (s : OStream) : decompressFile file = .error fault ∧ (decompressFileTo file).run s = .error fault s := by
  have stopped : (decompressFileTo file).run s =
      match readFileHeader {data := file, pos := 0} with
      | .ok (header,input) => (do
          let codes ← constructCodes header.lengths
          let readBytes ← decodeBodyTo input header.lengths codes header.filesize
          return ⟨header.filesize,readBytes,UInt64.ofNat fileHeaderSize⟩ : Emit CompressionInfo).run s
      | .error fault => .error fault s := by
    rw [decompressFileTo,EStateM.run_bind]
    cases readFileHeader {data := file, pos := 0} with
    | error fault => rfl
    | ok result => rfl
  rw [thrown] at stopped
  exact ⟨by rw [decompressFile,thrown]; rfl,stopped⟩

theorem decompressThrown {file : Bytes} {what : String}
    (thrown : decompressFile file = .error (.invalidFileHeader what))
    (s : OStream) : (decompressFileTo file).run s = .error (.invalidFileHeader what) s := by
  rcases Nat.lt_or_ge file.length fileHeaderSize with short | long
  · obtain ⟨same,stopped⟩ := headerThrown (HostileHeader.headerShort short) s
    cases Except.error.inj (same.symm.trans thrown)
    exact stopped
  · by_cases signed : file.take 5 = correctSignature
    · exact absurd thrown (signedThrowless long signed what)
    · obtain ⟨same,stopped⟩ := headerThrown (HostileHeader.headerUnsigned long signed) s
      cases Except.error.inj (same.symm.trans thrown)
      exact stopped

theorem runModeFollows (mode : ModeT) (file : Bytes) (s : OStream) :
    Follows ((runModeTo mode file).run s) (runMode mode file) Prod.fst (fun p => s.write p.2) := by
  cases mode with
  | compress => exact compressFollows file s
  | decompress => exact decompressFollows file s

theorem runModeThrown {mode : ModeT} {file : Bytes} {what : String}
    (thrown : runMode mode file = .error (.invalidFileHeader what))
    (s : OStream) : (runModeTo mode file).run s = .error (.invalidFileHeader what) s := by
  cases mode with
  | compress => exact absurd thrown (compressThrowless file what)
  | decompress => exact decompressThrown thrown s

section Runs
variable {ι : Type} [DecidableEq ι]

def cut (i : ι) (room : ℕ) (r : Report ι) : Report ι :=
  {r with files := fun j => if j = i then (r.files j).map (List.take room) else r.files j}

theorem cutPut (files : Files ι) (i : ι) (data : Bytes) (room : ℕ) :
    (fun j => if j = i then (put files i data j).map (List.take room) else put files i data j) = put files i
      (data.take room) := by
  funext j
  by_cases same : j = i
  · rw [if_pos same,same,putSelf,putSelf]
    rfl
  · rw [if_neg same,putOther _ same,putOther _ same]

theorem runOpenedCut (v : Volume ι) (room : ι → ℕ) (files : Files ι) (args : ArgsT) :
    runOpenedTo v room args (put files (v.place args.outputFilename) []) =
      (runOpened v args (put files (v.place args.outputFilename) [])).map
        (cut (v.place args.outputFilename) (room (v.place args.outputFilename))) := by
  obtain ⟨file,input⟩ : ∃ file, file =
    (put files (v.place args.outputFilename) [] (v.place args.inputFilename)).getD [] := ⟨_,rfl⟩
  have follows := runModeFollows args.mode file {room := room (v.place args.outputFilename)}
  rw [runOpenedTo,runOpened,← input]
  cases ran : runMode args.mode file with
  | ok result =>
    rw [ran] at follows
    rw [show (runModeTo args.mode file).run {room := room (v.place args.outputFilename)} = _ from follows]
    simp [Except.map,cut,cutPut,OStream.write]
  | error fault =>
    cases fault with
    | invalidFileHeader what =>
      rw [runModeThrown ran]
      simp [Except.map,cut,cutPut,caught]
    | _ =>
      rw [ran] at follows
      obtain ⟨stream,stopped⟩ := follows
      rw [stopped]
      rfl

theorem mainToOpened {v : Volume ι} (room : ι → ℕ) {files : Files ι} {argv : List Word} {args : ArgsT}
    (accepted : parseArgs argv = .ok args) (opens : Opens v files args) : mainTo v room files argv =
      (main v files argv).map (cut (v.place args.outputFilename) (room (v.place args.outputFilename))) := by
  have opened := openFilesIff.mpr ⟨opens,rfl⟩
  rw [mainOpened accepted opens,← runOpenedCut]
  simp only [mainTo,accepted,opened]

theorem mainToUnopened {v : Volume ι} (room : ι → ℕ) {files : Files ι} {argv : List Word}
    (closed : ∀ args, parseArgs argv = .ok args → ¬ Opens v files args) :
      mainTo v room files argv = main v files argv := by
  unfold mainTo main
  cases read : parseArgs argv with
  | error h => cases h <;> rfl
  | ok args =>
    rcases unopened (closed args read) with refused | refused
    · simp only [refused]
    · simp only [refused]

theorem unopenedFiles {v : Volume ι} {files : Files ι} {argv : List Word} {r : Report ι}
    (closed : ∀ args, parseArgs argv = .ok args → ¬ Opens v files args) (ran : main v files argv = .ok r) :
      r.files = files := by
  cases read : parseArgs argv with
  | error h =>
    rw [main,read] at ran
    cases h with
    | fault fault => contradiction
    | _ =>
      cases Except.ok.inj ran
      rfl
  | ok args =>
    obtain ⟨what,ran',_⟩ := mainUnopened read (closed args read)
    cases Except.ok.inj (ran'.symm.trans ran)
    rfl

theorem failedEmpty {v : Volume ι} {args : ArgsT} {opened : Files ι} {r : Report ι}
    (ran : runOpened v args opened = .ok r)
    (failed : r.status = -1) : r.files = opened := by
  unfold runOpened at ran
  split at ran
  · cases Except.ok.inj ran
    contradiction
  · cases Except.ok.inj ran
    rfl
  · contradiction

theorem streamUnseen (v : Volume ι) (room : ι → ℕ) (files : Files ι) (argv : List Word) :
    (∀ args, parseArgs argv = .ok args → Opens v files args → mainTo v room files argv =
      (main v files argv).map (cut (v.place args.outputFilename) (room (v.place args.outputFilename)))) ∧
    ((∀ args, parseArgs argv = .ok args → ¬ Opens v files args) → mainTo v room files argv = main v files argv) ∧
    ∀ r, mainTo v room files argv = .ok r → r.status = -1 → r.files = files ∨
      ∃ args, parseArgs argv = .ok args ∧ Opens v files args ∧
        r.files = put files (v.place args.outputFilename) [] := by
  refine ⟨fun args => mainToOpened room,mainToUnopened room,fun r ran failed => ?_⟩
  by_cases opening : ∃ args, parseArgs argv = .ok args ∧ Opens v files args
  · obtain ⟨args,accepted,opens⟩ := opening
    rw [mainToOpened room accepted opens,mainOpened accepted opens] at ran
    cases whole : runOpened v args (put files (v.place args.outputFilename) []) with
    | error fault =>
      rw [whole] at ran
      contradiction
    | ok r' =>
      rw [whole] at ran
      cases Except.ok.inj ran
      refine .inr ⟨args,accepted,opens,?_⟩
      simp only [cut,failedEmpty whole failed,cutPut,List.take_nil]
  · left
    have closed : ∀ args, parseArgs argv = .ok args → ¬ Opens v files args := fun args accepted opens =>
      opening ⟨args,accepted,opens⟩
    rw [mainToUnopened room closed] at ran
    exact unopenedFiles closed ran

theorem streamUnseenDesk : ∃ r, mainTo desk (fun _ => 100) (deskFiles threeBytes) packLine = .ok r ∧ r.status = 0 ∧
    (r.files ['b']).map List.length = some 100 := by
  obtain ⟨info,archive,compressed⟩ := threeBytesCompressed
  have opens : Opens desk (deskFiles threeBytes)
      {mode := .compress, inputFilename := ['a'], outputFilename := ['b']} := ⟨rfl,rfl,rfl⟩
  have whole := (mainApart packLineRead opens rfl (by decide)).1 info archive compressed
  have ran := (streamUnseen desk (fun _ => 100) (deskFiles threeBytes) packLine).1 _ packLineRead opens
  rw [whole] at ran
  refine ⟨_,ran,rfl,?_⟩
  have size := bodySmall (by decide) compressed
  have large : 100 ≤ archive.length := by
    rw [size]
    unfold fileHeaderSize
    omega
  have short : (archive.take 100).length = 100 := List.length_take_of_le large
  change some (archive.take 100).length = some 100
  rw [short]

end Runs

end HuffmanArchiver.OutputStreams
