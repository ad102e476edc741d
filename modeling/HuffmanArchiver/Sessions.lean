import HuffmanArchiver.Program
import HuffmanArchiver.Library.Refinement

/-! Sessions: runs of the program one after the other, while others change files as well. To its owner a file
is a document, the catalog says which, and a session does to the files what it does to the catalog. -/
namespace HuffmanArchiver.Sessions
open Machine Codes HuffmanTree FastIo Headers Huffman RoundTrip Outcomes Archives Argparse CommandLine
  Program Library.Refinement

variable {ι : Type} [DecidableEq ι]

inductive Event (ι : Type) where
  | run (name : Word) (words : List Word)
  | change (i : ι) (contents : Option Bytes)

def step (v : Volume ι) (files : Files ι) : Event ι → Exec (Files ι)
  | .run name words => (main v files (name :: words)).map Report.files
  | .change i contents => .ok (Function.update files i contents)

def Touches (v : Volume ι) (i : ι) : Event ι → Prop
  | .run name words => ∃ args, parseArgs (name :: words) = .ok args ∧ i = v.place args.outputFilename
  | .change j _ => i = j

theorem stepKeeps {v : Volume ι} {files files' : Files ι} {e : Event ι} (ran : step v files e = .ok files') {i : ι}
    (untouched : ¬ Touches v i e) : files' i = files i := by
  cases e with
  | change j contents =>
    cases Except.ok.inj ran
    exact Function.update_of_ne untouched _ _
  | run name words =>
    rw [step] at ran
    cases whole : main v files (name :: words) with
    | error fault =>
      rw [whole] at ran
      contradiction
    | ok r =>
      rw [whole] at ran
      cases Except.ok.inj ran
      cases read : parseArgs (name :: words) with
      | error h =>
        rcases refusedRun v files read with ⟨out,ended,_⟩ | ⟨what,_,ended⟩
        · cases Except.ok.inj (ended.symm.trans whole)
          rfl
        · cases Except.ok.inj (ended.symm.trans whole)
          rfl
      | ok args => exact mainKeeps read whole (fun same => untouched ⟨args,read,same⟩)

theorem sessionKeeps {v : Volume ι} {i : ι} {events : List (Event ι)} {files files' : Files ι}
    (session : events.foldlM (step v) files = .ok files') (untouched : ∀ e ∈ events, ¬ Touches v i e) :
      files' i = files i := by
  induction events generalizing files with
  | nil =>
    cases Except.ok.inj session
    rfl
  | cons e events ih =>
    rw [List.foldlM_cons,bindOk] at session
    obtain ⟨files₁,ran,session⟩ := session
    rw [List.forall_mem_cons] at untouched
    exact (ih session untouched.2).trans (stepKeeps ran untouched.1)

section Survives
variable {v : Volume ι} {files files' : Files ι} {argv argv' : List Word} {args args' : ArgsT}
  {file : Bytes} {r : Report ι}
  {events : List (Event ι)}

theorem archiveSurvives (accepted : parseArgs argv = .ok args) (mode : args.mode = .compress)
    (there : files (v.place args.inputFilename) = some file) (short : file.length < 2^64)
    (apart : v.place args.inputFilename ≠ v.place args.outputFilename) (ran : main v files argv = .ok r)
    (done : r.status = 0)
    (session : events.foldlM (step v) r.files = .ok files')
    (untouched : ∀ e ∈ events, ¬ Touches v (v.place args.outputFilename) e)
    (accepted' : parseArgs argv' = .ok args') (mode' : args'.mode = .decompress)
    (onward : v.place args'.inputFilename = v.place args.outputFilename)
    (apart' : v.place args'.inputFilename ≠ v.place args'.outputFilename)
    (readable : v.readable (v.place args.outputFilename) = true)
    (writable : v.writable (v.place args'.outputFilename) = true) :
    ∃ r' info info', main v files' argv' = .ok r' ∧ r'.status = 0 ∧
      r'.files = put files' (v.place args'.outputFilename) file ∧
      r.out = printInfo .compress info ∧ r'.out = printInfo .decompress info' ∧
        info.originalFileLength.toNat = file.length ∧
      info'.originalFileLength = info.originalFileLength := by
  by_cases opens : Opens v files args
  · obtain ⟨info,archive,compressed,rfl⟩ := packed accepted opens there apart mode ran
    have kept : files' (v.place args.outputFilename) = some archive :=
      (sessionKeeps session untouched).trans (putSelf _ _ _)
    rw [← onward] at kept
    have opens' : Opens v files' args' := by
      refine ⟨?_,?_,writable⟩
      · rw [kept,Option.isSome_some]
      · rw [onward,readable]
    obtain ⟨info',ran',same⟩ := restored short compressed accepted' mode' opens' kept apart'
    obtain ⟨_,_,_,_,of,_,rfl⟩ := archiveForm short compressed
    exact ⟨_,_,info',ran',rfl,rfl,rfl,rfl,of.filesize,same⟩
  · obtain ⟨what,closed,_⟩ := mainUnopened accepted opens
    cases Except.ok.inj (closed.symm.trans ran)
    contradiction

end Survives

theorem archiveSurvivesThreeBytes : ∃ r files' r' info info', main desk (deskFiles threeBytes) packLine = .ok r ∧
    [Event.change ['a'] none,.run ['h'] [['-','v']]].foldlM (step desk) r.files = .ok files' ∧
    main desk files' unpackLine = .ok r' ∧ r'.status = 0 ∧ r'.files = put files' ['c'] threeBytes ∧
    r.out = printInfo .compress info ∧ r'.out = printInfo .decompress info' ∧
      info.originalFileLength.toNat = threeBytes.length ∧
    info'.originalFileLength = info.originalFileLength := by
  obtain ⟨info,archive,compressed⟩ := threeBytesCompressed
  have opens : Opens desk (deskFiles threeBytes)
      {mode := .compress, inputFilename := ['a'], outputFilename := ['b']} := ⟨rfl,rfl,rfl⟩
  have ran := (mainApart packLineRead opens rfl (by decide)).1 info archive compressed
  have version : parseArgs [['h'],['-','v']] = .error (.exit (parser.mVersion ++ "\n")) := rfl
  have untouched : ∀ e ∈ [Event.change ['a'] none,.run ['h'] [['-','v']]], ¬ Touches desk ['b'] e := by
    intro e he
    rcases List.mem_cons.mp he with rfl | he
    · exact fun same : ['b'] = ['a'] => absurd same (by decide)
    · cases List.mem_singleton.mp he
      rintro ⟨args,read,_⟩
      simp [version] at read
  have session : ∀ files, [Event.change ['a'] none,.run ['h'] [['-','v']]].foldlM (step desk) files =
      .ok (Function.update files ['a'] none) := by
    intro files
    simp only [List.foldlM_cons,List.foldlM_nil,step,okBind,main,version]
    rfl
  obtain ⟨r',info,info',rest⟩ :=
    archiveSurvives (v := desk) packLineRead rfl rfl (by decide) (by decide) ran rfl (session _) untouched
    unpackLineRead rfl rfl (by decide) rfl rfl
  exact ⟨_,_,r',info,info',ran,session _,rest⟩

inductive Doc where
  | raw (bytes : Bytes)
  | packed (doc : Doc)

inductive Stands : Doc → Bytes → Prop where
  | raw {bytes : Bytes} : Stands (.raw bytes) bytes
  | packed {doc : Doc} {file archive : Bytes} {info : CompressionInfo} (inner : Stands doc file)
      (short : file.length < 2^64)
      (compressed : compressFile file = .ok (info,archive)) : Stands (.packed doc) archive

abbrev Catalog (ι : Type) := ι → Option Doc

def Catalogs (files : Files ι) (catalog : Catalog ι) : Prop := ∀ i, Option.Rel Stands (catalog i) (files i)

inductive Command (ι : Type) where
  | idle
  | pack (input output : ι)
  | unpack (input output : ι)

def commandOf (v : Volume ι) (argv : List Word) : Command ι :=
  match parseArgs argv with
  | .error _ => .idle
  | .ok args =>
      let input := v.place args.inputFilename
      let output := v.place args.outputFilename
      if v.readable input ∧ v.writable output then
        match args.mode with
        | .compress => .pack input output
        | .decompress => .unpack input output
      else .idle

def carryOut (catalog : Catalog ι) : Command ι → Catalog ι
  | .idle => catalog
  | .pack input output =>
      match catalog input with
      | some doc => Function.update catalog output (some (.packed doc))
      | none => catalog
  | .unpack input output =>
      match catalog input with
      | some (.packed doc) => Function.update catalog output (some doc)
      | _ => catalog

def record (v : Volume ι) (catalog : Catalog ι) : Event ι → Catalog ι
  | .run name words => carryOut catalog (commandOf v (name :: words))
  | .change i contents => Function.update catalog i (contents.map .raw)

def Packable (doc : Doc) : Prop :=
  ∀ file, Stands doc file → file.length < 2^64 ∧ ∀ lengths, buildCodeLengths (byteCounts file) =
    .ok lengths → ∀ b, (lengths b).toNat ≤ 64

def Sensible (catalog : Catalog ι) : Command ι → Prop
  | .idle => True
  | .pack input output => input ≠ output ∧ ∀ doc, catalog input = some doc → Packable doc
  | .unpack input output => input ≠ output ∧ ∀ doc, catalog input = some doc → ∃ inner, doc = .packed inner

def Allowed (v : Volume ι) (catalog : Catalog ι) : Event ι → Prop
  | .run name words => Sensible catalog (commandOf v (name :: words))
  | .change _ _ => True

section Catalog
variable {v : Volume ι} {files : Files ι} {catalog : Catalog ι} (start : Catalogs files catalog)
include start

theorem catalogsUpdate (i : ι) {contents : Option Bytes} {doc : Option Doc}
    (same : Option.Rel Stands doc contents) :
    Catalogs (Function.update files i contents) (Function.update catalog i doc) := by
  intro j
  rcases eq_or_ne j i with rfl | other
  · rwa [Function.update_self,Function.update_self]
  · rw [Function.update_of_ne other,Function.update_of_ne other]
    exact start j

theorem catalogsPut (i : ι) {data : Bytes} {doc : Doc} (stands : Stands doc data) :
    Catalogs (put files i data) (Function.update catalog i (some doc)) := catalogsUpdate start i (.some stands)

omit [DecidableEq ι] in
theorem cataloged (i : ι) : (files i = none ∧ catalog i = none) ∨ ∃ data doc, files i = some data ∧
    catalog i = some doc ∧ Stands doc data := by
  have related := start i
  cases held : files i with
  | none =>
    cases noted : catalog i with
    | none => exact .inl ⟨rfl,rfl⟩
    | some doc =>
      rw [held,noted] at related
      contradiction
  | some data =>
    cases noted : catalog i with
    | none =>
      rw [held,noted] at related
      contradiction
    | some doc =>
      rw [held,noted] at related
      cases related with
      | some stands => exact .inr ⟨data,doc,rfl,rfl,stands⟩

theorem stepPack {argv : List Word} {args : ArgsT} (accepted : parseArgs argv = .ok args)
    (mode : args.mode = .compress)
    (readable : v.readable (v.place args.inputFilename) = true)
    (writable : v.writable (v.place args.outputFilename) = true)
    (sensible : Sensible catalog (.pack (v.place args.inputFilename) (v.place args.outputFilename))) :
    ∃ r, main v files argv = .ok r ∧
      Catalogs r.files (carryOut catalog (.pack (v.place args.inputFilename) (v.place args.outputFilename))) := by
  obtain ⟨apart,packable⟩ := sensible
  rcases cataloged start (v.place args.inputFilename) with ⟨missing,none⟩ | ⟨file,doc,there,some_doc,stands⟩
  · have closed : ¬ Opens v files args := by
      intro opens
      have there := opens.there
      rw [missing] at there
      contradiction
    obtain ⟨what,ran,_⟩ := mainUnopened accepted closed
    simp only [carryOut,none]
    exact ⟨_,ran,start⟩
  · obtain ⟨short,fits⟩ := packable doc some_doc file stands
    obtain ⟨info,archive,compressed⟩ := (compressOkIff short).mpr fits
    have opens : Opens v files args := by
      refine ⟨?_,readable,writable⟩
      rw [there,Option.isSome_some]
    have ran := (mainApart accepted opens there apart).1 info archive
    rw [mode] at ran
    simp only [carryOut,some_doc]
    exact ⟨_,ran compressed,catalogsPut start _ (.packed stands short compressed)⟩

theorem stepUnpack {argv : List Word} {args : ArgsT} (accepted : parseArgs argv = .ok args)
    (mode : args.mode = .decompress)
    (readable : v.readable (v.place args.inputFilename) = true)
    (writable : v.writable (v.place args.outputFilename) = true)
    (sensible : Sensible catalog (.unpack (v.place args.inputFilename) (v.place args.outputFilename))) :
    ∃ r, main v files argv = .ok r ∧
      Catalogs r.files (carryOut catalog (.unpack (v.place args.inputFilename) (v.place args.outputFilename))) := by
  obtain ⟨apart,archives⟩ := sensible
  rcases cataloged start (v.place args.inputFilename) with ⟨missing,none⟩ | ⟨archive,doc,there,some_doc,stands⟩
  · have closed : ¬ Opens v files args := by
      intro opens
      have there := opens.there
      rw [missing] at there
      contradiction
    obtain ⟨what,ran,_⟩ := mainUnopened accepted closed
    simp only [carryOut,none]
    exact ⟨_,ran,start⟩
  · obtain ⟨inner,rfl⟩ := archives doc some_doc
    cases stands with
    | packed within short compressed =>
      have opens : Opens v files args := by
        refine ⟨?_,readable,writable⟩
        rw [there,Option.isSome_some]
      obtain ⟨info',ran,_⟩ := restored short compressed accepted mode opens there apart
      simp only [carryOut,some_doc]
      exact ⟨_,ran,catalogsPut start _ within⟩

end Catalog

theorem stepRefines (v : Volume ι) : Refines (record v) (Allowed v) (step v) Catalogs := by
  intro files catalog e start allowed
  cases e with
  | change i contents =>
    refine ⟨_,rfl,catalogsUpdate start i ?_⟩
    cases contents with
    | none => exact .none
    | some bytes => exact .some .raw
  | run name words =>
    have ends : ∀ {r}, main v files (name :: words) = .ok r → step v files (.run name words) = .ok r.files := by
      intro r ran
      rw [step,ran]
      rfl
    rw [record]
    rw [Allowed] at allowed
    cases read : parseArgs (name :: words) with
    | error h =>
      rw [commandOf,read]
      rcases refusedRun v files read with ⟨out,ran,_⟩ | ⟨what,_,ran⟩
      · exact ⟨_,ends ran,start⟩
      · exact ⟨_,ends ran,start⟩
    | ok args =>
      rw [commandOf,read] at allowed ⊢
      simp only at allowed ⊢
      split
      · rename_i opened
        rw [if_pos opened] at allowed
        cases mode : args.mode with
        | compress =>
          rw [mode] at allowed
          obtain ⟨r,ran,kept⟩ := stepPack start read mode opened.1 opened.2 allowed
          exact ⟨_,ends ran,kept⟩
        | decompress =>
          rw [mode] at allowed
          obtain ⟨r,ran,kept⟩ := stepUnpack start read mode opened.1 opened.2 allowed
          exact ⟨_,ends ran,kept⟩
      · rename_i closed
        have unopened : ¬ Opens v files args := fun opens => closed ⟨opens.readable,opens.writable⟩
        obtain ⟨what,ran,_⟩ := mainUnopened read unopened
        exact ⟨_,ends ran,start⟩

theorem sessionRefines (v : Volume ι) {files : Files ι} {catalog catalog' : Catalog ι} {events : List (Event ι)}
    (start : Catalogs files catalog) (session : Run (record v) (Allowed v) catalog events catalog') :
    ∃ files', events.foldlM (step v) files = .ok files' ∧ Catalogs files' catalog' :=
  refinesRun (stepRefines v) session start

def deskCatalog (data : Bytes) : Catalog Word := fun name => if name = ['a'] then some (.raw data) else none

theorem deskCataloged (data : Bytes) : Catalogs (deskFiles data) (deskCatalog data) := by
  intro name
  unfold deskFiles deskCatalog
  split
  · exact .some .raw
  · exact .none

theorem threeBytesPackable : Packable (.raw threeBytes) := by
  intro file stands
  cases stands
  exact ⟨by decide,fun lengths read => threeBytesFit read⟩

theorem sessionRefinesThreeBytes : ∃ files',
    [Event.run ['h'] packLine.tail,.run ['h'] unpackLine.tail].foldlM (step desk)
    (deskFiles threeBytes) = .ok files' ∧
      Catalogs files' (Function.update (Function.update (deskCatalog threeBytes) ['b']
        (some (.packed (.raw threeBytes)))) ['c']
        (some (.raw threeBytes))) := by
  have pack : commandOf desk packLine = .pack ['a'] ['b'] := rfl
  have unpack : commandOf desk unpackLine = .unpack ['b'] ['c'] := rfl
  have first : Allowed desk (deskCatalog threeBytes) (.run ['h'] packLine.tail) := by
    change Sensible _ (commandOf desk packLine)
    rw [pack]
    refine ⟨by decide,fun doc there => ?_⟩
    cases Option.some.inj there
    exact threeBytesPackable
  have second : Allowed desk (record desk (deskCatalog threeBytes) (.run ['h'] packLine.tail))
    (.run ['h'] unpackLine.tail) := by
    change Sensible _ (commandOf desk unpackLine)
    rw [unpack]
    refine ⟨by decide,fun doc there => ?_⟩
    exact ⟨.raw threeBytes,(Option.some.inj there).symm⟩
  exact sessionRefines desk (deskCataloged threeBytes) (.cons first (.cons second .nil))

end HuffmanArchiver.Sessions
