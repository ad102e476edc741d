import HuffmanArchiver.DecimalLiterals
import HuffmanArchiver.ParserRuns

/-! `parse_args` of `main.cpp`, and the command lines that it accepts. -/
namespace HuffmanArchiver.CommandLine
open Machine Argparse DecimalLiterals ParserRuns

inductive ModeT where
  | compress
  | decompress
  deriving DecidableEq, Repr

structure ArgsT where
  mode : ModeT := .compress
  inputFilename : Word
  outputFilename : Word
  deriving DecidableEq, Repr

def parser : ArgumentParser :=
  ArgumentParser.create "huffman_impl decoder" "1.0"
    |>.addArgument [['-','c']] (fun a =>
      ((a.help "Compression mode").defaultValue (.boolean false)).implicitValue (.boolean true))
    |>.addArgument [['-','u']] (fun a =>
      ((a.help "Decompression mode").defaultValue (.boolean false)).implicitValue (.boolean true))
    |>.addArgument [['-','f'],['-','-','f','i','l','e']] (fun a => (a.help "Input file").required)
    |>.addArgument [['-','o'],['-','-','o','u','t','p','u','t']] (fun a => (a.help "Output file").required)

def castString : Value → Option Word
  | .string s => some s
  | .boolean _ => none

def castBool : Value → Option Bool
  | .boolean b => some b
  | .string _ => none

def collectArgs (parser : ArgumentParser) : Parse ArgsT := do
  let inputFilename ← parser.get castString ['-','f']
  let outputFilename ← parser.get castString ['-','o']
  let compressionMode ← parser.get castBool ['-','c']
  let decompressionMode ← parser.get castBool ['-','u']
  if !(compressionMode ^^ decompressionMode) then .error (.exception "You must choose exactly one mode.")
  else .ok {
    mode := if compressionMode then .compress else .decompress
    inputFilename := inputFilename
    outputFilename := outputFilename}

def parseArgs (argv : List Word) : Parse ArgsT := do
  let parser ← parser.parseArgs argv
  collectArgs parser

inductive Use where
  | compress
  | decompress
  | file (path : Word)
  | output (path : Word)
  deriving DecidableEq, Repr

inductive SpellsLetters : List Char → List Word → List Use → List Word → Prop where
  | nil {rest : List Word} : SpellsLetters [] rest [] rest
  | compress {letters : List Char} {rest rest' : List Word} {uses : List Use}
      (onward : SpellsLetters letters rest uses rest') :
        SpellsLetters ('c' :: letters) rest (.compress :: uses) rest'
  | decompress {letters : List Char} {rest rest' : List Word} {uses : List Use}
      (onward : SpellsLetters letters rest uses rest') :
        SpellsLetters ('u' :: letters) rest (.decompress :: uses) rest'
  | file {letters : List Char} {path : Word} {rest rest' : List Word} {uses : List Use}
      (positional : Positional path)
      (onward : SpellsLetters letters rest uses rest') :
        SpellsLetters ('f' :: letters) (path :: rest) (.file path :: uses) rest'
  | output {letters : List Char} {path : Word} {rest rest' : List Word} {uses : List Use}
      (positional : Positional path)
      (onward : SpellsLetters letters rest uses rest') :
        SpellsLetters ('o' :: letters) (path :: rest) (.output path :: uses) rest'

inductive Spells : List Word → List Use → Prop where
  | nil : Spells [] []
  | file {path : Word} {rest : List Word} {uses : List Use} (positional : Positional path)
      (onward : Spells rest uses) :
      Spells (['-','-','f','i','l','e'] :: path :: rest) (.file path :: uses)
  | output {path : Word} {rest : List Word} {uses : List Use} (positional : Positional path)
      (onward : Spells rest uses) :
      Spells (['-','-','o','u','t','p','u','t'] :: path :: rest) (.output path :: uses)
  | letters {c : Char} {letters : List Char} {rest rest' : List Word} {uses uses' : List Use}
      (spelled : SpellsLetters (c :: letters) rest uses rest') (onward : Spells rest' uses') :
      Spells (('-' :: c :: letters) :: rest) (uses ++ uses')

def ModeT.use : ModeT → Use
  | compress => .compress
  | decompress => .decompress

theorem parserMap : parser.mArgumentMap = [(['-','-','f','i','l','e'],4),(['-','-','h','e','l','p'],0),
    (['-','-','o','u','t','p','u','t'],5),(['-','-','v','e','r','s','i','o','n'],1),
    (['-','c'],2),(['-','f'],4),(['-','h'],0),
    (['-','o'],5),(['-','u'],3),(['-','v'],1)] := rfl

theorem parserPlain : Plain parser := by
  have all : ∀ a ∈ parser.mOptionalArguments, a.mIsUsed = false ∧ a.mValues = [] ∧ a.mIsRepeatable = false ∧
      (a.mNumArgs = 0 ∨ (a.mNumArgs = 1 ∧ a.mDefaultValue = none)) := by decide
  exact fun a ha => ⟨(all a ha).1,(all a ha).2.1,(all a ha).2.2.1,(all a ha).2.2.2⟩

theorem namesFound {word : Word} {i : ℕ} (found : parser.find word = some i) : (word,i) ∈ parser.mArgumentMap := by
  obtain ⟨front,back,split,_⟩ := List.lookup_eq_some_iff.mp found
  rw [split]
  simp

theorem valueTaken {a : Argument} {rest rest' : List Word} {v : Option Value} (one : a.mNumArgs = 1)
    (takes : Takes a rest v rest') :
    ∃ path, Positional path ∧ rest = path :: rest' ∧ v = some (.string path) := by
  cases takes with
  | flag zero => omega
  | value _ positional => exact ⟨_,(positionalIff _).mp positional,rfl,rfl⟩

theorem flagTaken {a : Argument} {rest rest' : List Word} {v : Option Value} (zero : a.mNumArgs = 0)
    (takes : Takes a rest v rest') :
    v = a.mImplicitValue ∧ rest' = rest := by
  cases takes with
  | flag _ => exact ⟨rfl,rfl⟩
  | value one _ => omega

def useOf (e : Entry) : Option Use :=
  match e.position, e.value with
  | 2, some (.boolean true) => some .compress
  | 3, some (.boolean true) => some .decompress
  | 4, some (.string path) => some (.file path)
  | 5, some (.string path) => some (.output path)
  | _, _ => none

def Use.position : Use → ℕ
  | compress => 2
  | decompress => 3
  | file _ => 4
  | output _ => 5

theorem usePosition {e : Entry} {use : Use} (said : useOf e = some use) : use.position = e.position := by
  unfold useOf at said
  split at said <;> cases said <;> exact Eq.symm ‹_›

theorem usesPositions {es : List Entry} {uses : List Use} (same : es.map useOf = uses.map some) :
    uses.map Use.position = positions es := by
  induction es generalizing uses with
  | nil =>
    cases List.map_eq_nil_iff.mp same.symm
    rfl
  | cons e es ih =>
    cases uses with
    | nil => contradiction
    | cons use uses =>
      obtain ⟨first,rest⟩ := List.cons.inj same
      rw [List.map_cons,positions,List.map_cons,usePosition first,ih rest]
      rfl

theorem placedUse (use : Use) : (use.position = 2 → use = .compress) ∧ (use.position = 3 → use = .decompress) ∧
    (use.position = 4 → ∃ path, use = .file path) ∧ (use.position = 5 → ∃ path, use = .output path) := by
  cases use <;> simp [Use.position]

theorem useLater (use : Use) : 1 < use.position := by cases use <;> simp [Use.position]

theorem letterSound {c : Char} {i : ℕ} {a : Argument} {rest rest' : List Word} {v : Option Value}
    (found : parser.find ['-',c] = some i)
    (there : parser.mOptionalArguments[i]? = some a) (takes : Takes a rest v rest') (own : 1 < i) (name : Word) :
    ∃ use, useOf ⟨i,name,v⟩ = some use ∧ ∀ {letters uses rest''}, SpellsLetters letters rest' uses rest'' →
      SpellsLetters (c :: letters) rest (use :: uses) rest'' := by
  have named := namesFound found
  rw [parserMap] at named
  simp only [List.mem_cons,Prod.mk.injEq,List.cons.injEq,List.not_mem_nil,or_false,reduceCtorEq,and_false,
    false_and,false_or,
    true_and,and_true] at named
  rcases named with ⟨rfl,rfl⟩ | ⟨rfl,rfl⟩ | ⟨rfl,rfl⟩ | ⟨rfl,rfl⟩ | ⟨rfl,rfl⟩ | ⟨rfl,rfl⟩
  · cases Option.some.inj there
    obtain ⟨rfl,rfl⟩ := flagTaken rfl takes
    exact ⟨.compress,rfl,.compress⟩
  · cases Option.some.inj there
    obtain ⟨path,positional,rfl,rfl⟩ := valueTaken rfl takes
    exact ⟨.file path,rfl,.file positional⟩
  · omega
  · cases Option.some.inj there
    obtain ⟨path,positional,rfl,rfl⟩ := valueTaken rfl takes
    exact ⟨.output path,rfl,.output positional⟩
  · cases Option.some.inj there
    obtain ⟨rfl,rfl⟩ := flagTaken rfl takes
    exact ⟨.decompress,rfl,.decompress⟩
  · omega

theorem lettersSound {letters : List Char} {rest rest' : List Word} {es : List Entry}
    (taken : Letters parser letters rest es rest')
    (own : ∀ e ∈ es, 1 < e.position) : ∃ uses, es.map useOf = uses.map some ∧
      SpellsLetters letters rest uses rest' := by
  induction taken with
  | nil => exact ⟨[],rfl,.nil⟩
  | cons found there takes _ ih =>
    obtain ⟨uses,same,spelled⟩ := ih (fun e he => own e (List.mem_cons_of_mem _ he))
    obtain ⟨use,said,spells⟩ := letterSound found there takes (own _ List.mem_cons_self) _
    exact ⟨use :: uses,by rw [List.map_cons,List.map_cons,said,same],spells spelled⟩

theorem readsSound {words : List Word} {es : List Entry} (reads : Reads parser words es)
    (own : ∀ e ∈ es, 1 < e.position) :
    ∃ uses, es.map useOf = uses.map some ∧ Spells words uses := by
  induction reads with
  | nil => exact ⟨[],rfl,.nil⟩
  | @named word i a rest rest' v es dashed found later there takes onward ih =>
    obtain ⟨uses,same,spelled⟩ := ih (fun e he => own e (List.mem_cons_of_mem _ he))
    have short : ∀ c, word = ['-',c] → ∃ uses, (⟨i,word,v⟩ :: es : List Entry).map useOf = uses.map some ∧
      Spells (word :: rest) uses := by
      rintro c rfl
      obtain ⟨use,said,spells⟩ := letterSound found there takes later ['-',c]
      exact ⟨use :: uses,by rw [List.map_cons,List.map_cons,said,same],.letters (spells .nil) spelled⟩
    have named := namesFound found
    rw [parserMap] at named
    simp only [List.mem_cons,Prod.mk.injEq,List.not_mem_nil,or_false] at named
    rcases named with ⟨rfl,rfl⟩ | ⟨rfl,rfl⟩ | ⟨rfl,rfl⟩ | ⟨rfl,rfl⟩ | ⟨rfl,rfl⟩ | ⟨rfl,rfl⟩ | ⟨rfl,rfl⟩ |
      ⟨rfl,rfl⟩ | ⟨rfl,rfl⟩ | ⟨rfl,rfl⟩
    · cases Option.some.inj there
      obtain ⟨path,positional,rfl,rfl⟩ := valueTaken rfl takes
      exact ⟨.file path :: uses,by rw [List.map_cons,List.map_cons,same]; rfl,.file positional spelled⟩
    · omega
    · cases Option.some.inj there
      obtain ⟨path,positional,rfl,rfl⟩ := valueTaken rfl takes
      exact ⟨.output path :: uses,by rw [List.map_cons,List.map_cons,same]; rfl,.output positional spelled⟩
    · omega
    · exact short _ rfl
    · exact short _ rfl
    · omega
    · exact short _ rfl
    · exact short _ rfl
    · omega
  | compound dashed unnamed dash taken onward ih =>
    obtain ⟨uses,same,spelled⟩ := lettersSound taken (fun e he => own e (List.mem_append_left _ he))
    obtain ⟨uses',same',spelled'⟩ := ih (fun e he => own e (List.mem_append_right _ he))
    exact ⟨uses ++ uses',by rw [List.map_append,List.map_append,same,same'],.letters spelled spelled'⟩

theorem lettersComplete {letters : List Char} {rest rest' : List Word} {uses : List Use}
    (spelled : SpellsLetters letters rest uses rest') : ∃ es, Letters parser letters rest es rest' ∧
      es.map useOf = uses.map some ∧ ∀ c ∈ letters.head?, c ∈ ['c','u','f','o'] := by
  induction spelled with
  | nil => exact ⟨[],.nil,rfl,by simp⟩
  | compress _ ih =>
    obtain ⟨es,taken,same,_⟩ := ih
    exact ⟨_,.cons rfl rfl (.flag rfl) taken,by rw [List.map_cons,List.map_cons,same]; rfl,by simp⟩
  | decompress _ ih =>
    obtain ⟨es,taken,same,_⟩ := ih
    exact ⟨_,.cons rfl rfl (.flag rfl) taken,by rw [List.map_cons,List.map_cons,same]; rfl,by simp⟩
  | file positional _ ih =>
    obtain ⟨es,taken,same,_⟩ := ih
    exact ⟨_,.cons rfl rfl (.value rfl ((positionalIff _).mpr positional)) taken,
      by rw [List.map_cons,List.map_cons,same]; rfl,by simp⟩
  | output positional _ ih =>
    obtain ⟨es,taken,same,_⟩ := ih
    exact ⟨_,.cons rfl rfl (.value rfl ((positionalIff _).mpr positional)) taken,
      by rw [List.map_cons,List.map_cons,same]; rfl,by simp⟩

theorem lettersDashed {c : Char} (own : c ∈ ['c','u','f','o']) (letters : List Char) :
    c ≠ '-' ∧ isPositional ('-' :: c :: letters) = false := by
  simp only [List.mem_cons,List.not_mem_nil,or_false] at own
  rcases own with rfl | rfl | rfl | rfl <;> exact ⟨by decide,rfl⟩

theorem readsComplete {words : List Word} {uses : List Use} (spells : Spells words uses) :
    ∃ es, Reads parser words es ∧ es.map useOf = uses.map some := by
  induction spells with
  | nil => exact ⟨[],.nil,rfl⟩
  | file positional _ ih =>
    obtain ⟨es,reads,same⟩ := ih
    exact ⟨_,.named (i := 4) rfl rfl (by decide) rfl (.value rfl ((positionalIff _).mpr positional)) reads,
      by rw [List.map_cons,List.map_cons,same]; rfl⟩
  | output positional _ ih =>
    obtain ⟨es,reads,same⟩ := ih
    exact ⟨_,.named (i := 5) rfl rfl (by decide) rfl (.value rfl ((positionalIff _).mpr positional)) reads,
      by rw [List.map_cons,List.map_cons,same]; rfl⟩
  | @letters c letters rest rest' uses uses' spelled _ ih =>
    obtain ⟨es',reads,same'⟩ := ih
    obtain ⟨es,taken,same,first⟩ := lettersComplete spelled
    obtain ⟨dash,dashed⟩ := lettersDashed (first c rfl) letters
    have both : (es ++ es').map useOf = (uses ++ uses').map some := by
      rw [List.map_append,List.map_append,same,same']
    cases letters with
    | nil =>
      -- a single letter is the name of an argument
      cases taken with
      | cons found there takes onward =>
        cases onward
        have later := usesPositions same
        cases uses with
        | nil => contradiction
        | cons use uses =>
          have own := useLater use
          rw [(List.cons.inj later).1] at own
          exact ⟨_,.named dashed found own there takes reads,both⟩
    | cons d letters =>
      have unnamed : parser.find ('-' :: c :: d :: letters) = none := by
        cases found : parser.find ('-' :: c :: d :: letters) with
        | none => rfl
        | some i =>
          have named := namesFound found
          rw [parserMap] at named
          simp [dash] at named
      exact ⟨_,.compound dashed unnamed dash taken reads,both⟩

section Recorded
variable {es : List Entry} (distinct : (positions es).Nodup)
include distinct

theorem validated : (recorded parser es).validateAll parser.mArgumentMap = .ok () ↔
    0 ∉ positions es ∧ 1 ∉ positions es ∧ 4 ∈ positions es ∧ 5 ∈ positions es := by
  have refused : ∀ i a, parser.mOptionalArguments[i]? = some a → a.validate = .ok () →
    (∀ e, (recordUse a e).validate ≠ .ok ()) →
      (Valid (recorded parser es) i ↔ i ∉ positions es) := by
    intro i a there fresh used
    rw [Valid,lookAt distinct there (fun b => b.validate = .ok ())]
    simp [fresh,used]
  have needed : ∀ i a, parser.mOptionalArguments[i]? = some a → a.validate ≠ .ok () →
    (∀ e, (recordUse a e).validate = .ok ()) →
      (Valid (recorded parser es) i ↔ i ∈ positions es) := by
    intro i a there fresh used
    rw [Valid,lookAt distinct there (fun b => b.validate = .ok ())]
    simp [fresh,used,positions]
  have free : ∀ i a, parser.mOptionalArguments[i]? = some a → a.validate = .ok () →
    (∀ e, (recordUse a e).validate = .ok ()) →
      Valid (recorded parser es) i := by
    intro i a there fresh used
    rw [Valid,lookAt distinct there (fun b => b.validate = .ok ())]
    by_cases inside : i ∈ positions es
    · obtain ⟨e,he,at_i⟩ := List.mem_map.mp inside
      exact .inr ⟨e,he,at_i,used e⟩
    · exact .inl ⟨inside,fresh⟩
  have help := refused 0 _ rfl rfl (by intro e same; contradiction)
  have version := refused 1 _ rfl rfl (by intro e same; contradiction)
  have compress := free 2 _ rfl rfl (fun e => rfl)
  have decompress := free 3 _ rfl rfl (fun e => rfl)
  have file := needed 4 _ rfl (by intro same; contradiction) (fun e => rfl)
  have output := needed 5 _ rfl (by intro same; contradiction) (fun e => rfl)
  rw [validateAllIff,parserMap]
  simp only [List.forall_mem_cons,List.not_mem_nil,help,version,compress,decompress,file,output,
    false_imp_iff,implies_true,and_true,
    true_and]
  constructor
  · rintro ⟨f,h,o,v,_⟩
    exact ⟨h,v,f,o⟩
  · rintro ⟨h,v,f,o⟩
    exact ⟨f,h,o,v,f,h,o,v⟩

theorem pathGot {i : ℕ} {a : Argument} {name : Word} (found : parser.find name = some i)
    (there : parser.mOptionalArguments[i]? = some a) (fresh : a.mValues = [])
    (undefaulted : a.mDefaultValue = none) {path : Word} :
    (recorded parser es).get castString name = .ok path ↔ ∃ e ∈ es, e.position = i ∧
      e.value = some (.string path) := by
  have unset : a.get castString ≠ .ok path := by simp [Argument.get,fresh,undefaulted]
  rw [getAt distinct found there]
  simp only [unset,and_false,false_or]
  refine exists_congr (fun e => and_congr_right (fun _ => and_congr_right (fun _ => ?_)))
  simp only [Argument.get,recordUse,fresh,List.nil_append,List.head?_cons]
  rcases e.value with _ | _ | s
  · simp
  · simp [castString]
  · simp [castString]

theorem modeGot {i : ℕ} {a : Argument} {name : Word} (found : parser.find name = some i)
    (there : parser.mOptionalArguments[i]? = some a) (fresh : a.mValues = [])
    (defaulted : a.mDefaultValue = some (.boolean false))
    (set : ∀ e ∈ es, e.position = i → e.value = some (.boolean true)) {b : Bool} :
    (recorded parser es).get castBool name = .ok b ↔ (b = true ↔ i ∈ positions es) := by
  have unset : a.get castBool = .ok false := by simp [Argument.get,fresh,defaulted,castBool]
  rw [getAt distinct found there]
  by_cases inside : i ∈ positions es
  · obtain ⟨e,he,here⟩ := List.mem_map.mp inside
    have got : ∀ e ∈ es, e.position = i → (recordUse a e).get castBool = .ok true := by
      intro e he here
      simp [Argument.get,recordUse,fresh,set e he here,castBool]
    simp only [inside,not_true_eq_false,false_and,false_or,iff_true]
    constructor
    · rintro ⟨e,he,here,same⟩
      exact (Except.ok.inj ((got e he here).symm.trans same)).symm
    · rintro rfl
      exact ⟨e,he,here,got e he here⟩
  · have none_there : ¬ ∃ e ∈ es, e.position = i ∧ (recordUse a e).get castBool = .ok b := by
      rintro ⟨e,he,here,_⟩
      exact inside (List.mem_map.mpr ⟨e,he,here⟩)
    simp only [inside,not_false_eq_true,true_and,unset,Except.ok.injEq,none_there,or_false,iff_false,
      Bool.not_eq_true]
    exact eq_comm

end Recorded

theorem useValue {e : Entry} {use : Use} (said : useOf e = some use) :
    (e.position = 2 ∨ e.position = 3 → e.value = some (.boolean true)) ∧
      ∀ path, (use = .file path ↔ e.position = 4 ∧ e.value = some (.string path)) ∧
        (use = .output path ↔ e.position = 5 ∧ e.value = some (.string path)) := by
  unfold useOf at said
  split at said <;> cases said <;> simp_all

section Said
variable {es : List Entry} {uses : List Use} (same : es.map useOf = uses.map some)
include same

theorem usesMem (use : Use) : use ∈ uses ↔ ∃ e ∈ es, useOf e = some use := by
  have inside : some use ∈ uses.map some ↔ use ∈ uses := by simp
  rw [← inside,← same,List.mem_map]

theorem entrySays {e : Entry} (he : e ∈ es) : ∃ use ∈ uses, useOf e = some use := by
  have inside : useOf e ∈ uses.map some := by
    rw [← same]
    exact List.mem_map_of_mem he
  obtain ⟨use,mem,said⟩ := List.mem_map.mp inside
  exact ⟨use,mem,said.symm⟩

theorem flagsSet {i : ℕ} (flag : i = 2 ∨ i = 3) : ∀ e ∈ es, e.position = i → e.value = some (.boolean true) := by
  rintro e he rfl
  obtain ⟨use,_,said⟩ := entrySays same he
  exact (useValue said).1 flag

theorem fileSaid (path : Word) : (∃ e ∈ es, e.position = 4 ∧ e.value = some (.string path)) ↔
    .file path ∈ uses := by
  rw [usesMem same]
  constructor
  · rintro ⟨e,he,here,value⟩
    obtain ⟨use,_,said⟩ := entrySays same he
    exact ⟨e,he,by rw [said,(((useValue said).2 path).1.mpr ⟨here,value⟩)]⟩
  · rintro ⟨e,he,said⟩
    exact ⟨e,he,((useValue said).2 path).1.mp rfl⟩

theorem outputSaid (path : Word) : (∃ e ∈ es, e.position = 5 ∧ e.value = some (.string path)) ↔
    .output path ∈ uses := by
  rw [usesMem same]
  constructor
  · rintro ⟨e,he,here,value⟩
    obtain ⟨use,_,said⟩ := entrySays same he
    exact ⟨e,he,by rw [said,(((useValue said).2 path).2.mpr ⟨here,value⟩)]⟩
  · rintro ⟨e,he,said⟩
    exact ⟨e,he,((useValue said).2 path).2.mp rfl⟩

theorem positionSaid (i : ℕ) : i ∈ positions es ↔ ∃ use ∈ uses, use.position = i := by
  rw [← usesPositions same,List.mem_map]

end Said

theorem usesSettled {uses : List Use} (distinct : (uses.map Use.position).Nodup) (args : ArgsT) :
    uses.Perm [args.mode.use,.file args.inputFilename,.output args.outputFilename] ↔
      .file args.inputFilename ∈ uses ∧ .output args.outputFilename ∈ uses ∧
        (args.mode = .compress ↔ .compress ∈ uses) ∧ (args.mode = .decompress ↔ .decompress ∈ uses) := by
  constructor
  · intro perm
    refine ⟨perm.mem_iff.mpr (by simp),perm.mem_iff.mpr (by simp),?_,?_⟩
    · rw [perm.mem_iff]
      cases args.mode <;> simp [ModeT.use]
    · rw [perm.mem_iff]
      cases args.mode <;> simp [ModeT.use]
  · rintro ⟨file,output,compress,decompress⟩
    have wanted : [args.mode.use,.file args.inputFilename,.output args.outputFilename].Nodup := by
      cases args.mode <;> simp [ModeT.use]
    refine (List.perm_ext_iff_of_nodup distinct.of_map wanted).mpr (fun use => ?_)
    cases use with
    | compress =>
      rw [← compress]
      cases args.mode <;> simp [ModeT.use]
    | decompress =>
      rw [← decompress]
      cases args.mode <;> simp [ModeT.use]
    | file path =>
      constructor
      · intro inside
        rw [List.inj_on_of_nodup_map distinct inside file rfl]
        simp
      · intro inside
        have named : path = args.inputFilename := by
          cases mode : args.mode <;> simpa [mode,ModeT.use] using inside
        rwa [named]
    | output path =>
      constructor
      · intro inside
        rw [List.inj_on_of_nodup_map distinct inside output rfl]
        simp
      · intro inside
        have named : path = args.outputFilename := by
          cases mode : args.mode <;> simpa [mode,ModeT.use] using inside
        rwa [named]

theorem modeChosen (compression decompression : Bool) (mode : ModeT) :
    ((compression ^^ decompression) = true ∧ (if compression then .compress else .decompress : ModeT) = mode) ↔
      (mode = .compress ↔ compression = true) ∧ (mode = .decompress ↔ decompression = true) := by
  cases compression <;> cases decompression <;> cases mode <;> simp

theorem collectedIff (p : ArgumentParser) (args : ArgsT) : collectArgs p = .ok args ↔ ∃ compression decompression,
    p.get castString ['-','f'] = .ok args.inputFilename ∧ p.get castString ['-','o'] = .ok args.outputFilename ∧
    p.get castBool ['-','c'] = .ok compression ∧ p.get castBool ['-','u'] = .ok decompression ∧
    (compression ^^ decompression) = true ∧ (if compression then .compress else .decompress : ModeT) =
      args.mode := by
  simp only [collectArgs,goesOnIff]
  constructor
  · rintro ⟨input,file,output,named,compression,first,decompression,second,last⟩
    split at last
    · contradiction
    · rename_i one
      cases Except.ok.inj last
      exact ⟨compression,decompression,file,named,first,second,by simpa using one,rfl⟩
  · rintro ⟨compression,decompression,file,named,first,second,one,mode⟩
    refine ⟨_,file,_,named,_,first,_,second,?_⟩
    rw [one,mode]
    rfl

theorem finished {es : List Entry} {uses : List Use} (distinct : (positions es).Nodup)
    (same : es.map useOf = uses.map some)
    (args : ArgsT) : collectArgs (recorded parser es) = .ok args ↔
      uses.Perm [args.mode.use,.file args.inputFilename,.output args.outputFilename] := by
  have distinct' := distinct
  rw [← usesPositions same] at distinct'
  have compressing : 2 ∈ positions es ↔ .compress ∈ uses := by
    rw [positionSaid same]
    exact ⟨fun ⟨use,mem,at_use⟩ => (placedUse use).1 at_use ▸ mem,fun mem => ⟨_,mem,rfl⟩⟩
  have decompressing : 3 ∈ positions es ↔ .decompress ∈ uses := by
    rw [positionSaid same]
    exact ⟨fun ⟨use,mem,at_use⟩ => (placedUse use).2.1 at_use ▸ mem,fun mem => ⟨_,mem,rfl⟩⟩
  have first : parser.find ['-','c'] = some 2 := rfl
  have second : parser.find ['-','u'] = some 3 := rfl
  have input : parser.find ['-','f'] = some 4 := rfl
  have output : parser.find ['-','o'] = some 5 := rfl
  rw [collectedIff,usesSettled distinct',pathGot distinct input rfl rfl rfl,pathGot distinct output rfl rfl
    rfl,fileSaid same,
    outputSaid same]
  simp only [modeGot distinct first rfl rfl rfl (flagsSet same (.inl rfl)),modeGot distinct second rfl rfl
    rfl (flagsSet same (.inr rfl)),
    modeChosen,compressing,decompressing]
  constructor
  · rintro ⟨compression,decompression,file,output,first,second,mode,mode'⟩
    exact ⟨file,output,mode.trans first,mode'.trans second⟩
  · rintro ⟨file,output,mode,mode'⟩
    exact ⟨decide (args.mode = .compress),decide (args.mode = .decompress),file,output,
      by simpa using mode,by simpa using mode',
      by simp,by simp⟩

theorem ownArguments {es : List Entry} (help : 0 ∉ positions es) (version : 1 ∉ positions es) :
    ∀ e ∈ es, 1 < e.position := by
  intro e he
  have inside := List.mem_map_of_mem (f := Entry.position) he
  have first : e.position ≠ 0 := fun zero => help (zero ▸ inside)
  have second : e.position ≠ 1 := fun one => version (one ▸ inside)
  omega

theorem parseInternal (name : Word) (words : List Word) :
    parser.parseArgsInternal (name :: words) = (recorded parser []).parseLoop words.length words := by
  rw [ArgumentParser.parseArgsInternal,if_neg]
  · rfl
  · decide

theorem parsedIff (name : Word) (words : List Word) (p : ArgumentParser) :
    parser.parseArgs (name :: words) = .ok p ↔
    ∃ es, Reads parser words es ∧ (positions es).Nodup ∧ p = recorded parser es ∧
      p.validateAll parser.mArgumentMap = .ok () := by
  have start : (positions []).Nodup := List.nodup_nil
  simp only [ArgumentParser.parseArgs,goesOnIff,parseInternal,loopSpec parserPlain (le_refl _) start,
    List.nil_append]
  constructor
  · rintro ⟨p',⟨es,reads,distinct,rfl⟩,_,valid,last⟩
    cases Except.ok.inj last
    rw [recordedMap] at valid
    exact ⟨es,reads,distinct,rfl,valid⟩
  · rintro ⟨es,reads,distinct,rfl,valid⟩
    refine ⟨_,⟨es,reads,distinct,rfl⟩,(),?_,rfl⟩
    rwa [recordedMap]

theorem acceptedIff (name : Word) (words : List Word) (args : ArgsT) : parseArgs (name :: words) = .ok args ↔
    ∃ uses, Spells words uses ∧ uses.Perm [args.mode.use,.file args.inputFilename,.output args.outputFilename] := by
  simp only [parseArgs,goesOnIff,parsedIff]
  constructor
  · rintro ⟨p,⟨es,reads,distinct,rfl,valid⟩,got⟩
    obtain ⟨help,version,_,_⟩ := (validated distinct).mp valid
    obtain ⟨uses,same,spells⟩ := readsSound reads (ownArguments help version)
    exact ⟨uses,spells,(finished distinct same args).mp got⟩
  · rintro ⟨uses,spells,perm⟩
    obtain ⟨es,reads,same⟩ := readsComplete spells
    have places := perm.map Use.position
    rw [usesPositions same] at places
    have distinct : (positions es).Nodup := by
      rw [places.nodup_iff]
      cases args.mode <;> simp [ModeT.use,Use.position]
    refine ⟨_,⟨es,reads,distinct,rfl,(validated distinct).mpr ?_⟩,(finished distinct same args).mpr perm⟩
    simp only [places.mem_iff]
    cases args.mode <;> simp [ModeT.use,Use.position]

def objections : List String := ["-f: required.","-o: required.","-h: expected 0 argument(s). 1 provided.",
  "-v: expected 0 argument(s). 1 provided.","You must choose exactly one mode."]

theorem parserIndexed : Indexed parser := by
  intro name i found
  have all : ∀ entry ∈ parser.mArgumentMap, entry.2 < parser.mOptionalArguments.length := by decide
  exact all _ (namesFound found)

theorem lettersNamed {letters : List Char} {rest rest' : List Word} {es : List Entry}
    (taken : Letters parser letters rest es rest') :
    ∀ e ∈ es, (e.position = 0 → e.name = ['-','h']) ∧ (e.position = 1 → e.name = ['-','v']) := by
  induction taken with
  | nil => simp
  | cons found there takes _ ih =>
    intro e he
    rcases List.mem_cons.mp he with rfl | inside
    · have named := namesFound found
      rw [parserMap] at named
      simp at named
      constructor
      · rintro rfl
        simpa using named
      · rintro rfl
        simpa using named
    · exact ih e inside

theorem readsNamed {words : List Word} {es : List Entry} (reads : Reads parser words es) :
    ∀ e ∈ es, (e.position = 0 → e.name = ['-','h']) ∧ (e.position = 1 → e.name = ['-','v']) := by
  induction reads with
  | nil => simp
  | named _ _ later _ _ _ ih =>
    intro e he
    rcases List.mem_cons.mp he with rfl | inside
    · exact ⟨fun zero => by simp only at zero; omega,fun one => by simp only at one; omega⟩
    · exact ih e inside
  | compound _ _ _ taken _ ih =>
    intro e he
    rcases List.mem_append.mp he with inside | inside
    · exact lettersNamed taken e inside
    · exact ih e inside

theorem parserArguments : parser.mOptionalArguments = [
    {mNames := [['-','h'],['-','-','h','e','l','p']], mHelp := "shows help message and exits",
      mNumArgs := 0, mIsOptional := true},
    {mNames := [['-','v'],['-','-','v','e','r','s','i','o','n']],
      mHelp := "prints version information and exits", mNumArgs := 0,
      mIsOptional := true},
    {mNames := [['-','c']], mHelp := "Compression mode", mDefaultValue := some (.boolean false),
      mDefaultValueRepr := "false",
      mImplicitValue := some (.boolean true), mNumArgs := 0, mIsOptional := true},
    {mNames := [['-','u']], mHelp := "Decompression mode", mDefaultValue := some (.boolean false),
      mDefaultValueRepr := "false",
      mImplicitValue := some (.boolean true), mNumArgs := 0, mIsOptional := true},
    {mNames := [['-','f'],['-','-','f','i','l','e']], mHelp := "Input file", mIsOptional := true,
      mIsRequired := true},
    {mNames := [['-','o'],['-','-','o','u','t','p','u','t']], mHelp := "Output file", mIsOptional := true,
      mIsRequired := true}] := rfl

theorem refusals {i : ℕ} {a : Argument} (there : parser.mOptionalArguments[i]? = some a) (h : Halt) :
    (a.validate = .error h → h = .exception "-f: required." ∨ h = .exception "-o: required.") ∧
    ∀ e, (recordUse a e).validate = .error h → i < 2 ∧
      h = .exception (String.ofList e.name ++ ": expected " ++ toString 0 ++ " argument(s). " ++
        toString 1 ++ " provided.") := by
  rw [parserArguments] at there
  match i,there with
  | 0,there => cases Option.some.inj there; simp [Argument.validate,recordUse,eq_comm]
  | 1,there => cases Option.some.inj there; simp [Argument.validate,recordUse,eq_comm]
  | 2,there => cases Option.some.inj there; simp [Argument.validate,recordUse]
  | 3,there => cases Option.some.inj there; simp [Argument.validate,recordUse]
  | 4,there => cases Option.some.inj there; simp [Argument.validate,recordUse,eq_comm]; exact .inl
  | 5,there => cases Option.some.inj there; simp [Argument.validate,recordUse,eq_comm]; exact .inr

theorem invalidHalts {es : List Entry} (distinct : (positions es).Nodup)
    (named : ∀ e ∈ es, (e.position = 0 → e.name = ['-','h']) ∧ (e.position = 1 → e.name = ['-','v'])) {h : Halt}
    (halted : (recorded parser es).validateAll parser.mArgumentMap = .error h) :
      ∃ what ∈ objections, h = .exception what := by
  obtain ⟨entry,inside,failed⟩ := validateHalts halted
  have within : ∀ entry ∈ parser.mArgumentMap, entry.2 < parser.mOptionalArguments.length := by decide
  have there := List.getElem?_eq_getElem (within entry inside)
  have refused := refusals there h
  rcases argumentAt distinct there with ⟨_,here⟩ | ⟨e,he,at_i,here⟩
  · rw [here] at failed
    rcases failed with missing | ⟨a,same,wrong⟩
    · contradiction
    · cases Option.some.inj same
      rcases refused.1 wrong with rfl | rfl
      · exact ⟨_,by simp [objections],rfl⟩
      · exact ⟨_,by simp [objections],rfl⟩
  · rw [here] at failed
    rcases failed with missing | ⟨a,same,wrong⟩
    · contradiction
    · cases Option.some.inj same
      obtain ⟨front,rfl⟩ := refused.2 e wrong
      rcases Nat.lt_or_ge e.position 1 with zero | one
      · rw [(named e he).1 (by omega)]
        exact ⟨"-h: expected 0 argument(s). 1 provided.",by simp [objections],rfl⟩
      · rw [(named e he).2 (by omega)]
        exact ⟨"-v: expected 0 argument(s). 1 provided.",by simp [objections],rfl⟩

theorem modeObjected {es : List Entry} {uses : List Use} (distinct : (positions es).Nodup)
    (same : es.map useOf = uses.map some)
    (file : 4 ∈ positions es) (output : 5 ∈ positions es) {h : Halt}
    (halted : collectArgs (recorded parser es) = .error h) :
    ∃ what ∈ objections, h = .exception what := by
  have input : ∃ path, (recorded parser es).get castString ['-','f'] = .ok path := by
    obtain ⟨use,mem,at_use⟩ := (positionSaid same 4).mp file
    obtain ⟨path,rfl⟩ := (placedUse use).2.2.1 at_use
    exact ⟨path,(pathGot distinct (i := 4) rfl rfl rfl rfl).mpr ((fileSaid same path).mpr mem)⟩
  have target : ∃ path, (recorded parser es).get castString ['-','o'] = .ok path := by
    obtain ⟨use,mem,at_use⟩ := (positionSaid same 5).mp output
    obtain ⟨path,rfl⟩ := (placedUse use).2.2.2 at_use
    exact ⟨path,(pathGot distinct (i := 5) rfl rfl rfl rfl).mpr ((outputSaid same path).mpr mem)⟩
  have first : parser.find ['-','c'] = some 2 := rfl
  have second : parser.find ['-','u'] = some 3 := rfl
  obtain ⟨path,input⟩ := input
  obtain ⟨path',target⟩ := target
  have compression := (modeGot distinct first rfl rfl rfl (flagsSet same (.inl rfl))
    (b := decide (2 ∈ positions es))).mpr (by simp)
  have decompression := (modeGot distinct second rfl rfl rfl (flagsSet same (.inr rfl))
    (b := decide (3 ∈ positions es))).mpr (by simp)
  simp only [collectArgs,input,target,compression,decompression,goesOn] at halted
  split at halted
  · exact ⟨"You must choose exactly one mode.",by simp [objections],(Except.error.inj halted).symm⟩
  · contradiction

theorem refusedHalts {name : Word} {words : List Word} {h : Halt} (refused : parseArgs (name :: words) = .error h) :
    h = .exit parser.print ∨ h = .exit (parser.mVersion ++ "\n") ∨ ∃ what ∈ complaints ++ objections,
      h = .exception what := by
  have start : (positions []).Nodup := List.nodup_nil
  rw [parseArgs,haltsIff] at refused
  rcases refused with refused | ⟨p,parsed,refused⟩
  · rw [ArgumentParser.parseArgs,haltsIff,parseInternal] at refused
    rcases refused with halted | ⟨p,went,halted⟩
    · rcases loopHalts parserPlain parserIndexed (le_refl _) start halted with help | version | ⟨what,mem,same⟩
      · exact .inl help
      · exact .inr (.inl version)
      · exact .inr (.inr ⟨what,List.mem_append_left _ mem,same⟩)
    · obtain ⟨es,reads,distinct,rfl⟩ := (loopSpec parserPlain (le_refl _) start).mp went
      rcases haltsIff.mp halted with halted | ⟨_,_,last⟩
      · rw [recordedMap] at halted
        obtain ⟨what,mem,same⟩ := invalidHalts distinct (readsNamed reads) halted
        exact .inr (.inr ⟨what,List.mem_append_right _ mem,same⟩)
      · contradiction
  · obtain ⟨es,reads,distinct,rfl,valid⟩ := (parsedIff name words p).mp parsed
    obtain ⟨help,version,file,output⟩ := (validated distinct).mp valid
    obtain ⟨uses,same,_⟩ := readsSound reads (ownArguments help version)
    obtain ⟨what,mem,same⟩ := modeObjected distinct same file output refused
    exact .inr (.inr ⟨what,List.mem_append_right _ mem,same⟩)

end HuffmanArchiver.CommandLine
