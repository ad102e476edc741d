import HuffmanArchiver.Machine
import Mathlib.Data.List.Sort

/-! `Argument` and `ArgumentParser` of `argparse.h` as the archiver uses them: every argument is optional
and takes a fixed number of values. A C++ string is the list of its characters; texts that are only
printed are strings. -/
namespace HuffmanArchiver.Argparse
open Machine

abbrev Word := List Char

/-- What ends the program early: `std::exit(0)` after a text, an exception with its text, or a fault. -/
inductive Halt where
  | exit (out : String)
  | exception (what : String)
  | fault (f : Fault)
  deriving DecidableEq, Repr

abbrev Parse (α : Type) := Except Halt α

@[simp] theorem goesOn {α β : Type} (a : α) (f : α → Parse β) : ((Except.ok a : Parse α) >>= f) = f a := rfl

@[simp] theorem halts {α β : Type} (h : Halt) (f : α → Parse β) :
    ((Except.error h : Parse α) >>= f) = .error h := rfl

theorem goesOnIff {α β : Type} {x : Parse α} {f : α → Parse β} {b : β} :
    x >>= f = .ok b ↔ ∃ a, x = .ok a ∧ f a = .ok b := by
  cases x with
  | error h => simp
  | ok a => simp

/-! `is_positional` and `is_decimal_literal`; the labels of the source are functions. -/

def digitAhead (s : Word) : Bool := s.head?.any Char.isDigit

def consumeDigits (s : Word) : Word := s.dropWhile Char.isDigit

def postE (s : Word) : Bool :=
  let s := if s.head? = some '-' ∨ s.head? = some '+' then s.tail else s
  if digitAhead s then (consumeDigits s).isEmpty else false

def exponentPartOpt : Word → Bool
  | [] => true
  | c :: s => if c = 'e' ∨ c = 'E' then postE s else false

def postDecimalPoint (s : Word) : Bool := if digitAhead s then exponentPartOpt (consumeDigits s) else false

def integerPartConsumed : Word → Bool
  | [] => false
  | c :: s =>
      if c = '.' then if digitAhead s then postDecimalPoint s else exponentPartOpt s
      else if c = 'e' ∨ c = 'E' then postE s
      else false

def integerPart (s : Word) : Bool := integerPartConsumed (consumeDigits s)

def isDecimalLiteral : Word → Bool
  | [] => false
  | c :: s =>
      if c = '0' then if s.isEmpty then true else integerPart s
      else if c.isDigit then if (consumeDigits (c :: s)).isEmpty then true else integerPartConsumed
        (consumeDigits (c :: s))
      else if c = '.' then postDecimalPoint s
      else false

def isPositional : Word → Bool
  | [] => true
  | c :: s => if c = '-' then if s.isEmpty then true else isDecimalLiteral s else true

def isOptional (name : Word) : Bool := !isPositional name

inductive Value where
  | boolean (b : Bool)
  | string (s : Word)
  deriving DecidableEq, Repr

def Value.repr : Value → String
  | boolean b => if b then "true" else "false"
  | string s => "\"" ++ String.ofList s ++ "\""

/-- An empty `std::any` is `none`. -/
structure Argument where
  mNames : List Word
  mUsedName : Word := []
  mHelp : String := ""
  mDefaultValue : Option Value := none
  mDefaultValueRepr : String := ""
  mImplicitValue : Option Value := none
  mValues : List (Option Value) := []
  mNumArgs : ℕ := 1
  mIsOptional : Bool
  mIsRequired : Bool := false
  mIsRepeatable : Bool := false
  mIsUsed : Bool := false
  deriving DecidableEq

namespace Argument

def nameLe (lhs rhs : Word) : Prop := if lhs.length = rhs.length then ¬ rhs < lhs else lhs.length < rhs.length

instance : DecidableRel nameLe :=
  fun lhs rhs => inferInstanceAs (Decidable (if lhs.length = rhs.length then _ else _))

def create (names : List Word) : Argument where
  mNames := names.insertionSort nameLe
  mIsOptional := names.any isOptional

def help (a : Argument) (text : String) : Argument := {a with mHelp := text}

def defaultValue (a : Argument) (v : Value) : Argument :=
  {a with mDefaultValueRepr := v.repr, mDefaultValue := some v}

def required (a : Argument) : Argument := {a with mIsRequired := true}

def implicitValue (a : Argument) (v : Value) : Argument := {a with mImplicitValue := some v, mNumArgs := 0}

def nargs (a : Argument) (n : ℕ) : Argument := {a with mNumArgs := n}

def consume (a : Argument) (rest : List Word) (usedName : Word) : Parse (Argument × List Word) :=
  if !a.mIsRepeatable && a.mIsUsed then .error (.exception "Duplicate argument")
  else
    let a := {a with mIsUsed := true, mUsedName := usedName}
    if a.mNumArgs = 0 then .ok ({a with mValues := a.mValues ++ [a.mImplicitValue]},rest)
    else if a.mNumArgs ≤ rest.length then
      if (rest.take a.mNumArgs).any isOptional then .error (.exception "optional argument in parameter sequence")
      else .ok ({a with mValues := a.mValues ++ (rest.take a.mNumArgs).map (fun w => some (.string w))},
        rest.drop a.mNumArgs)
    else if a.mDefaultValue.isSome then .ok (a,rest)
    else .error (.exception "Too few arguments")

def validate (a : Argument) : Parse Unit :=
  if a.mIsOptional then
    if a.mIsUsed && decide (a.mValues.length ≠ a.mNumArgs) && !a.mIsRepeatable && !a.mDefaultValue.isSome then
      .error (.exception (String.ofList a.mUsedName ++ ": expected " ++ toString a.mNumArgs ++ " argument(s). " ++
        toString a.mValues.length ++ " provided."))
    else if !a.mIsUsed && !a.mDefaultValue.isSome && a.mIsRequired then
      .error (.exception (String.ofList (a.mNames.headD []) ++ ": required."))
    else if a.mIsUsed && a.mIsRequired && a.mValues.isEmpty then
      .error (.exception (String.ofList a.mUsedName ++ ": no value provided."))
    else .ok ()
  else if decide (a.mValues.length ≠ a.mNumArgs) && !a.mDefaultValue.isSome then
    .error (.exception ((if a.mUsedName = [] then "" else String.ofList a.mUsedName ++ ": ") ++
      toString a.mNumArgs ++
      " argument(s) expected. " ++ toString a.mValues.length ++ " provided."))
  else .ok ()

def get {α : Type} (cast : Value → Option α) (a : Argument) : Parse α :=
  match a.mValues.head?.or (a.mDefaultValue.map some) with
  | some v => match v.bind cast with
    | some x => .ok x
    | none => .error (.exception "bad any_cast")
  | none => .error (.exception "No value provided")

def getArgumentsLength (a : Argument) : ℕ := (a.mNames.map (fun s => s.length+1)).sum

def print (width : ℕ) (a : Argument) : String :=
  let names := a.mNames.flatMap (fun s => s ++ [' '])
  let gap := if a.mHelp = "" then "" else " "
  String.ofList (names ++ List.replicate (width-names.length) ' ') ++ "\t" ++ a.mHelp ++
    (if a.mDefaultValue.isSome then gap ++ "[default: " ++ a.mDefaultValueRepr ++ "]"
      else if a.mIsRequired then gap ++ "[required]" else "") ++ "\n"

end Argument

/-- An iterator into `mOptionalArguments` is the position of its element. -/
structure ArgumentParser where
  mProgramName : String
  mVersion : String
  mOptionalArguments : List Argument := []
  mArgumentMap : List (Word × ℕ) := []
  deriving DecidableEq

/-- `std::map::insert_or_assign` on the entries in the order of their keys. -/
def insertOrAssign (name : Word) (i : ℕ) : List (Word × ℕ) → List (Word × ℕ)
  | [] => [(name,i)]
  | (key,j) :: rest =>
      if name = key then (key,i) :: rest
      else if name < key then (name,i) :: (key,j) :: rest
      else (key,j) :: insertOrAssign name i rest

namespace ArgumentParser

def addArgument (p : ArgumentParser) (names : List Word) (setUp : Argument → Argument) : ArgumentParser :=
  let a := Argument.create names
  {p with
    mOptionalArguments := p.mOptionalArguments ++ [setUp a]
    mArgumentMap := a.mNames.foldl (fun m name => insertOrAssign name p.mOptionalArguments.length m) p.mArgumentMap}

def create (programName version : String) : ArgumentParser :=
  ({mProgramName := programName, mVersion := version} : ArgumentParser)
    |>.addArgument [['-','h'],['-','-','h','e','l','p']] (fun a => (a.help "shows help message and exits").nargs 0)
    |>.addArgument [['-','v'],['-','-','v','e','r','s','i','o','n']] (fun a =>
      (a.help "prints version information and exits").nargs 0)

def find (p : ArgumentParser) (name : Word) : Option ℕ := p.mArgumentMap.lookup name

def index (p : ArgumentParser) (name : Word) : Parse Argument :=
  match p.find name with
  | some i => match p.mOptionalArguments[i]? with
    | some a => .ok a
    | none => .error (.fault .index)
  | none => .error (.exception "No such argument")

def get {α : Type} (cast : Value → Option α) (p : ArgumentParser) (name : Word) : Parse α := do
  let a ← p.index name
  a.get cast

def getLengthOfLongestArgument (p : ArgumentParser) : ℕ :=
  (p.mArgumentMap.map (fun entry => (p.mOptionalArguments[entry.2]?.map Argument.getArgumentsLength).getD
    0)).foldl max 0

/-- `operator<<`; there are no positional arguments, no description and no epilog. -/
def print (p : ArgumentParser) : String :=
  "Usage: " ++ p.mProgramName ++ " [options] " ++ "\n\n" ++
    (if p.mOptionalArguments.isEmpty then "" else "Optional arguments:\n") ++
    String.join (p.mOptionalArguments.map (Argument.print p.getLengthOfLongestArgument))

def consume (p : ArgumentParser) (i : ℕ) (rest : List Word) (usedName : Word) :
    Parse (ArgumentParser × List Word) :=
  match p.mOptionalArguments[i]? with
  | some a => do
      let (a,rest) ← a.consume rest usedName
      .ok ({p with mOptionalArguments := p.mOptionalArguments.set i a},rest)
  | none => .error (.fault .index)

def parseCompound : (letters : List Char) → ArgumentParser → (rest : List Word) → Parse (ArgumentParser × List Word)
  | [], p, rest => .ok (p,rest)
  | c :: letters, p, rest =>
      match p.find ['-',c] with
      | some i => do
          let (p,rest) ← p.consume i rest ['-',c]
          parseCompound letters p rest
      | none => .error (.exception "Unknown argument")

def parseLoop : (fuel : ℕ) → ArgumentParser → (rest : List Word) → Parse ArgumentParser
  | _, p, [] => .ok p
  | 0, _, _ :: _ => .error (.fault .diverges)
  | fuel+1, p, word :: rest =>
      if isPositional word then .error (.exception "Maximum number of positional arguments exceeded")
      else match p.find word with
        | some i =>
            -- the first optional argument is --help, the second one --version
            if i = 0 then .error (.exit p.print)
            else if i = 1 then .error (.exit (p.mVersion ++ "\n"))
            else do
              let (p,rest) ← p.consume i rest word
              parseLoop fuel p rest
        | none =>
            if 1 < word.length ∧ word.head? = some '-' ∧ word[1]? ≠ some '-' then do
              let (p,rest) ← p.parseCompound word.tail rest
              parseLoop fuel p rest
            else .error (.exception "Unknown argument")

def parseArgsInternal (p : ArgumentParser) (arguments : List Word) : Parse ArgumentParser :=
  match arguments with
  | [] => .error (.fault .index)
  | name :: rest => parseLoop rest.length (if p.mProgramName = "" then
      {p with mProgramName := String.ofList name} else p) rest

def validateAll (p : ArgumentParser) : List (Word × ℕ) → Parse Unit
  | [] => .ok ()
  | entry :: rest =>
      match p.mOptionalArguments[entry.2]? with
      | some a => do
          a.validate
          validateAll p rest
      | none => .error (.fault .index)

def parseArgs (p : ArgumentParser) (arguments : List Word) : Parse ArgumentParser := do
  let p ← p.parseArgsInternal arguments
  p.validateAll p.mArgumentMap
  .ok p

end ArgumentParser
end HuffmanArchiver.Argparse
