import HuffmanArchiver.Argparse
import Mathlib.Data.List.TakeWhile

/-! The grammars in the comments on `is_decimal_literal` and `is_positional`, and that the labels and jumps
of the functions accept exactly their words. A value on the command line that begins with '-' has to be
one of them. -/
namespace HuffmanArchiver.DecimalLiterals
open Argparse

def Digits (w : Word) : Prop := w ≠ [] ∧ ∀ c ∈ w, c.isDigit = true

def PostE (w : Word) : Prop := ∃ sign digits, (sign = [] ∨ sign = ['+'] ∨ sign = ['-']) ∧ Digits digits ∧
    w = sign ++ digits

def ExponentPart (w : Word) : Prop := ∃ rest, PostE rest ∧ (w = 'e' :: rest ∨ w = 'E' :: rest)

def ExponentPartOpt (w : Word) : Prop := w = [] ∨ ExponentPart w

def PostDecimalPoint (w : Word) : Prop := ∃ digits rest, Digits digits ∧ ExponentPartOpt rest ∧ w = digits ++ rest

def FractionalPart (w : Word) : Prop := ∃ rest, PostDecimalPoint rest ∧ w = '.' :: rest

inductive DecimalLiteral : Word → Prop where
  | zero : DecimalLiteral ['0']
  | integer {c : Char} {digits : Word} (nonzero : c ≠ '0') (sequence : Digits (c :: digits)) :
      DecimalLiteral (c :: digits)
  | fraction {part rest : Word} (sequence : Digits part) (fractional : FractionalPart rest) :
      DecimalLiteral (part ++ rest)
  | fractionOnly {w : Word} (fractional : FractionalPart w) : DecimalLiteral w
  | point {part rest : Word} (sequence : Digits part) (exponent : ExponentPartOpt rest) :
      DecimalLiteral (part ++ '.' :: rest)
  | exponent {part rest : Word} (sequence : Digits part) (exponent : ExponentPart rest) :
      DecimalLiteral (part ++ rest)

theorem digitsAhead {w : Word} (sequence : Digits w) (t : Word) : digitAhead (w ++ t) = true := by
  cases w with
  | nil => exact absurd rfl sequence.1
  | cons c w => exact sequence.2 c (by simp)

theorem digitsConsumed {w t : Word} (sequence : Digits w) (stop : digitAhead t = false) :
    consumeDigits (w ++ t) = t := by
  rw [consumeDigits,List.dropWhile_append_of_pos sequence.2]
  cases t with
  | nil => rfl
  | cons c t => exact List.dropWhile_cons_of_neg (by simpa [digitAhead] using stop)

theorem digitsSplit {w : Word} (ahead : digitAhead w = true) :
    ∃ digits t, Digits digits ∧ digitAhead t = false ∧ w = digits ++ t ∧ consumeDigits w = t := by
  refine ⟨w.takeWhile Char.isDigit,consumeDigits w,⟨?_,?_⟩,?_,(List.takeWhile_append_dropWhile).symm,rfl⟩
  · cases w with
    | nil => simp [digitAhead] at ahead
    | cons c w =>
      have first : c.isDigit = true := by simpa [digitAhead] using ahead
      simp [first]
  · exact fun c hc => List.mem_takeWhile_imp hc
  · cases behind : consumeDigits w with
    | nil => rfl
    | cons c t =>
      have stop := List.head?_dropWhile_not Char.isDigit w
      rw [show w.dropWhile Char.isDigit = c :: t from behind] at stop
      simpa [digitAhead] using stop

theorem postEIff (w : Word) : postE w = true ↔ PostE w := by
  have accept : ∀ t : Word, (if digitAhead t then (consumeDigits t).isEmpty else false) = true ↔ Digits t := by
    intro t
    constructor
    · intro ok
      split at ok
      · rename_i ahead
        obtain ⟨digits,rest,sequence,_,split,behind⟩ := digitsSplit ahead
        rw [behind,List.isEmpty_iff] at ok
        rw [split,ok,List.append_nil]
        exact sequence
      · contradiction
    · intro sequence
      have ahead := digitsAhead sequence []
      have behind := digitsConsumed sequence (t := []) rfl
      rw [List.append_nil] at ahead behind
      rw [if_pos ahead,behind]
      rfl
  simp only [postE,accept]
  constructor
  · intro sequence
    split at sequence
    · rename_i signed
      cases w with
      | nil => simp at signed
      | cons c w =>
        have sign : c = '-' ∨ c = '+' := by simpa using signed
        rcases sign with rfl | rfl
        · exact ⟨['-'],w,.inr (.inr rfl),sequence,rfl⟩
        · exact ⟨['+'],w,.inr (.inl rfl),sequence,rfl⟩
    · exact ⟨[],w,.inl rfl,sequence,rfl⟩
  · rintro ⟨sign,digits,rfl | rfl | rfl,sequence,rfl⟩
    · have unsigned : ¬ (w.head? = some '-' ∨ w.head? = some '+') := by
        cases w with
        | nil => simp
        | cons c w =>
          have digit := sequence.2 c (by simp)
          rintro (same | same)
          · cases Option.some.inj same; exact absurd digit (by decide)
          · cases Option.some.inj same; exact absurd digit (by decide)
      rw [if_neg unsigned]
      exact sequence
    · exact sequence
    · exact sequence

theorem exponentPartOptIff (w : Word) : exponentPartOpt w = true ↔ ExponentPartOpt w := by
  cases w with
  | nil => simp [exponentPartOpt,ExponentPartOpt]
  | cons c w =>
    simp only [exponentPartOpt,ExponentPartOpt,ExponentPart,List.cons.injEq,reduceCtorEq,false_or]
    constructor
    · intro ok
      split at ok
      · rename_i mark
        exact ⟨w,(postEIff w).mp ok,mark.imp (fun same => ⟨same,rfl⟩) (fun same => ⟨same,rfl⟩)⟩
      · contradiction
    · rintro ⟨rest,exponent,⟨rfl,rfl⟩ | ⟨rfl,rfl⟩⟩
      · exact (postEIff w).mpr exponent
      · exact (postEIff w).mpr exponent

theorem exponentStops {w : Word} (exponent : ExponentPartOpt w) : digitAhead w = false := by
  rcases exponent with rfl | ⟨rest,_,rfl | rfl⟩
  · rfl
  · rfl
  · rfl

theorem postDecimalPointIff (w : Word) : postDecimalPoint w = true ↔ PostDecimalPoint w := by
  constructor
  · intro ok
    rw [postDecimalPoint] at ok
    split at ok
    · rename_i ahead
      obtain ⟨digits,rest,sequence,_,split,behind⟩ := digitsSplit ahead
      rw [behind] at ok
      exact ⟨digits,rest,sequence,(exponentPartOptIff rest).mp ok,split⟩
    · contradiction
  · rintro ⟨digits,rest,sequence,exponent,rfl⟩
    rw [postDecimalPoint,if_pos (digitsAhead sequence rest),digitsConsumed sequence (exponentStops exponent)]
    exact (exponentPartOptIff rest).mpr exponent

def Continued (w : Word) : Prop := FractionalPart w ∨ (∃ rest, ExponentPartOpt rest ∧ w = '.' :: rest) ∨
    ExponentPart w

theorem continuedStops {w : Word} (continued : Continued w) : digitAhead w = false := by
  rcases continued with ⟨rest,_,rfl⟩ | ⟨rest,_,rfl⟩ | exponent
  · rfl
  · rfl
  · exact exponentStops (.inr exponent)

theorem continuedIff (w : Word) : integerPartConsumed w = true ↔ Continued w := by
  cases w with
  | nil => simp [integerPartConsumed,Continued,FractionalPart,ExponentPart]
  | cons c w =>
    constructor
    · intro ok
      rw [integerPartConsumed] at ok
      split at ok
      · rename_i point
        subst point
        split at ok
        · exact .inl ⟨w,(postDecimalPointIff w).mp ok,rfl⟩
        · exact .inr (.inl ⟨w,(exponentPartOptIff w).mp ok,rfl⟩)
      · split at ok
        · rename_i mark
          refine .inr (.inr ⟨w,(postEIff w).mp ok,?_⟩)
          exact mark.imp (fun same => by rw [same]) (fun same => by rw [same])
        · contradiction
    · rintro (⟨rest,post,same⟩ | ⟨rest,exponent,same⟩ | ⟨rest,post,same | same⟩)
      · cases same
        have ahead : digitAhead w = true := by
          obtain ⟨digits,t,sequence,_,rfl⟩ := post
          exact digitsAhead sequence t
        simp only [integerPartConsumed,if_true,ahead]
        exact (postDecimalPointIff w).mpr post
      · cases same
        simp only [integerPartConsumed,if_true,exponentStops exponent]
        exact (exponentPartOptIff w).mpr exponent
      · cases same
        exact (postEIff w).mpr post
      · cases same
        exact (postEIff w).mpr post

theorem integerIff {w : Word} (ahead : digitAhead w = true) :
    integerPartConsumed (consumeDigits w) = true ↔ ∃ part rest, Digits part ∧ Continued rest ∧
      w = part ++ rest := by
  constructor
  · intro ok
    obtain ⟨part,rest,sequence,_,split,behind⟩ := digitsSplit ahead
    rw [behind] at ok
    exact ⟨part,rest,sequence,(continuedIff rest).mp ok,split⟩
  · rintro ⟨part,rest,sequence,continued,rfl⟩
    rw [digitsConsumed sequence (continuedStops continued)]
    exact (continuedIff rest).mpr continued

theorem continuedLiteral {part rest : Word} (sequence : Digits part) (continued : Continued rest) :
    DecimalLiteral (part ++ rest) := by
  rcases continued with fractional | ⟨rest,exponent,rfl⟩ | exponent
  · exact .fraction sequence fractional
  · exact .point sequence exponent
  · exact .exponent sequence exponent

theorem literalCases {w : Word} (literal : DecimalLiteral w) :
    w = ['0'] ∨ (∃ c digits, w = c :: digits ∧ c ≠ '0' ∧ Digits w) ∨
      (∃ part rest, Digits part ∧ Continued rest ∧ w = part ++ rest) ∨ FractionalPart w := by
  cases literal with
  | zero => exact .inl rfl
  | @integer c digits nonzero sequence => exact .inr (.inl ⟨c,digits,rfl,nonzero,sequence⟩)
  | @fraction part rest sequence fractional => exact .inr (.inr (.inl ⟨part,rest,sequence,.inl fractional,rfl⟩))
  | fractionOnly fractional => exact .inr (.inr (.inr fractional))
  | @point part rest sequence exponent =>
      exact .inr (.inr (.inl ⟨part,_,sequence,.inr (.inl ⟨rest,exponent,rfl⟩),rfl⟩))
  | @exponent part rest sequence exponent => exact .inr (.inr (.inl ⟨part,rest,sequence,.inr (.inr exponent),rfl⟩))

section Digit
variable {c : Char} {s : Word} (digit : c.isDigit = true)
include digit

theorem digitFirst : integerPart s = integerPartConsumed (consumeDigits (c :: s)) := by
  rw [integerPart,consumeDigits,consumeDigits,List.dropWhile_cons_of_pos digit]

theorem integerSound (ok : integerPartConsumed (consumeDigits (c :: s)) = true) : DecimalLiteral (c :: s) := by
  obtain ⟨part,rest,sequence,continued,split⟩ := (integerIff (w := c :: s) digit).mp ok
  rw [split]
  exact continuedLiteral sequence continued

theorem digitSound (ok : isDecimalLiteral (c :: s) = true) : DecimalLiteral (c :: s) := by
  simp only [isDecimalLiteral,digit,if_true,digitFirst digit] at ok
  split at ok
  · rename_i zero
    split at ok
    · rename_i alone
      rw [zero,List.isEmpty_iff.mp alone]
      exact .zero
    · exact integerSound digit ok
  · rename_i nonzero
    split at ok
    · rename_i whole
      obtain ⟨digits,t,sequence,_,split,behind⟩ := digitsSplit (w := c :: s) digit
      rw [behind,List.isEmpty_iff] at whole
      rw [whole,List.append_nil] at split
      exact .integer nonzero (by rw [split]; exact sequence)
    · exact integerSound digit ok

theorem digitComplete (literal : DecimalLiteral (c :: s)) : isDecimalLiteral (c :: s) = true := by
  simp only [isDecimalLiteral,digit,if_true,digitFirst digit]
  rcases literalCases literal with same | ⟨d,digits,same,nonzero,sequence⟩ | continued | ⟨_,_,same⟩
  · cases same
    rfl
  · cases same
    have behind := digitsConsumed sequence (t := []) rfl
    rw [List.append_nil] at behind
    rw [if_neg nonzero,behind]
    rfl
  · rw [(integerIff (w := c :: s) digit).mpr continued]
    simp
  · cases same
    exact absurd digit (by decide)

end Digit

section Other
variable {c : Char} {s : Word} (other : ¬ c.isDigit = true)
include other

theorem otherIff : isDecimalLiteral (c :: s) = true ↔ FractionalPart (c :: s) := by
  have nonzero : c ≠ '0' := fun same => other (by rw [same]; decide)
  simp only [isDecimalLiteral,if_neg nonzero,other]
  constructor
  · intro ok
    split at ok
    · contradiction
    · split at ok
      · rename_i point
        exact ⟨s,(postDecimalPointIff s).mp ok,by rw [point]⟩
      · contradiction
  · rintro ⟨rest,post,same⟩
    cases same
    exact (postDecimalPointIff s).mpr post

theorem otherFractional (literal : DecimalLiteral (c :: s)) : FractionalPart (c :: s) := by
  rcases literalCases literal with same | ⟨d,digits,same,_,sequence⟩ | ⟨part,rest,sequence,_,split⟩ | fractional
  · cases same
    exact absurd (by decide) other
  · exact absurd (sequence.2 c (by simp)) other
  · have ahead := digitsAhead sequence rest
    rw [← split] at ahead
    exact absurd ahead other
  · exact fractional

end Other

theorem decimalLiteralIff (w : Word) : isDecimalLiteral w = true ↔ DecimalLiteral w := by
  cases w with
  | nil =>
    refine ⟨fun ok => by contradiction,fun literal => ?_⟩
    rcases literalCases literal with same | ⟨_,_,same,_⟩ | ⟨part,_,sequence,_,same⟩ | ⟨_,_,same⟩
    · contradiction
    · contradiction
    · exact absurd (List.append_eq_nil_iff.mp same.symm).1 sequence.1
    · contradiction
  | cons c s =>
    by_cases digit : c.isDigit = true
    · exact ⟨digitSound digit,digitComplete digit⟩
    · rw [otherIff digit]
      exact ⟨.fractionOnly,otherFractional digit⟩

inductive Positional : Word → Prop where
  | empty : Positional []
  | dash : Positional ['-']
  | literal {w : Word} (literal : DecimalLiteral w) : Positional ('-' :: w)
  | other {c : Char} {w : Word} (different : c ≠ '-') : Positional (c :: w)

theorem positionalIff (w : Word) : isPositional w = true ↔ Positional w := by
  cases w with
  | nil => exact ⟨fun _ => .empty,fun _ => rfl⟩
  | cons c s =>
    by_cases dash : c = '-'
    · subst dash
      constructor
      · intro ok
        cases s with
        | nil => exact .dash
        | cons d s => exact .literal ((decimalLiteralIff _).mp ok)
      · intro positional
        cases positional with
        | dash => rfl
        | literal literal =>
          cases s with
          | nil => rfl
          | cons d s => exact (decimalLiteralIff _).mpr literal
        | other different => exact absurd rfl different
    · exact ⟨fun _ => .other dash,fun _ => by simp [isPositional,dash]⟩

theorem acceptedWords (w : Word) : (isDecimalLiteral w = true ↔ DecimalLiteral w) ∧
    (isPositional w = true ↔ Positional w) :=
  ⟨decimalLiteralIff w,positionalIff w⟩

end HuffmanArchiver.DecimalLiterals
