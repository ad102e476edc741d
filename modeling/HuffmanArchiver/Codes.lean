import HuffmanArchiver.Machine
import Mathlib.Data.List.Sort
import Mathlib.Order.Lex
import Mathlib.Data.Prod.Lex

/-! `code_t` and the canonical codes of `codes.h` and `codes.cpp`. `ofCode` and `ofCodeLen` are the two
constructors, and `increment`, `shiftLeft`, `equal`, `notEqual` and `print` the operators. -/
namespace HuffmanArchiver.Codes
open Machine

def bitSize : ℕ := 64

structure CodeT where
  len : UInt8 := 0
  data : UInt64 := 0
  deriving DecidableEq, Repr

namespace CodeT

/-- The loop of `recalc_len`; 64 halvings clear every `uint64_t`. -/
def msbPos : (fuel : ℕ) → (d : UInt64) → (pos : UInt8) → UInt8
  | 0, _, pos => pos
  | fuel+1, d, pos => if 0 < d then msbPos fuel (d/2) (pos+1) else pos

def recalcLen (c : CodeT) : CodeT := {c with len := max c.len (msbPos bitSize c.data 0)}

def ofCode (code : UInt64) : CodeT := recalcLen {data := code}

def ofCodeLen (code : UInt64) (len : UInt8) : CodeT := {len := len, data := code}

def increment (c : CodeT) : CodeT := recalcLen {c with data := c.data+1}

def shiftLeft (c : CodeT) (shl : UInt8) : Exec CodeT := do
  require (shl.toNat < bitSize) .assertion
  let data ← shl64 c.data shl.toNat
  .ok {len := c.len+shl, data := data}

def leftAlign (c : CodeT) : Exec CodeT := do
  let data ← shl64 c.data (sizeSub bitSize c.len.toNat)
  .ok {c with data := data}

def equal (a b : CodeT) : Bool := a.len = b.len ∧ a.data = b.data

def notEqual (a b : CodeT) : Bool := a.len ≠ b.len ∧ a.data ≠ b.data

def printData : (n : ℕ) → (data : UInt64) → Exec (List Bool)
  | 0, _ => .ok []
  | i+1, data => do
      let shifted ← shr64 data i
      let rest ← printData i data
      .ok ((shifted &&& 1 = 1) :: rest)

def print (c : CodeT) : Exec (List Bool) := printData c.len.toNat c.data

end CodeT

abbrev CodeLengthTable := Table UInt8
abbrev CodeTable := Table CodeT

def pairLe (p q : UInt8 × UInt8) : Prop := p.1 < q.1 ∨ (p.1 = q.1 ∧ p.2 ≤ q.2)

instance : DecidableRel pairLe := fun _ _ => inferInstanceAs (Decidable (_ ∨ _))

/-- `length_byte_pairs` after `std::sort`. -/
def lengthBytePairs (lengths : CodeLengthTable) : List (UInt8 × UInt8) :=
  ((allBytes.filter (fun b => 0 < lengths b)).map (fun b => (lengths b,b))).insertionSort pairLe

/-- The loop over the sorted pairs. The shift amount is computed in `int` and narrowed. -/
def assignCodes : List (UInt8 × UInt8) → (current : CodeT) → CodeTable → Exec CodeTable
  | [], _, codes => .ok codes
  | (len,byte) :: rest, current, codes => do
      let current ← current.shiftLeft (len-current.len)
      assignCodes rest current.increment (codes.set byte current)

def constructCodes (lengths : CodeLengthTable) : Exec CodeTable :=
  assignCodes (lengthBytePairs lengths) {} (fun _ => {})

end HuffmanArchiver.Codes
