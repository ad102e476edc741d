import HuffmanArchiver.Library.BitString
import Mathlib.Data.Nat.Digits.Defs

/-! Numbers of a fixed number of limbs, the least significant one first; what they stand for is
`Nat.ofDigits`. The operations work limb by limb and are exact as long as the result has room. -/
namespace HuffmanArchiver.Library.Limbs
open BitString

section Base
variable {base : ℕ}

def increment (base : ℕ) : List ℕ → List ℕ
  | [] => []
  | d :: rest => if d+1 = base then 0 :: increment base rest else (d+1) :: rest

theorem incrementValue {l : List ℕ} (room : Nat.ofDigits base l + 1 < base^l.length) :
    Nat.ofDigits base (increment base l) = Nat.ofDigits base l + 1 := by
  induction l with
  | nil => simp at room
  | cons d rest ih =>
    simp only [increment]
    split
    · rename_i full
      have carried : base*(Nat.ofDigits base rest + 1) = Nat.ofDigits base (d :: rest) + 1 := by
        rw [Nat.ofDigits_cons,Nat.mul_add,Nat.mul_one]
        omega
      rw [← carried,List.length_cons,Nat.pow_succ'] at room
      rw [Nat.ofDigits_cons,ih (Nat.lt_of_mul_lt_mul_left room),carried,Nat.zero_add]
    · rw [Nat.ofDigits_cons,Nat.ofDigits_cons]
      omega

def moveUp (k : ℕ) (l : List ℕ) : List ℕ := List.replicate k 0 ++ l.take (l.length-k)

theorem moveUpValue {k : ℕ} {l : List ℕ} (pos : 0 < base) (digits : ∀ d ∈ l, d < base) (le : k ≤ l.length)
    (room : Nat.ofDigits base l * base^k < base^l.length) :
      Nat.ofDigits base (moveUp k l) = Nat.ofDigits base l * base^k := by
  have split : base^l.length = base^(l.length-k) * base^k := by rw [← Nat.pow_add,Nat.sub_add_cancel le]
  rw [split] at room
  have below := Nat.lt_of_mul_lt_mul_right room
  rw [moveUp,Nat.ofDigits_append,Nat.ofDigits_replicate_zero,List.length_replicate,Nat.zero_add,
    ← Nat.ofDigits_mod_pow_eq_ofDigits_take _ pos l digits,Nat.mod_eq_of_lt below,Nat.mul_comm]

theorem limbAt {l : List ℕ} (pos : 0 < base) (digits : ∀ d ∈ l, d < base) {i : ℕ} (lt : i < l.length) :
    Nat.ofDigits base l / base^i % base = l[i] := by
  rw [Nat.ofDigits_div_pow_eq_ofDigits_drop i pos l digits,List.drop_eq_getElem_cons lt,Nat.ofDigits_cons,
    Nat.add_mul_mod_self_left,Nat.mod_eq_of_lt (digits _ (List.getElem_mem lt))]

end Base

section Bits
variable {w : ℕ}

/-- The limbs of `w` bits are shifted by `s` bits; what one loses at the top the next one takes in. -/
def shiftBits (w s : ℕ) : (carry : ℕ) → List ℕ → List ℕ
  | _, [] => []
  | carry, d :: rest => (d*2^s % 2^w + carry) :: shiftBits w s (d / 2^(w-s)) rest

theorem shiftBitsValue {s carry : ℕ} {l : List ℕ} (le : s ≤ w)
    (room : Nat.ofDigits (2^w) l * 2^s + carry < (2^w)^l.length) :
    Nat.ofDigits (2^w) (shiftBits w s carry l) = Nat.ofDigits (2^w) l * 2^s + carry := by
  induction l generalizing carry with
  | nil =>
    simp only [List.length_nil,Nat.pow_zero,Nat.ofDigits_nil] at room
    simp only [shiftBits,Nat.ofDigits_nil]
    omega
  | cons d rest ih =>
    have split : 2^w = 2^(w-s) * 2^s := by rw [← Nat.pow_add,Nat.sub_add_cancel le]
    have high : d / 2^(w-s) = d*2^s / 2^w := by rw [split,Nat.mul_div_mul_right _ _ (Nat.two_pow_pos s)]
    have parts := Nat.mod_add_div (d*2^s) (2^w)
    rw [← high] at parts
    have whole : 2^w*(Nat.ofDigits (2^w) rest * 2^s + d / 2^(w-s)) + (d*2^s % 2^w + carry) =
        Nat.ofDigits (2^w) (d :: rest) * 2^s + carry := by
      rw [Nat.ofDigits_cons,Nat.add_mul]
      calc 2^w*(Nat.ofDigits (2^w) rest * 2^s + d / 2^(w-s)) + (d*2^s % 2^w + carry)
          = (d*2^s % 2^w + 2^w*(d / 2^(w-s))) + 2^w*Nat.ofDigits (2^w) rest*2^s + carry := by ring
        _ = d*2^s + 2^w*Nat.ofDigits (2^w) rest*2^s + carry := by rw [parts]
    rw [← whole,List.length_cons,Nat.pow_succ'] at room
    have inner := Nat.lt_of_mul_lt_mul_left (lt_of_le_of_lt (Nat.le_add_right _ _) room)
    rw [shiftBits,Nat.ofDigits_cons,ih inner,← whole,Nat.add_comm]

theorem sizeLimbs {pre : List ℕ} {t n : ℕ} (digits : ∀ d ∈ pre, d < 2^w) (nonzero : t ≠ 0) :
    Nat.size (Nat.ofDigits (2^w) (pre ++ t :: List.replicate n 0)) = w*pre.length + Nat.size t := by
  have low : Nat.ofDigits (2^w) pre < 2^(w*pre.length) := by
    rw [Nat.pow_mul]
    rcases Nat.eq_zero_or_pos w with rfl | pos
    · have zeros : ∀ d ∈ pre, d = 0 := fun d hd => by simpa using digits d hd
      rw [List.eq_replicate_of_mem zeros,Nat.ofDigits_replicate_zero]
      simp
    · exact Nat.ofDigits_lt_base_pow_length (Nat.one_lt_two_pow (by omega)) digits
  rw [Nat.ofDigits_append,Nat.ofDigits_cons,Nat.ofDigits_replicate_zero,Nat.mul_zero,Nat.add_zero,← Nat.pow_mul,
    sizeJoin low nonzero]

end Bits
end HuffmanArchiver.Library.Limbs
