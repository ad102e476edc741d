import Mathlib.Data.Nat.Bitwise
import Mathlib.Data.Nat.Size
import Mathlib.Tactic.Ring

/-! Bit strings, most significant bit first, and the numbers read off a bit stream.
A stream is infinite; a finite string is continued by zero bits. -/
namespace HuffmanArchiver.Library.BitString

/-- The low `n` bits of `v`, most significant first. -/
def bits : (n : ℕ) → (v : ℕ) → List Bool
  | 0, _ => []
  | n+1, v => v.testBit n :: bits n v

@[simp] theorem bitsLength (n v : ℕ) : (bits n v).length = n := by
  induction n with
  | zero => rfl
  | succ n ih => simp [bits,ih]

theorem bitsAt (n v i : ℕ) (h : i < n) : (bits n v)[i]? = some (v.testBit (n-1-i)) := by
  induction n generalizing i with
  | zero => omega
  | succ n ih =>
    cases i with
    | zero => simp [bits]
    | succ i =>
      simp only [bits,List.getElem?_cons_succ]
      rw [ih i (by omega)]
      congr 2; omega

theorem bitsCongr {n v w : ℕ} (h : ∀ i < n, v.testBit i = w.testBit i) : bits n v = bits n w := by
  induction n with
  | zero => rfl
  | succ n ih =>
    simp only [bits,h n (by omega)]
    rw [ih (fun i hi => h i (by omega))]

theorem bitsModLe {n m : ℕ} (le : n ≤ m) (v : ℕ) : bits n (v % 2^m) = bits n v :=
  bitsCongr (fun i hi => by simp [Nat.testBit_mod_two_pow,show i < m by omega])

@[simp] theorem bitsMod (n v : ℕ) : bits n (v % 2^n) = bits n v := bitsModLe le_rfl v

theorem bitsAppend (m n v : ℕ) : bits (m+n) v = bits m (v / 2^n) ++ bits n v := by
  induction m with
  | zero => simp [bits]
  | succ m ih =>
    rw [show m+1+n = (m+n)+1 by omega]
    simp only [bits,List.cons_append,ih]
    rw [Nat.testBit_div_two_pow]

theorem divJoin (n u v : ℕ) : (u*2^n+v) / 2^n = u + v / 2^n := by
  rw [Nat.add_comm,Nat.add_mul_div_right _ _ (Nat.two_pow_pos n),Nat.add_comm]

theorem highPart {n v : ℕ} (u : ℕ) (h : v < 2^n) : (u*2^n+v) / 2^n = u := by
  rw [divJoin,Nat.div_eq_of_lt h,Nat.add_zero]

theorem lowPart {n v : ℕ} (u : ℕ) (h : v < 2^n) : (u*2^n+v) % 2^n = v := by
  rw [Nat.add_comm,Nat.add_mul_mod_self_right,Nat.mod_eq_of_lt h]

theorem bitsJoin (m n u v : ℕ) (h : v < 2^n) : bits m u ++ bits n v = bits (m+n) (u*2^n+v) := by
  rw [bitsAppend,highPart u h,← bitsMod n (u*2^n+v),lowPart u h]

theorem bitsZero (n : ℕ) : bits n 0 = List.replicate n false := by
  induction n with
  | zero => rfl
  | succ n ih => simp [bits,ih,List.replicate_succ]

theorem bitsMulPow (m n v : ℕ) : bits (m+n) (v*2^n) = bits m v ++ List.replicate n false := by
  rw [← bitsZero,bitsJoin m n v 0 (Nat.two_pow_pos n),Nat.add_zero]

theorem sizeJoin {k x t : ℕ} (low : x < 2^k) (nonzero : t ≠ 0) : Nat.size (x + 2^k*t) = k + Nat.size t := by
  have positive : 0 < Nat.size t := Nat.size_pos.mpr (Nat.pos_of_ne_zero nonzero)
  apply Nat.le_antisymm
  · rw [Nat.size_le,Nat.pow_add]
    have above := Nat.mul_le_mul_left (2^k) (Nat.lt_size_self t)
    rw [Nat.mul_succ] at above
    omega
  · obtain ⟨m,size⟩ : ∃ m, Nat.size t = m+1 := ⟨_,(Nat.sub_add_cancel positive).symm⟩
    have half : 2^m ≤ t := Nat.lt_size.mp (by omega)
    have scaled := Nat.mul_le_mul_left (2^k) half
    rw [← Nat.pow_add] at scaled
    rw [size,← Nat.add_assoc]
    exact Nat.lt_size.mpr (scaled.trans (Nat.le_add_left _ _))

theorem sizeHalf {n : ℕ} (pos : 0 < n) : Nat.size n = Nat.size (n/2) + 1 := by
  by_cases one : n = 1
  · subst one
    rfl
  · have whole := sizeJoin (show n%2 < 2^1 by omega) (show n/2 ≠ 0 by omega)
    rwa [Nat.pow_one,Nat.mod_add_div,Nat.add_comm] at whole

theorem halvings {α κ : Type} {toNat : α → ℕ} {half : α → α} {next : κ → κ} {loop : ℕ → α → κ → κ}
    (stop : ∀ x count, loop 0 x count = count)
    (round : ∀ fuel x count, loop (fuel+1) x count = if 0 < toNat x then loop fuel (half x) (next count) else count)
    (halves : ∀ x, toNat (half x) = toNat x / 2) {fuel : ℕ} {x : α} (enough : Nat.size (toNat x) ≤ fuel)
    (count : κ) :
    loop fuel x count = next^[Nat.size (toNat x)] count := by
  induction fuel generalizing x count with
  | zero => rw [stop,Nat.le_zero.mp enough,Function.iterate_zero_apply]
  | succ fuel ih =>
    rw [round]
    split
    · rename_i positive
      have size := sizeHalf positive
      have rest : Nat.size (toNat (half x)) ≤ fuel := by
        rw [halves]
        omega
      rw [ih rest,halves,size,Function.iterate_succ_apply]
    · rename_i zero
      rw [Nat.eq_zero_of_not_pos zero,Nat.size_zero,Function.iterate_zero_apply]

/-- The bit stream that begins with a finite string and goes on with zeros. -/
def stream (l : List Bool) : ℕ → Bool := fun i => l.getD i false

theorem streamLeft (a b : List Bool) (i : ℕ) (h : i < a.length) : stream (a++b) i = stream a i := by
  simp [stream,List.getElem?_append_left h]

theorem streamRight (a b : List Bool) (i : ℕ) : stream (a++b) (a.length+i) = stream b i := by
  simp [stream,List.getElem?_append_right]

/-- The number spelled by the `n` bits of `s` from position `p` on. -/
def window (s : ℕ → Bool) (p : ℕ) : (n : ℕ) → ℕ
  | 0 => 0
  | n+1 => 2 * window s p n + (s (p+n)).toNat

theorem windowLt (s : ℕ → Bool) (p n : ℕ) : window s p n < 2^n := by
  induction n with
  | zero => simp [window]
  | succ n ih =>
    have bit := Bool.toNat_le (s (p+n))
    simp only [window,Nat.pow_succ]; omega

theorem windowAppend (s : ℕ → Bool) (p m n : ℕ) :
    window s p (m+n) = window s p m * 2^n + window s (p+m) n := by
  induction n with
  | zero => simp [window]
  | succ n ih =>
    rw [← Nat.add_assoc]
    simp only [window,ih,Nat.pow_succ,Nat.add_assoc]
    ring

theorem windowDiv (s : ℕ → Bool) (p m n : ℕ) : window s p (m+n) / 2^n = window s p m := by
  rw [windowAppend,highPart _ (windowLt s _ n)]

theorem windowTop (s : ℕ → Bool) (p : ℕ) {m n : ℕ} (le : m ≤ n) : window s p n / 2^(n-m) = window s p m := by
  have split := windowDiv s p m (n-m)
  rwa [Nat.add_sub_cancel' le] at split

theorem windowMod (s : ℕ → Bool) (p m n : ℕ) : window s p (m+n) % 2^n = window s (p+m) n := by
  rw [windowAppend,lowPart _ (windowLt s _ n)]

theorem windowSlice (s : ℕ → Bool) (p a n b : ℕ) :
    window s p (a+n+b) / 2^b % 2^n = window s (p+a) n := by
  rw [windowDiv,windowMod]

theorem windowCongr {s t : ℕ → Bool} {p q n : ℕ} (h : ∀ i < n, s (p+i) = t (q+i)) :
    window s p n = window t q n := by
  induction n with
  | zero => rfl
  | succ n ih =>
    simp only [window,h n (by omega)]
    rw [ih (fun i hi => h i (by omega))]

theorem windowBits {s t : ℕ → Bool} {p q n : ℕ} (h : window s p n = window t q n) :
    ∀ i < n, s (p+i) = t (q+i) := by
  induction n with
  | zero => omega
  | succ n ih =>
    simp only [window] at h
    have sb := Bool.toNat_le (s (p+n))
    have tb := Bool.toNat_le (t (q+n))
    have last : (s (p+n)).toNat = (t (q+n)).toNat := by omega
    have rest : window s p n = window t q n := by omega
    intro i hi
    rcases Nat.lt_or_ge i n with less | same
    · exact ih rest i less
    · rw [show i = n by omega]; cases hs : s (p+n) <;> cases ht : t (q+n) <;> simp_all

theorem windowZeros {s : ℕ → Bool} {p n : ℕ} (h : ∀ i < n, s (p+i) = false) : window s p n = 0 := by
  induction n with
  | zero => rfl
  | succ n ih => simp [window,h n (by omega),ih (fun i hi => h i (by omega))]

theorem windowSkip (a b : List Bool) (p n : ℕ) :
    window (stream (a++b)) (a.length+p) n = window (stream b) p n :=
  windowCongr (fun i _ => by rw [Nat.add_assoc,streamRight])

theorem windowOfBits (n v : ℕ) (rest : List Bool) :
    window (stream (bits n v ++ rest)) 0 n = v % 2^n := by
  induction n generalizing v rest with
  | zero => simp [window,Nat.mod_one]
  | succ n ih =>
    have split : bits (n+1) v = bits n (v/2) ++ bits 1 v := by simpa using bitsAppend n 1 v
    simp only [window]
    have head : window (stream (bits (n+1) v ++ rest)) 0 n = v/2 % 2^n := by
      rw [split,List.append_assoc]; exact ih (v/2) _
    have last : stream (bits (n+1) v ++ rest) (0+n) = v.testBit 0 := by
      rw [streamLeft _ _ _ (by simp)]
      simp only [stream,Nat.zero_add,List.getD_eq_getElem?_getD,bitsAt (n+1) v n (by omega)]
      simp
    rw [head,last,Nat.testBit_zero,Nat.pow_succ,Nat.mul_comm (2^n),Nat.mod_mul]
    rcases Nat.mod_two_eq_zero_or_one v with h | h
    · simp [h]
    · simp [h]; omega

theorem bitsInj {n m v w : ℕ} (hv : v < 2^n) (hw : w < 2^m) : bits n v = bits m w ↔ n = m ∧ v = w := by
  refine ⟨fun same => ?_,fun ⟨len,value⟩ => by rw [len,value]⟩
  have len : n = m := by simpa using congrArg List.length same
  subst len
  have read := windowOfBits n v []
  rw [same,windowOfBits n w [],Nat.mod_eq_of_lt hv,Nat.mod_eq_of_lt hw] at read
  exact ⟨rfl,read.symm⟩

theorem bitsOfWindow (s : ℕ → Bool) (p n i : ℕ) (h : i < n) :
    (bits n (window s p n))[i]? = some (s (p+i)) := by
  have same : window (stream (bits n (window s p n))) 0 n = window s p n := by
    simpa [Nat.mod_eq_of_lt (windowLt s p n)] using windowOfBits n (window s p n) []
  have at_i := windowBits same i h
  rw [bitsAt _ _ _ h]
  simp only [stream,Nat.zero_add,List.getD_eq_getElem?_getD,bitsAt _ _ _ h,Option.getD_some] at at_i
  rw [at_i]

end HuffmanArchiver.Library.BitString
