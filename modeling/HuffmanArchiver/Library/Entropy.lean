import Mathlib.Analysis.SpecialFunctions.Log.Base
import Mathlib.Algebra.Order.Floor.Div
import Mathlib.Algebra.BigOperators.Field
import Mathlib.Algebra.Order.BigOperators.Ring.Finset
import Mathlib.Data.Nat.Log
import Mathlib.Tactic.FieldSimp
import Mathlib.Tactic.Positivity

/-! Shannon's bounds. Things with weights carry an information; whoever names them by lengths within Kraft's
inequality pays at least that much, and some lengths pay at most one bit more for each unit of weight. -/
namespace HuffmanArchiver.Library.Entropy

variable {ι : Type} {s : Finset ι} {w : ι → ℕ}

/-- The entropy of the weights, times their sum, in bits. -/
noncomputable def information (s : Finset ι) (w : ι → ℕ) : ℝ :=
  ∑ i ∈ s, (w i : ℝ) * Real.logb 2 ((∑ j ∈ s, w j : ℕ) / w i)

theorem logTwo : 0 < Real.log 2 := Real.log_pos one_lt_two

theorem gibbsTerm {total weight : ℝ} (positive : 0 < weight) (all : 0 < total) (len : ℕ) :
    weight * Real.logb 2 (total / weight) - weight * len ≤ (total * (1/2)^len - weight) / Real.log 2 := by
  have ratio : 0 < total * (1/2)^len / weight := by positivity
  have bound := Real.log_le_sub_one_of_pos ratio
  have split : Real.log (total * (1/2)^len / weight) = Real.log (total/weight) - len * Real.log 2 := by
    rw [mul_div_right_comm,Real.log_mul (by positivity) (by positivity),Real.log_pow,one_div,Real.log_inv]
    ring
  rw [split] at bound
  rw [le_div_iff₀ logTwo,Real.logb]
  calc (weight * (Real.log (total/weight) / Real.log 2) - weight * len) * Real.log 2
      = weight * (Real.log (total/weight) - len * Real.log 2) := by
        have nonzero := logTwo.ne'
        field_simp
    _ ≤ weight * (total * (1/2)^len / weight - 1) := mul_le_mul_of_nonneg_left bound positive.le
    _ = total * (1/2)^len - weight := by field_simp

theorem gibbs (positive : ∀ i ∈ s, 0 < w i) {len : ι → ℕ} (kraft : ∑ i ∈ s, (1/2 : ℝ)^len i ≤ 1) :
    information s w ≤ ((∑ i ∈ s, w i * len i : ℕ) : ℝ) := by
  have terms : ∑ i ∈ s, ((w i : ℝ) * Real.logb 2 ((∑ j ∈ s, w j : ℕ) / w i) - w i * len i) ≤
      ∑ i ∈ s, (((∑ j ∈ s, w j : ℕ) : ℝ) * (1/2)^len i - w i) / Real.log 2 := by
    refine Finset.sum_le_sum (fun i hi => gibbsTerm (by exact_mod_cast positive i hi) ?_ (len i))
    have le := Finset.single_le_sum (f := w) (fun _ _ => Nat.zero_le _) hi
    exact_mod_cast (positive i hi).trans_le le
  have rest : ∑ i ∈ s, (((∑ j ∈ s, w j : ℕ) : ℝ) * (1/2)^len i - w i) / Real.log 2 ≤ 0 := by
    rw [← Finset.sum_div,Finset.sum_sub_distrib,← Finset.mul_sum]
    refine div_nonpos_of_nonpos_of_nonneg ?_ logTwo.le
    have total : (0 : ℝ) ≤ (∑ j ∈ s, w j : ℕ) := Nat.cast_nonneg _
    have scaled := mul_le_of_le_one_right total kraft
    push_cast at scaled ⊢
    linarith
  rw [Finset.sum_sub_distrib] at terms
  unfold information
  push_cast at terms rest ⊢
  linarith

/-- The least positive number of bits at which the share of the weight reaches the whole. -/
def shannonLength (total weight : ℕ) : ℕ := max 1 (Nat.clog 2 (total ⌈/⌉ weight))

theorem shannonPositive (total weight : ℕ) : 1 ≤ shannonLength total weight := le_max_left _ _

theorem shannonReaches {total weight : ℕ} (positive : 0 < weight) :
    total ≤ weight * 2^shannonLength total weight := by
  rw [← ceilDiv_le_iff_le_mul positive]
  exact (Nat.le_pow_clog one_lt_two _).trans (Nat.pow_le_pow_right two_pos (le_max_right _ _))

theorem shannonBelow {total weight : ℕ} (positive : 0 < weight) (le : weight ≤ total) :
    weight * 2^(shannonLength total weight - 1) ≤ total := by
  rcases Nat.lt_or_ge 1 (total ⌈/⌉ weight) with many | one
  · have below := Nat.pow_pred_clog_lt_self one_lt_two many
    have some_bit := Nat.clog_pos one_lt_two many
    rw [shannonLength,max_eq_right some_bit]
    by_contra more
    exact absurd ((ceilDiv_le_iff_le_mul positive).mpr (Nat.le_of_lt (Nat.lt_of_not_le more)))
      (Nat.not_le.mpr below)
  · rw [shannonLength,Nat.clog_of_right_le_one one]
    simpa using le

theorem shannonKraft (positive : ∀ i ∈ s, 0 < w i) : ∑ i ∈ s, (1/2 : ℝ)^shannonLength (∑ j ∈ s, w j) (w i) ≤ 1 := by
  rcases s.eq_empty_or_nonempty with rfl | ⟨i,hi⟩
  · simp
  · have total : (0 : ℝ) < (∑ j ∈ s, w j : ℕ) := by
      have le := Finset.single_le_sum (f := w) (fun _ _ => Nat.zero_le _) hi
      exact_mod_cast (positive i hi).trans_le le
    have share : ∀ j ∈ s, (1/2 : ℝ)^shannonLength (∑ j ∈ s, w j) (w j) ≤ (w j : ℝ) / (∑ j ∈ s, w j : ℕ) := by
      intro j hj
      have reaches : ((∑ j ∈ s, w j : ℕ) : ℝ) ≤ w j * 2^shannonLength (∑ j ∈ s, w j) (w j) := by
        exact_mod_cast shannonReaches (positive j hj)
      rw [one_div,inv_pow,inv_le_comm₀ (by positivity) (div_pos (by exact_mod_cast positive j hj) total),inv_div]
      exact (div_le_iff₀ (by exact_mod_cast positive j hj)).mpr (by rwa [mul_comm] at reaches)
    refine (Finset.sum_le_sum share).trans ?_
    rw [← Finset.sum_div]
    push_cast at total ⊢
    exact (div_self total.ne').le

theorem shannonCost (positive : ∀ i ∈ s, 0 < w i) :
    ((∑ i ∈ s, w i * shannonLength (∑ j ∈ s, w j) (w i) : ℕ) : ℝ) ≤ information s w + (∑ i ∈ s, w i : ℕ) := by
  unfold information
  push_cast
  rw [← Finset.sum_add_distrib]
  refine Finset.sum_le_sum (fun i hi => ?_)
  have weight : (0 : ℝ) < w i := by exact_mod_cast positive i hi
  have le := Finset.single_le_sum (f := w) (fun _ _ => Nat.zero_le _) hi
  have below : (2 : ℝ)^(shannonLength (∑ j ∈ s, w j) (w i) - 1) ≤ (∑ j ∈ s, w j : ℕ) / w i := by
    rw [le_div_iff₀ weight,mul_comm]
    exact_mod_cast shannonBelow (positive i hi) le
  have bits : ((shannonLength (∑ j ∈ s, w j) (w i) - 1 : ℕ) : ℝ) ≤ Real.logb 2 ((∑ j ∈ s, w j : ℕ) / w i) := by
    rw [Real.le_logb_iff_rpow_le one_lt_two (lt_of_lt_of_le (by positivity) below),Real.rpow_natCast]
    exact below
  rw [Nat.cast_sub (shannonPositive _ _),Nat.cast_one,sub_le_iff_le_add] at bits
  have scaled := mul_le_mul_of_nonneg_left bits weight.le
  rw [mul_add,mul_one] at scaled
  push_cast at scaled
  exact scaled

section Exchange
variable [DecidableEq ι] {a b : ι} (ha : a ∈ s) (hb : b ∈ s)
include ha hb

theorem exchangedSum {M : Type} [AddCommMonoid M] (f : ι → M) : ∑ i ∈ s, f (Equiv.swap a b i) = ∑ i ∈ s, f i := by
  refine Equiv.Perm.sum_comp (Equiv.swap a b) s f (fun i moved => ?_)
  rcases eq_or_ne i a with rfl | other
  · exact ha
  · rcases eq_or_ne i b with rfl | other'
    · exact hb
    · exact absurd (Equiv.swap_apply_of_ne_of_ne other other') moved

theorem exchangedCost (w len : ι → ℕ) (different : a ≠ b) :
    ∑ i ∈ s, ((w i : ℤ) * len (Equiv.swap a b i) - w i * len i) =
    ((w a : ℤ) - w b) * (len b - len a) := by
  rw [Finset.sum_eq_add_of_mem a b ha hb different]
  · rw [Equiv.swap_apply_left,Equiv.swap_apply_right]
    ring
  · rintro i _ ⟨other,other'⟩
    rw [Equiv.swap_apply_of_ne_of_ne other other',sub_self]

theorem heavierShorter {len : ι → ℕ} (heavier : w b < w a)
    (least : ∑ i ∈ s, w i * len i ≤ ∑ i ∈ s, w i * len (Equiv.swap a b i)) :
    len a ≤ len b := by
  have different : a ≠ b := by
    rintro rfl
    exact absurd heavier (lt_irrefl _)
  have exchanged := exchangedCost ha hb w len different
  rw [Finset.sum_sub_distrib] at exchanged
  have pays : (0 : ℤ) ≤ ((w a : ℤ) - w b) * (len b - len a) := by
    rw [← exchanged,sub_nonneg]
    exact_mod_cast least
  have gain : (0 : ℤ) < (w a : ℤ) - w b := sub_pos.mpr (by exact_mod_cast heavier)
  have le := nonneg_of_mul_nonneg_right pays gain
  exact_mod_cast sub_nonneg.mp le

end Exchange

end HuffmanArchiver.Library.Entropy
