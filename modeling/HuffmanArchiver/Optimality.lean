import HuffmanArchiver.CodeLengths
import Mathlib.Data.Nat.Fib.Basic

/-! No prefix code is cheaper than the lengths of `build_code_lengths`, and none that is as cheap has
a longer code. Whether the lengths fit the 64-bit word of `code_t` is therefore a property of the
table alone; the source does not check it. -/
namespace HuffmanArchiver.Optimality
open Machine Codes HuffmanTree Queue Forest CodeLengths Library.GreedyTree

section Root
variable {frequencies : FrequencyTable} {root : NodeT} {lens : CodeLengthTable}

theorem tableCost (table : TableOf frequencies root lens) :
    codeCost frequencies (fun b => (lens b).toNat) =
      (shape root).cost (weights frequencies) + rootDepth root * (shape root).weight (weights frequencies) := by
  rw [codeCost,sumWeighted,← BinTree.costDepths]
  exact (sumLeaves table (fun b k => (frequencies b).toNat * k)).symm

theorem tablePrefix (table : TableOf frequencies root lens) :
    PrefixLengths frequencies (fun b => (lens b).toNat) := by
  refine ⟨fun b coded => lengthPositive table coded,?_⟩
  rw [tableKraft table]
  exact pow_le_one₀ (by norm_num) (by norm_num)

def competitor (frequencies : FrequencyTable) (len : UInt8 → ℕ) : Multiset (BinTree UInt8 × ℕ) :=
  ((codedBytes frequencies) : Multiset UInt8).map (fun b => (.leaf b,len b))

theorem competitorNames (len : UInt8 → ℕ) : (competitor frequencies len).map Prod.fst =
    ((codedBytes frequencies) : Multiset UInt8).map BinTree.leaf := by
  rw [competitor,Multiset.map_map]; rfl

theorem competitorLengths {len : UInt8 → ℕ} (other : PrefixLengths frequencies len) :
    KraftFits (∑ b, len b) ((competitor frequencies len).map Prod.snd) := by
  rw [competitor,Multiset.map_map]
  exact competitorFits other

theorem competitorTotal (len : UInt8 → ℕ) :
    total (BinTree.weight (weights frequencies)) (competitor frequencies len) = codeCost frequencies len := by
  rw [total,competitor,Multiset.map_map,codeCost,sumWeighted,Multiset.map_coe,Multiset.sum_coe]
  rfl

theorem leavesCost : forestCost (weights frequencies) (((codedBytes frequencies) : Multiset UInt8).map
    BinTree.leaf) = 0 := by
  rw [forestCost,Multiset.map_map]
  exact Multiset.sum_eq_zero (fun c hc => by
    obtain ⟨b,_,rfl⟩ := Multiset.mem_map.mp hc
    rfl)

theorem leavesPositive : ∀ c ∈ ((codedBytes frequencies) : Multiset UInt8).map BinTree.leaf,
    0 < BinTree.weight (weights frequencies) c :=
  leafPositive (fun _ hb => weightPositive (codedMem.mp (Multiset.mem_coe.mp hb)))

variable (small : ∑ b, (frequencies b).toNat < 2^64) (built : buildTree (initialQueue frequencies) = .ok [root])
include small built

theorem treeLeastCost {len : UInt8 → ℕ} (other : PrefixLengths frequencies len) :
    (shape root).cost (weights frequencies) ≤ codeCost frequencies len := by
  have optimal := greedyOptimal (treeGreedy small built) leavesPositive (competitorNames len)
    (competitorLengths other)
  rwa [leavesCost,competitorTotal,Nat.zero_add] at optimal

theorem treeTallest {len : UInt8 → ℕ} (other : PrefixLengths frequencies len)
    (cheap : codeCost frequencies len ≤ (shape root).cost (weights frequencies)) {b : UInt8}
    (coded : frequencies b ≠ 0) : len b ≤ (shape root).height := by
  have deep := greedyTallest (treeGreedy small built) leavesPositive (competitorNames len) (competitorLengths other)
    (by rw [leavesCost,competitorTotal,Nat.zero_add]; exact cheap)
  have member : (BinTree.leaf b,len b) ∈ competitor frequencies len :=
    Multiset.mem_map.mpr ⟨b,Multiset.mem_coe.mpr (codedMem.mpr coded),rfl⟩
  exact (reachMember (h := BinTree.height) member).trans deep

theorem leastCost (table : TableOf frequencies root lens) {len : UInt8 → ℕ}
    (other : PrefixLengths frequencies len) :
    codeCost frequencies (fun b => (lens b).toNat) ≤ codeCost frequencies len := by
  cases root with
  | leaf g c =>
    -- the single character is charged one bit, which every competitor needs as well
    refine Finset.sum_le_sum (fun b _ => ?_)
    by_cases coded : frequencies b = 0
    · simp [coded]
    · have one := lengthBound table b
      have positive := other.positive b coded
      simp only [shape,BinTree.height] at one
      have le : (lens b).toNat ≤ len b := by omega
      exact Nat.mul_le_mul_left _ le
  | inner g n l r =>
    rw [tableCost table]
    simpa [rootDepth,NodeT.isLeaf] using treeLeastCost small built other

theorem longestLength (table : TableOf frequencies root lens) {len : UInt8 → ℕ}
    (other : PrefixLengths frequencies len)
    (cheap : codeCost frequencies len ≤ codeCost frequencies (fun b => (lens b).toNat)) {b : UInt8}
    (coded : frequencies b ≠ 0) : ∃ c, frequencies c ≠ 0 ∧ len b ≤ (lens c).toNat := by
  cases root with
  | leaf g c =>
    refine ⟨b,coded,?_⟩
    have only : codedBytes frequencies = [c] := by
      have leaves := table.leaves
      simpa [shape] using leaves.symm
    rw [codeCost,codeCost,sumWeighted,sumWeighted,only] at cheap
    have same : b = c := by simpa [only] using codedMem.mpr coded
    subst same
    simp only [List.map_cons,List.map_nil,List.sum_cons,List.sum_nil,Nat.add_zero] at cheap
    exact Nat.le_of_mul_le_mul_left cheap (weightPositive coded)
  | inner g n l r =>
    rw [tableCost table] at cheap
    have tall := treeTallest small built other (by simpa [rootDepth,NodeT.isLeaf] using cheap) coded
    obtain ⟨p,hp,deep⟩ := BinTree.deepestLeaf (rootDepth (.inner g n l r)) (shape (.inner g n l r))
    have leaf : p.1 ∈ codedBytes frequencies := by
      refine table.leaves.mem_iff.mp ?_
      rw [BinTree.leaves,BinTree.depthsLeaves 0 (rootDepth (.inner g n l r))]
      exact List.mem_map_of_mem hp
    refine ⟨p.1,codedMem.mp leaf,?_⟩
    rw [table.depth p hp,deep]
    omega

end Root

theorem codeLengthsOptimal (frequencies : FrequencyTable) (occurs : ∃ b, frequencies b ≠ 0)
    (small : ∑ b, (frequencies b).toNat < 2^64) :
    ∃ lens, buildCodeLengths frequencies = .ok lens ∧ (∀ b, frequencies b ≠ 0 → 0 < (lens b).toNat) ∧
      ∑ b with frequencies b ≠ 0, (1/2 : ℚ)^(lens b).toNat ≤ 1 ∧ ∀ len : UInt8 → ℕ,
        (∀ b, frequencies b ≠ 0 → 0 < len b) → ∑ b with frequencies b ≠ 0, (1/2 : ℚ)^len b ≤ 1 →
          ∑ b, (frequencies b).toNat * (lens b).toNat ≤ ∑ b, (frequencies b).toNat * len b := by
  obtain ⟨lens,read,none_coded | ⟨root,built,table⟩⟩ := lengthsOf frequencies
  · obtain ⟨b,coded⟩ := occurs
    exact absurd (none_coded.1 b) coded
  · have code := tablePrefix table
    refine ⟨lens,read,code.positive,code.kraft,fun len positive kraft => ?_⟩
    exact leastCost small built table ⟨positive,kraft⟩

def twoSymbols : FrequencyTable := fun b => if b = 97 then 1 else if b = 98 then 2 else 0

theorem codeLengthsOptimalTwoSymbols :
    ∃ lens, buildCodeLengths twoSymbols = .ok lens ∧ (∀ b, twoSymbols b ≠ 0 → 0 < (lens b).toNat) ∧
      ∑ b with twoSymbols b ≠ 0, (1/2 : ℚ)^(lens b).toNat ≤ 1 ∧ ∀ len : UInt8 → ℕ,
        (∀ b, twoSymbols b ≠ 0 → 0 < len b) → ∑ b with twoSymbols b ≠ 0, (1/2 : ℚ)^len b ≤ 1 →
          ∑ b, (twoSymbols b).toNat * (lens b).toNat ≤ ∑ b, (twoSymbols b).toNat * len b :=
  codeLengthsOptimal twoSymbols ⟨97,by decide⟩ (by rw [sumAllBytes]; decide +kernel)

structure MinimumRedundancy (frequencies : FrequencyTable) (len : UInt8 → ℕ) : Prop where
  code : PrefixLengths frequencies len
  least : ∀ other, PrefixLengths frequencies other → codeCost frequencies len ≤ codeCost frequencies other

theorem lengthsFitIff (frequencies : FrequencyTable) (small : ∑ b, (frequencies b).toNat < 2^64) :
    (∃ lens, buildCodeLengths frequencies = .ok lens ∧ ∀ b, (lens b).toNat ≤ bitSize) ↔
      ∀ len, MinimumRedundancy frequencies len → ∀ b, frequencies b ≠ 0 → len b ≤ bitSize := by
  obtain ⟨lens,read,⟨none_coded,rfl⟩ | ⟨root,built,table⟩⟩ := lengthsOf frequencies
  · refine ⟨fun _ len _ b coded => absurd (none_coded b) coded,fun _ => ⟨_,read,fun b => by simp⟩⟩
  · constructor
    · rintro ⟨lens',read',fit⟩ len minimum b coded
      cases Except.ok.inj (read'.symm.trans read)
      obtain ⟨c,_,le⟩ := longestLength small built table minimum.code
        (minimum.least _ (tablePrefix table)) coded
      exact le.trans (fit c)
    · intro fit
      refine ⟨lens,read,fun b => ?_⟩
      by_cases coded : frequencies b = 0
      · simp [table.absent b coded]
      · exact fit _ ⟨tablePrefix table,fun other code => leastCost small built table code⟩ b coded

theorem lengthsFitIffTwoSymbols :
    (∃ lens, buildCodeLengths twoSymbols = .ok lens ∧ ∀ b, (lens b).toNat ≤ bitSize) ↔
      ∀ len, MinimumRedundancy twoSymbols len → ∀ b, twoSymbols b ≠ 0 → len b ≤ bitSize :=
  lengthsFitIff twoSymbols (by rw [sumAllBytes]; decide +kernel)

/-- Byte `k` occurs as often as the `k`-th Fibonacci number says, for `k` up to 65; byte 0 occurs once. -/
def fibonacciTable : FrequencyTable := fun b =>
  if b = 0 then 1 else if b ≤ 65 then UInt64.ofNat (Nat.fib b.toNat) else 0

theorem fibonacciTableTooLong : ¬ ∀ frequencies : FrequencyTable, ∑ b, (frequencies b).toNat ≤ 2^64-1 →
    ∃ lens, buildCodeLengths frequencies = .ok lens ∧ ∀ b, (lens b).toNat ≤ bitSize := by
  intro fits
  have size : ∑ b, (fibonacciTable b).toNat ≤ 2^64-1 := by rw [sumAllBytes]; decide +kernel
  obtain ⟨lens,read,le⟩ := fits fibonacciTable size
  have longest : (buildCodeLengths fibonacciTable).map (fun l => l 0) = .ok 65 := by decide +kernel
  rw [read] at longest
  have first : lens 0 = 65 := Except.ok.inj longest
  have bounded := le 0
  rw [first] at bounded
  exact absurd bounded (by decide)

end HuffmanArchiver.Optimality
