import HuffmanArchiver.RoundTrip

/-! How large a file has to be before `build_code_lengths` gives a byte a long code. -/
namespace HuffmanArchiver.Fibonacci
open Machine Codes HuffmanTree Forest CodeLengths Optimality RoundTrip Huffman Library.GreedyTree

section Root
variable {frequencies : FrequencyTable} {root : NodeT} {lens : CodeLengthTable}
  (small : ∑ b, (frequencies b).toNat < 2^64) (built : buildTree (initialQueue frequencies) = .ok [root])
include small built

theorem rootWeight : (shape root).weight (weights frequencies) = ∑ b, (frequencies b).toNat := by
  rw [codedTotal,← greedyWeight (treeGreedy small built),Multiset.map_map,Multiset.map_coe,Multiset.sum_coe]
  rfl

theorem heightFibonacci : Nat.fib ((shape root).height+2) ≤ ∑ b, (frequencies b).toNat := by
  rw [← rootWeight small built]
  exact greedyFibonacci (treeGreedy small built)
    (leafForest (fun b hb => weightPositive (codedMem.mp (Multiset.mem_coe.mp hb))))

end Root

theorem lengthsFibonacci {frequencies : FrequencyTable} (two : ∃ b c, b ≠ c ∧ frequencies b ≠ 0 ∧ frequencies c ≠ 0)
    (small : ∑ b, (frequencies b).toNat < 2^64) :
    ∃ lens, buildCodeLengths frequencies = .ok lens ∧
      ∀ b, Nat.fib ((lens b).toNat+2) ≤ ∑ c, (frequencies c).toNat := by
  obtain ⟨b,c,different,hb,hc⟩ := two
  obtain ⟨lens,read,⟨none_coded,_⟩ | ⟨root,built,table⟩⟩ := lengthsOf frequencies
  · exact absurd (none_coded b) hb
  · refine ⟨lens,read,fun a => ?_⟩
    have tall := rootTall table different hb hc
    have bound := lengthBound table a
    rw [Nat.max_eq_right tall] at bound
    exact (Nat.fib_mono (Nat.add_le_add_right bound 2)).trans (heightFibonacci small built)

theorem fib67 : Nat.fib 67 = 44945570212853 := by decide +kernel

theorem lengthsOfOne {frequencies : FrequencyTable} (one : ¬ ∃ b c, b ≠ c ∧ frequencies b ≠ 0 ∧ frequencies c ≠ 0) :
    ∃ lens, buildCodeLengths frequencies = .ok lens ∧ ∀ b, (lens b).toNat ≤ 1 := by
  obtain ⟨queue,lens,_,read,complete⟩ := (lengthsComplete frequencies).1
  refine ⟨lens,read,fun b => ?_⟩
  by_cases coded : frequencies b = 0
  · have zero : lens b = 0 := by
      by_contra nonzero
      exact (complete.coded b).mp nonzero coded
    rw [zero]
    exact Nat.zero_le _
  · refine (complete.single b coded (fun c hc => ?_)).le
    by_contra different
    exact one ⟨c,b,different,hc,coded⟩

theorem fileLengths {file : Bytes} (short : file.length < Nat.fib 67) :
    ∃ lens, buildCodeLengths (byteCounts file) = .ok lens ∧ ∀ b, (lens b).toNat ≤ bitSize := by
  have small : file.length < 2^64 := by rw [fib67] at short; omega
  by_cases two : ∃ b c, b ≠ c ∧ byteCounts file b ≠ 0 ∧ byteCounts file c ≠ 0
  · obtain ⟨lens,read,fib⟩ := lengthsFibonacci two (countsSmall small)
    refine ⟨lens,read,fun b => ?_⟩
    have sum := fib b
    simp only [countToNat small,countTotal] at sum
    by_contra long
    have grown : Nat.fib 67 ≤ Nat.fib ((lens b).toNat+2) := Nat.fib_mono (by unfold bitSize at long; omega)
    omega
  · obtain ⟨lens,read,le⟩ := lengthsOfOne two
    exact ⟨lens,read,fun b => (le b).trans (by decide)⟩

theorem lengthsWithinFibonacci :
    (∀ frequencies : FrequencyTable, (∃ b c, b ≠ c ∧ frequencies b ≠ 0 ∧ frequencies c ≠ 0) →
      ∑ b, (frequencies b).toNat < 2^64 → ∃ lens, buildCodeLengths frequencies = .ok lens ∧
        ∀ b, Nat.fib ((lens b).toNat+2) ≤ ∑ c, (frequencies c).toNat) ∧
    Nat.fib 67 = 44945570212853 ∧
    ∀ (file : Bytes) (table : FrequencyTable) (filesize : UInt64), file.length < 44945570212853 →
      ∃ freq size lens, buildFrequencyTable {data := file, pos := 0} table filesize = .ok (freq,size) ∧
        buildCodeLengths freq = .ok lens ∧ ∀ b, (lens b).toNat ≤ 64 := by
  refine ⟨fun frequencies two small => lengthsFibonacci two small,fib67,?_⟩
  intro file table filesize short
  obtain ⟨lens,read,fits⟩ := fileLengths (fib67 ▸ short)
  exact ⟨byteCounts file,_,lens,frequencySpec file table filesize,read,fits⟩

theorem lengthsWithinFibonacciTwoSymbols :
    (∃ lens, buildCodeLengths twoSymbols = .ok lens ∧
      ∀ b, Nat.fib ((lens b).toNat+2) ≤ ∑ c, (twoSymbols c).toNat) ∧
    ∃ freq size lens, buildFrequencyTable {data := threeBytes, pos := 0} (fun _ => 0) 0 = .ok (freq,size) ∧
      buildCodeLengths freq = .ok lens ∧ ∀ b, (lens b).toNat ≤ 64 :=
  ⟨lengthsWithinFibonacci.1 twoSymbols ⟨97,98,by decide,by decide,by decide⟩ (by rw [sumAllBytes]; decide +kernel),
    lengthsWithinFibonacci.2.2 threeBytes (fun _ => 0) 0 (by decide)⟩

end HuffmanArchiver.Fibonacci
