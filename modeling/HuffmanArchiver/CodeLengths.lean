import HuffmanArchiver.HeapOrder
import Mathlib.Algebra.BigOperators.Field
import Mathlib.Algebra.Order.BigOperators.Ring.Finset
import Mathlib.Data.Rat.Defs
import Mathlib.Data.FinEnum
import Mathlib.Tactic.FieldSimp
import Mathlib.Tactic.Positivity

/-! The length table that `build_code_lengths` returns: complete, of least cost, and of the greatest
length that least cost allows. -/
namespace HuffmanArchiver.CodeLengths
open Machine Codes HuffmanTree Queue Forest HeapOrder Library.BinaryHeap Library.GreedyTree

theorem depthSucc (k : ℕ) : UInt8.ofNat k + 1 = UInt8.ofNat (k+1) := by
  apply UInt8.toNat_inj.mp
  simp

theorem traverseSpec (node : NodeT) (lens : CodeLengthTable) (d : ℕ) (distinct : (shape node).leaves.Nodup) :
    (∀ p ∈ (shape node).depths d, traverseCodes node lens (UInt8.ofNat d) p.1 = UInt8.ofNat p.2) ∧
      ∀ b, b ∉ (shape node).leaves → traverseCodes node lens (UInt8.ofNat d) b = lens b := by
  induction node generalizing lens d with
  | leaf g b =>
    refine ⟨?_,?_⟩
    · intro p hp
      have same : p = (b,d) := by simpa [shape,BinTree.depths] using hp
      subst same
      exact tableSetSelf _ _ _
    · intro c hc
      exact tableSetOther _ _ (by simpa [shape] using hc)
  | inner g n l r hl hr =>
    simp only [shape,BinTree.leavesNode,List.nodup_append] at distinct
    obtain ⟨dl,dr,apart⟩ := distinct
    have left := hl lens (d+1) dl
    have right := hr (traverseCodes l lens (UInt8.ofNat (d+1))) (d+1) dr
    simp only [traverseCodes,depthSucc]
    refine ⟨?_,?_⟩
    · intro p hp
      rcases List.mem_append.mp hp with inside | inside
      · have leaf : p.1 ∈ (shape l).leaves := by
          rw [BinTree.leaves,BinTree.depthsLeaves 0 (d+1)]
          exact List.mem_map_of_mem inside
        rw [right.2 p.1 (fun other => apart _ leaf _ other rfl)]
        exact left.1 p inside
      · exact right.1 p inside
    · intro b hb
      simp only [shape,BinTree.leavesNode,List.mem_append,not_or] at hb
      rw [right.2 b hb.2,left.2 b hb.1]

/-- The depth `build_code_lengths` gives the root: one bit for the only character of the input. -/
def rootDepth (root : NodeT) : ℕ := if root.isLeaf then 1 else 0

structure TableOf (frequencies : FrequencyTable) (root : NodeT) (lens : CodeLengthTable) : Prop where
  leaves : (shape root).leaves.Perm (codedBytes frequencies)
  depth : ∀ p ∈ (shape root).depths (rootDepth root), (lens p.1).toNat = p.2
  absent : ∀ b, frequencies b = 0 → lens b = 0

theorem leavesCount {frequencies : FrequencyTable} {root : NodeT}
    (leaves : (shape root).leaves.Perm (codedBytes frequencies)) : (shape root).height < 256 := by
  have le := List.length_filter_le (fun b => decide (frequencies b ≠ 0)) allBytes
  have height := BinTree.heightLeaves (shape root)
  rw [leaves.length_eq] at height
  rw [allBytesLength] at le
  exact lt_of_lt_of_le height le

theorem rootDepthHeight (root : NodeT) : rootDepth root + (shape root).height ≤ max 1 (shape root).height := by
  cases root with
  | leaf g b => simp [rootDepth,NodeT.isLeaf,shape,BinTree.height]
  | inner g n l r => simp [rootDepth,NodeT.isLeaf]

theorem rootTable {frequencies : FrequencyTable} {root : NodeT}
    (leaves : (shape root).leaves.Perm (codedBytes frequencies)) :
    ∃ lens, treeCodeLengths [root] = .ok lens ∧ TableOf frequencies root lens := by
  have spec := traverseSpec root (fun _ => 0) (rootDepth root) (leaves.nodup_iff.mpr (codedNodup _))
  have start : (if root.isLeaf = true then 1 else 0 : UInt8) = UInt8.ofNat (rootDepth root) := by
    unfold rootDepth; split <;> rfl
  refine ⟨traverseCodes root (fun _ => 0) (UInt8.ofNat (rootDepth root)),?_,leaves,?_,?_⟩
  · simp [treeCodeLengths,require,start]
  · intro p hp
    have bound := (BinTree.depthBounds hp).2
    have top := rootDepthHeight root
    have small := leavesCount leaves
    rw [spec.1 p hp,narrowByte (by omega)]
  · intro b zero
    exact spec.2 b (fun inside => codedMem.mp (leaves.mem_iff.mp inside) zero)

theorem buildTreeAny (heap : HeapFunctions) {frequencies : FrequencyTable} (coded : ∃ b, frequencies b ≠ 0) :
    ∃ root, heap.buildTree (initialQueue frequencies) = .ok [root] ∧
      (shape root).leaves.Perm (codedBytes frequencies) := by
  have perm := heap.makePerm (initialQueue frequencies)
  have some_node : 0 < (initialQueue frequencies).length := by
    obtain ⟨b,hb⟩ := coded
    have mem : b ∈ codedBytes frequencies := codedMem.mpr hb
    simpa [initialQueue,codedBytes] using List.length_pos_of_mem mem
  obtain ⟨root,built,leaves⟩ := loopTree heap (initialQueue frequencies).length 0
    (by rw [perm.length_eq]; exact some_node) (by rw [perm.length_eq]; omega)
  refine ⟨root,built,leaves.trans ?_⟩
  rw [← initialLeaves frequencies]
  exact leavesPerm perm

theorem lengthsOfAny (heap : HeapFunctions) (frequencies : FrequencyTable) : ∃ queue lens,
    heap.buildTree (initialQueue frequencies) = .ok queue ∧ heap.buildCodeLengths frequencies = .ok lens ∧
      ((∀ b, frequencies b = 0) ∧ queue = [] ∧ lens = (fun _ => 0) ∨
        ∃ root, queue = [root] ∧ TableOf frequencies root lens) := by
  by_cases coded : ∃ b, frequencies b ≠ 0
  · obtain ⟨root,built,leaves⟩ := buildTreeAny heap coded
    obtain ⟨lens,read,table⟩ := rootTable leaves
    exact ⟨[root],lens,built,by simp [HeapFunctions.buildCodeLengths,built,read],Or.inr ⟨root,rfl,table⟩⟩
  · have none_coded : ∀ b, frequencies b = 0 := fun b => by
      by_contra nonzero
      exact coded ⟨b,nonzero⟩
    have empty : initialQueue frequencies = [] := by simp [initialQueue,none_coded]
    have made : heap.make [] = [] := List.perm_nil.mp (heap.makePerm [])
    have built : heap.buildTree (initialQueue frequencies) = .ok [] := by
      simp [empty,HeapFunctions.buildTree,made,HeapFunctions.buildLoop]
    refine ⟨[],fun _ => 0,built,?_,Or.inl ⟨none_coded,rfl,rfl⟩⟩
    simp [HeapFunctions.buildCodeLengths,built,treeCodeLengths]

theorem lengthsOf (frequencies : FrequencyTable) : ∃ lens, buildCodeLengths frequencies = .ok lens ∧
    ((∀ b, frequencies b = 0) ∧ lens = (fun _ => 0) ∨
      ∃ root, buildTree (initialQueue frequencies) = .ok [root] ∧ TableOf frequencies root lens) := by
  obtain ⟨queue,lens,built,read,shaped⟩ := lengthsOfAny libstdcxx frequencies
  rw [sameTree] at built
  rw [sameCodeLengths] at read
  refine ⟨lens,read,?_⟩
  rcases shaped with ⟨none_coded,_,zeros⟩ | ⟨root,rfl,table⟩
  · exact Or.inl ⟨none_coded,zeros⟩
  · exact Or.inr ⟨root,built,table⟩

section Table
variable {frequencies : FrequencyTable} {root : NodeT} {lens : CodeLengthTable}

theorem sumLeaves (table : TableOf frequencies root lens) (g : UInt8 → ℕ → ℕ) :
    (((shape root).depths (rootDepth root)).map (fun p => g p.1 p.2)).sum =
      ((codedBytes frequencies).map (fun b => g b (lens b).toNat)).sum := by
  have same : ((shape root).depths (rootDepth root)).map (fun p => g p.1 p.2) =
      (((shape root).depths (rootDepth root)).map Prod.fst).map (fun b => g b (lens b).toNat) := by
    rw [List.map_map]
    refine List.map_congr_left ?_
    intro p hp
    simp [table.depth p hp]
  rw [same,BinTree.depthsLeaves _ 0]
  exact (table.leaves.map _).sum_eq

theorem leafOf (table : TableOf frequencies root lens) {b : UInt8} (coded : frequencies b ≠ 0) :
    (b,(lens b).toNat) ∈ (shape root).depths (rootDepth root) := by
  have mem : b ∈ ((shape root).depths (rootDepth root)).map Prod.fst := by
    rw [BinTree.depthsLeaves _ 0]
    exact table.leaves.mem_iff.mpr (codedMem.mpr coded)
  obtain ⟨p,hp,rfl⟩ := List.mem_map.mp mem
  rwa [table.depth p hp]

theorem lengthPositive (table : TableOf frequencies root lens) {b : UInt8} (coded : frequencies b ≠ 0) :
    0 < (lens b).toNat := by
  have leaf := leafOf table coded
  cases root with
  | leaf g c =>
    have bound := (BinTree.depthBounds leaf).1
    simp only [rootDepth,NodeT.isLeaf,if_true] at bound
    omega
  | inner g n l r =>
    have low : 1 ≤ (lens b).toNat := by
      rcases List.mem_append.mp leaf with inside | inside
      · have := (BinTree.depthBounds inside).1; omega
      · have := (BinTree.depthBounds inside).1; omega
    exact low

theorem lengthCoded (table : TableOf frequencies root lens) (b : UInt8) : lens b ≠ 0 ↔ frequencies b ≠ 0 :=
  ⟨fun coded zero => coded (table.absent b zero),fun coded => nonzeroIff.mpr (lengthPositive table coded)⟩

theorem lengthBound (table : TableOf frequencies root lens) (b : UInt8) :
    (lens b).toNat ≤ max 1 (shape root).height := by
  by_cases coded : frequencies b = 0
  · simp [table.absent b coded]
  · exact (BinTree.depthBounds (leafOf table coded)).2.trans (rootDepthHeight root)

end Table

theorem sumAllBytes {M : Type} [AddCommMonoid M] (g : UInt8 → M) : ∑ b, g b = (allBytes.map g).sum := by
  have whole : (Finset.univ : Finset UInt8) = allBytes.toFinset := by
    ext b
    simp [allBytesMem]
  rw [← List.sum_toFinset g allBytesNodup,whole]

theorem sumWhere {M : Type} [AddCommMonoid M] (p : UInt8 → Prop) [DecidablePred p] (g : UInt8 → M) :
    ∑ b with p b, g b = ((allBytes.filter p).map g).sum := by
  have part : Finset.univ.filter p = (allBytes.filter p).toFinset := by
    ext b
    simp [allBytesMem]
  rw [← List.sum_toFinset g (allBytesNodup.filter _),part]

theorem sumCoded {M : Type} [AddCommMonoid M] (frequencies : FrequencyTable) (g : UInt8 → M) :
    ∑ b with frequencies b ≠ 0, g b = ((codedBytes frequencies).map g).sum :=
  sumWhere (fun b => frequencies b ≠ 0) g

theorem sumWeighted (frequencies : FrequencyTable) (g : UInt8 → ℕ) :
    ∑ b, (frequencies b).toNat * g b =
      ((codedBytes frequencies).map (fun b => (frequencies b).toNat * g b)).sum := by
  rw [← sumCoded]
  refine (Finset.sum_filter_of_ne ?_).symm
  intro b _ nonzero zero
  exact nonzero (by simp [zero])

structure PrefixLengths (frequencies : FrequencyTable) (len : UInt8 → ℕ) : Prop where
  positive : ∀ b, frequencies b ≠ 0 → 0 < len b
  kraft : ∑ b with frequencies b ≠ 0, (1/2 : ℚ)^len b ≤ 1

def codeCost (frequencies : FrequencyTable) (len : UInt8 → ℕ) : ℕ := ∑ b, (frequencies b).toNat * len b

theorem halfPow {N l : ℕ} (le : l ≤ N) : ((2^(N-l) : ℕ) : ℚ) = 2^N * (1/2)^l := by
  have split : (2:ℚ)^N = 2^(N-l) * 2^l := by rw [← pow_add,Nat.sub_add_cancel le]
  rw [split,mul_assoc,← mul_pow]
  norm_num

theorem listKraft {N : ℕ} {ls : List ℕ} (bounded : ∀ l ∈ ls, l ≤ N) :
    (((ls.map (fun l => 2^(N-l))).sum : ℕ) : ℚ) = 2^N * (ls.map (fun l => (1/2 : ℚ)^l)).sum := by
  induction ls with
  | nil => simp
  | cons l ls ih =>
    simp only [List.map_cons,List.sum_cons,Nat.cast_add]
    rw [ih (fun m hm => bounded m (by simp [hm])),halfPow (bounded l (by simp)),mul_add]

theorem competitorFits {frequencies : FrequencyTable} {len : UInt8 → ℕ} (other : PrefixLengths frequencies len) :
    KraftFits (∑ b, len b) ((codedBytes frequencies).map len : Multiset ℕ) := by
  have bounded : ∀ l ∈ (codedBytes frequencies).map len, l ≤ ∑ b, len b := by
    intro l hl
    obtain ⟨b,_,rfl⟩ := List.mem_map.mp hl
    exact Finset.single_le_sum (f := len) (fun _ _ => Nat.zero_le _) (Finset.mem_univ b)
  refine ⟨fun l hl => bounded l (Multiset.mem_coe.mp hl),?_⟩
  have kraft := other.kraft
  rw [sumCoded] at kraft
  have le : (((((codedBytes frequencies).map len).map (fun l => 2^(∑ b, len b - l))).sum : ℕ) : ℚ) ≤
    2^(∑ b, len b) := by
    rw [listKraft bounded,List.map_map]
    exact mul_le_of_le_one_right (by positivity) kraft
  rw [Multiset.map_coe,Multiset.sum_coe]
  exact_mod_cast le

section Complete
variable {frequencies : FrequencyTable} {root : NodeT} {lens : CodeLengthTable}

theorem tableKraft (table : TableOf frequencies root lens) :
    ∑ b with frequencies b ≠ 0, (1/2 : ℚ)^(lens b).toNat = (1/2)^rootDepth root := by
  have full := BinTree.kraftDepths (d := rootDepth root) (shape root) (le_refl _)
  rw [sumLeaves table (fun _ k => 2^(rootDepth root + (shape root).height - k))] at full
  have bounded : ∀ l ∈ (codedBytes frequencies).map (fun b => (lens b).toNat),
      l ≤ rootDepth root + (shape root).height := by
    intro l hl
    obtain ⟨b,hb,rfl⟩ := List.mem_map.mp hl
    exact (BinTree.depthBounds (leafOf table (codedMem.mp hb))).2
  have scaled := listKraft bounded
  rw [List.map_map,List.map_map] at scaled
  have exact_sum : (2^(rootDepth root + (shape root).height) : ℚ) *
      ((codedBytes frequencies).map (fun b => (1/2 : ℚ)^(lens b).toNat)).sum =
        2^(rootDepth root + (shape root).height) * (1/2)^rootDepth root := by
    rw [← halfPow (Nat.le_add_right _ _)]
    exact scaled.symm.trans (by exact_mod_cast full)
  rw [sumCoded]
  exact mul_left_cancel₀ (by positivity) exact_sum

theorem lengthsKraft (table : TableOf frequencies root lens) :
    ∑ b with lens b ≠ 0, (1/2 : ℚ)^(lens b).toNat = (1/2)^rootDepth root := by
  rw [Finset.filter_congr (fun b _ => lengthCoded table b)]
  exact tableKraft table

theorem inTree (table : TableOf frequencies root lens) {b : UInt8} (coded : frequencies b ≠ 0) :
    b ∈ (shape root).leaves :=
  table.leaves.mem_iff.mpr (codedMem.mpr coded)

theorem rootTall (table : TableOf frequencies root lens) {b c : UInt8} (different : b ≠ c)
    (hb : frequencies b ≠ 0) (hc : frequencies c ≠ 0) : 1 ≤ (shape root).height := by
  cases root with
  | leaf g a =>
    have eb : b = a := by simpa [shape] using inTree table hb
    have ec : c = a := by simpa [shape] using inTree table hc
    exact absurd (eb.trans ec.symm) different
  | inner g n l r => exact Nat.succ_le_succ (Nat.zero_le _)

structure CompleteLengths (frequencies : FrequencyTable) (queue : List NodeT) (lens : CodeLengthTable) : Prop where
  coded : ∀ b, lens b ≠ 0 ↔ frequencies b ≠ 0
  kraft : (∃ b c, b ≠ c ∧ frequencies b ≠ 0 ∧ frequencies c ≠ 0) → ∑ b with lens b ≠ 0, (1/2 : ℚ)^(lens b).toNat = 1
  single : ∀ b, frequencies b ≠ 0 → (∀ c, frequencies c ≠ 0 → c = b) → (lens b).toNat = 1
  depth : ∀ root ∈ queue, ∀ p ∈ (shape root).depths (rootDepth root), (lens p.1).toNat = p.2

theorem tableComplete (table : TableOf frequencies root lens) : CompleteLengths frequencies [root] lens := by
  refine ⟨lengthCoded table,?_,?_,?_⟩
  · rintro ⟨b,c,different,hb,hc⟩
    have kraft := lengthsKraft table
    have tall := rootTall table different hb hc
    cases root with
    | leaf g a => simp [shape,BinTree.height] at tall
    | inner g n l r => simpa [rootDepth,NodeT.isLeaf] using kraft
  · intro b hb only
    have one := lengthPositive table hb
    have bound := lengthBound table b
    have leaves := BinTree.heightLeaves (shape root)
    have alone : codedBytes frequencies = [b] :=
      List.perm_singleton.mp ((List.perm_ext_iff_of_nodup (codedNodup _) (List.nodup_singleton b)).mpr (fun c => by
        rw [codedMem,List.mem_singleton]
        exact ⟨only c,fun same => same ▸ hb⟩))
    rw [table.leaves.length_eq,alone,List.length_singleton] at leaves
    omega
  · intro x hx
    cases List.mem_singleton.mp hx
    exact table.depth

theorem noneComplete (none_coded : ∀ b, frequencies b = 0) : CompleteLengths frequencies [] (fun _ => 0) :=
  ⟨fun b => by simp [none_coded b],fun ⟨b,_,_,hb,_⟩ => absurd (none_coded b) hb,
    fun b hb => absurd (none_coded b) hb,fun root hroot => by simp at hroot⟩

end Complete

theorem lengthsComplete (frequencies : FrequencyTable) :
    (∃ queue lens, buildTree (initialQueue frequencies) = .ok queue ∧ buildCodeLengths frequencies = .ok lens ∧
      CompleteLengths frequencies queue lens) ∧
    ∀ heap : HeapFunctions, ∃ queue lens, heap.buildTree (initialQueue frequencies) = .ok queue ∧
      heap.buildCodeLengths frequencies = .ok lens ∧ CompleteLengths frequencies queue lens := by
  have any : ∀ heap : HeapFunctions, ∃ queue lens, heap.buildTree (initialQueue frequencies) = .ok queue ∧
      heap.buildCodeLengths frequencies = .ok lens ∧ CompleteLengths frequencies queue lens := fun heap => by
    obtain ⟨queue,lens,built,read,shaped⟩ := lengthsOfAny heap frequencies
    refine ⟨queue,lens,built,read,?_⟩
    rcases shaped with ⟨none_coded,rfl,rfl⟩ | ⟨root,rfl,table⟩
    · exact noneComplete none_coded
    · exact tableComplete table
  have own := any libstdcxx
  rw [sameTree,sameCodeLengths] at own
  exact ⟨own,any⟩

def weights (frequencies : FrequencyTable) : UInt8 → ℕ := fun b => (frequencies b).toNat

theorem codedTotal (frequencies : FrequencyTable) :
    ∑ b, (frequencies b).toNat = ((codedBytes frequencies).map (fun b => (frequencies b).toNat)).sum := by
  simpa only [Nat.mul_one] using sumWeighted frequencies (fun _ => 1)

theorem weightPositive {frequencies : FrequencyTable} {b : UInt8} (coded : frequencies b ≠ 0) :
    0 < weights frequencies b := by
  have nonzero : (frequencies b).toNat ≠ 0 := fun zero => coded (UInt64.toNat_inj.mp (by simpa using zero))
  exact Nat.pos_of_ne_zero nonzero

theorem startLive {frequencies : FrequencyTable} (small : ∑ b, (frequencies b).toNat < 2^64) :
    Live (weights frequencies) (makeHeap HuffmanTree.cmp (initialQueue frequencies)) := by
  refine livePerm ?_ (makeHeapSpec cmpDecides _).2
  have leafOf : ∀ x ∈ initialQueue frequencies, ∃ b, frequencies b ≠ 0 ∧ x = .leaf (frequencies b) b := by
    intro x hx
    obtain ⟨b,hb,rfl⟩ := List.mem_map.mp hx
    exact ⟨b,by simpa [allBytesMem] using hb,rfl⟩
  refine ⟨?_,?_,?_,?_,?_⟩
  · intro x hx
    obtain ⟨b,_,rfl⟩ := leafOf x hx
    rfl
  · intro x hx
    obtain ⟨b,coded,rfl⟩ := leafOf x hx
    exact weightPositive coded
  · simp only [initialQueue,List.map_map]
    change ((codedBytes frequencies).map (fun b => (frequencies b).toNat)).sum < _
    rwa [← codedTotal]
  · intro x hx y hy le
    obtain ⟨b,_,rfl⟩ := leafOf x hx
    obtain ⟨c,_,rfl⟩ := leafOf y hy
    rw [← not_lt,keyLess] at le
    simp only [Before,Precedes,shape,BinTree.weight,BinTree.height,weights]
    simp only [NodeT.freq] at le
    omega
  · intro y hy c hc
    obtain ⟨b,_,rfl⟩ := leafOf y hy
    simp [children] at hc

theorem treeGreedy {frequencies : FrequencyTable} {root : NodeT} (small : ∑ b, (frequencies b).toNat < 2^64)
    (built : buildTree (initialQueue frequencies) = .ok [root]) :
    Greedy (weights frequencies) BinTree.height (((codedBytes frequencies) : Multiset UInt8).map BinTree.leaf)
      (shape root) := by
  obtain ⟨_,_,rounds⟩ := loopRounds _ (startNumbered frequencies) built
  have merged := roundsGreedy rounds (startLive small)
  have leaves : ((makeHeap HuffmanTree.cmp (initialQueue frequencies)).map shape : Multiset (BinTree UInt8)) =
      ((codedBytes frequencies) : Multiset UInt8).map BinTree.leaf := by
    rw [Multiset.map_coe,Multiset.coe_eq_coe]
    refine ((makeHeapSpec cmpDecides _).2.map shape).trans (List.Perm.of_eq ?_)
    simp only [initialQueue,List.map_map]
    rfl
  rwa [leaves] at merged

end HuffmanArchiver.CodeLengths
