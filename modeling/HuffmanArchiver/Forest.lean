import HuffmanArchiver.Queue
import HuffmanArchiver.Library.GreedyTree

/-! The run of `build_tree` as a greedy merging of the forest in its queue, and the length table
read off the last tree. -/
namespace HuffmanArchiver.Forest
open Machine Codes HuffmanTree Queue Library.BinaryHeap Library.GreedyTree

def shape : NodeT → BinTree UInt8
  | .leaf _ b => .leaf b
  | .inner _ _ l r => .node (shape l) (shape r)

def children : NodeT → List NodeT
  | .leaf _ _ => []
  | .inner _ _ l r => [l,r]

@[simp] theorem shapeMerge (l r : NodeT) (aux : UInt8) : shape (merge l r aux) = .node (shape l) (shape r) := rfl

def codedBytes (frequencies : FrequencyTable) : List UInt8 := allBytes.filter (fun b => frequencies b ≠ 0)

theorem codedMem {frequencies : FrequencyTable} {b : UInt8} : b ∈ codedBytes frequencies ↔ frequencies b ≠ 0 := by
  simp [codedBytes,allBytesMem]

theorem codedNodup (frequencies : FrequencyTable) : (codedBytes frequencies).Nodup := allBytesNodup.filter _

def queueLeaves (queue : List NodeT) : List UInt8 := queue.flatMap (fun x => (shape x).leaves)

theorem initialLeaves (frequencies : FrequencyTable) :
    queueLeaves (initialQueue frequencies) = codedBytes frequencies := by
  simp [queueLeaves,initialQueue,codedBytes,List.flatMap_map,shape]

theorem leavesPerm {queue queue' : List NodeT} (perm : queue.Perm queue') :
    (queueLeaves queue).Perm (queueLeaves queue') := perm.flatMap_right _

section Weights
variable (f : UInt8 → ℕ)

def Before (x y : NodeT) : Prop := Precedes (BinTree.weight f) BinTree.height (shape x) (shape y)

/-- The invariant behind the greedy choice. Among nodes of one frequency the order of the queue is by
falling height, because the two parts of a merged node come before everything still alive. -/
structure Live (queue : List NodeT) : Prop where
  weigh : ∀ x ∈ queue, x.freq.toNat = (shape x).weight f
  positive : ∀ x ∈ queue, 0 < (shape x).weight f
  total : (queue.map (fun x => (shape x).weight f)).sum < 2^64
  ordered : ∀ x ∈ queue, ∀ y ∈ queue, nodeKey x ≤ nodeKey y → Before f x y
  older : ∀ y ∈ queue, ∀ c ∈ children y, ∀ x ∈ queue, Before f c x

variable {f}

theorem livePerm {queue queue' : List NodeT} (live : Live f queue) (perm : queue'.Perm queue) : Live f queue' := by
  have mem := fun x => (perm.mem_iff (a := x)).mp
  refine ⟨fun x hx => live.weigh x (mem x hx),fun x hx => live.positive x (mem x hx),?_,
    fun x hx y hy => live.ordered x (mem x hx) y (mem y hy),
    fun y hy c hc x hx => live.older y (mem y hy) c hc x (mem x hx)⟩
  rw [(perm.map _).sum_eq]
  exact live.total

theorem beforeHeavier {x y : NodeT} (less : (shape x).weight f < (shape y).weight f) : Before f x y := Or.inl less

theorem mergedTaller {c d x y : NodeT} (cy : Before f c y) (dx : Before f d x) (dy : Before f d y)
    (same : (shape c).weight f + (shape d).weight f = (shape x).weight f + (shape y).weight f) :
    max (shape x).height (shape y).height ≤ max (shape c).height (shape d).height := by
  simp only [Before,Precedes] at cy dx dy
  omega

section Merge
variable {first second : NodeT} {rest : List NodeT} {aux : UInt8} (live : Live f (first :: second :: rest))
include live

theorem mergedFreq : (merge first second aux).freq.toNat = (shape first).weight f + (shape second).weight f := by
  have sum := live.total
  simp only [List.map_cons,List.sum_cons] at sum
  rw [mergeFreq,UInt64.toNat_add,live.weigh first (by simp),live.weigh second (by simp),Nat.mod_eq_of_lt (by omega)]

theorem mergedBefore {y : NodeT} (alive : y ∈ rest) (older : y.isLeaf = false → y.byte.toNat < aux.toNat)
    (le : nodeKey (merge first second aux) ≤ nodeKey y) : Before f (merge first second aux) y := by
  have weigh := live.weigh y (by simp [alive])
  rw [← not_lt,keyLess,mergedFreq live,weigh,mergeLeaf,mergeByte] at le
  rcases Nat.lt_trichotomy ((shape first).weight f + (shape second).weight f)
    ((shape y).weight f) with less | same | more
  · exact beforeHeavier less
  · cases y with
    | leaf g b => exact Or.inr ⟨same,Nat.zero_le _⟩
    | inner g b c d =>
      have counted := older rfl
      simp [NodeT.isLeaf,NodeT.byte] at le counted
      omega
  · omega

theorem beforeMerged {y : NodeT} (alive : y ∈ rest) (le : nodeKey y ≤ nodeKey (merge first second aux)) :
    Before f y (merge first second aux) := by
  have inside : y ∈ first :: second :: rest := by simp [alive]
  rw [← not_lt,keyLess,mergedFreq live,live.weigh y inside,mergeLeaf,mergeByte] at le
  rcases Nat.lt_trichotomy ((shape y).weight f) ((shape first).weight f +
    (shape second).weight f) with less | same | more
  · exact beforeHeavier less
  · cases y with
    | leaf g b => simp [NodeT.isLeaf] at le; omega
    | inner g b c d =>
      have bc := live.older _ inside c (by simp [children])
      have bd := live.older _ inside d (by simp [children])
      exact Or.inr ⟨same,Nat.succ_le_succ (mergedTaller (bc second (by simp)) (bd first (by simp))
        (bd second (by simp)) same)⟩
  · omega

theorem partBefore {c : NodeT} (part : c ∈ children (merge first second aux)) :
    Before f c (merge first second aux) := by
  have p1 := live.positive first (by simp)
  have p2 := live.positive second (by simp)
  apply beforeHeavier
  simp only [shapeMerge,BinTree.weight]
  have either : c = first ∨ c = second := by simpa [children,merge] using part
  rcases either with rfl | rfl <;> omega

theorem childBefore {c y : NodeT} (alive : y ∈ rest) (child : c ∈ children y) :
    Before f c (merge first second aux) := by
  have light := precedesWeight (live.older y (by simp [alive]) c child first (by simp))
  have p2 := live.positive second (by simp)
  exact beforeHeavier (by simp only [shapeMerge,BinTree.weight]; omega)

end Merge

theorem nextLive {queue : List NodeT} {aux : UInt8} {r : Round} (n : Numbered queue aux)
    (taken : Taken queue r) (live : Live f queue) : Live f (r.next aux) := by
  have l := livePerm live taken.perm
  have kept : ∀ x, x ∈ r.rest → x ∈ r.first :: r.second :: r.rest := fun x hx => by simp [hx]
  have split : ∀ x, x ∈ r.next aux → x ∈ r.rest ∨ x = merge r.first r.second aux := fun x hx => by
    simpa [Round.next] using hx
  refine ⟨?_,?_,?_,?_,?_⟩
  · intro x hx
    rcases split x hx with old | rfl
    · exact l.weigh x (kept x old)
    · exact mergedFreq l
  · intro x hx
    rcases split x hx with old | rfl
    · exact l.positive x (kept x old)
    · exact Nat.add_pos_left (l.positive r.first (by simp)) _
  · have sum := l.total
    simp only [List.map_cons,List.sum_cons] at sum
    simp only [Round.next,List.map_append,List.sum_append,List.map_cons,List.map_nil,List.sum_cons,List.sum_nil,
      shapeMerge,BinTree.weight]
    omega
  · intro x hx y hy le
    rcases split x hx with oldx | rfl
    · rcases split y hy with oldy | rfl
      · exact l.ordered x (kept x oldx) y (kept y oldy) le
      · exact beforeMerged l oldx le
    · rcases split y hy with oldy | rfl
      · exact mergedBefore l oldy (n.older y (taken.perm.mem_iff.mp (kept y oldy))) le
      · exact Or.inr ⟨rfl,le_refl _⟩
  · intro y hy c hc x hx
    rcases split y hy with oldy | rfl
    · rcases split x hx with oldx | rfl
      · exact l.older y (kept y oldy) c hc x (kept x oldx)
      · exact childBefore l oldy hc
    · rcases split x hx with oldx | rfl
      · have least := taken.least x oldx
        have either : c = r.first ∨ c = r.second := by simpa [children,merge] using hc
        rcases either with rfl | rfl
        · exact l.ordered _ (by simp) x (kept x oldx) least.1
        · exact l.ordered _ (by simp) x (kept x oldx) least.2
      · exact partBefore l hc

theorem roundsGreedy {count : ℕ} {queue : List NodeT} {aux : UInt8} {root : NodeT}
    (rounds : Rounds count queue aux root)
    (live : Live f queue) : Greedy f BinTree.height (queue.map shape : Multiset (BinTree UInt8)) (shape root) := by
  induction rounds with
  | done => exact .done _
  | @round count queue aux r root n taken rest ih =>
    have later := ih (nextLive n taken live)
    have before : (queue.map shape : Multiset (BinTree UInt8)) =
        shape r.first ::ₘ shape r.second ::ₘ (r.rest.map shape : Multiset (BinTree UInt8)) :=
      (Multiset.coe_eq_coe.mpr (taken.perm.map shape)).symm
    have after : ((r.next aux).map shape : Multiset (BinTree UInt8)) =
        .node (shape r.first) (shape r.second) ::ₘ (r.rest.map shape : Multiset (BinTree UInt8)) := by
      simp only [Round.next,List.map_append,List.map_cons,List.map_nil,shapeMerge]
      exact Multiset.coe_eq_coe.mpr (List.perm_append_singleton _ _)
    rw [before]
    rw [after] at later
    refine .merge ?_ later
    have l := livePerm live taken.perm
    intro c hc
    obtain ⟨x,hx,rfl⟩ := List.mem_map.mp (Multiset.mem_coe.mp hc)
    have least := taken.least x hx
    exact ⟨l.ordered _ (by simp) x (by simp [hx]) least.1,l.ordered _ (by simp) x (by simp [hx]) least.2⟩

end Weights
end HuffmanArchiver.Forest
