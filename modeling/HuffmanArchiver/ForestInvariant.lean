import HuffmanArchiver.Textbook

/-! What holds of the whole forest in the queue of `build_tree`: nothing of the table is lost or counted
twice, and no two nodes of the queue are alike to `node_ptr_less`. -/
namespace HuffmanArchiver.ForestInvariant
open Machine HuffmanTree Queue Forest HeapOrder CodeLengths Textbook Library.BinaryHeap

def nodes : NodeT → List NodeT
  | .leaf f b => [.leaf f b]
  | .inner f n l r => .inner f n l r :: (nodes l ++ nodes r)

def leafNodes : NodeT → List NodeT
  | .leaf f b => [.leaf f b]
  | .inner _ _ l r => leafNodes l ++ leafNodes r

theorem selfNode (x : NodeT) : x ∈ nodes x := by
  cases x with
  | leaf f b => exact List.mem_singleton_self _
  | inner f n l r => exact List.mem_cons_self

def forest (queue : List NodeT) : List NodeT := queue.flatMap nodes

def queueLeafNodes (queue : List NodeT) : List NodeT := queue.flatMap leafNodes

def freqSum (l : List NodeT) : ℕ := (l.map (fun x => x.freq.toNat)).sum

def mergedNumbers (l : List NodeT) : List UInt8 := (l.filter (fun x => !x.isLeaf)).map NodeT.byte

@[simp] theorem freqSumAppend (l m : List NodeT) : freqSum (l ++ m) = freqSum l + freqSum m := by
  simp [freqSum]

theorem freqSumPerm {l m : List NodeT} (perm : l.Perm m) : freqSum l = freqSum m := (perm.map _).sum_eq

theorem mergedNumbersPerm {l m : List NodeT} (perm : l.Perm m) : (mergedNumbers l).Perm (mergedNumbers m) :=
  (perm.filter _).map _

def Weighed (x : NodeT) : Prop := x.freq.toNat = freqSum (leafNodes x)

theorem queueSum {queue : List NodeT} (weighed : ∀ x ∈ queue, Weighed x) :
    freqSum queue = freqSum (queueLeafNodes queue) := by
  induction queue with
  | nil => rfl
  | cons x rest ih =>
    rw [List.forall_mem_cons] at weighed
    have tail := ih weighed.2
    have head : freqSum (x :: rest) = x.freq.toNat + freqSum rest := List.sum_cons
    rw [head,tail,weighed.1,queueLeafNodes,queueLeafNodes,List.flatMap_cons,freqSumAppend]

theorem initialSum (frequencies : FrequencyTable) : freqSum (initialQueue frequencies) = ∑ b,
    (frequencies b).toNat := by
  rw [codedTotal,freqSum,initialQueue,List.map_map]
  rfl

structure Sound (frequencies : FrequencyTable) (queue : List NodeT) (aux : UInt8) : Prop where
  leaves : (queueLeafNodes queue).Perm (initialQueue frequencies)
  freqs : ∀ x ∈ forest queue, Weighed x
  numbers : (mergedNumbers (forest queue)).Nodup
  older : ∀ n ∈ mergedNumbers (forest queue), n.toNat < aux.toNat

theorem leavesOnly {queue : List NodeT} (leaves : ∀ x ∈ queue, ∃ f b, x = .leaf f b) :
    queueLeafNodes queue = queue ∧ forest queue = queue ∧ mergedNumbers queue = [] := by
  induction queue with
  | nil => exact ⟨rfl,rfl,rfl⟩
  | cons x rest ih =>
    rw [List.forall_mem_cons] at leaves
    obtain ⟨⟨f,b,rfl⟩,others⟩ := leaves
    obtain ⟨own,whole,numbers⟩ := ih others
    exact ⟨congrArg (NodeT.leaf f b :: ·) own,congrArg (NodeT.leaf f b :: ·) whole,numbers⟩

theorem startSound (frequencies : FrequencyTable) :
    Sound frequencies (makeHeap HuffmanTree.cmp (initialQueue frequencies)) 0 := by
  have perm := makeHeapPerm HuffmanTree.cmp (initialQueue frequencies)
  have leaves : ∀ x ∈ makeHeap HuffmanTree.cmp (initialQueue frequencies), ∃ f b, x = .leaf f b := by
    intro x hx
    obtain ⟨b,_,rfl⟩ := List.mem_map.mp (perm.mem_iff.mp hx)
    exact ⟨_,b,rfl⟩
  obtain ⟨own,whole,numbers⟩ := leavesOnly leaves
  refine ⟨by rwa [own],?_,by rw [whole,numbers]; exact List.nodup_nil,by rw [whole,numbers]; simp⟩
  intro x hx
  rw [whole] at hx
  obtain ⟨f,b,rfl⟩ := leaves x hx
  simp [Weighed,freqSum,leafNodes]

section Next
variable {frequencies : FrequencyTable} (small : ∑ b, (frequencies b).toNat < 2^64) {queue : List NodeT}
  {aux : UInt8}
  {r : Round} (sound : Sound frequencies queue aux) (taken : Taken queue r)
include sound

theorem rootWeighed {x : NodeT} (hx : x ∈ queue) : Weighed x :=
  sound.freqs x (List.mem_flatMap.mpr ⟨x,hx,selfNode x⟩)

theorem totalKept : freqSum queue = ∑ b, (frequencies b).toNat := by
  rw [queueSum (fun _ => rootWeighed sound),freqSumPerm sound.leaves,initialSum]

include small taken

theorem mergedWeighed : Weighed (merge r.first r.second aux) := by
  have first := rootWeighed sound (taken.perm.mem_iff.mp List.mem_cons_self)
  have second := rootWeighed sound (taken.perm.mem_iff.mp (List.mem_cons_of_mem _ List.mem_cons_self))
  have total := totalKept sound
  have split : freqSum (r.first :: r.second :: r.rest) = r.first.freq.toNat +
    (r.second.freq.toNat + freqSum r.rest) := by
    simp [freqSum]
  rw [← freqSumPerm taken.perm,split] at total
  -- both popped frequencies are part of the total, so their sum does not wrap around
  have room : r.first.freq.toNat + r.second.freq.toNat < 2^64 := by omega
  rw [Weighed,mergeFreq,UInt64.toNat_add,Nat.mod_eq_of_lt room,first,second,← freqSumAppend]
  rfl

theorem nextSound (n : Numbered queue aux) (more : 1 < queue.length) : Sound frequencies (r.next aux) (aux+1) := by
  have succ := auxSucc n more
  have leaves : (queueLeafNodes (r.next aux)).Perm (queueLeafNodes queue) := nextParts leafNodes [] rfl taken.perm
  have all : (forest (r.next aux)).Perm (merge r.first r.second aux :: forest queue) :=
    nextParts nodes [_] rfl taken.perm
  have numbers : (mergedNumbers (forest (r.next aux))).Perm (aux :: mergedNumbers (forest queue)) :=
    mergedNumbersPerm all
  refine ⟨leaves.trans sound.leaves,?_,?_,?_⟩
  · intro x hx
    rcases List.mem_cons.mp (all.mem_iff.mp hx) with rfl | old
    · exact mergedWeighed small sound taken
    · exact sound.freqs x old
  · -- the new number is the counter, and all others are below it
    refine numbers.nodup_iff.mpr (List.nodup_cons.mpr ⟨fun again => ?_,sound.numbers⟩)
    exact absurd (sound.older aux again) (lt_irrefl _)
  · intro m hm
    rw [succ]
    rcases List.mem_cons.mp (numbers.mem_iff.mp hm) with rfl | old
    · exact Nat.lt_succ_self _
    · exact (sound.older m old).trans (Nat.lt_succ_self _)

end Next

theorem reachableSound {frequencies : FrequencyTable} (small : ∑ b, (frequencies b).toNat < 2^64)
    {queue : List NodeT}
    {aux : UInt8} (reached : Reachable frequencies queue aux) : Sound frequencies queue aux := by
  induction reached with
  | start => exact startSound frequencies
  | step before more ran ih =>
    have numbered := reachableNumbered before
    exact nextSound small ih (takenUnique more numbered.heap ran) numbered more

structure Conserved (frequencies : FrequencyTable) (queue : List NodeT) : Prop where
  once : ((queueLeafNodes queue).map NodeT.byte).Nodup
  coded : ∀ b, b ∈ (queueLeafNodes queue).map NodeT.byte ↔ frequencies b ≠ 0
  leafFreqs : ∀ x ∈ queueLeafNodes queue, x.freq = frequencies x.byte
  freqs : ∀ x ∈ forest queue, Weighed x
  total : freqSum queue = ∑ b, (frequencies b).toNat
  numbers : (mergedNumbers (forest queue)).Nodup

theorem soundConserved {frequencies : FrequencyTable} {queue : List NodeT} {aux : UInt8}
    (sound : Sound frequencies queue aux) :
    Conserved frequencies queue := by
  have bytes : ((queueLeafNodes queue).map NodeT.byte).Perm (codedBytes frequencies) := by
    refine (sound.leaves.map _).trans (List.Perm.of_eq ?_)
    rw [initialQueue,List.map_map]
    exact List.map_id _
  refine ⟨bytes.nodup_iff.mpr (codedNodup _),fun b => ?_,fun x hx => ?_,sound.freqs,totalKept sound,sound.numbers⟩
  · rw [bytes.mem_iff,codedMem]
  · obtain ⟨b,_,rfl⟩ := List.mem_map.mp (sound.leaves.mem_iff.mp hx)
    rfl

/-- On a range of these nodes `std::not_fn(node_ptr_less())` is a strict total order, and the heap functions do
not depend on what it says of a node and itself. -/
structure ActsStrictly (queue : List NodeT) : Prop where
  oneWay : queue.Pairwise (fun x y => nodePtrLess x y = !nodePtrLess y x)
  order : IsStrictTotalOrder {x // x ∈ queue} (fun x y => x ≠ y ∧ HuffmanTree.cmp x y = true)
  compared : ∀ other : NodeT → NodeT → Bool, (∀ x ∈ queue, ∀ y ∈ queue, x ≠ y → other x y = HuffmanTree.cmp x y) →
    makeHeap other queue = makeHeap HuffmanTree.cmp queue ∧ popHeap other queue = popHeap HuffmanTree.cmp queue

theorem oneWayLess {x y : NodeT} (ne : nodeKey x ≠ nodeKey y) : nodePtrLess x y = !nodePtrLess y x := by
  rcases lt_or_gt_of_ne ne with less | more
  · rw [(lessIff x y).mpr less,(lessFalse y x).mpr less.le]
    rfl
  · rw [(lessFalse x y).mpr more.le,(lessIff y x).mpr more]
    rfl

theorem distinctOrder {queue : List NodeT} (distinct : Distinct queue) :
    IsStrictTotalOrder {x // x ∈ queue} (fun x y => x ≠ y ∧ HuffmanTree.cmp x y = true) := by
  have alike : ∀ x y : {x // x ∈ queue}, nodeKey x.val = nodeKey y.val → x = y :=
    fun x y same => Subtype.ext (List.inj_on_of_nodup_map distinct x.property y.property same)
  have above : ∀ x y : {x // x ∈ queue}, (x ≠ y ∧ HuffmanTree.cmp x y = true) ↔ nodeKey y.val < nodeKey x.val := by
    intro x y
    rw [HuffmanTree.cmp,Bool.not_eq_true',lessFalse]
    constructor
    · rintro ⟨ne,le⟩
      exact lt_of_le_of_ne le (fun same => ne (alike x y same.symm))
    · intro less
      exact ⟨fun same => absurd less (by rw [same]; exact lt_irrefl _),less.le⟩
  simp only [above]
  exact {
    trichotomous := fun x y notAbove notBelow =>
      alike x y (le_antisymm (le_of_not_gt notAbove) (le_of_not_gt notBelow))
    irrefl := fun x => lt_irrefl (nodeKey x.val)
    trans := fun _ _ _ xy yz => yz.trans xy }

theorem actsStrictly {queue : List NodeT} (distinct : Distinct queue) : ActsStrictly queue := by
  have nodup : queue.Nodup := List.Nodup.of_map _ distinct
  refine ⟨?_,distinctOrder distinct,fun other same => ⟨makeHeapSame nodup same,popHeapSame nodup same⟩⟩
  exact (List.pairwise_map.mp distinct).imp oneWayLess

theorem popNodePerm {queue rest : List NodeT} {node : NodeT} (popped : popNode queue = .ok (node,rest)) :
    (node :: rest).Perm queue := by
  have perm := popHeapPerm HuffmanTree.cmp queue
  unfold popNode at popped
  split at popped
  · rename_i last found
    cases Except.ok.inj popped
    refine (List.perm_append_singleton _ _).symm.trans ?_
    rwa [List.dropLast_append_getLast? _ found]
  · contradiction

theorem middlePerm {queue : List NodeT} {r : Round} (ran : round queue = .ok r) :
    (r.first :: r.middle).Perm queue := by
  obtain ⟨⟨first,middle⟩,popped,ran⟩ := bindOk.mp ran
  obtain ⟨⟨second,rest⟩,_,ran⟩ := bindOk.mp ran
  cases Except.ok.inj ran
  exact popNodePerm popped

theorem middleDistinct {queue : List NodeT} {r : Round} (distinct : Distinct queue) (ran : round queue = .ok r) :
    Distinct r.middle := by
  have keys := ((middlePerm ran).map nodeKey).nodup_iff.mpr distinct
  rw [List.map_cons,List.nodup_cons] at keys
  exact keys.2

theorem forestInvariant (frequencies : FrequencyTable) (small : ∑ b, (frequencies b).toNat < 2^64) :
    ActsStrictly (initialQueue frequencies) ∧
    ∀ queue aux, Reachable frequencies queue aux → Conserved frequencies queue ∧ ActsStrictly queue ∧
      ∀ r, round queue = .ok r → ActsStrictly r.middle := by
  refine ⟨actsStrictly (initialDistinct frequencies),fun queue aux reached => ?_⟩
  have distinct := reachableDistinct reached
  exact ⟨soundConserved (reachableSound small reached),actsStrictly distinct,fun r ran =>
    actsStrictly (middleDistinct distinct ran)⟩

def mergedPair : Round := ⟨.leaf 1 97,[.leaf 1 98,.leaf 10 99],.leaf 1 98,[.leaf 10 99]⟩

theorem forestInvariantLightPair : Conserved lightPair (mergedPair.next 0) ∧ ActsStrictly (mergedPair.next 0) ∧
    ActsStrictly mergedPair.middle := by
  have small : ∑ b, (lightPair b).toNat < 2^64 := by rw [sumAllBytes]; decide +kernel
  have ran : round (makeHeap HuffmanTree.cmp (initialQueue lightPair)) = .ok mergedPair := by decide +kernel
  have more : 1 < (makeHeap HuffmanTree.cmp (initialQueue lightPair)).length := by decide +kernel
  have invariant := (forestInvariant lightPair small).2
  obtain ⟨conserved,acts,_⟩ := invariant _ _ (.step .start more ran)
  exact ⟨conserved,acts,(invariant _ _ .start).2.2 _ ran⟩

end HuffmanArchiver.ForestInvariant
