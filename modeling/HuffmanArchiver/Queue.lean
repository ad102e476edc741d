import HuffmanArchiver.HuffmanTree
import Mathlib.Data.Prod.Lex

/-! The states of the loop of `build_tree`. The merged node is appended without `push_heap`, so only
the queue without its last element is known to be a heap when a round starts. -/
namespace HuffmanArchiver.Queue
open Machine Codes HuffmanTree Library.BinaryHeap

def nodeKey (x : NodeT) : ℕ ×ₗ ℕ ×ₗ ℕ := toLex (x.freq.toNat,toLex (if x.isLeaf then 1 else 0,x.byte.toNat))

theorem keyLess (x y : NodeT) : nodeKey x < nodeKey y ↔
    x.freq.toNat < y.freq.toNat ∨ (x.freq.toNat = y.freq.toNat ∧
      ((x.isLeaf = false ∧ y.isLeaf = true) ∨ (x.isLeaf = y.isLeaf ∧ x.byte.toNat < y.byte.toNat))) := by
  simp only [nodeKey,Prod.Lex.toLex_lt_toLex]
  cases x.isLeaf <;> cases y.isLeaf <;> simp

theorem lessIff (x y : NodeT) : nodePtrLess x y = true ↔ nodeKey x < nodeKey y := by
  rw [keyLess]
  unfold nodePtrLess
  by_cases freqs : x.freq = y.freq
  · simp only [freqs,ne_eq,not_true_eq_false,if_false]
    cases hx : x.isLeaf <;> cases hy : y.isLeaf <;> simp [UInt8.lt_iff_toNat_lt]
  · have values : x.freq.toNat ≠ y.freq.toNat := fun same => freqs (UInt64.toNat_inj.mp same)
    simp [freqs,values,UInt64.lt_iff_toNat_lt]

theorem lessFalse (x y : NodeT) : nodePtrLess x y = false ↔ nodeKey y ≤ nodeKey x := by
  rw [← not_lt,← lessIff,Bool.not_eq_true]

theorem cmpDecides : Decides nodeKey cmp := by
  intro x y
  simp only [HuffmanTree.cmp,Bool.not_eq_true',Bool.not_eq_false']
  exact ⟨fun h => (lessFalse x y).mp h,fun h => ((lessIff x y).mp h).le⟩

def HeapRange (queue : List NodeT) : Prop :=
  ∀ i x p, 0 < i → queue[i]? = some x → queue[(i-1)/2]? = some p → nodePtrLess x p = false

theorem heapRangeIff (queue : List NodeT) : HeapRange queue ↔ IsHeap nodeKey queue := by
  constructor
  · intro h i x p pos _ _ hx hp
    exact (lessFalse x p).mp (h i x p pos hx hp)
  · intro h i x p pos hx hp
    exact (lessFalse x p).mpr (h i x p pos (atLt hx) (Nat.zero_le _) hx hp)

/-- All but the last element of the queue form a heap. -/
def NearlyHeap (queue : List NodeT) : Prop := HeapFrom nodeKey 0 (queue.length-1) queue

theorem popNodeSpec {front : NodeT} {others : List NodeT} (heap : NearlyHeap (front :: others)) :
    ∃ q, popNode (front :: others) = .ok (front,q) ∧ q.Perm others ∧ IsHeap nodeKey q := by
  obtain ⟨q,pop,perm,ordered⟩ := popHeapSpec cmpDecides (by simpa [NearlyHeap] using heap)
  exact ⟨q,by simp [popNode,pop],perm,ordered⟩

structure Taken (queue : List NodeT) (r : Round) : Prop where
  perm : (r.first :: r.second :: r.rest).Perm queue
  middle : IsHeap nodeKey r.middle
  rest : IsHeap nodeKey r.rest
  least : ∀ x ∈ r.rest, nodeKey r.first ≤ nodeKey x ∧ nodeKey r.second ≤ nodeKey x

theorem roundTakes {queue : List NodeT} (more : 1 < queue.length) (heap : NearlyHeap queue) :
    ∃ r, round queue = .ok r ∧ Taken queue r := by
  obtain ⟨front,others,rfl⟩ := List.exists_cons_of_length_pos (l := queue) (by omega)
  obtain ⟨middle,popped,permMiddle,ordered⟩ := popNodeSpec heap
  have size := permMiddle.length_eq
  simp only [List.length_cons] at more
  obtain ⟨second,tail,rfl⟩ := List.exists_cons_of_length_pos (l := middle) (by omega)
  obtain ⟨rest,popped2,permRest,ordered2⟩ := popNodeSpec (heapInit ordered (Nat.sub_le _ _))
  refine ⟨⟨front,second :: tail,second,rest⟩,by simp [HuffmanTree.round,popped,popped2],?_,ordered,ordered2,?_⟩
  · exact ((permRest.cons second).trans permMiddle).cons front
  · have least : ∀ x ∈ rest, nodeKey second ≤ nodeKey x := by
      intro x hx
      have inside : x ∈ second :: tail := List.mem_cons_of_mem _ (permRest.mem_iff.mp hx)
      obtain ⟨i,at_i⟩ := List.mem_iff_getElem?.mp inside
      exact heapRoot ordered rfl (atLt at_i) at_i
    have root : ∀ x ∈ others.dropLast, nodeKey front ≤ nodeKey x := by
      intro x hx
      obtain ⟨i,at_i⟩ := List.mem_iff_getElem?.mp hx
      have lt := atLt at_i
      rw [List.length_dropLast] at lt
      have place : (front :: others)[i+1]? = some x := by
        rw [List.getElem?_cons_succ,← at_i,List.getElem?_dropLast,if_pos lt]
      exact heapRoot heap rfl (by simp; omega) place
    have nonempty : others ≠ [] := by
      rintro rfl; simp at more
    have split := List.dropLast_append_getLast nonempty
    have perm : (second :: rest).Perm (others.dropLast ++ [others.getLast nonempty]) := by
      rw [split]; exact (permRest.cons second).trans permMiddle
    exact fun x hx => ⟨twoLeast perm root least x hx,least x hx⟩

theorem takenUnique {queue : List NodeT} {r : Round} (more : 1 < queue.length) (heap : NearlyHeap queue)
    (ran : round queue = .ok r) : Taken queue r := by
  obtain ⟨s,ran',taken⟩ := roundTakes more heap
  cases Except.ok.inj (ran'.symm.trans ran)
  exact taken

theorem nextNearlyHeap {queue : List NodeT} {r : Round} (taken : Taken queue r) (aux : UInt8) :
    NearlyHeap (r.next aux) := by
  unfold NearlyHeap Round.next
  rw [List.length_append,List.length_singleton,Nat.add_sub_cancel]
  exact heapAppend taken.rest _

theorem nextLength {queue : List NodeT} {r : Round} (taken : Taken queue r) (aux : UInt8) :
    (r.next aux).length + 1 = queue.length := by
  have size := taken.perm.length_eq
  simp only [List.length_cons] at size
  simp only [Round.next,List.length_append,List.length_singleton]
  omega

/-- The states in which the loop condition of `build_tree` is evaluated. -/
inductive Reachable (frequencies : FrequencyTable) : List NodeT → UInt8 → Prop where
  | start : Reachable frequencies (makeHeap cmp (initialQueue frequencies)) 0
  | step {queue aux r} (before : Reachable frequencies queue aux) (more : 1 < queue.length)
      (ran : round queue = .ok r) : Reachable frequencies (r.next aux) (aux+1)

theorem initialLength (frequencies : FrequencyTable) : (initialQueue frequencies).length ≤ 256 := by
  have le := List.length_filter_le (fun b => decide (frequencies b ≠ 0)) allBytes
  rw [allBytesLength] at le
  simpa [initialQueue] using le

/-- What holds in every state without any assumption on the frequencies: the nearly heap, and
creation numbers that never wrap around and mark off the merged nodes. -/
structure Numbered (queue : List NodeT) (aux : UInt8) : Prop where
  heap : NearlyHeap queue
  count : aux.toNat + queue.length ≤ 256
  older : ∀ x ∈ queue, x.isLeaf = false → x.byte.toNat < aux.toNat

theorem startNumbered (frequencies : FrequencyTable) :
    Numbered (makeHeap cmp (initialQueue frequencies)) 0 := by
  obtain ⟨heap,perm⟩ := makeHeapSpec cmpDecides (initialQueue frequencies)
  refine ⟨heapInit heap (Nat.sub_le _ _),?_,?_⟩
  · rw [perm.length_eq]; simpa using initialLength frequencies
  · intro x hx inner
    obtain ⟨b,_,rfl⟩ := List.mem_map.mp (perm.mem_iff.mp hx)
    simp [NodeT.isLeaf] at inner

theorem auxSucc {queue : List NodeT} {aux : UInt8} (n : Numbered queue aux) (more : 1 < queue.length) :
    (aux+1).toNat = aux.toNat + 1 := by
  have count := n.count
  rw [UInt8.toNat_add]
  simp only [UInt8.toNat_one]
  omega

theorem nextNumbered {queue : List NodeT} {aux : UInt8} {r : Round} (n : Numbered queue aux)
    (more : 1 < queue.length) (taken : Taken queue r) : Numbered (r.next aux) (aux+1) := by
  have succ := auxSucc n more
  refine ⟨nextNearlyHeap taken aux,?_,?_⟩
  · have size := nextLength taken aux
    have count := n.count
    omega
  · intro x hx inner
    rw [succ]
    rcases List.mem_append.mp hx with old | new
    · have member : x ∈ queue := taken.perm.mem_iff.mp (List.mem_cons_of_mem _ (List.mem_cons_of_mem _ old))
      exact (n.older x member inner).trans (Nat.lt_succ_self _)
    · rw [List.mem_singleton.mp new]
      exact Nat.lt_succ_self _

theorem reachableNumbered {frequencies : FrequencyTable} {queue : List NodeT} {aux : UInt8}
    (reached : Reachable frequencies queue aux) : Numbered queue aux := by
  induction reached with
  | start => exact startNumbered frequencies
  | step before more ran ih => exact nextNumbered ih more (takenUnique more ih.heap ran)

theorem reachableRound {frequencies : FrequencyTable} {queue : List NodeT} {aux : UInt8}
    (reached : Reachable frequencies queue aux) (more : 1 < queue.length) :
    ∃ r, round queue = .ok r ∧ Taken queue r := roundTakes more (reachableNumbered reached).heap

inductive Rounds : ℕ → List NodeT → UInt8 → NodeT → Prop where
  | done {aux root} : Rounds 0 [root] aux root
  | round {count queue aux r root} (numbered : Numbered queue aux) (taken : Taken queue r)
      (rest : Rounds count (r.next aux) (aux+1) root) : Rounds (count+1) queue aux root

theorem loopRounds (fuel : ℕ) {queue : List NodeT} {aux : UInt8} {root : NodeT} (n : Numbered queue aux)
    (built : buildLoop fuel queue aux = .ok [root]) : ∃ count ≤ fuel, Rounds count queue aux root := by
  induction fuel generalizing queue aux with
  | zero =>
    unfold buildLoop at built
    split at built
    · contradiction
    · cases Except.ok.inj built
      exact ⟨0,le_refl _,.done⟩
  | succ fuel ih =>
    unfold buildLoop at built
    split at built
    · rename_i more
      obtain ⟨r,ran,taken⟩ := roundTakes more n.heap
      simp only [ran,okBind] at built
      obtain ⟨count,le,rounds⟩ := ih (nextNumbered n more taken) built
      exact ⟨count+1,Nat.succ_le_succ le,.round n taken rounds⟩
    · cases Except.ok.inj built
      exact ⟨0,Nat.zero_le _,.done⟩

/-- Before the merged node is pushed: the node that is going to be its parent, if any is left, has a
frequency below the sum of the two popped ones, or one equal to it in a merged node. -/
def ParentLighter (r : Round) : Prop :=
  ∀ p, r.rest[(r.rest.length-1)/2]? = some p →
    p.freq < r.first.freq + r.second.freq ∨ (p.freq = r.first.freq + r.second.freq ∧ p.isLeaf = false)

theorem pushedAfterParent {aux : UInt8} {r : Round} {p : NodeT}
    (older : p.isLeaf = false → p.byte.toNat < aux.toNat) :
    nodePtrLess (merge r.first r.second aux) p = false ↔
      p.freq < r.first.freq + r.second.freq ∨ (p.freq = r.first.freq + r.second.freq ∧ p.isLeaf = false) := by
  rw [← Bool.not_eq_true,lessIff,keyLess]
  simp only [mergeFreq,mergeLeaf,mergeByte,UInt64.lt_iff_toNat_lt,← UInt64.toNat_inj]
  cases hp : p.isLeaf
  · have := older hp
    simp; omega
  · simp; omega

theorem pushedHeap {queue : List NodeT} {aux : UInt8} {r : Round} (n : Numbered queue aux)
    (taken : Taken queue r) : IsHeap nodeKey (r.next aux) ↔ ParentLighter r := by
  have older : ∀ p ∈ r.rest, p.isLeaf = false → p.byte.toNat < aux.toNat := fun p hp =>
    n.older p (taken.perm.mem_iff.mp (List.mem_cons_of_mem _ (List.mem_cons_of_mem _ hp)))
  rw [← heapRangeIff]
  constructor
  · intro heap p hp
    refine (pushedAfterParent (older p (List.mem_iff_getElem?.mpr ⟨_,hp⟩))).mp ?_
    have lt := atLt hp
    refine heap r.rest.length _ p (by omega) (by simp [Round.next]) ?_
    rw [Round.next,List.getElem?_append_left lt,hp]
  · intro lighter i x p pos hx hp
    have bound := atLt hx
    simp only [Round.next,List.length_append,List.length_singleton] at bound
    rw [Round.next,List.getElem?_append_left (by omega)] at hp
    by_cases last : i = r.rest.length
    · subst last
      rw [Round.next,List.getElem?_concat_length] at hx
      cases Option.some.inj hx
      exact (pushedAfterParent (older p (List.mem_iff_getElem?.mpr ⟨_,hp⟩))).mpr (lighter p hp)
    · rw [Round.next,List.getElem?_append_left (by omega)] at hx
      exact (heapRangeIff r.rest).mpr taken.rest i x p pos hx hp

def HeapAtEveryPop (frequencies : FrequencyTable) : Prop :=
  ∀ queue aux r, Reachable frequencies queue aux → 1 < queue.length → round queue = .ok r →
    HeapRange queue ∧ HeapRange r.middle

theorem heapAtEveryPopIff (frequencies : FrequencyTable) :
    HeapAtEveryPop frequencies ↔
      ∀ queue aux r, Reachable frequencies queue aux → 1 < queue.length → round queue = .ok r →
        ParentLighter r := by
  constructor
  · intro holds queue aux r reached more ran
    have numbered := reachableNumbered reached
    have taken := takenUnique more numbered.heap ran
    by_cases empty : r.rest = []
    · intro p hp; simp [empty] at hp
    · have after := Reachable.step reached more ran
      have more' : 1 < (r.next aux).length := by
        have := List.length_pos_of_ne_nil empty
        simp [Round.next]; omega
      obtain ⟨r',ran',_⟩ := reachableRound after more'
      exact (pushedHeap numbered taken).mp ((heapRangeIff _).mp (holds _ _ r' after more' ran').1)
  · intro lighter queue aux r reached more ran
    have taken := takenUnique more (reachableNumbered reached).heap ran
    refine ⟨?_,(heapRangeIff _).mpr taken.middle⟩
    rw [heapRangeIff]
    cases reached with
    | start => exact (makeHeapSpec cmpDecides _).1
    | step before more' ran' =>
      have numbered := reachableNumbered before
      exact (pushedHeap numbered (takenUnique more' numbered.heap ran')).mpr (lighter _ _ _ before more' ran')

def lightPair : FrequencyTable := fun b => if b = 97 ∨ b = 98 then 1 else if b = 99 then 10 else 0

theorem lightPairNotHeap : ¬ HeapAtEveryPop lightPair := by
  intro holds
  have first : round (makeHeap cmp (initialQueue lightPair)) =
      .ok ⟨.leaf 1 97,[.leaf 1 98,.leaf 10 99],.leaf 1 98,[.leaf 10 99]⟩ := by decide +kernel
  have second : round (Round.next ⟨.leaf 1 97,[.leaf 1 98,.leaf 10 99],.leaf 1 98,[.leaf 10 99]⟩ 0) =
      .ok ⟨.leaf 10 99,[.inner 2 0 (.leaf 1 97) (.leaf 1 98)],.inner 2 0 (.leaf 1 97) (.leaf 1 98),[]⟩ := by
    decide +kernel
  have start : 1 < (makeHeap cmp (initialQueue lightPair)).length := by decide +kernel
  have heap := (holds _ _ _ (.step .start start first) (by decide) second).1
  exact absurd (heap 1 _ _ (by decide) rfl rfl) (by decide)

end HuffmanArchiver.Queue
