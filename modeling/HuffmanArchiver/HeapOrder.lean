import HuffmanArchiver.Forest

/-! `build_tree` with any heap functions in the place of those of the standard library. They only have to
permute the queue; in which order the nodes come out of it then decides nothing about the leaves. -/
namespace HuffmanArchiver.HeapOrder
open Machine HuffmanTree Forest Library.BinaryHeap Library.GreedyTree

/-- What stands for `std::make_heap` and `std::pop_heap`. -/
structure HeapFunctions where
  make : List NodeT → List NodeT
  pop : List NodeT → List NodeT
  makePerm : ∀ queue, (make queue).Perm queue
  popPerm : ∀ queue, (pop queue).Perm queue

def libstdcxx : HeapFunctions := ⟨makeHeap cmp,popHeap cmp,makeHeapPerm cmp,popHeapPerm cmp⟩

namespace HeapFunctions
variable (heap : HeapFunctions)

def popNode (queue : List NodeT) : Exec (NodeT × List NodeT) :=
  match (heap.pop queue).getLast? with
  | some node => .ok (node,(heap.pop queue).dropLast)
  | none => .error .index

def round (queue : List NodeT) : Exec Round := do
  let (first,middle) ← heap.popNode queue
  let (second,rest) ← heap.popNode middle
  .ok ⟨first,middle,second,rest⟩

def buildLoop : (fuel : ℕ) → (queue : List NodeT) → (auxCnt : UInt8) → Exec (List NodeT)
  | 0, queue, _ => if 1 < queue.length then .error .diverges else .ok queue
  | fuel+1, queue, auxCnt =>
      if 1 < queue.length then do
        let r ← heap.round queue
        buildLoop fuel (r.next auxCnt) (auxCnt+1)
      else .ok queue

def buildTree (queue : List NodeT) : Exec (List NodeT) := heap.buildLoop queue.length (heap.make queue) 0

def buildCodeLengths (frequencies : FrequencyTable) : Exec Codes.CodeLengthTable := do
  let queue ← heap.buildTree (initialQueue frequencies)
  treeCodeLengths queue

end HeapFunctions

/-! `build_tree` itself is the case of libstdc++. -/

theorem sameLoop (fuel : ℕ) (queue : List NodeT) (aux : UInt8) :
    libstdcxx.buildLoop fuel queue aux = buildLoop fuel queue aux := by
  induction fuel generalizing queue aux with
  | zero => rfl
  | succ fuel ih =>
    unfold HeapFunctions.buildLoop buildLoop
    simp only [ih]
    rfl

theorem sameTree (queue : List NodeT) : libstdcxx.buildTree queue = buildTree queue := sameLoop _ _ _

theorem sameCodeLengths (frequencies : FrequencyTable) :
    libstdcxx.buildCodeLengths frequencies = buildCodeLengths frequencies := by
  simp only [HeapFunctions.buildCodeLengths,buildCodeLengths,sameTree]

section Any
variable (heap : HeapFunctions)

theorem popNodeAny {queue : List NodeT} (some_node : 0 < queue.length) :
    ∃ node rest, heap.popNode queue = .ok (node,rest) ∧ (node :: rest).Perm queue := by
  have perm := heap.popPerm queue
  have nonempty : heap.pop queue ≠ [] := fun empty => by
    rw [empty] at perm
    have size := perm.length_eq
    rw [List.length_nil] at size
    omega
  have split := List.dropLast_append_getLast nonempty
  refine ⟨(heap.pop queue).getLast nonempty,(heap.pop queue).dropLast,?_,?_⟩
  · simp only [HeapFunctions.popNode,List.getLast?_eq_some_getLast nonempty]
  · refine (List.perm_append_singleton _ _).symm.trans ?_
    rw [split]
    exact perm

theorem roundAny {queue : List NodeT} (more : 1 < queue.length) :
    ∃ r, heap.round queue = .ok r ∧ (r.first :: r.second :: r.rest).Perm queue := by
  obtain ⟨first,middle,popped,perm⟩ := popNodeAny heap (Nat.zero_lt_of_lt more)
  have size := perm.length_eq
  rw [List.length_cons] at size
  have left : 0 < middle.length := by omega
  obtain ⟨second,rest,popped',perm'⟩ := popNodeAny heap left
  refine ⟨⟨first,middle,second,rest⟩,?_,(perm'.cons first).trans perm⟩
  simp only [HeapFunctions.round,popped,popped',okBind]

theorem nextParts {β : Type} (parts : NodeT → List β) (new : List β) {queue : List NodeT} {r : Round} {aux : UInt8}
    (merged : parts (merge r.first r.second aux) = new ++ (parts r.first ++ parts r.second))
    (taken : (r.first :: r.second :: r.rest).Perm queue) :
      ((r.next aux).flatMap parts).Perm (new ++ queue.flatMap parts) := by
  refine List.Perm.trans ?_ ((taken.flatMap_right parts).append_left new)
  have gathered : new ++ (parts r.first ++ (parts r.second ++ r.rest.flatMap parts)) =
      (new ++ (parts r.first ++ parts r.second)) ++ r.rest.flatMap parts := by simp only [List.append_assoc]
  simp only [Round.next,List.flatMap_append,List.flatMap_cons,List.flatMap_nil,List.append_nil,merged,gathered]
  exact List.perm_append_comm

theorem nextLeaves {queue : List NodeT} {r : Round} (taken : (r.first :: r.second :: r.rest).Perm queue)
    (aux : UInt8) :
    (queueLeaves (r.next aux)).Perm (queueLeaves queue) :=
  nextParts (fun x => (shape x).leaves) [] (BinTree.leavesNode _ _) taken

theorem loopTree (fuel : ℕ) {queue : List NodeT} (aux : UInt8) (some_node : 0 < queue.length)
    (enough : queue.length ≤ fuel+1) :
    ∃ root, heap.buildLoop fuel queue aux = .ok [root] ∧ (shape root).leaves.Perm (queueLeaves queue) := by
  induction fuel generalizing queue aux with
  | zero =>
    have single : queue.length = 1 := Nat.le_antisymm enough some_node
    obtain ⟨root,rfl⟩ := List.length_eq_one_iff.mp single
    exact ⟨root,by simp [HeapFunctions.buildLoop],by simp [queueLeaves]⟩
  | succ fuel ih =>
    unfold HeapFunctions.buildLoop
    split
    · rename_i more
      obtain ⟨r,ran,taken⟩ := roundAny heap more
      have size := taken.length_eq
      have next : (r.next aux).length = r.rest.length+1 := by simp [Round.next]
      simp only [List.length_cons] at size
      have pushed : 0 < (r.next aux).length := by omega
      obtain ⟨root,built,leaves⟩ := ih (aux+1) pushed (by omega)
      exact ⟨root,by simp only [ran,okBind,built],leaves.trans (nextLeaves taken aux)⟩
    · have single : queue.length = 1 := by omega
      obtain ⟨root,rfl⟩ := List.length_eq_one_iff.mp single
      exact ⟨root,rfl,by simp [queueLeaves]⟩

end Any
end HuffmanArchiver.HeapOrder
