import HuffmanArchiver.Codes
import HuffmanArchiver.Library.BinaryHeap

/-! `huffman_tree` of `tree.h` and `tree.cpp`. Owning pointers are the subtrees themselves; a moved
pointer leaves the queue. The heap functions are those of GNU libstdc++. -/
namespace HuffmanArchiver.HuffmanTree
open Machine Codes Library.BinaryHeap

abbrev FrequencyTable := Table UInt64

/-- `node_t`: exactly the nodes without the `leaf` flag own two children. -/
inductive NodeT where
  | leaf (freq : UInt64) (byte : UInt8)
  | inner (freq : UInt64) (byte : UInt8) (left right : NodeT)
  deriving DecidableEq, Repr

namespace NodeT

def freq : NodeT → UInt64
  | leaf f _ => f
  | inner f _ _ _ => f

def isLeaf : NodeT → Bool
  | leaf _ _ => true
  | inner _ _ _ _ => false

def byte : NodeT → UInt8
  | leaf _ b => b
  | inner _ b _ _ => b

end NodeT

def nodePtrLess (first second : NodeT) : Bool :=
  if first.freq ≠ second.freq then first.freq < second.freq
  else if first.isLeaf ≠ second.isLeaf then !first.isLeaf
  else first.byte < second.byte

/-- `std::not_fn(node_ptr_less())`. -/
def cmp (first second : NodeT) : Bool := !nodePtrLess first second

def initialQueue (frequencies : FrequencyTable) : List NodeT :=
  (allBytes.filter (fun b => frequencies b ≠ 0)).map (fun b => .leaf (frequencies b) b)

/-- `merge`; the caller counts `aux_cnt` up. -/
def merge (left right : NodeT) (auxCnt : UInt8) : NodeT :=
  .inner (left.freq+right.freq) auxCnt left right

@[simp] theorem mergeFreq (left right : NodeT) (aux : UInt8) :
    (merge left right aux).freq = left.freq + right.freq := rfl

@[simp] theorem mergeLeaf (left right : NodeT) (aux : UInt8) : (merge left right aux).isLeaf = false := rfl

@[simp] theorem mergeByte (left right : NodeT) (aux : UInt8) : (merge left right aux).byte = aux := rfl

/-- `std::pop_heap`, then `std::move(queue.back())` and `queue.pop_back()`. -/
def popNode (queue : List NodeT) : Exec (NodeT × List NodeT) :=
  match (popHeap cmp queue).getLast? with
  | some node => .ok (node,(popHeap cmp queue).dropLast)
  | none => .error .index

/-- One pass of the loop of `build_tree` before the merged node is pushed: `middle` is the queue at the
second `pop_heap` and `rest` what is left after it. -/
structure Round where
  first : NodeT
  middle : List NodeT
  second : NodeT
  rest : List NodeT
  deriving DecidableEq, Repr

def round (queue : List NodeT) : Exec Round := do
  let (first,middle) ← popNode queue
  let (second,rest) ← popNode middle
  .ok ⟨first,middle,second,rest⟩

def Round.next (r : Round) (auxCnt : UInt8) : List NodeT := r.rest ++ [merge r.first r.second auxCnt]

def buildLoop : (fuel : ℕ) → (queue : List NodeT) → (auxCnt : UInt8) → Exec (List NodeT)
  | 0, queue, _ => if 1 < queue.length then .error .diverges else .ok queue
  | fuel+1, queue, auxCnt =>
      if 1 < queue.length then do
        let r ← round queue
        buildLoop fuel (r.next auxCnt) (auxCnt+1)
      else .ok queue

def buildTree (queue : List NodeT) : Exec (List NodeT) :=
  buildLoop queue.length (makeHeap cmp queue) 0

def traverseCodes : (node : NodeT) → (lens : CodeLengthTable) → (length : UInt8) → CodeLengthTable
  | .leaf _ byte, lens, length => lens.set byte length
  | .inner _ _ left right, lens, length =>
      traverseCodes right (traverseCodes left lens (length+1)) (length+1)

/-- `huffman_tree::build_code_lengths` on the queue that `build_tree` leaves. -/
def treeCodeLengths (queue : List NodeT) : Exec CodeLengthTable :=
  match queue with
  | [] => .ok (fun _ => 0)
  | root :: _ => do
      require (queue.length = 1) .assertion
      -- a single character in the input gets a code of one bit
      let initialLen : UInt8 := if root.isLeaf then 1 else 0
      .ok (traverseCodes root (fun _ => 0) initialLen)

def buildCodeLengths (frequencies : FrequencyTable) : Exec CodeLengthTable := do
  let queue ← buildTree (initialQueue frequencies)
  treeCodeLengths queue

end HuffmanArchiver.HuffmanTree
