import HuffmanArchiver.Archives
import HuffmanArchiver.ForestInvariant
import HuffmanArchiver.Library.HeapRelation

/-! Only the proportions of the frequencies count. Two runs of `build_tree`, on frequencies of which the ones
are multiples of the others, take the same nodes in every step. -/
namespace HuffmanArchiver.Proportions
open Machine Codes HuffmanTree Forest ForestInvariant CodeLengths FastIo Headers HostileHeader Huffman
  Decoding PrefixDecoding RoundTrip
open Outcomes Archives
open Library.BinaryHeap
open List (Forall₂)

inductive Scaled (k : ℕ) : NodeT → NodeT → Prop where
  | leaf {f f' : UInt64} (b : UInt8) (freq : f'.toNat = k*f.toNat) : Scaled k (.leaf f b) (.leaf f' b)
  | inner {f f' : UInt64} (b : UInt8) {l l' r r' : NodeT} (freq : f'.toNat = k*f.toNat) (left : Scaled k l l')
      (right : Scaled k r r') : Scaled k (.inner f b l r) (.inner f' b l' r')

section Nodes
variable {k : ℕ} {x x' y y' : NodeT}

theorem scaledFreq (scaled : Scaled k x x') : x'.freq.toNat = k*x.freq.toNat := by
  cases scaled with
  | leaf b freq => exact freq
  | inner b freq left right => exact freq

theorem scaledLeaf (scaled : Scaled k x x') : x'.isLeaf = x.isLeaf ∧ x'.byte = x.byte := by
  cases scaled with
  | leaf b freq => exact ⟨rfl,rfl⟩
  | inner b freq left right => exact ⟨rfl,rfl⟩

theorem scaledLess (pos : 0 < k) (scaled : Scaled k x x') (scaled' : Scaled k y y') :
    nodePtrLess x' y' = nodePtrLess x y := by
  have freq := scaledFreq scaled
  have freq' := scaledFreq scaled'
  have same : x'.freq = y'.freq ↔ x.freq = y.freq := by
    rw [← UInt64.toNat_inj,← UInt64.toNat_inj,freq,freq',Nat.mul_right_inj (Nat.pos_iff_ne_zero.mp pos)]
  have less : x'.freq < y'.freq ↔ x.freq < y.freq := by
    rw [UInt64.lt_iff_toNat_lt,UInt64.lt_iff_toNat_lt,freq,freq',Nat.mul_lt_mul_left pos]
  unfold nodePtrLess
  simp only [ne_eq,same,less,(scaledLeaf scaled).1,(scaledLeaf scaled).2,(scaledLeaf scaled').1,
    (scaledLeaf scaled').2]

theorem scaledCmp (pos : 0 < k) : ∀ x y x' y', Scaled k x x' → Scaled k y y' →
    HuffmanTree.cmp x y = HuffmanTree.cmp x' y' := by
  intro x y x' y' scaled scaled'
  rw [HuffmanTree.cmp,HuffmanTree.cmp,scaledLess pos scaled scaled']

theorem scaledMerge (aux : UInt8) (scaled : Scaled k x x') (scaled' : Scaled k y y')
    (room : x.freq.toNat+y.freq.toNat < 2^64)
    (room' : k*(x.freq.toNat+y.freq.toNat) < 2^64) : Scaled k (merge x y aux) (merge x' y' aux) := by
  refine .inner aux ?_ scaled scaled'
  rw [UInt64.toNat_add,UInt64.toNat_add,scaledFreq scaled,scaledFreq scaled',← Nat.mul_add,Nat.mod_eq_of_lt
    room',Nat.mod_eq_of_lt room]

theorem scaledTraverse (scaled : Scaled k x x') (lens : CodeLengthTable) (length : UInt8) :
    traverseCodes x' lens length = traverseCodes x lens length := by
  induction scaled generalizing lens length with
  | leaf b freq => rfl
  | inner b freq left right ihl ihr => rw [traverseCodes,traverseCodes,ihl,ihr]

end Nodes

theorem roundKept {queue : List NodeT} {r : Round} (ran : HuffmanTree.round queue = .ok r) (aux : UInt8)
    (small : freqSum queue < 2^64) : freqSum (r.next aux) = freqSum queue ∧
      r.first.freq.toNat+r.second.freq.toNat ≤ freqSum queue := by
  obtain ⟨⟨first,middle⟩,popped,ran⟩ := bindOk.mp ran
  obtain ⟨⟨second,rest⟩,popped',ran⟩ := bindOk.mp ran
  cases Except.ok.inj ran
  have outer := freqSumPerm (popNodePerm popped)
  have inner := freqSumPerm (popNodePerm popped')
  have outer' : freqSum (first :: middle) = first.freq.toNat+freqSum middle := List.sum_cons
  have inner' : freqSum (second :: rest) = second.freq.toNat+freqSum rest := List.sum_cons
  have merged : freqSum [merge first second aux] = (first.freq+second.freq).toNat := by simp [freqSum]
  have room : first.freq.toNat+second.freq.toNat < 2^64 := by omega
  rw [UInt64.toNat_add,Nat.mod_eq_of_lt room] at merged
  refine ⟨?_,by simp only; omega⟩
  rw [Round.next,freqSumAppend,merged]
  simp only
  omega

section Runs
variable {k : ℕ} (pos : 0 < k) {queue queue' : List NodeT} (related : Forall₂ (Scaled k) queue queue')
include pos related

theorem popScaled {node : NodeT} {rest : List NodeT} (popped : popNode queue = .ok (node,rest)) :
    ∃ node' rest', popNode queue' = .ok (node',rest') ∧ Scaled k node node' ∧ Forall₂ (Scaled k) rest rest' := by
  have heaps := popHeapRelated (scaledCmp pos) related
  unfold popNode at popped
  split at popped
  · rename_i last found
    cases Except.ok.inj popped
    rw [List.getLast?_eq_getElem?] at found
    rcases relatedAt heaps ((popHeap HuffmanTree.cmp queue).length-1) with ⟨missing,_⟩ | ⟨x,x',there,there',scaled⟩
    · rw [missing] at found
      contradiction
    · cases Option.some.inj (there.symm.trans found)
      rw [heaps.length_eq,← List.getLast?_eq_getElem?] at there'
      refine ⟨x',(popHeap HuffmanTree.cmp queue').dropLast,by rw [popNode,there'],scaled,?_⟩
      rw [List.dropLast_eq_take,List.dropLast_eq_take,heaps.length_eq]
      exact List.forall₂_take _ heaps
  · contradiction

theorem roundScaled {r : Round} (ran : HuffmanTree.round queue = .ok r) :
    ∃ r', HuffmanTree.round queue' = .ok r' ∧ Scaled k r.first r'.first ∧
    Scaled k r.second r'.second ∧ Forall₂ (Scaled k) r.rest r'.rest := by
  obtain ⟨⟨first,middle⟩,popped,ran⟩ := bindOk.mp ran
  obtain ⟨⟨second,rest⟩,popped',ran⟩ := bindOk.mp ran
  cases Except.ok.inj ran
  obtain ⟨first',middle',ran₁,scaled₁,related₁⟩ := popScaled pos related popped
  obtain ⟨second',rest',ran₂,scaled₂,related₂⟩ := popScaled pos related₁ popped'
  exact ⟨⟨first',middle',second',rest'⟩,by simp only [HuffmanTree.round,ran₁,ran₂,okBind],scaled₁,scaled₂,related₂⟩

end Runs

theorem loopScaled {k : ℕ} (pos : 0 < k) (fuel : ℕ) {queue queue' : List NodeT} {aux : UInt8}
    (related : Forall₂ (Scaled k) queue queue')
    (small : k*freqSum queue < 2^64) {out : List NodeT} (ran : buildLoop fuel queue aux = .ok out) :
    ∃ out', buildLoop fuel queue' aux = .ok out' ∧ Forall₂ (Scaled k) out out' := by
  induction fuel generalizing queue queue' aux with
  | zero =>
    unfold buildLoop at ran ⊢
    rw [← related.length_eq]
    split at ran
    · contradiction
    · rename_i one
      cases Except.ok.inj ran
      exact ⟨queue',if_neg one,related⟩
  | succ fuel ih =>
    unfold buildLoop at ran ⊢
    rw [← related.length_eq]
    split at ran
    · rename_i more
      rw [if_pos more]
      obtain ⟨r,first,later⟩ := bindOk.mp ran
      obtain ⟨r',first',scaled₁,scaled₂,rest⟩ := roundScaled pos related first
      have single : freqSum queue < 2^64 := (Nat.le_mul_of_pos_left _ pos).trans_lt small
      obtain ⟨kept,part⟩ := roundKept first aux single
      have room := (Nat.mul_le_mul_left k part).trans_lt small
      have next : Forall₂ (Scaled k) (r.next aux) (r'.next aux) :=
        List.rel_append rest (.cons (scaledMerge aux scaled₁ scaled₂ (part.trans_lt single) room) .nil)
      obtain ⟨out',ran',last⟩ := ih next (by rw [kept]; exact small) later
      exact ⟨out',bindOk.mpr ⟨r',first',ran'⟩,last⟩
    · rename_i one
      rw [if_neg one]
      cases Except.ok.inj ran
      exact ⟨queue',rfl,related⟩

theorem queueScaled {k : ℕ} (pos : 0 < k) {f f' : FrequencyTable} (scaled : ∀ b, (f' b).toNat = k*(f b).toNat) :
    Forall₂ (Scaled k) (initialQueue f) (initialQueue f') := by
  have same : allBytes.filter (fun b => f' b ≠ 0) = allBytes.filter (fun b => f b ≠ 0) := by
    refine List.filter_congr (fun b _ => ?_)
    have zero : f' b = 0 ↔ f b = 0 := by
      rw [← UInt64.toNat_inj,← UInt64.toNat_inj,scaled b,UInt64.toNat_zero,Nat.mul_eq_zero]
      exact ⟨fun either => either.resolve_left (Nat.pos_iff_ne_zero.mp pos),.inr⟩
    rw [decide_eq_decide,ne_eq,ne_eq,zero]
  rw [initialQueue,initialQueue,same,List.forall₂_map_left_iff,List.forall₂_map_right_iff,List.forall₂_same]
  exact fun b _ => .leaf b (scaled b)

theorem lengthsScaled {k : ℕ} (pos : 0 < k) {f f' : FrequencyTable} (scaled : ∀ b, (f' b).toNat = k*(f b).toNat)
    (small : ∑ b, (f' b).toNat < 2^64) : buildCodeLengths f' = buildCodeLengths f := by
  have related := queueScaled pos scaled
  have heaps := makeHeapRelated (scaledCmp pos) related
  have total : k*freqSum (makeHeap HuffmanTree.cmp (initialQueue f)) < 2^64 := by
    rw [freqSumPerm (makeHeapPerm _ _),initialSum,Finset.mul_sum]
    simpa only [scaled] using small
  obtain ⟨lens,read,shaped⟩ := lengthsOf f
  obtain ⟨queue,built,lengths⟩ := bindOk.mp read
  obtain ⟨queue',built',last⟩ := loopScaled pos _ heaps total built
  rw [related.length_eq] at built'
  have read' : buildCodeLengths f' = treeCodeLengths queue' := by
    rw [buildCodeLengths,buildTree,built']
    rfl
  rw [read,read',← lengths]
  cases last with
  | nil => rfl
  | cons root rest =>
    unfold treeCodeLengths
    simp only [List.length_cons,rest.length_eq,(scaledLeaf root).1,scaledTraverse root]

theorem proportionalFiles {k : ℕ} (pos : 0 < k) {file file' archive : Bytes} {info : CompressionInfo}
    (counts : ∀ b, file'.count b = k*file.count b) (short : file'.length < 2^64)
    (compressed : compressFile file = .ok (info,archive)) : ∃ header header' body body' info',
      archive = writeFileHeader header ++ body ∧ compressFile file' = .ok (info',writeFileHeader header' ++ body') ∧
      header'.lengths = header.lengths ∧ header'.filesize.toNat = k*header.filesize.toNat ∧
      body.length = (∑ b, file.count b * (header.lengths b).toNat + 7)/8 ∧
      body'.length = (k * ∑ b, file.count b * (header.lengths b).toNat + 7)/8 := by
  have total : file'.length = k*file.length := by
    rw [← countTotal file',← countTotal file,Finset.mul_sum]
    exact Finset.sum_congr rfl (fun b _ => counts b)
  have short₀ : file.length < 2^64 := by
    have more := Nat.le_mul_of_pos_left file.length pos
    omega
  have scaled : ∀ b, (byteCounts file' b).toNat = k*(byteCounts file b).toNat := by
    intro b
    rw [countToNat short,countToNat short₀,counts b]
  have same := lengthsScaled pos scaled (countsSmall short)
  have fit := (compressOkIff short₀).mp ⟨info,archive,compressed⟩
  obtain ⟨info',archive',compressed'⟩ :=
    (compressOkIff short).mpr (fun lengths read => fit lengths (by rw [← same]; exact read))
  obtain ⟨codes,header,body,rfl,of,read,_⟩ := archiveForm short₀ compressed
  obtain ⟨codes',header',body',rfl,of',read',_⟩ := archiveForm short compressed'
  have lengths : header'.lengths = header.lengths := Except.ok.inj (read'.symm.trans (same.trans read))
  have bits : codedLength codes file = ∑ b, file.count b * (header.lengths b).toNat := by
    simp only [codedSum short₀ of.partition.len,countToNat short₀]
  have bits' : codedLength codes' file' = k * ∑ b, file.count b * (header.lengths b).toNat := by
    simp only [codedSum short of'.partition.len,countToNat short,counts,lengths,Nat.mul_assoc,Finset.mul_sum]
  refine ⟨header,header',body,body',info',rfl,compressed',lengths,?_,?_,?_⟩
  · rw [of.filesize,of'.filesize,total]
  · rw [of.size,bits]
  · rw [of'.size,bits']

theorem proportionalFilesThreeBytes : ∃ info archive, compressFile threeBytes = .ok (info,archive) ∧
    ∃ header header' body body' info',
      archive = writeFileHeader header ++ body ∧
      compressFile (threeBytes ++ threeBytes) = .ok (info',writeFileHeader header' ++ body') ∧
      header'.lengths = header.lengths ∧ header'.filesize.toNat = 2*header.filesize.toNat ∧
      body.length = (∑ b, threeBytes.count b * (header.lengths b).toNat + 7)/8 ∧
      body'.length = (2 * ∑ b, threeBytes.count b * (header.lengths b).toNat + 7)/8 := by
  obtain ⟨info,archive,compressed⟩ := threeBytesCompressed
  refine ⟨info,archive,compressed,proportionalFiles two_pos (fun b => ?_) (by decide) compressed⟩
  rw [List.count_append,Nat.two_mul]

end HuffmanArchiver.Proportions
