import HuffmanArchiver.RoundTrip
import HuffmanArchiver.TableContents

/-! `code_writer` and `code_reader` at the two ends of a stream, for prefix codes of any origin, and the number of
tables that the reader needs for one. -/
namespace HuffmanArchiver.CodeStreams
open Machine Codes CodeWords DecodeTables DecodeTree FastIo CodeIo BitReading ByteIo Packing PrefixDecoding
  Decoding TableContents RoundTrip
open Library.BitString

/-! The tables. -/

theorem wordTake (c : CodeT) {n : ℕ} (le : n ≤ c.len.toNat) : (word c).take n = bits n (lead c n) := by
  have split : c.len.toNat = n+(c.len.toNat-n) := (Nat.add_sub_cancel' le).symm
  rw [wordValue,split,bitsAppend,List.take_left' (bitsLength _ _),lead]

def wayPoints (bits : ℕ) (codes : CodeTable) : Finset (List Bool) :=
  (Finset.univ.filter (fun b => (codes b).len ≠ 0)).biUnion (fun b =>
    (Finset.range (blockNumber bits (codes b))).image (fun i => (word (codes b)).take (bits*i)))

theorem prefixesCard {ι : Type} (s : Finset ι) (n : ι → ℕ) {f : ι → ℕ → List Bool} (empty : ∀ b, f b 0 = []) :
    (insert [] (s.biUnion (fun b => (Finset.range (n b)).image (f b)))).card ≤ 1 + ∑ b ∈ s, (n b-1) := by
  have within : insert [] (s.biUnion (fun b => (Finset.range (n b)).image (f b))) ⊆
      insert [] (s.biUnion (fun b => (Finset.Ico 1 (n b)).image (f b))) := by
    intro l hl
    simp only [Finset.mem_insert,Finset.mem_biUnion,Finset.mem_image,Finset.mem_range,Finset.mem_Ico] at hl ⊢
    rcases hl with same | ⟨b,hb,i,level,same⟩
    · exact .inl same
    · rcases Nat.eq_zero_or_pos i with rfl | positive
      · exact .inl (same.symm.trans (empty b))
      · exact .inr ⟨b,hb,i,⟨positive,level⟩,same⟩
  refine (Finset.card_le_card within).trans ((Finset.card_insert_le _ _).trans ?_)
  rw [Nat.add_comm]
  refine Nat.add_le_add_left (Finset.card_biUnion_le.trans (Finset.sum_le_sum (fun b _ => ?_))) 1
  exact Finset.card_image_le.trans (Nat.card_Ico _ _).le

section Tables
variable {bits : ℕ} {codes : CodeTable}

theorem levelAbove {c : CodeT} {i : ℕ} (pos : 0 < bits) (coded : 0 < c.len.toNat)
    (level : i < blockNumber bits c) : bits*i < c.len.toNat := by
  obtain ⟨_,above,_⟩ := blockCount pos coded
  have le : i ≤ (c.len.toNat+bits-1)/bits-1 := Nat.le_sub_one_of_lt level
  exact (Nat.mul_le_mul_left bits le).trans_lt above

theorem wayPointIff (pos : 0 < bits) (l : List Bool) : l ∈ wayPoints bits codes ↔
    ∃ b i, bits*i < (codes b).len.toNat ∧ l = Library.BitString.bits (bits*i) (lead (codes b) (bits*i)) := by
  simp only [wayPoints,Finset.mem_biUnion,Finset.mem_filter,Finset.mem_univ,true_and,Finset.mem_image,
    Finset.mem_range]
  constructor
  · rintro ⟨b,coded,i,level,rfl⟩
    have above := levelAbove pos (nonzeroIff.mp coded) level
    exact ⟨b,i,above,wordTake _ above.le⟩
  · rintro ⟨b,i,above,rfl⟩
    exact ⟨b,nonzeroIff.mpr (Nat.zero_lt_of_lt above),i,levelBlocks pos above,wordTake _ above.le⟩

theorem leadLt (c : CodeT) {n : ℕ} (le : n ≤ c.len.toNat) : lead c n < 2^n := by
  rw [lead,Nat.div_lt_iff_lt_mul (Nat.two_pow_pos _),← Nat.pow_add,Nat.add_sub_cancel' le]
  exact valueLt c

def front (bits : ℕ) (a : Address) : List Bool := Library.BitString.bits (bits*a.1) a.2

section Nested
variable {addr : ℕ → Address} {table : DecodeTable bits} (nested : Nested codes (Coded codes) addr table)
include nested

theorem addressLead {u : ℕ} (lt : u < table.size) : u = 0 ∨ ∃ b, bits*(addr u).1 < (codes b).len.toNat ∧
    (addr u).2 = lead (codes b) (bits*(addr u).1) := by
  rcases Nat.eq_zero_or_pos u with zero | positive
  · exact .inl zero
  · obtain ⟨b,_,passes⟩ := nested.origin u positive lt
    exact .inr ⟨b,passes.above,passes.blocks.symm⟩

theorem addressLt {u : ℕ} (lt : u < table.size) : (addr u).2 < 2^(bits*(addr u).1) := by
  rcases addressLead nested lt with rfl | ⟨b,above,number⟩
  · rw [nested.root]
    exact Nat.two_pow_pos _
  · rw [number]
    exact leadLt _ above.le

theorem frontInjective (pos : 0 < bits) : Set.InjOn (fun u => front bits (addr u)) (Finset.range table.size) := by
  intro u hu w hw same
  rw [Finset.mem_coe,Finset.mem_range] at hu hw
  obtain ⟨levels,numbers⟩ := (bitsInj (addressLt nested hu) (addressLt nested hw)).mp same
  exact nested.apart u w hu hw (Prod.ext (Nat.eq_of_mul_eq_mul_left pos levels) numbers)

theorem frontsWayPoints (pos : 0 < bits) (leaves : Leaves codes (Coded codes) addr table) :
    (Finset.range table.size).image (fun u => front bits (addr u)) = insert [] (wayPoints bits codes) := by
  ext l
  rw [Finset.mem_image,Finset.mem_insert,wayPointIff pos]
  constructor
  · rintro ⟨u,hu,rfl⟩
    rcases addressLead nested (Finset.mem_range.mp hu) with rfl | ⟨b,above,number⟩
    · left
      rw [nested.root]
      rfl
    · exact .inr ⟨b,(addr u).1,above,by rw [front,number]⟩
  · rintro (rfl | ⟨b,i,above,rfl⟩)
    · exact ⟨0,Finset.mem_range.mpr nested.nonempty,by rw [nested.root]; rfl⟩
    · obtain ⟨u,hu,address⟩ := leaves.paths b (nonzeroIff.mpr (Nat.zero_lt_of_lt above)) i above
      exact ⟨u,Finset.mem_range.mpr hu,by rw [address]; rfl⟩

end Nested

theorem tableCount (pos : 0 < bits) (narrow : bits ≤ 16) (code : PrefixCode codes) :
    ∃ table, buildDecodeTable bits codes = .ok table ∧
    table.size = (insert [] (wayPoints bits codes)).card ∧
    table.size ≤ 1 + ∑ b with (codes b).len ≠ 0, (blockNumber bits (codes b)-1) := by
  obtain ⟨table,addr,built,_,nested,_,leaves⟩ := buildSpec pos narrow (prefixCodeFits code)
  have size : table.size = (insert [] (wayPoints bits codes)).card := by
    rw [← frontsWayPoints nested pos (leaves (prefixCodeFree code)),Finset.card_image_of_injOn
      (frontInjective nested pos),
      Finset.card_range]
  exact ⟨table,built,size,size.trans_le (prefixesCard _ _ (fun _ => rfl))⟩

end Tables

theorem tableCountTwoCodes : ∃ table, buildDecodeTable 1 twoCodes = .ok table ∧
    table.size = (insert [] (wayPoints 1 twoCodes)).card ∧
    table.size ≤ 1 + ∑ b with (twoCodes b).len ≠ 0, (blockNumber 1 (twoCodes b)-1) :=
  tableCount (by decide) (by decide) twoCodesPrefix

def Reaches (nesting : NestingFactor) (bits : ℕ) (codes : CodeTable) : Prop :=
  match nesting with
  | .noNesting => ∀ b, (codes b).len.toNat ≤ bits
  | .singleNesting => ∀ b, (codes b).len.toNat ≤ 2*bits
  | .unlimitedNesting => True

section Streams
variable {bits : ℕ} {codes : CodeTable}

theorem reachesSees {nesting : NestingFactor} (reaches : Reaches nesting bits codes) {addr : ℕ → Address}
    {table : DecodeTable bits}
    (nested : Nested codes (Coded codes) addr table) : Sees nesting addr table.size := by
  cases nesting with
  | unlimitedNesting => trivial
  | noNesting =>
    intro t ht
    rcases addressLead nested ht with rfl | ⟨b,above,_⟩
    · rw [nested.root]
    · have level : bits*(addr t).1 < bits*1 := above.trans_le ((reaches b).trans (Nat.mul_one _).ge)
      exact Nat.lt_one_iff.mp (Nat.lt_of_mul_lt_mul_left level)
  | singleNesting =>
    intro t ht
    rcases addressLead nested ht with rfl | ⟨b,above,_⟩
    · rw [nested.root]
      exact Nat.zero_le _
    · have level : bits*(addr t).1 < bits*2 := above.trans_le ((reaches b).trans (Nat.mul_comm _ _).le)
      exact Nat.le_of_lt_succ (Nat.lt_of_mul_lt_mul_left level)

theorem readManyAgrees {nesting : NestingFactor} (narrow : bits ≤ 9) (count : ℕ) {data : Bytes} {at_bit : ℕ}
    {r : CodeReader bits}
    {addr : ℕ → Address} (here : At data at_bit r) (nested : Nested codes (Coded codes) addr r.table)
    (sees : Sees nesting addr r.table.size) : readMany nesting count r = readMany .unlimitedNesting count r := by
  induction count generalizing at_bit r with
  | zero => rfl
  | succ count ih =>
    obtain ⟨b,next,at_bit',ran,same,here'⟩ := readNextSpec narrow here nested
    have onward := ih here' (by rw [same]; exact nested) (by rw [same]; exact sees)
    simp only [readMany,readNextAgrees narrow here nested sees,ran,okBind,onward]

theorem streamRoundTrip (pos : 0 < bits) (narrow : bits ≤ 9) (code : PrefixCode codes) {nesting : NestingFactor}
    (reaches : Reaches nesting bits codes) (bs : List UInt8) (coded : ∀ b ∈ bs, Coded codes b) : ∃ w out r r',
      bs.foldlM (fun w b => CodeWriter.write w (codes b)) {writer := {}} = .ok w ∧ w.destroy = .ok out ∧
      out.length = ((bs.map (fun b => (codes b).len.toNat)).sum+7)/8 ∧
      CodeReader.create bits codes {data := out, pos := 0} = .ok r ∧
        readMany nesting bs.length r = .ok (bs,r') := by
  obtain ⟨w,len,wrote,short,packed⟩ := writeAll (prefixCodeFits code) bs (freshPacked []) (by norm_num) coded
  obtain ⟨w',body,flushed,empty,holds,_,size,spelled,_,_⟩ := flushPacked packed short
  rw [List.nil_append] at spelled size holds
  obtain ⟨r,addr,created,here,nested,leaves⟩ := createSpec pos narrow (prefixCodeFits code) {data := body, pos := 0}
  have stand : StandAll codes (bitStream body) 0 bs := by
    refine standsOfBits coded (fun i x at_i => ?_)
    have inside := (List.getElem?_eq_some_iff.mp at_i).1
    rw [Nat.zero_add,bitStream,spelled,streamLeft _ _ _ inside,stream,List.getD_eq_getElem?_getD,at_i]
    rfl
  obtain ⟨r',ran,_⟩ := readManySpec narrow here nested (leaves (prefixCodeFree code)) stand bs.length (le_refl _)
  rw [List.take_length,← readManyAgrees narrow bs.length here nested (reachesSees reaches nested)] at ran
  refine ⟨w,body,r,r',wrote,?_,?_,created,ran⟩
  · obtain ⟨writer,flushed',_,out,_⟩ := flushSpec holds
    simp only [CodeWriter.destroy,flushed,flushed',okBind,out]
  · rw [size,codedLengthWord,codedLength]

end Streams

theorem streamRoundTripTwoCodes : ∃ w out r r',
    [98,97].foldlM (fun w b => CodeWriter.write w (twoCodes b)) {writer := {}} = .ok w ∧ w.destroy = .ok out ∧
    out.length = (([98,97].map (fun b => (twoCodes b).len.toNat)).sum+7)/8 ∧
    CodeReader.create 2 twoCodes {data := out, pos := 0} = .ok r ∧
      readMany .noNesting [98,97].length r = .ok ([98,97],r') := by
  have reaches : Reaches .noNesting 2 twoCodes := by
    intro b
    by_cases coded : Coded twoCodes b
    · rcases twoCodesCoded coded with rfl | rfl <;> decide
    · rw [not_not.mp coded]
      exact Nat.zero_le _
  refine streamRoundTrip (by decide) (by decide) twoCodesPrefix reaches [98,97] (fun b hb => ?_)
  rcases List.mem_pair.mp hb with rfl | rfl <;> simp [Coded,twoCodes]

end HuffmanArchiver.CodeStreams
