import HuffmanArchiver.Decoding
import HuffmanArchiver.Library.StreamDecoder

/-! `code_reader` without its buffers: a walk through the tables over the bits of the input, followed by zeros.
The reader refines the walk on tables of any codes, prefix-free or not. -/
namespace HuffmanArchiver.TableWalk
open Machine Codes CodeWords DecodeTables DecodeTree FastIo BitReading ByteIo CodeIo Huffman Decoding
  Library.BitString
open Library.StreamDecoder

variable {bits : ℕ}

def walk (table : DecodeTable bits) (s : ℕ → Bool) : (fuel cur pos : ℕ) → Option (UInt8 × ℕ)
  | 0, _, _ => none
  | fuel+1, cur, pos =>
      match cell table cur (window s pos bits) with
      | .ok e => if e.table ≠ 0 then walk table s fuel e.table.toNat (pos+bits) else some (e.byte,pos+e.len.toNat)
      | .error _ => none

def tableDecoder (table : DecodeTable bits) : Decoder UInt8 := fun s pos => walk table s table.size 0 pos

variable {codes : CodeTable} {seen : UInt8 → Prop} {addr : ℕ → Address}

section Refined
variable (narrow : bits ≤ 9)
include narrow

theorem descendWalk {data : Bytes} {pos fuel cur : ℕ} {r : CodeReader bits} (here : At data pos r)
    (nested : Nested codes seen addr r.table) (inside : cur < r.table.size) (enough : r.table.size ≤ fuel + cur) :
    ∃ cur' r' pos' e, CodeReader.descendLoop fuel r cur = .ok (cur',r') ∧ r'.table = r.table ∧ At data pos' r' ∧
      cell r'.table cur' r'.buffer.toNat = .ok e ∧ walk r.table (bitStream data) fuel cur pos =
        some (e.byte,pos'+e.len.toNat) := by
  induction fuel generalizing r pos cur with
  | zero => omega
  | succ fuel ih =>
    obtain ⟨e,found⟩ := cellExists inside (bufferLt here)
    have seen := found
    rw [here.buffer] at seen
    simp only [CodeReader.descendLoop,walk,found,seen,okBind]
    by_cases linked : e.table = 0
    · exact ⟨cur,r,pos,e,if_neg (not_not.mpr linked),rfl,here,found,if_neg (not_not.mpr linked)⟩
    · obtain ⟨target,later,_⟩ := nested.links cur _ e found linked
      obtain ⟨next,ran,same,here'⟩ := advanceBlock narrow here
      have closer : next.table.size ≤ fuel + e.table.toNat := by
        rw [same]
        omega
      obtain ⟨cur',r',pos',e',ran',same',here'',found',walked⟩ :=
        ih here' (by rw [same]; exact nested) (by rw [same]; exact target) closer
      rw [same] at walked
      refine ⟨cur',r',pos',e',?_,same'.trans same,here'',found',?_⟩
      · simp only [if_pos linked,requireOk target,okBind]
        exact bindOk.mpr ⟨next,ran,ran'⟩
      · rw [if_pos linked,walked]

theorem readNextWalk {data : Bytes} {pos : ℕ} {r : CodeReader bits} (here : At data pos r)
    (nested : Nested codes seen addr r.table) :
    ∃ b r' pos', r.readNext .unlimitedNesting = .ok (b,r') ∧ tableDecoder r.table (bitStream data) pos =
      some (b,pos') ∧
      r'.table = r.table ∧ At data pos' r' := by
  obtain ⟨cur,next,pos',e,ran,same,here',found,walked⟩ :=
    descendWalk narrow here nested nested.nonempty (Nat.le_add_right _ 0)
  obtain ⟨r',ran',same',here''⟩ := advanceSpec narrow here' (nested.lens _ _ e (by rw [same] at found; exact found))
  refine ⟨e.byte,r',pos'+e.len.toNat,?_,walked,same'.trans same,here''⟩
  simp only [CodeReader.readNext,CodeReader.descend,ran,found,ran',okBind]

theorem decodeLoopWalk {nesting : NestingFactor} (count : ℕ) {r : CodeReader bits} {data : Bytes} {pos : ℕ}
    {w : ByteWriter}
    {content : Bytes} (here : At data pos r) (nested : Nested codes seen addr r.table)
    (sees : Sees nesting addr r.table.size)
    (holds : Holds w content) : ∃ r' w' pos' bs, decodeLoop nesting count r w = .ok (r',w') ∧
      symbols (tableDecoder r.table) (bitStream data) count pos = some (bs,pos') ∧ At data pos' r' ∧
        Holds w' (content ++ bs) := by
  induction count generalizing r pos w content with
  | zero => exact ⟨r,w,pos,[],rfl,rfl,here,by rwa [List.append_nil]⟩
  | succ count ih =>
    obtain ⟨b,next,mid,ran,walked,same,here'⟩ := readNextWalk narrow here nested
    obtain ⟨w₁,wrote,holds'⟩ := writeByteSpec holds b
    obtain ⟨r',w',pos',bs,ran',read,here'',holds''⟩ :=
      ih here' (by rw [same]; exact nested) (by rw [same]; exact sees) holds'
    rw [same] at read
    refine ⟨r',w',pos',b :: bs,?_,symbolsCons.mpr ⟨b,mid,bs,walked,read,rfl⟩,here'',by simpa using holds''⟩
    simp only [decodeLoop,readNextAgrees narrow here nested sees,ran,wrote,okBind,ran']

end Refined

section Reach
variable {table : DecodeTable bits} (nested : Nested codes seen addr table)
  (fits : ∀ b, (codes b).len.toNat ≤ 64) (narrow : bits ≤ 9)
include nested fits

theorem levelBelow {u : ℕ} (hu : u < table.size) : bits*(addr u).1 < 64 := by
  rcases Nat.eq_zero_or_pos u with rfl | positive
  · rw [nested.root]
    exact Nat.zero_lt_succ _
  · obtain ⟨b,_,passes⟩ := nested.origin u positive hu
    exact passes.above.trans_le (fits b)

include narrow

theorem walkNear {s : ℕ → Bool} {fuel cur pos pos' : ℕ} {b : UInt8} (inside : cur < table.size)
    (walked : walk table s fuel cur pos = some (b,pos')) : pos' + bits*(addr cur).1 ≤ pos + 72 := by
  induction fuel generalizing cur pos with
  | zero => contradiction
  | succ fuel ih =>
    have level := levelBelow nested fits inside
    obtain ⟨e,found⟩ := cellExists inside (windowLt s pos bits)
    simp only [walk,found] at walked
    split at walked
    · rename_i linked
      obtain ⟨target,_,address⟩ := nested.links cur _ e found linked
      have onward := ih target walked
      rw [address,child,Nat.mul_succ] at onward
      omega
    · cases Option.some.inj walked
      have short := nested.lens _ _ e found
      omega

theorem walkBlind {s s' : ℕ → Bool} {fuel cur pos : ℕ} (inside : cur < table.size)
    (agree : ∀ i, i + bits*(addr cur).1 < pos + 72 → s i = s' i) :
      walk table s fuel cur pos = walk table s' fuel cur pos := by
  induction fuel generalizing cur pos with
  | zero => rfl
  | succ fuel ih =>
    have level := levelBelow nested fits inside
    have same : window s pos bits = window s' pos bits := windowCongr (fun i hi => agree (pos+i) (by omega))
    obtain ⟨e,found⟩ := cellExists inside (windowLt s' pos bits)
    simp only [walk,same,found]
    split
    · rename_i linked
      obtain ⟨target,_,address⟩ := nested.links cur _ e found linked
      refine ih target (fun i hi => agree i ?_)
      rw [address,child,Nat.mul_succ] at hi
      omega
    · rfl

theorem tableWithin : Within (tableDecoder table) 72 := by
  have root : bits*(addr 0).1 = 0 := by rw [nested.root]; rfl
  refine ⟨fun s pos b pos' walked => ?_,fun s s' pos agree => walkBlind nested fits narrow nested.nonempty
    (fun i hi => agree i ?_)⟩
  · have near := walkNear nested fits narrow nested.nonempty walked
    omega
  · omega

end Reach

end HuffmanArchiver.TableWalk
