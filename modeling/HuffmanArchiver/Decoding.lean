import HuffmanArchiver.Huffman
import HuffmanArchiver.BitReading
import HuffmanArchiver.ByteIo
import HuffmanArchiver.DecodeTree
import HuffmanArchiver.Canonical

/-! `code_reader` on arbitrary tables. Reading never leaves the tables, and the variants with fewer
branches agree with the general one as soon as no table hangs deeper than they look. -/
namespace HuffmanArchiver.Decoding
open Machine Codes CodeWords DecodeTables DecodeTree FastIo BitReading CodeIo Huffman Library.BitString

variable {bits : ℕ} {codes : CodeTable}

/-- The first `pos` bits of `data` have been consumed and the next ones are in the buffer. -/
structure At (data : Bytes) (pos : ℕ) (r : CodeReader bits) : Prop where
  buffer : r.buffer.toNat = window (bitStream data) pos bits
  source : ∃ base, Reads data base (pos+bits) r.reader ∧ pos/8+2 ≤ base+bufferSize

theorem bufferLt {data : Bytes} {pos : ℕ} {r : CodeReader bits} (here : At data pos r) :
    r.buffer.toNat < 2^bits := by
  rw [here.buffer]
  exact windowLt _ _ _

section Steps
variable {data : Bytes} {pos : ℕ} {r : CodeReader bits} {seen : UInt8 → Prop} {addr : ℕ → Address}

theorem widthToNat (narrow : bits ≤ 9) : (UInt8.ofNat bits).toNat = bits :=
  narrowByte (narrow.trans_lt (by norm_num))

theorem createSpec (positive : 0 < bits) (narrow : bits ≤ 9) (fits : ∀ b, (codes b).len.toNat ≤ 64)
    (input : IStream) :
    ∃ r addr, CodeReader.create bits codes input = .ok r ∧ At input.rest 0 r ∧
      Nested codes (Coded codes) addr r.table ∧ (PrefixFree codes → Leaves codes (Coded codes) addr r.table) := by
  obtain ⟨table,addr,built,_,nested,_,leaves⟩ := buildSpec positive (narrow.trans (by norm_num)) fits
  have width := widthToNat narrow
  have fresh : Ready input.rest 0 {input := input} := .inl ⟨⟨rfl,rfl,rfl,rfl⟩,rfl⟩
  obtain ⟨word,reader,base,ran,number,reads,ahead⟩ := readSpec fresh (width.le.trans narrow)
  rw [width] at number reads
  refine ⟨⟨table,reader,word⟩,addr,?_,⟨number,base,reads,ahead⟩,nested,leaves⟩
  simp only [CodeReader.create,built,ran,okBind]

theorem createdTable {input : IStream} {r : CodeReader bits}
    (created : CodeReader.create bits codes input = .ok r) :
    buildDecodeTable bits codes = .ok r.table := by
  simp only [CodeReader.create,bindOk] at created
  obtain ⟨table,built,_,_,made⟩ := created
  cases Except.ok.inj made
  exact built

theorem createDecoder (fits : ∀ b, (codes b).len.toNat ≤ 64) (input : IStream) :
    ∃ r addr, CodeReader.create decodeBits codes input = .ok r ∧ At input.rest 0 r ∧
      Nested codes (Coded codes) addr r.table ∧ (PrefixFree codes → Leaves codes (Coded codes) addr r.table) :=
  createSpec (by decide) (by decide) fits input

section Narrow
variable (narrow : bits ≤ 9)
include narrow

theorem advanceSpec (here : At data pos r) {n : UInt8} (le : n.toNat ≤ bits) :
    ∃ r', r.advance n = .ok r' ∧ r'.table = r.table ∧ At data (pos+n.toNat) r' := by
  obtain ⟨base,reads,_⟩ := here.source
  obtain ⟨word,reader,base',ran,number,reads',ahead⟩ := readSpec (.inr ⟨base,reads⟩) (le.trans narrow)
  have lt := bufferLt here
  have shifted : shl16 r.buffer n.toNat = .ok (UInt16.ofNat (r.buffer.toNat <<< n.toNat)) := by
    have small : r.buffer.toNat * 2^n.toNat < 2^9 * 2^9 :=
      Nat.mul_lt_mul_of_lt_of_le (lt.trans_le (Nat.pow_le_pow_right (by norm_num) narrow))
        (Nat.pow_le_pow_right (by norm_num) (by omega)) (by norm_num)
    exact if_pos ⟨by omega,by rw [Nat.shiftLeft_eq]; omega⟩
  refine ⟨{r with
    reader := reader
    buffer := (UInt16.ofNat (r.buffer.toNat <<< n.toNat) &&& UInt16.ofNat (1 <<< bits - 1)) ||| word},
    ?_,rfl,?_,base',?_,?_⟩
  · simp only [CodeReader.advance,shifted,ran,okBind]
  · have kept : (UInt16.ofNat (r.buffer.toNat <<< n.toNat) &&& UInt16.ofNat (1 <<< bits - 1)).toNat =
        window (bitStream data) (pos+n.toNat) (bits-n.toNat) * 2^n.toNat := by
      have split : 2^bits = 2^(bits-n.toNat) * 2^n.toNat := powSplit (by omega)
      have whole := windowMod (bitStream data) pos n.toNat (bits-n.toNat)
      rw [Nat.add_sub_cancel' le,← here.buffer] at whole
      rw [maskToNat _ (by omega),UInt16.toNat_ofNat',Nat.mod_mod_of_dvd _ (Nat.pow_dvd_pow 2 (by omega)),
        Nat.shiftLeft_eq,
        split,Nat.mul_mod_mul_right,whole]
    have join := windowAppend (bitStream data) (pos+n.toNat) (bits-n.toNat) n.toNat
    rw [Nat.sub_add_cancel le,Nat.add_assoc,Nat.add_sub_cancel' le,← number] at join
    have below : word.toNat < 2^n.toNat := by rw [number]; exact windowLt _ _ _
    rw [join,UInt16.toNat_or,kept,← Nat.shiftLeft_eq,Nat.shiftLeft_add_eq_or_of_lt below]
  · rw [Nat.add_right_comm]
    exact reads'
  · omega

theorem advanceBlock (here : At data pos r) :
    ∃ r', r.advance (UInt8.ofNat bits) = .ok r' ∧ r'.table = r.table ∧ At data (pos+bits) r' := by
  have width := widthToNat narrow
  obtain ⟨r',ran,same,here'⟩ := advanceSpec narrow here width.le
  rw [width] at here'
  exact ⟨r',ran,same,here'⟩

theorem descendSpec {fuel cur : ℕ} (here : At data pos r) (nested : Nested codes seen addr r.table)
    (inside : cur < r.table.size) (enough : r.table.size ≤ fuel + cur) :
    ∃ cur' r' pos' e, CodeReader.descendLoop fuel r cur = .ok (cur',r') ∧ r'.table = r.table ∧ At data pos' r' ∧
      cell r'.table cur' r'.buffer.toNat = .ok e := by
  induction fuel generalizing r pos cur with
  | zero => omega
  | succ fuel ih =>
    obtain ⟨e,found⟩ := cellExists inside (bufferLt here)
    simp only [CodeReader.descendLoop,found,okBind]
    by_cases linked : e.table = 0
    · exact ⟨cur,r,pos,e,if_neg (not_not.mpr linked),rfl,here,found⟩
    · obtain ⟨target,later,_⟩ := nested.links cur _ e found linked
      obtain ⟨next,ran,same,here'⟩ := advanceBlock narrow here
      have closer : next.table.size ≤ fuel + e.table.toNat := by
        rw [same]
        omega
      obtain ⟨cur',r',pos',e',ran',same',here'',found'⟩ :=
        ih here' (by rw [same]; exact nested) (by rw [same]; exact target) closer
      refine ⟨cur',r',pos',e',?_,same'.trans same,here'',found'⟩
      simp only [if_pos linked,requireOk target,okBind]
      exact bindOk.mpr ⟨next,ran,ran'⟩

theorem readNextSpec (here : At data pos r) (nested : Nested codes seen addr r.table) :
    ∃ b r' pos', r.readNext .unlimitedNesting = .ok (b,r') ∧ r'.table = r.table ∧ At data pos' r' := by
  obtain ⟨cur,next,pos',e,ran,same,here',found⟩ :=
    descendSpec narrow here nested nested.nonempty (Nat.le_add_right _ 0)
  obtain ⟨r',ran',same',here''⟩ :=
    advanceSpec narrow here' (n := e.len) (nested.lens _ _ e (by rw [same] at found; exact found))
  refine ⟨e.byte,r',pos'+e.len.toNat,?_,same'.trans same,here''⟩
  simp only [CodeReader.readNext,CodeReader.descend,ran,found,ran',okBind]

/-- No table hangs deeper than the reader looks. -/
def Sees (nesting : NestingFactor) (addr : ℕ → Address) (size : ℕ) : Prop :=
  match nesting with
  | .noNesting => ∀ t < size, (addr t).1 = 0
  | .singleNesting => ∀ t < size, (addr t).1 ≤ 1
  | .unlimitedNesting => True

theorem descendAgrees {nesting : NestingFactor} (here : At data pos r) (nested : Nested codes seen addr r.table)
    (sees : Sees nesting addr r.table.size) : r.descend nesting = r.descend .unlimitedNesting := by
  obtain ⟨e,found⟩ := cellExists nested.nonempty (bufferLt here)
  obtain ⟨fuel,size⟩ : ∃ fuel, r.table.size = fuel+1 := ⟨_,(Nat.sub_add_cancel nested.nonempty).symm⟩
  cases nesting with
  | noNesting =>
    have unlinked : e.table = 0 := by
      by_contra linked
      obtain ⟨target,_,address⟩ := nested.links 0 _ e found linked
      have level := sees _ target
      rw [address] at level
      simp [child] at level
    simp only [CodeReader.descend,size,CodeReader.descendLoop,found,okBind,unlinked,ne_eq,
      not_true_eq_false,if_false]
  | singleNesting =>
    simp only [CodeReader.descend,size,CodeReader.descendLoop,found,okBind]
    by_cases linked : e.table = 0
    · simp only [linked,ne_eq,not_true_eq_false,if_false]
    · obtain ⟨target,later,address⟩ := nested.links 0 _ e found linked
      obtain ⟨next,ran,same,here'⟩ := advanceBlock narrow here
      have inside : e.table.toNat < next.table.size := by rwa [same]
      obtain ⟨e',found'⟩ := cellExists inside (bufferLt here')
      -- the table behind the first one hangs at the deepest level that there is
      have unlinked : e'.table = 0 := by
        by_contra linked'
        rw [same] at found'
        obtain ⟨target',_,address'⟩ := nested.links _ _ e' found' linked'
        have level := sees _ target'
        rw [address',address] at level
        simp [child] at level
      obtain ⟨more,rfl⟩ : ∃ more, fuel = more+1 := ⟨fuel-1,by omega⟩
      simp only [if_pos linked,ran,okBind,CodeReader.descendLoop,found',unlinked,ne_eq,not_true_eq_false,if_false]
  | unlimitedNesting => rfl

theorem readNextAgrees {nesting : NestingFactor} (here : At data pos r) (nested : Nested codes seen addr r.table)
    (sees : Sees nesting addr r.table.size) : r.readNext nesting = r.readNext .unlimitedNesting := by
  rw [CodeReader.readNext,descendAgrees narrow here nested sees]
  rfl

theorem decodeLoopAgrees {nesting : NestingFactor} (count : ℕ) {w : ByteWriter} {content : Bytes}
    (here : At data pos r)
    (nested : Nested codes seen addr r.table) (sees : Sees nesting addr r.table.size)
    (holds : ByteIo.Holds w content) :
    ∃ r' w', decodeLoop nesting count r w = .ok (r',w') ∧ decodeLoop .unlimitedNesting count r w = .ok (r',w') := by
  induction count generalizing r pos w content with
  | zero => exact ⟨r,w,rfl,rfl⟩
  | succ count ih =>
    obtain ⟨b,next,pos',ran,same,here'⟩ := readNextSpec narrow here nested
    obtain ⟨w₁,wrote,holds'⟩ := ByteIo.writeByteSpec holds b
    obtain ⟨r',w',first,second⟩ := ih here' (by rw [same]; exact nested) (by rw [same]; exact sees) holds'
    refine ⟨r',w',?_,?_⟩
    · simp only [decodeLoop,readNextAgrees narrow here nested sees,ran,wrote,okBind,first]
    · simp only [decodeLoop,ran,wrote,okBind,second]

end Narrow
end Steps

theorem maxCodeLenLe (lengths : CodeLengthTable) (b : UInt8) : (lengths b).toNat ≤ (maxCodeLen lengths).toNat := by
  have largest : ∀ (l : List UInt8) (m x : UInt8), x = m ∨ x ∈ l → x.toNat ≤ (l.foldl max m).toNat := by
    intro l
    induction l with
    | nil =>
      intro m x mem
      simp at mem
      rw [mem]
      exact le_refl _
    | cons y l ih =>
      intro m x mem
      simp only [List.foldl_cons]
      have bound := ih (max m y) (max m y) (.inl rfl)
      rw [UInt8.toNat_max] at bound
      rcases mem with rfl | mem
      · omega
      · rcases List.mem_cons.mp mem with rfl | inside
        · omega
        · exact ih _ x (.inr inside)
  exact largest _ _ _ (.inr (List.mem_map_of_mem (allBytesMem b)))

theorem chosenSees {lengths : CodeLengthTable} {addr : ℕ → Address} {table : DecodeTable decodeBits}
    (len : ∀ b, (codes b).len = lengths b) (nested : Nested codes (Coded codes) addr table) :
    Sees (chooseNesting decodeBits lengths) addr table.size := by
  have level : ∀ t < table.size, decodeBits*(addr t).1 < (maxCodeLen lengths).toNat ∨ (addr t).1 = 0 := by
    intro t ht
    by_cases root : t = 0
    · right; rw [root,nested.root]
    · obtain ⟨b,_,passes⟩ := nested.origin t (by omega) ht
      have above := passes.above
      have le := maxCodeLenLe lengths b
      rw [len b] at above
      left; omega
  have ratio : ((maxCodeLen lengths).toNat+decodeBits-1)/decodeBits = ((maxCodeLen lengths).toNat+8)/9 := rfl
  unfold chooseNesting
  by_cases one : ((maxCodeLen lengths).toNat+decodeBits-1)/decodeBits ≤ 1
  · simp only [if_pos one]
    intro t ht
    have := level t ht
    simp only [decodeBits] at this
    omega
  · by_cases two : ((maxCodeLen lengths).toNat+decodeBits-1)/decodeBits = 2
    · simp only [if_neg one,if_pos two]
      intro t ht
      have := level t ht
      simp only [decodeBits] at this
      omega
    · simp only [if_neg one,if_neg two]
      trivial

section Chosen
variable {lengths : CodeLengthTable} (fits : ∀ b, (lengths b).toNat ≤ bitSize)
include fits

theorem loopsAgree (len : ∀ b, (codes b).len = lengths b) (body : IStream) (out : Bytes) (filesize : ℕ) :
    ∃ reader reader' writer', CodeReader.create decodeBits codes body = .ok reader ∧
      decodeLoop (chooseNesting decodeBits lengths) filesize reader {out := out} = .ok (reader',writer') ∧
      decodeLoop .unlimitedNesting filesize reader {out := out} = .ok (reader',writer') := by
  obtain ⟨reader,addr,created,here,nested,_⟩ := createDecoder (fun b => by rw [len b]; exact fits b) body
  obtain ⟨reader',writer',first,second⟩ := decodeLoopAgrees (by decide) filesize here nested (chosenSees len nested)
    (ByteIo.holdsEmpty out)
  exact ⟨reader,reader',writer',created,first,second⟩

/-- `decode_body` with `read_next<UNLIMITED_NESTING>` for every symbol. -/
def decodeBodyUnlimited (input : IStream) (out : Bytes) (codes : CodeTable) (filesize : UInt64) :
    Exec (UInt64 × Bytes) := do
  let reader ← CodeReader.create decodeBits codes input
  let (reader,writer) ← decodeLoop .unlimitedNesting filesize.toNat reader {out := out}
  let writer ← writer.flush
  .ok (reader.readBytes,writer.out)

theorem decodeBodyAgrees (built : constructCodes lengths = .ok codes) (body : IStream) (out : Bytes)
    (filesize : UInt64) :
    decodeBody body out lengths codes filesize = decodeBodyUnlimited body out codes filesize := by
  obtain ⟨reader,reader',writer',created,first,second⟩ :=
    loopsAgree fits (Canonical.constructLen built) body out filesize.toNat
  simp only [decodeBody,decodeBodyUnlimited,created,first,second,okBind]

end Chosen

theorem decodersAgree (lengths : CodeLengthTable) (fits : ∀ b, (lengths b).toNat ≤ bitSize) (codes : CodeTable)
    (built : constructCodes lengths = .ok codes) (body : IStream) (out : Bytes) (filesize : ℕ) :
    ∃ reader reader' writer', CodeReader.create decodeBits codes body = .ok reader ∧
      decodeLoop (chooseNesting decodeBits lengths) filesize reader {out := out} = .ok (reader',writer') ∧
      decodeLoop .unlimitedNesting filesize reader {out := out} = .ok (reader',writer') :=
  loopsAgree fits (Canonical.constructLen built) body out filesize

/-- Lengths beyond Kraft's inequality: the code of byte 1 is the beginning of that of byte 2. That of byte 3
needs a second table. -/
def overlapping : CodeLengthTable := fun b => if b ≤ 1 then 1 else if b = 2 then 2 else if b = 3 then 10 else 0

theorem decodersAgreeOverlapping : ∃ codes, constructCodes overlapping = .ok codes ∧
    ∀ (body : IStream) (out : Bytes) (filesize : ℕ), ∃ reader reader' writer',
      CodeReader.create decodeBits codes body = .ok reader ∧
      decodeLoop (chooseNesting decodeBits overlapping) filesize reader {out := out} = .ok (reader',writer') ∧
      decodeLoop .unlimitedNesting filesize reader {out := out} = .ok (reader',writer') := by
  have fine : (constructCodes overlapping).isOk = true := by decide +kernel
  obtain ⟨codes,built⟩ := okExists fine
  exact ⟨codes,built,decodersAgree overlapping (by decide +kernel) codes built⟩

end HuffmanArchiver.Decoding
