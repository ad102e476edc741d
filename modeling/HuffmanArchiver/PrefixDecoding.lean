import HuffmanArchiver.Decoding

/-! `code_reader` on a prefix code reads off the codes that the input begins with; on a complete one
there is no input that it cannot take apart. -/
namespace HuffmanArchiver.PrefixDecoding
open Machine Codes CodeWords DecodeTables DecodeTree FastIo BitReading CodeIo Huffman Decoding Library.BitString

def Stands (codes : CodeTable) (s : ℕ → Bool) (pos : ℕ) (b : UInt8) : Prop :=
  Coded codes b ∧ window s pos (codes b).len.toNat = value (codes b)

def StandAll (codes : CodeTable) (s : ℕ → Bool) : (pos : ℕ) → List UInt8 → Prop
  | _, [] => True
  | pos, b :: rest => Stands codes s pos b ∧ StandAll codes s (pos+(codes b).len.toNat) rest

def codedLength (codes : CodeTable) (bs : List UInt8) : ℕ := (bs.map (fun b => (codes b).len.toNat)).sum

theorem codedLengthWord (codes : CodeTable) (bs : List UInt8) :
    (bs.flatMap (fun b => word (codes b))).length = codedLength codes bs := by
  simp [codedLength,List.length_flatMap]

theorem continuesPrefix {c d : CodeT} (continues : Continues c d) : word c <+: word d := by
  obtain ⟨le,front⟩ := continues
  refine ⟨bits (d.len.toNat-c.len.toNat) (value d),?_⟩
  rw [wordValue,wordValue,← front,lead,← bitsAppend,Nat.add_sub_cancel' le]

theorem prefixContinues {c d : CodeT} (front : word c <+: word d) : Continues c d := by
  obtain ⟨rest,split⟩ := front
  have le : c.len.toNat ≤ d.len.toNat := by
    rw [← wordLength c,← wordLength d,← split,List.length_append]
    exact Nat.le_add_right _ _
  have short : window (stream (word d)) 0 c.len.toNat = value c := by
    rw [← split,wordValue,windowOfBits,Nat.mod_eq_of_lt (valueLt c)]
  have long : window (stream (word d)) 0 d.len.toNat = value d := by
    have read := windowOfBits d.len.toNat (value d) []
    rwa [List.append_nil,← wordValue,Nat.mod_eq_of_lt (valueLt d)] at read
  exact ⟨le,by rw [leadWindow long le,short]⟩

theorem wordWindow {s : ℕ → Bool} {pos : ℕ} {c : CodeT} (front : ∀ i x, (word c)[i]? = some x → s (pos+i) = x) :
    window s pos c.len.toNat = value c := by
  have read := windowOfBits c.len.toNat (value c) []
  rw [List.append_nil,← wordValue,Nat.mod_eq_of_lt (valueLt c)] at read
  rw [← read]
  refine windowCongr (fun i hi => ?_)
  have inside : i < (word c).length := by rwa [wordLength]
  have at_i := List.getElem?_eq_getElem inside
  rw [front i _ at_i,Nat.zero_add,stream,List.getD_eq_getElem?_getD]
  exact (congrArg (Option.getD · false) at_i).symm

theorem standsOfBits {codes : CodeTable} {s : ℕ → Bool} {bs : List UInt8} {pos : ℕ}
    (coded : ∀ b ∈ bs, Coded codes b)
    (front : ∀ i x, (bs.flatMap (fun b => word (codes b)))[i]? = some x → s (pos+i) = x) :
      StandAll codes s pos bs := by
  induction bs generalizing pos with
  | nil => trivial
  | cons b rest ih =>
    rw [List.flatMap_cons] at front
    refine ⟨⟨coded b (by simp),wordWindow (fun i x at_i => front i x ?_)⟩,ih (fun c hc =>
      coded c (List.mem_cons_of_mem _ hc)) ?_⟩
    · rw [List.getElem?_append_left (List.getElem?_eq_some_iff.mp at_i).1,at_i]
    · intro i x at_i
      rw [Nat.add_assoc]
      refine front _ x ?_
      rw [List.getElem?_append_right (by rw [wordLength]; exact Nat.le_add_right _ _),wordLength,
        Nat.add_sub_cancel_left,at_i]

theorem bitsOfStands {codes : CodeTable} {s : ℕ → Bool} {bs : List UInt8} {pos : ℕ}
    (stand : StandAll codes s pos bs) :
    ∀ i x, (bs.flatMap (fun b => word (codes b)))[i]? = some x → s (pos+i) = x := by
  induction bs generalizing pos with
  | nil => intro i x at_i; simp at at_i
  | cons b rest ih =>
    intro i x at_i
    rw [List.flatMap_cons] at at_i
    by_cases front : i < (codes b).len.toNat
    · rw [List.getElem?_append_left (by rw [wordLength]; exact front)] at at_i
      rw [wordValue,← stand.1.2,bitsOfWindow _ _ _ _ front] at at_i
      exact Option.some.inj at_i
    · rw [List.getElem?_append_right (by rw [wordLength]; omega),wordLength] at at_i
      have behind := ih stand.2 _ x at_i
      rwa [Nat.add_assoc,Nat.add_sub_cancel' (Nat.le_of_not_lt front)] at behind

variable {bits : ℕ} {codes : CodeTable} {data : Bytes} {pos : ℕ} {r : CodeReader bits} {addr : ℕ → Address}

section Read
variable (positive : 0 < bits) (narrow : bits ≤ 9) (nested : Nested codes (Coded codes) addr r.table)
  (leaves : Leaves codes (Coded codes) addr r.table) {b : UInt8} (stands : Stands codes (bitStream data) pos b)
include narrow nested leaves stands

theorem descendCode {fuel cur i : ℕ} {r' : CodeReader bits} (same : r'.table = r.table)
    (here : At data (pos+bits*i) r')
    (inside : cur < r.table.size) (enough : r.table.size ≤ fuel + cur) (above : bits*i < (codes b).len.toNat)
    (address : addr cur = (i,lead (codes b) (bits*i))) :
    ∃ cur' r'' j, CodeReader.descendLoop fuel r' cur = .ok (cur',r'') ∧ r''.table = r.table ∧
      At data (pos+bits*j) r'' ∧
      bits*j < (codes b).len.toNat ∧ (codes b).len.toNat ≤ bits*(j+1) ∧
      cell r''.table cur' r''.buffer.toNat = .ok (leafCell bits codes b (j,lead (codes b) (bits*j))) := by
  induction fuel generalizing r' cur i with
  | zero => omega
  | succ fuel ih =>
    have lt := bufferLt here
    obtain ⟨e,found⟩ := cellExists inside lt
    have step : bits*(i+1) = bits*i+bits := by rw [Nat.mul_add,Nat.mul_one]
    have below : child bits (addr cur) r'.buffer.toNat = (i+1,window (bitStream data) pos (bits*(i+1))) := by
      rw [address,child,leadWindow stands.2 above.le,here.buffer,step,windowAppend]
    simp only [CodeReader.descendLoop,same,found,okBind]
    by_cases further : bits*(i+1) < (codes b).len.toNat
    · obtain ⟨u,hu,address'⟩ := leaves.paths b stands.1 (i+1) further
      have behind : addr u = child bits (addr cur) r'.buffer.toNat := by
        rw [below,address',leadWindow stands.2 further.le]
      obtain ⟨e',found',number⟩ := linkOf nested inside hu lt behind
      cases Except.ok.inj (found.symm.trans found')
      have linked : e.table ≠ 0 := by
        intro zero
        rw [zero] at number
        rw [← number,UInt16.toNat_zero,nested.root] at address'
        simp at address'
      have later := (nested.links cur _ e found linked).2.1
      obtain ⟨next,ran,same',here'⟩ := advanceBlock narrow here
      rw [Nat.add_assoc,← step] at here'
      obtain ⟨cur',r'',j,ran',rest⟩ := ih (same'.trans same) here' hu (by omega) further address'
      refine ⟨cur',r'',j,?_,rest⟩
      rw [if_pos linked,requireOk (by omega),number]
      simp only [okBind]
      exact bindOk.mpr ⟨next,ran,ran'⟩
    · have within : (codes b).len.toNat ≤ bits*(i+1) := Nat.le_of_not_lt further
      have ends : EndsAt bits (codes b) (addr cur) r'.buffer.toNat := by
        rw [address] at below ⊢
        refine ⟨above,within,?_⟩
        rw [below]
        exact (windowTop _ _ within).trans stands.2
      have own := leaves.leaves b stands.1 cur _ e found ends
      refine ⟨cur,r',i,?_,same,here,above,within,?_⟩
      · rw [if_neg (by rw [own]; simp [leafCell])]
      · rw [same,found,own,address]

theorem readCode (here : At data pos r) :
    ∃ cur r₁ e r', r.descend .unlimitedNesting = .ok (cur,r₁) ∧ cell r₁.table cur r₁.buffer.toNat = .ok e ∧
      0 < e.len.toNat ∧ e.byte = b ∧ r.readNext .unlimitedNesting = .ok (b,r') ∧ r'.table = r.table ∧
      At data (pos+(codes b).len.toNat) r' := by
  have root : addr 0 = (0,lead (codes b) (bits*0)) := by rw [nested.root,Nat.mul_zero,leadZero]
  obtain ⟨cur,r₁,j,ran,same,here',above,within,found⟩ := descendCode narrow nested leaves stands (i := 0) rfl
    (by rwa [Nat.mul_zero,Nat.add_zero]) nested.nonempty (Nat.le_add_right _ 0)
    (by rw [Nat.mul_zero]; exact codedPos stands.1) root
  have step : bits*(j+1) = bits*j+bits := by rw [Nat.mul_add,Nat.mul_one]
  have size : (leafCell bits codes b (j,lead (codes b) (bits*j))).len.toNat = (codes b).len.toNat-bits*j :=
    leafLen ..
  obtain ⟨r',ran',same',here''⟩ :=
    advanceSpec narrow here' (n := (leafCell bits codes b (j,lead (codes b) (bits*j))).len) (by omega)
  rw [size,Nat.add_assoc,Nat.add_sub_cancel' above.le] at here''
  refine ⟨cur,r₁,_,r',ran,found,by omega,rfl,?_,same'.trans same,here''⟩
  simp only [CodeReader.readNext,CodeReader.descend,ran,found,ran',okBind]
  rfl

end Read

def readMany (nesting : NestingFactor) : (count : ℕ) → CodeReader bits → Exec (List UInt8 × CodeReader bits)
  | 0, r => .ok ([],r)
  | count+1, r => do
      let (b,r) ← r.readNext nesting
      let (bs,r) ← readMany nesting count r
      .ok (b :: bs,r)

section Runs
variable (narrow : bits ≤ 9) (here : At data pos r) (nested : Nested codes (Coded codes) addr r.table)
  (leaves : Leaves codes (Coded codes) addr r.table) {bs : List UInt8}
    (stand : StandAll codes (bitStream data) pos bs)
include narrow here nested leaves stand

theorem readManySpec (j : ℕ) (le : j ≤ bs.length) :
    ∃ r', readMany .unlimitedNesting j r = .ok (bs.take j,r') ∧ At data (pos+codedLength codes (bs.take j)) r' := by
  induction j generalizing r pos bs with
  | zero => exact ⟨r,rfl,here⟩
  | succ j ih =>
    cases bs with
    | nil => simp at le
    | cons b rest =>
      obtain ⟨_,_,_,next,_,_,_,_,ran,same,here'⟩ := readCode narrow nested leaves stand.1 here
      obtain ⟨r',ran',here''⟩ := ih here' (by rw [same]; exact nested) (by rw [same]; exact leaves) stand.2
        (Nat.le_of_succ_le_succ le)
      refine ⟨r',?_,?_⟩
      · simp only [readMany,ran,ran',okBind,List.take_succ_cons]
      · rw [Nat.add_assoc] at here''
        simpa [codedLength] using here''

theorem decodeLoopSpec {nesting : NestingFactor} (sees : Sees nesting addr r.table.size) {w : ByteWriter}
    {content : Bytes}
    (holds : ByteIo.Holds w content) :
    ∃ r' w', decodeLoop nesting bs.length r w = .ok (r',w') ∧ r'.table = r.table ∧
      At data (pos+codedLength codes bs) r' ∧ ByteIo.Holds w' (content ++ bs) := by
  induction bs generalizing r pos w content with
  | nil => exact ⟨r,w,rfl,rfl,here,by simpa using holds⟩
  | cons b rest ih =>
    obtain ⟨_,_,_,next,_,_,_,_,ran,same,here'⟩ := readCode narrow nested leaves stand.1 here
    obtain ⟨w₁,wrote,holds'⟩ := ByteIo.writeByteSpec holds b
    obtain ⟨r',w',ran',same',here'',holds''⟩ :=
      ih here' (by rw [same]; exact nested) (by rw [same]; exact leaves) stand.2
      (by rw [same]; exact sees) holds'
    refine ⟨r',w',?_,same'.trans same,?_,by simpa using holds''⟩
    · simp only [List.length_cons,decodeLoop,readNextAgrees narrow here nested sees,ran,wrote,okBind,ran']
    · rw [Nat.add_assoc] at here''
      simpa [codedLength] using here''

end Runs

structure PrefixCode (codes : CodeTable) : Prop where
  fits : ∀ b, Coded codes b → (codes b).len.toNat ≤ 64
  free : ∀ b c, b ≠ c → Coded codes b → Coded codes c → ¬ word (codes b) <+: word (codes c)

theorem prefixCodeFits (code : PrefixCode codes) (b : UInt8) : (codes b).len.toNat ≤ 64 := by
  by_cases coded : Coded codes b
  · exact code.fits b coded
  · rw [not_not.mp coded]
    exact Nat.zero_le _

theorem prefixCodeFree (code : PrefixCode codes) : PrefixFree codes :=
  fun b c ne hb hc continues => code.free b c ne hb hc (continuesPrefix continues)

theorem readNextParses (positive : 0 < bits) (narrow : bits ≤ 9) (codes : CodeTable)
    (code : PrefixCode codes) (input : IStream)
    (bs : List UInt8) (coded : ∀ b ∈ bs, Coded codes b)
    (begins : ∀ i x, (bs.flatMap (fun b => word (codes b)))[i]? = some x → bitStream input.rest i = x) :
    ∃ r, CodeReader.create bits codes input = .ok r ∧ ∀ j ≤ bs.length, ∃ r',
      readMany .unlimitedNesting j r = .ok (bs.take j,r') ∧
      r'.buffer.toNat = window (bitStream input.rest) ((bs.take j).flatMap (fun b => word (codes b))).length
        bits := by
  obtain ⟨r,addr,created,here,nested,leaves⟩ := createSpec positive narrow (prefixCodeFits code) input
  have stand : StandAll codes (bitStream input.rest) 0 bs :=
    standsOfBits coded (fun i x at_i => by rw [Nat.zero_add]; exact begins i x at_i)
  refine ⟨r,created,fun j le => ?_⟩
  obtain ⟨r',ran,here'⟩ := readManySpec narrow here nested (leaves (prefixCodeFree code)) stand j le
  refine ⟨r',ran,?_⟩
  rw [here'.buffer,Nat.zero_add,codedLengthWord]

/-- For blocks of one bit the code of 98 needs a second table. -/
def twoCodes : CodeTable := fun b => if b = 97 then ⟨1,0⟩ else if b = 98 then ⟨2,2⟩ else {}

theorem twoCodesCoded {b : UInt8} (coded : Coded twoCodes b) : b = 97 ∨ b = 98 := by
  by_contra other
  rw [not_or] at other
  exact coded (by simp [twoCodes,other.1,other.2])

theorem twoCodesPrefix : PrefixCode twoCodes := by
  refine ⟨?_,?_⟩
  · intro b coded
    rcases twoCodesCoded coded with rfl | rfl <;> decide
  · intro b c ne hb hc
    rcases twoCodesCoded hb with rfl | rfl <;> rcases twoCodesCoded hc with rfl | rfl
    · contradiction
    · decide
    · decide
    · contradiction

theorem readNextParsesTwoCodes : ∃ r, CodeReader.create 1 twoCodes {data := [64], pos := 0} = .ok r ∧ ∀ j ≤ 2, ∃ r',
    readMany .unlimitedNesting j r = .ok ([97,98].take j,r') ∧ r'.buffer.toNat =
      window (bitStream [64]) (([97,98].take j).flatMap (fun b => word (twoCodes b))).length 1 := by
  refine readNextParses (by decide) (by decide) twoCodes twoCodesPrefix {data := [64], pos := 0} [97,98] ?_ ?_
  · intro b hb
    rcases List.mem_pair.mp hb with rfl | rfl <;> simp [Coded,twoCodes]
  · have spelled : [97,98].flatMap (fun b => word (twoCodes b)) = [false,true,false] := by decide
    rw [spelled]
    rintro (_ | _ | _ | i) x at_i
    · cases Option.some.inj at_i; rfl
    · cases Option.some.inj at_i; rfl
    · cases Option.some.inj at_i; rfl
    · contradiction

theorem decodeBodySpec {lengths : CodeLengthTable} (fits : ∀ b, (lengths b).toNat ≤ 64)
    (len : ∀ b, (codes b).len = lengths b)
    (free : PrefixFree codes) (input : IStream) {filesize : UInt64} (bs : List UInt8)
    (size : bs.length = filesize.toNat)
    (stand : StandAll codes (bitStream input.rest) 0 bs) :
    ∃ r : CodeReader decodeBits, decodeBody input [] lengths codes filesize = .ok (r.readBytes,bs) ∧
      At input.rest (codedLength codes bs) r := by
  have narrow : decodeBits ≤ 9 := by decide
  obtain ⟨r,addr,created,here,nested,leaves⟩ := createDecoder (fun b => by rw [len b]; exact fits b) input
  obtain ⟨r',w,ran,_,here',holds⟩ := decodeLoopSpec narrow here nested (leaves free) stand (chosenSees len nested)
    (ByteIo.holdsEmpty [])
  obtain ⟨w',flushed,_,out,_⟩ := ByteIo.flushSpec holds
  rw [Nat.zero_add] at here'
  refine ⟨r',?_,here'⟩
  simp only [decodeBody,created,okBind,← size,ran,flushed,out,List.nil_append]

end HuffmanArchiver.PrefixDecoding
