import HuffmanArchiver.LongCodes
import HuffmanArchiver.Library.BitString
import HuffmanArchiver.Library.Limbs

/-! The eight blocks of a `long_code_t` as one number: its operators are exact while the code fits 255 bits. -/
namespace HuffmanArchiver.LongArithmetic
open Machine LongCodes LongCodeT Library.BitString

def limbs (blocks : List UInt32) : List ℕ := blocks.map UInt32.toNat

def number (blocks : Blocks) : ℕ := Nat.ofDigits (2^32) (limbs blocks.val)

@[simp] theorem limbsLength (blocks : List UInt32) : (limbs blocks).length = blocks.length := List.length_map _

theorem limbsSmall (blocks : List UInt32) : ∀ d ∈ limbs blocks, d < 2^32 := by
  intro d hd
  obtain ⟨block,_,rfl⟩ := List.mem_map.mp hd
  exact block.toNat_lt

theorem blocksRoom (blocks : Blocks) : (2^32)^(limbs blocks.val).length = 2^256 := by
  rw [limbsLength,blocks.property]
  rfl

theorem numberInj {blocks blocks' : Blocks} : number blocks = number blocks' ↔ blocks = blocks' := by
  refine ⟨fun same => ?_,fun same => by rw [same]⟩
  have size : (limbs blocks.val).length = (limbs blocks'.val).length := by
    simp only [limbsLength,blocks.property,blocks'.property]
  have digits := Nat.ofDigits_inj_of_len_eq (by norm_num) size (limbsSmall _) (limbsSmall _) same
  exact Subtype.ext (List.map_injective_iff.mpr (fun _ _ => UInt32.toNat_inj.mp) digits)

theorem incrementLimbs (blocks : List UInt32) :
    limbs (incrementBlocks true blocks) = Library.Limbs.increment (2^32) (limbs blocks) := by
  induction blocks with
  | nil => rfl
  | cons block rest ih =>
    have lt := block.toNat_lt
    have sum : (block+1).toNat = (block.toNat+1) % 2^32 := UInt32.toNat_add _ _
    have wraps : block+1 = 0 ↔ block.toNat+1 = 2^32 := by
      rw [← UInt32.toNat_inj,sum,UInt32.toNat_zero]
      omega
    by_cases full : block.toNat+1 = 2^32
    · have zero := wraps.mpr full
      simp only [incrementBlocks,limbs,List.map_cons,Library.Limbs.increment,if_pos full,zero,decide_true,
        UInt32.toNat_zero]
      exact congrArg _ ih
    · have nonzero : ¬ block+1 = 0 := fun zero => full (wraps.mp zero)
      have kept : incrementBlocks false rest = rest := by cases rest <;> rfl
      simp only [incrementBlocks,limbs,List.map_cons,Library.Limbs.increment,if_neg full,nonzero,decide_false,kept]
      rw [sum,Nat.mod_eq_of_lt (by omega)]

theorem moveLimbs {bigShl : ℕ} {blocks : List UInt32} (le : bigShl ≤ blocksNum) (size : blocks.length = blocksNum) :
    limbs (fillBlocks bigShl (moveBlocks bigShl blocks)) = Library.Limbs.moveUp bigShl (limbs blocks) := by
  have front : (blocks.take bigShl).length = bigShl := by
    rw [List.length_take]
    omega
  rw [fillBlocks,moveBlocks,List.drop_left' front,Library.Limbs.moveUp,limbsLength,size,limbs,limbs,List.map_append,
    List.map_replicate,List.map_take]
  rfl

theorem shiftAmount {n : ℕ} (lt : n < 32) : (UInt32.ofNat n).toNat % 32 = n := by
  rw [UInt32.toNat_ofNat_of_lt' (by simp only [UInt32.size]; omega),Nat.mod_eq_of_lt lt]

theorem highBits {s : ℕ} (le : s ≤ 32) (block : UInt32) : block.toNat / 2^(32-s) < 2^s := by
  have split : 2^32 = 2^s * 2^(32-s) := powSplit (by omega)
  rw [Nat.div_lt_iff_lt_mul (Nat.two_pow_pos _),← split]
  exact block.toNat_lt

theorem carryOut {s : ℕ} (pos : 0 < s) (small : s < 32) (block : UInt32) :
    ((block &&& (UInt32.ofNat (1 <<< s - 1) <<< UInt32.ofNat (32-s))) >>> UInt32.ofNat (32-s)).toNat =
      block.toNat / 2^(32-s) := by
  have amount := shiftAmount (Nat.sub_lt (by norm_num) pos)
  have split : 2^32 = 2^s * 2^(32-s) := powSplit (by omega)
  have unit := Nat.two_pow_pos s
  have low : 2^s-1 < UInt32.size := by
    have fits : 2^s < UInt32.size := Nat.pow_lt_pow_right (by omega) small
    omega
  have mask : (2^s-1) <<< (32-s) < 2^32 := by
    rw [Nat.shiftLeft_eq,split]
    exact Nat.mul_lt_mul_of_pos_right (by omega) (Nat.two_pow_pos _)
  rw [UInt32.toNat_shiftRight,UInt32.toNat_and,UInt32.toNat_shiftLeft,amount,Nat.one_shiftLeft,
    UInt32.toNat_ofNat_of_lt' low,
    Nat.mod_eq_of_lt mask,Nat.shiftRight_and_distrib,Nat.shiftLeft_shiftRight,Nat.and_two_pow_sub_one_eq_mod,
    Nat.shiftRight_eq_div_pow,Nat.mod_eq_of_lt (highBits small.le block)]

theorem blockShifted {s : ℕ} (small : s < 32) (block : UInt32) {carry : UInt32} (low : carry.toNat < 2^s) :
    ((block <<< UInt32.ofNat s) ||| carry).toNat = block.toNat*2^s % 2^32 + carry.toNat := by
  have split : 2^32 = 2^(32-s) * 2^s := powSplit (by omega)
  have kept : block.toNat <<< s % 2^32 = (block.toNat % 2^(32-s)) <<< s := by
    rw [Nat.shiftLeft_eq,Nat.shiftLeft_eq,split,Nat.mul_mod_mul_right]
  rw [UInt32.toNat_or,UInt32.toNat_shiftLeft,shiftAmount small,kept,← Nat.shiftLeft_add_eq_or_of_lt low,
    ← kept,Nat.shiftLeft_eq]

theorem shiftLimbs {s : ℕ} (pos : 0 < s) (small : s < 32) {carry : UInt32} (low : carry.toNat < 2^s)
    (blocks : List UInt32) :
    limbs (shiftBlocks (UInt32.ofNat s) (UInt32.ofNat (1 <<< s - 1) <<< UInt32.ofNat (32-s)) carry blocks) =
      Library.Limbs.shiftBits 32 s carry.toNat (limbs blocks) := by
  induction blocks generalizing carry with
  | nil => rfl
  | cons block rest ih =>
    have left : 32 - UInt32.ofNat s = UInt32.ofNat (32-s) := (UInt32.ofNat_sub small.le).symm
    have out := carryOut pos small block
    have next := highBits small.le block
    rw [← out] at next
    have tail := ih next
    rw [out] at tail
    simp only [limbs,shiftBlocks,List.map_cons,Library.Limbs.shiftBits,left,blockShifted small block low]
    exact congrArg _ tail

theorem lastNonZeroSpec (i last : UInt8) (blocks : List UInt32) :
    (blocks = List.replicate blocks.length 0 ∧ lastNonZero i last blocks = last) ∨
    ∃ pre t n, blocks = pre ++ t :: List.replicate n 0 ∧ t ≠ 0 ∧ lastNonZero i last blocks = i +
      UInt8.ofNat pre.length := by
  induction blocks generalizing i last with
  | nil => exact .inl ⟨rfl,rfl⟩
  | cons block rest ih =>
    rcases ih (i+1) (if 0 < block then i else last) with ⟨zeros,found⟩ | ⟨pre,t,n,split,nonzero,found⟩
    · by_cases zero : block = 0
      · refine .inl ⟨?_,by rw [lastNonZero,found,zero]; rfl⟩
        rw [zero,List.length_cons,List.replicate_succ,← zeros]
      · have pos : 0 < block := UInt32.pos_iff_ne_zero.mpr zero
        exact .inr ⟨[],block,rest.length,
          by rw [← zeros]; rfl,zero,by rw [lastNonZero,found,if_pos pos]; exact (UInt8.add_zero i).symm⟩
    · refine .inr ⟨block :: pre,t,n,by rw [split]; rfl,nonzero,?_⟩
      rw [lastNonZero,found,List.length_cons,Nat.add_comm,UInt8.ofNat_add,← UInt8.add_assoc]
      rfl

theorem msbSize {fuel : ℕ} {block : UInt32} (enough : Nat.size block.toNat ≤ fuel) (pos : UInt8) :
    msbPos fuel block pos = pos + UInt8.ofNat (Nat.size block.toNat) := by
  rw [← countUp]
  refine halvings (fun _ _ => rfl) (fun fuel x count => ?_) (fun x => UInt32.toNat_div x 2) enough pos
  rw [msbPos]
  simp only [UInt32.lt_iff_toNat_lt]
  rfl

theorem msbBlock (block : UInt32) : (msbPos 32 block 0).toNat = Nat.size block.toNat := by
  have le : Nat.size block.toNat ≤ 32 := Nat.size_le.mpr block.toNat_lt
  rw [msbSize le,UInt8.zero_add,narrowByte (by omega)]

theorem blockAtOk {blocks : Blocks} {i : ℕ} {block : UInt32} (at_i : blocks.val[i]? = some block) :
    blockAt blocks i = .ok block := by
  obtain ⟨lt,same⟩ := List.getElem?_eq_some_iff.mp at_i
  rw [blockAt,dif_pos lt,same]

theorem recalcSpec (c : LongCodeT) :
    recalcLen c = .ok {c with len := max c.len (UInt8.ofNat (Nat.size (number c.blocks)))} := by
  have size := c.blocks.property
  rcases lastNonZeroSpec 0 0 c.blocks.val with ⟨zeros,found⟩ | ⟨pre,t,n,split,nonzero,found⟩
  · have first : blockAt c.blocks 0 = .ok 0 := blockAtOk (by rw [zeros,size]; rfl)
    have zero : number c.blocks = 0 := by
      rw [number,limbs,zeros,List.map_replicate]
      exact Nat.ofDigits_replicate_zero
    rw [recalcLen,found,zero]
    simp only [UInt8.toNat_zero,first,okBind,msbBlock]
    rfl
  · have short : pre.length < 8 := by
      have whole := congrArg List.length split
      rw [size,List.length_append,List.length_cons,blocksNum] at whole
      omega
    have place : (lastNonZero 0 0 c.blocks.val).toNat = pre.length := by
      rw [found,UInt8.zero_add,narrowByte (by omega)]
    have block : blockAt c.blocks pre.length = .ok t :=
      blockAtOk (by rw [split,List.getElem?_append_right le_rfl,Nat.sub_self]; rfl)
    have whole : Nat.size (number c.blocks) = 32*pre.length + Nat.size t.toNat := by
      have nonzero' : t.toNat ≠ 0 := fun zero => nonzero (UInt32.toNat_inj.mp zero)
      have parts : limbs c.blocks.val = limbs pre ++ t.toNat :: List.replicate n 0 := by
        rw [limbs,split,List.map_append,List.map_cons,List.map_replicate]
        rfl
      rw [number,parts,Library.Limbs.sizeLimbs (limbsSmall pre) nonzero',limbsLength]
    rw [recalcLen]
    simp only [place,block,okBind,msbBlock,whole,Nat.mul_comm 32]

theorem incrementNumber {blocks : List UInt32} (size : blocks.length = blocksNum)
    (room : Nat.ofDigits (2^32) (limbs blocks) + 1 < 2^256) :
    Nat.ofDigits (2^32) (limbs (incrementBlocks true blocks)) = Nat.ofDigits (2^32) (limbs blocks) + 1 := by
  rw [incrementLimbs]
  exact Library.Limbs.incrementValue (by rwa [blocksRoom ⟨blocks,size⟩])

theorem shiftBigSpec {blocks : Blocks} {bigShl : ℕ} (le : bigShl ≤ blocksNum)
    (room : number blocks * (2^32)^bigShl < 2^256) :
    ∃ blocks', shiftBig blocks bigShl = .ok blocks' ∧ number blocks' = number blocks * (2^32)^bigShl := by
  refine ⟨_,dif_pos le,?_⟩
  rw [number,moveLimbs le blocks.property]
  refine Library.Limbs.moveUpValue (by norm_num) (limbsSmall _) ?_ (by rwa [blocksRoom])
  rw [limbsLength,blocks.property]
  exact le

theorem shiftSmallSpec {blocks : Blocks} {smallShl : UInt8} (small : smallShl < 32)
    (room : number blocks * 2^smallShl.toNat < 2^256) :
    ∃ blocks', shiftSmall blocks smallShl = .ok blocks' ∧ number blocks' = number blocks * 2^smallShl.toNat := by
  by_cases zero : smallShl = 0
  · exact ⟨blocks,by rw [shiftSmall,if_neg (not_not.mpr zero)],by rw [zero]; exact (Nat.mul_one _).symm⟩
  · have pos : 0 < smallShl.toNat := nonzeroIff.mp zero
    have lt : smallShl.toNat < 32 := UInt8.lt_iff_toNat_lt.mp small
    have left : (32-smallShl).toNat = 32-smallShl.toNat := UInt8.toNat_sub_of_le _ _ (UInt8.le_of_lt small)
    have amounts : smallShl < 32 ∧ 32-smallShl < 32 :=
      ⟨small,by rw [UInt8.lt_iff_toNat_lt,left]; exact Nat.sub_lt (by omega) pos⟩
    have amount : smallShl.toUInt32 = UInt32.ofNat smallShl.toNat := (UInt32.ofNat_uInt8ToNat _).symm
    have rest : (32-smallShl).toUInt32 = UInt32.ofNat (32-smallShl.toNat) := by rw [← left,UInt32.ofNat_uInt8ToNat]
    refine ⟨_,by rw [shiftSmall,if_pos zero,requireOk amounts]; rfl,?_⟩
    simp only [number,amount,rest]
    rw [shiftLimbs pos lt (Nat.two_pow_pos _),UInt32.toNat_zero]
    exact Library.Limbs.shiftBitsValue lt.le (by rwa [blocksRoom])

theorem shiftLeftSpec {c : LongCodeT} {shl : UInt8} (room : number c.blocks * 2^shl.toNat < 2^256) :
    ∃ blocks, shiftLeft c shl = .ok {len := c.len+shl, blocks := blocks} ∧
      number blocks = number c.blocks * 2^shl.toNat := by
  have big : (shl/32).toNat = shl.toNat/32 := UInt8.toNat_div _ _
  have rest : (shl%32).toNat = shl.toNat%32 := UInt8.toNat_mod _ _
  have parts : 2^shl.toNat = (2^32)^(shl/32).toNat * 2^(shl%32).toNat := by
    rw [← Nat.pow_mul,← Nat.pow_add,big,rest,Nat.div_add_mod]
  have le : (shl/32).toNat ≤ blocksNum := by
    have lt := shl.toNat_lt
    rw [big,blocksNum]
    omega
  rw [parts,← Nat.mul_assoc] at room
  obtain ⟨moved,ran,value⟩ := shiftBigSpec le (lt_of_le_of_lt (Nat.le_mul_of_pos_right _ (Nat.two_pow_pos _)) room)
  rw [← value] at room
  have small : shl%32 < 32 := UInt8.mod_lt _ (by decide)
  obtain ⟨blocks,ran',value'⟩ := shiftSmallSpec small room
  exact ⟨blocks,by simp only [shiftLeft,ran,ran',okBind],by rw [value',value,parts,Nat.mul_assoc]⟩

theorem printBlockBits {n : ℕ} (le : n ≤ 32) (block : UInt32) : printBlock n block = bits n block.toNat := by
  induction n with
  | zero => rfl
  | succ n ih =>
    have bit : (block >>> UInt32.ofNat n) &&& 1 = 1 ↔ block.toNat / 2^n % 2 = 1 := by
      rw [← UInt32.toNat_inj,UInt32.toNat_and,UInt32.toNat_shiftRight,shiftAmount le,UInt32.toNat_one,
        Nat.and_one_is_mod,Nat.shiftRight_eq_div_pow]
    rw [printBlock,bits,ih (by omega),Nat.testBit_eq_decide_div_mod_eq]
    simp only [bit]

theorem blockBits (blocks : Blocks) {i : ℕ} (lt : i < blocksNum) :
    ∃ block, blockAt blocks i = .ok block ∧ number blocks / 2^(32*i) % 2^32 = block.toNat := by
  have inside : i < blocks.val.length := by rwa [blocks.property]
  refine ⟨blocks.val[i],dif_pos inside,?_⟩
  rw [Nat.pow_mul,number,Library.Limbs.limbAt (by norm_num) (limbsSmall _) (by rwa [limbsLength])]
  exact List.getElem_map _

theorem printBlocksBits (blocks : Blocks) {b : ℕ} (le : b ≤ blocksNum) :
    printBlocks blocks b = .ok (bits (32*b) (number blocks)) := by
  induction b with
  | zero => rfl
  | succ i ih =>
    obtain ⟨block,found,digits⟩ := blockBits blocks le
    have whole : bits (32*(i+1)) (number blocks) = printBlock 32 block ++ bits (32*i) (number blocks) := by
      rw [Nat.mul_succ,Nat.add_comm,bitsAppend,printBlockBits le_rfl,← digits,bitsMod]
    simp only [printBlocks,found,ih (by omega),okBind,whole]

theorem printBits (c : LongCodeT) : print c = .ok (bits c.len.toNat (number c.blocks)) := by
  have lt := c.len.toNat_lt
  have b : (c.len/32).toNat = c.len.toNat/32 := UInt8.toNat_div _ _
  have l : (c.len%32).toNat = c.len.toNat%32 := UInt8.toNat_mod _ _
  have inside : c.len.toNat/32 < blocksNum := by
    rw [blocksNum]
    omega
  obtain ⟨block,found,digits⟩ := blockBits c.blocks inside
  have whole : bits c.len.toNat (number c.blocks) =
      printBlock (c.len.toNat%32) block ++ bits (32*(c.len.toNat/32)) (number c.blocks) := by
    conv_lhs => rw [← Nat.mod_add_div c.len.toNat 32]
    rw [bitsAppend,printBlockBits (by omega),← digits,bitsModLe (by omega)]
  simp only [print,b,l,found,printBlocksBits c.blocks inside.le,okBind,whole]

theorem incrementSpec {c : LongCodeT} (room : number c.blocks + 1 < 2^255) :
    ∃ c', increment c = .ok c' ∧ number c'.blocks = number c.blocks + 1 ∧
      c'.len.toNat = max c.len.toNat (Nat.size (number c.blocks + 1)) := by
  have sum := incrementNumber c.blocks.property (room.trans (by norm_num))
  have size : Nat.size (number c.blocks + 1) ≤ 255 := Nat.size_le.mpr room
  refine ⟨_,recalcSpec _,sum,?_⟩
  simp only [number] at sum size ⊢
  rw [UInt8.toNat_max,sum,narrowByte (by omega)]

theorem longCodeExact (c : LongCodeT) (fits : number c.blocks < 2^c.len.toNat) :
    (number c.blocks + 1 < 2^255 → ∃ c', increment c = .ok c' ∧ number c'.blocks = number c.blocks + 1 ∧
      c'.len.toNat = max c.len.toNat (Nat.size (number c.blocks + 1)) ∧ number c'.blocks < 2^c'.len.toNat) ∧
    (∀ shl : UInt8, c.len.toNat + shl.toNat ≤ 255 → ∃ c', shiftLeft c shl = .ok c' ∧
      number c'.blocks = number c.blocks * 2^shl.toNat ∧ c'.len.toNat = c.len.toNat + shl.toNat ∧
      number c'.blocks < 2^c'.len.toNat) ∧
    print c = .ok (bits c.len.toNat (number c.blocks)) := by
  refine ⟨fun room => ?_,fun shl le => ?_,printBits c⟩
  · obtain ⟨c',ran,sum,len⟩ := incrementSpec room
    refine ⟨c',ran,sum,len,?_⟩
    rw [sum,← Nat.size_le,len]
    exact le_max_right _ _
  · have shifted : number c.blocks * 2^shl.toNat < 2^(c.len.toNat+shl.toNat) := by
      rw [Nat.pow_add]
      exact Nat.mul_lt_mul_of_pos_right fits (Nat.two_pow_pos _)
    have room := shifted.trans_le (Nat.pow_le_pow_right (by norm_num) le)
    obtain ⟨blocks,ran,product⟩ := shiftLeftSpec (room.trans (by norm_num))
    have len : (c.len+shl).toNat = c.len.toNat+shl.toNat := by
      rw [UInt8.toNat_add]
      omega
    exact ⟨_,ran,product,len,by rwa [product,len]⟩

def fullCode : LongCodeT := {len := 35, blocks := ⟨[0xFFFFFFFF,7,0,0,0,0,0,0],rfl⟩}

theorem longCodeExactFull :
    (∃ c', increment fullCode = .ok c' ∧ number c'.blocks = 2^35 ∧ c'.len.toNat = 36) ∧
    (∃ c', shiftLeft fullCode 220 = .ok c' ∧ number c'.blocks = (2^35-1)*2^220 ∧ c'.len.toNat = 255) ∧
    print fullCode = .ok (List.replicate 35 true) := by
  have full : number fullCode.blocks = 2^35-1 := by decide
  have fits : number fullCode.blocks < 2^fullCode.len.toNat := by rw [full]; decide
  obtain ⟨incremented,shifted,printed⟩ := longCodeExact fullCode fits
  rw [full] at incremented shifted printed
  obtain ⟨c',ran,sum,len,_⟩ := incremented (by norm_num)
  obtain ⟨c'',ran',product,len',_⟩ := shifted 220 (by decide)
  exact ⟨⟨c',ran,sum,len⟩,⟨c'',ran',product,len'⟩,printed⟩

end HuffmanArchiver.LongArithmetic
