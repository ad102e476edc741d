import HuffmanArchiver.PrefixDecoding

/-! The codes of lengths within Kraft's inequality are a prefix code. When they use the sum up, every
bit stream is a sequence of codes, so `decode_body` takes any body apart. -/
namespace HuffmanArchiver.CompleteCode
open Machine Codes CodeWords DecodeTables DecodeTree FastIo BitReading CodeIo Huffman Decoding
  PrefixDecoding Library.BitString
open CodeLengths Canonical

variable {lengths : CodeLengthTable} {codes : CodeTable}

theorem codedIff (partition : Partition lengths codes) (b : UInt8) : Coded codes b ↔ 0 < (lengths b).toNat := by
  rw [Coded,partition.len b]
  exact nonzeroIff

theorem partitionValue (partition : Partition lengths codes) (b : UInt8) : value (codes b) = (codes b).data.toNat :=
  Nat.mod_eq_of_lt (partition.data b)

theorem partitionFree (partition : Partition lengths codes) : PrefixFree codes := by
  intro b c ne hb hc continues
  obtain ⟨le,front⟩ := continues
  rw [lead,partitionValue partition,partitionValue partition] at front
  have high := Nat.div_mul_le_self (codes c).data.toNat (2^((codes c).len.toNat-(codes b).len.toNat))
  rw [front] at high
  -- the words of the longer code are some of those of the shorter one
  have scale : room (codes b).len.toNat = 2^((codes c).len.toNat-(codes b).len.toNat) * room (codes c).len.toNat :=
    roomMul le (by rw [partition.len c]; exact partition.fits c)
  have above : firstWord (codes b) ≤ firstWord (codes c) := by
    rw [firstWord,firstWord,scale,← Nat.mul_assoc]
    exact Nat.mul_le_mul_right _ high
  have below : firstWord (codes c) < firstWord (codes b) + room (codes b).len.toNat := by
    rw [firstWord,firstWord,← Nat.succ_mul,scale,← Nat.mul_assoc]
    refine (Nat.mul_lt_mul_right (roomPos _)).mpr ?_
    rw [← Nat.div_lt_iff_lt_mul (Nat.two_pow_pos _),front]
    exact Nat.lt_succ_self _
  have positive := roomPos (lengths c).toNat
  rcases partition.apart b c ne ((codedIff partition b).mp hb) ((codedIff partition c).mp hc) with before | behind
  · rw [← partition.len b] at before
    omega
  · omega

theorem covered (partition : Partition lengths codes) (full : taken (lengthBytePairs lengths) = 2^64)
    (s : ℕ → Bool) (pos : ℕ) :
    ∃ b, Stands codes s pos b := by
  obtain ⟨b,coded,low,high⟩ := partition.covers (window s pos 64) (by rw [full]; exact windowLt _ _ _)
  have split := windowTop s pos (partition.fits b)
  refine ⟨b,(codedIff partition b).mpr coded,?_⟩
  rw [firstWord,partition.len b] at low high
  rw [partitionValue partition,partition.len b,← split]
  exact Nat.div_eq_of_lt_le low (by rw [Nat.succ_mul]; exact high)

theorem coveredRun (partition : Partition lengths codes) (full : taken (lengthBytePairs lengths) = 2^64)
    (s : ℕ → Bool)
    (count pos : ℕ) : ∃ bs : List UInt8, bs.length = count ∧ StandAll codes s pos bs := by
  induction count generalizing pos with
  | zero => exact ⟨[],rfl,trivial⟩
  | succ count ih =>
    obtain ⟨b,stands⟩ := covered partition full s pos
    obtain ⟨bs,size,stand⟩ := ih (pos+(codes b).len.toNat)
    exact ⟨b :: bs,by rw [List.length_cons,size],stands,stand⟩

theorem takenPairs (lengths : CodeLengthTable) :
    taken (lengthBytePairs lengths) = ((lengthBytes lengths).map (fun b => room (lengths b).toNat)).sum := by
  have perm := (pairsPerm lengths).map (fun p => room p.1.toNat)
  rw [List.map_map] at perm
  exact perm.sum_eq

theorem kraftTaken (fits : ∀ b, (lengths b).toNat ≤ 64) :
    (taken (lengthBytePairs lengths) : ℚ) = 2^64 * ∑ b with lengths b ≠ 0, (1/2 : ℚ)^(lengths b).toNat := by
  have bytes : lengthBytes lengths = allBytes.filter (fun b => lengths b ≠ 0) := by
    refine congrArg (List.filter · allBytes) (funext (fun b => decide_eq_decide.mpr ?_))
    exact UInt8.pos_iff_ne_zero
  have bounded : ∀ l ∈ (lengthBytes lengths).map (fun b => (lengths b).toNat), l ≤ 64 := by
    intro l hl
    obtain ⟨b,_,rfl⟩ := List.mem_map.mp hl
    exact fits b
  have scaled := listKraft bounded
  rw [List.map_map,List.map_map] at scaled
  rw [sumWhere,← bytes,takenPairs]
  exact scaled

theorem takenFits (fits : ∀ b, (lengths b).toNat ≤ 64)
    (kraft : ∑ b with lengths b ≠ 0, (1/2 : ℚ)^(lengths b).toNat ≤ 1) :
    taken (lengthBytePairs lengths) ≤ 2^64 := by
  have le : (taken (lengthBytePairs lengths) : ℚ) ≤ (2^64 : ℕ) := by
    rw [kraftTaken fits]
    push_cast
    exact mul_le_of_le_one_right (by norm_num) kraft
  exact_mod_cast le

theorem shortFirst (fits : ∀ b, (lengths b).toNat ≤ 64) (full : taken (lengthBytePairs lengths) = 2^64) :
    ∀ p ∈ (lengthBytePairs lengths).head?, p.1.toNat < 64 := by
  intro p hp
  by_contra long
  obtain ⟨rest,split⟩ := List.head?_eq_some_iff.mp hp
  have laid := pairsLaid fits
  have least : ∀ q ∈ lengthBytePairs lengths, q.1.toNat = 64 := by
    intro q hq
    have bound := (laid.bounds q hq).2
    rw [split] at hq
    rcases List.mem_cons.mp hq with rfl | inside
    · omega
    · have ordered := laid.ordered
      rw [split] at ordered
      have := (List.pairwise_cons.mp ordered).1 q inside
      omega
  have sum : taken (lengthBytePairs lengths) = (lengthBytePairs lengths).length := by
    have one : ∀ q ∈ lengthBytePairs lengths, room q.1.toNat = 1 := fun q hq => by
      rw [least q hq]
      rfl
    rw [taken,List.map_congr_left one]
    simp
  have few : (lengthBytePairs lengths).length ≤ 256 := by
    rw [(pairsPerm lengths).length_eq,List.length_map,← allBytesLength]
    exact List.length_filter_le _ _
  omega

theorem completeCode (fits : ∀ b, (lengths b).toNat ≤ 64)
    (kraft : ∑ b with lengths b ≠ 0, (1/2 : ℚ)^(lengths b).toNat = 1) :
    taken (lengthBytePairs lengths) = 2^64 ∧ ∃ codes, constructCodes lengths = .ok codes ∧
      Partition lengths codes := by
  have full : taken (lengthBytePairs lengths) = 2^64 := by
    have scaled := kraftTaken fits
    rw [kraft,mul_one] at scaled
    exact_mod_cast scaled
  exact ⟨full,constructPartition fits (shortFirst fits full) full.le⟩

theorem standCoded {s : ℕ → Bool} {pos : ℕ} {bs : List UInt8} (stand : StandAll codes s pos bs) :
    ∀ b ∈ bs, Coded codes b := by
  induction bs generalizing pos with
  | nil => simp
  | cons c rest ih =>
    intro b hb
    rcases List.mem_cons.mp hb with rfl | inside
    · exact stand.1.1
    · exact ih stand.2 b inside

def Lands (lengths : CodeLengthTable) (nesting : NestingFactor) (reader : CodeReader decodeBits) : Prop :=
  ∃ cur next e, reader.descend nesting = .ok (cur,next) ∧ cell next.table cur next.buffer.toNat = .ok e ∧
    0 < e.len.toNat ∧ lengths e.byte ≠ 0

theorem alwaysLands (partition : Partition lengths codes) (full : taken (lengthBytePairs lengths) = 2^64)
    (body : IStream) :
    ∃ reader, CodeReader.create decodeBits codes body = .ok reader ∧ ∀ i, ∃ reader' writer',
      decodeLoop (chooseNesting decodeBits lengths) i reader {} = .ok (reader',writer') ∧
      Lands lengths (chooseNesting decodeBits lengths) reader' := by
  obtain ⟨reader,addr,created,here,nested,leaves⟩ :=
    createDecoder (fun b => by rw [partition.len b]; exact partition.fits b) body
  have own := leaves (partitionFree partition)
  have sees := chosenSees partition.len nested
  refine ⟨reader,created,fun i => ?_⟩
  obtain ⟨bs,rfl,stand⟩ := coveredRun partition full (bitStream body.rest) i 0
  obtain ⟨reader',writer',ran,same,here',_⟩ :=
    decodeLoopSpec (by decide) here nested own stand sees (ByteIo.holdsEmpty [])
  refine ⟨reader',writer',ran,?_⟩
  rw [← same] at nested own sees
  obtain ⟨b,stands⟩ := covered partition full (bitStream body.rest) (0+codedLength codes bs)
  obtain ⟨cur,next,e,_,descended,found,pos,rfl,_⟩ := readCode (by decide) nested own stands here'
  refine ⟨cur,next,e,(descendAgrees (by decide) here' nested sees).trans descended,found,pos,?_⟩
  exact fun zero => stands.1 ((partition.len e.byte).trans zero)

theorem decodeBodyInverts (lengths : CodeLengthTable) (fits : ∀ b, (lengths b).toNat ≤ bitSize)
    (kraft : ∑ b with lengths b ≠ 0, (1/2 : ℚ)^(lengths b).toNat = 1) :
    ∃ codes, constructCodes lengths = .ok codes ∧ ∀ (body : IStream) (filesize : UInt64),
      (∃ readBytes out, decodeBody body [] lengths codes filesize = .ok (readBytes,out) ∧
        out.length = filesize.toNat ∧
        (∀ b ∈ out, lengths b ≠ 0) ∧
        ∀ i x, (out.flatMap (fun b => word (codes b)))[i]? = some x → bitStream body.rest i = x) ∧
      ∃ reader, CodeReader.create decodeBits codes body = .ok reader ∧ ∀ i < filesize.toNat, ∃ reader' writer',
        decodeLoop (chooseNesting decodeBits lengths) i reader {} = .ok (reader',writer') ∧
        Lands lengths (chooseNesting decodeBits lengths) reader' := by
  obtain ⟨full,codes,built,partition⟩ := completeCode fits kraft
  refine ⟨codes,built,fun body filesize => ⟨?_,?_⟩⟩
  · obtain ⟨bs,size,stand⟩ := coveredRun partition full (bitStream body.rest) filesize.toNat 0
    obtain ⟨reader,decoded,_⟩ := decodeBodySpec fits partition.len (partitionFree partition) body bs size stand
    refine ⟨_,bs,decoded,size,fun b hb zero => standCoded stand b hb ((partition.len b).trans zero),
      fun i x at_i => ?_⟩
    have bit := bitsOfStands stand i x at_i
    rwa [Nat.zero_add] at bit
  · obtain ⟨reader,created,lands⟩ := alwaysLands partition full body
    exact ⟨reader,created,fun i _ => lands i⟩

def threeLengths : CodeLengthTable := fun b => if b = 0 then 1 else if b ≤ 2 then 2 else 0

theorem threeKraft : ∑ b with threeLengths b ≠ 0, (1/2 : ℚ)^(threeLengths b).toNat = 1 := by
  have bytes : allBytes.filter (fun b => threeLengths b ≠ 0) = [0,1,2] := by decide +kernel
  have lens : ([0,1,2] : List UInt8).map (fun b => (threeLengths b).toNat) = [1,2,2] := by decide +kernel
  have sum : (([0,1,2] : List UInt8).map (fun b => (1/2 : ℚ)^(threeLengths b).toNat)).sum =
      (([1,2,2] : List ℕ).map (fun l => (1/2 : ℚ)^l)).sum := by rw [← lens,List.map_map]; rfl
  rw [sumWhere,bytes,sum]
  norm_num

theorem decodeBodyInvertsThreeLengths :
    ∃ codes, constructCodes threeLengths = .ok codes ∧ ∀ (body : IStream) (filesize : UInt64),
      (∃ readBytes out, decodeBody body [] threeLengths codes filesize = .ok (readBytes,out) ∧
        out.length = filesize.toNat ∧
        (∀ b ∈ out, threeLengths b ≠ 0) ∧
        ∀ i x, (out.flatMap (fun b => word (codes b)))[i]? = some x → bitStream body.rest i = x) ∧
      ∃ reader, CodeReader.create decodeBits codes body = .ok reader ∧ ∀ i < filesize.toNat, ∃ reader' writer',
        decodeLoop (chooseNesting decodeBits threeLengths) i reader {} = .ok (reader',writer') ∧
        Lands threeLengths (chooseNesting decodeBits threeLengths) reader' :=
  decodeBodyInverts threeLengths (by decide +kernel) threeKraft

end HuffmanArchiver.CompleteCode
