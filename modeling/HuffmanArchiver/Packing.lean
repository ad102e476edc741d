import HuffmanArchiver.CodeIo
import HuffmanArchiver.CodeWords
import HuffmanArchiver.BitReading
import HuffmanArchiver.ByteIo

/-! `code_writer` puts the codes one behind the other. Up to 31 bits wait in its 64-bit buffer; a flush
fills the last byte up with zeros. -/
namespace HuffmanArchiver.Packing
open Machine Codes CodeWords CodeIo BitReading ByteIo Library.BitString

theorem byteBitsAppend (a b : Bytes) : byteBits (a ++ b) = byteBits a ++ byteBits b := List.flatMap_append

theorem byteOf (v : ℕ) : bits 8 (UInt8.ofNat (v % 256)).toNat = bits 8 v := by
  rw [UInt8.toNat_ofNat']
  exact (bitsMod 8 _).trans (bitsMod 8 v)

theorem memoryOf {a b c d : ℕ} (ha : a < 256) (hb : b < 256) (hc : c < 256) (hd : d < 256) :
    memory 4 (((a*256+b)*256+c)*256+d) = [UInt8.ofNat d,UInt8.ofNat c,UInt8.ofNat b,UInt8.ofNat a] := by
  have low : ∀ (q r : ℕ), r < 256 → (q*256+r) % 256 = r := fun q r hr => by omega
  have high : ∀ (q r : ℕ), r < 256 → (q*256+r) / 256 = q := fun q r hr => by omega
  simp only [memory,low _ d hd,high _ d hd,low _ c hc,high _ c hc,low _ b hb,high _ b hb,Nat.mod_eq_of_lt ha]

theorem blockBits (block : UInt32) : byteBits (memory 4 (htonl block).toNat) = bits 32 block.toNat := by
  have lt := block.toNat_lt
  have small : block.toNat / 2^24 < 256 := by omega
  have below : ∀ v, v % 256 < 256 := fun v => Nat.mod_lt v (by norm_num)
  have reversed : (htonl block).toNat = ((block.toNat % 256 * 256 + block.toNat / 2^8 % 256) * 256 +
      block.toNat / 2^16 % 256) * 256 + block.toNat / 2^24 := by
    have := below block.toNat
    have := below (block.toNat / 2^8)
    have := below (block.toNat / 2^16)
    rw [htonl,UInt32.toNat_ofNat',Nat.mod_eq_of_lt (by omega)]
    ring
  have high : ∀ x, bits 32 x = bits 8 (x/2^24) ++ (bits 8 (x/2^16) ++ (bits 8 (x/2^8) ++ bits 8 x)) := fun x => by
    rw [← bitsAppend 8 8,← bitsAppend 8 16,← bitsAppend 8 24]
  rw [reversed,memoryOf (below _) (below _) (below _) small,high]
  simp only [byteBits,List.flatMap_cons,List.flatMap_nil,byteOf,List.append_nil]
  rw [← byteOf (block.toNat / 2^24),Nat.mod_eq_of_lt small]

structure Pending (w : CodeWriter) (len pend : ℕ) : Prop where
  size : w.len.toNat = len
  lt : pend < 2^len
  buffer : w.buffer.toNat = pend*2^(64-len)

theorem appendSpec {w : CodeWriter} {len pend v : ℕ} {block : UInt32} {aLen : UInt8} (pending : Pending w len pend)
    (small : len ≤ 32) (fits : aLen.toNat ≤ 32) (lt : v < 2^aLen.toNat)
    (aligned : block.toNat = v*2^(32-aLen.toNat)) :
    ∃ w', w.append block aLen = .ok w' ∧ Pending w' (len+aLen.toNat) (pend*2^aLen.toNat+v) ∧ w'.writer = w.writer ∧
      w'.writtenBytesCnt = w.writtenBytesCnt := by
  have shift : sizeSub CodeWriter.blockSizeBits w.len.toNat = 32-len := by
    rw [pending.size]
    exact sizeSubLe small (by decide)
  have scale : 2^(32-aLen.toNat) * 2^(32-len) = 2^(64-(len+aLen.toNat)) := (powSplit (by omega)).symm
  have room : 2^aLen.toNat * 2^(64-(len+aLen.toNat)) = 2^(64-len) := (powSplit (by omega)).symm
  have inside : v*2^(64-(len+aLen.toNat)) < 2^(64-len) := by
    rw [← room]
    exact Nat.mul_lt_mul_of_pos_right lt (Nat.two_pow_pos _)
  have shifted : shl64 block.toUInt64 (32-len) = .ok (UInt64.ofNat (v*2^(64-(len+aLen.toNat)))) := by
    rw [shl64,if_pos (by omega),UInt32.toNat_toUInt64,Nat.shiftLeft_eq,aligned,Nat.mul_assoc,scale]
  have number : (UInt64.ofNat (v*2^(64-(len+aLen.toNat)))).toNat = v*2^(64-(len+aLen.toNat)) :=
    UInt64.toNat_ofNat_of_lt' (inside.trans_le (Nat.pow_le_pow_right (by norm_num) (Nat.sub_le _ _)))
  refine ⟨{w with buffer := w.buffer ||| UInt64.ofNat (v*2^(64-(len+aLen.toNat))), len := w.len+aLen},?_,
    ⟨?_,?_,?_⟩,rfl,rfl⟩
  · simp only [CodeWriter.append,shift,shifted,okBind]
  · rw [UInt8.toNat_add,pending.size]
    omega
  · rw [Nat.pow_add]
    have := Nat.mul_le_mul_right (2^aLen.toNat) pending.lt
    rw [Nat.succ_mul] at this
    omega
  · rw [UInt64.toNat_or,number,pending.buffer,← Nat.shiftLeft_eq,← Nat.shiftLeft_add_eq_or_of_lt inside,
      Nat.shiftLeft_eq,
      ← room,Nat.add_mul,Nat.mul_assoc]

def Packed (start : Bytes) (done : List Bool) (len : ℕ) (w : CodeWriter) : Prop :=
  ∃ emitted pend, Holds w.writer (start ++ emitted) ∧ w.writtenBytesCnt = UInt64.ofNat emitted.length ∧
    Pending w len pend ∧ done = byteBits emitted ++ bits len pend

theorem toUInt32Small {x : UInt64} (lt : x.toNat < 2^32) : x.toUInt32.toNat = x.toNat := by
  rw [UInt64.toNat_toUInt32,Nat.mod_eq_of_lt lt]

theorem upperHalf {data : UInt64} {a r : ℕ} (full : 32 ≤ r) (fits : r ≤ 64) (lt : a < 2^r)
    (aligned : data.toNat = a*2^(64-r)) :
    ∃ high rest, shr64 data 32 = .ok high ∧ high.toNat = a/2^(r-32) ∧ high.toNat < 2^32 ∧ shl64 data 32 = .ok rest ∧
      rest.toNat = a % 2^(r-32) * 2^(64-(r-32)) := by
  have pos : 0 < 32 := by norm_num
  have small : 32 < 64 := by norm_num
  obtain ⟨high,upper,number⟩ := topFull fits aligned pos full
  obtain ⟨rest,shifted,left⟩ := dataShifted fits aligned small full
  have split : 2^r = 2^32 * 2^(r-32) := powSplit (by omega)
  have below : high.toNat < 2^32 := by
    rw [number,Nat.div_lt_iff_lt_mul (Nat.two_pow_pos _),← split]
    exact lt
  exact ⟨high,rest,upper,number,below,shifted,left⟩

section Pack
variable {start : Bytes} {done : List Bool} {len : ℕ} {w : CodeWriter} (packed : Packed start done len w)
include packed

theorem appendPacked {v : ℕ} {block : UInt32} {aLen : UInt8} (small : len ≤ 32) (fits : aLen.toNat ≤ 32)
    (lt : v < 2^aLen.toNat) (aligned : block.toNat = v*2^(32-aLen.toNat)) :
    ∃ w', w.append block aLen = .ok w' ∧ Packed start (done ++ bits aLen.toNat v) (len+aLen.toNat) w' := by
  obtain ⟨emitted,pend,holds,count,pending,rfl⟩ := packed
  obtain ⟨w',ran,pending',writer,count'⟩ := appendSpec pending small fits lt aligned
  refine ⟨w',ran,emitted,_,by rw [writer]; exact holds,by rw [count',count],pending',?_⟩
  rw [List.append_assoc,bitsJoin _ _ _ _ lt]

theorem blockPacked (full : 32 ≤ len) (fits : len ≤ 64) :
    ∃ w', w.writeBufferBlock = .ok w' ∧ Packed start done (len-32) w' := by
  obtain ⟨emitted,pend,holds,count,pending,rfl⟩ := packed
  obtain ⟨top,buffer,upper,number,below,shifted,rest⟩ := upperHalf full fits pending.lt pending.buffer
  obtain ⟨writer,wrote,holds'⟩ :=
    writeSpec holds (memory 4 (htonl top.toUInt32).toNat) (by rw [memoryLength]; decide)
  refine ⟨{w with writer := writer, writtenBytesCnt := w.writtenBytesCnt+4, buffer := buffer, len := w.len-32},?_,
    emitted ++ memory 4 (htonl top.toUInt32).toNat,pend % 2^(len-32),?_,?_,⟨?_,Nat.mod_lt _
      (Nat.two_pow_pos _),rest⟩,?_⟩
  · simp only [CodeWriter.writeBufferBlock,CodeWriter.blockSizeBits,upper,okBind,CodeWriter.writeBlock,
      wrote,shifted]
  · rw [← List.append_assoc]
    exact holds'
  · rw [List.length_append,memoryLength,UInt64.ofNat_add,← count]
    rfl
  · rw [UInt8.toNat_sub_of_le _ _ (UInt8.le_iff_toNat_le.mpr (by rw [pending.size]; exact full)),pending.size]
    rfl
  · have split := bitsAppend 32 (len-32) pend
    rw [Nat.add_sub_cancel' full] at split
    rw [byteBitsAppend,blockBits,toUInt32Small below,number,List.append_assoc,split,bitsMod]

theorem tailPacked {data : UInt64} {aLen : UInt8} {v : ℕ} (short : len < 32) (fits : aLen.toNat ≤ 32)
    (lt : v < 2^aLen.toNat) (aligned : data.toNat = v*2^(64-aLen.toNat)) :
    ∃ high w₁ w' len', shr64 data 32 = .ok high ∧ w.append high.toUInt32 aLen = .ok w₁ ∧
      (if 32 ≤ w₁.len.toNat then w₁.writeBufferBlock else .ok w₁) = .ok w' ∧ len' < 32 ∧
      Packed start (done ++ bits aLen.toNat v) len' w' := by
  have pos : 0 < 32 := by norm_num
  have narrow : aLen.toNat ≤ 64 := fits.trans (by norm_num)
  obtain ⟨high,upper,number⟩ := topShort narrow aligned pos (by norm_num) fits
  have below : high.toNat < 2^32 := by
    have whole : 2^32 = 2^aLen.toNat * 2^(32-aLen.toNat) := powSplit (by omega)
    rw [number,whole]
    exact Nat.mul_lt_mul_of_pos_right lt (Nat.two_pow_pos _)
  obtain ⟨w₁,appended,packed₁⟩ := appendPacked packed (by omega) fits lt ((toUInt32Small below).trans number)
  have size : w₁.len.toNat = len+aLen.toNat := by
    obtain ⟨_,_,_,_,pending,_⟩ := packed₁
    exact pending.size
  refine ⟨high,w₁,?_⟩
  by_cases full : 32 ≤ w₁.len.toNat
  · obtain ⟨w',ran,packed'⟩ := blockPacked packed₁ (by omega) (by omega)
    exact ⟨w',_,upper,appended,by rw [if_pos full]; exact ran,by omega,packed'⟩
  · exact ⟨w₁,_,upper,appended,if_neg full,by omega,packed₁⟩

theorem writePacked {c : CodeT} (short : len < 32) (pos : 0 < c.len.toNat) (fits : c.len.toNat ≤ 64) :
    ∃ w' len', w.write c = .ok w' ∧ len' < 32 ∧ Packed start (done ++ word c) len' w' := by
  obtain ⟨data,shifted,aligned⟩ := leftAlignSpec pos fits
  have lt := valueLt c
  by_cases long : 32 ≤ c.len.toNat
  · obtain ⟨high,data',upper,number,below,behind,aligned'⟩ := upperHalf long fits lt aligned
    have size : (32 : UInt8).toNat = 32 := rfl
    have whole : high.toUInt32.toNat = high.toNat*2^(32-(32 : UInt8).toNat) := by rw [toUInt32Small below]; simp
    obtain ⟨w₁,appended,packed₁⟩ := appendPacked packed short.le size.le below whole
    rw [size] at packed₁
    have room : len+32 ≤ 64 := by omega
    obtain ⟨w₂,spilled,packed₂⟩ := blockPacked packed₁ (Nat.le_add_left _ _) room
    rw [Nat.add_sub_cancel] at packed₂
    have left : (c.len-32).toNat = c.len.toNat-32 := UInt8.toNat_sub_of_le _ _ (UInt8.le_iff_toNat_le.mpr long)
    have rest_fits : (c.len-32).toNat ≤ 32 := by omega
    rw [← left] at aligned'
    obtain ⟨low,w₃,w',len',upper',appended',last,short',packed'⟩ :=
      tailPacked packed₂ short rest_fits (Nat.mod_lt _ (Nat.two_pow_pos _)) aligned'
    refine ⟨w',len',?_,short',?_⟩
    · simp only [CodeWriter.write,shifted,CodeWriter.writeHigh,CodeWriter.blockSizeBits,if_pos long,
        upper,appended,behind,spilled,upper',appended',okBind]
      exact last
    · have split := bitsAppend 32 (c.len.toNat-32) (value c)
      rw [Nat.add_sub_cancel' long] at split
      rw [left,List.append_assoc,number] at packed'
      rw [wordValue,split,← bitsMod (c.len.toNat-32)]
      exact packed'
  · obtain ⟨high,w₁,w',len',upper,appended,last,short',packed'⟩ := tailPacked packed short (by omega) lt aligned
    refine ⟨w',len',?_,short',by rw [wordValue]; exact packed'⟩
    simp only [CodeWriter.write,shifted,CodeWriter.writeHigh,CodeWriter.blockSizeBits,if_neg long,upper,
      appended,okBind]
    exact last

end Pack

theorem bytesOff (b : ℕ) {n : ℕ} (le : n ≤ 7) :
    bits 8 (b/2^56) ++ bits (8*n) (b%2^56*2^8/2^(64-8*n)) = bits (8*(n+1)) (b/2^(64-8*(n+1))) := by
  have scale : 2^(64-8*n) = 2^(64-8*(n+1)) * 2^8 := powSplit (by omega)
  have whole : 2^(64-8*(n+1)) * 2^(8*n) = 2^56 := (powSplit (by omega)).symm
  have step : bits (8*(n+1)) (b/2^(64-8*(n+1))) =
      bits 8 (b/2^(64-8*(n+1))/2^(8*n)) ++ bits (8*n) (b/2^(64-8*(n+1))) := by
        rw [Nat.mul_succ,Nat.add_comm,bitsAppend]
  rw [step,Nat.div_div_eq_div_mul,whole,scale,Nat.mul_div_mul_right _ _ (Nat.two_pow_pos 8)]
  congr 1
  refine bitsCongr (fun i hi => ?_)
  have inside : i+(64-8*(n+1)) < 56 := by omega
  rw [Nat.testBit_div_two_pow,Nat.testBit_div_two_pow,Nat.testBit_mod_two_pow]
  simp [inside]

theorem flushBytesSpec {n : ℕ} {w : CodeWriter} {content : Bytes} (le : n ≤ 8) (holds : Holds w.writer content) :
    ∃ w' out, CodeWriter.flushBytes n w = .ok w' ∧ Holds w'.writer (content ++ out) ∧ out.length = n ∧
      byteBits out = bits (8*n) (w.buffer.toNat/2^(64-8*n)) ∧ w'.writtenBytesCnt = w.writtenBytesCnt +
        UInt64.ofNat n ∧
      w'.buffer.toNat = w.buffer.toNat*2^(8*n) % 2^64 := by
  induction n generalizing w content with
  | zero =>
    refine ⟨w,[],rfl,by simpa using holds,rfl,rfl,(add_zero _).symm,?_⟩
    rw [Nat.mul_zero,Nat.pow_zero,Nat.mul_one,Nat.mod_eq_of_lt w.buffer.toNat_lt]
  | succ n ih =>
    have aligned : w.buffer.toNat = w.buffer.toNat*2^(64-64) := by simp
    have pos : 0 < 8 := by norm_num
    have small : 8 < 64 := by norm_num
    obtain ⟨top,upper,number⟩ := topFull le_rfl aligned pos small.le
    obtain ⟨buffer,shifted,rest⟩ := dataShifted le_rfl aligned small small.le
    obtain ⟨writer,wrote,holds'⟩ := writeByteSpec holds top.toUInt8
    have step : CodeWriter.writeByte {w with buffer := buffer} top.toUInt8 =
        .ok {w with writer := writer, buffer := buffer, writtenBytesCnt := w.writtenBytesCnt+1} := by
      simp only [CodeWriter.writeByte,wrote,okBind]
    obtain ⟨w',out,ran,holds'',size,spelled,count,left⟩ :=
      ih (w := {w with writer := writer, buffer := buffer, writtenBytesCnt := w.writtenBytesCnt+1})
        (by omega) holds'
    refine ⟨w',top.toUInt8 :: out,?_,by simpa using holds'',by rw [List.length_cons,size],?_,?_,?_⟩
    · simp only [CodeWriter.flushBytes,CodeWriter.bufferSizeBits,upper,shifted,okBind,step,ran]
    · have byte : bits 8 top.toUInt8.toNat = bits 8 (w.buffer.toNat/2^56) := by
        rw [UInt64.toNat_toUInt8,number]
        exact bitsMod 8 _
      rw [← bytesOff _ (Nat.le_of_succ_le_succ le),← byte,← rest,← spelled]
      rfl
    · rw [count,add_assoc,add_comm 1,UInt64.ofNat_add]
      rfl
    · have scale : 2^(8*(n+1)) = 2^8 * 2^(8*n) := powSplit (by omega)
      rw [left,rest,scale,← Nat.mul_assoc]
      refine ((Nat.ModEq.mul_right _ ?_) : _ ≡ _ [MOD 2^64])
      have split : 2^64 = 2^56 * 2^8 := powSplit rfl
      rw [Nat.ModEq,split,Nat.mul_mod_mul_right,Nat.mul_mod_mul_right,Nat.mod_mod]

theorem flushPacked {start : Bytes} {done : List Bool} {len : ℕ} {w : CodeWriter} (packed : Packed start done len w)
    (short : len < 32) :
    ∃ w' body, w.flush = .ok w' ∧ w'.len = 0 ∧ Holds w'.writer (start ++ body) ∧
      w'.writtenBytesCnt = UInt64.ofNat body.length ∧ body.length = (done.length+7)/8 ∧
      byteBits body = done ++ List.replicate (8*body.length-done.length) false ∧
      w'.buffer = 0 ∧ w'.writer.out = start ++ body := by
  obtain ⟨emitted,pend,holds,count,pending,rfl⟩ := packed
  obtain ⟨n,few⟩ : ∃ n, n = (len+7)/8 := ⟨_,rfl⟩
  have le : n ≤ 8 := by omega
  obtain ⟨w₁,out,ran,holds₁,size,spelled,count₁,left⟩ := flushBytesSpec le holds
  obtain ⟨writer,flushed,holds₂,delivered,_⟩ := flushSpec holds₁
  have total : (byteBits emitted ++ bits len pend).length = 8*emitted.length+len := by
    rw [List.length_append,byteBitsLength,bitsLength]
  have scale : 2^(64-len) = 2^(8*n-len) * 2^(64-8*n) := powSplit (by omega)
  refine ⟨{w₁ with writer := writer, len := 0},emitted ++ out,?_,rfl,
    by rw [← List.append_assoc]; exact holds₂,?_,?_,?_,?_,
    by rw [← List.append_assoc]; exact delivered⟩
  · have rounded : (w.len.toNat+8-1)/8 = n := by rw [pending.size,few]; omega
    simp only [CodeWriter.flush,rounded,ran,flushed,okBind]
  · rw [count₁,count,List.length_append,size,UInt64.ofNat_add]
  · rw [total,List.length_append,size]
    omega
  · have padded := bitsMulPow len (8*n-len) pend
    have behind : len ≤ 8*n := by omega
    rw [Nat.add_sub_cancel' behind] at padded
    rw [total,List.length_append,size,byteBitsAppend,spelled,pending.buffer,scale,← Nat.mul_assoc,
      Nat.mul_div_cancel _ (Nat.two_pow_pos _),padded,List.append_assoc]
    congr 3
    omega
  · refine UInt64.toNat_inj.mp ?_
    have shifted_out : 2^(64-len) * 2^(8*n) = 2^64 * 2^(8*n-len) := by
      rw [← Nat.pow_add,← Nat.pow_add]
      congr 1
      omega
    rw [left,pending.buffer,Nat.mul_assoc,shifted_out,Nat.mul_left_comm,Nat.mul_mod_right]
    rfl

theorem destroySpec {w : CodeWriter} {content : Bytes} (empty : w.len = 0) (holds : Holds w.writer content) :
    w.destroy = .ok content := by
  obtain ⟨writer,flushed,holds₁,_,_⟩ := flushSpec holds
  obtain ⟨writer',flushed',_,out,_⟩ := flushSpec holds₁
  have none : (w.len.toNat+8-1)/8 = 0 := by rw [empty]; rfl
  simp only [CodeWriter.destroy,CodeWriter.flush,none,CodeWriter.flushBytes,flushed,flushed',okBind,out]

end HuffmanArchiver.Packing
