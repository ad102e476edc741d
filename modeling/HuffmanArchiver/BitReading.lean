import HuffmanArchiver.FastIo
import HuffmanArchiver.Library.BitString

/-! `bit_reader` delivers the bits of its input one after the other, and zeros behind them, wherever
the refills of its buffer fall. -/
namespace HuffmanArchiver.BitReading
open Machine FastIo Library.BitString

def byteBits (data : Bytes) : List Bool := data.flatMap (fun b => bits 8 b.toNat)

def bitStream (data : Bytes) : ℕ → Bool := stream (byteBits data)

theorem byteBitsLength (data : Bytes) : (byteBits data).length = 8 * data.length := by
  induction data with
  | nil => rfl
  | cons b rest ih =>
    have split : byteBits (b :: rest) = bits 8 b.toNat ++ byteBits rest := rfl
    rw [split,List.length_append,bitsLength,ih,List.length_cons]
    omega

theorem byteWindow (data : Bytes) (i : ℕ) : window (bitStream data) (8*i) 8 = (data.getD i 0).toNat := by
  induction data generalizing i with
  | nil => exact windowZeros (fun j _ => rfl)
  | cons b rest ih =>
    have split : byteBits (b :: rest) = bits 8 b.toNat ++ byteBits rest := rfl
    rw [bitStream,split]
    cases i with
    | zero =>
      rw [Nat.mul_zero,windowOfBits,Nat.mod_eq_of_lt b.toNat_lt]
      rfl
    | succ i =>
      have skip := windowSkip (bits 8 b.toNat) (byteBits rest) (8*i) 8
      rw [bitsLength,Nat.add_comm 8] at skip
      rw [Nat.mul_succ,skip]
      exact ih i

theorem twoBytes (data : Bytes) (i : ℕ) :
    window (bitStream data) (8*i) 16 = (data.getD i 0).toNat * 256 + (data.getD (i+1) 0).toNat := by
  rw [← byteWindow data i,← byteWindow data (i+1)]
  exact windowAppend _ _ 8 8

structure Fresh (data : Bytes) (r : BitReader) : Prop where
  first : r.firstRead = true
  offset : r.offset = 0
  count : r.readCnt = 0
  input : r.input.rest = data

/-- The buffer holds the bytes of `data` from `base` on, and the next bit is number `pos`. -/
structure Reads (data : Bytes) (base pos : ℕ) (r : BitReader) : Prop where
  started : r.firstRead = false
  place : 8*base + r.offset = pos
  bound : r.offset ≤ 8*bufferSize
  cells : ∀ i (h : i < bufferSize), r.buffer[i] = data.getD (base+i) 0
  count : r.readCnt = UInt64.ofNat (min (base+bufferSize) data.length)
  input : r.input.rest = data.drop (base+bufferSize)

def Ready (data : Bytes) (pos : ℕ) (r : BitReader) : Prop :=
  (Fresh data r ∧ pos = 0) ∨ ∃ base, Reads data base pos r

theorem fetchSpec (r : BitReader) {keep : ℕ} (le : keep ≤ bufferSize) :
    ∃ r', r.fetch keep = .ok r' ∧ r'.firstRead = r.firstRead ∧ r'.offset = r.offset ∧
      r'.readCnt = r.readCnt + UInt64.ofNat (min (bufferSize-keep) r.input.rest.length) ∧
      r'.input.rest = r.input.rest.drop (bufferSize-keep) ∧
      ∀ i (h : i < bufferSize), r'.buffer[i] = if i < keep then r.buffer[i] else r.input.rest.getD (i-keep) 0 := by
  obtain ⟨chunk,taken⟩ : ∃ chunk, chunk = r.input.rest.take (bufferSize-keep) := ⟨_,rfl⟩
  have size : chunk.length = min (bufferSize-keep) r.input.rest.length := by rw [taken,List.length_take]
  have zeros : (List.replicate (bufferSize-chunk.length-keep) (0 : UInt8)).length = bufferSize-chunk.length-keep :=
    List.length_replicate
  obtain ⟨filled,stored,cells⟩ := storeOk r.buffer keep chunk (by omega)
  obtain ⟨zeroed,cleared,cells'⟩ := storeOk filled (keep+chunk.length)
    (List.replicate (bufferSize-chunk.length-keep) 0) (by omega)
  refine ⟨{r with
    buffer := zeroed
    readCnt := r.readCnt + UInt64.ofNat chunk.length
    input := (r.input.read (bufferSize-keep)).2},?_,rfl,rfl,by simp only [size],IStream.readRest _ _,?_⟩
  · simp only [BitReader.fetch,IStream.readChunk,← taken,stored,cleared,okBind]
  · intro i h
    simp only [cells' i h,cells i h,zeros]
    by_cases early : i < keep
    · rw [if_pos early,if_neg (by omega),if_neg (by omega)]
    · rw [if_neg early]
      by_cases inside : i < keep + chunk.length
      · rw [if_neg (by omega),if_pos (by omega),taken,List.getD_eq_getElem?_getD,List.getD_eq_getElem?_getD,
          List.getElem?_take_of_lt (by omega)]
      · have behind : r.input.rest.getD (i-keep) 0 = 0 := List.getD_eq_default _ _ (by omega)
        rw [if_pos (by omega),behind]
        simp only [List.getD_eq_getElem?_getD,List.getElem?_replicate]
        split <;> rfl

theorem fetchReads (data : Bytes) (start : ℕ) {r : BitReader} {keep : ℕ} (le : keep ≤ bufferSize)
    (input : r.input.rest = data.drop (start+keep))
    (count : r.readCnt = UInt64.ofNat (min (start+keep) data.length))
    (front : ∀ i (h : i < bufferSize), i < keep → r.buffer[i] = data.getD (start+i) 0) :
    ∃ r', r.fetch keep = .ok r' ∧ r'.firstRead = r.firstRead ∧
      (∀ i (h : i < bufferSize), r'.buffer[i] = data.getD (start+i) 0) ∧
      r'.readCnt = UInt64.ofNat (min (start+bufferSize) data.length) ∧
        r'.input.rest = data.drop (start+bufferSize) := by
  obtain ⟨r',ran,first,_,count',input',cells⟩ := fetchSpec r le
  refine ⟨r',ran,first,fun i h => ?_,?_,?_⟩
  · rw [cells i h]
    by_cases early : i < keep
    · rw [if_pos early,front i h early]
    · rw [if_neg early,input,List.getD_eq_getElem?_getD,List.getD_eq_getElem?_getD,List.getElem?_drop,Nat.add_assoc,
        Nat.add_sub_cancel' (Nat.le_of_not_lt early)]
  · rw [count',count,input,List.length_drop,← UInt64.ofNat_add]
    refine congrArg UInt64.ofNat ?_
    omega
  · rw [input',input,List.drop_drop,Nat.add_assoc,Nat.add_sub_cancel' le]

theorem refillSpec {data : Bytes} {pos : ℕ} {r : BitReader} (ready : Ready data pos r) :
    ∃ byte_pos base r', r.refill (r.offset/8) (r.offset%8) = .ok (byte_pos,r') ∧ Reads data base pos r' ∧
      r'.offset = 8*byte_pos + r.offset%8 ∧ byte_pos+1 < bufferSize := by
  unfold BitReader.refill
  rcases ready with ⟨fresh,rfl⟩ | ⟨base,reads⟩
  · obtain ⟨r',ran,_,cells,count,input⟩ := fetchReads data 0 (Nat.zero_le bufferSize) fresh.input
      (by rw [fresh.count,Nat.zero_add,Nat.zero_min]; rfl) (fun i _ early => absurd early (Nat.not_lt_zero i))
    rw [if_pos (Or.inl fresh.first)]
    exact ⟨0,0,{r' with firstRead := false, offset := 0},
      by simp only [ran,okBind],⟨rfl,rfl,Nat.zero_le _,cells,count,input⟩,
      by rw [fresh.offset],by decide⟩
  · have place := reads.place
    have bound := reads.bound
    have running : ¬ (r.firstRead = true) := by rw [reads.started]; exact Bool.false_ne_true
    by_cases whole : r.offset/8 = bufferSize
    · obtain ⟨r',ran,_,cells,count,input⟩ := fetchReads data (base+bufferSize) (Nat.zero_le bufferSize) reads.input
        reads.count (fun i _ early => absurd early (Nat.not_lt_zero i))
      rw [if_pos (Or.inr whole)]
      exact ⟨0,base+bufferSize,{r' with firstRead := false, offset := 0},by simp only [ran,okBind],
        ⟨rfl,by simp only; omega,Nat.zero_le _,cells,count,input⟩,by simp only; omega,by decide⟩
    · rw [if_neg (fun fetch => fetch.elim running whole)]
      by_cases last : r.offset/8 + 1 = bufferSize
      · -- the last byte of the buffer moves to its front and is read from there
        obtain ⟨moved,stored,front⟩ := storeOk r.buffer 0 [r.buffer[r.offset/8]] (by simp)
        have kept : ∀ i (h : i < bufferSize), i < 1 → moved[i] = data.getD (base+(bufferSize-1)+i) 0 := by
          intro i h early
          cases Nat.lt_one_iff.mp early
          have only : [r.buffer[r.offset/8]].getD (0-0) 0 = r.buffer[r.offset/8] := rfl
          rw [front 0 h,if_pos (by simp),only,reads.cells _ (by omega)]
          congr 1
          omega
        have one : 1 ≤ bufferSize := by decide
        obtain ⟨r',ran,first,cells,count,input⟩ :=
          fetchReads data (base+(bufferSize-1)) (r := {r with buffer := moved}) one reads.input reads.count kept
        rw [if_pos last,loadOk _ (by omega)]
        exact ⟨0,base+(bufferSize-1),{r' with offset := r.offset%8},by simp only [okBind,stored,ran],
          ⟨first.trans reads.started,
            by simp only; omega,by simp only; omega,cells,count,input⟩,by simp only; omega,by decide⟩
      · rw [if_neg last]
        exact ⟨_,base,r,rfl,reads,by omega,by omega⟩

theorem htonsOf {low high : ℕ} (low_lt : low < 256) (high_lt : high < 256) :
    (htons (UInt16.ofNat (low+256*high))).toNat = low*256+high := by
  have word : (UInt16.ofNat (low+256*high)).toNat = low+256*high := by
    rw [UInt16.toNat_ofNat',Nat.mod_eq_of_lt (by omega)]
  have first : (low+256*high) % 256 = low := by omega
  have second : (low+256*high) / 256 = high := by omega
  rw [htons,UInt16.toNat_ofNat',word,first,second,Nat.mod_eq_of_lt (by omega)]

theorem blockSpec {data : Bytes} {base pos byte_pos : ℕ} {r : BitReader} (reads : Reads data base pos r)
    (inside : byte_pos+1 < bufferSize) :
    ∃ word, BitReader.block r.buffer byte_pos = .ok word ∧
      word.toNat = window (bitStream data) (8*(base+byte_pos)) 16 := by
  have first : byte_pos < bufferSize := Nat.lt_of_succ_lt inside
  simp only [BitReader.block,loadOk r.buffer first,loadOk r.buffer inside,okBind]
  refine ⟨_,rfl,?_⟩
  rw [twoBytes,reads.cells _ first,reads.cells _ inside]
  exact htonsOf (data.getD (base+byte_pos) 0).toNat_lt (data.getD (base+byte_pos+1) 0).toNat_lt

theorem maskToNat (x : UInt16) {n : ℕ} (le : n ≤ 16) :
    (x &&& UInt16.ofNat (1 <<< n - 1)).toNat = x.toNat % 2^n := by
  have mask : (UInt16.ofNat (1 <<< n - 1)).toNat = 2^n-1 := by
    have small : 2^n ≤ 2^16 := Nat.pow_le_pow_right (by norm_num) le
    rw [UInt16.toNat_ofNat',Nat.shiftLeft_eq,Nat.one_mul]
    omega
  rw [UInt16.toNat_and,mask,Nat.and_two_pow_sub_one_eq_mod]

theorem readyOffset {data : Bytes} {pos : ℕ} {r : BitReader} (ready : Ready data pos r) : r.offset%8 = pos%8 := by
  rcases ready with ⟨fresh,rfl⟩ | ⟨base,reads⟩
  · rw [fresh.offset]
  · have place := reads.place
    omega

theorem readRoom {data : Bytes} {pos : ℕ} {r : BitReader} (ready : Ready data pos r) {n : UInt8}
    (fits : pos%8 + n.toNat ≤ 16) :
    ∃ word r' base, r.read n = .ok (word,r') ∧ word.toNat = window (bitStream data) pos n.toNat ∧
      Reads data base (pos+n.toNat) r' ∧ pos/8 + 2 ≤ base + bufferSize := by
  obtain ⟨byte_pos,base,r',refilled,reads,offset,inside⟩ := refillSpec ready
  obtain ⟨word,loaded,value⟩ := blockSpec reads inside
  have place := reads.place
  have phase := readyOffset ready
  have aligned : 8*(base+byte_pos) + r.offset%8 = pos := by omega
  have shift : sizeSub (sizeSub 16 (r.offset%8)) n.toNat = 16 - r.offset%8 - n.toNat := by
    have inner : r.offset%8 ≤ 16 := by omega
    rw [sizeSubLe inner (by norm_num),sizeSubLe (by omega) (by omega)]
  have shifted : shr16 word (16 - r.offset%8 - n.toNat) =
      .ok (UInt16.ofNat (word.toNat >>> (16 - r.offset%8 - n.toNat))) := if_pos (by omega)
  refine ⟨UInt16.ofNat (word.toNat >>> (16 - r.offset%8 - n.toNat)) &&& UInt16.ofNat (1 <<< n.toNat - 1),
    {r' with offset := r'.offset + n.toNat},base,?_,?_,?_,?_⟩
  · have asserted : n.toNat ≤ 2*8 := by omega
    simp only [BitReader.read,requireOk asserted,okBind,refilled,loaded,shift,shifted]
  · have small : word.toNat / 2^(16 - r.offset%8 - n.toNat) < 2^16 := (Nat.div_le_self _ _).trans_lt word.toNat_lt
    have slice := windowSlice (bitStream data) (8*(base+byte_pos)) (r.offset%8) n.toNat (16 - r.offset%8 - n.toNat)
    have whole : r.offset%8 + n.toNat + (16 - r.offset%8 - n.toNat) = 16 := by omega
    rw [whole,aligned] at slice
    rw [maskToNat _ (by omega),UInt16.toNat_ofNat',Nat.shiftRight_eq_div_pow,Nat.mod_eq_of_lt small,value,slice]
  · exact ⟨reads.started,by simp only; omega,by simp only; omega,reads.cells,reads.count,reads.input⟩
  · omega

theorem readSpec {data : Bytes} {pos : ℕ} {r : BitReader} (ready : Ready data pos r) {n : UInt8}
    (le : n.toNat ≤ 9) :
    ∃ word r' base, r.read n = .ok (word,r') ∧ word.toNat = window (bitStream data) pos n.toNat ∧
      Reads data base (pos+n.toNat) r' ∧ pos/8 + 2 ≤ base + bufferSize :=
  readRoom ready (by omega)

end HuffmanArchiver.BitReading
