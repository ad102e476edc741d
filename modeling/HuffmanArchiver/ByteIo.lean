import HuffmanArchiver.FastIo

/-! The buffers of `byte_writer` and `byte_reader` do not show: the bytes come out in the order in which
they went in. -/
namespace HuffmanArchiver.ByteIo
open Machine FastIo

structure Holds (w : ByteWriter) (content : Bytes) : Prop where
  bound : w.bufferPnt ≤ bufferSize
  bytes : w.out ++ w.buffer.toList.take w.bufferPnt = content

theorem storeTake {buffer after : Buffer} {pos : ℕ} {data : Bytes} (stored : store buffer pos data = .ok after) :
    pos + data.length ≤ bufferSize ∧ after.toList.take (pos+data.length) = buffer.toList.take pos ++ data := by
  have fits : pos + data.length ≤ bufferSize := by
    by_contra beyond
    rw [store,if_neg beyond] at stored
    contradiction
  obtain ⟨after',stored',cells⟩ := storeOk buffer pos data fits
  cases Except.ok.inj (stored.symm.trans stored')
  have front : (buffer.toList.take pos).length = pos := by
    rw [List.length_take,Vector.length_toList]; omega
  have whole : (after.toList.take (pos+data.length)).length = pos+data.length := by
    rw [List.length_take,Vector.length_toList]; omega
  refine ⟨fits,List.ext_getElem (by rw [whole,List.length_append,front]) (fun i left right => ?_)⟩
  rw [whole] at left
  have cell := cells i (by omega)
  rw [List.getElem_take,Vector.getElem_toList,cell,List.getElem_append]
  by_cases before : i < pos
  · rw [if_neg (by omega),dif_pos (by omega),List.getElem_take,Vector.getElem_toList]
  · have behind : i-pos < data.length := by omega
    rw [if_pos (by omega),dif_neg (by omega)]
    simp only [front,List.getD_eq_getElem?_getD,List.getElem?_eq_getElem behind,Option.getD_some]

theorem holdsEmpty (out : Bytes) : Holds {out := out} out := ⟨Nat.zero_le _,by simp⟩

theorem flushSpec {w : ByteWriter} {content : Bytes} (holds : Holds w content) :
    ∃ w', w.flush = .ok w' ∧ Holds w' content ∧ w'.out = content ∧ w'.bufferPnt = 0 := by
  refine ⟨{w with out := content, bufferPnt := 0},?_,⟨Nat.zero_le _,by simp⟩,rfl,rfl⟩
  simp only [ByteWriter.flush,requireOk holds.bound,okBind,holds.bytes]

theorem copySpec {w : ByteWriter} {content data : Bytes} (holds : Holds w content)
    (fits : w.bufferPnt + data.length ≤ bufferSize) :
    ∃ w', w.copy data = .ok w' ∧ Holds w' (content ++ data) ∧ w'.bufferPnt = w.bufferPnt + data.length := by
  obtain ⟨after,stored,_⟩ := storeOk w.buffer w.bufferPnt data fits
  refine ⟨{w with buffer := after, bufferPnt := w.bufferPnt + data.length},?_,⟨fits,?_⟩,rfl⟩
  · simp only [ByteWriter.copy,stored,okBind]
  · simp only [(storeTake stored).2]
    rw [← List.append_assoc,holds.bytes]

theorem writeByteSpec {w : ByteWriter} {content : Bytes} (holds : Holds w content) (byte : UInt8) :
    ∃ w', w.writeByte byte = .ok w' ∧ Holds w' (content ++ [byte]) := by
  unfold ByteWriter.writeByte
  by_cases full : w.bufferPnt = bufferSize
  · obtain ⟨flushed,ran,holds',_,empty⟩ := flushSpec holds
    have room : flushed.bufferPnt + [byte].length ≤ bufferSize := by simp [empty]
    obtain ⟨w',copied,holds'',_⟩ := copySpec holds' room
    exact ⟨w',by simp only [if_pos full,ran,okBind,copied],holds''⟩
  · have room : w.bufferPnt + [byte].length ≤ bufferSize := Nat.succ_le_of_lt (Nat.lt_of_le_of_ne holds.bound full)
    obtain ⟨w',copied,holds',_⟩ := copySpec holds room
    exact ⟨w',by simp only [if_neg full,okBind,copied],holds'⟩

theorem writeSpec {w : ByteWriter} {content : Bytes} (holds : Holds w content) (data : Bytes)
    (short : data.length ≤ bufferSize) :
    ∃ w', w.write data = .ok w' ∧ Holds w' (content ++ data) := by
  have bound := holds.bound
  unfold ByteWriter.write
  by_cases beyond : bufferSize < w.bufferPnt + data.length
  · have front : sizeSub bufferSize w.bufferPnt = bufferSize - w.bufferPnt := sizeSubLe bound (by decide)
    have first : (data.take (bufferSize-w.bufferPnt)).length = bufferSize-w.bufferPnt := by
      rw [List.length_take]; omega
    have filled : w.bufferPnt + (data.take (bufferSize-w.bufferPnt)).length ≤ bufferSize := by omega
    obtain ⟨w₁,copied,holds₁,_⟩ := copySpec holds filled
    obtain ⟨w₂,flushed,holds₂,_,empty⟩ := flushSpec holds₁
    have room : w₂.bufferPnt + (data.drop (bufferSize-w.bufferPnt)).length ≤ bufferSize := by
      rw [empty,List.length_drop]
      omega
    obtain ⟨w₃,copied',holds₃,_⟩ := copySpec holds₂ room
    rw [List.append_assoc,List.take_append_drop] at holds₃
    have enough : bufferSize-w.bufferPnt ≤ data.length := by omega
    refine ⟨w₃,?_,holds₃⟩
    simp only [if_pos beyond,front,requireOk enough,okBind,copied,flushed,copied']
  · obtain ⟨w',copied,holds',_⟩ := copySpec holds (Nat.le_of_not_lt beyond)
    exact ⟨w',by simp only [if_neg beyond,copied],holds'⟩

structure Delivers (r : ByteReader) (left : Bytes) : Prop where
  started : r.firstRead = false
  read : r.bufferPnt ≤ r.filledSize
  bound : r.filledSize ≤ bufferSize
  bytes : (r.buffer.toList.take r.filledSize).drop r.bufferPnt ++ r.input.rest = left
  last : r.filledSize < bufferSize → r.input.rest = []

def Remaining (r : ByteReader) (left : Bytes) : Prop := (r.firstRead = true ∧ r.input.rest = left) ∨ Delivers r left

theorem refillDelivers {r : ByteReader} {left : Bytes} (remaining : Remaining r left) :
    ∃ r', r.refill = .ok r' ∧ Delivers r' left ∧ r'.bufferPnt < bufferSize := by
  unfold ByteReader.refill
  by_cases fetch : r.firstRead = true ∨ r.bufferPnt = bufferSize
  · have rest : r.input.rest = left := by
      rcases remaining with fresh | delivers
      · exact fresh.2
      · have full := fetch.resolve_left (by simp [delivers.started])
        have bytes := delivers.bytes
        rwa [List.drop_eq_nil_of_le (by rw [List.length_take,Vector.length_toList]; omega),List.nil_append] at bytes
    have size : (left.take bufferSize).length ≤ bufferSize := by rw [List.length_take]; omega
    obtain ⟨after,stored,_⟩ := storeOk r.buffer 0 (left.take bufferSize) (by omega)
    have filled := (storeTake stored).2
    rw [List.take_zero,List.nil_append,Nat.zero_add] at filled
    have positive : 0 < bufferSize := by decide
    refine ⟨⟨(r.input.read bufferSize).2,after,0,(left.take bufferSize).length,false⟩,?_,
      ⟨rfl,Nat.zero_le _,size,?_,?_⟩,positive⟩
    · simp only [if_pos fetch,IStream.readChunk,rest,stored,okBind]
    · simp only [filled,List.drop_zero,IStream.readRest,rest,List.take_append_drop]
    · intro short
      replace short : (left.take bufferSize).length < bufferSize := short
      rw [List.length_take] at short
      simp only [IStream.readRest,rest]
      exact List.drop_eq_nil_of_le (by omega)
  · rcases remaining with fresh | delivers
    · exact absurd (Or.inl fresh.1) fetch
    · have bound := delivers.bound
      have read := delivers.read
      exact ⟨r,if_neg fetch,delivers,by
        have := fun same => fetch (Or.inr same)
        omega⟩

/-- A reader that has reported the end. Its cursor runs on over the stale bytes behind the last chunk. -/
structure Ended (r : ByteReader) : Prop where
  started : r.firstRead = false
  beyond : r.filledSize ≤ r.bufferPnt
  bound : r.bufferPnt ≤ bufferSize
  input : r.input.rest = []

theorem readEmpty {r : ByteReader} (remaining : Remaining r []) : ∃ byte r', r.read = .ok (false,byte,r') ∧
    Ended r' := by
  obtain ⟨r₁,refilled,delivers,inside⟩ := refillDelivers remaining
  have nothing := (List.append_eq_nil_iff.mp delivers.bytes).1
  rw [List.drop_eq_nil_iff,List.length_take,Vector.length_toList] at nothing
  have bound := delivers.bound
  refine ⟨r₁.buffer[r₁.bufferPnt],{r₁ with bufferPnt := r₁.bufferPnt+1},?_,
    ⟨delivers.started,by simp only; omega,inside,
    (List.append_eq_nil_iff.mp delivers.bytes).2⟩⟩
  simp only [ByteReader.read,refilled,okBind,loadOk _ inside]
  rw [decide_eq_false (by omega)]

theorem readEnded {r : ByteReader} (ended : Ended r) : ∃ byte r', r.read = .ok (false,byte,r') ∧ Ended r' := by
  by_cases full : r.bufferPnt = bufferSize
  · -- the refill at the end of the buffer fetches nothing
    obtain ⟨after,stored,_⟩ := storeOk r.buffer 0 [] (Nat.zero_le _)
    have refilled : r.refill = .ok ⟨(r.input.read bufferSize).2,after,0,0,false⟩ := by
      rw [ByteReader.refill,if_pos (Or.inr full)]
      simp only [IStream.readChunk,ended.input,List.take_nil,stored,okBind,List.length_nil]
    have positive : 0 < bufferSize := by decide
    refine ⟨after[0],⟨(r.input.read bufferSize).2,after,1,0,false⟩,?_,⟨rfl,Nat.zero_le _,positive,?_⟩⟩
    · simp only [ByteReader.read,refilled,okBind,loadOk _ positive]
      rfl
    · simp only [IStream.readRest,ended.input,List.drop_nil]
  · have bound := ended.bound
    have inside : r.bufferPnt < bufferSize := by omega
    have beyond := ended.beyond
    have kept : r.refill = .ok r := by
      rw [ByteReader.refill,if_neg]
      simp [ended.started,full]
    refine ⟨r.buffer[r.bufferPnt],{r with bufferPnt := r.bufferPnt+1},?_,
      ⟨ended.started,by simp only; omega,inside,ended.input⟩⟩
    simp only [ByteReader.read,kept,okBind,loadOk _ inside]
    rw [decide_eq_false (by omega)]

theorem readCons {r : ByteReader} {b : UInt8} {left : Bytes} (remaining : Remaining r (b :: left)) :
    ∃ r', r.read = .ok (true,b,r') ∧ Remaining r' left := by
  obtain ⟨r₁,refilled,delivers,inside⟩ := refillDelivers remaining
  have bound := delivers.bound
  have within := delivers.read
  have bytes := delivers.bytes
  have more : r₁.bufferPnt < r₁.filledSize := by
    by_contra beyond
    rw [List.drop_eq_nil_of_le (by rw [List.length_take,Vector.length_toList]; omega),List.nil_append,
      delivers.last (by omega)] at bytes
    contradiction
  have long : r₁.bufferPnt < (r₁.buffer.toList.take r₁.filledSize).length := by
    rw [List.length_take,Vector.length_toList]; omega
  rw [List.drop_eq_getElem_cons long,List.cons_append,List.getElem_take,Vector.getElem_toList,
    List.cons.injEq] at bytes
  refine ⟨{r₁ with bufferPnt := r₁.bufferPnt+1},?_,.inr ⟨delivers.started,more,bound,bytes.2,delivers.last⟩⟩
  simp only [ByteReader.read,refilled,okBind,loadOk _ inside,bytes.1]
  rw [decide_eq_true (by omega)]

theorem whileReadSpec {σ : Type} (body : σ → UInt8 → Exec σ) {left : Bytes} {r : ByteReader}
    (remaining : Remaining r left) (s : σ) :
    ByteReader.whileRead body (left.length+1) r s = left.foldlM body s := by
  induction left generalizing r s with
  | nil =>
    obtain ⟨byte,r',ran,_⟩ := readEmpty remaining
    simp only [ByteReader.whileRead,ran,okBind]
    rfl
  | cons b left ih =>
    obtain ⟨r',ran,after⟩ := readCons remaining
    rw [List.length_cons,ByteReader.whileRead,ran,List.foldlM_cons]
    simp only [okBind,if_true]
    congr 1
    funext s'
    exact ih after s'

end HuffmanArchiver.ByteIo
