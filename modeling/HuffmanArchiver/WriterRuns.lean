import HuffmanArchiver.Packing
import HuffmanArchiver.Library.Refinement

/-! Arbitrary runs of `code_writer`: codes and flushes in any order. They refine the bit string of the segments. -/
namespace HuffmanArchiver.WriterRuns
open Machine Codes CodeWords CodeIo BitReading ByteIo Packing Library.BitString Library.Refinement

inductive WriterOp where
  | write (code : CodeT)
  | flush

def runOp (w : CodeWriter) : WriterOp → Exec CodeWriter
  | .write code => w.write code
  | .flush => w.flush

def runOps (ops : List WriterOp) (w : CodeWriter) : Exec CodeWriter := ops.foldlM runOp w

def padded (l : List Bool) : List Bool := l ++ List.replicate ((8-l.length%8)%8) false

/-- What a run puts out, segment by segment; the first one has been begun already. -/
def segments : (segment : List Bool) → List WriterOp → List Bool
  | segment, [] => segment
  | segment, .write code :: rest => segments (segment ++ word code) rest
  | segment, .flush :: rest => padded segment ++ segments [] rest

theorem paddedBytes (l : List Bool) : 8 ∣ (padded l).length := by
  rw [padded,List.length_append,List.length_replicate]
  omega

theorem paddedAppend {a : List Bool} (whole : 8 ∣ a.length) (b : List Bool) : padded (a ++ b) = a ++ padded b := by
  have phase : (a ++ b).length % 8 = b.length % 8 := by
    rw [List.length_append]
    omega
  rw [padded,padded,phase,List.append_assoc]

section Runs
variable {start : Bytes} {done : List Bool} {len : ℕ} {w : CodeWriter} (packed : Packed start done len w)
  (short : len < 32)
include packed

theorem packedBuffer : w.len.toNat = len ∧ ∀ i < 64-len, w.buffer.toNat.testBit i = false := by
  obtain ⟨emitted,pend,_,_,pending,_⟩ := packed
  refine ⟨pending.size,fun i below => ?_⟩
  have low : ¬ 64-len ≤ i := Nat.not_le_of_lt below
  rw [pending.buffer,Nat.testBit_mul_two_pow]
  simp [low]

include short

theorem flushRuns : ∃ w' body, w.flush = .ok w' ∧ Packed start (padded done) 0 w' ∧ w'.len = 0 ∧
    Holds w'.writer w'.writer.out ∧
    w'.writer.out = start ++ body ∧ byteBits body = padded done ∧ w'.writtenBytes = UInt64.ofNat body.length := by
  obtain ⟨w',body,flushed,empty,holds,count,size,spelled,cleared,delivered⟩ := flushPacked packed short
  have fill : 8*body.length-done.length = (8-done.length%8)%8 := by omega
  rw [fill] at spelled
  refine ⟨w',body,flushed,⟨body,0,holds,count,⟨?_,by norm_num,?_⟩,?_⟩,empty,
    by rw [delivered]; exact holds,delivered,spelled,count⟩
  · rw [empty]
    rfl
  · rw [cleared]
    rfl
  · rw [spelled]
    exact (List.append_nil _).symm

end Runs

theorem flushAgain {w : CodeWriter} (empty : w.len = 0) (holds : Holds w.writer w.writer.out) :
    ∃ w', w.flush = .ok w' ∧ w'.writer.out = w.writer.out ∧ w'.writtenBytes = w.writtenBytes := by
  obtain ⟨writer,flushed,_,delivered,_⟩ := flushSpec holds
  have none : (w.len.toNat+8-1)/8 = 0 := by rw [empty]; rfl
  refine ⟨{w with writer := writer, len := 0},?_,delivered,rfl⟩
  simp only [CodeWriter.flush,none,CodeWriter.flushBytes,flushed,okBind]

/-! The specification: the bits of the flushed segments, and those of the segment that has been begun. -/

def specOp (s : List Bool × List Bool) : WriterOp → List Bool × List Bool
  | .write code => (s.1,s.2 ++ word code)
  | .flush => (s.1 ++ padded s.2,[])

def encodable : WriterOp → Prop
  | .write code => 0 < code.len.toNat ∧ code.len.toNat ≤ 64
  | .flush => True

theorem segmentsSpec (ops more : List WriterOp) (s : List Bool × List Bool) :
    s.1 ++ segments s.2 (ops ++ more) = (ops.foldl specOp s).1 ++ segments (ops.foldl specOp s).2 more := by
  induction ops generalizing s with
  | nil => rfl
  | cons op rest ih =>
    rw [List.foldl_cons,← ih]
    cases op with
    | write code => rfl
    | flush => exact (List.append_assoc _ _ _).symm

structure Segmented (start : Bytes) (w : CodeWriter) (s : List Bool × List Bool) : Prop where
  whole : 8 ∣ s.1.length
  packed : ∃ len < 32, Packed start (s.1 ++ s.2) len w

theorem codeWriterRefines (start : Bytes) : Refines specOp (fun _ op => encodable op) runOp (Segmented start) := by
  intro w s op segmented fine
  obtain ⟨whole,len,short,packed⟩ := segmented
  cases op with
  | write code =>
    obtain ⟨w',len',wrote,short',packed'⟩ := writePacked packed short fine.1 fine.2
    rw [List.append_assoc] at packed'
    exact ⟨w',wrote,whole,len',short',packed'⟩
  | flush =>
    obtain ⟨w',body,flushed,packed',_⟩ := flushRuns packed short
    rw [paddedAppend whole] at packed'
    have whole' : 8 ∣ (s.1 ++ padded s.2).length := by
      rw [List.length_append]
      exact Nat.dvd_add whole (paddedBytes _)
    exact ⟨w',flushed,whole',0,by norm_num,by rw [specOp,List.append_nil]; exact packed'⟩

theorem runSegmented {ops : List WriterOp} (lens : ∀ code, .write code ∈ ops → 0 < code.len.toNat ∧
    code.len.toNat ≤ 64)
    {start : Bytes} {w : CodeWriter} {s : List Bool × List Bool} (segmented : Segmented start w s) :
    ∃ w', runOps ops w = .ok w' ∧ Segmented start w' (ops.foldl specOp s) := by
  have fine : ∀ op ∈ ops, ∀ _ : List Bool × List Bool, encodable op := by
    intro op mem _
    cases op with
    | write code => exact lens code mem
    | flush => trivial
  exact refinesRun (codeWriterRefines start) (runAll fine s) segmented

theorem newSegmented (out : Bytes) (buffer : Buffer) :
    Segmented out {writer := {out := out, buffer := buffer}} ([],[]) :=
  ⟨Nat.dvd_zero 8,0,by norm_num,[],0,⟨Nat.zero_le _,by simp⟩,rfl,⟨rfl,by norm_num,by norm_num⟩,rfl⟩

theorem writerPacks (out : Bytes) (buffer : Buffer) (ops : List WriterOp)
    (lens : ∀ code, .write code ∈ ops → 0 < code.len.toNat ∧ code.len.toNat ≤ 64) :
    (∃ w, runOps ops {writer := {out := out, buffer := buffer}} = .ok w ∧ w.len.toNat < 32 ∧
      ∀ i < 64-w.len.toNat, w.buffer.toNat.testBit i = false) ∧
    ∃ w body, runOps (ops ++ [.flush]) {writer := {out := out, buffer := buffer}} = .ok w ∧
      w.writer.out = out ++ body ∧ byteBits body = segments [] (ops ++ [.flush]) ∧
      w.writtenBytes = UInt64.ofNat body.length ∧ (body.length < 2^64 → w.writtenBytes.toNat = body.length) ∧
      ∃ w', w.flush = .ok w' ∧ w'.writer.out = w.writer.out ∧ w'.writtenBytes = w.writtenBytes := by
  obtain ⟨w,ran,whole,len,short,packed⟩ := runSegmented lens (newSegmented out buffer)
  obtain ⟨size,clear⟩ := packedBuffer packed
  obtain ⟨w₁,body,flushed,_,cleared,holds,delivered,bits_of,count⟩ := flushRuns packed short
  refine ⟨⟨w,ran,by rw [size]; exact short,by rw [size]; exact clear⟩,w₁,body,?_,delivered,?_,count,
    fun few => ?_,flushAgain cleared holds⟩
  · rw [runOps,List.foldlM_append]
    exact bindOk.mpr ⟨w,ran,by rw [List.foldlM_cons]; exact bindOk.mpr ⟨w₁,flushed,rfl⟩⟩
  · have whole_run := segmentsSpec ops [.flush] ([],[])
    rw [List.nil_append] at whole_run
    rw [bits_of,paddedAppend whole,whole_run]
    simp only [segments,List.append_nil]
  · rw [count]
    exact UInt64.toNat_ofNat_of_lt' few

theorem writerPacksTwoSegments :
    (∃ w, runOps [.write ⟨6,63⟩,.flush,.write ⟨40,5⟩]
      {writer := {out := [7], buffer := Vector.replicate bufferSize 0}} = .ok w ∧
      w.len.toNat < 32 ∧ ∀ i < 64-w.len.toNat, w.buffer.toNat.testBit i = false) ∧
    ∃ w body, runOps ([.write ⟨6,63⟩,.flush,.write ⟨40,5⟩] ++ [.flush])
        {writer := {out := [7], buffer := Vector.replicate bufferSize 0}} = .ok w ∧
      w.writer.out = [7] ++ body ∧ byteBits body = segments [] ([.write ⟨6,63⟩,.flush,.write ⟨40,5⟩] ++ [.flush]) ∧
      w.writtenBytes = UInt64.ofNat body.length ∧ (body.length < 2^64 → w.writtenBytes.toNat = body.length) ∧
      ∃ w', w.flush = .ok w' ∧ w'.writer.out = w.writer.out ∧ w'.writtenBytes = w.writtenBytes := by
  refine writerPacks [7] (Vector.replicate bufferSize 0) [.write ⟨6,63⟩,.flush,.write ⟨40,5⟩] (fun code mem => ?_)
  simp only [List.mem_cons,WriterOp.write.injEq,reduceCtorEq,false_or,List.not_mem_nil,or_false] at mem
  rcases mem with rfl | rfl
  · decide
  · decide

end HuffmanArchiver.WriterRuns
