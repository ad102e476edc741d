import HuffmanArchiver.ByteIo
import HuffmanArchiver.Library.Refinement

/-! Arbitrary runs of `byte_writer`: single bytes, blocks and flushes in any order. It refines the stream of
the bytes written. -/
namespace HuffmanArchiver.ByteRuns
open Machine FastIo ByteIo Library.Refinement

inductive ByteOp where
  | byte (byte : UInt8)
  | block (data : Bytes)
  | flush
  deriving DecidableEq, Repr

def stepWriter (w : ByteWriter) : ByteOp → Exec ByteWriter
  | .byte byte => w.writeByte byte
  | .block data => w.write data
  | .flush => w.flush

def runWriter (w : ByteWriter) (ops : List ByteOp) : Exec ByteWriter := ops.foldlM stepWriter w

def written : ByteOp → Bytes
  | .byte byte => [byte]
  | .block data => data
  | .flush => []

def shortBlock (op : ByteOp) : Prop := (written op).length ≤ bufferSize

instance : DecidablePred shortBlock := fun _ => inferInstanceAs (Decidable (_ ≤ _))

def append (content : Bytes) (op : ByteOp) : Bytes := content ++ written op

theorem appendAll (content : Bytes) (ops : List ByteOp) :
    ops.foldl append content = content ++ ops.flatMap written :=
  List.foldl_append_eq_append

theorem writerRefines : Refines append (fun _ op => shortBlock op) stepWriter Holds := by
  intro w content op holds short
  cases op with
  | byte byte => exact writeByteSpec holds byte
  | block data => exact writeSpec holds data short
  | flush =>
    obtain ⟨w',flushed,holds',_,_⟩ := flushSpec holds
    exact ⟨w',flushed,by rwa [append,written,List.append_nil]⟩

theorem copyInside {w w' : ByteWriter} {data : Bytes} (copied : w.copy data = .ok w') :
    w.bufferPnt + data.length ≤ bufferSize := by
  obtain ⟨buffer,stored,_⟩ := bindOk.mp copied
  exact (storeTake stored).1

theorem destroySpec {w : ByteWriter} {content : Bytes} (holds : Holds w content) : w.destroy = .ok content := by
  obtain ⟨w',flushed,_,delivered,_⟩ := flushSpec holds
  rw [ByteWriter.destroy,flushed,okBind,delivered]

theorem byteWriterExact (out : Bytes) (buffer : Buffer) (ops : List ByteOp) (short : ∀ op ∈ ops, shortBlock op) :
    (∃ w, runWriter {out := out, buffer := buffer} ops = .ok w ∧ w.bufferPnt ≤ bufferSize ∧
      w.out ++ w.buffer.toList.take w.bufferPnt = out ++ ops.flatMap written ∧
      (∃ w', w.flush = .ok w' ∧ w'.out = out ++ ops.flatMap written ∧ w'.bufferPnt = 0) ∧
      w.destroy = .ok (out ++ ops.flatMap written)) ∧
    ∀ (w w' : ByteWriter) (data : Bytes), w.copy data = .ok w' → w.bufferPnt + data.length ≤ bufferSize := by
  refine ⟨?_,fun _ _ _ => copyInside⟩
  have run : Run append (fun _ op => shortBlock op) out ops (out ++ ops.flatMap written) := by
    rw [← appendAll]
    exact runAll (fun op mem _ => short op mem) out
  have fresh : Holds {out := out, buffer := buffer} out := ⟨Nat.zero_le _,List.append_nil _⟩
  obtain ⟨w,ran,holds⟩ := refinesRun writerRefines run fresh
  obtain ⟨w',flushed,_,delivered,empty⟩ := flushSpec holds
  exact ⟨w,ran,holds.bound,holds.bytes,⟨w',flushed,delivered,empty⟩,destroySpec holds⟩

def fullBlock : Bytes := List.replicate bufferSize 7

theorem byteWriterExactSplit :
    ∃ w, runWriter {out := [0], buffer := Vector.replicate bufferSize 9} [.byte 1,.block fullBlock,.flush,
      .byte 2] = .ok w ∧
      w.destroy = .ok (0 :: 1 :: (fullBlock ++ [2])) := by
  have size : fullBlock.length ≤ bufferSize := List.length_replicate.le
  have short : ∀ op ∈ [.byte 1,.block fullBlock,.flush,.byte 2], shortBlock op := by
    simp [shortBlock,written,size]
  obtain ⟨w,ran,_,_,_,destroyed⟩ := (byteWriterExact [0] (Vector.replicate bufferSize 9) _ short).1
  exact ⟨w,ran,destroyed⟩

end HuffmanArchiver.ByteRuns
