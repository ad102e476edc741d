import Mathlib.Data.List.Nodup
import Mathlib.Data.UInt
import Mathlib.Tactic.NormNum

/-! The C++ abstract machine as far as the archiver uses it. What C++ leaves undefined is a fault,
so a run that returns has stayed inside every assertion, shift range and array bound.
The machine is little-endian; `htons` and `htonl` reverse bytes. -/
namespace HuffmanArchiver.Machine

abbrev Bytes := List UInt8

inductive Fault where
  | assertion
  | shift
  | index
  | diverges
  | invalidFileHeader (what : String)
  deriving DecidableEq, Repr

abbrev Exec (α : Type) := Except Fault α

def require (c : Prop) [Decidable c] (fault : Fault) : Exec Unit :=
  if c then .ok () else .error fault

theorem requireOk {c : Prop} [Decidable c] {fault : Fault} (h : c) : require c fault = .ok () := if_pos h

theorem requireFails {c : Prop} [Decidable c] {fault : Fault} (h : ¬ c) : require c fault = .error fault :=
  if_neg h

@[simp] theorem okBind {α β : Type} (a : α) (f : α → Exec β) : (Except.ok a >>= f) = f a := rfl

@[simp] theorem errorBind {α β : Type} (e : Fault) (f : α → Exec β) :
    ((Except.error e : Exec α) >>= f) = .error e := rfl

theorem bindOk {α β : Type} {x : Exec α} {f : α → Exec β} {b : β} :
    x >>= f = .ok b ↔ ∃ a, x = .ok a ∧ f a = .ok b := by
  cases x with
  | error e => simp
  | ok a => simp

theorem okExists {α : Type} {x : Exec α} (fine : x.isOk = true) : ∃ a, x = .ok a := by
  cases x with
  | error e => contradiction
  | ok a => exact ⟨a,rfl⟩

/-- Subtraction in `std::size_t`. -/
def sizeSub (a b : ℕ) : ℕ := (2^64 + a - b) % 2^64

theorem sizeSubLe {a b : ℕ} (le : b ≤ a) (lt : a < 2^64) : sizeSub a b = a - b := by
  unfold sizeSub; omega

def shl64 (x : UInt64) (s : ℕ) : Exec UInt64 :=
  if s < 64 then .ok (UInt64.ofNat (x.toNat <<< s)) else .error .shift

def shr64 (x : UInt64) (s : ℕ) : Exec UInt64 :=
  if s < 64 then .ok (UInt64.ofNat (x.toNat >>> s)) else .error .shift

/-- `x << s` for a 16-bit `x`: it is promoted to `int`, and the result has to fit 32 bits. -/
def shl16 (x : UInt16) (s : ℕ) : Exec UInt16 :=
  if s < 32 ∧ x.toNat <<< s < 2^32 then .ok (UInt16.ofNat (x.toNat <<< s)) else .error .shift

def shr16 (x : UInt16) (s : ℕ) : Exec UInt16 :=
  if s < 32 then .ok (UInt16.ofNat (x.toNat >>> s)) else .error .shift

theorem shr64Spec (x : UInt64) {s : ℕ} (lt : s < 64) : ∃ y, shr64 x s = .ok y ∧ y.toNat = x.toNat / 2^s := by
  refine ⟨_,if_pos lt,?_⟩
  rw [UInt64.toNat_ofNat_of_lt' ((Nat.shiftRight_le _ _).trans_lt x.toNat_lt),Nat.shiftRight_eq_div_pow]

theorem narrowByte {k : ℕ} (lt : k < 256) : (UInt8.ofNat k).toNat = k := UInt8.toNat_ofNat_of_lt' lt

theorem countUp (n : ℕ) (count : UInt8) : (· + 1)^[n] count = count + UInt8.ofNat n := by
  induction n generalizing count with
  | zero => exact (UInt8.add_zero count).symm
  | succ n ih =>
    rw [Function.iterate_succ_apply,ih,Nat.add_comm,UInt8.ofNat_add,← UInt8.add_assoc]
    rfl

theorem powSplit {a b n : ℕ} (sum : n = a+b) : 2^n = 2^a * 2^b := by rw [sum,Nat.pow_add]

theorem nonzeroIff {x : UInt8} : x ≠ 0 ↔ 0 < x.toNat := UInt8.pos_iff_ne_zero.symm.trans UInt8.lt_iff_toNat_lt

section Word
variable {data : UInt64} {a r n : ℕ} (fits : r ≤ 64) (aligned : data.toNat = a*2^(64-r))
include fits aligned

theorem topFull (pos : 0 < n) (full : n ≤ r) : ∃ top, shr64 data (64-n) = .ok top ∧ top.toNat = a / 2^(r-n) := by
  have scale : 2^(64-n) = 2^(r-n) * 2^(64-r) := powSplit (by omega)
  obtain ⟨top,ran,value⟩ := shr64Spec data (Nat.sub_lt (by norm_num) pos)
  refine ⟨top,ran,?_⟩
  rw [value,aligned,scale,Nat.mul_div_mul_right _ _ (Nat.two_pow_pos _)]

theorem topShort (pos : 0 < n) (le : n ≤ 64) (short : r ≤ n) :
    ∃ top, shr64 data (64-n) = .ok top ∧ top.toNat = a * 2^(n-r) := by
  have scale : 2^(64-r) = 2^(n-r) * 2^(64-n) := powSplit (by omega)
  obtain ⟨top,ran,value⟩ := shr64Spec data (Nat.sub_lt (by norm_num) pos)
  refine ⟨top,ran,?_⟩
  rw [value,aligned,scale,← Nat.mul_assoc,Nat.mul_div_cancel _ (Nat.two_pow_pos _)]

theorem dataShifted (small : n < 64) (full : n ≤ r) :
    ∃ data', shl64 data n = .ok data' ∧ data'.toNat = a % 2^(r-n) * 2^(64-(r-n)) := by
  have whole : 2^64 = 2^(r-n) * 2^(64-(r-n)) := powSplit (by omega)
  have scale : 2^(64-(r-n)) = 2^(64-r) * 2^n := powSplit (by omega)
  refine ⟨UInt64.ofNat (data.toNat <<< n),if_pos small,?_⟩
  rw [UInt64.toNat_ofNat',Nat.shiftLeft_eq,aligned,Nat.mul_assoc,← scale,whole,Nat.mul_mod_mul_right]

end Word

def htons (x : UInt16) : UInt16 := UInt16.ofNat (x.toNat % 256 * 256 + x.toNat / 256)

def htonl (x : UInt32) : UInt32 :=
  UInt32.ofNat (x.toNat % 256 * 2^24 + x.toNat / 2^8 % 256 * 2^16 + x.toNat / 2^16 % 256 * 2^8 + x.toNat / 2^24)

/-- The `n` bytes of a number in memory order. -/
def memory : (n : ℕ) → (v : ℕ) → Bytes
  | 0, _ => []
  | n+1, v => UInt8.ofNat (v % 256) :: memory n (v / 256)

def fromMemory : Bytes → ℕ
  | [] => 0
  | b :: rest => b.toNat + 256 * fromMemory rest

@[simp] theorem memoryLength (n v : ℕ) : (memory n v).length = n := by
  induction n generalizing v with
  | zero => rfl
  | succ n ih => simp [memory,ih]

theorem fromMemoryOf (n v : ℕ) : fromMemory (memory n v) = v % 2^(8*n) := by
  induction n generalizing v with
  | zero => simp [memory,fromMemory,Nat.mod_one]
  | succ n ih =>
    simp only [memory,fromMemory,ih,UInt8.toNat_ofNat']
    rw [show 8*(n+1) = 8+8*n by omega,Nat.pow_add,Nat.mod_mul]
    norm_num

abbrev Table (α : Type) := UInt8 → α

def Table.set {α : Type} (t : Table α) (b : UInt8) (v : α) : Table α := fun c => if c = b then v else t c

@[simp] theorem tableSetSelf {α : Type} (t : Table α) (b : UInt8) (v : α) : t.set b v b = v := if_pos rfl

theorem tableSetOther {α : Type} (t : Table α) {b c : UInt8} (v : α) (ne : c ≠ b) : t.set b v c = t c := if_neg ne

def allBytes : List UInt8 := (List.range 256).map UInt8.ofNat

theorem allBytesMem (b : UInt8) : b ∈ allBytes :=
  List.mem_map.mpr ⟨b.toNat,List.mem_range.mpr b.toNat_lt,UInt8.ofNat_toNat⟩

theorem allBytesNodup : allBytes.Nodup := by
  refine List.Nodup.map_on ?_ List.nodup_range
  intro i hi j hj same
  have values := congrArg UInt8.toNat same
  rw [List.mem_range] at hi hj
  rwa [UInt8.toNat_ofNat',UInt8.toNat_ofNat',Nat.mod_eq_of_lt (by omega),Nat.mod_eq_of_lt (by omega)] at values

@[simp] theorem allBytesLength : allBytes.length = 256 := by simp [allBytes]

theorem allBytesAt (b : UInt8) : allBytes[b.toNat]? = some b := by
  have lt := b.toNat_lt
  simp [allBytes,lt]

abbrev bufferSize : ℕ := 1024

abbrev Buffer := Vector UInt8 bufferSize

def load (buffer : Buffer) (i : ℕ) : Exec UInt8 :=
  if h : i < bufferSize then .ok buffer[i] else .error .index

/-- `memcpy` and `memset` into a buffer, and what `std::istream::read` stores. -/
def store (buffer : Buffer) (pos : ℕ) (data : Bytes) : Exec Buffer :=
  if pos + data.length ≤ bufferSize then
    .ok (Vector.ofFn (fun i => if pos ≤ i.val ∧ i.val < pos + data.length then data.getD (i.val-pos) 0 else
      buffer[i]))
  else .error .index

theorem loadOk (buffer : Buffer) {i : ℕ} (h : i < bufferSize) : load buffer i = .ok buffer[i] := dif_pos h

theorem storeOk (buffer : Buffer) (pos : ℕ) (data : Bytes) (fits : pos + data.length ≤ bufferSize) :
    ∃ after, store buffer pos data = .ok after ∧
      ∀ (i : ℕ) (h : i < bufferSize),
        after[i] = if pos ≤ i ∧ i < pos + data.length then data.getD (i-pos) 0 else buffer[i] :=
  ⟨_,if_pos fits,fun i h => by simp⟩

/-! `std::istream` over a file: the bytes and the read position. `read` takes what is left, up to the
number requested; a stream at its end keeps delivering nothing. -/

structure IStream where
  data : Bytes
  pos : ℕ
  deriving DecidableEq, Repr

namespace IStream

def rest (s : IStream) : Bytes := s.data.drop s.pos

def read (s : IStream) (n : ℕ) : Bytes × IStream :=
  (s.rest.take n,{s with pos := s.pos + (s.rest.take n).length})

@[simp] theorem readChunk (s : IStream) (n : ℕ) : (s.read n).1 = s.rest.take n := rfl

@[simp] theorem readRest (s : IStream) (n : ℕ) : (s.read n).2.rest = s.rest.drop n := by
  simp only [read,rest,List.length_take,List.length_drop,List.drop_drop]
  rcases Nat.le_total n (s.data.length - s.pos) with h | h
  · rw [Nat.min_eq_left h]
  · rw [List.drop_eq_nil_of_le (by omega),List.drop_eq_nil_of_le (by omega)]

end IStream
end HuffmanArchiver.Machine
