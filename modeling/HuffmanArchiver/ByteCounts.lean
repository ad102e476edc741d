import HuffmanArchiver.RoundTrip

/-! `byte_reader` call by call, beyond the end of the stream as well, and the table that
`build_frequency_table` makes of its bytes. -/
namespace HuffmanArchiver.ByteCounts
open Machine HuffmanTree FastIo Huffman ByteIo CodeLengths RoundTrip

def readCalls : (count : ℕ) → ByteReader → Exec (List (Bool × UInt8) × ByteReader)
  | 0, r => .ok ([],r)
  | count+1, r => do
      let (more,byte,r) ← r.read
      let (results,r) ← readCalls count r
      .ok ((more,byte) :: results,r)

theorem endedCalls (count : ℕ) {r : ByteReader} (ended : Ended r) :
    ∃ results r', readCalls count r = .ok (results,r') ∧ results.length = count ∧ ∀ p ∈ results, p.1 = false := by
  induction count generalizing r with
  | zero => exact ⟨[],r,rfl,rfl,by simp⟩
  | succ count ih =>
    obtain ⟨byte,r₁,ran,ended₁⟩ := readEnded ended
    obtain ⟨results,r',ran',size,after⟩ := ih ended₁
    refine ⟨(false,byte) :: results,r',by simp only [readCalls,ran,ran',okBind],by rw [List.length_cons,size],?_⟩
    intro p hp
    rcases List.mem_cons.mp hp with rfl | later
    · rfl
    · exact after p later

theorem remainingCalls (count : ℕ) {r : ByteReader} {left : Bytes} (remaining : Remaining r left) :
    ∃ results r', readCalls count r = .ok (results,r') ∧ results.length = count ∧ ∀ i < count,
      (∀ b, left[i]? = some b → results[i]? = some (true,b)) ∧
        (left.length ≤ i → ∃ byte, results[i]? = some (false,byte)) := by
  induction count generalizing r left with
  | zero => exact ⟨[],r,rfl,rfl,by simp⟩
  | succ count ih =>
    cases left with
    | nil =>
      obtain ⟨byte,r₁,ran,ended⟩ := readEmpty remaining
      obtain ⟨results,r',ran',size,after⟩ := endedCalls count ended
      refine ⟨(false,byte) :: results,r',by simp only [readCalls,ran,ran',okBind],by rw [List.length_cons,size],?_⟩
      intro i lt
      refine ⟨by simp,fun _ => ?_⟩
      cases i with
      | zero => exact ⟨byte,rfl⟩
      | succ i =>
        have inside : i < results.length := by omega
        have off := after results[i] (List.getElem_mem inside)
        exact ⟨results[i].2,by rw [List.getElem?_cons_succ,List.getElem?_eq_getElem inside,← off]⟩
    | cons b left =>
      obtain ⟨r₁,ran,remaining₁⟩ := readCons remaining
      obtain ⟨results,r',ran',size,after⟩ := ih remaining₁
      refine ⟨(true,b) :: results,r',by simp only [readCalls,ran,ran',okBind],by rw [List.length_cons,size],?_⟩
      intro i lt
      cases i with
      | zero => exact ⟨fun c at_c => by cases Option.some.inj at_c; rfl,by simp⟩
      | succ i =>
        obtain ⟨here,behind⟩ := after i (by omega)
        exact ⟨here,fun le => behind (Nat.le_of_succ_le_succ le)⟩

theorem ofNatSum (l : List ℕ) : UInt64.ofNat l.sum = (l.map UInt64.ofNat).sum := by
  induction l with
  | nil => rfl
  | cons n l ih => rw [List.sum_cons,UInt64.ofNat_add,ih,List.map_cons,List.sum_cons]

theorem countsSum (s : Bytes) : ∑ b, byteCounts s b = UInt64.ofNat s.length := by
  rw [← countTotal s,sumAllBytes,sumAllBytes,ofNatSum,List.map_map]
  rfl

theorem streamCounted (s : Bytes) :
    (∀ (buffer : Buffer) (count : ℕ), ∃ results r,
      readCalls count {input := {data := s, pos := 0}, buffer := buffer} = .ok (results,r) ∧
        results.length = count ∧
        ∀ i < count, (∀ b, s[i]? = some b → results[i]? = some (true,b)) ∧
          (s.length ≤ i → ∃ byte, results[i]? = some (false,byte))) ∧
    ∀ (table : FrequencyTable) (filesize : UInt64), ∃ table' filesize',
      buildFrequencyTable {data := s, pos := 0} table filesize = .ok (table',filesize') ∧
        (∀ b, table' b = UInt64.ofNat (s.count b)) ∧ filesize' = UInt64.ofNat s.length ∧ ∑ b, table' b = filesize' ∧
        (s.length < 2^64 → (∀ b, (table' b).toNat = s.count b) ∧ filesize'.toNat = s.length ∧
          ∑ b, (table' b).toNat = filesize'.toNat) := by
  refine ⟨fun buffer count => remainingCalls count (.inl ⟨rfl,rfl⟩),fun table filesize => ?_⟩
  refine ⟨byteCounts s,UInt64.ofNat s.length,frequencySpec s table filesize,fun _ =>
    rfl,rfl,countsSum s,fun short => ?_⟩
  have size : (UInt64.ofNat s.length).toNat = s.length := UInt64.toNat_ofNat_of_lt' short
  refine ⟨countToNat short,size,?_⟩
  rw [size]
  simp only [countToNat short,countTotal]

end HuffmanArchiver.ByteCounts
