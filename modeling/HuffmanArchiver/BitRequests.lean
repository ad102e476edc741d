import HuffmanArchiver.BitReading

/-! Sequences of requests to `bit_reader`. The assertion in `read` bounds the request alone; what the
shift needs is that the request ends within the two bytes in which it begins. -/
namespace HuffmanArchiver.BitRequests
open Machine FastIo BitReading Library.BitString

def readAll : List UInt8 → BitReader → Exec (List UInt16 × BitReader)
  | [], r => .ok ([],r)
  | bits :: rest, r => do
      let (word,r) ← r.read bits
      let (words,r) ← readAll rest r
      .ok (word :: words,r)

structure Sound (r : BitReader) (bits : UInt8) : Prop where
  shift : r.offset%8 + bits.toNat ≤ 16
  whole : r.firstRead = false → r.offset/8 = bufferSize → r.offset%8 = 0
  inside : ∃ bytePos r', r.refill (r.offset/8) (r.offset%8) = .ok (bytePos,r') ∧ bytePos+1 < bufferSize

inductive Streams (data : Bytes) : (pos : ℕ) → BitReader → List UInt8 → Prop where
  | done {pos : ℕ} {r : BitReader} : Streams data pos r []
  | read {pos : ℕ} {r r' : BitReader} {bits : UInt8} {word : UInt16} {rest : List UInt8} (sound : Sound r bits)
      (ran : r.read bits = .ok (word,r')) (next : word.toNat = window (bitStream data) pos bits.toNat)
      (onward : Streams data (pos+bits.toNat) r' rest) : Streams data pos r (bits :: rest)

def Within (pos : ℕ) (requests : List UInt8) : Prop :=
  ∀ pre bits post, requests = pre ++ bits :: post → (pos + (pre.map UInt8.toNat).sum) % 8 + bits.toNat ≤ 16

theorem withinCons {pos : ℕ} {bits : UInt8} {rest : List UInt8} :
    Within pos (bits :: rest) ↔ pos%8 + bits.toNat ≤ 16 ∧ Within (pos+bits.toNat) rest := by
  constructor
  · intro within
    refine ⟨by simpa using within [] bits rest rfl,fun pre last post split => ?_⟩
    have later := within (bits :: pre) last post (by rw [split]; rfl)
    rwa [List.map_cons,List.sum_cons,← Nat.add_assoc] at later
  · rintro ⟨head,tail⟩ pre last post split
    cases pre with
    | nil =>
      cases (List.cons.inj split).1
      simpa using head
    | cons first pre =>
      obtain ⟨rfl,behind⟩ := List.cons.inj split
      rw [List.map_cons,List.sum_cons,← Nat.add_assoc]
      exact tail pre last post behind

section Runs
variable {data : Bytes} {pos : ℕ} {r : BitReader}

theorem soundOf (ready : Ready data pos r) {bits : UInt8} (fits : pos%8 + bits.toNat ≤ 16) : Sound r bits := by
  obtain ⟨byte_pos,base,r',refilled,_,_,inside⟩ := refillSpec ready
  refine ⟨by rw [readyOffset ready]; exact fits,fun running full => ?_,byte_pos,r',refilled,inside⟩
  rcases ready with ⟨fresh,_⟩ | ⟨base,reads⟩
  · rw [fresh.first] at running
    contradiction
  · have bound := reads.bound
    omega

theorem streamsOf {requests : List UInt8} (ready : Ready data pos r) (within : Within pos requests) :
    Streams data pos r requests := by
  induction requests generalizing pos r with
  | nil => exact .done
  | cons bits rest ih =>
    obtain ⟨fits,later⟩ := withinCons.mp within
    obtain ⟨word,r',base,ran,next,reads,_⟩ := readRoom ready fits
    exact .read (soundOf ready fits) ran next (ih (.inr ⟨base,reads⟩) later)

theorem streamsWithin {requests : List UInt8} (ready : Ready data pos r) (streams : Streams data pos r requests) :
    Within pos requests := by
  induction streams with
  | done => exact fun pre bits post split => absurd split (by simp)
  | read sound ran next onward ih =>
    have fits := sound.shift
    rw [readyOffset ready] at fits
    obtain ⟨word,r',base,ran',_,reads,_⟩ := readRoom ready fits
    cases Except.ok.inj (ran.symm.trans ran')
    exact withinCons.mpr ⟨fits,ih (.inr ⟨base,reads⟩)⟩

theorem streamsRun {requests : List UInt8} (ready : Ready data pos r) (streams : Streams data pos r requests) :
    ∃ words r', readAll requests r = .ok (words,r') ∧ Ready data (pos + (requests.map UInt8.toNat).sum) r' ∧
      words.length = requests.length ∧ ∀ pre bits post, requests = pre ++ bits :: post →
        ∃ word, words[pre.length]? = some word ∧
          word.toNat = window (bitStream data) (pos + (pre.map UInt8.toNat).sum) bits.toNat := by
  induction streams with
  | done => exact ⟨[],_,rfl,ready,rfl,fun pre bits post split => absurd split (by simp)⟩
  | @read pos r r₁ bits word rest sound ran next onward ih =>
    have fits := sound.shift
    rw [readyOffset ready] at fits
    obtain ⟨_,_,base,ran₁,_,reads,_⟩ := readRoom ready fits
    cases Except.ok.inj (ran.symm.trans ran₁)
    obtain ⟨words,r',ran',ready',size,values⟩ := ih (.inr ⟨base,reads⟩)
    refine ⟨word :: words,r',
      by simp only [readAll,ran,ran',okBind],?_,by rw [List.length_cons,size,List.length_cons],?_⟩
    · rw [List.map_cons,List.sum_cons,← Nat.add_assoc]
      exact ready'
    · intro pre last post split
      cases pre with
      | nil =>
        cases (List.cons.inj split).1
        exact ⟨word,rfl,next⟩
      | cons first pre =>
        obtain ⟨rfl,behind⟩ := List.cons.inj split
        rw [List.map_cons,List.sum_cons,← Nat.add_assoc]
        exact values pre last post behind

end Runs

theorem freshReady (input : IStream) (buffer : Buffer) : Ready input.rest 0 {input := input, buffer := buffer} :=
  .inl ⟨⟨rfl,rfl,rfl,rfl⟩,rfl⟩

theorem requestsSoundIff (input : IStream) (buffer : Buffer) (requests : List UInt8) :
    Streams input.rest 0 {input := input, buffer := buffer} requests ↔
      ∀ pre bits post, requests = pre ++ bits :: post → (pre.map UInt8.toNat).sum % 8 + bits.toNat ≤ 16 := by
  have same : (∀ pre bits post, requests = pre ++ bits :: post → (pre.map UInt8.toNat).sum % 8 + bits.toNat ≤ 16) ↔
      Within 0 requests := by simp only [Within,Nat.zero_add]
  rw [same]
  exact ⟨streamsWithin (freshReady input buffer),streamsOf (freshReady input buffer)⟩

theorem readUnderflows {data : Bytes} {pos : ℕ} {r : BitReader} (ready : Ready data pos r) {bits : UInt8}
    (asserted : bits.toNat ≤ 16) (beyond : 16 < pos%8 + bits.toNat) : r.read bits = .error .shift := by
  obtain ⟨byte_pos,base,r',refilled,reads,_,inside⟩ := refillSpec ready
  obtain ⟨word,loaded,_⟩ := blockSpec reads inside
  have phase := readyOffset ready
  have wide : ¬ sizeSub (sizeSub 16 (r.offset%8)) bits.toNat < 32 := by
    have inner : r.offset%8 ≤ 16 := by omega
    rw [sizeSubLe inner (by norm_num),sizeSub]
    omega
  have fails : shr16 word (sizeSub (sizeSub 16 (r.offset%8)) bits.toNat) = .error .shift := if_neg wide
  simp only [BitReader.read,requireOk asserted,okBind,refilled,loaded,fails,errorBind]

theorem assertionInsufficient :
    (∃ r, BitReader.read {input := {data := [255,255,255], pos := 0}} 1 = .ok (1,r) ∧ r.read 16 = .error .shift) ∧
    ¬ ∀ (input : IStream) (buffer : Buffer) (requests : List UInt8), (∀ bits ∈ requests, bits.toNat ≤ 16) →
      Streams input.rest 0 {input := input, buffer := buffer} requests := by
  constructor
  · have ready := freshReady {data := [255,255,255], pos := 0} (Vector.replicate bufferSize 0)
    have room : 0%8 + (1 : UInt8).toNat ≤ 16 := by decide
    obtain ⟨word,r,base,ran,value,reads,_⟩ := readRoom ready room
    have one : word = 1 := UInt16.toNat_inj.mp (value.trans (by decide))
    rw [one] at ran
    exact ⟨r,ran,readUnderflows (.inr ⟨base,reads⟩) (by decide) (by decide)⟩
  · intro sufficient
    have streams := sufficient {data := [255,255,255], pos := 0} (Vector.replicate bufferSize 0) [1,16] (by simp)
    have within := streamsWithin (freshReady _ _) streams [1] 16 [] rfl
    exact absurd within (by decide)

theorem narrowRequestsStream (input : IStream) (buffer : Buffer) (requests : List UInt8)
    (narrow : ∀ bits ∈ requests, bits.toNat ≤ 9) :
    ∀ i ≤ requests.length, ∃ words r, readAll (requests.take i) {input := input, buffer := buffer} = .ok (words,r) ∧
      words.length = i ∧
      (∀ pre bits post, requests.take i = pre ++ bits :: post →
        ∃ word, words[pre.length]? = some word ∧ word.toNat = window (bitStream input.rest)
          (pre.map UInt8.toNat).sum bits.toNat) ∧
      r.readBytes.toNat ≤ input.rest.length ∧ r.offset ≤ 8*1024 ∧
      (r.firstRead = false → r.offset/8 = bufferSize → r.offset%8 = 0) := by
  intro i le
  have within : Within 0 (requests.take i) := fun pre bits post split => by
    have member : bits ∈ requests.take i := by
      rw [split]
      exact List.mem_append_right _ (List.mem_cons_self ..)
    have small := narrow bits (List.mem_of_mem_take member)
    omega
  have ready := freshReady input buffer
  obtain ⟨words,r,ran,ready',size,values⟩ := streamsRun ready (streamsOf ready within)
  -- a request of no bits would find the reader sound as well
  have none_asked : (0 + ((requests.take i).map UInt8.toNat).sum) % 8 + (0 : UInt8).toNat ≤ 16 := by
    rw [UInt8.toNat_zero]
    omega
  refine ⟨words,r,ran,?_,?_,?_,?_,(soundOf ready' none_asked).whole⟩
  · rw [size,List.length_take,Nat.min_eq_left le]
  · intro pre bits post split
    have value := values pre bits post split
    rwa [Nat.zero_add] at value
  · rcases ready' with ⟨fresh,_⟩ | ⟨base,reads⟩
    · rw [BitReader.readBytes,fresh.count]
      exact Nat.zero_le _
    · rw [BitReader.readBytes,reads.count,UInt64.toNat_ofNat']
      exact (Nat.mod_le _ _).trans (Nat.min_le_right _ _)
  · rcases ready' with ⟨fresh,_⟩ | ⟨base,reads⟩
    · rw [fresh.offset]
      exact Nat.zero_le _
    · exact reads.bound

theorem narrowRequestsStreamTwo : ∃ words r,
    readAll [9,9] {input := {data := [255,1,128], pos := 0}, buffer := Vector.replicate bufferSize 0} =
      .ok (words,r) ∧
      words.length = 2 ∧ (∃ word, words[1]? = some word ∧ word.toNat = 6) ∧ r.readBytes.toNat ≤ 3 := by
  obtain ⟨words,r,ran,size,values,count,_⟩ :=
    narrowRequestsStream {data := [255,1,128], pos := 0} (Vector.replicate bufferSize 0) [9,9] (by simp) 2 le_rfl
  obtain ⟨word,second,value⟩ := values [9] 9 [] rfl
  have six : window (bitStream [255,1,128]) 9 9 = 6 := by decide
  exact ⟨words,r,ran,size,⟨word,second,value.trans six⟩,count⟩

end HuffmanArchiver.BitRequests
