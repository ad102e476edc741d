import HuffmanArchiver.Canonical
import HuffmanArchiver.Headers

/-! What `decompress_file` makes of an arbitrary header. Only the signature is checked, so lengths that
no compressed file has reach `construct_codes`. -/
namespace HuffmanArchiver.HostileHeader
open Machine Codes Headers CodeLengths Canonical

def countOf (lengths : CodeLengthTable) (len : ℕ) : ℕ :=
  (Finset.univ.filter (fun b => (lengths b).toNat = len)).card

/-- The space of the codes shorter than `len` bits, in code words of `len` bits. -/
def below (lengths : CodeLengthTable) (len : ℕ) : ℕ :=
  ∑ b with 0 < (lengths b).toNat ∧ (lengths b).toNat < len, 2^(len-(lengths b).toNat)

/-- The lengths that code construction and table building can do with. Kraft's inequality is not
needed: what matters is that no code of `len` bits is followed by another one where the space up to
it ends with a half of all code words. -/
structure Usable (lengths : CodeLengthTable) : Prop where
  fits : ∀ b, (lengths b).toNat ≤ bitSize
  start : (∀ b, (lengths b).toNat = 0) ∨ ∃ b, 0 < (lengths b).toNat ∧ (lengths b).toNat < bitSize
  onward : ∀ len m, 0 < len → len < bitSize → 0 < m → m < countOf lengths len →
    ¬ (2^len ≤ below lengths len + m ∧ 2^(len-1) ∣ below lengths len + m)

def ofLength (len : ℕ) (p : UInt8 × UInt8) : Bool := decide (p.1.toNat = len)

def shorter (len : ℕ) (p : UInt8 × UInt8) : Bool := decide (p.1.toNat < len)

theorem overrunIff {len x : ℕ} (pos : 0 < len) (lt : len < 64) :
    Overrun (x * room len) ↔ 2^len ≤ x ∧ 2^(len-1) ∣ x := by
  have whole : 2^64 = 2^len * room len := powSplit (by omega)
  have half : 2^63 = 2^(len-1) * room len := powSplit (by omega)
  rw [Overrun,whole,half]
  exact and_congr (Nat.mul_le_mul_right_iff (roomPos len)) (Nat.mul_dvd_mul_iff_right (roomPos len))

theorem takenGrouped {len : ℕ} {pairs : List (UInt8 × UInt8)} (bounded : ∀ p ∈ pairs, p.1.toNat ≤ len) :
    taken pairs = taken (pairs.filter (shorter len)) + pairs.countP (ofLength len) * room len := by
  induction pairs with
  | nil => simp
  | cons p rest ih =>
    have tail := ih (fun q hq => bounded q (List.mem_cons_of_mem _ hq))
    rcases (bounded p (by simp)).lt_or_eq with less | same
    · have other : ofLength len p = false := by simp [ofLength]; omega
      rw [List.filter_cons_of_pos (by simpa [shorter] using less),List.countP_cons_of_neg (by simp [other]),
        takenCons,takenCons,tail,Nat.add_assoc]
    · have other : shorter len p = false := by simp [shorter]; omega
      rw [List.filter_cons_of_neg (by simp [other]),List.countP_cons_of_pos (by simpa [ofLength] using same),
        takenCons,tail,same,Nat.add_mul,Nat.one_mul]
      omega

variable {lengths : CodeLengthTable}

theorem takenShorter {len : ℕ} (fits : len ≤ 64) :
    taken ((lengthBytePairs lengths).filter (shorter len)) = below lengths len * room len := by
  have perm := ((pairsPerm lengths).filter (shorter len)).map (fun p => room p.1.toNat)
  rw [taken,perm.sum_eq,List.filter_map,List.map_map,below,sumWhere,← List.sum_map_mul_right,lengthBytes,
    List.filter_filter]
  have same : allBytes.filter (fun b => (shorter len ∘ fun b => (lengths b,b)) b && decide (0 < lengths b)) =
      allBytes.filter (fun b => decide (0 < (lengths b).toNat ∧ (lengths b).toNat < len)) := by
    congr 1
    funext b
    simp [shorter,UInt8.lt_iff_toNat_lt,Bool.and_comm]
  rw [same]
  refine congrArg List.sum (List.map_congr_left (fun b hb => ?_))
  have lt := (of_decide_eq_true (List.mem_filter.mp hb).2).2
  exact roomMul lt.le fits

theorem countPairs {len : ℕ} (pos : 0 < len) :
    (lengthBytePairs lengths).countP (ofLength len) = countOf lengths len := by
  rw [(pairsPerm lengths).countP_eq,List.countP_map,lengthBytes,List.countP_filter,
    List.countP_eq_length_filter,countOf]
  have part : Finset.univ.filter (fun b => (lengths b).toNat = len) =
      (allBytes.filter (fun b => (lengths b).toNat = len)).toFinset := by
    ext b
    simp [allBytesMem]
  rw [part,List.toFinset_card_of_nodup (allBytesNodup.filter _)]
  congr 1
  congr 1
  funext b
  simp [ofLength,UInt8.lt_iff_toNat_lt]
  omega

theorem splitAtCount {α : Type} {p : α → Bool} {l : List α} {m : ℕ} (lt : m < l.countP p) :
    ∃ pre x post, l = pre ++ x :: post ∧ p x = true ∧ pre.countP p = m := by
  induction l generalizing m with
  | nil => simp at lt
  | cons x rest ih =>
    by_cases hx : p x = true
    · cases m with
      | zero => exact ⟨[],x,rest,rfl,hx,rfl⟩
      | succ m =>
        rw [List.countP_cons_of_pos hx] at lt
        obtain ⟨pre,y,post,split,hy,count⟩ := ih (Nat.lt_of_succ_lt_succ lt)
        exact ⟨x :: pre,y,post,by rw [split]; rfl,hy,by rw [List.countP_cons_of_pos hx,count]⟩
    · rw [List.countP_cons_of_neg hx] at lt
      obtain ⟨pre,y,post,split,hy,count⟩ := ih lt
      exact ⟨x :: pre,y,post,by rw [split]; rfl,hy,by rw [List.countP_cons_of_neg hx,count]⟩

theorem takenUpTo {pre post : List (UInt8 × UInt8)} {p : UInt8 × UInt8} (fits : p.1.toNat ≤ 64)
    (split : lengthBytePairs lengths = pre ++ p :: post) :
    taken (pre ++ [p]) = (below lengths p.1.toNat + (pre.countP (ofLength p.1.toNat) + 1)) * room p.1.toNat := by
  have ordered := pairsOrdered lengths
  rw [split] at ordered
  obtain ⟨_,tail,across⟩ := List.pairwise_append.mp ordered
  have before : ∀ q ∈ pre, q.1.toNat ≤ p.1.toNat := fun q hq => across q hq p (by simp)
  have low : (lengthBytePairs lengths).filter (shorter p.1.toNat) = pre.filter (shorter p.1.toNat) := by
    rw [split,List.filter_append]
    have none : (p :: post).filter (shorter p.1.toNat) = [] := by
      refine List.filter_eq_nil_iff.mpr (fun q hq => ?_)
      rcases List.mem_cons.mp hq with rfl | inside
      · simp [shorter]
      · have := (List.pairwise_cons.mp tail).1 q inside
        simp [shorter]; omega
    rw [none,List.append_nil]
  rw [takenAppend,takenGrouped before,← low,takenShorter fits]
  simp
  ring

theorem clearIff (fits : ∀ b, (lengths b).toNat ≤ 64) :
    Clear 0 (lengthBytePairs lengths) ↔ ∀ len m, 0 < len → len < bitSize → 0 < m → m < countOf lengths len →
      ¬ (2^len ≤ below lengths len + m ∧ 2^(len-1) ∣ below lengths len + m) := by
  have bounds := (pairsLaid fits).bounds
  constructor
  · intro clear len m pos lt mpos mlt beyond
    rw [← countPairs pos] at mlt
    obtain ⟨pre,p,post,split,hp,count⟩ :=
      splitAtCount (p := ofLength len) (l := lengthBytePairs lengths) (m := m-1) (by omega)
    have at_len : p.1.toNat = len := of_decide_eq_true hp
    rw [split,List.countP_append,List.countP_cons_of_pos hp,count] at mlt
    have more : 0 < post.countP (ofLength len) := by omega
    cases post with
    | nil => simp at more
    | cons q post =>
      have ordered := pairsOrdered lengths
      rw [split] at ordered
      have tail := (List.pairwise_append.mp ordered).2.1
      have above := (List.pairwise_cons.mp tail).1 q (by simp)
      -- the next pair is not longer, as one of this length still follows
      obtain ⟨x,hx,same⟩ := List.countP_pos_iff.mp more
      have x_len : x.1.toNat = len := of_decide_eq_true same
      have under : q.1.toNat ≤ x.1.toNat := by
        rcases List.mem_cons.mp hx with rfl | inside
        · exact le_refl _
        · exact (List.pairwise_cons.mp (List.pairwise_cons.mp tail).2).1 x inside
      refine clear pre p q post split (by rw [at_len]; exact lt) (UInt8.toNat_inj.mp (by omega)) ?_
      rw [Nat.zero_add,takenUpTo (bounds p (by simp [split])).2 split,at_len,count,Nat.sub_add_cancel mpos]
      exact (overrunIff pos lt).mpr beyond
  · intro onward pre p q post split short same beyond
    have pos := (bounds p (by simp [split])).1
    rw [Nat.zero_add,takenUpTo short.le split,overrunIff pos short] at beyond
    refine onward p.1.toNat _ pos short (Nat.succ_pos _) ?_ beyond
    rw [← countPairs pos,split,List.countP_append,List.countP_cons_of_pos (by simp [ofLength]),
      List.countP_cons_of_pos (by simp [ofLength,same])]
    omega

theorem startIff (lengths : CodeLengthTable) :
    (lengthBytePairs lengths = [] ↔ ∀ b, (lengths b).toNat = 0) ∧
      ((∃ p ∈ lengthBytePairs lengths, p.1.toNat < 64) ↔ ∃ b, 0 < (lengths b).toNat ∧ (lengths b).toNat < 64) := by
  constructor
  · rw [List.eq_nil_iff_forall_not_mem]
    refine ⟨fun none b => ?_,fun zero p hp => ?_⟩
    · by_contra coded
      exact none (lengths b,b) ((pairsMem lengths).mpr ⟨rfl,Nat.pos_of_ne_zero coded⟩)
    · have := ((pairsMem lengths).mp hp).2
      have := zero p.2
      omega
  · constructor
    · rintro ⟨p,hp,lt⟩
      obtain ⟨same,pos⟩ := (pairsMem lengths).mp hp
      exact ⟨p.2,pos,same ▸ lt⟩
    · rintro ⟨b,pos,lt⟩
      exact ⟨(lengths b,b),(pairsMem lengths).mpr ⟨rfl,pos⟩,lt⟩

theorem usableIff (lengths : CodeLengthTable) :
    (∃ codes, constructCodes lengths = .ok codes ∧
      ∀ b, (codes b).len ≠ 0 → 1 ≤ (codes b).len.toNat ∧ (codes b).len.toNat ≤ bitSize) ↔ Usable lengths := by
  obtain ⟨empty,some_short⟩ := startIff lengths
  constructor
  · rintro ⟨codes,built,aligned⟩
    have fits : ∀ b, (lengths b).toNat ≤ 64 := by
      intro b
      by_cases coded : lengths b = 0
      · simp [coded]
      · have bound := aligned b
        rw [constructLen built b] at bound
        exact (bound coded).2
    rcases (constructIff fits).mp ⟨codes,built⟩ with none_coded | ⟨short,clear⟩
    · have zero := empty.mp none_coded
      refine ⟨fits,.inl zero,(clearIff fits).mp ?_⟩
      rw [none_coded]
      exact clearFull (by simp)
    · exact ⟨fits,.inr (some_short.mp short),(clearIff fits).mp clear⟩
  · intro usable
    have clear := (clearIff usable.fits).mpr usable.onward
    obtain ⟨codes,built⟩ := (constructIff usable.fits).mpr
      (usable.start.imp empty.mpr (fun short => ⟨some_short.mpr short,clear⟩))
    refine ⟨codes,built,fun b coded => ?_⟩
    rw [constructLen built b] at coded ⊢
    exact ⟨nonzeroIff.mp coded,usable.fits b⟩

/-- A header is turned down, or its lengths keep `construct_codes` within its assertion and
`build_decode_table` within the range of `left_align`. -/
def HeaderHandled (file : Bytes) : Prop :=
  (∃ what, readFileHeader {data := file, pos := 0} = .error (invalidFileHeader what)) ∨
    ∃ header input codes, readFileHeader {data := file, pos := 0} = .ok (header,input) ∧
      constructCodes header.lengths = .ok codes ∧
      ∀ b, (codes b).len ≠ 0 → 1 ≤ (codes b).len.toNat ∧ (codes b).len.toNat ≤ bitSize

def rawLengths (file : Bytes) : CodeLengthTable := fun b => file.getD (5+8+b.toNat) 0

theorem readHeader {file : Bytes} (long : fileHeaderSize ≤ file.length) (signed : file.take 5 = correctSignature) :
    ∃ header input, readFileHeader {data := file, pos := 0} = .ok (header,input) ∧
      header.lengths = rawLengths file ∧
      header.filesize = UInt64.ofNat (fromMemory ((file.drop 5).take 8)) ∧
        input.rest = file.drop fileHeaderSize := by
  have raw : (IStream.read {data := file, pos := 0} fileHeaderSize).1 = file.take fileHeaderSize := rfl
  have signature : (FileHeader.ofBytes (file.take fileHeaderSize)).signature = correctSignature := by
    simp only [FileHeader.ofBytes,List.take_take]
    exact signed
  refine ⟨FileHeader.ofBytes (file.take fileHeaderSize),
    (IStream.read {data := file, pos := 0} fileHeaderSize).2,?_,?_,?_,?_⟩
  · simp only [readFileHeader,raw,List.length_take,Nat.min_eq_left long,signature,requireOk,okBind]
  · funext b
    have lt := b.toNat_lt
    simp only [FileHeader.ofBytes,rawLengths,List.getD_eq_getElem?_getD]
    rw [List.getElem?_take_of_lt (by simp only [fileHeaderSize]; omega)]
  · simp only [FileHeader.ofBytes,List.drop_take,List.take_take]
    rfl
  · rw [IStream.readRest]
    rfl

theorem headerShort {file : Bytes} (short : file.length < fileHeaderSize) :
    readFileHeader {data := file, pos := 0} = .error (invalidFileHeader "File header can't be read.") := by
  have raw : (IStream.read {data := file, pos := 0} fileHeaderSize).1 = file.take fileHeaderSize := rfl
  simp only [readFileHeader,raw,List.length_take]
  rw [requireFails (by omega)]
  rfl

theorem headerUnsigned {file : Bytes} (long : fileHeaderSize ≤ file.length)
    (unsigned : file.take 5 ≠ correctSignature) :
    readFileHeader {data := file, pos := 0} = .error (invalidFileHeader "Signature doesn't match.") := by
  have raw : (IStream.read {data := file, pos := 0} fileHeaderSize).1 = file.take fileHeaderSize := rfl
  have signature : (FileHeader.ofBytes (file.take fileHeaderSize)).signature = file.take 5 := by
    simp only [FileHeader.ofBytes,List.take_take]
    rfl
  simp only [readFileHeader,raw,List.length_take,Nat.min_eq_left long,signature,requireOk,okBind,
    requireFails unsigned,errorBind]

theorem handledSigned {file : Bytes} (long : fileHeaderSize ≤ file.length)
    (signed : file.take 5 = correctSignature) :
    HeaderHandled file ↔ ∃ codes, constructCodes (rawLengths file) = .ok codes ∧
      ∀ b, (codes b).len ≠ 0 → 1 ≤ (codes b).len.toNat ∧ (codes b).len.toNat ≤ bitSize := by
  obtain ⟨header,input,read,lengths,_,_⟩ := readHeader long signed
  rw [← lengths]
  constructor
  · rintro (⟨what,failed⟩ | ⟨header',input',codes,read',built,aligned⟩)
    · exact absurd (read.symm.trans failed) (by simp)
    · cases Except.ok.inj (read.symm.trans read')
      exact ⟨codes,built,aligned⟩
  · rintro ⟨codes,built,aligned⟩
    exact .inr ⟨header,input,codes,read,built,aligned⟩

theorem headerHandledIff (file : Bytes) :
    HeaderHandled file ↔
      file.length < fileHeaderSize ∨ file.take 5 ≠ correctSignature ∨ Usable (rawLengths file) := by
  by_cases short : file.length < fileHeaderSize
  · exact ⟨fun _ => .inl short,fun _ => .inl ⟨_,headerShort short⟩⟩
  · have long : fileHeaderSize ≤ file.length := Nat.le_of_not_lt short
    by_cases signed : file.take 5 = correctSignature
    · rw [handledSigned long signed,usableIff]
      exact ⟨fun usable => .inr (.inr usable),fun h => (h.resolve_left short).resolve_left (fun other =>
        other signed)⟩
    · exact ⟨fun _ => .inr (.inl signed),fun _ => .inl ⟨_,headerUnsigned long signed⟩⟩

def threeOneBitCodes : Bytes := correctSignature ++ List.replicate 8 0 ++ [1,1,1] ++ List.replicate 253 0

theorem threeOneBitCodesNotHandled : ¬ ∀ file, HeaderHandled file := by
  intro handled
  have long : fileHeaderSize ≤ threeOneBitCodes.length := by decide +kernel
  have signed : threeOneBitCodes.take 5 = correctSignature := by decide +kernel
  obtain ⟨codes,built,_⟩ := (handledSigned long signed).mp (handled threeOneBitCodes)
  have fails : (constructCodes (rawLengths threeOneBitCodes)).isOk = false := by decide +kernel
  rw [built] at fails
  cases fails

end HuffmanArchiver.HostileHeader
