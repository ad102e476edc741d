import HuffmanArchiver.CompleteCode

/-! The codes of `construct_codes` in numbers: they count through the bytes in the order of length and
byte, and left-aligned they stand in that order. -/
namespace HuffmanArchiver.CanonicalOrder
open Machine Codes CodeWords DecodeTree PrefixDecoding CodeLengths Canonical CompleteCode

/-- The amounts that the loop passes to `operator<<=`. -/
def shiftAmounts : List (UInt8 × UInt8) → (current : CodeT) → List UInt8
  | [], _ => []
  | (len,_) :: rest, current =>
      (len-current.len) :: match current.shiftLeft (len-current.len) with
        | .ok code => shiftAmounts rest code.increment
        | .error _ => []

theorem amountsBelow {pairs : List (UInt8 × UInt8)} {current : CodeT} {codes out : CodeTable}
    (ran : assignCodes pairs current codes = .ok out) :
      ∀ shl ∈ shiftAmounts pairs current, shl.toNat < bitSize := by
  induction pairs generalizing current codes with
  | nil => simp [shiftAmounts]
  | cons p rest ih =>
    simp only [assignCodes,bindOk] at ran
    obtain ⟨code,shifted,ran⟩ := ran
    simp only [shiftAmounts,shifted]
    intro shl mem
    rcases List.mem_cons.mp mem with rfl | later
    · by_contra wide
      rw [shiftLeftFails (Nat.le_of_not_lt wide)] at shifted
      contradiction
    · exact ih ran shl later

def Earlier (lengths : CodeLengthTable) (b c : UInt8) : Prop :=
  lengths b < lengths c ∨ lengths b = lengths c ∧ b < c

instance (lengths : CodeLengthTable) (b c : UInt8) : Decidable (Earlier lengths b c) :=
  inferInstanceAs (Decidable (_ ∨ _))

section Order
variable {lengths : CodeLengthTable} {a b c : UInt8}

theorem earlierTrans (ab : Earlier lengths a b) (bc : Earlier lengths b c) : Earlier lengths a c := by
  simp only [Earlier,UInt8.lt_iff_toNat_lt,← UInt8.toNat_inj] at *
  omega

theorem earlierIrrefl : ¬ Earlier lengths b b := by
  simp [Earlier]

theorem earlierTotal (different : b ≠ c) : Earlier lengths b c ∨ Earlier lengths c b := by
  simp only [Earlier,UInt8.lt_iff_toNat_lt,ne_eq,← UInt8.toNat_inj] at *
  omega

theorem earlierLe (earlier : Earlier lengths b c) : (lengths b).toNat ≤ (lengths c).toNat := by
  simp only [Earlier,UInt8.lt_iff_toNat_lt,← UInt8.toNat_inj] at earlier
  omega

theorem pairsEarlier : (lengthBytePairs lengths).Pairwise (fun p q => Earlier lengths p.2 q.2) := by
  have distinct := List.pairwise_map.mp (pairsDistinct lengths)
  refine (List.Pairwise.and_mem.mp ((pairsSorted lengths).and distinct)).imp ?_
  rintro p q ⟨hp,hq,le,different⟩
  have hp := ((pairsMem lengths).mp hp).1
  have hq := ((pairsMem lengths).mp hq).1
  simp only [pairLe,Earlier,hp,hq,UInt8.lt_iff_toNat_lt,UInt8.le_iff_toNat_le,ne_eq,← UInt8.toNat_inj] at *
  omega

theorem beforePerm {pre post : List (UInt8 × UInt8)}
    (split : lengthBytePairs lengths = pre ++ (lengths b,b) :: post) :
    (pre.map Prod.snd).Perm (allBytes.filter (fun c => lengths c ≠ 0 ∧ Earlier lengths c b)) := by
  have order : (lengthBytePairs lengths).Pairwise (fun p q => Earlier lengths p.2 q.2) := pairsEarlier
  have distinct := pairsDistinct lengths
  rw [split] at order distinct
  rw [List.map_append] at distinct
  refine (List.perm_ext_iff_of_nodup (List.nodup_append.mp distinct).1 (allBytesNodup.filter _)).mpr (fun c => ?_)
  simp only [List.mem_map,List.mem_filter,allBytesMem,true_and,decide_eq_true_eq]
  constructor
  · rintro ⟨p,hp,rfl⟩
    have member : p ∈ lengthBytePairs lengths := by
      rw [split]
      exact List.mem_append_left _ hp
    obtain ⟨_,coded⟩ := (pairsMem lengths).mp member
    exact ⟨nonzeroIff.mpr coded,(List.pairwise_append.mp order).2.2 p hp (lengths b,b) (by simp)⟩
  · rintro ⟨coded,earlier⟩
    have inside := (pairsMem lengths (p := (lengths c,c))).mpr ⟨rfl,nonzeroIff.mp coded⟩
    rw [split,List.mem_append,List.mem_cons] at inside
    rcases inside with before | same | behind
    · exact ⟨_,before,rfl⟩
    · cases (Prod.mk.inj same).2
      exact absurd earlier earlierIrrefl
    · have later := (List.pairwise_cons.mp (List.pairwise_append.mp order).2.1).1 _ behind
      exact absurd (earlierTrans earlier later) earlierIrrefl

theorem takenBefore {pre post : List (UInt8 × UInt8)}
    (split : lengthBytePairs lengths = pre ++ (lengths b,b) :: post) :
    taken pre = ∑ c with lengths c ≠ 0 ∧ Earlier lengths c b, room (lengths c).toNat := by
  rw [sumWhere,← ((beforePerm split).map _).sum_eq,taken,List.map_map]
  refine congrArg List.sum (List.map_congr_left (fun p hp => ?_))
  have member : p ∈ lengthBytePairs lengths := by
    rw [split]
    exact List.mem_append_left _ hp
  obtain ⟨same,_⟩ := (pairsMem lengths).mp member
  simp [same]

end Order

section Places
variable {lengths : CodeLengthTable} {codes : CodeTable}
  (place : ∀ b, lengths b ≠ 0 → firstWord (codes b) = ∑ c with lengths c ≠ 0 ∧ Earlier lengths c b, room
    (lengths c).toNat)
include place

theorem dataSum (fits : ∀ b, (lengths b).toNat ≤ 64) (len : ∀ b, (codes b).len = lengths b) {b : UInt8}
    (coded : lengths b ≠ 0) :
    (codes b).data.toNat = ∑ c with lengths c ≠ 0 ∧ Earlier lengths c b,
      2^((lengths b).toNat-(lengths c).toNat) := by
  refine Nat.eq_of_mul_eq_mul_right (roomPos (lengths b).toNat) ?_
  have first := place b coded
  rw [firstWord,len b] at first
  rw [first,Finset.sum_mul]
  refine Finset.sum_congr rfl (fun c hc => ?_)
  exact roomMul (earlierLe (Finset.mem_filter.mp hc).2.2) (fits b)

variable {b c : UInt8} (hb : lengths b ≠ 0) (hc : lengths c ≠ 0)
include hb hc

theorem earlierFirst (earlier : Earlier lengths b c) : firstWord (codes b) < firstWord (codes c) := by
  rw [place b hb,place c hc]
  refine Finset.sum_lt_sum_of_subset ?_ (i := b) (by simp [hb,earlier]) (by simp [earlierIrrefl])
    (roomPos _) (fun _ _ _ => Nat.zero_le _)
  intro a ha
  simp only [Finset.mem_filter,Finset.mem_univ,true_and] at ha ⊢
  exact ⟨ha.1,earlierTrans ha.2 earlier⟩

theorem firstOrder : firstWord (codes b) < firstWord (codes c) ↔ Earlier lengths b c := by
  refine ⟨fun less => ?_,earlierFirst place hb hc⟩
  by_cases same : b = c
  · subst same
    exact absurd less (lt_irrefl _)
  · rcases earlierTotal same with earlier | later
    · exact earlier
    · exact absurd less (earlierFirst place hc hb later).asymm

end Places

theorem alignedFirst {lengths : CodeLengthTable} {codes : CodeTable} (partition : Partition lengths codes)
    {b : UInt8}
    (coded : lengths b ≠ 0) : ∃ c, (codes b).leftAlign = .ok c ∧ c.data.toNat = firstWord (codes b) := by
  have pos : 0 < (codes b).len.toNat := by rw [partition.len b]; exact nonzeroIff.mp coded
  obtain ⟨data,shifted,number⟩ := leftAlignSpec pos (by rw [partition.len b]; exact partition.fits b)
  exact ⟨_,shifted,by rw [number,partitionValue partition]; rfl⟩

structure CanonicalCode (lengths : CodeLengthTable) (codes : CodeTable) : Prop where
  len : ∀ b, lengths b ≠ 0 → (codes b).len = lengths b ∧ (codes b).data.toNat < 2^(lengths b).toNat
  data : ∀ b, lengths b ≠ 0 → (codes b).data.toNat =
    ∑ c with lengths c ≠ 0 ∧ Earlier lengths c b, 2^((lengths b).toNat-(lengths c).toNat)
  absent : ∀ b, lengths b = 0 → codes b = {}
  free : ∀ b c, b ≠ c → lengths b ≠ 0 → lengths c ≠ 0 → ¬ word (codes b) <+: word (codes c)
  ordered : ∀ b c, lengths b ≠ 0 → lengths c ≠ 0 → ∃ x y, (codes b).leftAlign = .ok x ∧
    (codes c).leftAlign = .ok y ∧
    (x.data < y.data ↔ Earlier lengths b c)

theorem headShort {lengths : CodeLengthTable} (short : ∀ b, lengths b ≠ 0 → ∃ c, lengths c ≠ 0 ∧
    (lengths c).toNat < 64) :
    ∀ p ∈ (lengthBytePairs lengths).head?, p.1.toNat < 64 := by
  intro p hp
  obtain ⟨rest,split⟩ := List.head?_eq_some_iff.mp hp
  have member : p ∈ lengthBytePairs lengths := List.mem_of_mem_head? hp
  obtain ⟨same,coded⟩ := (pairsMem lengths).mp member
  obtain ⟨c,hc,small⟩ := short p.2 (nonzeroIff.mpr coded)
  have inside := (pairsMem lengths (p := (lengths c,c))).mpr ⟨rfl,nonzeroIff.mp hc⟩
  have ordered := pairsOrdered lengths
  rw [split] at inside ordered
  rcases List.mem_cons.mp inside with first | behind
  · rw [← first]
    exact small
  · exact ((List.pairwise_cons.mp ordered).1 _ behind).trans_lt small

theorem builtPlace {lengths : CodeLengthTable} {codes : CodeTable} (built : constructCodes lengths = .ok codes)
    (fits : ∀ b, (lengths b).toNat ≤ 64) (head : ∀ p ∈ (lengthBytePairs lengths).head?, p.1.toNat < 64)
    (room_left : taken (lengthBytePairs lengths) ≤ 2^64) {b : UInt8} (coded : lengths b ≠ 0) :
    firstWord (codes b) = ∑ c with lengths c ≠ 0 ∧ Earlier lengths c b, room (lengths c).toNat := by
  obtain ⟨codes',built',position⟩ := constructPlaces fits head room_left
  cases Except.ok.inj (built.symm.trans built')
  obtain ⟨pre,post,split⟩ := pairsFind (nonzeroIff.mp coded)
  rw [(position pre _ post split).2,takenBefore split]

theorem constructCanonical (lengths : CodeLengthTable) (fits : ∀ b, lengths b ≠ 0 → (lengths b).toNat ≤ 64)
    (short : ∀ b, lengths b ≠ 0 → ∃ c, lengths c ≠ 0 ∧ (lengths c).toNat < 64)
    (kraft : ∑ b with lengths b ≠ 0, (1/2 : ℚ)^(lengths b).toNat ≤ 1) :
    ∃ codes, constructCodes lengths = .ok codes ∧ CanonicalCode lengths codes ∧
      ∀ shl ∈ shiftAmounts (lengthBytePairs lengths) {}, shl.toNat < 64 := by
  have small : ∀ b, (lengths b).toNat ≤ 64 := fun b => by
    by_cases zero : lengths b = 0
    · rw [zero]
      exact Nat.zero_le _
    · exact fits b zero
  have room_left := takenFits small kraft
  obtain ⟨codes,built,partition⟩ := constructPartition small (headShort short) room_left
  have place := fun b => builtPlace built small (headShort short) room_left (b := b)
  refine ⟨codes,built,⟨?_,?_,?_,?_,?_⟩,amountsBelow built⟩
  · intro b coded
    have lt := partition.data b
    rw [partition.len b] at lt
    exact ⟨partition.len b,lt⟩
  · exact fun b coded => dataSum place small partition.len coded
  · exact fun b zero => constructOthers built (by rw [zero]; exact lt_irrefl _)
  · intro b c different hb hc front
    exact partitionFree partition b c different ((codedIff partition b).mpr (nonzeroIff.mp hb))
      ((codedIff partition c).mpr (nonzeroIff.mp hc)) (prefixContinues front)
  · intro b c hb hc
    obtain ⟨x,alignedb,firstb⟩ := alignedFirst partition hb
    obtain ⟨y,alignedc,firstc⟩ := alignedFirst partition hc
    refine ⟨x,y,alignedb,alignedc,?_⟩
    rw [UInt64.lt_iff_toNat_lt,firstb,firstc]
    exact firstOrder place hb hc

theorem constructCanonicalThreeLengths :
    ∃ codes, constructCodes threeLengths = .ok codes ∧ CanonicalCode threeLengths codes ∧
      ∀ shl ∈ shiftAmounts (lengthBytePairs threeLengths) {}, shl.toNat < 64 :=
  constructCanonical threeLengths (by decide +kernel) (fun _ _ => ⟨0,by decide,by decide⟩) threeKraft.le

end HuffmanArchiver.CanonicalOrder
