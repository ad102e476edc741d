import HuffmanArchiver.Library.Entropy
import HuffmanArchiver.Reference

/-! How large the archive of a file is, from the counts of its bytes alone. -/
namespace HuffmanArchiver.ArchiveSizes
open Machine Codes HuffmanTree CodeLengths Optimality FastIo Headers HostileHeader Huffman Decoding
  RoundTrip Outcomes Archives
open Library.Entropy

section Counts
variable {file : Bytes} (short : file.length < 2^64)
include short

theorem occursIff (b : UInt8) : byteCounts file b ≠ 0 ↔ b ∈ file.toFinset := by
  rw [List.mem_toFinset]
  refine ⟨fun counted => ?_,countPositive short⟩
  by_contra absent
  exact counted (by rw [byteCounts,List.count_eq_zero_of_not_mem absent]; rfl)

theorem occurring : Finset.univ.filter (fun b => byteCounts file b ≠ 0) = file.toFinset := by
  ext b
  simp only [Finset.mem_filter,Finset.mem_univ,true_and,occursIff short]

theorem costOccurring (len : UInt8 → ℕ) : codeCost (byteCounts file) len = ∑ b ∈ file.toFinset,
    file.count b * len b := by
  simp only [codeCost,countToNat short]
  refine (Finset.sum_subset (Finset.subset_univ _) (fun b _ absent => ?_)).symm
  rw [List.count_eq_zero_of_not_mem (fun inside => absent (List.mem_toFinset.mpr inside)),Nat.zero_mul]

theorem prefixOccurring {len : UInt8 → ℕ} : PrefixLengths (byteCounts file) len ↔
    (∀ b ∈ file, 0 < len b) ∧ ∑ b ∈ file.toFinset, (1/2 : ℝ)^len b ≤ 1 := by
  have positive : (∀ b, byteCounts file b ≠ 0 → 0 < len b) ↔ ∀ b ∈ file, 0 < len b := by
    simp only [occursIff short,List.mem_toFinset]
  have kraft : ∑ b with byteCounts file b ≠ 0, (1/2 : ℚ)^len b ≤ 1 ↔ ∑ b ∈ file.toFinset, (1/2 : ℝ)^len b ≤ 1 := by
    rw [occurring short,← Rat.cast_le (K := ℝ)]
    push_cast
    rfl
  exact ⟨fun code => ⟨positive.mp code.positive,kraft.mp code.kraft⟩,fun code =>
    ⟨positive.mpr code.1,kraft.mpr code.2⟩⟩

theorem evenLengths : PrefixLengths (byteCounts file) (fun _ => max 1 (Nat.clog 2 file.toFinset.card)) := by
  refine (prefixOccurring short).mpr ⟨fun _ _ => Nat.one_pos.trans_le (le_max_left _ _),?_⟩
  have room : (file.toFinset.card : ℝ) ≤ 2^max 1 (Nat.clog 2 file.toFinset.card) := by
    exact_mod_cast (Nat.le_pow_clog one_lt_two _).trans (Nat.pow_le_pow_right two_pos (le_max_right _ _))
  rw [Finset.sum_const,nsmul_eq_mul,one_div,inv_pow]
  exact mul_inv_le_one_of_le₀ room (by positivity)

end Counts

theorem minimumLengths {frequencies : FrequencyTable} {lens : CodeLengthTable}
    (small : ∑ b, (frequencies b).toNat < 2^64)
    (read : buildCodeLengths frequencies = .ok lens) : MinimumRedundancy frequencies (fun b => (lens b).toNat) := by
  obtain ⟨lens',read',⟨none_coded,rfl⟩ | ⟨root,built,table⟩⟩ := lengthsOf frequencies
  · cases Except.ok.inj (read.symm.trans read')
    refine ⟨⟨fun b coded => absurd (none_coded b) coded,?_⟩,fun _ _ => ?_⟩
    · simp [none_coded]
    · simp [codeCost]
  · cases Except.ok.inj (read.symm.trans read')
    exact ⟨tablePrefix table,fun _ other => leastCost small built table other⟩

section Archive
variable {file archive : Bytes} {info : CompressionInfo} (short : file.length < 2^64)
  (compressed : compressFile file = .ok (info,archive))
include short compressed

theorem bodyCost : ∃ len, MinimumRedundancy (byteCounts file) len ∧
    archive.length = fileHeaderSize + (codeCost (byteCounts file) len + 7)/8 := by
  obtain ⟨codes,header,body,rfl,of,read,_⟩ := archiveForm short compressed
  refine ⟨_,minimumLengths (countsSmall short) read,?_⟩
  rw [List.length_append,headerLength,of.size,codedSum short of.partition.len,codeCost]

theorem sizeWithinEntropy : ∃ body, archive.length = fileHeaderSize + body ∧
    information file.toFinset file.count ≤ 8*body ∧ (8*body : ℝ) < information file.toFinset file.count +
      file.length + 8 := by
  obtain ⟨len,minimum,size⟩ := bodyCost short compressed
  have positive : ∀ b ∈ file.toFinset, 0 < file.count b :=
    fun b hb => List.count_pos_iff.mpr (List.mem_toFinset.mp hb)
  have total : ∑ b ∈ file.toFinset, file.count b = file.length := List.sum_toFinset_count_eq_length file
  have code := (prefixOccurring short).mp minimum.code
  have enough := gibbs positive code.2
  have shannon : PrefixLengths (byteCounts file) (fun b => shannonLength file.length (file.count b)) := by
    have kraft := shannonKraft positive
    rw [total] at kraft
    exact (prefixOccurring short).mpr ⟨fun _ _ => shannonPositive _ _,kraft⟩
  have cheap := minimum.least _ shannon
  have little := shannonCost positive
  rw [total] at little
  rw [costOccurring short,costOccurring short] at cheap
  rw [costOccurring short] at size
  refine ⟨_,size,enough.trans ?_,?_⟩
  · exact_mod_cast (by omega : _ ≤ 8*((∑ b ∈ file.toFinset, file.count b * len b + 7)/8))
  · have bits : 8*((∑ b ∈ file.toFinset, file.count b * len b + 7)/8) <
        ∑ b ∈ file.toFinset, file.count b * shannonLength file.length (file.count b) + 8 := by omega
    have bits' : (8*((∑ b ∈ file.toFinset, file.count b * len b + 7)/8 : ℕ) : ℝ) <
        (∑ b ∈ file.toFinset, file.count b * shannonLength file.length (file.count b) : ℕ) + 8 := by
          exact_mod_cast bits
    linarith

theorem sizeBounds : ∃ body, archive.length = fileHeaderSize + body ∧ file.length ≤ 8*body ∧ body ≤ file.length ∧
    8*body ≤ file.length * max 1 (Nat.clog 2 file.toFinset.card) + 7 := by
  obtain ⟨len,minimum,size⟩ := bodyCost short compressed
  have code := (prefixOccurring short).mp minimum.code
  have total : ∑ b ∈ file.toFinset, file.count b = file.length := List.sum_toFinset_count_eq_length file
  have each : file.length ≤ ∑ b ∈ file.toFinset, file.count b * len b := by
    rw [← total]
    exact Finset.sum_le_sum (fun b hb => Nat.le_mul_of_pos_right _ (code.1 b (List.mem_toFinset.mp hb)))
  have bytes := minimum.least _ (byteLengths _)
  have even := minimum.least _ (evenLengths short)
  simp only [costOccurring short,← Finset.sum_mul,total] at bytes even size
  exact ⟨_,size,by omega,by omega,by omega⟩

end Archive

theorem sizeWithinEntropyThreeBytes : ∃ info archive, compressFile threeBytes = .ok (info,archive) ∧
    ∃ body, archive.length = fileHeaderSize + body ∧ information threeBytes.toFinset threeBytes.count ≤ 8*body ∧
      (8*body : ℝ) < information threeBytes.toFinset threeBytes.count + threeBytes.length + 8 := by
  obtain ⟨info,archive,compressed⟩ := threeBytesCompressed
  exact ⟨info,archive,compressed,sizeWithinEntropy (by decide) compressed⟩

theorem sizeBoundsThreeBytes : ∃ info archive, compressFile threeBytes = .ok (info,archive) ∧
    ∃ body, archive.length = fileHeaderSize + body ∧ threeBytes.length ≤ 8*body ∧ body ≤ threeBytes.length ∧
      8*body ≤ threeBytes.length * max 1 (Nat.clog 2 threeBytes.toFinset.card) + 7 := by
  obtain ⟨info,archive,compressed⟩ := threeBytesCompressed
  exact ⟨info,archive,compressed,sizeBounds (by decide) compressed⟩

theorem noShorterArchive {file archive : Bytes} {info : CompressionInfo} (short : file.length < 2^64)
    (compressed : compressFile file = .ok (info,archive)) {other : Bytes} {info' : CompressionInfo}
    (decompressed : decompressFile other = .ok (info',file)) (fits : ∀ b, (rawLengths other b).toNat ≤ 64)
    (complete : ∑ b with rawLengths other b ≠ 0, (1/2 : ℚ)^(rawLengths other b).toNat = 1)
    (whole : (file.map (fun b => (rawLengths other b).toNat)).sum ≤ 8*(other.length-fileHeaderSize)) :
    archive.length ≤ other.length := by
  have long : fileHeaderSize ≤ other.length := by
    by_contra cut
    rw [shortThrown (Nat.lt_of_not_le cut)] at decompressed
    contradiction
  have signed : other.take 5 = correctSignature := by
    by_contra unsigned
    rw [unsignedThrown long unsigned] at decompressed
    contradiction
  obtain ⟨_,coded,_⟩ := Reference.decodedSpells long signed fits complete decompressed
  have competitor : PrefixLengths (byteCounts file) (fun b => (rawLengths other b).toNat) := by
    refine ⟨fun b occurs => nonzeroIff.mp (coded b ?_),?_⟩
    · exact List.mem_toFinset.mp ((occursIff short b).mp occurs)
    · rw [occurring short]
      refine le_trans (Finset.sum_le_sum_of_subset_of_nonneg (fun b hb => ?_) (fun b _ _ => by positivity))
        complete.le
      exact Finset.mem_filter.mpr ⟨Finset.mem_univ b,coded b (List.mem_toFinset.mp hb)⟩
  obtain ⟨len,minimum,size⟩ := bodyCost short compressed
  have cheaper := minimum.least _ competitor
  have spent : codeCost (byteCounts file) (fun b => (rawLengths other b).toNat) =
      (file.map (fun b => (rawLengths other b).toNat)).sum := by
    simp only [codeCost,countToNat short,countSum]
  rw [spent] at cheaper
  omega

theorem noShorterArchiveTwoInOne : ∃ info archive, compressFile [0,1] = .ok (info,archive) ∧
    archive.length ≤ Reference.twoInOne.length := by
  have all : (buildCodeLengths (byteCounts [0,1])).map (fun l =>
    allBytes.all (fun b => (l b).toNat ≤ bitSize)) = .ok true := by
    decide +kernel
  obtain ⟨info,archive,compressed⟩ : ∃ info archive, compressFile [0,1] = .ok (info,archive) :=
    (compressOkIff (by decide)).mpr (fun lengths read b => by
      rw [read] at all
      exact of_decide_eq_true (List.all_eq_true.mp (Except.ok.inj all) b (allBytesMem b)))
  obtain ⟨long,signed,fits,complete⟩ := Reference.twoInOneComplete
  obtain ⟨info',decompressed⟩ :=
    Reference.spelledDecoded long signed fits complete (by decide +kernel) Reference.twoInOneSpells
  exact ⟨info,archive,compressed,noShorterArchive (by decide) compressed decompressed fits complete
    (by decide +kernel)⟩

section Exchange
variable {frequencies : FrequencyTable} {len : UInt8 → ℕ} {a b : UInt8} (ha : frequencies a ≠ 0)
  (hb : frequencies b ≠ 0)
include ha hb

theorem exchangedPrefix (code : PrefixLengths frequencies len) :
    PrefixLengths frequencies (fun c => len (Equiv.swap a b c)) := by
  refine ⟨fun c coded => code.positive _ ?_,?_⟩
  · rcases eq_or_ne c a with rfl | other
    · rwa [Equiv.swap_apply_left]
    · rcases eq_or_ne c b with rfl | other'
      · rwa [Equiv.swap_apply_right]
      · rwa [Equiv.swap_apply_of_ne_of_ne other other']
  · have codedA : a ∈ Finset.univ.filter (fun c => frequencies c ≠ 0) :=
      Finset.mem_filter.mpr ⟨Finset.mem_univ a,ha⟩
    have codedB : b ∈ Finset.univ.filter (fun c => frequencies c ≠ 0) :=
      Finset.mem_filter.mpr ⟨Finset.mem_univ b,hb⟩
    have exchanged := exchangedSum codedA codedB (fun c => (1/2 : ℚ)^len c)
    exact exchanged.trans_le code.kraft

end Exchange

theorem frequentShorter (frequencies : FrequencyTable) (small : ∑ b, (frequencies b).toNat < 2^64) :
    ∃ lens, buildCodeLengths frequencies = .ok lens ∧
      ∀ a b, frequencies b ≠ 0 → frequencies b < frequencies a → 0 < lens a ∧ lens a ≤ lens b := by
  obtain ⟨lens,read,_⟩ := lengthsOf frequencies
  have minimum := minimumLengths small read
  refine ⟨lens,read,fun a b hb more => ?_⟩
  have ha : frequencies a ≠ 0 := by
    intro zero
    rw [zero] at more
    exact UInt64.not_lt_zero more
  have least := minimum.least _ (exchangedPrefix ha hb minimum.code)
  unfold codeCost at least
  have heavier : (frequencies b).toNat < (frequencies a).toNat := UInt64.lt_iff_toNat_lt.mp more
  have shorter := heavierShorter (w := fun c => (frequencies c).toNat) (Finset.mem_univ a)
    (Finset.mem_univ b) heavier least
  exact ⟨UInt8.lt_iff_toNat_lt.mpr (minimum.code.positive a ha),UInt8.le_iff_toNat_le.mpr shorter⟩

theorem frequentShorterTwoSymbols : ∃ lens, buildCodeLengths twoSymbols = .ok lens ∧
    ∀ a b, twoSymbols b ≠ 0 → twoSymbols b < twoSymbols a → 0 < lens a ∧ lens a ≤ lens b :=
  frequentShorter twoSymbols (by rw [sumAllBytes]; decide +kernel)

end HuffmanArchiver.ArchiveSizes
