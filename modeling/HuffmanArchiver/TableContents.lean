import HuffmanArchiver.PrefixDecoding

/-! The decode table of a prefix code holds the code and nothing else: its cells that carry a length are
those at which the codes end, and the links are the ways of the codes. -/
namespace HuffmanArchiver.TableContents
open Machine Codes CodeWords DecodeTables DecodeTree PrefixDecoding Library.BitString

/-- Following the links from a table along a list of blocks; only the last cell may lead nowhere. -/
inductive Follows {bits : ℕ} (table : DecodeTable bits) : (t : ℕ) → List ℕ → (u x : ℕ) → DecodeElemT → Prop where
  | last {t x : ℕ} {e : DecodeElemT} (found : cell table t x = .ok e) : Follows table t [x] t x e
  | link {t x u y : ℕ} {e e' : DecodeElemT} {blocks : List ℕ} (found : cell table t x = .ok e)
      (linked : e.table ≠ 0)
      (onward : Follows table e.table.toNat blocks u y e') : Follows table t (x :: blocks) u y e'

def blocksFrom (bits : ℕ) (s : ℕ → Bool) : (i count : ℕ) → List ℕ
  | _, 0 => []
  | i, count+1 => window s (bits*i) bits :: blocksFrom bits s (i+1) count

def blocksOf (bits : ℕ) (w : List Bool) : List ℕ := blocksFrom bits (stream w) 0 (w.length/bits)

def blockNumber (bits : ℕ) (c : CodeT) : ℕ := (c.len.toNat+bits-1)/bits

structure Completion (bits : ℕ) (c : CodeT) (w : List Bool) : Prop where
  begins : word c <+: w
  length : w.length = bits*blockNumber bits c

theorem blocksAppend (bits : ℕ) (s : ℕ → Bool) (i m n : ℕ) :
    blocksFrom bits s i (m+n) = blocksFrom bits s i m ++ blocksFrom bits s (i+m) n := by
  induction m generalizing i with
  | zero => simp [blocksFrom]
  | succ m ih =>
    rw [show m+1+n = (m+n)+1 by omega]
    simp only [blocksFrom,ih,List.cons_append]
    rw [show i+1+m = i+(m+1) by omega]

section Codes
variable {bits : ℕ} {c : CodeT} {w : List Bool}

theorem completionBlocks (pos : 0 < bits) (complete : Completion bits c w) :
    blocksOf bits w = blocksFrom bits (stream w) 0 (blockNumber bits c) := by
  rw [blocksOf,complete.length,Nat.mul_div_cancel_left _ pos]

theorem completionValue (complete : Completion bits c w) : window (stream w) 0 c.len.toNat = value c := by
  obtain ⟨rest,rfl⟩ := complete.begins
  rw [wordValue,windowOfBits,Nat.mod_eq_of_lt (valueLt c)]

theorem completionExists (pos : 0 < bits) (coded : 0 < c.len.toNat) : ∃ w, Completion bits c w := by
  obtain ⟨_,_,within⟩ := blockCount pos coded
  refine ⟨word c ++ List.replicate (bits*blockNumber bits c-c.len.toNat) false,List.prefix_append _ _,?_⟩
  rw [List.length_append,wordLength,List.length_replicate]
  exact Nat.add_sub_cancel' within

theorem completionNumber {n : ℕ} (within : c.len.toNat ≤ bits*blockNumber bits c)
    (lt : n < 2^(bits*blockNumber bits c))
    (front : n / 2^(bits*blockNumber bits c-c.len.toNat) = value c) :
    ∃ w, Completion bits c w ∧ window (stream w) 0 (bits*blockNumber bits c) = n := by
  refine ⟨Library.BitString.bits (bits*blockNumber bits c) n,⟨?_,bitsLength _ _⟩,?_⟩
  · refine ⟨Library.BitString.bits (bits*blockNumber bits c-c.len.toNat) n,?_⟩
    rw [wordValue,← front,← bitsAppend,Nat.add_sub_cancel' within]
  · have read := windowOfBits (bits*blockNumber bits c) n []
    rwa [List.append_nil,Nat.mod_eq_of_lt lt] at read

theorem childWindow (s : ℕ → Bool) (i : ℕ) :
    child bits (i,window s 0 (bits*i)) (window s (bits*i) bits) = (i+1,window s 0 (bits*(i+1))) := by
  have join := windowAppend s 0 (bits*i) bits
  rw [Nat.zero_add] at join
  rw [child,Nat.mul_add,Nat.mul_one,join]

theorem levelBlocks {i : ℕ} (pos : 0 < bits) (above : bits*i < c.len.toNat) : i < blockNumber bits c := by
  by_contra beyond
  obtain ⟨_,_,within⟩ := blockCount pos (Nat.zero_lt_of_lt above)
  have := Nat.mul_le_mul_left bits (Nat.le_of_not_lt beyond)
  unfold blockNumber at this
  omega

theorem lastLevel {i : ℕ} (pos : 0 < bits) (above : bits*i < c.len.toNat) (within : c.len.toNat ≤ bits*(i+1)) :
    blockNumber bits c = i+1 := by
  obtain ⟨_,upper,_⟩ := blockCount pos (Nat.zero_lt_of_lt above)
  have low := levelBlocks pos above
  have high : blockNumber bits c-1 < i+1 := Nat.lt_of_mul_lt_mul_left (upper.trans_le within)
  omega

end Codes

section Table
variable {bits : ℕ} {codes : CodeTable} {addr : ℕ → Address} {table : DecodeTable bits} (pos : 0 < bits)
  (nested : Nested codes (Coded codes) addr table)

include nested in
theorem followsDown {s : ℕ → Bool} {i k t u : ℕ} {e : DecodeElemT} (ht : t < table.size)
    (top : addr t = (i,window s 0 (bits*i)))
    (there : ∀ j, i < j → j ≤ i+k → ∃ v < table.size, addr v = (j,window s 0 (bits*j)))
    (bottom : u < table.size ∧ addr u = (i+k,window s 0 (bits*(i+k))))
    (found : cell table u (window s (bits*(i+k)) bits) = .ok e) :
    Follows table t (blocksFrom bits s i (k+1)) u (window s (bits*(i+k)) bits) e := by
  induction k generalizing i t with
  | zero =>
    obtain ⟨hu,address⟩ := bottom
    cases nested.apart t u ht hu (top.trans address.symm)
    exact .last found
  | succ k ih =>
    obtain ⟨v,hv,below⟩ := there (i+1) (by omega) (by omega)
    obtain ⟨e',found',number⟩ := linkOf nested ht hv (windowLt s (bits*i) bits) (by rw [below,top,childWindow])
    have linked : e'.table ≠ 0 := by
      intro zero
      rw [zero,UInt16.toNat_zero] at number
      rw [← number,nested.root] at below
      simp at below
    have shift : i+(k+1) = i+1+k := by omega
    rw [shift] at there bottom found ⊢
    refine .link found' linked ?_
    rw [number]
    exact ih hv below (fun j lower upper => there j (by omega) upper) bottom found

variable {b : UInt8} {s : ℕ → Bool}

include nested in
theorem codeFollows (leaves : Leaves codes (Coded codes) addr table) (coded : Coded codes b)
    (stands : window s 0 (codes b).len.toNat = value (codes b)) {i : ℕ} (above : bits*i < (codes b).len.toNat) :
    ∃ t e, addr t = (i,window s 0 (bits*i)) ∧ cell table t (window s (bits*i) bits) = .ok e ∧
      Follows table 0 (blocksFrom bits s 0 (i+1)) t (window s (bits*i) bits) e := by
  have there : ∀ j ≤ i, ∃ v < table.size, addr v = (j,window s 0 (bits*j)) := fun j le => by
    have upper := Nat.mul_le_mul_left bits le
    obtain ⟨v,hv,address⟩ := leaves.paths b coded j (by omega)
    exact ⟨v,hv,by rw [address,leadWindow stands (by omega)]⟩
  obtain ⟨t,ht,address⟩ := there i (le_refl _)
  obtain ⟨e,found⟩ := cellExists ht (windowLt s (bits*i) bits)
  refine ⟨t,e,address,found,?_⟩
  have down := followsDown nested (s := s) (i := 0) (k := i) nested.nonempty nested.root (fun j _ le =>
    there j (by omega))
    ⟨ht,by rw [Nat.zero_add]; exact address⟩ (by rw [Nat.zero_add]; exact found)
  rwa [Nat.zero_add] at down

theorem cellReached (nested : Nested codes (Coded codes) addr table)
    (leaves : Leaves codes (Coded codes) addr table)
    (coded : Coded codes b) (stands : window s 0 (codes b).len.toNat = value (codes b)) {t x : ℕ} {e : DecodeElemT}
    (found : cell table t x = .ok e) (above : bits*(addr t).1 < (codes b).len.toNat)
    (here : (child bits (addr t) x).2 = window s 0 (bits*((addr t).1+1))) :
    Follows table 0 (blocksFrom bits s 0 ((addr t).1+1)) t x e := by
  obtain ⟨ht,hx⟩ := cellBounds found
  obtain ⟨u,e',address,found',follows⟩ := codeFollows nested leaves coded stands above
  have joined : child bits (addr t) x =
      child bits ((addr t).1,window s 0 (bits*(addr t).1)) (window s (bits*(addr t).1) bits) := by
    rw [childWindow]
    exact Prod.ext rfl here
  obtain ⟨same,rfl⟩ := childInjective hx (windowLt s _ bits) joined
  cases nested.apart t u ht (cellBounds found').1 (same.trans address.symm)
  cases Except.ok.inj (found.symm.trans found')
  exact follows

theorem followsUnique {t u v x y : ℕ} {e e' : DecodeElemT} {blocks : List ℕ} (first : Follows table t blocks u x e)
    (second : Follows table t blocks v y e') : u = v ∧ x = y ∧ e = e' := by
  induction first with
  | last found =>
    cases second with
    | last found' => exact ⟨rfl,rfl,Except.ok.inj (found.symm.trans found')⟩
    | link found' linked onward => cases onward
  | link found linked onward ih =>
    cases second with
    | last found' => cases onward
    | link found' linked' onward' =>
      cases Except.ok.inj (found.symm.trans found')
      exact ih onward'

def lastLen (bits : ℕ) (c : CodeT) : ℕ := c.len.toNat-bits*(blockNumber bits c-1)

structure Represents (codes : CodeTable) (table : DecodeTable bits) : Prop where
  code : ∀ b, Coded codes b → ∀ w, Completion bits (codes b) w → ∃ t x e, Follows table 0 (blocksOf bits w) t x e ∧
    e.table = 0 ∧ e.byte = b ∧ e.len.toNat = lastLen bits (codes b)
  leaf : ∀ t x e, cell table t x = .ok e → e.table = 0 → 0 < e.len →
    ∃! b, Coded codes b ∧ ∃ w, Completion bits (codes b) w ∧ Follows table 0 (blocksOf bits w) t x e
  link : ∀ t x e, cell table t x = .ok e → e.table ≠ 0 → ∃ b w way onward, Coded codes b ∧
    Completion bits (codes b) w ∧
    blocksOf bits w = way ++ onward ∧ onward ≠ [] ∧ Follows table 0 way t x e
  blank : ∀ t x e, cell table t x = .ok e → e.table = 0 → e.len = 0 → e = {}

section Contents
variable (owned : Owned codes (Coded codes) addr table) (leaves : Leaves codes (Coded codes) addr table)
include pos nested leaves

theorem codeEnds (coded : Coded codes b) {w : List Bool} (complete : Completion bits (codes b) w) :
    ∃ t x e, Follows table 0 (blocksOf bits w) t x e ∧ e.table = 0 ∧ e.byte = b ∧
      e.len.toNat = lastLen bits (codes b) := by
  obtain ⟨positive,above,within⟩ := blockCount pos (codedPos coded)
  obtain ⟨i,number⟩ : ∃ i, blockNumber bits (codes b) = i+1 := ⟨_,(Nat.sub_add_cancel positive).symm⟩
  rw [← blockNumber,number,Nat.add_sub_cancel] at above
  rw [← blockNumber,number] at within
  have stands := completionValue complete
  obtain ⟨t,e,address,found,follows⟩ := codeFollows nested leaves coded stands above
  have ends : EndsAt bits (codes b) (addr t) (window (stream w) (bits*i) bits) := by
    rw [address]
    refine ⟨above,within,?_⟩
    rw [childWindow]
    exact (windowTop _ _ within).trans stands
  have own := leaves.leaves b coded t _ e found ends
  have spelled : blocksOf bits w = blocksFrom bits (stream w) 0 (i+1) := by
    rw [completionBlocks pos complete,number]
  rw [spelled]
  refine ⟨t,_,e,follows,by rw [own,leafCell],by rw [own,leafCell],?_⟩
  have step : bits*(i+1) = bits*i+bits := by rw [Nat.mul_add,Nat.mul_one]
  rw [own,leafLen,address,lastLen,number,Nat.add_sub_cancel]

theorem endsReached (coded : Coded codes b) {t x : ℕ} {e : DecodeElemT} (found : cell table t x = .ok e)
    (ends : EndsAt bits (codes b) (addr t) x) : ∃ w, Completion bits (codes b) w ∧
      Follows table 0 (blocksOf bits w) t x e := by
  have number := lastLevel pos ends.above ends.within
  have within := ends.within
  have front := ends.cell
  have passes := endsPasses ends (cellBounds found).2
  have below : (child bits (addr t) x).2 < 2^(bits*blockNumber bits (codes b)) := by
    have high : (addr t).2 < 2^(bits*(addr t).1) := by
      rw [← passes.blocks,lead,Nat.div_lt_iff_lt_mul (Nat.two_pow_pos _),← Nat.pow_add,Nat.add_sub_cancel'
        passes.above.le]
      exact valueLt _
    have low := (cellBounds found).2
    rw [number,Nat.mul_add,Nat.mul_one,Nat.pow_add]
    calc (addr t).2*2^bits+x < ((addr t).2+1)*2^bits := by rw [Nat.succ_mul]; omega
      _ ≤ 2^(bits*(addr t).1)*2^bits := Nat.mul_le_mul_right _ high
  rw [← number] at within front
  obtain ⟨w,complete,read⟩ := completionNumber within below front
  refine ⟨w,complete,?_⟩
  rw [number] at read
  rw [completionBlocks pos complete,number]
  exact cellReached nested leaves coded (completionValue complete) found ends.above read.symm

theorem linkReached {t x : ℕ} {e : DecodeElemT} (found : cell table t x = .ok e) (linked : e.table ≠ 0) :
    ∃ b w way onward, Coded codes b ∧ Completion bits (codes b) w ∧ blocksOf bits w = way ++ onward ∧ onward ≠ [] ∧
      Follows table 0 way t x e := by
  obtain ⟨inside,later,address⟩ := nested.links t x e found linked
  obtain ⟨b,coded,passes⟩ := nested.origin _ (by omega) inside
  rw [address] at passes
  have above : bits*((addr t).1+1) < (codes b).len.toNat := passes.above
  obtain ⟨w,complete⟩ := completionExists pos (codedPos coded)
  have stands := completionValue complete
  have step : bits*((addr t).1+1) = bits*(addr t).1+bits := by rw [Nat.mul_add,Nat.mul_one]
  have here : (child bits (addr t) x).2 = window (stream w) 0 (bits*((addr t).1+1)) := by
    rw [← leadWindow stands above.le]
    exact passes.blocks.symm
  obtain ⟨more,number⟩ : ∃ more, blockNumber bits (codes b) = (addr t).1+1+(more+1) := by
    have deep := levelBlocks pos above
    exact ⟨blockNumber bits (codes b)-((addr t).1+2),by omega⟩
  refine ⟨b,w,blocksFrom bits (stream w) 0 ((addr t).1+1),blocksFrom bits (stream w) (0+((addr t).1+1)) (more+1),
    coded,complete,?_,?_,cellReached nested leaves coded stands found (by omega) here⟩
  · rw [completionBlocks pos complete,number,blocksAppend]
  · simp [blocksFrom]

include owned

theorem tableRepresents : Represents codes table := by
  refine ⟨fun b coded w complete => codeEnds pos nested leaves coded complete,?_,
    fun t x e found linked => linkReached pos nested leaves found linked,?_⟩
  · intro t x e found free positive
    rcases owned t x e found free with rfl | ⟨b,coded,ends⟩
    · exact absurd positive (by decide)
    · refine ⟨b,⟨coded,endsReached pos nested leaves coded found ends⟩,?_⟩
      rintro c ⟨coded',w,complete,follows⟩
      obtain ⟨_,_,e',follows',_,named,_⟩ := codeEnds pos nested leaves coded' complete
      obtain ⟨_,_,rfl⟩ := followsUnique follows follows'
      rw [← named,leaves.leaves b coded t x e found ends,leafCell]
  · intro t x e found free empty
    rcases owned t x e found free with blank | ⟨b,coded,ends⟩
    · exact blank
    · have above := ends.above
      have within := ends.within
      have step : bits*((addr t).1+1) = bits*(addr t).1+bits := by rw [Nat.mul_add,Nat.mul_one]
      have none_left := congrArg UInt8.toNat empty
      rw [leaves.leaves b coded t x e found ends,leafLen,UInt8.toNat_zero] at none_left
      omega

end Contents
end Table

theorem decodeTableExact {bits : ℕ} (pos : 0 < bits) (narrow : bits ≤ 16) (codes : CodeTable)
    (code : PrefixCode codes) :
    ∃ table, buildDecodeTable bits codes = .ok table ∧ Represents codes table := by
  obtain ⟨table,addr,built,_,nested,owned,leaves⟩ := buildSpec pos narrow (prefixCodeFits code)
  exact ⟨table,built,tableRepresents pos nested owned (leaves (prefixCodeFree code))⟩

theorem decodeTableExactTwoCodes : ∃ table, buildDecodeTable 1 twoCodes = .ok table ∧ Represents twoCodes table :=
  decodeTableExact (by decide) (by decide) twoCodes twoCodesPrefix

end HuffmanArchiver.TableContents
