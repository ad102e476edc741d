import HuffmanArchiver.CodeLengths
import HuffmanArchiver.CodeWords

/-! What `construct_codes` assigns. A code of `len` bits takes up `2^(64-len)` of the 64-bit words, and
the codes are laid out one behind the other. Lengths that overrun the `2^64` words are not rejected:
the next longer codes start over in the upper half, and a further code of equal length is a fault. -/
namespace HuffmanArchiver.Canonical
open Machine Codes CodeWords CodeLengths Library.BitString

/-- The number of 64-bit words that begin with a code of `len` bits. -/
def room (len : ℕ) : ℕ := 2^(64-len)

theorem roomPos (len : ℕ) : 0 < room len := Nat.two_pow_pos _

theorem roomDvd {l m : ℕ} (le : l ≤ m) : room m ∣ room l := Nat.pow_dvd_pow 2 (by omega)

theorem roomMul {l m : ℕ} (le : l ≤ m) (fits : m ≤ 64) : room l = 2^(m-l) * room m :=
  powSplit (by omega)

theorem roomHalf {len : ℕ} (pos : 0 < len) : room len ∣ 2^63 := Nat.pow_dvd_pow 2 (by omega)

def taken (pairs : List (UInt8 × UInt8)) : ℕ := (pairs.map (fun p => room p.1.toNat)).sum

@[simp] theorem takenNil : taken [] = 0 := rfl

@[simp] theorem takenCons (p : UInt8 × UInt8) (rest : List (UInt8 × UInt8)) :
    taken (p :: rest) = room p.1.toNat + taken rest := by simp [taken]

@[simp] theorem takenAppend (l m : List (UInt8 × UInt8)) : taken (l ++ m) = taken l + taken m := by simp [taken]

/-- The space up to here ends with a half of the words, the first two halves included. -/
def Overrun (k : ℕ) : Prop := 2^64 ≤ k ∧ 2^63 ∣ k

/-- The first word of a code behind codes that take up `k`. -/
def slot (k : ℕ) : ℕ := if k < 2^64 then k else 2^63 + k % 2^63

theorem slotLt (k : ℕ) : slot k < 2^64 := by
  unfold slot; split <;> omega

theorem slotSmall {k : ℕ} (lt : k < 2^64) : slot k = k := if_pos lt

theorem slotDvd {k len : ℕ} (pos : 0 < len) (dvd : room len ∣ k) : room len ∣ slot k := by
  unfold slot
  split
  · exact dvd
  · exact Nat.dvd_add (roomHalf pos) ((Nat.dvd_mod_iff (roomHalf pos)).mpr dvd)

theorem dvdGap {r a b : ℕ} (ha : r ∣ a) (hb : r ∣ b) (lt : a < b) : a + r ≤ b := by
  have := Nat.le_of_dvd (by omega) (Nat.dvd_sub hb ha)
  omega

theorem slotNext {k len : ℕ} (pos : 0 < len) (dvd : room len ∣ k) :
    (Overrun (k + room len) ∧ slot k + room len = 2^64 ∧ slot (k + room len) = 2^63) ∨
      (¬ Overrun (k + room len) ∧ slot k + room len < 2^64 ∧ slot (k + room len) = slot k + room len) := by
  have half := roomHalf pos
  have positive := roomPos len
  unfold Overrun slot
  by_cases small : k < 2^64
  · have gap := dvdGap dvd (half.trans (by norm_num)) small
    rw [if_pos small]
    by_cases full : k + room len = 2^64
    · left; rw [full]; norm_num
    · right; rw [if_pos (by omega)]; omega
  · have gap := dvdGap ((Nat.dvd_mod_iff half).mpr dvd) half (Nat.mod_lt k (by norm_num))
    rw [if_neg small,if_neg (by omega)]
    by_cases full : k % 2^63 + room len = 2^63
    · left; omega
    · right; omega

def codeAt (len : UInt8) (k : ℕ) : CodeT := ⟨len,UInt64.ofNat (slot k / room len.toNat)⟩

theorem slotDivLt {len : ℕ} (fits : len ≤ 64) (k : ℕ) : slot k / room len < 2^len := by
  rw [Nat.div_lt_iff_lt_mul (roomPos _),room,← Nat.pow_add,Nat.add_sub_cancel' fits]
  exact slotLt k

theorem codeAtData {len : UInt8} (fits : len.toNat ≤ 64) (k : ℕ) :
    (codeAt len k).data.toNat = slot k / room len.toNat := by
  have lt := slotDivLt fits k
  exact UInt64.toNat_ofNat_of_lt' (lt.trans_le (Nat.pow_le_pow_right (by norm_num) fits))

theorem subToNat {a b : UInt8} (le : a ≤ b) : (b-a).toNat = b.toNat - a.toNat := UInt8.toNat_sub_of_le _ _ le

theorem firstCode {len : UInt8} (short : len.toNat < 64) :
    CodeT.shiftLeft {} (len-({} : CodeT).len) = .ok (codeAt len 0) := by
  have amount : len-({} : CodeT).len = len := sub_zero len
  rw [amount,shiftLeftOk short]
  simp [codeAt,slot]

theorem shiftTo {c : CodeT} {next : UInt8} {k : ℕ} (le : c.len.toNat ≤ next.toNat)
    (short : next.toNat - c.len.toNat < 64)
    (value : c.data.toNat * 2^(next.toNat - c.len.toNat) = slot k / room next.toNat) :
    c.shiftLeft (next-c.len) = .ok (codeAt next k) := by
  have amount := subToNat (UInt8.le_iff_toNat_le.mpr le)
  rw [shiftLeftOk (by rw [amount]; exact short),amount,Nat.shiftLeft_eq,value,add_sub_cancel]
  rfl

section Next
variable {len next : UInt8} {k : ℕ} (pos : 0 < len.toNat) (dvd : room len.toNat ∣ k)
include pos dvd

theorem dataNext : (slot k / room len.toNat + 1) * room len.toNat = slot k + room len.toNat := by
  rw [Nat.add_mul,Nat.one_mul,Nat.div_mul_cancel (slotDvd pos dvd)]

theorem fullIff (short : len.toNat ≤ 64) :
    slot k / room len.toNat + 1 = 2^len.toNat ↔ slot k + room len.toNat = 2^64 := by
  have whole : 2^64 = 2^len.toNat * room len.toNat := by
    rw [room,← Nat.pow_add,Nat.add_sub_cancel' short]
  rw [← dataNext pos dvd,whole]
  exact (Nat.mul_left_inj (roomPos _).ne').symm

theorem incrementAt (short : len.toNat < 64) :
    (codeAt len k).increment.data.toNat = slot k / room len.toNat + 1 ∧
      (codeAt len k).increment.len.toNat = if slot k + room len.toNat = 2^64 then len.toNat + 1 else len.toNat := by
  have data := codeAtData short.le k
  have spec := incrementSpec (c := codeAt len k) short (by rw [data]; exact slotDivLt short.le k)
  rw [data] at spec
  refine ⟨spec.1,spec.2.trans ?_⟩
  simp only [show (codeAt len k).len = len from rfl,fullIff pos dvd short.le]

theorem nextFails (short : len.toNat < 64) (beyond : Overrun (k + room len.toNat)) :
    (codeAt len k).increment.shiftLeft (len-(codeAt len k).increment.len) = .error .assertion := by
  have full : slot k + room len.toNat = 2^64 := by
    rcases slotNext pos dvd with ⟨_,full,_⟩ | ⟨not_over,_⟩
    · exact full
    · exact absurd beyond not_over
  have longer := (incrementAt pos dvd short).2
  rw [if_pos full] at longer
  refine shiftLeftFails ?_
  rw [UInt8.toNat_sub]
  omega

variable (le : len.toNat ≤ next.toNat) (fits : next.toNat ≤ 64)
include le fits

theorem nextCode (short : len.toNat < 64) (fine : ¬ (next = len ∧ Overrun (k + room len.toNat))) :
    (codeAt len k).increment.shiftLeft (next-(codeAt len k).increment.len) =
      .ok (codeAt next (k + room len.toNat)) := by
  obtain ⟨data,longer⟩ := incrementAt pos dvd short
  rcases slotNext pos dvd with ⟨beyond,full,restart⟩ | ⟨_,not_full,onward⟩
  · have other : next.toNat ≠ len.toNat := fun same => fine ⟨UInt8.toNat_inj.mp same,beyond⟩
    rw [if_pos full] at longer
    refine shiftTo (by omega) (by omega) ?_
    rw [data,(fullIff pos dvd short.le).mpr full,longer,restart,room,Nat.pow_div (by omega) (by norm_num),
      ← Nat.pow_add]
    congr 1
    omega
  · rw [if_neg not_full.ne] at longer
    refine shiftTo (by omega) (by omega) ?_
    rw [data,longer,onward,← dataNext pos dvd,roomMul le fits,← Nat.mul_assoc,Nat.mul_div_cancel _ (roomPos _)]

theorem nextCodeFits (room_left : k + room len.toNat < 2^64) :
    (codeAt len k).increment.shiftLeft (next-(codeAt len k).increment.len) =
      .ok (codeAt next (k + room len.toNat)) := by
  by_cases short : len.toNat < 64
  · exact nextCode pos dvd le fits short (fun both => absurd both.2.1 (Nat.not_le.mpr room_left))
  · have last : len.toNat = 64 := by omega
    have same : next = len := UInt8.toNat_inj.mp (by omega)
    have one : room len.toNat = 1 := by rw [last]; rfl
    rw [one] at room_left ⊢
    have stay := incrementFull (c := codeAt len k) last
    have data : (codeAt len k).increment.data.toNat = k + 1 := by
      have was := codeAtData last.le k
      rw [one,Nat.div_one,slotSmall (by omega)] at was
      simp only [CodeT.increment,CodeT.recalcLen]
      rw [UInt64.toNat_add,was]
      simp; omega
    subst same
    refine shiftTo (by omega) (by omega) ?_
    rw [data,stay,last,slotSmall room_left]
    simp [room]

end Next

theorem assignOthers {pairs : List (UInt8 × UInt8)} {current : CodeT} {codes out : CodeTable}
    (ran : assignCodes pairs current codes = .ok out) {b : UInt8} (absent : b ∉ pairs.map Prod.snd) :
      out b = codes b := by
  induction pairs generalizing current codes with
  | nil =>
    cases Except.ok.inj ran
    rfl
  | cons p rest ih =>
    obtain ⟨code,_,ran⟩ := bindOk.mp ran
    simp only [List.map_cons,List.mem_cons,not_or] at absent
    rw [ih ran absent.2,tableSetOther _ _ absent.1]

theorem assignLen {pairs : List (UInt8 × UInt8)} {current : CodeT} {codes out : CodeTable}
    (ran : assignCodes pairs current codes = .ok out) (distinct : (pairs.map Prod.snd).Nodup) :
      ∀ p ∈ pairs, (out p.2).len = p.1 := by
  induction pairs generalizing current codes with
  | nil => simp
  | cons p rest ih =>
    simp only [List.map_cons,List.nodup_cons] at distinct
    obtain ⟨code,shifted,ran⟩ := bindOk.mp ran
    intro q hq
    rcases List.mem_cons.mp hq with rfl | inside
    · rw [assignOthers ran distinct.1,tableSetSelf]
      exact shiftLeftLen shifted
    · exact ih ran distinct.2 q inside

structure Laid (k : ℕ) (pairs : List (UInt8 × UInt8)) : Prop where
  ordered : pairs.Pairwise (fun p q => p.1.toNat ≤ q.1.toNat)
  bounds : ∀ p ∈ pairs, 0 < p.1.toNat ∧ p.1.toNat ≤ 64
  aligned : ∀ p ∈ pairs, room p.1.toNat ∣ k

theorem laidTail {k : ℕ} {p : UInt8 × UInt8} {rest : List (UInt8 × UInt8)} (laid : Laid k (p :: rest)) :
    Laid (k + room p.1.toNat) rest := by
  have ordered := List.pairwise_cons.mp laid.ordered
  refine ⟨ordered.2,fun q hq => laid.bounds q (List.mem_cons_of_mem _ hq),fun q hq => ?_⟩
  exact Nat.dvd_add (laid.aligned q (List.mem_cons_of_mem _ hq)) (roomDvd (ordered.1 q hq))

def Clear (k : ℕ) (pairs : List (UInt8 × UInt8)) : Prop :=
  ∀ pre p q post, pairs = pre ++ p :: q :: post → p.1.toNat < 64 → q.1 = p.1 → ¬ Overrun (k + taken (pre ++ [p]))

theorem clearCons {k : ℕ} {p q : UInt8 × UInt8} {rest : List (UInt8 × UInt8)} :
    Clear k (p :: q :: rest) ↔
      (p.1.toNat < 64 → q.1 = p.1 → ¬ Overrun (k + room p.1.toNat)) ∧ Clear (k + room p.1.toNat) (q :: rest) := by
  constructor
  · intro clear
    refine ⟨fun short same => by simpa using clear [] p q rest rfl short same,?_⟩
    intro pre p' q' post split short same
    have later := clear (p :: pre) p' q' post (by rw [split]; rfl) short same
    rwa [List.cons_append,takenCons,← Nat.add_assoc] at later
  · rintro ⟨head,tail⟩ pre p' q' post split short same
    cases pre with
    | nil =>
      simp only [List.nil_append,List.cons.injEq] at split
      obtain ⟨rfl,rfl,_⟩ := split
      simpa using head short same
    | cons first pre =>
      simp only [List.cons_append,List.cons.injEq] at split
      obtain ⟨rfl,split⟩ := split
      rw [List.cons_append,takenCons,← Nat.add_assoc]
      exact tail pre p' q' post split short same

theorem clearFull {k : ℕ} {pairs : List (UInt8 × UInt8)} (full : ∀ p ∈ pairs, p.1.toNat = 64) : Clear k pairs := by
  intro pre p q post split short
  have := full p (by simp [split])
  omega

theorem assignFull {pairs : List (UInt8 × UInt8)} (full : ∀ p ∈ pairs, p.1.toNat = 64) {current : CodeT}
    (last : current.len.toNat = 64) (codes : CodeTable) : ∃ out, assignCodes pairs current codes = .ok out := by
  induction pairs generalizing current codes with
  | nil => exact ⟨codes,rfl⟩
  | cons p rest ih =>
    have same : p.1 = current.len := UInt8.toNat_inj.mp (by rw [full p (by simp),last])
    have none : (p.1-current.len).toNat < 64 := by rw [same,sub_self]; decide
    simp only [assignCodes,shiftLeftOk none,okBind]
    refine ih (fun q hq => full q (List.mem_cons_of_mem _ hq)) (incrementFull ?_) _
    rw [add_sub_cancel,same,last]

theorem assignIff {rest : List (UInt8 × UInt8)} {p : UInt8 × UInt8} {k : ℕ} (laid : Laid k (p :: rest))
    (codes : CodeTable) :
    (∃ out, assignCodes rest (codeAt p.1 k).increment codes = .ok out) ↔ Clear k (p :: rest) := by
  induction rest generalizing p k codes with
  | nil =>
    refine ⟨fun _ pre p' q post split => ?_,fun _ => ⟨codes,rfl⟩⟩
    have size := congrArg List.length split
    simp at size
    omega
  | cons q rest ih =>
    obtain ⟨pos,small⟩ := laid.bounds p (by simp)
    have fits := (laid.bounds q (by simp)).2
    have above := (List.pairwise_cons.mp laid.ordered).1
    have le := above q (by simp)
    by_cases short : p.1.toNat < 64
    · have dvd := laid.aligned p (by simp)
      rw [clearCons]
      by_cases collides : q.1 = p.1 ∧ Overrun (k + room p.1.toNat)
      · have fails := nextFails pos dvd short collides.2
        refine ⟨?_,fun clear => absurd collides.2 (clear.1 short collides.1)⟩
        rintro ⟨out,ran⟩
        simp only [assignCodes,collides.1,fails,errorBind] at ran
        contradiction
      · simp only [assignCodes,nextCode pos dvd le fits short collides,okBind]
        rw [ih (laidTail laid)]
        exact ⟨fun clear => ⟨fun _ same beyond => collides ⟨same,beyond⟩,clear⟩,fun clear => clear.2⟩
    · have full : ∀ x ∈ p :: q :: rest, x.1.toNat = 64 := by
        intro x hx
        have bound := (laid.bounds x hx).2
        rcases List.mem_cons.mp hx with rfl | inside
        · omega
        · have := above x inside
          omega
      refine ⟨fun _ => clearFull full,fun _ => assignFull (fun x hx => full x (List.mem_cons_of_mem _ hx)) ?_ codes⟩
      exact incrementFull (full p (by simp))

theorem assignPlaces {pairs : List (UInt8 × UInt8)} {k : ℕ} (laid : Laid k pairs)
    (distinct : (pairs.map Prod.snd).Nodup)
    (fits : k + taken pairs ≤ 2^64) {current : CodeT}
    (start : ∀ p ∈ pairs.head?, current.shiftLeft (p.1-current.len) = .ok (codeAt p.1 k)) (codes : CodeTable) :
    ∃ out, assignCodes pairs current codes = .ok out ∧
      ∀ pre p post, pairs = pre ++ p :: post → out p.2 = codeAt p.1 (k + taken pre) := by
  induction pairs generalizing k current codes with
  | nil => exact ⟨codes,rfl,by simp⟩
  | cons p rest ih =>
    simp only [List.map_cons,List.nodup_cons] at distinct
    rw [takenCons,← Nat.add_assoc] at fits
    have follow : ∀ q ∈ rest.head?, (codeAt p.1 k).increment.shiftLeft (q.1-(codeAt p.1 k).increment.len) =
        .ok (codeAt q.1 (k + room p.1.toNat)) := by
      intro q hq
      cases rest with
      | nil => simp at hq
      | cons r rest =>
        cases Option.some.inj hq
        rw [takenCons] at fits
        have positive := roomPos q.1.toNat
        refine nextCodeFits (laid.bounds p (by simp)).1 (laid.aligned p (by simp)) ?_
          (laid.bounds q (by simp)).2 (by omega)
        exact (List.pairwise_cons.mp laid.ordered).1 q (by simp)
    obtain ⟨out,ran,placed⟩ := ih (laidTail laid) distinct.2 fits follow (codes.set p.2 (codeAt p.1 k))
    refine ⟨out,by simp only [assignCodes,start p (by simp),okBind,ran],?_⟩
    intro pre q post split
    cases pre with
    | nil =>
      simp only [List.nil_append,List.cons.injEq] at split
      obtain ⟨rfl,rfl⟩ := split
      rw [assignOthers ran distinct.1,tableSetSelf]
      rfl
    | cons first pre =>
      simp only [List.cons_append,List.cons.injEq] at split
      obtain ⟨rfl,split⟩ := split
      rw [placed pre q post split,takenCons,Nat.add_assoc]

section Pairs
variable (lengths : CodeLengthTable)

def lengthBytes : List UInt8 := allBytes.filter (fun b => 0 < lengths b)

theorem pairsPerm : (lengthBytePairs lengths).Perm ((lengthBytes lengths).map (fun b => (lengths b,b))) :=
  List.perm_insertionSort _ _

theorem lengthBytesMem {b : UInt8} : b ∈ lengthBytes lengths ↔ 0 < (lengths b).toNat := by
  simp [lengthBytes,allBytesMem,UInt8.lt_iff_toNat_lt]

theorem pairsMem {p : UInt8 × UInt8} : p ∈ lengthBytePairs lengths ↔ p.1 = lengths p.2 ∧
    0 < (lengths p.2).toNat := by
  rw [(pairsPerm lengths).mem_iff,List.mem_map]
  constructor
  · rintro ⟨b,hb,rfl⟩
    exact ⟨rfl,(lengthBytesMem lengths).mp hb⟩
  · rintro ⟨same,pos⟩
    exact ⟨p.2,(lengthBytesMem lengths).mpr pos,Prod.ext same.symm rfl⟩

theorem pairsNames : ((lengthBytePairs lengths).map Prod.snd).Perm (lengthBytes lengths) := by
  have perm := (pairsPerm lengths).map Prod.snd
  rw [List.map_map] at perm
  simpa [Function.comp_def] using perm

theorem pairsDistinct : ((lengthBytePairs lengths).map Prod.snd).Nodup :=
  (pairsNames lengths).nodup_iff.mpr (allBytesNodup.filter _)

theorem pairsSorted : (lengthBytePairs lengths).Pairwise pairLe := by
  have : Std.Total pairLe := ⟨fun p q => by
    simp only [pairLe,UInt8.lt_iff_toNat_lt,UInt8.le_iff_toNat_le,← UInt8.toNat_inj]; omega⟩
  have : IsTrans _ pairLe := ⟨fun p q r => by
    simp only [pairLe,UInt8.lt_iff_toNat_lt,UInt8.le_iff_toNat_le,← UInt8.toNat_inj]; omega⟩
  exact List.pairwise_insertionSort pairLe _

theorem pairsOrdered : (lengthBytePairs lengths).Pairwise (fun p q => p.1.toNat ≤ q.1.toNat) := by
  refine (pairsSorted lengths).imp ?_
  intro p q le
  simp only [pairLe,UInt8.lt_iff_toNat_lt,← UInt8.toNat_inj] at le
  omega

variable {lengths}

theorem pairsLaid (fits : ∀ b, (lengths b).toNat ≤ 64) : Laid 0 (lengthBytePairs lengths) := by
  refine ⟨pairsOrdered lengths,fun p hp => ?_,fun p _ => dvd_zero _⟩
  obtain ⟨same,pos⟩ := (pairsMem lengths).mp hp
  rw [same]
  exact ⟨pos,fits p.2⟩

theorem constructOthers {codes : CodeTable} (built : constructCodes lengths = .ok codes) {b : UInt8}
    (uncoded : ¬ 0 < (lengths b).toNat) : codes b = {} :=
  assignOthers built (fun inside => uncoded ((lengthBytesMem lengths).mp ((pairsNames lengths).mem_iff.mp inside)))

theorem constructLen {codes : CodeTable} (built : constructCodes lengths = .ok codes) (b : UInt8) :
    (codes b).len = lengths b := by
  by_cases coded : 0 < (lengths b).toNat
  · exact assignLen built (pairsDistinct lengths) (lengths b,b) ((pairsMem lengths).mpr ⟨rfl,coded⟩)
  · rw [constructOthers built coded]
    exact (UInt8.toNat_inj.mp (by simpa using coded)).symm

theorem constructIff (fits : ∀ b, (lengths b).toNat ≤ 64) :
    (∃ codes, constructCodes lengths = .ok codes) ↔
      lengthBytePairs lengths = [] ∨ (∃ p ∈ lengthBytePairs lengths, p.1.toNat < 64) ∧
        Clear 0 (lengthBytePairs lengths) := by
  have laid := pairsLaid fits
  unfold constructCodes
  cases found : lengthBytePairs lengths with
  | nil => exact ⟨fun _ => .inl rfl,fun _ => ⟨_,rfl⟩⟩
  | cons p rest =>
    rw [found] at laid
    by_cases short : p.1.toNat < 64
    · simp only [assignCodes,firstCode short,okBind]
      rw [assignIff laid]
      exact ⟨fun clear => .inr ⟨⟨p,by simp,short⟩,clear⟩,fun h => h.elim (fun h => absurd h (by simp)) And.right⟩
    · have first : p.1-({} : CodeT).len = p.1 := sub_zero p.1
      simp only [assignCodes,first,shiftLeftFails (Nat.le_of_not_lt short),errorBind]
      refine ⟨fun ⟨_,ran⟩ => absurd ran (by simp),?_⟩
      rintro (none_coded | ⟨⟨q,hq,lt⟩,_⟩)
      · contradiction
      · rcases List.mem_cons.mp hq with rfl | inside
        · exact absurd lt short
        · have := (List.pairwise_cons.mp laid.ordered).1 q inside
          omega

end Pairs

/-- The first 64-bit word that begins with a code. -/
def firstWord (c : CodeT) : ℕ := c.data.toNat * room c.len.toNat

/-- The codes divide up the 64-bit words from 0 on: each gets the words that begin with it. -/
structure Partition (lengths : CodeLengthTable) (codes : CodeTable) : Prop where
  fits : ∀ b, (lengths b).toNat ≤ 64
  len : ∀ b, (codes b).len = lengths b
  data : ∀ b, (codes b).data.toNat < 2^(codes b).len.toNat
  apart : ∀ b c, b ≠ c → 0 < (lengths b).toNat → 0 < (lengths c).toNat →
    firstWord (codes b) + room (lengths b).toNat ≤ firstWord (codes c) ∨
      firstWord (codes c) + room (lengths c).toNat ≤ firstWord (codes b)
  covers : ∀ w < taken (lengthBytePairs lengths), ∃ b, 0 < (lengths b).toNat ∧
    firstWord (codes b) ≤ w ∧ w < firstWord (codes b) + room (lengths b).toNat

theorem takenSplit {pairs : List (UInt8 × UInt8)} {w : ℕ} (lt : w < taken pairs) :
    ∃ pre p post, pairs = pre ++ p :: post ∧ taken pre ≤ w ∧ w < taken pre + room p.1.toNat := by
  induction pairs generalizing w with
  | nil => simp at lt
  | cons p rest ih =>
    rw [takenCons] at lt
    by_cases here : w < room p.1.toNat
    · exact ⟨[],p,rest,rfl,by simp,by simpa using here⟩
    · obtain ⟨pre,q,post,split,low,high⟩ := ih (w := w - room p.1.toNat) (by omega)
      refine ⟨p :: pre,q,post,by rw [split]; rfl,?_,?_⟩ <;> rw [takenCons] <;> omega

theorem splitTwice {pairs pre pre' post post' : List (UInt8 × UInt8)} {p q : UInt8 × UInt8} (ne : p ≠ q)
    (first : pairs = pre ++ p :: post) (second : pairs = pre' ++ q :: post') :
    taken pre + room p.1.toNat ≤ taken pre' ∨ taken pre' + room q.1.toNat ≤ taken pre := by
  rw [first] at second
  rcases List.append_eq_append_iff.mp second with ⟨gap,rfl,split⟩ | ⟨gap,rfl,split⟩
  · cases gap with
    | nil => simp only [List.nil_append,List.cons.injEq] at split; exact absurd split.1 ne
    | cons x gap =>
      simp only [List.cons_append,List.cons.injEq] at split
      obtain ⟨rfl,_⟩ := split
      left; simp
  · cases gap with
    | nil => simp only [List.nil_append,List.cons.injEq] at split; exact absurd split.1.symm ne
    | cons x gap =>
      simp only [List.cons_append,List.cons.injEq] at split
      obtain ⟨rfl,_⟩ := split
      right; simp

theorem firstWordAt {lengths : CodeLengthTable} {pre post : List (UInt8 × UInt8)} {p : UInt8 × UInt8}
    (fits : ∀ b, (lengths b).toNat ≤ 64) (kraft : taken (lengthBytePairs lengths) ≤ 2^64)
    (split : lengthBytePairs lengths = pre ++ p :: post) : firstWord (codeAt p.1 (taken pre)) = taken pre := by
  have laid := pairsLaid fits
  have dvd : room p.1.toNat ∣ taken pre := by
    refine List.dvd_sum ?_
    intro x hx
    obtain ⟨q,hq,rfl⟩ := List.mem_map.mp hx
    have ordered := laid.ordered
    rw [split] at ordered
    exact roomDvd ((List.pairwise_append.mp ordered).2.2 q hq p (by simp))
  have lt : taken pre < 2^64 := by
    have := roomPos p.1.toNat
    rw [split,takenAppend,takenCons] at kraft
    omega
  rw [firstWord,codeAtData (laid.bounds p (by simp [split])).2,slotSmall lt]
  exact Nat.div_mul_cancel dvd

theorem pairsFind {lengths : CodeLengthTable} {b : UInt8} (coded : 0 < (lengths b).toNat) :
    ∃ pre post, lengthBytePairs lengths = pre ++ (lengths b,b) :: post :=
  List.append_of_mem ((pairsMem lengths).mpr ⟨rfl,coded⟩)

theorem constructPlaces {lengths : CodeLengthTable} (fits : ∀ b, (lengths b).toNat ≤ 64)
    (short : ∀ p ∈ (lengthBytePairs lengths).head?, p.1.toNat < 64)
    (kraft : taken (lengthBytePairs lengths) ≤ 2^64) :
    ∃ codes, constructCodes lengths = .ok codes ∧
      ∀ pre p post, lengthBytePairs lengths = pre ++ p :: post →
        codes p.2 = codeAt p.1 (taken pre) ∧ firstWord (codes p.2) = taken pre := by
  obtain ⟨codes,built,placed⟩ := assignPlaces (pairsLaid fits) (pairsDistinct lengths) (by simpa using kraft)
    (fun p hp => firstCode (short p hp)) (fun _ => {})
  refine ⟨codes,built,?_⟩
  intro pre p post split
  have place := placed pre p post split
  rw [Nat.zero_add] at place
  exact ⟨place,by rw [place,firstWordAt fits kraft split]⟩

theorem constructPartition {lengths : CodeLengthTable} (fits : ∀ b, (lengths b).toNat ≤ 64)
    (short : ∀ p ∈ (lengthBytePairs lengths).head?, p.1.toNat < 64)
    (kraft : taken (lengthBytePairs lengths) ≤ 2^64) :
    ∃ codes, constructCodes lengths = .ok codes ∧ Partition lengths codes := by
  obtain ⟨codes,built,position⟩ := constructPlaces fits short kraft
  have len := constructLen built
  refine ⟨codes,built,fits,len,?_,?_,?_⟩
  · intro b
    rw [len b]
    by_cases coded : 0 < (lengths b).toNat
    · obtain ⟨pre,post,split⟩ := pairsFind coded
      rw [(position pre _ post split).1,codeAtData (fits b)]
      exact slotDivLt (fits b) _
    · rw [constructOthers built coded]
      exact Nat.two_pow_pos _
  · intro b c ne hb hc
    obtain ⟨pre,post,split⟩ := pairsFind hb
    obtain ⟨pre',post',split'⟩ := pairsFind hc
    rw [(position pre _ post split).2,(position pre' _ post' split').2]
    exact splitTwice (fun same => ne (congrArg Prod.snd same)) split split'
  · intro w lt
    obtain ⟨pre,p,post,split,low,high⟩ := takenSplit lt
    have member : p ∈ lengthBytePairs lengths := by simp [split]
    obtain ⟨same,coded⟩ := (pairsMem lengths).mp member
    refine ⟨p.2,coded,?_⟩
    rw [(position pre p post split).2,← same]
    exact ⟨low,high⟩

end HuffmanArchiver.Canonical
