import HuffmanArchiver.DecodeTables
import HuffmanArchiver.CodeWords

/-! The tables of `build_decode_table` form a tree: a table is addressed by the blocks that lead to it.
This holds for overlapping codes as well; for a prefix code each code keeps the cells it was given. -/
namespace HuffmanArchiver.DecodeTree
open Machine Codes CodeWords DecodeTables Library.BitString

/-- The first `n` bits of a code. -/
def lead (c : CodeT) (n : ℕ) : ℕ := value c / 2^(c.len.toNat-n)

theorem leadZero (c : CodeT) : lead c 0 = 0 := Nat.div_eq_of_lt (valueLt c)

theorem leadWindow {c : CodeT} {s : ℕ → Bool} {pos n : ℕ} (stands : window s pos c.len.toNat = value c)
    (le : n ≤ c.len.toNat) :
    lead c n = window s pos n := by
  rw [lead,← stands,windowTop s pos le]

theorem leadLead (c : CodeT) {m n : ℕ} (le : m ≤ n) (fits : n ≤ c.len.toNat) : lead c n / 2^(n-m) = lead c m := by
  rw [lead,lead,Nat.div_div_eq_div_mul,← Nat.pow_add]
  congr 2
  omega

def Continues (c d : CodeT) : Prop := c.len.toNat ≤ d.len.toNat ∧ lead d c.len.toNat = value c

/-- Where a table hangs in the tree: its level and the blocks on the way to it, read as one number. -/
abbrev Address := ℕ × ℕ

section Addresses
variable (bits : ℕ)

def child (a : Address) (x : ℕ) : Address := (a.1+1,a.2*2^bits+x)

/-- The code ends in a table at this address, and the cell begins with its last bits. -/
structure EndsAt (c : CodeT) (a : Address) (x : ℕ) : Prop where
  above : bits*a.1 < c.len.toNat
  within : c.len.toNat ≤ bits*(a.1+1)
  cell : (child bits a x).2 / 2^(bits*(a.1+1)-c.len.toNat) = value c

structure PassesBy (c : CodeT) (a : Address) : Prop where
  above : bits*a.1 < c.len.toNat
  blocks : lead c (bits*a.1) = a.2

variable {bits}

theorem childInjective {a b : Address} {x y : ℕ} (hx : x < 2^bits) (hy : y < 2^bits)
    (same : child bits a x = child bits b y) : a = b ∧ x = y := by
  obtain ⟨level,number⟩ := Prod.mk.inj same
  have values : a.2 = b.2 := by rw [← highPart a.2 hx,number,highPart b.2 hy]
  rw [values] at number
  exact ⟨Prod.ext (by omega) values,by omega⟩

theorem endsPasses {c : CodeT} {a : Address} {x : ℕ} (ends : EndsAt bits c a x) (hx : x < 2^bits) :
    PassesBy bits c a := by
  have above := ends.above
  have within := ends.within
  refine ⟨above,?_⟩
  have step : bits*(a.1+1) = bits*a.1+bits := by rw [Nat.mul_add,Nat.mul_one]
  have whole : 2^bits = 2^(bits*(a.1+1)-c.len.toNat) * 2^(c.len.toNat-bits*a.1) := powSplit (by omega)
  rw [lead,← ends.cell,Nat.div_div_eq_div_mul,← whole]
  exact highPart a.2 hx

theorem endsContinues {c d : CodeT} {a : Address} {x : ℕ} (ends : EndsAt bits c a x)
    (passes : PassesBy bits d (child bits a x)) : Continues c d := by
  have within := ends.within
  have above : bits*(a.1+1) < d.len.toNat := passes.above
  refine ⟨by omega,?_⟩
  rw [← leadLead d within above.le,← ends.cell]
  exact congrArg (· / _) passes.blocks

theorem endsTwice {c d : CodeT} {a : Address} {x : ℕ} (first : EndsAt bits c a x) (second : EndsAt bits d a x)
    (le : c.len.toNat ≤ d.len.toNat) : Continues c d := by
  have within := second.within
  refine ⟨le,?_⟩
  rw [lead,← second.cell,← first.cell,Nat.div_div_eq_div_mul,← Nat.pow_add]
  congr 2
  omega

end Addresses

section Cells
variable {bits : ℕ} {table : DecodeTable bits} {t x : ℕ} {e : DecodeElemT}

theorem cellBounds (found : cell table t x = .ok e) : t < table.size ∧ x < 2^bits := by
  unfold cell at found
  split at found
  · split at found
    · exact ⟨by assumption,by assumption⟩
    · contradiction
  · contradiction

theorem cellExists (ht : t < table.size) (hx : x < 2^bits) : ∃ e, cell table t x = .ok e :=
  ⟨table[t][x],by simp [cell,ht,hx]⟩

theorem modifySpec (found : cell table t x = .ok e) (f : DecodeElemT → DecodeElemT) :
    ∃ table', DecodeTables.modify table t x f = .ok table' ∧ table'.size = table.size ∧
      cell table' t x = .ok (f e) ∧
      ∀ u y, ¬ (u = t ∧ y = x) → cell table' u y = cell table u y := by
  obtain ⟨ht,hx⟩ := cellBounds found
  simp only [cell,ht,hx,dif_pos] at found
  cases Except.ok.inj found
  refine ⟨table.set t (table[t].set x (f table[t][x])),by simp only [DecodeTables.modify,ht,hx,dif_pos],by simp,
    by simp [cell,ht,hx],?_⟩
  intro u y other
  simp only [cell,Array.size_set]
  by_cases hu : u < table.size
  · by_cases hy : y < 2^bits
    · simp only [hu,hy,dif_pos]
      rw [Array.getElem_set]
      split
      · rename_i same
        subst same
        rw [Vector.getElem_set_ne _ _ (fun same => other ⟨rfl,same.symm⟩)]
      · rfl
    · simp [hy]
  · simp [hu]

theorem cellGrown (table : DecodeTable bits) (u y : ℕ) :
    cell (emplaceBack table) u y = if u = table.size ∧ y < 2^bits then .ok {} else cell table u y := by
  simp only [cell,emplaceBack,Array.size_push]
  by_cases hy : y < 2^bits
  · rcases Nat.lt_trichotomy u table.size with less | same | more
    · simp [hy,less,less.ne,Nat.lt_succ_of_lt less,Array.getElem_push_lt less]
    · subst same
      simp [hy]
    · have outside : ¬ u < table.size+1 := Nat.not_lt_of_le more
      simp [hy,Nat.not_lt_of_le more.le,outside,more.ne']
  · simp [hy]

end Cells

/-! The two ways in which the cells of a table are written. -/

theorem andHigh (w : UInt64) {k : ℕ} (le : k ≤ 63) :
    (w &&& ~~~ UInt64.ofNat (1 <<< k - 1)).toNat = w.toNat / 2^k * 2^k := by
  have mask : (UInt64.ofNat (1 <<< k - 1)).toNat = 2^k-1 := by
    have small : 2^k ≤ 2^63 := Nat.pow_le_pow_right (by norm_num) le
    rw [UInt64.toNat_ofNat',Nat.shiftLeft_eq,Nat.one_mul]
    omega
  refine Nat.eq_of_testBit_eq (fun i => ?_)
  rw [UInt64.toNat_and,UInt64.toNat_not,mask,Nat.testBit_and,Nat.testBit_mul_two_pow,Nat.testBit_div_two_pow]
  have pow := Nat.two_pow_pos k
  have bound : 2^k ≤ 2^63 := Nat.pow_le_pow_right (by norm_num) le
  have complement : UInt64.size - 1 - (2^k-1) = 2^64 - (2^k-1+1) := by
    simp only [UInt64.size]
    omega
  rw [complement,Nat.testBit_two_pow_sub_succ (by omega),Nat.testBit_two_pow_sub_one]
  by_cases high : k ≤ i
  · by_cases inside : i < 64
    · simp [high,inside]
    · have zero : w.toNat.testBit i = false :=
        Nat.testBit_lt_two_pow (w.toNat_lt.trans_le (Nat.pow_le_pow_right (by norm_num) (by omega)))
      simp [zero,high]
  · simp [high,Nat.lt_of_not_le high]

section Writes
variable {bits : ℕ}

def filled (len byte : UInt8) (e : DecodeElemT) : DecodeElemT := {e with len := len, byte := byte}

theorem blockDiv {block j k : ℕ} (aligned : 2^k ∣ block) (inside : j < 2^k) : (block+j) / 2^k = block / 2^k := by
  obtain ⟨m,rfl⟩ := aligned
  rw [Nat.mul_add_div (Nat.two_pow_pos k),Nat.div_eq_of_lt inside,Nat.add_zero,Nat.mul_div_cancel_left _
    (Nat.two_pow_pos k)]

theorem indexMasked {k j : ℕ} {block index : UInt64} (le : k ≤ 63) (aligned : 2^k ∣ block.toNat)
    (here : index.toNat = block.toNat + j) (within : j ≤ 2^k) :
    index &&& ~~~ UInt64.ofNat (1 <<< k - 1) = block ↔ j < 2^k := by
  have pow := Nat.two_pow_pos k
  have multiple := Nat.div_mul_cancel aligned
  rw [← UInt64.toNat_inj,andHigh index le,here]
  constructor
  · intro same
    by_contra beyond
    have last : j = 2^k := by omega
    rw [last,Nat.add_div_right _ pow,Nat.succ_mul] at same
    omega
  · intro inside
    rw [blockDiv aligned inside,multiple]

theorem fillLoop {ind k : ℕ} {block index : UInt64} {len byte : UInt8} {fuel j : ℕ} {table : DecodeTable bits}
    (small : k ≤ bits) (bounded : bits < 63) (aligned : 2^k ∣ block.toNat) (fits : block.toNat + 2^k ≤ 2^bits)
    (ht : ind < table.size) (here : index.toNat = block.toNat + j) (within : j ≤ 2^k) (enough : 2^k < fuel + j) :
    ∃ table', fillLeaf ind (~~~ UInt64.ofNat (1 <<< k - 1)) block len byte fuel index table = .ok table' ∧
      table'.size = table.size ∧ ∀ u y e, cell table u y = .ok e →
        cell table' u y = .ok (if u = ind ∧ block.toNat + j ≤ y ∧ y / 2^k = block.toNat / 2^k then
          filled len byte e else e) := by
  have narrow : k ≤ 63 := by omega
  have masked := indexMasked narrow aligned here within
  induction fuel generalizing index j table with
  | zero => omega
  | succ fuel ih =>
    unfold fillLeaf
    by_cases inside : j < 2^k
    · have below : index.toNat < 2^bits := by omega
      obtain ⟨old,found⟩ := cellExists ht below
      obtain ⟨next,written,size,own,others⟩ := modifySpec found (filled len byte)
      have counted : (index+1).toNat = block.toNat + (j+1) := by
        have limit : 2^bits ≤ 2^62 := Nat.pow_le_pow_right (by norm_num) (by omega)
        rw [UInt64.toNat_add,UInt64.toNat_one]
        omega
      have ht' : ind < next.size := size ▸ ht
      obtain ⟨table',ran,size',cells⟩ :=
        ih ht' counted inside (by omega) (indexMasked narrow aligned counted inside)
      refine ⟨table',?_,size'.trans size,fun u y e at_e => ?_⟩
      · rw [if_pos (masked.mpr inside)]
        exact bindOk.mpr ⟨next,written,ran⟩
      · by_cases here' : u = ind ∧ y = index.toNat
        · obtain ⟨rfl,rfl⟩ := here'
          cases Except.ok.inj (found.symm.trans at_e)
          rw [cells _ _ _ own,if_neg (by omega),if_pos ⟨rfl,by omega,by rw [here,blockDiv aligned inside]⟩]
        · rw [cells u y e ((others u y here').trans at_e)]
          congr 1
          refine if_congr ?_ rfl rfl
          refine and_congr_right (fun same => and_congr_left (fun _ => ?_))
          have other : y ≠ index.toNat := fun at_y => here' ⟨same,at_y⟩
          omega
    · rw [if_neg (fun same => inside (masked.mp same))]
      refine ⟨table,rfl,rfl,fun u y e found => ?_⟩
      rw [if_neg ?_]
      · exact found
      · rintro ⟨_,above,same⟩
        have high := Nat.div_add_mod y (2^k)
        have low := Nat.mod_lt y (Nat.two_pow_pos k)
        have multiple := Nat.div_mul_cancel aligned
        rw [same,Nat.mul_comm] at high
        omega

theorem fillSpec {ind k : ℕ} {block : UInt64} {table : DecodeTable bits} (len byte : UInt8)
    (small : k ≤ bits) (bounded : bits < 63) (aligned : 2^k ∣ block.toNat) (fits : block.toNat + 2^k ≤ 2^bits)
    (ht : ind < table.size) :
    ∃ table', fillLeaf ind (~~~ UInt64.ofNat (1 <<< k - 1)) block len byte (2^bits+1) block table = .ok table' ∧
      table'.size = table.size ∧ ∀ u y e, cell table u y = .ok e →
        cell table' u y = .ok (if u = ind ∧ y / 2^k = block.toNat / 2^k then filled len byte e else e) := by
  have le : 2^k ≤ 2^bits := Nat.pow_le_pow_right (by norm_num) small
  have start : block.toNat = block.toNat + 0 := rfl
  have enough : 2^k < 2^bits+1+0 := Nat.lt_succ_of_le le
  obtain ⟨table',ran,size,cells⟩ := fillLoop small bounded aligned fits ht start (Nat.zero_le _) enough
  refine ⟨table',ran,size,fun u y e found => ?_⟩
  rw [cells u y e found]
  congr 1
  refine if_congr (and_congr_right (fun _ => ⟨And.right,fun same => ⟨?_,same⟩⟩)) rfl rfl
  have high := Nat.div_mul_le_self y (2^k)
  rw [same,Nat.div_mul_cancel aligned] at high
  exact high

theorem nestSpec {t x : ℕ} {table : DecodeTable bits} {e : DecodeElemT} (len : UInt8)
    (found : cell table t x = .ok e) (fits : table.size < 2^16) :
    (e.table ≠ 0 ∧ (e.table.toNat < table.size → nest table t x len = .ok (e.table.toNat,table))) ∨
    (e.table = 0 ∧ ∃ table', nest table t x len = .ok (table.size,table') ∧ table'.size = table.size+1 ∧
      cell table' t x = .ok {e with len := len, table := UInt16.ofNat table.size} ∧
      (∀ y < 2^bits, cell table' table.size y = .ok {}) ∧
      ∀ u y, u < table.size → ¬ (u = t ∧ y = x) → cell table' u y = cell table u y) := by
  by_cases linked : e.table = 0
  · right
    obtain ⟨ht,hx⟩ := cellBounds found
    have size : (emplaceBack table).size = table.size+1 := Array.size_push _
    have kept : ∀ u y, u < table.size → cell (emplaceBack table) u y = cell table u y := fun u y hu => by
      rw [cellGrown,if_neg (by omega)]
    obtain ⟨table',written,size',own,others⟩ := modifySpec ((kept t x ht).trans found)
      (fun c => {c with len := len, table := UInt16.ofNat ((emplaceBack table).size-1)})
    rw [size,Nat.add_sub_cancel] at own
    have number : (UInt16.ofNat table.size).toNat = table.size := UInt16.toNat_ofNat_of_lt' fits
    refine ⟨linked,table',?_,size'.trans size,own,?_,?_⟩
    · simp only [nest,found,okBind,if_pos linked,written,own,number]
      rw [requireOk (by omega)]
      rfl
    · intro y hy
      rw [others _ y (by omega),cellGrown,if_pos ⟨rfl,hy⟩]
    · intro u y hu other
      rw [others u y other,kept u y hu]
  · left
    refine ⟨linked,fun inside => ?_⟩
    simp only [nest,found,okBind,if_neg linked]
    rw [requireOk inside]
    rfl

end Writes

section Tree
variable {bits : ℕ} {codes : CodeTable}

/-- Tables at distinct addresses, each behind a cell of an earlier one and on the way of a code. -/
structure Nested (codes : CodeTable) (seen : UInt8 → Prop) (addr : ℕ → Address) (table : DecodeTable bits) :
    Prop where
  nonempty : 0 < table.size
  root : addr 0 = (0,0)
  apart : ∀ t u, t < table.size → u < table.size → addr t = addr u → t = u
  links : ∀ t x e, cell table t x = .ok e → e.table ≠ 0 →
    e.table.toNat < table.size ∧ t < e.table.toNat ∧ addr e.table.toNat = child bits (addr t) x
  linked : ∀ u, 0 < u → u < table.size → ∃ t x e, cell table t x = .ok e ∧ e.table.toNat = u
  origin : ∀ u, 0 < u → u < table.size → ∃ b, seen b ∧ PassesBy bits (codes b) (addr u)
  lens : ∀ t x e, cell table t x = .ok e → e.len.toNat ≤ bits

def leafCell (bits : ℕ) (codes : CodeTable) (b : UInt8) (a : Address) : DecodeElemT :=
  {table := 0, byte := b, len := UInt8.ofNat ((codes b).len.toNat-bits*a.1)}

theorem leafLen (bits : ℕ) (codes : CodeTable) (b : UInt8) (a : Address) :
    (leafCell bits codes b a).len.toNat = (codes b).len.toNat-bits*a.1 :=
  UInt8.toNat_ofNat_of_lt' ((Nat.sub_le _ _).trans_lt (codes b).len.toNat_lt)

/-- The codes that are complete: their tables are there and their cells are their own. -/
structure Leaves (codes : CodeTable) (done : UInt8 → Prop) (addr : ℕ → Address) (table : DecodeTable bits) :
    Prop where
  paths : ∀ b, done b → ∀ i, bits*i < (codes b).len.toNat → ∃ t < table.size, addr t = (i,lead (codes b) (bits*i))
  leaves : ∀ b, done b → ∀ t x e, cell table t x = .ok e → EndsAt bits (codes b) (addr t) x →
    e = leafCell bits codes b (addr t)

def Owned (codes : CodeTable) (seen : UInt8 → Prop) (addr : ℕ → Address) (table : DecodeTable bits) : Prop :=
  ∀ t x e, cell table t x = .ok e → e.table = 0 → e = {} ∨ ∃ b, seen b ∧ EndsAt bits (codes b) (addr t) x

def Apart (codes : CodeTable) (done : UInt8 → Prop) (byte : UInt8) : Prop :=
  ∀ b, done b → ¬ Continues (codes b) (codes byte) ∧ ¬ Continues (codes byte) (codes b)

variable {seen done : UInt8 → Prop} {addr : ℕ → Address} {table : DecodeTable bits}

theorem nestedMono {more : UInt8 → Prop} (nested : Nested codes seen addr table) (sub : ∀ b, seen b → more b) :
    Nested codes more addr table :=
  ⟨nested.nonempty,nested.root,nested.apart,nested.links,nested.linked,fun u pos lt => by
    obtain ⟨b,hb,passes⟩ := nested.origin u pos lt
    exact ⟨b,sub b hb,passes⟩,nested.lens⟩

theorem ownedMono {more : UInt8 → Prop} (owned : Owned codes seen addr table) (sub : ∀ b, seen b → more b) :
    Owned codes more addr table := fun t x e found free =>
  (owned t x e found free).imp_right (fun ⟨b,hb,ends⟩ => ⟨b,sub b hb,ends⟩)

theorem tableNumber {e : DecodeElemT} (pos : 0 < e.table.toNat) : e.table ≠ 0 := by
  intro zero
  rw [zero] at pos
  exact absurd pos (lt_irrefl _)

theorem linkOf (nested : Nested codes seen addr table) {t u x : ℕ} (ht : t < table.size) (hu : u < table.size)
    (hx : x < 2^bits) (below : addr u = child bits (addr t) x) : ∃ e, cell table t x = .ok e ∧
      e.table.toNat = u := by
  have pos : 0 < u := by
    refine Nat.pos_of_ne_zero (fun zero => ?_)
    rw [zero,nested.root] at below
    simp [child] at below
  obtain ⟨s,y,e,found,number⟩ := nested.linked u pos hu
  obtain ⟨hs,hy⟩ := cellBounds found
  obtain ⟨_,_,address⟩ := nested.links s y e found (tableNumber (by omega))
  rw [number,below] at address
  obtain ⟨same,rfl⟩ := childInjective hx hy address
  cases nested.apart t s ht hs same
  exact ⟨e,found,number⟩

theorem endsUnlinked {byte : UInt8} (nested : Nested codes seen addr table) (apart : Apart codes done byte)
    (split : ∀ b, seen b → done b ∨ b = byte) {t x : ℕ} {e : DecodeElemT} (found : cell table t x = .ok e)
    (ends : EndsAt bits (codes byte) (addr t) x) : e.table = 0 := by
  by_contra linked
  obtain ⟨hu,lt,address⟩ := nested.links t x e found linked
  obtain ⟨b,hb,passes⟩ := nested.origin _ (by omega) hu
  rw [address] at passes
  rcases split b hb with earlier | rfl
  · exact (apart b earlier).2 (endsContinues ends passes)
  · have within := ends.within
    have above : bits*((addr t).1+1) < (codes b).len.toNat := passes.above
    omega

section Grow
variable {byte : UInt8} {t x : ℕ} {e : DecodeElemT} {table' : DecodeTable bits} {len : UInt8}

def grown (bits : ℕ) (addr : ℕ → Address) (size : ℕ) (t x : ℕ) : ℕ → Address :=
  Function.update addr size (child bits (addr t) x)

theorem grownNew (addr : ℕ → Address) (size t x : ℕ) : grown bits addr size t x size = child bits (addr t) x :=
  Function.update_self ..

theorem grownOld (addr : ℕ → Address) {size t x u : ℕ} (lt : u < size) : grown bits addr size t x u = addr u :=
  Function.update_of_ne lt.ne _ _

variable (nested : Nested codes seen addr table) (found : cell table t x = .ok e) (free : e.table = 0)
  (small : table.size < 2^16) (size : table'.size = table.size+1)
  (own : cell table' t x = .ok {e with len := len, table := UInt16.ofNat table.size})
  (fresh : ∀ y < 2^bits, cell table' table.size y = .ok {})
  (others : ∀ u y, u < table.size → ¬ (u = t ∧ y = x) → cell table' u y = cell table u y)
  (passes : PassesBy bits (codes byte) (child bits (addr t) x))
include nested found free

theorem noTableYet {u : ℕ} (hu : u < table.size) : addr u ≠ child bits (addr t) x := by
  intro address
  obtain ⟨ht,hx⟩ := cellBounds found
  obtain ⟨e',found',number⟩ := linkOf nested ht hu hx address
  cases Except.ok.inj (found.symm.trans found')
  rw [free] at number
  rw [← number,UInt16.toNat_zero,nested.root] at address
  simp [child] at address

theorem grownApart {s u : ℕ} (hs : s ≤ table.size) (hu : u ≤ table.size)
    (same : grown bits addr table.size t x s = grown bits addr table.size t x u) : s = u := by
  rcases hs.lt_or_eq with old | rfl
  · rcases hu.lt_or_eq with old' | rfl
    · rw [grownOld addr old,grownOld addr old'] at same
      exact nested.apart s u old old' same
    · rw [grownOld addr old,grownNew] at same
      exact absurd same (noTableYet nested found free old)
  · rcases hu.lt_or_eq with old' | rfl
    · rw [grownNew,grownOld addr old'] at same
      exact absurd same.symm (noTableYet nested found free old')
    · rfl

omit nested found free in
include size own fresh others in
theorem grownCells {s y : ℕ} {e' : DecodeElemT} (at_e : cell table' s y = .ok e') :
    (s = t ∧ y = x ∧ e' = {e with len := len, table := UInt16.ofNat table.size}) ∨
      (s < table.size ∧ ¬ (s = t ∧ y = x) ∧ cell table s y = .ok e') ∨ (s = table.size ∧ e' = {}) := by
  obtain ⟨hs,hy⟩ := cellBounds at_e
  rcases Nat.lt_or_ge s table.size with old | new
  · by_cases here : s = t ∧ y = x
    · obtain ⟨rfl,rfl⟩ := here
      exact .inl ⟨rfl,rfl,Except.ok.inj (at_e.symm.trans own)⟩
    · exact .inr (.inl ⟨old,here,by rw [← others s y old here]; exact at_e⟩)
  · obtain rfl : s = table.size := by omega
    exact .inr (.inr ⟨rfl,Except.ok.inj (at_e.symm.trans (fresh y hy))⟩)

omit found free in
include size own fresh others small in
theorem ownedGrow (owned : Owned codes seen addr table) :
    Owned codes seen (grown bits addr table.size t x) table' := by
  have nonempty := nested.nonempty
  intro s y e' at_e unlinked
  rcases grownCells size own fresh others at_e with ⟨_,_,rfl⟩ | ⟨old,_,before⟩ | ⟨_,blank⟩
  · have number : (UInt16.ofNat table.size).toNat = table.size := UInt16.toNat_ofNat_of_lt' small
    exact absurd unlinked (tableNumber (by simp only [number]; exact nonempty))
  · rw [grownOld addr old]
    exact owned s y e' before unlinked
  · exact .inl blank

include size own fresh others passes

theorem leavesGrow (apart : Apart codes done byte) (leaves : Leaves codes done addr table) :
    Leaves codes done (grown bits addr table.size t x) table' := by
  obtain ⟨ht,hx⟩ := cellBounds found
  refine ⟨?_,?_⟩
  · intro b hb i above
    obtain ⟨u,hu,address⟩ := leaves.paths b hb i above
    exact ⟨u,by omega,by rw [grownOld addr hu,address]⟩
  · intro b hb s y e' at_e ends
    obtain ⟨_,hy⟩ := cellBounds at_e
    rcases grownCells size own fresh others at_e with ⟨rfl,rfl,_⟩ | ⟨old,_,before⟩ | ⟨rfl,_⟩
    · rw [grownOld addr ht] at ends
      exact absurd (endsContinues ends passes) (apart b hb).1
    · rw [grownOld addr old] at ends ⊢
      exact leaves.leaves b hb s y e' before ends
    · -- the path of a complete code has all its tables already
      rw [grownNew] at ends
      have way := endsPasses ends hy
      obtain ⟨u,hu,address⟩ := leaves.paths b hb _ way.above
      have there : addr u = child bits (addr t) x := address.trans (Prod.ext rfl way.blocks)
      exact absurd there (noTableYet nested found free hu)

include small

theorem nestedGrow (mem : seen byte) (narrow : len.toNat ≤ bits) :
    Nested codes seen (grown bits addr table.size t x) table' := by
  obtain ⟨ht,hx⟩ := cellBounds found
  have number : (UInt16.ofNat table.size).toNat = table.size := UInt16.toNat_ofNat_of_lt' small
  have nonempty := nested.nonempty
  refine ⟨by omega,by rw [grownOld addr nonempty,nested.root],?_,?_,?_,?_,?_⟩
  · exact fun s u hs hu => grownApart nested found free (by omega) (by omega)
  · intro s y e' at_e linked
    rcases grownCells size own fresh others at_e with ⟨rfl,rfl,rfl⟩ | ⟨old,_,before⟩ | ⟨rfl,rfl⟩
    · simp only [number]
      exact ⟨by omega,ht,by rw [grownNew,grownOld addr ht]⟩
    · obtain ⟨inside,lt,address⟩ := nested.links s y e' before linked
      exact ⟨by omega,lt,by rw [grownOld addr inside,grownOld addr old,address]⟩
    · contradiction
  · intro u pos hu
    rcases Nat.lt_or_ge u table.size with old | new
    · obtain ⟨s,y,e',at_e,target⟩ := nested.linked u pos old
      have other : ¬ (s = t ∧ y = x) := by
        rintro ⟨rfl,rfl⟩
        cases Except.ok.inj (found.symm.trans at_e)
        rw [free,UInt16.toNat_zero] at target
        omega
      exact ⟨s,y,e',(others s y (cellBounds at_e).1 other).trans at_e,target⟩
    · exact ⟨t,x,_,own,by simp only [number]; omega⟩
  · intro u pos hu
    rcases Nat.lt_or_ge u table.size with old | new
    · rw [grownOld addr old]
      exact nested.origin u pos old
    · obtain rfl : u = table.size := by omega
      rw [grownNew]
      exact ⟨byte,mem,passes⟩
  · intro s y e' at_e
    rcases grownCells size own fresh others at_e with ⟨_,_,rfl⟩ | ⟨_,_,before⟩ | ⟨_,rfl⟩
    · exact narrow
    · exact nested.lens s y e' before
    · exact Nat.zero_le _

end Grow

section Fill
variable {byte : UInt8} {t : ℕ} {table' : DecodeTable bits} {len : UInt8} {inside : ℕ → Prop} [DecidablePred inside]
  (size : table'.size = table.size)
  (cells : ∀ u y e, cell table u y = .ok e → cell table' u y = .ok (if u = t ∧
    inside y then filled len byte e else e))
include size cells

theorem cellBefore {u y : ℕ} {e' : DecodeElemT} (at_e : cell table' u y = .ok e') :
    ∃ e, cell table u y = .ok e ∧ e' = if u = t ∧ inside y then filled len byte e else e := by
  obtain ⟨hu,hy⟩ := cellBounds at_e
  obtain ⟨e,found⟩ := cellExists (size ▸ hu) hy
  exact ⟨e,found,Except.ok.inj (at_e.symm.trans (cells u y e found))⟩

theorem nestedFill (nested : Nested codes seen addr table) (narrow : len.toNat ≤ bits) :
    Nested codes seen addr table' := by
  have kept : ∀ (u y : ℕ) (e : DecodeElemT), (if u = t ∧ inside y then filled len byte e else e).table =
    e.table := by
    intro u y e; split <;> rfl
  refine ⟨by rw [size]; exact nested.nonempty,nested.root,?_,?_,?_,?_,?_⟩
  · rw [size]; exact nested.apart
  · intro s y e' at_e linked
    obtain ⟨e,found,rfl⟩ := cellBefore size cells at_e
    rw [kept] at linked ⊢
    rw [size]
    exact nested.links s y e found linked
  · intro u pos hu
    obtain ⟨s,y,e,found,number⟩ := nested.linked u pos (by omega)
    exact ⟨s,y,_,cells s y e found,by rw [kept,number]⟩
  · rw [size]; exact nested.origin
  · intro s y e' at_e
    obtain ⟨e,found,rfl⟩ := cellBefore size cells at_e
    split
    · exact narrow
    · exact nested.lens s y e found

variable (ends : ∀ y, inside y ↔ EndsAt bits (codes byte) (addr t) y)
include ends

theorem ownedFill (mem : seen byte) (owned : Owned codes seen addr table) : Owned codes seen addr table' := by
  intro s y e' at_e unlinked
  obtain ⟨e,found,rfl⟩ := cellBefore size cells at_e
  by_cases here : s = t ∧ inside y
  · obtain ⟨rfl,own⟩ := here
    exact .inr ⟨byte,mem,(ends y).mp own⟩
  · rw [if_neg here] at unlinked ⊢
    exact owned s y e found unlinked

theorem leavesFill (apart : Apart codes done byte) (leaves : Leaves codes done addr table) :
    Leaves codes done addr table' := by
  refine ⟨by rw [size]; exact leaves.paths,?_⟩
  intro b hb s y e' at_e ends'
  obtain ⟨e,found,rfl⟩ := cellBefore size cells at_e
  rw [if_neg]
  · exact leaves.leaves b hb s y e found ends'
  · rintro ⟨rfl,here⟩
    have mine := (ends y).mp here
    rcases Nat.le_total (codes b).len.toNat (codes byte).len.toNat with le | le
    · exact (apart b hb).1 (endsTwice ends' mine le)
    · exact (apart b hb).2 (endsTwice mine ends' le)

end Fill

theorem blockCount {len : ℕ} (pos : 0 < bits) (coded : 0 < len) :
    0 < (len+bits-1)/bits ∧ bits*((len+bits-1)/bits-1) < len ∧ len ≤ bits*((len+bits-1)/bits) := by
  have high := Nat.div_add_mod (len+bits-1) bits
  have low := Nat.mod_lt (len+bits-1) pos
  have positive : 0 < (len+bits-1)/bits := Nat.div_pos (by omega) pos
  refine ⟨positive,?_,by omega⟩
  rw [Nat.mul_sub,Nat.mul_one]
  omega

theorem lastBlock {len i : ℕ} (pos : 0 < bits) (above : bits*i < len) (within : len ≤ bits*(i+1)) :
    (if len % bits ≠ 0 then len % bits else bits) = len-bits*i := by
  obtain ⟨r,rfl⟩ : ∃ r, len = bits*i+r := ⟨len-bits*i,by omega⟩
  rw [Nat.mul_add,Nat.mul_one] at within
  rw [Nat.mul_add_mod,Nat.add_sub_cancel_left]
  have le : r ≤ bits := by omega
  rcases le.lt_or_eq with less | rfl
  · rw [Nat.mod_eq_of_lt less,if_pos (by omega)]
  · rw [Nat.mod_self,if_neg (fun h => h rfl)]

def rest (c : CodeT) (n : ℕ) : ℕ := value c % 2^(c.len.toNat-n)

theorem restLead (c : CodeT) (n : ℕ) : value c = lead c n * 2^(c.len.toNat-n) + rest c n :=
  (Nat.div_add_mod' _ _).symm

theorem restRest (c : CodeT) {m n : ℕ} (le : m ≤ n) : rest c m % 2^(c.len.toNat-n) = rest c n :=
  Nat.mod_mod_of_dvd _ (Nat.pow_dvd_pow 2 (by omega))

theorem leadNext (c : CodeT) {i : ℕ} (above : bits*(i+1) ≤ c.len.toNat) :
    child bits (i,lead c (bits*i)) (rest c (bits*i) / 2^(c.len.toNat-bits*(i+1))) = (i+1,lead c (bits*(i+1))) := by
  rw [Nat.mul_add,Nat.mul_one] at above ⊢
  have split : 2^(c.len.toNat-bits*i) = 2^bits * 2^(c.len.toNat-(bits*i+bits)) := powSplit (by omega)
  have number : value c / 2^(c.len.toNat-(bits*i+bits)) =
      lead c (bits*i) * 2^bits + rest c (bits*i) / 2^(c.len.toNat-(bits*i+bits)) := by
    rw [restLead c (bits*i),split,← Nat.mul_assoc,divJoin]
  exact Prod.ext rfl number.symm

theorem lastEnds (c : CodeT) {i y : ℕ} (above : bits*i < c.len.toNat) (within : c.len.toNat ≤ bits*(i+1)) :
    y / 2^(bits-(c.len.toNat-bits*i)) = rest c (bits*i) ↔ EndsAt bits c (i,lead c (bits*i)) y := by
  have step : bits*(i+1) = bits*i+bits := by rw [Nat.mul_add,Nat.mul_one]
  have gap : bits*(i+1)-c.len.toNat = bits-(c.len.toNat-bits*i) := by omega
  have split : 2^bits = 2^(c.len.toNat-bits*i) * 2^(bits-(c.len.toNat-bits*i)) := powSplit (by omega)
  have number : (lead c (bits*i)*2^bits+y) / 2^(bits-(c.len.toNat-bits*i)) =
      lead c (bits*i)*2^(c.len.toNat-bits*i) + y / 2^(bits-(c.len.toNat-bits*i)) := by
    rw [split,← Nat.mul_assoc,divJoin]
  constructor
  · intro same
    refine ⟨above,within,?_⟩
    simp only [child,gap]
    rw [number,same,← restLead]
  · intro ends
    have cell := ends.cell
    simp only [child,gap] at cell
    rw [number] at cell
    have whole := restLead c (bits*i)
    omega

theorem endsAddress {c : CodeT} {a : Address} {i y : ℕ} (ends : EndsAt bits c a y) (hy : y < 2^bits)
    (above : bits*i < c.len.toNat) (within : c.len.toNat ≤ bits*(i+1)) : a = (i,lead c (bits*i)) := by
  have way := endsPasses ends hy
  have lower := way.above
  have upper := ends.within
  have level : a.1 = i := by
    by_contra other
    rcases Nat.lt_or_gt_of_ne other with less | more
    · have before : bits*(a.1+1) ≤ bits*i := Nat.mul_le_mul_left bits less
      omega
    · have behind : bits*(i+1) ≤ bits*a.1 := Nat.mul_le_mul_left bits more
      omega
  refine Prod.ext level ?_
  rw [← way.blocks,level]

theorem insertLast {byte len : UInt8} {i t r : ℕ} {data data' top : UInt64} {table : DecodeTable bits}
    (pos : 0 < bits)
    (above : bits*i < len.toNat) (within : len.toNat ≤ bits*(i+1)) (left : r = len.toNat-bits*i)
    (upper : shr64 data (64-bits) = .ok top) (shifted : shl64 data r = .ok data') :
    insertBlocks byte len (i+1) 1 data t table =
      fillLeaf t (~~~ UInt64.ofNat (1 <<< (bits-r) - 1)) (top &&& ~~~ UInt64.ofNat (1 <<< (bits-r) - 1))
        (UInt8.ofNat r) byte (2^bits+1) (top &&& ~~~ UInt64.ofNat (1 <<< (bits-r) - 1)) table := by
  have size := lastBlock pos above within
  rw [← left] at size
  unfold insertBlocks
  simp only [Nat.zero_add,Nat.add_sub_cancel,lt_irrefl,if_false,size,upper,shifted,okBind,if_true,insertBlocks]
  cases fillLeaf t (~~~ UInt64.ofNat (1 <<< (bits-r) - 1)) (top &&& ~~~ UInt64.ofNat (1 <<< (bits-r) - 1))
    (UInt8.ofNat r) byte (2^bits+1) (top &&& ~~~ UInt64.ofNat (1 <<< (bits-r) - 1)) table <;> rfl

theorem insertMore {byte len : UInt8} {blocks i left t : ℕ} {data data' top : UInt64} {table : DecodeTable bits}
    (count : i+(left+2) = blocks) (upper : shr64 data (64-bits) = .ok top) (shifted : shl64 data bits = .ok data') :
    insertBlocks byte len blocks (left+2) data t table = (do
      let (next,table) ← nest table t top.toNat (UInt8.ofNat bits)
      insertBlocks byte len blocks (left+1) data' next table) := by
  have all : top &&& ~~~ UInt64.ofNat (1 <<< (bits-bits) - 1) = top := by
    refine UInt64.toNat_inj.mp ?_
    rw [andHigh top (by omega),Nat.sub_self,Nat.pow_zero,Nat.div_one,Nat.mul_one]
  have index : blocks-(left+1+1) = i := by omega
  have more : i+1 < blocks := by omega
  rw [insertBlocks]
  simp only [index,if_pos more,upper,shifted,okBind,all,if_neg more.ne]

structure Inserted (codes : CodeTable) (seen : UInt8 → Prop) (byte : UInt8) (i room : ℕ) (addr : ℕ → Address)
    (table : DecodeTable bits) (addr' : ℕ → Address) (table' : DecodeTable bits) : Prop where
  nested : Nested codes seen addr' table'
  grows : table.size ≤ table'.size
  bounded : table'.size ≤ table.size + room
  kept : ∀ u < table.size, addr' u = addr u
  leaves : ∀ done, Apart codes done byte → (∀ b, seen b → done b ∨ b = byte) → Leaves codes done addr table →
    Leaves codes done addr' table' ∧
    (∀ j, i ≤ j → bits*j < (codes byte).len.toNat → ∃ u < table'.size, addr' u = (j,lead (codes byte) (bits*j))) ∧
    ∀ u x e, cell table' u x = .ok e → EndsAt bits (codes byte) (addr' u) x → e = leafCell bits codes byte (addr' u)

theorem leavesJoin {byte : UInt8} {more : UInt8 → Prop} (leaves : Leaves codes done addr table)
    (paths : ∀ i, bits*i < (codes byte).len.toNat → ∃ t < table.size, addr t = (i,lead (codes byte) (bits*i)))
    (own : ∀ t x e, cell table t x = .ok e → EndsAt bits (codes byte) (addr t) x →
      e = leafCell bits codes byte (addr t))
    (split : ∀ b, more b → done b ∨ b = byte) : Leaves codes more addr table := by
  refine ⟨fun b hb => ?_,fun b hb => ?_⟩
  · rcases split b hb with old | rfl
    · exact leaves.paths b old
    · exact paths
  · rcases split b hb with old | rfl
    · exact leaves.leaves b old
    · exact own

section Insert
variable {byte : UInt8} {i t : ℕ} {data : UInt64} (pos : 0 < bits) (narrow : bits ≤ 16)
  (nested : Nested codes seen addr table)
  (ht : t < table.size) (address : addr t = (i,lead (codes byte) (bits*i)))
  (aligned : data.toNat = rest (codes byte) (bits*i) * 2^(64-((codes byte).len.toNat-bits*i)))
include pos narrow nested ht address aligned

theorem insertLastSpec (mem : seen byte) (above : bits*i < (codes byte).len.toNat)
    (within : (codes byte).len.toNat ≤ bits*(i+1)) :
    ∃ table', insertBlocks byte (codes byte).len (i+1) 1 data t table = .ok table' ∧
      Inserted codes seen byte i 0 addr table addr table' ∧
        (Owned codes seen addr table → Owned codes seen addr table') := by
  obtain ⟨r,left⟩ : ∃ r, r = (codes byte).len.toNat-bits*i := ⟨_,rfl⟩
  have step : bits*(i+1) = bits*i+bits := by rw [Nat.mul_add,Nat.mul_one]
  rw [← left] at aligned
  have short : r ≤ bits := by omega
  have word : r ≤ 64 := by omega
  obtain ⟨top,upper,number⟩ := topShort word aligned pos (by omega) short
  have block : top &&& ~~~ UInt64.ofNat (1 <<< (bits-r) - 1) = top := by
    refine UInt64.toNat_inj.mp ?_
    rw [andHigh top (by omega),number,Nat.mul_div_cancel _ (Nat.two_pow_pos _)]
  have below : rest (codes byte) (bits*i) < 2^r := by rw [left]; exact Nat.mod_lt _ (Nat.two_pow_pos _)
  have split : 2^bits = 2^r * 2^(bits-r) := powSplit (by omega)
  have shifted : shl64 data r = .ok (UInt64.ofNat (data.toNat <<< r)) := if_pos (by omega)
  rw [insertLast pos above within left upper shifted,block]
  obtain ⟨table',ran,size,cells⟩ := fillSpec (UInt8.ofNat r) byte (Nat.sub_le bits r) (by omega)
    (by rw [number]; exact Nat.dvd_mul_left _ _)
    (by rw [number,split,← Nat.succ_mul]; exact Nat.mul_le_mul_right _ below) ht
  rw [number,Nat.mul_div_cancel _ (Nat.two_pow_pos _)] at cells
  have ends : ∀ y, y / 2^(bits-r) = rest (codes byte) (bits*i) ↔ EndsAt bits (codes byte) (addr t) y := by
    intro y
    rw [address,left]
    exact lastEnds (codes byte) above within
  have narrow' : (UInt8.ofNat r).toNat ≤ bits := by
    rw [UInt8.toNat_ofNat']; omega
  refine ⟨table',ran,⟨nestedFill size cells nested narrow',size.ge,size.le,fun _ _ => rfl,?_⟩,ownedFill size
    cells ends mem⟩
  intro done apart complete leaves
  refine ⟨leavesFill size cells ends apart leaves,?_,?_⟩
  · intro j le lower
    have same : j = i := by
      by_contra other
      have behind : i+1 ≤ j := by omega
      have beyond := Nat.mul_le_mul_left bits behind
      omega
    subst same
    exact ⟨t,by omega,address⟩
  · intro u y e' at_e here
    obtain ⟨e,found,rfl⟩ := cellBefore size cells at_e
    obtain ⟨hu,hy⟩ := cellBounds found
    have unlinked := endsUnlinked nested apart complete found here
    have last := endsAddress here hy above within
    have same : addr u = addr t := last.trans address.symm
    cases nested.apart u t hu ht same
    rw [if_pos ⟨rfl,(ends y).mpr here⟩]
    simp only [filled,leafCell,unlinked,address,left]

end Insert

theorem insertedStep {byte : UInt8} {i t left : ℕ} {addr₁ addr' : ℕ → Address} {table₁ table' : DecodeTable bits}
    (ht : t < table.size) (address : addr t = (i,lead (codes byte) (bits*i)))
    (grows : table.size ≤ table₁.size) (bounded : table₁.size ≤ table.size+1)
    (kept : ∀ u < table.size, addr₁ u = addr u)
    (leaves : ∀ done, Apart codes done byte → Leaves codes done addr table → Leaves codes done addr₁ table₁)
    (inserted : Inserted codes seen byte (i+1) left addr₁ table₁ addr' table') :
    Inserted codes seen byte i (left+1) addr table addr' table' := by
  have grows' := inserted.grows
  have bounded' := inserted.bounded
  refine ⟨inserted.nested,by omega,by omega,fun u hu => (inserted.kept u (by omega)).trans (kept u hu),?_⟩
  intro done apart complete before
  obtain ⟨after,paths,own⟩ := inserted.leaves done apart complete (leaves done apart before)
  refine ⟨after,fun j le lower => ?_,own⟩
  rcases le.lt_or_eq with less | rfl
  · exact paths j less lower
  · exact ⟨t,by omega,by rw [inserted.kept t (by omega),kept t ht,address]⟩

theorem insertBlocksSpec {byte : UInt8} {blocks : ℕ} (pos : 0 < bits) (narrow : bits ≤ 16) (mem : seen byte)
    (fits : (codes byte).len.toNat ≤ 64) (above : bits*(blocks-1) < (codes byte).len.toNat)
    (within : (codes byte).len.toNat ≤ bits*blocks) {left i t : ℕ} {data : UInt64} {addr : ℕ → Address}
    {table : DecodeTable bits} (count : i+(left+1) = blocks) (nested : Nested codes seen addr table)
    (ht : t < table.size) (address : addr t = (i,lead (codes byte) (bits*i)))
    (aligned : data.toNat = rest (codes byte) (bits*i) * 2^(64-((codes byte).len.toNat-bits*i)))
    (small : table.size + left ≤ 2^16) :
    ∃ table' addr', insertBlocks byte (codes byte).len blocks (left+1) data t table = .ok table' ∧
      Inserted codes seen byte i left addr table addr' table' ∧
        (Owned codes seen addr table → Owned codes seen addr' table') := by
  induction left generalizing i t data addr table with
  | zero =>
    obtain rfl : blocks = i+1 := by omega
    obtain ⟨table',ran,inserted⟩ := insertLastSpec pos narrow nested ht address aligned mem above within
    exact ⟨table',addr,ran,inserted⟩
  | succ left ih =>
    have before : i+1 ≤ blocks-1 := by omega
    have further : bits*(i+1) < (codes byte).len.toNat := lt_of_le_of_lt (Nat.mul_le_mul_left bits before) above
    have step : bits*(i+1) = bits*i+bits := by rw [Nat.mul_add,Nat.mul_one]
    have wide : bits < (codes byte).len.toNat-bits*i := by omega
    obtain ⟨top,upper,number⟩ := topFull (by omega) aligned pos wide.le
    have word : bits < 64 := by omega
    obtain ⟨data',shifted,aligned'⟩ := dataShifted (by omega) aligned word wide.le
    rw [Nat.sub_sub,← step] at number aligned'
    rw [restRest (codes byte) (Nat.mul_le_mul_left bits (Nat.le_succ i))] at aligned'
    rw [insertMore count upper shifted]
    have place : child bits (addr t) top.toNat = (i+1,lead (codes byte) (bits*(i+1))) := by
      rw [address,number]
      exact leadNext (codes byte) further.le
    have passes : PassesBy bits (codes byte) (child bits (addr t) top.toNat) := by
      rw [place]
      exact ⟨further,rfl⟩
    have inside : top.toNat < 2^bits := by
      have below : rest (codes byte) (bits*i) < 2^((codes byte).len.toNat-bits*i) :=
        Nat.mod_lt _ (Nat.two_pow_pos _)
      have split : (codes byte).len.toNat-bits*i = bits+((codes byte).len.toNat-bits*(i+1)) := by omega
      rwa [number,Nat.div_lt_iff_lt_mul (Nat.two_pow_pos _),← Nat.pow_add,← split]
    have narrow' : (UInt8.ofNat bits).toNat ≤ bits := by
      rw [UInt8.toNat_ofNat']; omega
    have onward : i+1+(left+1) = blocks := by omega
    obtain ⟨e,found⟩ := cellExists ht inside
    rcases nestSpec (UInt8.ofNat bits) found (by omega) with
      ⟨linked,follow⟩ | ⟨free,table₁,ran,size,own,fresh,others⟩
    · obtain ⟨hu,_,below⟩ := nested.links t _ e found linked
      obtain ⟨table',addr',ran,inserted,owned⟩ := ih onward nested hu (below.trans place) aligned'
        (by omega)
      refine ⟨table',addr',bindOk.mpr ⟨_,follow hu,ran⟩,?_,owned⟩
      exact insertedStep ht address (le_refl _) (Nat.le_succ _) (fun _ _ => rfl) (fun _ _ leaves => leaves) inserted
    · have nested₁ := nestedGrow nested found free (by omega) size own fresh others passes mem narrow'
      obtain ⟨table',addr',ran',inserted,owned⟩ := ih onward nested₁ (by omega)
        ((grownNew addr _ t _).trans place) aligned' (by omega)
      refine ⟨table',addr',bindOk.mpr ⟨_,ran,ran'⟩,?_,fun before =>
        owned (ownedGrow nested (by omega) size own fresh others before)⟩
      refine insertedStep ht address (by omega) size.le (fun u hu => grownOld addr hu) ?_ inserted
      exact fun done apart leaves => leavesGrow nested found free size own fresh others passes apart leaves

theorem insertCodeSpec {byte : UInt8} (pos : 0 < bits) (narrow : bits ≤ 16) (coded : Coded codes byte)
    (mem : seen byte)
    (fits : (codes byte).len.toNat ≤ 64) (nested : Nested codes seen addr table) (small : table.size + 64 ≤ 2^16) :
    ∃ table' addr', insertCode codes table byte = .ok table' ∧
      Inserted codes seen byte 0 64 addr table addr' table' ∧
      (Owned codes seen addr table → Owned codes seen addr' table') := by
  obtain ⟨data,shifted,aligned⟩ := leftAlignSpec (codedPos coded) fits
  obtain ⟨positive,above,within⟩ := blockCount pos (codedPos coded)
  have few : ((codes byte).len.toNat+bits-1)/bits ≤ 64 := by
    rw [Nat.div_le_iff_le_mul_add_pred pos]
    have := Nat.mul_le_mul pos (le_refl 64)
    omega
  obtain ⟨left,count⟩ : ∃ left, ((codes byte).len.toNat+bits-1)/bits = left+1 :=
    ⟨_,(Nat.sub_add_cancel positive).symm⟩
  have address : addr 0 = (0,lead (codes byte) (bits*0)) := by rw [nested.root,Nat.mul_zero,leadZero]
  have all : rest (codes byte) (bits*0) = value (codes byte) := by
    rw [rest,Nat.mul_zero,Nat.sub_zero,Nat.mod_eq_of_lt (valueLt _)]
  have start : 0+(left+1) = ((codes byte).len.toNat+bits-1)/bits := by rw [count,Nat.zero_add]
  obtain ⟨table',addr',ran,inserted,owned⟩ := insertBlocksSpec pos narrow mem fits above within start
    nested nested.nonempty address (by rw [all,Nat.mul_zero,Nat.sub_zero]; exact aligned) (by omega)
  refine ⟨table',addr',?_,⟨inserted.nested,inserted.grows,inserted.bounded.trans (by omega),inserted.kept,
    inserted.leaves⟩,owned⟩
  have nonzero : ¬ (codes byte).len = 0 := coded
  simp only [insertCode,if_neg nonzero,shifted,okBind,count]
  rw [count] at ran
  exact ran

def PrefixFree (codes : CodeTable) : Prop :=
  ∀ b c, b ≠ c → Coded codes b → Coded codes c → ¬ Continues (codes b) (codes c)

theorem insertCodesSpec (pos : 0 < bits) (narrow : bits ≤ 16) (fits : ∀ b, (codes b).len.toNat ≤ 64)
    {bytes before : List UInt8} {addr : ℕ → Address} {table : DecodeTable bits} (distinct : (before ++ bytes).Nodup)
    (nested : Nested codes (fun b => b ∈ before ∧ Coded codes b) addr table)
    (small : table.size + 64*bytes.length ≤ 2^16) :
    ∃ table' addr', bytes.foldlM (insertCode codes) table = .ok table' ∧
      table'.size ≤ table.size + 64*bytes.length ∧
      Nested codes (fun b => b ∈ before ++ bytes ∧ Coded codes b) addr' table' ∧
      (Owned codes (fun b => b ∈ before ∧ Coded codes b) addr table →
        Owned codes (fun b => b ∈ before ++ bytes ∧ Coded codes b) addr' table') ∧
      (PrefixFree codes → Leaves codes (fun b => b ∈ before ∧ Coded codes b) addr table →
        Leaves codes (fun b => b ∈ before ++ bytes ∧ Coded codes b) addr' table') := by
  induction bytes generalizing before addr table with
  | nil => exact ⟨table,addr,rfl,Nat.le_add_right _ _,by simpa using nested,by simp,by simp⟩
  | cons byte bytes ih =>
    rw [List.length_cons] at small ⊢
    rw [List.append_cons] at distinct ⊢
    have new : byte ∉ before := by
      have front := (List.nodup_append.mp distinct).1
      exact fun old => (List.nodup_append.mp front).2.2 byte old byte (by simp) rfl
    simp only [List.foldlM_cons]
    by_cases coded : Coded codes byte
    · have grown : ∀ b, b ∈ before ∧ Coded codes b → b ∈ before ++ [byte] ∧ Coded codes b :=
        fun b h => ⟨List.mem_append_left _ h.1,h.2⟩
      obtain ⟨table₁,addr₁,ran,inserted,owned⟩ := insertCodeSpec pos narrow coded ⟨by simp,coded⟩ (fits byte)
        (nestedMono nested grown) (by omega)
      have bounded := inserted.bounded
      have split : ∀ b, b ∈ before ++ [byte] ∧ Coded codes b → (b ∈ before ∧ Coded codes b) ∨ b = byte := fun b h =>
        (List.mem_append.mp h.1).imp (fun old => ⟨old,h.2⟩) List.mem_singleton.mp
      obtain ⟨table',addr',ran',bounded',nested',owned',leaves'⟩ := ih distinct inserted.nested (by omega)
      refine ⟨table',addr',bindOk.mpr ⟨table₁,ran,ran'⟩,
        by omega,nested',fun before => owned' (owned (ownedMono before grown)),
        fun free leaves => leaves' free ?_⟩
      have apart : Apart codes (fun b => b ∈ before ∧ Coded codes b) byte := fun b hb =>
        have ne : b ≠ byte := fun same => new (same ▸ hb.1)
        ⟨free b byte ne hb.2 coded,free byte b ne.symm coded hb.2⟩
      obtain ⟨kept,paths,own⟩ := inserted.leaves _ apart split leaves
      exact leavesJoin kept (fun i => paths i (Nat.zero_le i)) own split
    · have same : ∀ b, b ∈ before ++ [byte] ∧ Coded codes b ↔ b ∈ before ∧ Coded codes b := by
        intro b
        refine ⟨fun h => ⟨?_,h.2⟩,fun h => ⟨List.mem_append_left _ h.1,h.2⟩⟩
        rcases List.mem_append.mp h.1 with old | last
        · exact old
        · cases List.mem_singleton.mp last
          exact absurd h.2 coded
      have skipped : insertCode codes table byte = .ok table := if_pos (not_not.mp coded)
      obtain ⟨table',addr',ran',bounded',nested',owned',leaves'⟩ :=
        ih distinct (nestedMono nested (fun b => (same b).mpr)) (by omega)
      refine ⟨table',addr',bindOk.mpr ⟨table,skipped,ran'⟩,by omega,nested',
        fun before => owned' (ownedMono before (fun b => (same b).mpr)),fun free leaves => leaves' free ?_⟩
      exact ⟨fun b hb => leaves.paths b ((same b).mp hb),fun b hb => leaves.leaves b ((same b).mp hb)⟩

theorem buildSpec (pos : 0 < bits) (narrow : bits ≤ 16) (fits : ∀ b, (codes b).len.toNat ≤ 64) :
    ∃ table addr, buildDecodeTable bits codes = .ok table ∧ table.size < 2^16 ∧
      Nested codes (Coded codes) addr table ∧
      Owned codes (Coded codes) addr table ∧ (PrefixFree codes → Leaves codes (Coded codes) addr table) := by
  have root : (emplaceBack (#[] : DecodeTable bits)).size = 1 := rfl
  have blank : ∀ t x e, cell (emplaceBack (#[] : DecodeTable bits)) t x = .ok e → e = {} := by
    intro t x e found
    obtain ⟨ht,hx⟩ := cellBounds found
    rw [root] at ht
    rw [cellGrown,if_pos ⟨by simp; omega,hx⟩] at found
    exact (Except.ok.inj found).symm
  have start : Nested codes (fun b => b ∈ ([] : List UInt8) ∧ Coded codes b) (fun _ => (0,0))
      (emplaceBack (#[] : DecodeTable bits)) := by
    refine ⟨by omega,rfl,fun t u ht hu _ => by omega,fun t x e found linked => ?_,fun u u_pos hu => by omega,
      fun u u_pos hu => by omega,fun t x e found => ?_⟩
    · rw [blank t x e found] at linked
      contradiction
    · rw [blank t x e found]
      exact Nat.zero_le _
  have distinct : ([] ++ allBytes).Nodup := allBytesNodup
  obtain ⟨table,addr,ran,bounded,nested,owned,leaves⟩ :=
    insertCodesSpec pos narrow fits distinct start (by rw [root,allBytesLength]; norm_num)
  have all : ∀ b, b ∈ [] ++ allBytes ∧ Coded codes b ↔ Coded codes b :=
    fun b => ⟨And.right,fun h => ⟨allBytesMem b,h⟩⟩
  rw [root,allBytesLength] at bounded
  refine ⟨table,addr,ran,by omega,nestedMono nested (fun b => (all b).mp),
    ownedMono (owned (fun t x e found _ => .inl (blank t x e found))) (fun b => (all b).mp),fun free => ?_⟩
  have complete := leaves free ⟨fun b hb => absurd hb.1 (by simp),fun b hb => absurd hb.1 (by simp)⟩
  exact ⟨fun b hb => complete.paths b ((all b).mpr hb),fun b hb => complete.leaves b ((all b).mpr hb)⟩

end Tree
end HuffmanArchiver.DecodeTree
