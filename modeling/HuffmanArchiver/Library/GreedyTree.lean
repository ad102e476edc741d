import Mathlib.Algebra.BigOperators.Group.Multiset.Basic
import Mathlib.Algebra.Order.BigOperators.Group.Multiset
import Mathlib.Data.Multiset.Lattice
import Mathlib.Order.Lattice.Nat
import Mathlib.Algebra.BigOperators.Ring.Multiset
import Mathlib.Data.Nat.Fib.Basic
import Mathlib.Tactic.Ring
import Mathlib.Tactic.Linarith

/-! Binary trees over weighted symbols and the greedy merging of a forest, in which each step joins
two trees that precede all others. Lengths compete through Kraft's inequality alone, so the
bounds hold against every prefix code. -/
namespace HuffmanArchiver.Library.GreedyTree

inductive BinTree (ι : Type) where
  | leaf (symbol : ι)
  | node (left right : BinTree ι)

namespace BinTree
variable {ι : Type} (f : ι → ℕ)

def weight : BinTree ι → ℕ
  | leaf i => f i
  | node l r => weight l + weight r

/-- The sum of the weights of the inner nodes. -/
def cost : BinTree ι → ℕ
  | leaf _ => 0
  | node l r => cost l + cost r + (weight f l + weight f r)

def height : BinTree ι → ℕ
  | leaf _ => 0
  | node l r => max (height l) (height r) + 1

/-- The leaves from left to right with their depths, the root being at depth `d`. -/
def depths : (d : ℕ) → BinTree ι → List (ι × ℕ)
  | d, leaf i => [(i,d)]
  | d, node l r => depths (d+1) l ++ depths (d+1) r

def leaves (t : BinTree ι) : List ι := (depths 0 t).map Prod.fst

theorem depthsLeaves (d e : ℕ) (t : BinTree ι) : (depths d t).map Prod.fst = (depths e t).map Prod.fst := by
  induction t generalizing d e with
  | leaf i => rfl
  | node l r hl hr =>
    simp only [depths,List.map_append]
    rw [hl (d+1) (e+1),hr (d+1) (e+1)]

@[simp] theorem leavesLeaf (i : ι) : leaves (leaf i) = [i] := rfl

@[simp] theorem leavesNode (l r : BinTree ι) : leaves (node l r) = leaves l ++ leaves r := by
  simp only [leaves,depths,List.map_append]
  rw [depthsLeaves 1 0 l,depthsLeaves 1 0 r]

theorem leavesPos (t : BinTree ι) : 0 < (leaves t).length := by
  induction t with
  | leaf i => simp
  | node l r hl hr => simp; omega

theorem heightLeaves (t : BinTree ι) : height t < (leaves t).length := by
  induction t with
  | leaf i => simp [height]
  | node l r hl hr =>
    have pl := leavesPos l
    have pr := leavesPos r
    simp only [height,leavesNode,List.length_append]
    omega

theorem depthBounds {d : ℕ} {t : BinTree ι} {p : ι × ℕ} (mem : p ∈ depths d t) :
    d ≤ p.2 ∧ p.2 ≤ d + height t := by
  induction t generalizing d with
  | leaf i => simp [depths] at mem; subst p; simp
  | node l r hl hr =>
    simp only [depths,List.mem_append] at mem
    simp only [height]
    rcases mem with left | right
    · have := hl left; omega
    · have := hr right; omega

theorem deepestLeaf (d : ℕ) (t : BinTree ι) : ∃ p ∈ depths d t, p.2 = d + height t := by
  induction t generalizing d with
  | leaf i => exact ⟨(i,d),by simp [depths],rfl⟩
  | node l r hl hr =>
    obtain ⟨p,hp,pd⟩ := hl (d+1)
    obtain ⟨q,hq,qd⟩ := hr (d+1)
    simp only [depths,height,List.mem_append]
    rcases Nat.le_total (height l) (height r) with h | h
    · exact ⟨q,Or.inr hq,by omega⟩
    · exact ⟨p,Or.inl hp,by omega⟩

theorem costDepths (d : ℕ) (t : BinTree ι) :
    ((depths d t).map (fun p => f p.1 * p.2)).sum = cost f t + d * weight f t := by
  induction t generalizing d with
  | leaf i => simp [depths,cost,weight,Nat.mul_comm]
  | node l r hl hr =>
    simp only [depths,List.map_append,List.sum_append,hl,hr,cost,weight]
    ring

theorem kraftDepths {N d : ℕ} (t : BinTree ι) (fits : d + height t ≤ N) :
    ((depths d t).map (fun p => 2^(N-p.2))).sum = 2^(N-d) := by
  induction t generalizing d with
  | leaf i => simp [depths]
  | node l r hl hr =>
    simp only [height] at fits
    simp only [depths,List.map_append,List.sum_append]
    rw [hl (by omega),hr (by omega),← Nat.two_mul,← Nat.pow_succ']
    congr 1; omega

end BinTree

/-- Kraft's inequality for lengths of at most `N`, in units of `2^-N`. -/
structure KraftFits (N : ℕ) (lengths : Multiset ℕ) : Prop where
  bounded : ∀ l ∈ lengths, l ≤ N
  total : (lengths.map (fun l => 2^(N-l))).sum ≤ 2^N

section Lengths
variable {β : Type} (w h : β → ℕ)

def Precedes (x y : β) : Prop := w x < w y ∨ (w x = w y ∧ h y ≤ h x)

def total (M : Multiset (β × ℕ)) : ℕ := (M.map (fun p => w p.1 * p.2)).sum

def reach (M : Multiset (β × ℕ)) : ℕ := (M.map (fun p => p.2 + h p.1)).sup

variable {w h}

@[simp] theorem totalCons (p : β × ℕ) (M) : total w (p ::ₘ M) = w p.1 * p.2 + total w M := by
  simp [total]

@[simp] theorem reachCons (p : β × ℕ) (M) : reach h (p ::ₘ M) = max (p.2 + h p.1) (reach h M) := by
  simp [reach]

theorem reachMember {p : β × ℕ} {M} (mem : p ∈ M) : p.2 + h p.1 ≤ reach h M :=
  Multiset.le_sup (Multiset.mem_map.mpr ⟨p,mem,rfl⟩)

theorem precedesWeight {x y : β} (prec : Precedes w h x y) : w x ≤ w y := by
  rcases prec with less | same
  · exact less.le
  · exact same.1.le

/-- How one assignment of lengths compares with the one it replaces: it is not dearer, and when it
is not cheaper either it reaches at least as deep. -/
structure Improves (w h : β → ℕ) (better worse : Multiset (β × ℕ)) : Prop where
  cheaper : total w better ≤ total w worse
  deeper : total w worse ≤ total w better → reach h worse ≤ reach h better

theorem improvesRefl (M : Multiset (β × ℕ)) : Improves w h M M := ⟨le_refl _,fun _ => le_refl _⟩

theorem improvesTrans {A B C : Multiset (β × ℕ)} (ab : Improves w h A B) (bc : Improves w h B C) :
    Improves w h A C :=
  ⟨ab.cheaper.trans bc.cheaper,fun le =>
    (bc.deeper (le.trans ab.cheaper)).trans (ab.deeper (bc.cheaper.trans le))⟩

theorem improvesCons {A B : Multiset (β × ℕ)} (p : β × ℕ) (ab : Improves w h A B) :
    Improves w h (p ::ₘ A) (p ::ₘ B) := by
  refine ⟨by simpa using ab.cheaper,?_⟩
  intro le
  have inner := ab.deeper (by simpa using le)
  simp only [reachCons]
  omega

theorem swapImproves {x y : β} {lx ly : ℕ} (R : Multiset (β × ℕ)) (prec : Precedes w h x y) (le : lx ≤ ly) :
    Improves w h ((x,ly) ::ₘ (y,lx) ::ₘ R) ((x,lx) ::ₘ (y,ly) ::ₘ R) := by
  obtain ⟨d,rfl⟩ := Nat.exists_eq_add_of_le le
  have weights := precedesWeight prec
  obtain ⟨e,he⟩ := Nat.exists_eq_add_of_le weights
  refine ⟨?_,?_⟩
  · simp only [totalCons,he]
    nlinarith [Nat.zero_le (e*d)]
  · intro back
    simp only [totalCons,he] at back
    have none_gained : e*d = 0 := by nlinarith [Nat.zero_le (e*d)]
    simp only [reachCons]
    rcases Nat.mul_eq_zero.mp none_gained with zero | zero
    · have tall : h y ≤ h x := by
        rcases prec with less | same
        · omega
        · exact same.2
      omega
    · subst zero; omega

theorem shortenImproves {x : β} {l k : ℕ} (R : Multiset (β × ℕ)) (positive : 0 < w x) (lt : k ≤ l) :
    Improves w h ((x,k) ::ₘ R) ((x,l) ::ₘ R) := by
  obtain ⟨d,rfl⟩ := Nat.exists_eq_add_of_le lt
  refine ⟨by simp [Nat.mul_add],?_⟩
  intro back
  simp only [totalCons,Nat.mul_add] at back
  have zero : w x * d = 0 := by omega
  rcases Nat.mul_eq_zero.mp zero with no | none
  · omega
  · subst none; exact le_refl _

theorem longest {M : Multiset (β × ℕ)} (some_member : M ≠ 0) : ∃ p ∈ M, ∀ q ∈ M, q.2 ≤ p.2 := by
  induction M using Multiset.induction with
  | empty => contradiction
  | cons p M ih =>
    by_cases empty : M = 0
    · subst empty; exact ⟨p,by simp,by simp⟩
    · obtain ⟨q,hq,max⟩ := ih empty
      rcases Nat.le_total p.2 q.2 with le | le
      · refine ⟨q,Multiset.mem_cons_of_mem hq,?_⟩
        intro r hr
        rcases Multiset.mem_cons.mp hr with rfl | inside
        · exact le
        · exact max r inside
      · refine ⟨p,Multiset.mem_cons_self _ _,?_⟩
        intro r hr
        rcases Multiset.mem_cons.mp hr with rfl | inside
        · exact le_refl _
        · exact (max r inside).trans le

theorem takeEntry {M : Multiset (β × ℕ)} {x : β} {s : Multiset β} (h : M.map Prod.fst = x ::ₘ s) :
    ∃ l R, M = (x,l) ::ₘ R ∧ R.map Prod.fst = s := by
  obtain ⟨p,mem,rfl⟩ := Multiset.mem_map.mp (by rw [h]; exact Multiset.mem_cons_self x s)
  obtain ⟨R,rfl⟩ := Multiset.exists_cons_of_mem mem
  refine ⟨p.2,R,rfl,?_⟩
  rw [Multiset.map_cons] at h
  exact (Multiset.cons_inj_right _).mp h

theorem raise {x : β} (l : ℕ) {R : Multiset (β × ℕ)} (prec : ∀ c ∈ R.map Prod.fst, Precedes w h x c) :
    ∃ top R', R'.map Prod.fst = R.map Prod.fst ∧
      top ::ₘ R'.map Prod.snd = l ::ₘ R.map Prod.snd ∧
      (∀ q ∈ R', q.2 ≤ top) ∧ Improves w h ((x,top) ::ₘ R') ((x,l) ::ₘ R) := by
  obtain ⟨⟨c,lc⟩,mem,max⟩ := longest (M := (x,l) ::ₘ R) (by simp)
  rcases Nat.le_total lc l with low | high
  · exact ⟨l,R,rfl,rfl,fun q hq => (max q (Multiset.mem_cons_of_mem hq)).trans low,improvesRefl _⟩
  · rcases Multiset.mem_cons.mp mem with same | inside
    · cases same
      exact ⟨l,R,rfl,rfl,fun q hq => max q (Multiset.mem_cons_of_mem hq),improvesRefl _⟩
    · obtain ⟨R0,rfl⟩ := Multiset.exists_cons_of_mem inside
      refine ⟨lc,(c,l) ::ₘ R0,by simp,?_,?_,?_⟩
      · simp only [Multiset.map_cons]; exact Multiset.cons_swap _ _ _
      · intro q hq
        rcases Multiset.mem_cons.mp hq with rfl | rest
        · exact high
        · exact max q (by simp [rest])
      · exact swapImproves R0 (prec c (by simp)) high

theorem kraftShorten {N k l : ℕ} {rest : Multiset ℕ} (fits : KraftFits N (l ::ₘ k ::ₘ rest)) (le : k ≤ l)
    (below : ∀ m ∈ rest, m ≤ k) : KraftFits N (k ::ₘ k ::ₘ rest) := by
  have kN : k ≤ N := fits.bounded k (by simp)
  refine ⟨?_,?_⟩
  · intro m hm
    apply fits.bounded
    simp only [Multiset.mem_cons] at hm ⊢
    tauto
  · have total := fits.total
    simp only [Multiset.map_cons,Multiset.sum_cons] at total ⊢
    rcases Nat.eq_or_lt_of_le le with same | less
    · rw [same] at total ⊢; exact total
    · -- everything but the longest length is a multiple of 2^(N-k), so the slack is too
      obtain ⟨q,hq⟩ : 2^(N-k) ∣ (rest.map (fun m => 2^(N-m))).sum := by
        apply Multiset.dvd_sum
        intro v hv
        obtain ⟨m,hm,rfl⟩ := Multiset.mem_map.mp hv
        exact Nat.pow_dvd_pow 2 (by have := below m hm; omega)
      obtain ⟨r,hr⟩ : 2^(N-k) ∣ 2^N := Nat.pow_dvd_pow 2 (by omega)
      have positive : 0 < 2^(N-l) := Nat.two_pow_pos _
      rw [hq,hr] at total ⊢
      have gap : 2^(N-k) * (1+q) < 2^(N-k) * r := by rw [Nat.mul_add]; omega
      have room : 1+q+1 ≤ r := Nat.lt_of_mul_lt_mul_left gap
      calc 2^(N-k) + (2^(N-k) + 2^(N-k)*q) = 2^(N-k)*(1+q+1) := by ring
        _ ≤ 2^(N-k)*r := Nat.mul_le_mul_left _ room

theorem kraftPair {N k : ℕ} {rest : Multiset ℕ} (fits : KraftFits N (k ::ₘ k ::ₘ rest)) :
    0 < k ∧ KraftFits N ((k-1) ::ₘ rest) := by
  have kN : k ≤ N := fits.bounded k (by simp)
  have total := fits.total
  simp only [Multiset.map_cons,Multiset.sum_cons] at total
  have pos : 0 < k := by
    by_contra zero
    have full := Nat.two_pow_pos N
    rw [show k = 0 by omega,Nat.sub_zero] at total
    omega
  refine ⟨pos,?_,?_⟩
  · intro m hm
    rcases Multiset.mem_cons.mp hm with rfl | rest
    · omega
    · exact fits.bounded m (by simp [rest])
  · simp only [Multiset.map_cons,Multiset.sum_cons]
    rw [show N-(k-1) = (N-k)+1 by omega,Nat.pow_succ]
    omega

theorem pairLongest {N lx ly : ℕ} {x y : β} {R : Multiset (β × ℕ)} (positive : 0 < w x)
    (prec : ∀ c ∈ R.map Prod.fst, Precedes w h y c)
    (fits : KraftFits N (lx ::ₘ ly ::ₘ R.map Prod.snd)) (max : ∀ m ∈ ly ::ₘ R.map Prod.snd, m ≤ lx) :
    ∃ k R', R'.map Prod.fst = R.map Prod.fst ∧ KraftFits N (k ::ₘ k ::ₘ R'.map Prod.snd) ∧
      Improves w h ((x,k) ::ₘ (y,k) ::ₘ R') ((x,lx) ::ₘ (y,ly) ::ₘ R) := by
  obtain ⟨k,R',names,lengths,top,better⟩ := raise ly prec
  have le : k ≤ lx := max k (by rw [← lengths]; simp)
  refine ⟨k,R',names,?_,?_⟩
  · rw [← lengths] at fits
    refine kraftShorten fits le ?_
    intro m hm
    obtain ⟨q,hq,rfl⟩ := Multiset.mem_map.mp hm
    exact top q hq
  · exact improvesTrans (shortenImproves _ positive le) (improvesCons (x,lx) better)

theorem exchange {N : ℕ} {x y : β} {s : Multiset β} {M : Multiset (β × ℕ)}
    (names : M.map Prod.fst = x ::ₘ y ::ₘ s) (px : 0 < w x) (py : 0 < w y)
    (prec : ∀ c ∈ s, Precedes w h x c ∧ Precedes w h y c) (fits : KraftFits N (M.map Prod.snd)) :
    ∃ k R, R.map Prod.fst = s ∧ KraftFits N (k ::ₘ k ::ₘ R.map Prod.snd) ∧
      Improves w h ((x,k) ::ₘ (y,k) ::ₘ R) M := by
  obtain ⟨l0,M1,rfl,names1⟩ := takeEntry names
  obtain ⟨ly,R0,rfl,names2⟩ := takeEntry names1
  subst names2
  obtain ⟨lx,R,namesR,lengths,top,better⟩ := raise l0 (fun c hc => (prec c hc).1)
  have start : Improves w h ((x,lx) ::ₘ (y,ly) ::ₘ R) ((x,l0) ::ₘ (y,ly) ::ₘ R0) := by
    rw [Multiset.cons_swap (x,lx),Multiset.cons_swap (x,l0)]
    exact improvesCons (y,ly) better
  have fits' : KraftFits N (lx ::ₘ ly ::ₘ R.map Prod.snd) := by
    rw [Multiset.cons_swap,lengths,Multiset.cons_swap]; simpa using fits
  have topLength : ∀ m ∈ R.map Prod.snd, m ≤ lx := by
    intro m hm
    obtain ⟨q,hq,rfl⟩ := Multiset.mem_map.mp hm
    exact top q hq
  rcases Nat.le_total ly lx with le | le
  · obtain ⟨k,R',names',kraft,improves⟩ := pairLongest px
      (fun c hc => (prec c (by rwa [← namesR])).2) fits' (by
        intro m hm
        rcases Multiset.mem_cons.mp hm with rfl | inside
        · exact le
        · exact topLength m inside)
    exact ⟨k,R',names'.trans namesR,kraft,improvesTrans improves start⟩
  · obtain ⟨k,R',names',kraft,improves⟩ := pairLongest py
      (fun c hc => (prec c (by rwa [← namesR])).1) (by rw [Multiset.cons_swap]; exact fits') (by
        intro m hm
        rcases Multiset.mem_cons.mp hm with rfl | inside
        · exact le
        · exact (topLength m inside).trans le)
    refine ⟨k,R',names'.trans namesR,kraft,?_⟩
    rw [Multiset.cons_swap]
    exact improvesTrans improves (by rw [Multiset.cons_swap]; exact start)

end Lengths

/-- Merging a forest down to one tree; every step takes two trees that precede all the others. -/
inductive Greedy {ι : Type} (f : ι → ℕ) (h : BinTree ι → ℕ) : Multiset (BinTree ι) → BinTree ι → Prop where
  | done (t : BinTree ι) : Greedy f h {t} t
  | merge {x y : BinTree ι} {s : Multiset (BinTree ι)} {t : BinTree ι}
      (least : ∀ c ∈ s, Precedes (BinTree.weight f) h x c ∧ Precedes (BinTree.weight f) h y c)
      (rest : Greedy f h (.node x y ::ₘ s) t) : Greedy f h (x ::ₘ y ::ₘ s) t

section Greedy
variable {ι : Type} {f : ι → ℕ}

theorem leafPositive {s : Multiset ι} (h : ∀ i ∈ s, 0 < f i) :
    ∀ c ∈ s.map BinTree.leaf, 0 < BinTree.weight f c := by
  intro c hc
  obtain ⟨i,hi,rfl⟩ := Multiset.mem_map.mp hc
  exact h i hi

def forestCost (f : ι → ℕ) (s : Multiset (BinTree ι)) : ℕ := (s.map (BinTree.cost f)).sum

theorem mergedLengths {N k : ℕ} {x y : BinTree ι} {h : BinTree ι → ℕ} {R M : Multiset (BinTree ι × ℕ)}
    (fits : KraftFits N (k ::ₘ k ::ₘ R.map Prod.snd))
    (improves : Improves (BinTree.weight f) h ((x,k) ::ₘ (y,k) ::ₘ R) M) :
    KraftFits N (((.node x y,k-1) ::ₘ R).map Prod.snd) ∧
      forestCost f (.node x y ::ₘ R.map Prod.fst) + total (BinTree.weight f) ((.node x y,k-1) ::ₘ R) =
        forestCost f (x ::ₘ y ::ₘ R.map Prod.fst) + total (BinTree.weight f) ((x,k) ::ₘ (y,k) ::ₘ R) := by
  obtain ⟨pos,kraft⟩ := kraftPair fits
  obtain ⟨j,rfl⟩ := Nat.exists_eq_add_of_lt pos
  refine ⟨by simpa using kraft,?_⟩
  simp only [forestCost,Multiset.map_cons,Multiset.sum_cons,totalCons,BinTree.cost,BinTree.weight]
  rw [show 0+j+1-1 = j by omega]
  ring

theorem mergedPositive {x y : BinTree ι} {s : Multiset (BinTree ι)}
    (positive : ∀ c ∈ x ::ₘ y ::ₘ s, 0 < BinTree.weight f c) :
    ∀ c ∈ BinTree.node x y ::ₘ s, 0 < BinTree.weight f c := by
  intro c hc
  rcases Multiset.mem_cons.mp hc with rfl | inside
  · exact Nat.add_pos_left (positive x (by simp)) _
  · exact positive c (by simp [inside])

theorem greedyOptimal {h : BinTree ι → ℕ} {s : Multiset (BinTree ι)} {t : BinTree ι} (g : Greedy f h s t)
    (positive : ∀ c ∈ s, 0 < BinTree.weight f c) {N : ℕ} {M : Multiset (BinTree ι × ℕ)}
    (names : M.map Prod.fst = s) (fits : KraftFits N (M.map Prod.snd)) :
    BinTree.cost f t ≤ forestCost f s + total (BinTree.weight f) M := by
  induction g generalizing M with
  | done t => simp [forestCost]
  | @merge x y s t least rest ih =>
    obtain ⟨k,R,namesR,kraft,improves⟩ := exchange names (positive x (by simp)) (positive y (by simp)) least fits
    obtain ⟨fits',same⟩ := mergedLengths kraft improves
    subst namesR
    have inner := ih (mergedPositive positive) (M := (.node x y,k-1) ::ₘ R) (by simp) fits'
    have cheap := improves.cheaper
    omega

theorem greedyTallest {s : Multiset (BinTree ι)} {t : BinTree ι} (g : Greedy f BinTree.height s t)
    (positive : ∀ c ∈ s, 0 < BinTree.weight f c) {N : ℕ} {M : Multiset (BinTree ι × ℕ)}
    (names : M.map Prod.fst = s) (fits : KraftFits N (M.map Prod.snd))
    (minimal : forestCost f s + total (BinTree.weight f) M ≤ BinTree.cost f t) :
    reach BinTree.height M ≤ BinTree.height t := by
  induction g generalizing M with
  | done t =>
    obtain ⟨l,R,rfl,namesR⟩ := takeEntry (s := 0) names
    have none_left : R = 0 := Multiset.map_eq_zero.mp namesR
    subst none_left
    have pos := positive t (by simp)
    simp only [forestCost,Multiset.map_singleton,Multiset.sum_singleton,totalCons] at minimal
    have zero : BinTree.weight f t * l = 0 := by omega
    rcases Nat.mul_eq_zero.mp zero with no | zero
    · omega
    · subst zero; simp [reach]
  | @merge x y s t least rest ih =>
    obtain ⟨k,R,namesR,kraft,improves⟩ := exchange names (positive x (by simp)) (positive y (by simp)) least fits
    obtain ⟨fits',same⟩ := mergedLengths kraft improves
    subst namesR
    have positive' := mergedPositive positive
    have best := greedyOptimal rest positive' (M := (.node x y,k-1) ::ₘ R) (by simp) fits'
    have cheap := improves.cheaper
    have inner := ih positive' (M := (.node x y,k-1) ::ₘ R) (by simp) fits' (by omega)
    have deep := improves.deeper (by omega)
    have pos := (kraftPair kraft).1
    simp only [reachCons,BinTree.height] at inner deep
    omega

theorem greedyWeight {h : BinTree ι → ℕ} {s : Multiset (BinTree ι)} {t : BinTree ι} (g : Greedy f h s t) :
    (s.map (BinTree.weight f)).sum = BinTree.weight f t := by
  induction g with
  | done t => simp
  | merge least rest ih =>
    rw [← ih]
    simp only [Multiset.map_cons,Multiset.sum_cons,BinTree.weight]
    ring

end Greedy

/-! A greedy tree of height `k` weighs at least the Fibonacci number of `k+2`: under the deeper part of
each node lies a tree that was taken before the other part, so it is no heavier. -/

section Fibonacci
variable {ι : Type}

def BinTree.parts : BinTree ι → List (BinTree ι)
  | .leaf _ => []
  | .node l r => [l,r]

theorem BinTree.heightPart (t : BinTree ι) : t.height = 0 ∨ ∃ c ∈ t.parts, t.height = c.height+1 := by
  cases t with
  | leaf i => exact Or.inl rfl
  | node l r =>
    refine Or.inr ?_
    rcases Nat.le_total l.height r.height with le | le
    · exact ⟨r,by simp [parts],by simp only [height]; omega⟩
    · exact ⟨l,by simp [parts],by simp only [height]; omega⟩

variable {f : ι → ℕ}

def FibWeighs (f : ι → ℕ) (t : BinTree ι) : Prop := Nat.fib (t.height+2) ≤ t.weight f

/-- The forest between two merges: the parts of its trees were taken earlier, so they are no heavier than
what is still there. -/
structure FibForest (f : ι → ℕ) (s : Multiset (BinTree ι)) : Prop where
  weighs : ∀ t ∈ s, FibWeighs f t
  parts : ∀ t ∈ s, ∀ c ∈ t.parts, FibWeighs f c
  older : ∀ t ∈ s, ∀ c ∈ t.parts, ∀ u ∈ s, c.weight f ≤ u.weight f

theorem fibPositive {t : BinTree ι} (weighs : FibWeighs f t) : 0 < t.weight f :=
  (Nat.fib_pos.mpr (Nat.succ_pos _)).trans_le weighs

theorem fibTaller {x y : BinTree ι} (wx : FibWeighs f x) (wy : FibWeighs f y)
    (light : ∀ c ∈ x.parts, FibWeighs f c ∧ c.weight f ≤ y.weight f) :
    Nat.fib (x.height+3) ≤ x.weight f + y.weight f := by
  rcases x.heightPart with zero | ⟨c,part,tall⟩
  · have px := fibPositive wx
    have py := fibPositive wy
    rw [zero,show Nat.fib (0+3) = 2 from rfl]
    omega
  · obtain ⟨wc,le⟩ := light c part
    rw [FibWeighs,tall] at wx
    calc Nat.fib (x.height+3) = Nat.fib (c.height+2) + Nat.fib (c.height+1+2) := by rw [tall]; exact Nat.fib_add_two
      _ ≤ y.weight f + x.weight f := Nat.add_le_add (wc.trans le) wx
      _ = x.weight f + y.weight f := Nat.add_comm _ _

theorem fibNode {s : Multiset (BinTree ι)} {x y : BinTree ι} (forest : FibForest f s) (hx : x ∈ s) (hy : y ∈ s) :
    FibWeighs f (.node x y) := by
  have left := fibTaller (forest.weighs x hx) (forest.weighs y hy) (fun c hc =>
    ⟨forest.parts x hx c hc,forest.older x hx c hc y hy⟩)
  have right := fibTaller (forest.weighs y hy) (forest.weighs x hx) (fun c hc =>
    ⟨forest.parts y hy c hc,forest.older y hy c hc x hx⟩)
  simp only [FibWeighs,BinTree.height,BinTree.weight]
  rcases Nat.le_total x.height y.height with le | le
  · rw [Nat.max_eq_right le,Nat.add_comm (x.weight f)]
    exact right
  · rw [Nat.max_eq_left le]
    exact left

theorem fibMerge {h : BinTree ι → ℕ} {x y : BinTree ι} {s : Multiset (BinTree ι)}
    (forest : FibForest f (x ::ₘ y ::ₘ s))
    (least : ∀ c ∈ s, Precedes (BinTree.weight f) h x c ∧ Precedes (BinTree.weight f) h y c) :
    FibForest f (.node x y ::ₘ s) := by
  have hx : x ∈ x ::ₘ y ::ₘ s := by simp
  have hy : y ∈ x ::ₘ y ::ₘ s := by simp
  have kept : ∀ {c}, c ∈ s → c ∈ x ::ₘ y ::ₘ s := fun inside => by simp [inside]
  have new : ∀ c ∈ (BinTree.node x y).parts, c = x ∨ c = y := fun c hc => by simpa [BinTree.parts] using hc
  refine ⟨?_,?_,?_⟩
  · intro t ht
    rcases Multiset.mem_cons.mp ht with rfl | old
    · exact fibNode forest hx hy
    · exact forest.weighs t (kept old)
  · intro t ht c hc
    rcases Multiset.mem_cons.mp ht with rfl | old
    · rcases new c hc with rfl | rfl
      · exact forest.weighs _ hx
      · exact forest.weighs _ hy
    · exact forest.parts t (kept old) c hc
  · intro t ht c hc u hu
    rcases Multiset.mem_cons.mp hu with rfl | oldu
    · rcases Multiset.mem_cons.mp ht with rfl | oldt
      · rcases new c hc with rfl | rfl
        · exact Nat.le_add_right _ _
        · exact Nat.le_add_left _ _
      · exact (forest.older t (kept oldt) c hc x hx).trans (Nat.le_add_right _ _)
    · rcases Multiset.mem_cons.mp ht with rfl | oldt
      · rcases new c hc with rfl | rfl
        · exact precedesWeight (least u oldu).1
        · exact precedesWeight (least u oldu).2
      · exact forest.older t (kept oldt) c hc u (kept oldu)

theorem leafForest {s : Multiset ι} (positive : ∀ i ∈ s, 0 < f i) : FibForest f (s.map BinTree.leaf) := by
  have none_part : ∀ t ∈ s.map BinTree.leaf, ∀ c, c ∉ t.parts := fun t ht c hc => by
    obtain ⟨i,_,rfl⟩ := Multiset.mem_map.mp ht
    simp [BinTree.parts] at hc
  refine ⟨?_,fun t ht c hc => absurd hc (none_part t ht c),fun t ht c hc => absurd hc (none_part t ht c)⟩
  intro t ht
  obtain ⟨i,hi,rfl⟩ := Multiset.mem_map.mp ht
  exact positive i hi

theorem greedyFibonacci {h : BinTree ι → ℕ} {s : Multiset (BinTree ι)} {t : BinTree ι} (g : Greedy f h s t)
    (forest : FibForest f s) : FibWeighs f t := by
  induction g with
  | done t => exact forest.weighs t (by simp)
  | merge least rest ih => exact ih (fibMerge forest least)

end Fibonacci
end HuffmanArchiver.Library.GreedyTree
