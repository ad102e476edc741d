import Mathlib.Data.List.Basic
import Mathlib.Order.Lattice

/-! The binary heap functions of GNU libstdc++ (`bits/stl_heap.h`) over a list that stands for the
random access range. `cmp` is the comparator object; the root is an element no other one exceeds. -/
namespace HuffmanArchiver.Library.BinaryHeap

variable {α : Type}

/-- The loop of `__adjust_heap`: the hole sinks along the preferred children. -/
def sink (cmp : α → α → Bool) (len : ℕ) : (fuel : ℕ) → List α → (hole : ℕ) → List α × ℕ
  | 0, l, hole => (l,hole)
  | fuel+1, l, hole =>
      if hole < (len-1) / 2 then
        match l[2*(hole+1)]?, l[2*(hole+1)-1]? with
        | some right, some left =>
            if cmp right left then sink cmp len fuel (l.set hole left) (2*(hole+1)-1)
            else sink cmp len fuel (l.set hole right) (2*(hole+1))
        | _, _ => (l,hole)
      else (l,hole)

/-- The case of `__adjust_heap` for a last parent with a single child. -/
def sinkLast (len : ℕ) (l : List α) (hole : ℕ) : List α × ℕ :=
  if len % 2 = 0 ∧ 2 ≤ len ∧ hole = (len-2) / 2 then
    match l[2*(hole+1)-1]? with
    | some only => (l.set hole only,2*(hole+1)-1)
    | none => (l,hole)
  else (l,hole)

/-- `__push_heap`: the value climbs from the hole, at most up to `top`. -/
def climb (cmp : α → α → Bool) (top : ℕ) (value : α) : (fuel : ℕ) → List α → (hole : ℕ) → List α
  | 0, l, hole => l.set hole value
  | fuel+1, l, hole =>
      if top < hole then
        match l[(hole-1)/2]? with
        | some parent =>
            if cmp parent value then climb cmp top value fuel (l.set hole parent) ((hole-1)/2)
            else l.set hole value
        | none => l.set hole value
      else l.set hole value

def adjustHeap (cmp : α → α → Bool) (l : List α) (hole len : ℕ) (value : α) : List α :=
  let sunk := sink cmp len len l hole
  let last := sinkLast len sunk.1 sunk.2
  climb cmp hole value len last.1 last.2

def popHeap (cmp : α → α → Bool) (l : List α) : List α :=
  if 1 < l.length then
    match l[l.length-1]?, l[0]? with
    | some value, some front => adjustHeap cmp (l.set (l.length-1) front) 0 (l.length-1) value
    | _, _ => l
  else l

def makeHeapLoop (cmp : α → α → Bool) : (count : ℕ) → List α → List α
  | 0, l => l
  | parent+1, l =>
      match l[parent]? with
      | some value => makeHeapLoop cmp parent (adjustHeap cmp l parent l.length value)
      | none => l

def makeHeap (cmp : α → α → Bool) (l : List α) : List α :=
  if l.length < 2 then l else makeHeapLoop cmp ((l.length-2)/2+1) l

inductive Below (top : ℕ) : ℕ → Prop where
  | here : Below top top
  | left {h} (inside : Below top h) : Below top (2*h+1)
  | right {h} (inside : Below top h) : Below top (2*h+2)

theorem belowLe {top h} (b : Below top h) : top ≤ h := by
  induction b with
  | here => exact Nat.le_refl _
  | left _ ih => omega
  | right _ ih => omega

theorem belowParent {top h} (b : Below top h) (moved : top < h) : Below top ((h-1)/2) := by
  cases b with
  | here => omega
  | @left g inside => rwa [show (2*g+1-1)/2 = g by omega]
  | @right g inside => rwa [show (2*g+2-1)/2 = g by omega]

theorem atLt {l : List α} {i : ℕ} {x : α} (h : l[i]? = some x) : i < l.length :=
  (List.getElem?_eq_some_iff.mp h).1

theorem setAt {l : List α} {i : ℕ} {c x : α} (h : (l.set i c)[i]? = some x) : x = c := by
  have bound : i < l.length := by simpa using atLt h
  rw [List.getElem?_set_self bound] at h
  exact (Option.some.inj h).symm

theorem setMovePerm {l : List α} {i j : ℕ} {c value : α} (hi : i < l.length) (hj : l[j]? = some c)
    (ne : i ≠ j) : ((l.set i c).set j value).Perm (l.set i value) := by
  obtain ⟨jlt,same⟩ := List.getElem?_eq_some_iff.mp hj
  have boundI : i < (l.set i value).length := by simpa using hi
  have boundJ : j < (l.set i value).length := by simpa using jlt
  have swap := List.set_set_perm boundI boundJ
  have atI : (l.set i value)[i] = value := by simp
  have atJ : (l.set i value)[j] = c := by simp [List.getElem_set_ne ne,same]
  simpa only [atI,atJ,List.set_set] using swap

theorem setSame {l : List α} {i : ℕ} {x : α} (h : l[i]? = some x) : l.set i x = l := by
  obtain ⟨lt,same⟩ := List.getElem?_eq_some_iff.mp h
  rw [← same,List.set_getElem_self]

theorem exchangePerm {l : List α} {i j : ℕ} {x y : α} (at_i : l[i]? = some x) (at_j : l[j]? = some y) (ne : i ≠ j) :
    ((l.set j x).set i y).Perm l := by
  have moved : ((l.set i y).set j x).Perm (l.set i x) := setMovePerm (atLt at_i) at_j ne
  rw [List.set_comm _ _ ne.symm]
  rwa [setSame at_i] at moved

section Order
variable {κ : Type} [LinearOrder κ] (key : α → κ)

/-- What the proofs use of a comparator: it decides the order of the keys, ties either way. -/
def Decides (cmp : α → α → Bool) : Prop :=
  ∀ x y, (cmp x y = true → key y ≤ key x) ∧ (cmp x y = false → key x ≤ key y)

/-- Heap order between all children below `len` and their parents from `top` on. -/
def HeapFrom (top len : ℕ) (l : List α) : Prop :=
  ∀ i x p, 0 < i → i < len → top ≤ (i-1)/2 →
    l[i]? = some x → l[(i-1)/2]? = some p → key p ≤ key x

def IsHeap (l : List α) : Prop := HeapFrom key 0 l.length l

/-- Heap order off the hole; the hole's parent is not after the hole's children. -/
structure Holed (top len : ℕ) (l : List α) (hole : ℕ) : Prop where
  off : ∀ i x p, 0 < i → i < len → top ≤ (i-1)/2 → i ≠ hole → (i-1)/2 ≠ hole →
    l[i]? = some x → l[(i-1)/2]? = some p → key p ≤ key x
  grand : ∀ i x p, 0 < i → i < len → (i-1)/2 = hole → top < hole →
    l[i]? = some x → l[(hole-1)/2]? = some p → key p ≤ key x

variable {key}

theorem heapHoled {top len hole : ℕ} {l : List α} (heap : HeapFrom key (top+1) len l) (at_top : hole = top) :
    Holed key top len l hole := by
  subst at_top
  refine ⟨?_,?_⟩
  · intro i x p pos lt le _ off hx hp
    exact heap i x p pos lt (by omega) hx hp
  · intro i x p _ _ _ moved
    omega

theorem holedSink {top len hole child : ℕ} {l : List α} {c : α}
    (h : Holed key top len l hole) (inside : top ≤ hole)
    (isChild : 0 < child ∧ (child-1)/2 = hole) (lt : child < len)
    (atChild : l[child]? = some c)
    (least : ∀ i x, 0 < i → i < len → (i-1)/2 = hole → l[i]? = some x → key c ≤ key x) :
    Holed key top len (l.set hole c) child := by
  have below : hole < child := by omega
  refine ⟨?_,?_⟩
  · intro i x p pos ilt le ne off hx hp
    by_cases atHole : i = hole
    · subst atHole
      rw [List.getElem?_set_ne (by omega)] at hp
      cases setAt hx
      exact h.grand child c p isChild.1 lt isChild.2 (by omega) atChild hp
    · rw [List.getElem?_set_ne (by omega)] at hx
      by_cases under : (i-1)/2 = hole
      · rw [under] at hp
        cases setAt hp
        exact least i x pos ilt under hx
      · rw [List.getElem?_set_ne (by omega)] at hp
        exact h.off i x p pos ilt le atHole under hx hp
  · intro i x p pos ilt under moved hx hp
    rw [isChild.2] at hp
    rw [List.getElem?_set_ne (by omega)] at hx
    cases setAt hp
    exact h.off i x c pos ilt (by omega) (by omega) (by omega) hx (by rw [under]; exact atChild)

theorem holeFilled {top len hole : ℕ} {l : List α} {value : α} (h : Holed key top len l hole)
    (under : ∀ i x, 0 < i → i < len → (i-1)/2 = hole → l[i]? = some x → key value ≤ key x)
    (above : top < hole → ∀ p, l[(hole-1)/2]? = some p → key p ≤ key value) :
      HeapFrom key top len (l.set hole value) := by
  intro i x p pos ilt le hx hp
  by_cases atHole : i = hole
  · subst atHole
    rw [List.getElem?_set_ne (by omega)] at hp
    cases setAt hx
    exact above (by omega) p hp
  · rw [List.getElem?_set_ne (by omega)] at hx
    by_cases child : (i-1)/2 = hole
    · rw [child] at hp
      cases setAt hp
      exact under i x pos ilt child hx
    · rw [List.getElem?_set_ne (by omega)] at hp
      exact h.off i x p pos ilt le atHole child hx hp

section Climb
variable {top len hole : ℕ} {l : List α} {p : α} (h : Holed key top len l hole) (parent : Below top ((hole-1)/2))
  (moved : top < hole)
include h parent moved

theorem parentUnder (hp : l[(hole-1)/2]? = some p) :
    ∀ i x, 0 < i → i < len → (i-1)/2 = (hole-1)/2 → (l.set hole p)[i]? = some x → key p ≤ key x := by
  intro i x pos ilt par hx
  have inside := belowLe parent
  by_cases atHole : i = hole
  · subst atHole
    cases setAt hx
    exact le_refl _
  · rw [List.getElem?_set_ne (by omega)] at hx
    exact h.off i x p pos ilt (by omega) atHole (by omega) hx (by rw [par]; exact hp)

theorem holedClimb (lt : hole < len) (hp : l[(hole-1)/2]? = some p) :
    Holed key top len (l.set hole p) ((hole-1)/2) := by
  refine ⟨?_,?_⟩
  · intro i x q pos ilt le ne off hx hq
    by_cases atHole : i = hole
    · subst atHole; omega
    · rw [List.getElem?_set_ne (by omega)] at hx
      by_cases child : (i-1)/2 = hole
      · rw [child] at hq
        cases setAt hq
        exact h.grand i x p pos ilt child moved hx hp
      · rw [List.getElem?_set_ne (by omega)] at hq
        exact h.off i x q pos ilt le atHole child hx hq
  · intro i x q pos ilt par above hx hq
    have gp := belowLe (belowParent parent above)
    rw [List.getElem?_set_ne (by omega)] at hq
    have grand := h.off ((hole-1)/2) p q (by omega) (by omega) gp (by omega) (by omega) hp hq
    exact grand.trans (parentUnder h parent moved hp i x pos ilt par hx)

end Climb

structure Sunk (key : α → κ) (top len : ℕ) (l : List α) (start : ℕ) (m : List α) (hole : ℕ) : Prop where
  holed : Holed key top len m hole
  below : Below top hole
  lt : hole < len
  size : m.length = l.length
  perm : ∀ value, (m.set hole value).Perm (l.set start value)
  tail : ∀ i, len ≤ i → m[i]? = l[i]?

theorem sunkStart {top len hole : ℕ} {l : List α} (h : Holed key top len l hole) (b : Below top hole)
    (lt : hole < len) : Sunk key top len l hole l hole :=
  ⟨h,b,lt,rfl,fun _ => List.Perm.refl _,fun _ _ => rfl⟩

theorem sunkMove {top len hole child bottom : ℕ} {l m : List α} {c : α} (size : hole < l.length)
    (inside : hole < len) (atChild : l[child]? = some c) (ne : hole ≠ child)
    (rest : Sunk key top len (l.set hole c) child m bottom) : Sunk key top len l hole m bottom :=
  ⟨rest.holed,rest.below,rest.lt,by simpa using rest.size,
    fun value => (rest.perm value).trans (setMovePerm size atChild ne),
    fun i le => (rest.tail i le).trans (List.getElem?_set_ne (by omega))⟩

variable {cmp : α → α → Bool} (decides : Decides key cmp)
include decides

theorem sinkSunk {top len : ℕ} (fuel : ℕ) {l : List α} {hole : ℕ} (bound : len ≤ l.length)
    (h : Holed key top len l hole) (b : Below top hole) (lt : hole < len) (enough : len ≤ fuel+hole) :
    Sunk key top len l hole (sink cmp len fuel l hole).1 (sink cmp len fuel l hole).2 ∧
      (len-1)/2 ≤ (sink cmp len fuel l hole).2 := by
  induction fuel generalizing l hole with
  | zero => omega
  | succ fuel ih =>
    unfold sink
    split
    · rename_i more
      have inside := belowLe b
      obtain ⟨r,hr⟩ : ∃ r, l[2*(hole+1)]? = some r := ⟨_,List.getElem?_eq_getElem (by omega)⟩
      obtain ⟨s,hs⟩ : ∃ s, l[2*(hole+1)-1]? = some s := ⟨_,List.getElem?_eq_getElem (by omega)⟩
      have children : ∀ i x, 0 < i → i < len → (i-1)/2 = hole → l[i]? = some x → x = r ∨ x = s := by
        intro i x pos ilt par hx
        have cases : i = 2*(hole+1) ∨ i = 2*(hole+1)-1 := by omega
        rcases cases with rfl | rfl
        · exact Or.inl (Option.some.inj (hx.symm.trans hr))
        · exact Or.inr (Option.some.inj (hx.symm.trans hs))
      simp only [hr,hs]
      split
      · rename_i pick
        have le := (decides r s).1 pick
        have moved : Holed key top len (l.set hole s) (2*(hole+1)-1) := by
          refine holedSink h inside ⟨by omega,by omega⟩ (by omega) hs ?_
          intro i x pos ilt par hx
          rcases children i x pos ilt par hx with rfl | rfl
          · exact le
          · exact le_refl _
        have next := ih (l := l.set hole s) (by simpa using bound) moved
          (by rw [show 2*(hole+1)-1 = 2*hole+1 by omega]; exact .left b) (by omega) (by omega)
        exact ⟨sunkMove (by omega) lt hs (by omega) next.1,next.2⟩
      · rename_i pick
        have le := (decides r s).2 (by simpa using pick)
        have moved : Holed key top len (l.set hole r) (2*(hole+1)) := by
          refine holedSink h inside ⟨by omega,by omega⟩ (by omega) hr ?_
          intro i x pos ilt par hx
          rcases children i x pos ilt par hx with rfl | rfl
          · exact le_refl _
          · exact le
        have next := ih (l := l.set hole r) (by simpa using bound) moved (.right b) (by omega) (by omega)
        exact ⟨sunkMove (by omega) lt hr (by omega) next.1,next.2⟩
    · exact ⟨sunkStart h b lt,by omega⟩

omit decides in
theorem sinkLastSunk {top len : ℕ} {l : List α} {hole : ℕ} (bound : len ≤ l.length)
    (h : Holed key top len l hole) (b : Below top hole) (lt : hole < len) (low : (len-1)/2 ≤ hole) :
    Sunk key top len l hole (sinkLast len l hole).1 (sinkLast len l hole).2 ∧
      len ≤ 2*(sinkLast len l hole).2+1 := by
  unfold sinkLast
  split
  · rename_i single
    obtain ⟨s,hs⟩ : ∃ s, l[2*(hole+1)-1]? = some s := ⟨_,List.getElem?_eq_getElem (by omega)⟩
    simp only [hs]
    have moved : Holed key top len (l.set hole s) (2*(hole+1)-1) := by
      refine holedSink h (belowLe b) ⟨by omega,by omega⟩ (by omega) hs ?_
      intro i x pos ilt par hx
      rw [show i = 2*(hole+1)-1 by omega] at hx
      cases Option.some.inj (hx.symm.trans hs)
      exact le_refl _
    have below : Below top (2*(hole+1)-1) := by
      rw [show 2*(hole+1)-1 = 2*hole+1 by omega]; exact .left b
    exact ⟨sunkMove (by omega) lt hs (by omega) (sunkStart moved below (by omega)),by omega⟩
  · exact ⟨sunkStart h b lt,by omega⟩

theorem climbHeap {top len : ℕ} (fuel : ℕ) {l : List α} {hole : ℕ} (value : α) (bound : len ≤ l.length)
    (h : Holed key top len l hole) (b : Below top hole) (lt : hole < len) (enough : hole < fuel)
    (under : ∀ i x, 0 < i → i < len → (i-1)/2 = hole → l[i]? = some x → key value ≤ key x) :
    HeapFrom key top len (climb cmp top value fuel l hole) ∧
      (climb cmp top value fuel l hole).Perm (l.set hole value) ∧
      ∀ i, len ≤ i → (climb cmp top value fuel l hole)[i]? = l[i]? := by
  induction fuel generalizing l hole with
  | zero => omega
  | succ fuel ih =>
    unfold climb
    split
    · rename_i moved
      obtain ⟨p,hp⟩ : ∃ p, l[(hole-1)/2]? = some p := ⟨_,List.getElem?_eq_getElem (by omega)⟩
      have parent := belowParent b moved
      simp only [hp]
      split
      · rename_i up
        have before := (decides p value).1 up
        have goal := ih (by simpa using bound) (holedClimb h parent moved lt hp) parent (by omega) (by omega)
          (fun i x pos ilt par hx => before.trans (parentUnder h parent moved hp i x pos ilt par hx))
        refine ⟨goal.1,goal.2.1.trans (setMovePerm (by omega) hp (by omega)),?_⟩
        intro i le
        rw [goal.2.2 i le,List.getElem?_set_ne (by omega)]
      · rename_i up
        have after := (decides p value).2 (by simpa using up)
        refine ⟨holeFilled h under (fun _ q hq => ?_),List.Perm.refl _,fun i le => List.getElem?_set_ne (by omega)⟩
        cases Option.some.inj (hq.symm.trans hp)
        exact after
    · exact ⟨holeFilled h under (by omega),List.Perm.refl _,fun i le => List.getElem?_set_ne (by omega)⟩

theorem adjustHeapSpec {top len : ℕ} {l : List α} (value : α) (bound : len ≤ l.length) (lt : top < len)
    (heap : HeapFrom key (top+1) len l) :
    HeapFrom key top len (adjustHeap cmp l top len value) ∧
      (adjustHeap cmp l top len value).Perm (l.set top value) ∧
      ∀ i, len ≤ i → (adjustHeap cmp l top len value)[i]? = l[i]? := by
  obtain ⟨first,low⟩ := sinkSunk decides len bound (heapHoled heap rfl) .here lt (by omega)
  obtain ⟨second,leaf⟩ := sinkLastSunk (by rw [first.size]; exact bound) first.holed first.below first.lt low
  have up := climbHeap decides len value (by rw [second.size,first.size]; exact bound)
    second.holed second.below second.lt second.lt (by intro i x pos ilt par; omega)
  refine ⟨up.1,up.2.1.trans ((second.perm value).trans (first.perm value)),?_⟩
  intro i le
  exact ((up.2.2 i le).trans (second.tail i le)).trans (first.tail i le)

theorem popHeapSpec {front : α} {rest : List α}
    (heap : HeapFrom key 0 rest.length (front :: rest)) :
    ∃ q, popHeap cmp (front :: rest) = q ++ [front] ∧ q.Perm rest ∧ IsHeap key q := by
  cases hr : rest with
  | nil => exact ⟨[],by simp [popHeap],List.Perm.refl _,by intro i x p _ lt; simp at lt⟩
  | cons second others =>
    rw [← hr]
    have pos : 0 < rest.length := by simp [hr]
    obtain ⟨value,hv⟩ : ∃ value, (front :: rest)[rest.length]? = some value :=
      ⟨_,List.getElem?_eq_getElem (by simp)⟩
    have pop : popHeap cmp (front :: rest) =
        adjustHeap cmp ((front :: rest).set rest.length front) 0 rest.length value := by
      simp only [popHeap,List.length_cons,Nat.add_sub_cancel,hv,List.getElem?_cons_zero]
      rw [if_pos (by omega)]
    have kept : HeapFrom key (0+1) rest.length ((front :: rest).set rest.length front) := by
      intro i x p ipos lt le hx hp
      rw [List.getElem?_set_ne (by omega)] at hx hp
      exact heap i x p ipos lt (by omega) hx hp
    obtain ⟨ordered,perm,tail⟩ := adjustHeapSpec decides value (by simp) pos kept
    rw [← pop] at ordered perm tail
    have swap := perm.trans (exchangePerm rfl hv (by omega))
    have size := swap.length_eq
    simp only [List.length_cons] at size
    have last : (popHeap cmp (front :: rest))[rest.length]? = some front := by
      rw [tail _ (Nat.le_refl _),List.getElem?_set_self (by simp)]
    have shape : popHeap cmp (front :: rest) = (popHeap cmp (front :: rest)).dropLast ++ [front] := by
      have some_last : (popHeap cmp (front :: rest)).getLast? = some front := by
        rw [List.getLast?_eq_getElem?,size,Nat.add_sub_cancel,last]
      exact (List.dropLast_append_getLast? front some_last).symm
    refine ⟨(popHeap cmp (front :: rest)).dropLast,shape,?_,?_⟩
    · have whole : ((popHeap cmp (front :: rest)).dropLast ++ [front]).Perm (front :: rest) := by
        rw [← shape]; exact swap
      exact (List.perm_cons front).mp ((List.perm_append_singleton front _).symm.trans whole)
    · intro i x p ipos lt le hx hp
      rw [List.length_dropLast,size,Nat.add_sub_cancel] at lt
      rw [List.getElem?_dropLast,size,Nat.add_sub_cancel,if_pos (by omega)] at hx hp
      exact ordered i x p ipos lt le hx hp

theorem makeHeapLoopSpec (count : ℕ) {l : List α} (bound : count ≤ l.length)
    (heap : HeapFrom key count l.length l) :
    IsHeap key (makeHeapLoop cmp count l) ∧ (makeHeapLoop cmp count l).Perm l := by
  induction count generalizing l with
  | zero => exact ⟨heap,List.Perm.refl _⟩
  | succ parent ih =>
    obtain ⟨value,hv⟩ : ∃ value, l[parent]? = some value := ⟨_,List.getElem?_eq_getElem (by omega)⟩
    obtain ⟨ordered,perm,_⟩ := adjustHeapSpec decides value (Nat.le_refl _) (by omega) heap
    rw [setSame hv] at perm
    have size := perm.length_eq
    have next := ih (l := adjustHeap cmp l parent l.length value) (by omega) (by rw [size]; exact ordered)
    simp only [makeHeapLoop,hv]
    exact ⟨next.1,next.2.trans perm⟩

theorem makeHeapSpec (l : List α) : IsHeap key (makeHeap cmp l) ∧ (makeHeap cmp l).Perm l := by
  unfold makeHeap
  split
  · exact ⟨by intro i x p _ lt; omega,List.Perm.refl _⟩
  · refine makeHeapLoopSpec decides _ (by omega) ?_
    intro i x p pos lt le
    omega

omit decides in
theorem heapRoot {len : ℕ} {l : List α} {front : α} (heap : HeapFrom key 0 len l) (root : l[0]? = some front)
    {i : ℕ} {x : α} (lt : i < len) (at_i : l[i]? = some x) : key front ≤ key x := by
  induction i using Nat.strongRecOn generalizing x with
  | _ i ih =>
    rcases Nat.eq_zero_or_pos i with zero | pos
    · subst zero
      rw [Option.some.inj (root.symm.trans at_i)]
    · have bound := atLt at_i
      obtain ⟨p,hp⟩ : ∃ p, l[(i-1)/2]? = some p := ⟨_,List.getElem?_eq_getElem (by omega)⟩
      exact (ih ((i-1)/2) (by omega) (by omega) hp).trans (heap i x p pos lt (by omega) at_i hp)

omit decides in
theorem heapInit {l : List α} {len : ℕ} (heap : IsHeap key l) (le : len ≤ l.length) :
    HeapFrom key 0 len l :=
  fun i x p pos lt low hx hp => heap i x p pos (by omega) low hx hp

omit decides in
theorem heapAppend {l : List α} (heap : IsHeap key l) (x : α) : HeapFrom key 0 l.length (l++[x]) := by
  intro i y p pos lt low hy hp
  rw [List.getElem?_append_left (by omega)] at hy hp
  exact heap i y p pos lt low hy hp

omit decides in
theorem twoLeast {front second loose : α} {init rest : List α} (perm : (second :: rest).Perm (init++[loose]))
    (root : ∀ x ∈ init, key front ≤ key x) (least : ∀ x ∈ rest, key second ≤ key x) :
    ∀ x ∈ rest, key front ≤ key x := by
  intro x hx
  by_contra no
  have less : key x < key front := lt_of_not_ge no
  have below : ∀ y, y ∈ second :: rest → key y < key front → y = loose := by
    intro y hy small
    rcases List.mem_append.mp (perm.mem_iff.mp hy) with inside | last
    · exact absurd (root y inside) (not_le_of_gt small)
    · exact List.mem_singleton.mp last
  have secondLoose := below second List.mem_cons_self (lt_of_le_of_lt (least x hx) less)
  subst secondLoose
  have others : rest.Perm init :=
    (List.perm_cons second).mp (perm.trans (List.perm_append_singleton second init))
  exact no (root x (others.mem_iff.mp hx))

end Order

/-! Without an order: every comparator decides the order of a constant key, and a heap of that key is any
range at all. -/

theorem decidesConstant (cmp : α → α → Bool) : Decides (fun _ => ()) cmp :=
  fun _ _ => ⟨fun _ => le_refl _,fun _ => le_refl _⟩

theorem popHeapPerm (cmp : α → α → Bool) (l : List α) : (popHeap cmp l).Perm l := by
  cases l with
  | nil => exact List.Perm.refl _
  | cons front rest =>
    obtain ⟨q,pop,perm,_⟩ :=
      popHeapSpec (decidesConstant cmp)
      (show HeapFrom _ 0 rest.length (front :: rest) from fun _ _ _ _ _ _ _ _ => le_refl _)
    rw [pop]
    exact (List.perm_append_singleton front q).trans (perm.cons front)

theorem makeHeapPerm (cmp : α → α → Bool) (l : List α) : (makeHeap cmp l).Perm l :=
  (makeHeapSpec (decidesConstant cmp) l).2

/-! The heap functions only ask the comparator for two elements of the range at different places, so a
comparator may answer anything where an element meets itself. -/

section Compared
variable {base : List α} {value : α} {l : List α} {hole : ℕ}

/-- The range while `value` is out of it: with the value in the hole it holds the elements of `base`. -/
structure Open (base : List α) (value : α) (l : List α) (hole : ℕ) : Prop where
  inside : hole < l.length
  perm : (l.set hole value).Perm base

theorem openMove {child : ℕ} {c : α} (o : Open base value l hole) (atChild : l[child]? = some c)
    (ne : hole ≠ child) :
    Open base value (l.set hole c) child := by
  refine ⟨?_,(setMovePerm o.inside atChild ne).trans o.perm⟩
  rw [List.length_set]
  exact atLt atChild

theorem openMember {i : ℕ} {x : α} (o : Open base value l hole) (at_i : (l.set hole value)[i]? = some x) :
    x ∈ base :=
  o.perm.mem_iff.mp (List.mem_iff_getElem?.mpr ⟨i,at_i⟩)

theorem openApart {i j : ℕ} {x y : α} (o : Open base value l hole) (nodup : base.Nodup)
    (at_i : (l.set hole value)[i]? = some x) (at_j : (l.set hole value)[j]? = some y) (ne : i ≠ j) : x ≠ y := by
  rintro rfl
  exact ne ((List.getElem?_inj (atLt at_i) (o.perm.nodup_iff.mpr nodup)).mp (at_i.trans at_j.symm))

theorem sinkLastOpen (len : ℕ) (o : Open base value l hole) :
    Open base value (sinkLast len l hole).1 (sinkLast len l hole).2 := by
  unfold sinkLast
  split
  · cases only : l[2*(hole+1)-1]? with
    | none => exact o
    | some c =>
      have ne : hole ≠ 2*(hole+1)-1 := by omega
      exact openMove o only ne
  · exact o

variable {cmp other : α → α → Bool} (nodup : base.Nodup)
  (same : ∀ x ∈ base, ∀ y ∈ base, x ≠ y → other x y = cmp x y)
include nodup same

theorem openSame {i j : ℕ} {x y : α} (o : Open base value l hole) (at_i : (l.set hole value)[i]? = some x)
    (at_j : (l.set hole value)[j]? = some y) (ne : i ≠ j) : other x y = cmp x y :=
  same x (openMember o at_i) y (openMember o at_j) (openApart o nodup at_i at_j ne)

theorem sinkSame (len fuel : ℕ) (o : Open base value l hole) :
    sink other len fuel l hole = sink cmp len fuel l hole ∧
      Open base value (sink cmp len fuel l hole).1 (sink cmp len fuel l hole).2 := by
  induction fuel generalizing l hole with
  | zero => exact ⟨rfl,o⟩
  | succ fuel ih =>
    unfold sink
    split
    · cases hr : l[2*(hole+1)]? with
      | none => exact ⟨rfl,o⟩
      | some r =>
        cases hs : l[2*(hole+1)-1]? with
        | none => exact ⟨rfl,o⟩
        | some s =>
          have offR : hole ≠ 2*(hole+1) := by omega
          have offS : hole ≠ 2*(hole+1)-1 := by omega
          have apart : 2*(hole+1) ≠ 2*(hole+1)-1 := by omega
          have answer := openSame nodup same o ((List.getElem?_set_ne offR).trans hr)
            ((List.getElem?_set_ne offS).trans hs) apart
          simp only [answer]
          split
          · exact ih (openMove o hs offS)
          · exact ih (openMove o hr offR)
    · exact ⟨rfl,o⟩

theorem climbSame (top fuel : ℕ) (o : Open base value l hole) :
    climb other top value fuel l hole = climb cmp top value fuel l hole := by
  induction fuel generalizing l hole with
  | zero => rfl
  | succ fuel ih =>
    unfold climb
    split
    · rename_i moved
      cases hp : l[(hole-1)/2]? with
      | none => rfl
      | some p =>
        have off : hole ≠ (hole-1)/2 := by omega
        have answer := openSame nodup same o ((List.getElem?_set_ne off).trans hp)
          (List.getElem?_set_self o.inside) off.symm
        simp only [answer]
        split
        · exact ih (openMove o hp off)
        · rfl
    · rfl

theorem adjustHeapSame (len : ℕ) (o : Open base value l hole) :
    adjustHeap other l hole len value = adjustHeap cmp l hole len value := by
  obtain ⟨sunk,o'⟩ := sinkSame nodup same len len o
  simp only [adjustHeap,sunk]
  exact climbSame nodup same hole len (sinkLastOpen len o')

end Compared

section Range
variable {cmp other : α → α → Bool} {l : List α} (nodup : l.Nodup)
  (same : ∀ x ∈ l, ∀ y ∈ l, x ≠ y → other x y = cmp x y)
include nodup same

theorem popHeapSame : popHeap other l = popHeap cmp l := by
  unfold popHeap
  split
  · cases last : l[l.length-1]? with
    | none => rfl
    | some value =>
      cases first : l[0]? with
      | none => rfl
      | some front =>
        have o : Open l value (l.set (l.length-1) front) 0 :=
          ⟨by rw [List.length_set]; exact atLt first,exchangePerm first last (by omega)⟩
        exact adjustHeapSame nodup same (l.length-1) o
  · rfl

theorem makeHeapLoopSame (count : ℕ) {m : List α} (perm : m.Perm l) :
    makeHeapLoop other count m = makeHeapLoop cmp count m := by
  induction count generalizing m with
  | zero => rfl
  | succ parent ih =>
    unfold makeHeapLoop
    cases at_parent : m[parent]? with
    | none => rfl
    | some value =>
      have kept : m.set parent value = m := setSame at_parent
      have o : Open l value m parent := ⟨atLt at_parent,by rwa [kept]⟩
      simp only [adjustHeapSame nodup same m.length o]
      refine ih (List.Perm.trans ?_ perm)
      have whole := (adjustHeapSpec (decidesConstant cmp) value (Nat.le_refl _) (atLt at_parent)
        (fun _ _ _ _ _ _ _ _ => le_refl _)).2.1
      rwa [kept] at whole

theorem makeHeapSame : makeHeap other l = makeHeap cmp l := by
  unfold makeHeap
  split
  · rfl
  · exact makeHeapLoopSame nodup same _ (List.Perm.refl l)

end Range
end HuffmanArchiver.Library.BinaryHeap
