import HuffmanArchiver.Library.BinaryHeap
import Mathlib.Data.List.Forall2

/-! The heap functions see their elements through the comparator only: on related elements, which the
comparators do not tell apart, they do the same. -/
namespace HuffmanArchiver.Library.BinaryHeap
open List (Forall₂)

variable {α β : Type} {R : α → β → Prop} {l : List α} {m : List β}

theorem relatedAt (related : Forall₂ R l m) (i : ℕ) :
    (l[i]? = none ∧ m[i]? = none) ∨ ∃ x y, l[i]? = some x ∧ m[i]? = some y ∧ R x y := by
  induction related generalizing i with
  | nil => exact .inl ⟨rfl,rfl⟩
  | cons head tail ih =>
    cases i with
    | zero => exact .inr ⟨_,_,rfl,rfl,head⟩
    | succ i => simpa using ih i

theorem relatedSet {x : α} {y : β} (related : Forall₂ R l m) (same : R x y) (i : ℕ) :
    Forall₂ R (l.set i x) (m.set i y) := by
  induction related generalizing i with
  | nil => exact .nil
  | cons head tail ih =>
    cases i with
    | zero => exact .cons same tail
    | succ i => exact .cons head (ih i)

def SamePlace (R : α → β → Prop) (p : List α × ℕ) (q : List β × ℕ) : Prop := Forall₂ R p.1 q.1 ∧ p.2 = q.2

theorem sinkLastRelated (len : ℕ) (related : Forall₂ R l m) (hole : ℕ) :
    SamePlace R (sinkLast len l hole) (sinkLast len m hole) := by
  unfold sinkLast
  split
  · rcases relatedAt related (2*(hole+1)-1) with ⟨missing,missing'⟩ | ⟨x,y,at_l,at_m,same⟩
    · rw [missing,missing']
      exact ⟨related,rfl⟩
    · rw [at_l,at_m]
      exact ⟨relatedSet related same hole,rfl⟩
  · exact ⟨related,rfl⟩

section Comparators
variable {cmp : α → α → Bool} {other : β → β → Bool} (agree : ∀ x x' y y', R x y → R x' y' → cmp x x' = other y y')
include agree

theorem sinkRelated (len fuel : ℕ) (related : Forall₂ R l m) (hole : ℕ) :
    SamePlace R (sink cmp len fuel l hole) (sink other len fuel m hole) := by
  induction fuel generalizing l m hole with
  | zero => exact ⟨related,rfl⟩
  | succ fuel ih =>
    unfold sink
    split
    · rcases relatedAt related (2*(hole+1)) with ⟨missing,missing'⟩ | ⟨x,y,right,right',same⟩
      · rw [missing,missing']
        exact ⟨related,rfl⟩
      · rcases relatedAt related (2*(hole+1)-1) with ⟨missing,missing'⟩ | ⟨x',y',left,left',same'⟩
        · rw [right,right',missing,missing']
          exact ⟨related,rfl⟩
        · simp only [right,right',left,left',agree x x' y y' same same']
          split
          · exact ih (relatedSet related same' hole) _
          · exact ih (relatedSet related same hole) _
    · exact ⟨related,rfl⟩

variable {value : α} {value' : β} (same : R value value')
include same

theorem climbRelated (top fuel : ℕ) (related : Forall₂ R l m) (hole : ℕ) :
    Forall₂ R (climb cmp top value fuel l hole) (climb other top value' fuel m hole) := by
  induction fuel generalizing l m hole with
  | zero => exact relatedSet related same hole
  | succ fuel ih =>
    unfold climb
    split
    · rcases relatedAt related ((hole-1)/2) with ⟨missing,missing'⟩ | ⟨x,y,parent,parent',alike⟩
      · rw [missing,missing']
        exact relatedSet related same hole
      · simp only [parent,parent',agree x value y value' alike same]
        split
        · exact ih (relatedSet related alike hole) _
        · exact relatedSet related same hole
    · exact relatedSet related same hole

theorem adjustHeapRelated (related : Forall₂ R l m) (hole len : ℕ) :
    Forall₂ R (adjustHeap cmp l hole len value) (adjustHeap other m hole len value') := by
  obtain ⟨sunk,place⟩ := sinkRelated agree len len related hole
  obtain ⟨last,place'⟩ := sinkLastRelated len sunk (sink cmp len len l hole).2
  unfold adjustHeap
  simp only [← place,← place']
  exact climbRelated agree same hole len last _

end Comparators

section Whole
variable {cmp : α → α → Bool} {other : β → β → Bool} (agree : ∀ x x' y y', R x y → R x' y' → cmp x x' = other y y')
include agree

theorem popHeapRelated (related : Forall₂ R l m) : Forall₂ R (popHeap cmp l) (popHeap other m) := by
  unfold popHeap
  rw [related.length_eq]
  split
  · rcases relatedAt related (m.length-1) with ⟨missing,missing'⟩ | ⟨x,y,last,last',same⟩
    · rw [missing,missing']
      exact related
    · rcases relatedAt related 0 with ⟨missing,missing'⟩ | ⟨x',y',front,front',same'⟩
      · rw [last,last',missing,missing']
        exact related
      · rw [last,last',front,front']
        exact adjustHeapRelated agree same (relatedSet related same' _) 0 _
  · exact related

theorem makeHeapLoopRelated (count : ℕ) (related : Forall₂ R l m) :
    Forall₂ R (makeHeapLoop cmp count l) (makeHeapLoop other count m) := by
  induction count generalizing l m with
  | zero => exact related
  | succ parent ih =>
    unfold makeHeapLoop
    rcases relatedAt related parent with ⟨missing,missing'⟩ | ⟨x,y,there,there',same⟩
    · rw [missing,missing']
      exact related
    · rw [there,there',related.length_eq]
      exact ih (adjustHeapRelated agree same related parent _)

theorem makeHeapRelated (related : Forall₂ R l m) : Forall₂ R (makeHeap cmp l) (makeHeap other m) := by
  unfold makeHeap
  rw [related.length_eq]
  split
  · exact related
  · exact makeHeapLoopRelated agree _ related

end Whole
end HuffmanArchiver.Library.BinaryHeap
