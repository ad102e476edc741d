import Mathlib.Data.List.Basic

/-! Decoders of an unbounded stream of bits. A decoder gives the symbol at a position and the position of the
next one. If it looks no further than some number of bits ahead, then so do the first symbols together. -/
namespace HuffmanArchiver.Library.StreamDecoder

variable {σ : Type}

abbrev Decoder (σ : Type) := (ℕ → Bool) → ℕ → Option (σ × ℕ)

def symbols (decode : Decoder σ) (s : ℕ → Bool) : (count pos : ℕ) → Option (List σ × ℕ)
  | 0, pos => some ([],pos)
  | count+1, pos => do
      let (x,pos) ← decode s pos
      let (xs,pos) ← symbols decode s count pos
      some (x :: xs,pos)

structure Within (decode : Decoder σ) (reach : ℕ) : Prop where
  near : ∀ s pos x pos', decode s pos = some (x,pos') → pos' ≤ pos+reach
  blind : ∀ s s' pos, (∀ i < pos+reach, s i = s' i) → decode s pos = decode s' pos

variable {decode : Decoder σ} {s : ℕ → Bool}

theorem symbolsCons {count pos pos' : ℕ} {xs : List σ} : symbols decode s (count+1) pos = some (xs,pos') ↔
    ∃ x mid rest, decode s pos = some (x,mid) ∧ symbols decode s count mid = some (rest,pos') ∧ xs = x :: rest := by
  simp only [symbols,bind,Option.bind_eq_some_iff,Prod.exists]
  constructor
  · rintro ⟨x,mid,first,rest,last,onward,same⟩
    cases Option.some.inj same
    exact ⟨x,mid,rest,first,onward,rfl⟩
  · rintro ⟨x,mid,rest,first,onward,rfl⟩
    exact ⟨x,mid,first,rest,pos',onward,rfl⟩

theorem symbolsLength {count pos pos' : ℕ} {xs : List σ}
    (read : symbols decode s count pos = some (xs,pos')) : xs.length = count := by
  induction count generalizing pos xs with
  | zero =>
    cases Option.some.inj read
    rfl
  | succ count ih =>
    obtain ⟨x,mid,rest,_,onward,rfl⟩ := symbolsCons.mp read
    rw [List.length_cons,ih onward]

theorem symbolsTake {count pos pos' : ℕ} {xs : List σ} (read : symbols decode s count pos = some (xs,pos'))
    {k : ℕ} (le : k ≤ count) :
    ∃ mid, symbols decode s k pos = some (xs.take k,mid) := by
  induction k generalizing count pos xs with
  | zero => exact ⟨pos,rfl⟩
  | succ k ih =>
    obtain ⟨count,rfl⟩ : ∃ more, count = more+1 := ⟨count-1,by omega⟩
    obtain ⟨x,next,rest,first,onward,rfl⟩ := symbolsCons.mp read
    obtain ⟨mid,front⟩ := ih onward (Nat.le_of_succ_le_succ le)
    exact ⟨mid,symbolsCons.mpr ⟨x,next,_,first,front,by rw [List.take_succ_cons]⟩⟩

theorem symbolsBlind {reach : ℕ} (within : Within decode reach) {s' : ℕ → Bool} {count pos : ℕ}
    (agree : ∀ i < pos+reach*count, s i = s' i) : symbols decode s count pos = symbols decode s' count pos := by
  induction count generalizing pos with
  | zero => rfl
  | succ count ih =>
    have here : decode s pos = decode s' pos :=
      within.blind s s' pos (fun i hi => agree i (by rw [Nat.mul_succ]; omega))
    rw [symbols,symbols,← here]
    cases read : decode s pos with
    | none => rfl
    | some next =>
      have near := within.near s pos next.1 next.2 read
      have onward : symbols decode s count next.2 = symbols decode s' count next.2 :=
        ih (fun i hi => agree i (by rw [Nat.mul_succ]; omega))
      simp only [bind,Option.bind_some,onward]

end HuffmanArchiver.Library.StreamDecoder
