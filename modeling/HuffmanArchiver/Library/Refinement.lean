import Mathlib.Logic.Basic

/-! A machine that may fault and the specification it refines. A step of the specification cannot fail, but
it may be disallowed; the machine follows every run whose steps are allowed. -/
namespace HuffmanArchiver.Library.Refinement

variable {ι σ τ ε : Type} {spec : τ → ι → τ} {allowed : τ → ι → Prop} {impl : σ → ι → Except ε σ}
  {abstracts : σ → τ → Prop}

inductive Run (spec : τ → ι → τ) (allowed : τ → ι → Prop) : τ → List ι → τ → Prop
  | nil {t} : Run spec allowed t [] t
  | cons {t op ops t'} (fine : allowed t op) (rest : Run spec allowed (spec t op) ops t') :
      Run spec allowed t (op :: ops) t'

theorem runAll {ops : List ι} (fine : ∀ op ∈ ops, ∀ t, allowed t op) (t : τ) :
    Run spec allowed t ops (ops.foldl spec t) := by
  induction ops generalizing t with
  | nil => exact .nil
  | cons op ops ih =>
    rw [List.forall_mem_cons] at fine
    exact .cons (fine.1 t) (ih fine.2 _)

theorem Run.mono {allowed' : τ → ι → Prop} {t t' : τ} {ops : List ι} (weaker : ∀ t op, allowed t op → allowed' t op)
    (run : Run spec allowed t ops t') : Run spec allowed' t ops t' := by
  induction run with
  | nil => exact .nil
  | cons fine rest ih => exact .cons (weaker _ _ fine) ih

theorem Run.ends {inside : τ → Prop} {t t' : τ} {ops : List ι} (run : Run spec allowed t ops t') (start : inside t)
    (step : ∀ t op, allowed t op → inside (spec t op)) : inside t' := by
  induction run with
  | nil => exact start
  | cons fine rest ih => exact ih (step _ _ fine)

def Refines (spec : τ → ι → τ) (allowed : τ → ι → Prop) (impl : σ → ι → Except ε σ)
    (abstracts : σ → τ → Prop) : Prop :=
  ∀ {s t op}, abstracts s t → allowed t op → ∃ s', impl s op = .ok s' ∧ abstracts s' (spec t op)

theorem refinesRun (refines : Refines spec allowed impl abstracts) {s : σ} {t t' : τ} {ops : List ι}
    (run : Run spec allowed t ops t') (start : abstracts s t) : ∃ s', ops.foldlM impl s = .ok s' ∧
      abstracts s' t' := by
  induction run generalizing s with
  | nil => exact ⟨s,rfl,start⟩
  | cons fine rest ih =>
    obtain ⟨s₁,ran,next⟩ := refines start fine
    obtain ⟨s',ran',last⟩ := ih next
    refine ⟨s',?_,last⟩
    rw [List.foldlM_cons,ran]
    exact ran'

end HuffmanArchiver.Library.Refinement
