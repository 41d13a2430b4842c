import Mathlib.Tactic.Common

/-!
# Runs of a labelled transition system

`Run step s h t`: steps with the labels `h`, the last one first, lead from `s`
to `t`.  What holds of the start and is kept by every step holds of the end
(`Run.invariant`); a run of one system whose steps are matched by the steps of
another is matched by a run of the other (`Run.simulate`).  Both rules let the
invariant speak about the history; `simulate` may assume of it any property
that the histories of the earlier states share.
-/

namespace Runs

variable {σ τ L : Type}

inductive Run (step : σ → L → σ → Prop) (s : σ) : List L → σ → Prop
  | refl : Run step s [] s
  | step {h : List L} {t : σ} {l : L} {u : σ} :
      Run step s h t → step t l u → Run step s (l :: h) u

section rules
variable {step : σ → L → σ → Prop} {s t u : σ} {h k : List L}

theorem Run.trans (hr : Run step s h t) (hk : Run step t k u) : Run step s (k ++ h) u := by
  induction hk with
  | refl => exact hr
  | step _ hs ih => exact ih.step hs

theorem Run.mono {step' : σ → L → σ → Prop} (hr : Run step s h t)
    (hm : ∀ a l b, step a l b → step' a l b) : Run step' s h t := by
  induction hr with
  | refl => exact .refl
  | step _ hs ih => exact ih.step (hm _ _ _ hs)

/-- What every step keeps. -/
theorem Run.invariant {I : List L → σ → Prop} (hr : Run step s h t) (h0 : I [] s)
    (hs : ∀ h a l b, I h a → step a l b → I (l :: h) b) : I h t := by
  induction hr with
  | refl => exact h0
  | step _ hst ih => exact hs _ _ _ _ ih hst

/-- A history that is acceptable was acceptable all along. -/
def SuffixClosed (ok : List L → Prop) : Prop := ∀ l h, ok (l :: h) → ok h

/-- Forward simulation over a run whose history is acceptable. -/
theorem Run.simulate {step' : τ → L → τ → Prop} {R : List L → σ → τ → Prop} {ok : List L → Prop}
    (hr : Run step s h t) (hclosed : SuffixClosed ok) (hok : ok h) {a : τ} (h0 : R [] s a)
    (hs : ∀ h b l c x, R h b x → ok (l :: h) → step b l c → ∃ y, step' x l y ∧ R (l :: h) c y) :
    ∃ b, Run step' a h b ∧ R h t b := by
  induction hr with
  | refl => exact ⟨a, .refl, h0⟩
  | step _ hst ih =>
    obtain ⟨x, hx, hR⟩ := ih (hclosed _ _ hok)
    obtain ⟨y, hy, hR'⟩ := hs _ _ _ _ _ hR hok hst
    exact ⟨y, hx.step hy, hR'⟩

end rules

end Runs
