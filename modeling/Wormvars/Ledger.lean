import Mathlib.Algebra.BigOperators.Group.List.Basic
import Mathlib.Tactic.Linarith
import Wormvars.Runs

/-!
# What a run emits

A step of the system emits events, `out s l` at the label `l` from the state `s`, the
last one first.  `Emits step out s h t k`: a run with the labels `h` leads from `s` to
`t` and emits `k`.

Accounts over runs are kept by two rules.  A balance that every step changes by the
value of what it emits is changed by a run by the value of what the run emits
(`Emits.conserve`).  If a step may besides use up what its label is credited with, a
run may use up the credit of its labels (`Emits.amortise`), the potential method with
the balance for the potential.  Both may use that the state before the step has been
reached by an acceptable history.
-/

namespace Runs

variable {σ L E : Type}

inductive Emits (step : σ → L → σ → Prop) (out : σ → L → List E) (s : σ) :
    List L → σ → List E → Prop
  | refl : Emits step out s [] s []
  | step {h : List L} {t : σ} {k : List E} {l : L} {u : σ} :
      Emits step out s h t k → step t l u → Emits step out s (l :: h) u (out t l ++ k)

/-- The value of a list of events is the sum of the values of its parts. -/
structure Additive (value : List E → Int) : Prop where
  nil : value [] = 0
  append : ∀ k k', value (k ++ k') = value k + value k'

theorem countP_cons_add {α : Type} (p : α → Bool) (a : α) (l : List α) :
    (a :: l).countP p = [a].countP p + l.countP p := by
  show List.countP p ([a] ++ l) = _
  exact List.countP_append

theorem additive_countP (p : E → Bool) : Additive fun k => (k.countP p : Int) where
  nil := rfl
  append k k' := by rw [List.countP_append, Int.natCast_add]

theorem Additive.mul {value : List E → Int} (h : Additive value) (c : Int) :
    Additive fun k => c * value k where
  nil := by rw [h.nil, mul_zero]
  append k k' := by rw [h.append, mul_add]

theorem Additive.sub {value value' : List E → Int} (h : Additive value) (h' : Additive value') :
    Additive fun k => value k - value' k where
  nil := by rw [h.nil, h'.nil, sub_zero]
  append k k' := by rw [h.append, h'.append, add_sub_add_comm]

section rules
variable {step : σ → L → σ → Prop} {out : σ → L → List E} {s t : σ} {h : List L} {k : List E}

theorem Emits.run (he : Emits step out s h t k) : Run step s h t := by
  induction he with
  | refl => exact .refl
  | step _ hs ih => exact ih.step hs

theorem Run.emits (out : σ → L → List E) (hr : Run step s h t) :
    ∃ k, Emits step out s h t k := by
  induction hr with
  | refl => exact ⟨[], .refl⟩
  | step _ hs ih =>
    obtain ⟨k, hk⟩ := ih
    exact ⟨_, hk.step hs⟩

/-- What every step keeps of the state and of what has been emitted. -/
theorem Emits.invariant {I : List L → σ → List E → Prop} {ok : List L → Prop}
    (he : Emits step out s h t k) (hclosed : SuffixClosed ok) (hok : ok h) (h0 : I [] s [])
    (hs : ∀ h a l b k, Run step s h a → ok (l :: h) → step a l b → I h a k →
      I (l :: h) b (out a l ++ k)) : I h t k := by
  induction he with
  | refl => exact h0
  | step he hst ih => exact hs _ _ _ _ _ he.run hok hst (ih (hclosed _ _ hok))

variable {ok : List L → Prop} {value : List E → Int} (balance : σ → Int)

/-- The potential method. -/
theorem Emits.amortise (he : Emits step out s h t k) (hclosed : SuffixClosed ok) (hok : ok h)
    (hv : Additive value) (credit : L → Int)
    (hs : ∀ h a l b, Run step s h a → ok (l :: h) → step a l b →
      balance b ≤ balance a + value (out a l) + credit l) :
    balance t ≤ balance s + value k + (h.map credit).sum := by
  refine he.invariant (I := fun h t k => balance t ≤ balance s + value k + (h.map credit).sum)
    hclosed hok ?_ fun h a l b k hr hok hst ih => ?_
  · rw [hv.nil, List.map_nil, List.sum_nil, add_zero, add_zero]
  · have := hs h a l b hr hok hst
    rw [hv.append, List.map_cons, List.sum_cons]
    linarith

theorem Emits.conserve (he : Emits step out s h t k) (hclosed : SuffixClosed ok) (hok : ok h)
    (hv : Additive value) (hs : ∀ h a l b, Run step s h a → ok (l :: h) → step a l b →
      balance b = balance a + value (out a l)) : balance t = balance s + value k := by
  refine he.invariant (I := fun _ t k => balance t = balance s + value k) hclosed hok ?_
    fun h a l b k hr hok hst ih => ?_
  · rw [hv.nil, add_zero]
  · rw [hs h a l b hr hok hst, ih, hv.append]
    linarith

end rules

end Runs
