import Mathlib.Data.List.Nodup

/-!
# Statements that a `switch` jumps into

A `switch` of C may have its labels anywhere in the statement it governs, also inside
loops and branches.  Statements over an arbitrary state, with such labels: `Exec` is a
run from the beginning, `Jump l` a run from the label `l`, and both end in a state or
with a value that is returned (`Out`).  An action or a test may have no value.
-/

namespace Switch

variable {σ ρ L : Type}

/-! ## Outcomes -/

inductive Out (σ ρ : Type) where
  | next (s : σ)
  | ret (r : ρ) (s : σ)

/-- From states to outcomes. -/
abbrev Effect (σ ρ : Type) := σ → Out σ ρ → Prop

/-- First `P`, then `Q` unless `P` returns. -/
inductive Then (P Q : Effect σ ρ) (s : σ) : Out σ ρ → Prop
  | next {t : σ} {o : Out σ ρ} : P s (.next t) → Q t o → Then P Q s o
  | ret {r : ρ} {t : σ} : P s (.ret r t) → Then P Q s (.ret r t)

/-- `while (c) P`. -/
inductive Loop (c : σ → Option (Bool × σ)) (P : Effect σ ρ) : Effect σ ρ
  | done {s t : σ} : c s = some (false, t) → Loop c P s (.next t)
  | next {s t u : σ} {o : Out σ ρ} :
      c s = some (true, t) → P t (.next u) → Loop c P u o → Loop c P s o
  | ret {s t u : σ} {r : ρ} : c s = some (true, t) → P t (.ret r u) → Loop c P s (.ret r u)

section laws
variable {P Q R : Effect σ ρ} {c : σ → Option (Bool × σ)} {s : σ} {o : Out σ ρ}

theorem then_assoc : Then (Then P Q) R s o ↔ Then P (Then Q R) s o := by
  constructor
  · rintro (⟨h, hR⟩ | h)
    · cases h with
      | next hP hQ => exact .next hP (.next hQ hR)
    · cases h with
      | next hP hQ => exact .next hP (.ret hQ)
      | ret hP => exact .ret hP
  · rintro (⟨hP, h⟩ | hP)
    · cases h with
      | next hQ hR => exact .next (.next hP hQ) hR
      | ret hQ => exact .ret (.next hP hQ)
    · exact .ret (.ret hP)

theorem then_or : Then (fun s o => P s o ∨ Q s o) R s o ↔ Then P R s o ∨ Then Q R s o := by
  constructor
  · rintro (⟨hP | hQ, hR⟩ | hP | hQ)
    · exact Or.inl (.next hP hR)
    · exact Or.inr (.next hQ hR)
    · exact Or.inl (.ret hP)
    · exact Or.inr (.ret hQ)
  · rintro ((⟨hP, hR⟩ | hP) | (⟨hQ, hR⟩ | hQ))
    · exact .next (Or.inl hP) hR
    · exact .ret (Or.inl hP)
    · exact .next (Or.inr hQ) hR
    · exact .ret (Or.inr hQ)

theorem then_congr {P' : Effect σ ρ} (h : ∀ x, P s x ↔ P' s x) : Then P Q s o ↔ Then P' Q s o := by
  constructor
  · rintro (⟨hP, hQ⟩ | hP)
    · exact .next ((h _).1 hP) hQ
    · exact .ret ((h _).1 hP)
  · rintro (⟨hP, hQ⟩ | hP)
    · exact .next ((h _).2 hP) hQ
    · exact .ret ((h _).2 hP)

theorem then_iff_of_next {t : σ} (h : ∀ x, P s x ↔ x = .next t) : Then P Q s o ↔ Q t o := by
  constructor
  · rintro (⟨hP, hQ⟩ | hP)
    · cases (h _).1 hP
      exact hQ
    · cases (h _).1 hP
  · intro hQ
    exact .next ((h _).2 rfl) hQ

theorem not_then_of_false (h : ∀ x, ¬ P s x) : ¬ Then P Q s o := by
  rintro (⟨hP, -⟩ | hP)
  · exact h _ hP
  · exact h _ hP

end laws

/-! ## Statements -/

inductive Stmt (σ ρ L : Type) where
  | act (f : σ → Option σ)
  | seq (a b : Stmt σ ρ L)
  | ite (c : σ → Option (Bool × σ)) (a b : Stmt σ ρ L)
  | loop (c : σ → Option (Bool × σ)) (a : Stmt σ ρ L)
  | case (l : L)
  | ret (r : ρ)

namespace Stmt

def labels : Stmt σ ρ L → List L
  | act _ => []
  | seq a b => a.labels ++ b.labels
  | ite _ a b => a.labels ++ b.labels
  | loop _ a => a.labels
  | case l => [l]
  | ret _ => []

/-- A run from the beginning. -/
def Exec : Stmt σ ρ L → Effect σ ρ
  | act f => fun s o => ∃ t, f s = some t ∧ o = .next t
  | seq a b => Then a.Exec b.Exec
  | ite c a b => fun s o => ∃ x t, c s = some (x, t) ∧ if x then a.Exec t o else b.Exec t o
  | loop c a => Loop c a.Exec
  | case _ => fun s o => o = .next s
  | ret r => fun s o => o = .ret r s

theorem exec_act_some (f : σ → σ) (s : σ) (o : Out σ ρ) :
    (act fun s => some (f s) : Stmt σ ρ L).Exec s o ↔ o = .next (f s) := by
  simp [Exec]

/-- A run from `case l:`. -/
def Jump (l : L) : Stmt σ ρ L → Effect σ ρ
  | act _ => fun _ _ => False
  | seq a b => fun s o => Then (a.Jump l) b.Exec s o ∨ b.Jump l s o
  | ite _ a b => fun s o => a.Jump l s o ∨ b.Jump l s o
  | loop c a => Then (a.Jump l) (Loop c a.Exec)
  | case l' => fun s o => l = l' ∧ o = .next s
  | ret _ => fun _ _ => False

theorem not_jump {l : L} {b : Stmt σ ρ L} (hl : l ∉ b.labels) (s : σ) (o : Out σ ρ) :
    ¬ b.Jump l s o := by
  induction b generalizing s o with
  | act f => exact id
  | seq a b iha ihb =>
    simp only [labels, List.mem_append, not_or] at hl
    rintro (h | h)
    · exact not_then_of_false (iha hl.1 s) h
    · exact ihb hl.2 s o h
  | ite c a b iha ihb =>
    simp only [labels, List.mem_append, not_or] at hl
    rintro (h | h)
    · exact iha hl.1 s o h
    · exact ihb hl.2 s o h
  | loop c a ih => exact not_then_of_false (ih hl s)
  | case l' =>
    rintro ⟨rfl, -⟩
    exact hl (List.mem_singleton.2 rfl)
  | ret r => exact id

/-- `switch (x) { b }`: without a label that is `x`, nothing is done. -/
def Select (x : L) (b : Stmt σ ρ L) : Effect σ ρ :=
  fun s o => b.Jump x s o ∨ x ∉ b.labels ∧ o = .next s

theorem select_iff {x : L} {b : Stmt σ ρ L} (hx : x ∈ b.labels) (s : σ) (o : Out σ ρ) :
    b.Select x s o ↔ b.Jump x s o :=
  or_iff_left fun h => h.1 hx

end Stmt

end Switch
