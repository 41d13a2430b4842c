import Mathlib.Logic.Function.Basic
import Mathlib.Data.List.Induction
import Mathlib.Tactic.Common

/-!
# A log of copies with a newer flag

Places (`α`) hold at most one copy each.  A copy carries a key, a value and a
newer flag.  Replacing the value of a key takes three updates of single places:
clear the flag of the old copy (`age`), put a flagged copy at a free place
(`put`), drop the old copy (`drop`).

`Represents A M` says which map `M` a log `A` stands for: each key of `M` has a
copy that *wins*, i.e. it is the only copy of the key or the only flagged one.
Every update keeps the log representing a map, and only `put` changes it
(`Represents.age`, `Represents.put`, `Represents.drop`).

A reader that walks over the places in some order and keeps one candidate per
key, replaced only when it is unflagged and the next copy is flagged (`elect`),
ends with the first flagged copy, or else the first one (`elect_eq_find`), which
is the winner if there is one (`Wins.elected`); dropping the copies it passed over on
the way changes nothing (`Represents.survivors`).
-/

namespace NewerLog

variable {α κ ν : Type}

structure Copy (κ ν : Type) where
  key : κ
  newer : Bool
  val : ν
deriving DecidableEq

/-- What each place holds. -/
abbrev Image (α κ ν : Type) := α → Option (Copy κ ν)

/-- `c`, held at `a`, beats every other copy of its key. -/
structure Wins (A : Image α κ ν) (a : α) (c : Copy κ ν) : Prop where
  holds : A a = some c
  beats : ∀ b d, A b = some d → d.key = c.key → b ≠ a → c.newer = true ∧ d.newer = false

/-- The log `A` stands for the map `M`. -/
structure Represents (A : Image α κ ν) (M : κ → Option ν) : Prop where
  known : ∀ a c, A a = some c → (M c.key).isSome
  won : ∀ k v, M k = some v → ∃ a c, Wins A a c ∧ c.key = k ∧ c.val = v

/-- No key has two copies. -/
def Single (A : Image α κ ν) : Prop :=
  ∀ a b c d, A a = some c → A b = some d → c.key = d.key → a = b

theorem Wins.unique {A : Image α κ ν} {a b : α} {c d : Copy κ ν} (ha : Wins A a c)
    (hb : Wins A b d) (hk : c.key = d.key) : a = b := by
  by_contra hne
  have h₁ := (ha.beats b d hb.holds hk.symm (Ne.symm hne)).1
  have h₂ := (hb.beats a c ha.holds hk hne).2
  rw [h₁] at h₂
  cases h₂

theorem Represents.absent {A : Image α κ ν} {M : κ → Option ν} (h : Represents A M) {k : κ}
    (hk : M k = none) (a : α) (c : Copy κ ν) (ha : A a = some c) : c.key ≠ k := by
  rintro rfl
  have := h.known a c ha
  rw [hk] at this
  cases this

/-- A log stands for at most one map. -/
theorem Represents.unique {A : Image α κ ν} {M N : κ → Option ν} (h : Represents A M)
    (h' : Represents A N) : M = N := by
  funext k
  cases hk : M k with
  | none =>
    cases hk' : N k with
    | none => rfl
    | some v =>
      obtain ⟨a, c, hw, hc, -⟩ := h'.won k v hk'
      exact absurd hc (h.absent hk a c hw.holds)
  | some v =>
    obtain ⟨a, c, hw, hc, rfl⟩ := h.won k v hk
    have hN := h'.known a c hw.holds
    rw [hc] at hN
    obtain ⟨u, hu⟩ := Option.isSome_iff_exists.1 hN
    obtain ⟨b, d, hw', hd, rfl⟩ := h'.won k u hu
    obtain rfl := hw.unique hw' (hc.trans hd.symm)
    have := hw.holds.symm.trans hw'.holds
    rw [hu, Option.some.inj this]

theorem Single.wins {A : Image α κ ν} (h : Single A) {a : α} {c : Copy κ ν} (ha : A a = some c) :
    Wins A a c :=
  ⟨ha, fun b d hb hk hne => absurd (h b a d c hb ha hk) hne⟩

/-! ## Updates of one place -/

section update
variable [DecidableEq α]

/-- Clearing the flag of the only copy of a key. -/
theorem Represents.age {A : Image α κ ν} {M : κ → Option ν} (h : Represents A M) {a : α}
    {c : Copy κ ν} (ha : A a = some c) (hs : ∀ b d, A b = some d → d.key = c.key → b = a) :
    Represents (Function.update A a (some { c with newer := false })) M where
  known := by
    intro b d hb
    by_cases hba : b = a
    · subst hba
      rw [Function.update_self] at hb
      cases hb
      exact h.known b c ha
    · rw [Function.update_of_ne hba] at hb
      exact h.known b d hb
  won := by
    intro k v hk
    obtain ⟨b, d, hw, rfl, rfl⟩ := h.won k v hk
    by_cases hba : b = a
    · subst hba
      obtain rfl : c = d := Option.some.inj (ha.symm.trans hw.holds)
      refine ⟨b, { c with newer := false }, ⟨Function.update_self .., ?_⟩, rfl, rfl⟩
      intro e f he hf hne
      rw [Function.update_of_ne hne] at he
      exact absurd (hs e f he hf) hne
    · refine ⟨b, d, ⟨by rw [Function.update_of_ne hba]; exact hw.holds, ?_⟩, rfl, rfl⟩
      intro e f he hf hne
      by_cases hea : e = a
      · subst hea
        rw [Function.update_self] at he
        cases he
        exact absurd (hs b d hw.holds hf.symm) hba
      · rw [Function.update_of_ne hea] at he
        exact hw.beats e f he hf hne

/-- Putting a flagged copy at a free place, over unflagged copies of the same key. -/
theorem Represents.put [DecidableEq κ] {A : Image α κ ν} {M : κ → Option ν}
    (h : Represents A M) {p : α} {c : Copy κ ν} (hp : A p = none) (hc : c.newer = true)
    (hold : ∀ b d, A b = some d → d.key = c.key → d.newer = false) :
    Represents (Function.update A p (some c)) (Function.update M c.key (some c.val)) where
  known := by
    intro b d hb
    by_cases hk : d.key = c.key
    · rw [hk, Function.update_self]; rfl
    · rw [Function.update_of_ne hk]
      by_cases hbp : b = p
      · subst hbp
        rw [Function.update_self] at hb
        cases hb
        exact absurd rfl hk
      · rw [Function.update_of_ne hbp] at hb
        exact h.known b d hb
  won := by
    intro k v hk
    by_cases hkc : k = c.key
    · subst hkc
      rw [Function.update_self] at hk
      refine ⟨p, c, ⟨Function.update_self .., ?_⟩, rfl, Option.some.inj hk⟩
      intro b d hb hd hne
      rw [Function.update_of_ne hne] at hb
      exact ⟨hc, hold b d hb hd⟩
    · rw [Function.update_of_ne hkc] at hk
      obtain ⟨b, d, hw, rfl, rfl⟩ := h.won k v hk
      have hbp : b ≠ p := by
        rintro rfl
        exact absurd (hp.symm.trans hw.holds) (by simp)
      refine ⟨b, d, ⟨by rw [Function.update_of_ne hbp]; exact hw.holds, ?_⟩, rfl, rfl⟩
      intro e f he hf hne
      by_cases hep : e = p
      · subst hep
        rw [Function.update_self] at he
        cases he
        exact absurd hf.symm hkc
      · rw [Function.update_of_ne hep] at he
        exact hw.beats e f he hf hne

/-- Dropping a copy that another copy of its key beats. -/
theorem Represents.drop {A : Image α κ ν} {M : κ → Option ν} (h : Represents A M) {a b : α}
    {c d : Copy κ ν} (hw : Wins A a c) (hb : A b = some d) (hk : d.key = c.key) (hne : b ≠ a) :
    Represents (Function.update A b none) M where
  known := by
    intro e f he
    by_cases heb : e = b
    · subst heb
      rw [Function.update_self] at he
      cases he
    · rw [Function.update_of_ne heb] at he
      exact h.known e f he
  won := by
    intro k v hv
    obtain ⟨e, f, hwe, rfl, rfl⟩ := h.won k v hv
    have heb : e ≠ b := by
      rintro rfl
      obtain rfl : d = f := Option.some.inj (hb.symm.trans hwe.holds)
      exact hne (hwe.unique hw hk)
    refine ⟨e, f, ⟨by rw [Function.update_of_ne heb]; exact hwe.holds, ?_⟩, rfl, rfl⟩
    intro x y hx hy hxe
    by_cases hxb : x = b
    · subst hxb
      rw [Function.update_self] at hx
      cases hx
    · rw [Function.update_of_ne hxb] at hx
      exact hwe.beats x y hx hy hxe

end update

/-! ## Election by a walk over the places -/

section elect
variable [DecidableEq κ]

/-- The candidate `o` of key `k` after the walk has looked at `a`. -/
def electStep (A : Image α κ ν) (k : κ) (o : Option α) (a : α) : Option α :=
  match A a with
  | none => o
  | some c =>
    if c.key = k then
      match o.bind A with
      | none => some a
      | some d => if d.newer = false ∧ c.newer = true then some a else o
    else o

/-- The candidate of key `k` after a walk over `l`. -/
def elect (A : Image α κ ν) (k : κ) (l : List α) : Option α := l.foldl (electStep A k) none

theorem elect_snoc (A : Image α κ ν) (k : κ) (l : List α) (a : α) :
    elect A k (l ++ [a]) = electStep A k (elect A k l) a := by
  simp [elect, List.foldl_append]

/-- The candidate is a copy of its key among the places seen. -/
theorem elect_some {A : Image α κ ν} {k : κ} {l : List α} {a : α} (h : elect A k l = some a) :
    a ∈ l ∧ ∃ c, A a = some c ∧ c.key = k := by
  induction l using List.reverseRecOn generalizing a with
  | nil => cases h
  | append_singleton l b ih =>
    rw [elect_snoc] at h
    unfold electStep at h
    cases hb : A b with
    | none =>
      rw [hb] at h
      obtain ⟨hm, hc⟩ := ih h
      exact ⟨List.mem_append_left _ hm, hc⟩
    | some c =>
      rw [hb] at h
      simp only at h
      split at h
      · next hk =>
        have hself : some b = some a → a ∈ l ++ [b] ∧ ∃ c, A a = some c ∧ c.key = k := by
          rintro ⟨⟩
          exact ⟨by simp, c, hb, hk⟩
        split at h
        · exact hself h
        · split at h
          · exact hself h
          · obtain ⟨hm, hc⟩ := ih h
            exact ⟨List.mem_append_left _ hm, hc⟩
      · obtain ⟨hm, hc⟩ := ih h
        exact ⟨List.mem_append_left _ hm, hc⟩

theorem elect_isSome {A : Image α κ ν} {k : κ} {l : List α} {a : α} {c : Copy κ ν} (hm : a ∈ l)
    (ha : A a = some c) (hk : c.key = k) : (elect A k l).isSome := by
  induction l using List.reverseRecOn with
  | nil => cases hm
  | append_singleton l b ih =>
    rw [elect_snoc]
    rcases List.mem_append.1 hm with hm | hm
    · obtain ⟨x, hx⟩ := Option.isSome_iff_exists.1 (ih hm)
      rw [hx]
      unfold electStep
      repeat' (split <;> try rfl)
    · obtain rfl : a = b := by simpa using hm
      unfold electStep
      rw [ha]
      simp only [if_pos hk]
      split
      · rfl
      · next d hd =>
        split
        · rfl
        · obtain ⟨x, hx, -⟩ := Option.bind_eq_some_iff.1 hd
          rw [hx]; rfl

/-- The winner is elected as soon as it has been seen. -/
theorem Wins.elected {A : Image α κ ν} {a : α} {c : Copy κ ν} (hw : Wins A a c) {l : List α}
    (hm : a ∈ l) : elect A c.key l = some a := by
  induction l using List.reverseRecOn with
  | nil => cases hm
  | append_singleton l b ih =>
    rw [elect_snoc]
    unfold electStep
    by_cases hba : b = a
    · -- the winner itself: any earlier candidate is unflagged
      subst hba
      rw [hw.holds]
      simp only [if_true]
      cases he : elect A c.key l with
      | none => rfl
      | some x =>
        obtain ⟨-, d, hd, hk⟩ := elect_some he
        rw [Option.bind_some, hd]
        by_cases hxb : x = b
        · subst hxb; simp
        · have := hw.beats x d hd hk hxb
          simp [this.1, this.2]
    · -- another place: the winner is already the candidate
      have hml : a ∈ l := by
        rcases List.mem_append.1 hm with h | h
        · exact h
        · exact absurd (by simpa using h) (Ne.symm hba)
      rw [ih hml]
      split
      · rfl
      · next d hd =>
        split
        · next hk =>
          have := hw.beats b d hd hk hba
          rw [Option.bind_some, hw.holds]
          simp [this.2]
        · rfl

/-! ### One more place -/

theorem elect_snoc_none {A : Image α κ ν} {a : α} (ha : A a = none) (k : κ) (l : List α) :
    elect A k (l ++ [a]) = elect A k l := by
  rw [elect_snoc]
  unfold electStep
  rw [ha]

theorem elect_snoc_ne {A : Image α κ ν} {a : α} {c : Copy κ ν} (ha : A a = some c) {k : κ}
    (hk : c.key ≠ k) (l : List α) : elect A k (l ++ [a]) = elect A k l := by
  rw [elect_snoc]
  unfold electStep
  rw [ha]
  exact if_neg hk

theorem elect_snoc_first {A : Image α κ ν} {a : α} {c : Copy κ ν} (ha : A a = some c) {l : List α}
    (he : elect A c.key l = none) : elect A c.key (l ++ [a]) = some a := by
  rw [elect_snoc, he]
  unfold electStep
  rw [ha]
  exact if_pos rfl

theorem elect_snoc_some {A : Image α κ ν} {a b : α} {c d : Copy κ ν} (ha : A a = some c)
    {l : List α} (he : elect A c.key l = some b) (hb : A b = some d) :
    elect A c.key (l ++ [a]) = if d.newer = false ∧ c.newer = true then some a else some b := by
  rw [elect_snoc, he]
  unfold electStep
  rw [ha, Option.bind_some, hb]
  exact if_pos rfl

/-! ### Who is elected -/

/-- `a` holds a copy of `k`. -/
def holds (A : Image α κ ν) (k : κ) (a : α) : Bool := (A a).any fun c => c.key = k

/-- `a` holds a flagged copy of `k`. -/
def flagged (A : Image α κ ν) (k : κ) (a : α) : Bool := (A a).any fun c => c.key = k && c.newer

theorem flagged_iff {A : Image α κ ν} {k : κ} {a : α} :
    flagged A k a = true ↔ ∃ c, A a = some c ∧ c.key = k ∧ c.newer = true := by
  unfold flagged
  cases A a <;> simp

/-- The candidate after a walk: the first flagged copy, or else the first copy. -/
theorem elect_eq_find (A : Image α κ ν) (k : κ) (l : List α) :
    elect A k l = (l.find? (flagged A k)).or (l.find? (holds A k)) := by
  induction l using List.reverseRecOn with
  | nil => rfl
  | append_singleton l a ih =>
    rw [List.find?_append, List.find?_append]
    cases ha : A a with
    | none =>
      have h₁ : flagged A k a = false := by simp [flagged, ha]
      have h₂ : holds A k a = false := by simp [holds, ha]
      rw [elect_snoc_none ha, ih]
      simp [h₁, h₂]
    | some c =>
      by_cases hk : c.key = k
      · subst hk
        have h₁ : flagged A c.key a = c.newer := by simp [flagged, ha]
        have h₂ : holds A c.key a = true := by simp [holds, ha]
        cases he : elect A c.key l with
        | none =>
          rw [he] at ih
          rw [elect_snoc_first ha he]
          obtain ⟨hf, hh⟩ := Option.or_eq_none_iff.1 ih.symm
          rw [hf, hh]
          cases hn : c.newer with
          | true => simp [h₁, hn]
          | false => simp [h₁, h₂, hn]
        | some b =>
          obtain ⟨hbl, d, hb, hd⟩ := elect_some he
          rw [he] at ih
          rw [elect_snoc_some ha he hb]
          cases hf : l.find? (flagged A c.key) with
          | some x =>
            -- a flagged candidate stays
            rw [hf] at ih
            obtain rfl : b = x := by simpa using ih
            obtain ⟨d', hd', -, hn⟩ := flagged_iff.1 (List.find?_some hf)
            rw [hb] at hd'
            obtain rfl := Option.some.inj hd'
            simp [hn]
          | none =>
            rw [hf, Option.none_or] at ih
            have hn : d.newer = false := by
              have := List.find?_eq_none.1 hf b hbl
              simpa [flagged, hb, hd] using this
            cases hc : c.newer with
            | true => simp [hn, h₁, hc]
            | false => simp [← ih, h₁, hc]
      · have h₁ : flagged A k a = false := by simp [flagged, ha, hk]
        have h₂ : holds A k a = false := by simp [holds, ha, hk]
        rw [elect_snoc_ne ha hk, ih]
        simp [h₁, h₂]

/-- The only copy of a key is elected. -/
theorem elect_of_only {A : Image α κ ν} {k : κ} {l : List α} {a : α} (hm : a ∈ l)
    (ha : ∃ c, A a = some c ∧ c.key = k)
    (honly : ∀ b ∈ l, ∀ c, A b = some c → c.key = k → b = a) : elect A k l = some a := by
  obtain ⟨c, hc, hk⟩ := ha
  obtain ⟨b, hb⟩ := Option.isSome_iff_exists.1 (elect_isSome hm hc hk)
  obtain ⟨hbl, d, hd, hdk⟩ := elect_some hb
  rw [hb, honly b hbl d hd hdk]

variable [DecidableEq α]

/-- The log without the copies that a walk over `l` has passed over. -/
def survivors (A : Image α κ ν) (l : List α) : Image α κ ν := fun a =>
  match A a with
  | none => none
  | some c => if a ∈ l ∧ elect A c.key l ≠ some a then none else some c

theorem survivors_some {A : Image α κ ν} {l : List α} {a : α} {c : Copy κ ν} :
    survivors A l a = some c ↔ A a = some c ∧ (a ∈ l → elect A c.key l = some a) := by
  unfold survivors
  cases ha : A a with
  | none => simp
  | some d =>
    simp only [Option.some.injEq]
    split
    · next h =>
      simp only [reduceCtorEq, false_iff]
      rintro ⟨rfl, h'⟩
      exact h.2 (h' h.1)
    · next h =>
      simp only [Option.some.injEq, iff_self_and]
      rintro rfl hm
      by_contra hne
      exact h ⟨hm, hne⟩

theorem survivors_nil (A : Image α κ ν) : survivors A [] = A := by
  funext a
  unfold survivors
  cases A a <;> simp

/-- What a walk drops at its next step: nothing, the candidate, or the copy just met. -/
theorem survivors_snoc {A : Image α κ ν} {l : List α} {a : α} (o : Option α)
    (hdrop : ∀ x d, A x = some d → (x ∈ l ++ [a] ∧ elect A d.key (l ++ [a]) ≠ some x ↔
      (x ∈ l ∧ elect A d.key l ≠ some x) ∨ o = some x)) :
    survivors A (l ++ [a]) = fun x => if o = some x then none else survivors A l x := by
  funext x
  unfold survivors
  cases hx : A x with
  | none => simp
  | some d =>
    simp only [hdrop x d hx]
    by_cases ho : o = some x
    · rw [if_pos ho, if_pos (Or.inr ho)]
    · rw [if_neg ho]
      simp [ho]

theorem survivors_snoc_none {A : Image α κ ν} {l : List α} {a : α} (ha : A a = none) :
    survivors A (l ++ [a]) = survivors A l := by
  funext x
  unfold survivors
  cases hx : A x with
  | none => rfl
  | some d =>
    have hxa : x ≠ a := by
      rintro rfl
      rw [ha] at hx
      cases hx
    simp [elect_snoc_none ha, hxa]

theorem survivors_snoc_first {A : Image α κ ν} {l : List α} {a : α} {c : Copy κ ν}
    (ha : A a = some c) (he : elect A c.key l = none) :
    survivors A (l ++ [a]) = survivors A l := by
  have hno : ∀ x d, A x = some d → d.key = c.key → x ∉ l := by
    intro x d hx hk hm
    have := elect_isSome hm hx hk
    rw [he] at this
    cases this
  rw [survivors_snoc none]
  · funext x
    simp
  · intro x d hx
    by_cases hk : c.key = d.key
    · rw [← hk, elect_snoc_first ha he]
      have hxl := hno x d hx hk.symm
      simp [hxl, eq_comm]
    · rw [elect_snoc_ne ha hk]
      have hxa : x ≠ a := by
        rintro rfl
        rw [ha] at hx
        exact hk (congrArg Copy.key (Option.some.inj hx))
      simp [hxa]

/-- The candidate `b` and the copy at `a` of the same key: one of them is dropped. -/
theorem survivors_snoc_some {A : Image α κ ν} {l : List α} {a b : α} {c d : Copy κ ν}
    (ha : A a = some c) (hal : a ∉ l) (he : elect A c.key l = some b) (hb : A b = some d) :
    survivors A (l ++ [a]) = Function.update (survivors A l)
      (if d.newer = false ∧ c.newer = true then b else a) none := by
  have hbl := (elect_some he).1
  have hba : b ≠ a := fun h => hal (h ▸ hbl)
  rw [survivors_snoc (some (if d.newer = false ∧ c.newer = true then b else a))]
  · funext x
    by_cases hx : (if d.newer = false ∧ c.newer = true then b else a) = x
    · subst hx
      rw [Function.update_self]
      simp
    · rw [Function.update_of_ne (Ne.symm hx)]
      simp [hx]
  · intro x e hx
    by_cases hk : c.key = e.key
    · rw [← hk, elect_snoc_some ha he hb, he]
      by_cases hn : d.newer = false ∧ c.newer = true
      · simp only [if_pos hn, List.mem_append, List.mem_singleton, ne_eq, Option.some.injEq]
        constructor
        · rintro ⟨hm | rfl, hne⟩
          · by_cases hbx : b = x
            · exact Or.inr hbx
            · exact Or.inl ⟨hm, hbx⟩
          · exact absurd rfl hne
        · rintro (⟨hm, -⟩ | rfl)
          · exact ⟨Or.inl hm, fun h => hal (h ▸ hm)⟩
          · exact ⟨Or.inl hbl, Ne.symm hba⟩
      · simp only [if_neg hn, List.mem_append, List.mem_singleton, ne_eq, Option.some.injEq]
        constructor
        · rintro ⟨hm | rfl, hne⟩
          · exact Or.inl ⟨hm, hne⟩
          · exact Or.inr rfl
        · rintro (⟨hm, hne⟩ | rfl)
          · exact ⟨Or.inl hm, hne⟩
          · exact ⟨Or.inr rfl, hba⟩
    · rw [elect_snoc_ne ha hk]
      have hxa : x ≠ a := by
        rintro rfl
        rw [ha] at hx
        exact hk (congrArg Copy.key (Option.some.inj hx))
      have hxb : b ≠ x := by
        rintro rfl
        rw [hb] at hx
        obtain ⟨-, d', hd', hkd⟩ := elect_some he
        rw [hb] at hd'
        rw [← Option.some.inj hx, Option.some.inj hd'] at hk
        exact hk hkd.symm
      have hne : (if d.newer = false ∧ c.newer = true then b else a) ≠ x := by
        split
        · exact hxb
        · exact Ne.symm hxa
      simp [hxa, hne]

/-- A second walk elects the same. -/
theorem elect_survivors (A : Image α κ ν) (k : κ) (l : List α) :
    elect (survivors A l) k l = elect A k l := by
  cases he : elect A k l with
  | some a =>
    obtain ⟨hm, c, hc, rfl⟩ := elect_some he
    refine elect_of_only hm ⟨c, survivors_some.2 ⟨hc, fun _ => he⟩, rfl⟩ ?_
    intro b hb d hd hk
    have := (survivors_some.1 hd).2 hb
    rw [hk, he] at this
    exact (Option.some.inj this).symm
  | none =>
    cases he' : elect (survivors A l) k l with
    | none => rfl
    | some b =>
      obtain ⟨hm, d, hd, hk⟩ := elect_some he'
      have := elect_isSome hm (survivors_some.1 hd).1 hk
      rw [he] at this
      cases this

/-- A second walk passes nothing over. -/
theorem survivors_survivors (A : Image α κ ν) (l : List α) :
    survivors (survivors A l) l = survivors A l := by
  funext a
  cases ha : survivors A l a with
  | none =>
    unfold survivors at ha ⊢
    rw [ha]
  | some c =>
    rw [survivors_some, elect_survivors]
    exact ⟨ha, (survivors_some.1 ha).2⟩

theorem Represents.survivors {A : Image α κ ν} {M : κ → Option ν} (h : Represents A M)
    (l : List α) : Represents (survivors A l) M where
  known a c ha := h.known a c (survivors_some.1 ha).1
  won := by
    intro k v hk
    obtain ⟨a, c, hw, rfl, rfl⟩ := h.won k v hk
    refine ⟨a, c, ⟨survivors_some.2 ⟨hw.holds, hw.elected⟩, ?_⟩, rfl, rfl⟩
    intro b d hb hd hne
    exact hw.beats b d (survivors_some.1 hb).1 hd hne

end elect

/-! ## One copy too many -/

section spare
variable [DecidableEq α] {A B : Image α κ ν} {a p q : α} {c d : Copy κ ν}

/-- Without the copy at `a`, if there is one, no key has two copies. -/
def Spare (A : Image α κ ν) (a : α) : Prop := Single (Function.update A a none)

omit [DecidableEq α] in
theorem Single.of_keys (h : Single B)
    (hAB : ∀ a c, A a = some c → ∃ d, B a = some d ∧ d.key = c.key) : Single A := by
  intro a b c d ha hb hk
  obtain ⟨c', hc, hkc⟩ := hAB a c ha
  obtain ⟨d', hd, hkd⟩ := hAB b d hb
  exact h a b c' d' hc hd (hkc.trans (hk.trans hkd.symm))

theorem update_none_eq_some {b : α} :
    Function.update A a none b = some c ↔ b ≠ a ∧ A b = some c := by
  by_cases hb : b = a
  · subst hb
    rw [Function.update_self]
    exact ⟨fun h => (by cases h), fun h => absurd rfl h.1⟩
  · rw [Function.update_of_ne hb]
    exact ⟨fun h => ⟨hb, h⟩, fun h => h.2⟩

theorem Single.spare (h : Single A) (a : α) : Spare A a :=
  h.of_keys fun _ c hb => ⟨c, (update_none_eq_some.1 hb).2, rfl⟩

/-- The copy of a key is replaced by another one. -/
theorem Single.replace (h : Single A) (hq : A q = some d) (hk : c.key = d.key) :
    Single (Function.update A q (some c)) := by
  refine h.of_keys fun b e hb => ?_
  by_cases hbq : b = q
  · subst hbq
    rw [Function.update_self] at hb
    cases hb
    exact ⟨d, hq, hk.symm⟩
  · rw [Function.update_of_ne hbq] at hb
    exact ⟨e, hb, rfl⟩

/-- A second copy of a key makes the first one spare. -/
theorem Single.spare_put (h : Single A) (hq : A q = some d) (hk : c.key = d.key) (hne : q ≠ p) :
    Spare (Function.update A p (some c)) q := by
  intro x y e f hx' hy' hxy
  obtain ⟨hxq, hx⟩ := update_none_eq_some.1 hx'
  obtain ⟨hyq, hy⟩ := update_none_eq_some.1 hy'
  have hold : ∀ z g, z ≠ q → z ≠ p → Function.update A p (some c) z = some g →
      A z = some g ∧ g.key ≠ c.key := by
    intro z g hzq hzp hz
    rw [Function.update_of_ne hzp] at hz
    exact ⟨hz, fun hg => hzq (h z q g d hz hq (hg.trans hk))⟩
  by_cases hxp : x = p
  · by_cases hyp : y = p
    · exact hxp.trans hyp.symm
    · subst hxp
      rw [Function.update_self] at hx
      cases hx
      exact absurd hxy.symm (hold y f hyq hyp hy).2
  · by_cases hyp : y = p
    · subst hyp
      rw [Function.update_self] at hy
      cases hy
      exact absurd hxy (hold x e hxq hxp hx).2
    · exact h x y e f (hold x e hxq hxp hx).1 (hold y f hyq hyp hy).1 hxy

/-- What is at the spare place does not matter. -/
theorem Spare.update (h : Spare A a) (x : Option (Copy κ ν)) :
    Spare (Function.update A a x) a := by
  unfold Spare
  rw [Function.update_idem]
  exact h

/-- The spare copy is one of two that have the same key. -/
theorem Spare.eq_or (h : Spare A a) (hp : A p = some c) (hq : A q = some d) (hk : c.key = d.key)
    (hne : p ≠ q) : a = p ∨ a = q := by
  by_contra hno
  rw [not_or] at hno
  exact hne (h p q c d (update_none_eq_some.2 ⟨Ne.symm hno.1, hp⟩)
    (update_none_eq_some.2 ⟨Ne.symm hno.2, hq⟩) hk)

/-- No third copy has the key. -/
theorem Spare.third (h : Spare A a) (hp : A p = some c) (hq : A q = some d) (hk : c.key = d.key)
    (hne : p ≠ q) {b : α} {e : Copy κ ν} (hb : A b = some e) (he : e.key = c.key) :
    b = p ∨ b = q := by
  by_contra hno
  rw [not_or] at hno
  rcases h.eq_or hp hq hk hne with rfl | rfl
  · rcases h.eq_or hb hq (he.trans hk) hno.2 with h₁ | h₁
    · exact hno.1 h₁.symm
    · exact hne h₁
  · rcases h.eq_or hb hp he hno.1 with h₁ | h₁
    · exact hno.2 h₁.symm
    · exact hne h₁.symm

/-- Of two copies of a key either is the spare one. -/
theorem Spare.either (h : Spare A a) (hp : A p = some c) (hq : A q = some d) (hk : c.key = d.key)
    (hne : p ≠ q) : Spare A p := by
  intro x y e f hx' hy' hxy
  obtain ⟨hxp, hx⟩ := update_none_eq_some.1 hx'
  obtain ⟨hyp, hy⟩ := update_none_eq_some.1 hy'
  by_contra hxne
  -- otherwise `x` and `y` are two copies of a key beside `p`
  rcases h.eq_or hp hq hk hne with rfl | rfl
  · rcases h.eq_or hx hy hxy hxne with h₁ | h₁
    · exact hxp h₁.symm
    · exact hyp h₁.symm
  · rcases h.eq_or hx hy hxy hxne with rfl | rfl
    · obtain rfl : d = e := Option.some.inj (hq.symm.trans hx)
      rcases h.third hp hq hk hne hy (hxy.symm.trans hk.symm) with h₁ | h₁
      · exact hyp h₁
      · exact hxne h₁.symm
    · obtain rfl : d = f := Option.some.inj (hq.symm.trans hy)
      rcases h.third hp hq hk hne hx (hxy.trans hk.symm) with h₁ | h₁
      · exact hxp h₁
      · exact hxne h₁

/-- Of the two copies of a key one has its flag set, which is the one that wins. -/
theorem Represents.flags {M : κ → Option ν} (hM : Represents A M) (h : Spare A a)
    (hp : A p = some c) (hq : A q = some d) (hk : c.key = d.key) (hne : p ≠ q) :
    (c.newer = true ∧ d.newer = false) ∨ (d.newer = true ∧ c.newer = false) := by
  obtain ⟨v, hv⟩ := Option.isSome_iff_exists.1 (hM.known p c hp)
  obtain ⟨b, e, hw, he, -⟩ := hM.won _ v hv
  rcases h.third hp hq hk hne hw.holds he with rfl | rfl
  · obtain rfl : c = e := Option.some.inj (hp.symm.trans hw.holds)
    exact Or.inl (hw.beats q d hq hk.symm (Ne.symm hne))
  · obtain rfl : d = e := Option.some.inj (hq.symm.trans hw.holds)
    exact Or.inr (hw.beats p c hp hk hne)

end spare

end NewerLog
