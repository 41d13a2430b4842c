import Wormvars.Runs
import Wormvars.Switch

/-!
# Protothreads

A protothread is a function that returns where it waits or yields and goes on from there
when it is called again.  All it keeps is a label; the macros of `pt.h` and
`lc-switch.h` turn it into a `switch` on that label around the body, with a `case` at
each wait and yield.

`Thread` is a body before the macros and `expand` what they make of it, for which
`Calls` is a call of the function.  `Resumes` says what is meant: the statements that
are left to do are kept between calls, and no label is looked at.  The two agree for
each call (`calls_iff_resumes`) and so over any run of calls, whatever else is done to the
globals between them (`run_iff`).
-/

namespace Protothread

open Switch Runs

variable {σ ι L : Type}

inductive Code where
  | waiting
  | yielded
  | exited
  | ended
deriving DecidableEq

/-! ## Bodies -/

/-- Actions and tests see the arguments of the call and the globals, and may have no value. -/
inductive Thread (σ ι L : Type) where
  | act (f : ι → σ → Option σ)
  | seq (x y : Thread σ ι L)
  | ite (c : ι → σ → Option (Bool × σ)) (x y : Thread σ ι L)
  | loop (c : ι → σ → Option (Bool × σ)) (x : Thread σ ι L)
  | waitUntil (l : L) (c : ι → σ → Bool)
  | yield (l : L)
  | restart

/-- `struct pt` in the globals: the label `lc`. -/
structure Pt (σ L : Type) where
  lc : σ → L
  setLc : L → σ → σ
  null : L
  lc_setLc : ∀ l s, lc (setLc l s) = l
  setLc_lc : ∀ s, setLc (lc s) s = s

attribute [simp] Pt.lc_setLc Pt.setLc_lc

/-- What the function sees: the globals, its arguments and `PT_YIELD_FLAG`. -/
structure Frame (σ ι : Type) where
  globals : σ
  args : ι
  ptYieldFlag : Bool

/-! ## The macros -/

section macros
variable (p : Pt σ L)

def skip : Stmt (Frame σ ι) Code L := .act some

def setFlag (b : Bool) : Stmt (Frame σ ι) Code L := .act fun m => some { m with ptYieldFlag := b }

def ptInit : Stmt (Frame σ ι) Code L :=
  .act fun m => some { m with globals := p.setLc p.null m.globals }

/-- `s = __LINE__; case __LINE__:` -/
def lcSet (l : L) : Stmt (Frame σ ι) Code L :=
  .seq (.act fun m => some { m with globals := p.setLc l m.globals }) (.case l)

def ptWaitUntil (l : L) (c : ι → σ → Bool) : Stmt (Frame σ ι) Code L :=
  .seq (lcSet p l) (.ite (fun m => some (!c m.args m.globals, m)) (.ret .waiting) skip)

def ptYield (l : L) : Stmt (Frame σ ι) Code L :=
  .seq (setFlag false)
    (.seq (lcSet p l) (.ite (fun m => some (!m.ptYieldFlag, m)) (.ret .yielded) skip))

def ptRestart : Stmt (Frame σ ι) Code L := .seq (ptInit p) (.ret .waiting)

/-- `PT_END` after the end of the `switch`. -/
def ptEnd : Stmt (Frame σ ι) Code L := .seq (setFlag false) (.seq (ptInit p) (.ret .ended))

def Thread.expand : Thread σ ι L → Stmt (Frame σ ι) Code L
  | act f => .act fun m => (f m.args m.globals).map fun s => { m with globals := s }
  | seq x y => .seq x.expand y.expand
  | ite c x y => .ite
      (fun m => (c m.args m.globals).map fun r => (r.1, { m with globals := r.2 }))
      x.expand y.expand
  | loop c x => .loop
      (fun m => (c m.args m.globals).map fun r => (r.1, { m with globals := r.2 })) x.expand
  | waitUntil l c => ptWaitUntil p l c
  | yield l => ptYield p l
  | restart => ptRestart p

/-- A call of the function `PT_BEGIN; body; PT_END` returns `c` and leaves the globals `t`. -/
def Calls (body : Thread σ ι L) (a : ι) (s : σ) (c : Code) (t : σ) : Prop :=
  ∃ m, Then (Stmt.Select (p.lc s) (.seq (.case p.null) (body.expand p))) (ptEnd p).Exec
    ⟨s, a, true⟩ (.ret c m) ∧ m.globals = t

end macros

/-! ## What is left to do -/

namespace Thread

def labels : Thread σ ι L → List L
  | act _ => []
  | seq x y => x.labels ++ y.labels
  | ite _ x y => x.labels ++ y.labels
  | loop _ x => x.labels
  | waitUntil l _ => [l]
  | yield l => [l]
  | restart => []

variable [DecidableEq L]

/-- What is left to do at the label `l`, if `k` is left after the statement. -/
def after (l : L) : Thread σ ι L → List (Thread σ ι L) → Option (List (Thread σ ι L))
  | act _, _ => none
  | seq x y, k => (x.after l (y :: k)).or (y.after l k)
  | ite _ x y, k => (x.after l k).or (y.after l k)
  | loop c x, k => x.after l (loop c x :: k)
  | waitUntil l' c, k => if l = l' then some (waitUntil l' c :: k) else none
  | yield l', k => if l = l' then some k else none
  | restart, _ => none

theorem isSome_after (l : L) (x : Thread σ ι L) (k : List (Thread σ ι L)) :
    (x.after l k).isSome ↔ l ∈ x.labels := by
  induction x generalizing k with
  | act f => simp [after, labels]
  | seq x y ihx ihy => simp [after, labels, ihx, ihy]
  | ite c x y ihx ihy => simp [after, labels, ihx, ihy]
  | loop c x ih => exact ih _
  | waitUntil l' c =>
    unfold after labels
    split <;> simp_all
  | yield l' =>
    unfold after labels
    split <;> simp_all
  | restart => simp [after, labels]

theorem after_eq_none {l : L} {x : Thread σ ι L} (h : l ∉ x.labels) (k : List (Thread σ ι L)) :
    x.after l k = none := by
  rw [← Option.not_isSome_iff_eq_none, isSome_after]
  exact h

/-- A label stands in one of two parts. -/
theorem of_or_after {l : L} {x y : Thread σ ι L} {k₁ k₂ k : List (Thread σ ι L)}
    (hd : x.labels.Disjoint y.labels) (h : (x.after l k₁).or (y.after l k₂) = some k) :
    l ∉ y.labels ∧ x.after l k₁ = some k ∨ l ∉ x.labels ∧ y.after l k₂ = some k := by
  by_cases hl : l ∈ x.labels
  · obtain ⟨k', hk'⟩ := Option.isSome_iff_exists.1 ((x.isSome_after l k₁).2 hl)
    rw [hk', Option.some_or] at h
    exact Or.inl ⟨hd hl, hk'.trans h⟩
  · rw [after_eq_none hl, Option.none_or] at h
    exact Or.inr ⟨hl, h⟩

end Thread

/-- A body with labels that are distinct and not null, as line numbers are. -/
structure Program (σ ι L : Type) where
  pt : Pt σ L
  body : Thread σ ι L
  nodup : body.labels.Nodup
  null_notMem : pt.null ∉ body.labels

/-- What is left to do when the label is `l`. -/
def Program.left [DecidableEq L] (P : Program σ ι L) (l : L) : Option (List (Thread σ ι L)) :=
  if l = P.pt.null then some [P.body] else P.body.after l []

/-- A call of a thread that has `k` left to do: it returns `c` with `k'` left, and the globals are
`t`.  The labels are written, but not read. -/
inductive Resumes (P : Program σ ι L) (a : ι) :
    List (Thread σ ι L) → σ → Code → List (Thread σ ι L) → σ → Prop
  | act {f k k' s t u c} : f a s = some t → Resumes P a k t c k' u →
      Resumes P a (.act f :: k) s c k' u
  | seq {x y k k' s u c} : Resumes P a (x :: y :: k) s c k' u →
      Resumes P a (.seq x y :: k) s c k' u
  | iteTrue {e x y k k' s t u c} : e a s = some (true, t) → Resumes P a (x :: k) t c k' u →
      Resumes P a (.ite e x y :: k) s c k' u
  | iteFalse {e x y k k' s t u c} : e a s = some (false, t) → Resumes P a (y :: k) t c k' u →
      Resumes P a (.ite e x y :: k) s c k' u
  | loopTrue {e x k k' s t u c} : e a s = some (true, t) →
      Resumes P a (x :: .loop e x :: k) t c k' u → Resumes P a (.loop e x :: k) s c k' u
  | loopFalse {e x k k' s t u c} : e a s = some (false, t) → Resumes P a k t c k' u →
      Resumes P a (.loop e x :: k) s c k' u
  | pass {l e k k' s u c} : e a (P.pt.setLc l s) = true →
      Resumes P a k (P.pt.setLc l s) c k' u → Resumes P a (.waitUntil l e :: k) s c k' u
  | wait {l e k s} : e a (P.pt.setLc l s) = false →
      Resumes P a (.waitUntil l e :: k) s .waiting (.waitUntil l e :: k) (P.pt.setLc l s)
  | yield {l k s} : Resumes P a (.yield l :: k) s .yielded k (P.pt.setLc l s)
  | restart {k s} : Resumes P a (.restart :: k) s .waiting [P.body] (P.pt.setLc P.pt.null s)
  | ended {s} : Resumes P a [] s .ended [P.body] (P.pt.setLc P.pt.null s)

/-! ## One statement of a thread -/

/-- A call returns `c` and leaves the globals `t`. -/
def Stops (P : Program σ ι L) (a : ι) (k : List (Thread σ ι L)) (s : σ) (c : Code) (t : σ) : Prop :=
  ∃ k', Resumes P a k s c k' t

section stops
variable {P : Program σ ι L} {a : ι} {k : List (Thread σ ι L)} {x y : Thread σ ι L}
  {e : ι → σ → Option (Bool × σ)} {s u : σ} {c : Code}

theorem stops_act (f : ι → σ → Option σ) :
    Stops P a (.act f :: k) s c u ↔ ∃ t, f a s = some t ∧ Stops P a k t c u := by
  constructor
  · rintro ⟨k', h⟩
    cases h with
    | act hf hk => exact ⟨_, hf, k', hk⟩
  · rintro ⟨t, hf, k', hk⟩
    exact ⟨k', .act hf hk⟩

theorem stops_seq : Stops P a (.seq x y :: k) s c u ↔ Stops P a (x :: y :: k) s c u := by
  constructor
  · rintro ⟨k', h⟩
    cases h with
    | seq hk => exact ⟨k', hk⟩
  · rintro ⟨k', hk⟩
    exact ⟨k', .seq hk⟩

theorem stops_ite : Stops P a (.ite e x y :: k) s c u ↔
    ∃ b t, e a s = some (b, t) ∧ Stops P a ((if b then x else y) :: k) t c u := by
  constructor
  · rintro ⟨k', h⟩
    cases h with
    | iteTrue he hk => exact ⟨true, _, he, k', hk⟩
    | iteFalse he hk => exact ⟨false, _, he, k', hk⟩
  · rintro ⟨b, t, he, k', hk⟩
    cases b with
    | true => exact ⟨k', .iteTrue he hk⟩
    | false => exact ⟨k', .iteFalse he hk⟩

theorem stops_loop : Stops P a (.loop e x :: k) s c u ↔
    ∃ b t, e a s = some (b, t) ∧ Stops P a (if b then x :: .loop e x :: k else k) t c u := by
  constructor
  · rintro ⟨k', h⟩
    cases h with
    | loopTrue he hk => exact ⟨true, _, he, k', hk⟩
    | loopFalse he hk => exact ⟨false, _, he, k', hk⟩
  · rintro ⟨b, t, he, k', hk⟩
    cases b with
    | true => exact ⟨k', .loopTrue he hk⟩
    | false => exact ⟨k', .loopFalse he hk⟩

theorem stops_waitUntil (l : L) (w : ι → σ → Bool) : Stops P a (.waitUntil l w :: k) s c u ↔
    if w a (P.pt.setLc l s) then Stops P a k (P.pt.setLc l s) c u
    else c = .waiting ∧ u = P.pt.setLc l s := by
  constructor
  · rintro ⟨k', h⟩
    cases h with
    | pass he hk =>
      rw [if_pos he]
      exact ⟨k', hk⟩
    | wait he =>
      rw [if_neg (by simp [he])]
      exact ⟨rfl, rfl⟩
  · intro h
    split at h
    · next he =>
      obtain ⟨k', hk⟩ := h
      exact ⟨k', .pass he hk⟩
    · next he =>
      obtain ⟨rfl, rfl⟩ := h
      exact ⟨_, .wait (by simpa using he)⟩

theorem stops_yield (l : L) :
    Stops P a (.yield l :: k) s c u ↔ c = .yielded ∧ u = P.pt.setLc l s := by
  constructor
  · rintro ⟨k', h⟩
    cases h
    exact ⟨rfl, rfl⟩
  · rintro ⟨rfl, rfl⟩
    exact ⟨_, .yield⟩

theorem stops_restart :
    Stops P a (.restart :: k) s c u ↔ c = .waiting ∧ u = P.pt.setLc P.pt.null s := by
  constructor
  · rintro ⟨k', h⟩
    cases h
    exact ⟨rfl, rfl⟩
  · rintro ⟨rfl, rfl⟩
    exact ⟨_, .restart⟩

theorem stops_nil : Stops P a [] s c u ↔ c = .ended ∧ u = P.pt.setLc P.pt.null s := by
  constructor
  · rintro ⟨k', h⟩
    cases h
    exact ⟨rfl, rfl⟩
  · rintro ⟨rfl, rfl⟩
    exact ⟨_, .ended⟩

end stops

/-! ## The macros, run -/

section exec
variable {p : Pt σ L} {m : Frame σ ι} {o : Out (Frame σ ι) Code}

theorem exec_setFlag (b : Bool) : (setFlag b : Stmt (Frame σ ι) Code L).Exec m o ↔
    o = .next { m with ptYieldFlag := b } :=
  Stmt.exec_act_some _ m o

theorem exec_ptInit : (ptInit p).Exec m o ↔
    o = .next { m with globals := p.setLc p.null m.globals } :=
  Stmt.exec_act_some _ m o

theorem exec_lcSet (l : L) : (lcSet p l).Exec m o ↔
    o = .next { m with globals := p.setLc l m.globals } := by
  unfold lcSet
  exact then_iff_of_next fun x => Stmt.exec_act_some _ m x

theorem jump_lcSet {l l' : L} (s : Frame σ ι) (x : Out (Frame σ ι) Code) :
    (lcSet p l').Jump l s x ↔ l = l' ∧ x = .next s := by
  unfold lcSet
  simp only [Stmt.Jump]
  constructor
  · rintro (h | h)
    · exact absurd h (not_then_of_false fun _ => id)
    · exact h
  · exact Or.inr

theorem exec_ptWaitUntil (l : L) (c : ι → σ → Bool) : (ptWaitUntil p l c).Exec m o ↔
    if c m.args (p.setLc l m.globals) then o = .next { m with globals := p.setLc l m.globals }
    else o = .ret .waiting { m with globals := p.setLc l m.globals } := by
  unfold ptWaitUntil
  simp only [Stmt.Exec]
  rw [then_iff_of_next fun x => exec_lcSet l]
  cases c m.args (p.setLc l m.globals) <;> simp [skip, Stmt.Exec]

theorem jump_ptWaitUntil (l : L) (c : ι → σ → Bool) : (ptWaitUntil p l c).Jump l m o ↔
    if c m.args m.globals then o = .next m else o = .ret .waiting m := by
  unfold ptWaitUntil
  simp only [Stmt.Jump]
  rw [then_iff_of_next fun x => (jump_lcSet m x).trans (and_iff_right rfl)]
  cases hc : c m.args m.globals <;> simp [skip, Stmt.Exec, Stmt.Jump, hc]

theorem exec_ptYield (l : L) : (ptYield p l).Exec m o ↔
    o = .ret .yielded ⟨p.setLc l m.globals, m.args, false⟩ := by
  show Then (setFlag false).Exec (Then (lcSet p l).Exec _) m o ↔ _
  rw [then_iff_of_next fun x => exec_setFlag false, then_iff_of_next fun x => exec_lcSet l]
  simp [Stmt.Exec]

/-- The flag is set again, so the thread that has yielded does not return once more. -/
theorem jump_ptYield (l : L) (hm : m.ptYieldFlag = true) : (ptYield p l).Jump l m o ↔
    o = .next m := by
  show Then (fun _ _ => False) _ m o ∨ Then ((lcSet p l).Jump l) _ m o ∨ _ ↔ _
  rw [or_iff_right (not_then_of_false fun _ h => h),
    then_iff_of_next fun x => (jump_lcSet m x).trans (and_iff_right rfl)]
  simp [hm, skip, Stmt.Exec, Stmt.Jump]

theorem exec_ptRestart : (ptRestart p).Exec m o ↔
    o = .ret .waiting { m with globals := p.setLc p.null m.globals } := by
  unfold ptRestart
  exact then_iff_of_next fun x => exec_ptInit

theorem exec_ptEnd : (ptEnd p).Exec m o ↔
    o = .ret .ended ⟨p.setLc p.null m.globals, m.args, false⟩ := by
  show Then (setFlag false).Exec (Then (ptInit p).Exec _) m o ↔ _
  rw [then_iff_of_next fun x => exec_setFlag false, then_iff_of_next fun x => exec_ptInit]
  rfl

theorem labels_expand (x : Thread σ ι L) : (x.expand p).labels = x.labels := by
  induction x with
  | act f => rfl
  | seq x y ihx ihy => simp [Thread.expand, Thread.labels, Stmt.labels, ihx, ihy]
  | ite c x y ihx ihy => simp [Thread.expand, Thread.labels, Stmt.labels, ihx, ihy]
  | loop c x ih => exact ih
  | waitUntil l c => rfl
  | yield l => rfl
  | restart => rfl

theorem not_jump_expand {l : L} {x : Thread σ ι L} (hl : l ∉ x.labels) (m : Frame σ ι)
    (o : Out (Frame σ ι) Code) : ¬ (x.expand p).Jump l m o := by
  refine Stmt.not_jump ?_ m o
  rw [labels_expand]
  exact hl

end exec

/-! ## What the function does with what is left -/

section meaning
variable {P : Program σ ι L} {x : Thread σ ι L} {k : List (Thread σ ι L)}

/-- What the function does with `k` left to do. -/
def runLeft (p : Pt σ L) : List (Thread σ ι L) → Effect (Frame σ ι) Code
  | [] => (ptEnd p).Exec
  | x :: k => Then (x.expand p).Exec (runLeft p k)

/-- How a statement ends, as the thread sees it. -/
inductive Leads (P : Program σ ι L) (x : Thread σ ι L) (k : List (Thread σ ι L))
    (m : Frame σ ι) : Out (Frame σ ι) Code → Prop
  | next {t : Frame σ ι} : t.args = m.args →
      (∀ c k' u, Resumes P m.args k t.globals c k' u →
        Resumes P m.args (x :: k) m.globals c k' u) → Leads P x k m (.next t)
  | ret {t : Frame σ ι} {c : Code} {k' : List (Thread σ ι L)} :
      Resumes P m.args (x :: k) m.globals c k' t.globals → Leads P x k m (.ret c t)

theorem exec_leads {m : Frame σ ι} {o : Out (Frame σ ι) Code} (h : (x.expand P.pt).Exec m o) :
    Leads P x k m o := by
  induction x generalizing k m o with
  | act f =>
    obtain ⟨t, ht, rfl⟩ := h
    obtain ⟨s, hs, rfl⟩ := Option.map_eq_some_iff.1 ht
    exact .next rfl fun c k' u => .act hs
  | seq x y ihx ihy =>
    cases h with
    | next h₁ h₂ =>
      cases ihx h₁ with
      | next ha₁ hr₁ =>
        cases ihy h₂ with
        | next ha₂ hr₂ =>
          rw [ha₁] at hr₂
          exact .next (ha₂.trans ha₁) fun c k' u hr => .seq (hr₁ c k' u (hr₂ c k' u hr))
        | ret hr₂ =>
          rw [ha₁] at hr₂
          exact .ret (.seq (hr₁ _ _ _ hr₂))
    | ret h₁ =>
      cases ihx h₁ with
      | ret hr => exact .ret (.seq hr)
  | ite e x y ihx ihy =>
    obtain ⟨b, t, ht, h⟩ := h
    obtain ⟨⟨b', s⟩, hs, hbs⟩ := Option.map_eq_some_iff.1 ht
    cases hbs
    cases b' with
    | true =>
      cases ihx h with
      | next ha hr => exact .next ha fun c k' u hk => .iteTrue hs (hr c k' u hk)
      | ret hr => exact .ret (.iteTrue hs hr)
    | false =>
      cases ihy h with
      | next ha hr => exact .next ha fun c k' u hk => .iteFalse hs (hr c k' u hk)
      | ret hr => exact .ret (.iteFalse hs hr)
  | loop e x ih =>
    change Loop _ _ m o at h
    induction h with
    | done ht =>
      obtain ⟨⟨b, s⟩, hs, hbs⟩ := Option.map_eq_some_iff.1 ht
      cases hbs
      exact .next rfl fun c k' u hk => .loopFalse hs hk
    | next ht hb _ ihl =>
      obtain ⟨⟨b, s⟩, hs, hbs⟩ := Option.map_eq_some_iff.1 ht
      cases hbs
      cases ih hb with
      | next ha hr =>
        cases ihl with
        | next ha' hr' =>
          rw [ha] at hr'
          exact .next (ha'.trans ha) fun c k' u hk => .loopTrue hs (hr c k' u (hr' c k' u hk))
        | ret hr' =>
          rw [ha] at hr'
          exact .ret (.loopTrue hs (hr _ _ _ hr'))
    | ret ht hb =>
      obtain ⟨⟨b, s⟩, hs, hbs⟩ := Option.map_eq_some_iff.1 ht
      cases hbs
      cases ih hb with
      | ret hr => exact .ret (.loopTrue hs hr)
  | waitUntil l e =>
    have h := (exec_ptWaitUntil l e).1 h
    split at h
    · next hc =>
      subst h
      exact .next rfl fun c k' u hk => .pass hc hk
    · next hc =>
      subst h
      exact .ret (.wait (by simpa using hc))
  | yield l =>
    cases (exec_ptYield l).1 h
    exact .ret .yield
  | restart =>
    cases exec_ptRestart.1 h
    exact .ret .restart

/-- What the function does with what is left is what the thread does. -/
theorem runLeft_resumes {m : Frame σ ι} {o : Out (Frame σ ι) Code} (h : runLeft P.pt k m o) :
    ∃ c t k', o = .ret c t ∧ Resumes P m.args k m.globals c k' t.globals := by
  induction k generalizing m with
  | nil =>
    obtain rfl := exec_ptEnd.1 h
    exact ⟨_, _, _, rfl, .ended⟩
  | cons x k ih =>
    cases h with
    | next hx hrest =>
      cases exec_leads hx with
      | next ha hr =>
        obtain ⟨c, t, k', rfl, hres⟩ := ih hrest
        rw [ha] at hres
        exact ⟨c, t, k', rfl, hr _ _ _ hres⟩
    | ret hx =>
      cases exec_leads hx with
      | ret hr => exact ⟨_, _, _, rfl, hr⟩

theorem map_act {f : ι → σ → Option σ} {a : ι} {s t : σ} {flag : Bool} (h : f a s = some t) :
    ((f a s).map fun u => (⟨u, a, flag⟩ : Frame σ ι)) = some ⟨t, a, flag⟩ := by
  rw [h, Option.map_some]

theorem map_test {c : ι → σ → Option (Bool × σ)} {a : ι} {s t : σ} {b flag : Bool}
    (h : c a s = some (b, t)) :
    ((c a s).map fun r => (r.1, (⟨r.2, a, flag⟩ : Frame σ ι))) = some (b, ⟨t, a, flag⟩) := by
  rw [h, Option.map_some]

theorem resumes_runLeft {a : ι} {s u : σ} {c : Code} {k' : List (Thread σ ι L)}
    (h : Resumes P a k s c k' u) (flag : Bool) :
    ∃ t, runLeft P.pt k ⟨s, a, flag⟩ (.ret c t) ∧ t.globals = u := by
  induction h with
  | act hf _ ih =>
    obtain ⟨t, ht, hu⟩ := ih
    exact ⟨t, .next ⟨_, map_act hf, rfl⟩ ht, hu⟩
  | seq _ ih =>
    obtain ⟨t, ht, hu⟩ := ih
    exact ⟨t, then_assoc.2 ht, hu⟩
  | iteTrue he _ ih =>
    obtain ⟨t, ht, hu⟩ := ih
    refine ⟨t, ?_, hu⟩
    cases ht with
    | next hx hk => exact .next ⟨true, _, map_test he, hx⟩ hk
    | ret hx => exact .ret ⟨true, _, map_test he, hx⟩
  | iteFalse he _ ih =>
    obtain ⟨t, ht, hu⟩ := ih
    refine ⟨t, ?_, hu⟩
    cases ht with
    | next hx hk => exact .next ⟨false, _, map_test he, hx⟩ hk
    | ret hx => exact .ret ⟨false, _, map_test he, hx⟩
  | loopTrue he _ ih =>
    obtain ⟨t, ht, hu⟩ := ih
    refine ⟨t, ?_, hu⟩
    cases ht with
    | next hx ht =>
      cases ht with
      | next hl hk => exact .next (.next (map_test he) hx hl) hk
      | ret hl => exact .ret (.next (map_test he) hx hl)
    | ret hx => exact .ret (.ret (map_test he) hx)
  | loopFalse he _ ih =>
    obtain ⟨t, ht, hu⟩ := ih
    exact ⟨t, .next (.done (map_test he)) ht, hu⟩
  | pass he _ ih =>
    obtain ⟨t, ht, hu⟩ := ih
    refine ⟨t, .next ((exec_ptWaitUntil _ _).2 ?_) ht, hu⟩
    rw [if_pos he]
  | wait he =>
    refine ⟨⟨P.pt.setLc _ _, a, flag⟩, .ret ((exec_ptWaitUntil _ _).2 ?_), rfl⟩
    rw [if_neg (by simp [he])]
  | yield => exact ⟨_, .ret ((exec_ptYield _).2 rfl), rfl⟩
  | restart => exact ⟨_, .ret (exec_ptRestart.2 rfl), rfl⟩
  | ended => exact ⟨_, exec_ptEnd.2 rfl, rfl⟩

end meaning

/-! ## The `switch` goes where the thread was left -/

section agree
variable [DecidableEq L] {P : Program σ ι L}

/-- To jump to a label and go on is to do what is left to do there. -/
theorem jump_iff_runLeft {p : Pt σ L} {x : Thread σ ι L} (hd : x.labels.Nodup)
    {k k' : List (Thread σ ι L)} {m : Frame σ ι} (hm : m.ptYieldFlag = true)
    (hk : x.after (p.lc m.globals) k = some k') (o : Out (Frame σ ι) Code) :
    Then ((x.expand p).Jump (p.lc m.globals)) (runLeft p k) m o ↔ runLeft p k' m o := by
  induction x generalizing k with
  | act f => cases hk
  | seq x y ihx ihy =>
    obtain ⟨hx, hy, hxy⟩ := List.nodup_append'.1 hd
    show Then (fun s o => Then _ (y.expand p).Exec s o ∨ _) (runLeft p k) m o ↔ _
    rw [then_or, then_assoc]
    rcases Thread.of_or_after hxy hk with ⟨hl, hk⟩ | ⟨hl, hk⟩
    · rw [or_iff_left (not_then_of_false (not_jump_expand hl m))]
      exact ihx hx hk
    · rw [or_iff_right (not_then_of_false (not_jump_expand hl m))]
      exact ihy hy hk
  | ite c x y ihx ihy =>
    obtain ⟨hx, hy, hxy⟩ := List.nodup_append'.1 hd
    show Then (fun s o => _ ∨ _) (runLeft p k) m o ↔ _
    rw [then_or]
    rcases Thread.of_or_after hxy hk with ⟨hl, hk⟩ | ⟨hl, hk⟩
    · rw [or_iff_left (not_then_of_false (not_jump_expand hl m))]
      exact ihx hx hk
    · rw [or_iff_right (not_then_of_false (not_jump_expand hl m))]
      exact ihy hy hk
  | loop c x ih =>
    show Then (Then _ _) (runLeft p k) m o ↔ _
    rw [then_assoc]
    exact ih hd hk
  | waitUntil l c =>
    unfold Thread.after at hk
    split at hk
    · next hl =>
      cases hk
      have hset : p.setLc l m.globals = m.globals := by rw [← hl, p.setLc_lc]
      have hrel : ∀ u, (ptWaitUntil p l c).Jump l m u ↔ (ptWaitUntil p l c).Exec m u := by
        intro u
        rw [jump_ptWaitUntil, exec_ptWaitUntil, hset]
      show Then ((ptWaitUntil p l c).Jump _) _ m o ↔ Then (ptWaitUntil p l c).Exec _ m o
      rw [hl]
      exact then_congr hrel
    · cases hk
  | yield l =>
    unfold Thread.after at hk
    split at hk
    · next hl =>
      cases hk
      show Then ((ptYield p l).Jump _) _ m o ↔ _
      rw [hl]
      exact then_iff_of_next fun u => jump_ptYield l hm
    · cases hk
  | restart => cases hk

/-- Where a statement stands in the body: `k` is left after it. -/
structure Stands (P : Program σ ι L) (x : Thread σ ι L) (k : List (Thread σ ι L)) : Prop where
  nodup : x.labels.Nodup
  left : ∀ l k', x.after l k = some k' → P.left l = some k'

theorem mem_of_after {l : L} {x : Thread σ ι L} {k k' : List (Thread σ ι L)}
    (h : x.after l k = some k') : l ∈ x.labels :=
  (x.isSome_after l k).1 (Option.isSome_iff_exists.2 ⟨k', h⟩)

theorem stands_body : Stands P P.body [] := by
  refine ⟨P.nodup, fun l k' h => ?_⟩
  unfold Program.left
  rw [if_neg, h]
  rintro rfl
  exact P.null_notMem (mem_of_after h)

variable {x y : Thread σ ι L} {k : List (Thread σ ι L)} {c : ι → σ → Option (Bool × σ)}

theorem Stands.seq (h : Stands P (.seq x y) k) : Stands P x (y :: k) ∧ Stands P y k := by
  obtain ⟨hx, hy, hxy⟩ := List.nodup_append'.1 h.nodup
  refine ⟨⟨hx, fun l k' hk => h.left l k' ?_⟩, hy, fun l k' hk => h.left l k' ?_⟩
  · simp [Thread.after, hk]
  · have hl : l ∉ x.labels := fun hm => hxy hm (mem_of_after hk)
    simp [Thread.after, Thread.after_eq_none hl, hk]

theorem Stands.ite (h : Stands P (.ite c x y) k) : Stands P x k ∧ Stands P y k := by
  obtain ⟨hx, hy, hxy⟩ := List.nodup_append'.1 h.nodup
  refine ⟨⟨hx, fun l k' hk => h.left l k' ?_⟩, hy, fun l k' hk => h.left l k' ?_⟩
  · simp [Thread.after, hk]
  · have hl : l ∉ x.labels := fun hm => hxy hm (mem_of_after hk)
    simp [Thread.after, Thread.after_eq_none hl, hk]

theorem Stands.loop (h : Stands P (.loop c x) k) : Stands P x (.loop c x :: k) :=
  ⟨h.nodup, h.left⟩

/-- Every statement on the list stands where the list says. -/
def AllStand (P : Program σ ι L) : List (Thread σ ι L) → Prop
  | [] => True
  | x :: k => Stands P x k ∧ AllStand P k

theorem allStand_after {l : L} {k' : List (Thread σ ι L)} (hx : Stands P x k) (hk : AllStand P k)
    (h : x.after l k = some k') : AllStand P k' := by
  induction x generalizing k with
  | act f => cases h
  | seq x y ihx ihy =>
    obtain ⟨hsx, hsy⟩ := hx.seq
    rcases Thread.of_or_after (List.nodup_append'.1 hx.nodup).2.2 h with ⟨-, h⟩ | ⟨-, h⟩
    · exact ihx hsx ⟨hsy, hk⟩ h
    · exact ihy hsy hk h
  | ite e x y ihx ihy =>
    obtain ⟨hsx, hsy⟩ := hx.ite
    rcases Thread.of_or_after (List.nodup_append'.1 hx.nodup).2.2 h with ⟨-, h⟩ | ⟨-, h⟩
    · exact ihx hsx hk h
    · exact ihy hsy hk h
  | loop e x ih => exact ih hx.loop ⟨hx, hk⟩ h
  | waitUntil l' e =>
    unfold Thread.after at h
    split at h
    · cases h
      exact ⟨hx, hk⟩
    · cases h
  | yield l' =>
    unfold Thread.after at h
    split at h
    · cases h
      exact hk
    · cases h
  | restart => cases h

theorem allStand_left {l : L} (h : P.left l = some k) : AllStand P k := by
  unfold Program.left at h
  split at h
  · cases h
    exact ⟨stands_body, trivial⟩
  · exact allStand_after stands_body trivial h

/-- A call leaves the label that stands for what it leaves to do. -/
theorem resumes_left {a : ι} {s u : σ} {c : Code} {k' : List (Thread σ ι L)} (hk : AllStand P k)
    (h : Resumes P a k s c k' u) : P.left (P.pt.lc u) = some k' := by
  induction h with
  | act _ _ ih => exact ih hk.2
  | seq _ ih =>
    obtain ⟨hx, hy⟩ := hk.1.seq
    exact ih ⟨hx, hy, hk.2⟩
  | iteTrue _ _ ih => exact ih ⟨hk.1.ite.1, hk.2⟩
  | iteFalse _ _ ih => exact ih ⟨hk.1.ite.2, hk.2⟩
  | loopTrue _ _ ih => exact ih ⟨hk.1.loop, hk⟩
  | loopFalse _ _ ih => exact ih hk.2
  | pass _ _ ih => exact ih hk.2
  | wait _ =>
    rw [P.pt.lc_setLc]
    refine hk.1.left _ _ ?_
    simp [Thread.after]
  | yield =>
    rw [P.pt.lc_setLc]
    refine hk.1.left _ _ ?_
    simp [Thread.after]
  | restart => simp [Program.left]
  | ended => simp [Program.left]

/-- The `switch` takes a call to what is left to do. -/
theorem select_iff_runLeft {m : Frame σ ι} (hm : m.ptYieldFlag = true)
    (hk : P.left (P.pt.lc m.globals) = some k) (o : Out (Frame σ ι) Code) :
    Then (Stmt.Select (P.pt.lc m.globals) (.seq (.case P.pt.null) (P.body.expand P.pt)))
      (ptEnd P.pt).Exec m o ↔ runLeft P.pt k m o := by
  have hlabels : (Stmt.seq (.case P.pt.null) (P.body.expand P.pt)).labels =
      P.pt.null :: P.body.labels := by
    show [P.pt.null] ++ _ = _
    rw [labels_expand]
    rfl
  unfold Program.left at hk
  split at hk
  · next hl =>
    cases hk
    refine then_congr fun x => ?_
    rw [Stmt.select_iff (by rw [hlabels, hl]; exact List.mem_cons_self), hl]
    show Then (fun s o => P.pt.null = P.pt.null ∧ o = .next s) _ m x ∨ _ ↔ _
    rw [or_iff_left (not_jump_expand P.null_notMem m x)]
    exact then_iff_of_next fun u => and_iff_right rfl
  · next hl =>
    have hmem := mem_of_after hk
    have hjump : ∀ x, Stmt.Select (P.pt.lc m.globals)
        (.seq (.case P.pt.null) (P.body.expand P.pt)) m x ↔
        (P.body.expand P.pt).Jump (P.pt.lc m.globals) m x := by
      intro x
      rw [Stmt.select_iff (by rw [hlabels]; exact List.mem_cons_of_mem _ hmem)]
      exact or_iff_right (not_then_of_false fun _ h => hl h.1)
    rw [then_congr hjump]
    exact jump_iff_runLeft P.nodup hm hk o

/-- A call of the function is a call of the thread that has left to do what the label says. -/
theorem calls_iff_resumes {a : ι} {s t : σ} {c : Code} (hk : P.left (P.pt.lc s) = some k) :
    Calls P.pt P.body a s c t ↔
      ∃ k', P.left (P.pt.lc t) = some k' ∧ Resumes P a k s c k' t := by
  unfold Calls
  constructor
  · rintro ⟨m, h, rfl⟩
    obtain ⟨c', m', k', heq, hr⟩ :=
      runLeft_resumes ((select_iff_runLeft (m := ⟨s, a, true⟩) rfl hk _).1 h)
    cases heq
    exact ⟨k', resumes_left (allStand_left hk) hr, hr⟩
  · rintro ⟨k', -, hr⟩
    obtain ⟨m, hm, rfl⟩ := resumes_runLeft hr true
    exact ⟨m, (select_iff_runLeft (m := ⟨s, a, true⟩) rfl hk _).2 hm, rfl⟩

theorem calls_iff_stops {a : ι} {s t : σ} {c : Code} (hk : P.left (P.pt.lc s) = some k) :
    Calls P.pt P.body a s c t ↔ Stops P a k s c t := by
  rw [calls_iff_resumes hk]
  constructor
  · rintro ⟨k', -, hr⟩
    exact ⟨k', hr⟩
  · rintro ⟨k', hr⟩
    exact ⟨k', resumes_left (allStand_left hk) hr, hr⟩

/-! ## Runs -/

/-- A call of the thread, or something else that leaves the label alone. -/
inductive Event (ι : Type) where
  | call (a : ι) (c : Code)
  | other

/-- Calls of the function, between changes of the globals by `R`. -/
inductive StepC (P : Program σ ι L) (R : σ → σ → Prop) : σ → Event ι → σ → Prop
  | call {a : ι} {c : Code} {s t : σ} : Calls P.pt P.body a s c t → StepC P R s (.call a c) t
  | other {s t : σ} : R s t → P.pt.lc t = P.pt.lc s → StepC P R s .other t

/-- Calls of the thread, which remembers what is left. -/
inductive StepT (P : Program σ ι L) (R : σ → σ → Prop) :
    List (Thread σ ι L) × σ → Event ι → List (Thread σ ι L) × σ → Prop
  | call {a : ι} {c : Code} {k k' : List (Thread σ ι L)} {s t : σ} : Resumes P a k s c k' t →
      StepT P R (k, s) (.call a c) (k', t)
  | other {k : List (Thread σ ι L)} {s t : σ} : R s t → P.pt.lc t = P.pt.lc s →
      StepT P R (k, s) .other (k, t)

variable {R : σ → σ → Prop}

theorem step_iff {s t : σ} {e : Event ι} (hk : P.left (P.pt.lc s) = some k) :
    StepC P R s e t ↔
      ∃ k', P.left (P.pt.lc t) = some k' ∧ StepT P R (k, s) e (k', t) := by
  constructor
  · rintro (h | ⟨hR, hlc⟩)
    · obtain ⟨k', hl, hr⟩ := (calls_iff_resumes hk).1 h
      exact ⟨k', hl, .call hr⟩
    · exact ⟨k, by rw [hlc, hk], .other hR hlc⟩
  · rintro ⟨k', hl, h⟩
    cases h with
    | call hr => exact .call ((calls_iff_resumes hk).2 ⟨k', hl, hr⟩)
    | other hR hlc => exact .other hR hlc

/-- What a run of calls of the function returns and does is what a run of calls of the thread
does, from what the label says is left to do. -/
theorem run_iff {s t : σ} {h : List (Event ι)} (hk : P.left (P.pt.lc s) = some k) :
    Run (StepC P R) s h t ↔
      ∃ k', P.left (P.pt.lc t) = some k' ∧ Run (StepT P R) (k, s) h (k', t) := by
  constructor
  · intro hr
    induction hr with
    | refl => exact ⟨_, hk, .refl⟩
    | step _ hst ih =>
      obtain ⟨k₁, hk₁, hr⟩ := ih
      obtain ⟨k₂, hk₂, hst⟩ := (step_iff hk₁).1 hst
      exact ⟨k₂, hk₂, hr.step hst⟩
  · rintro ⟨k', -, hr⟩
    refine (hr.invariant (I := fun h q => P.left (P.pt.lc q.2) = some q.1 ∧
      Run (StepC P R) s h q.2) ⟨hk, .refl⟩ ?_).2
    rintro h ⟨k₁, a⟩ e ⟨k₂, b⟩ ⟨hl, hr⟩ hst
    have hk₂ : P.left (P.pt.lc b) = some k₂ := by
      cases hst with
      | call hres => exact resumes_left (allStand_left hl) hres
      | other _ hlc => exact (congrArg P.left hlc).trans hl
    exact ⟨hk₂, hr.step ((step_iff hl).2 ⟨k₂, hk₂, hst⟩)⟩

end agree

end Protothread
