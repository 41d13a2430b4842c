import Wormvars.Taken
import Wormvars.Tour

/-!
# The copies of a relocation

A relocation goes through the descriptors once, so the turn of each comes once
(`copiesOf_live`), and it does not end while a copy waits for a free cell
(`Relocation.not_jams`).  A block that is live when its turn comes is therefore
appended once, unless a call of `fs_thread(0)` appends it twice (`copies_once_iff`);
this does happen in a run from the erased flash (`copies_twice`).
-/

namespace Wormvars

open NorFlash NewerLog Runs

variable {crc : Block → BitVec 32} {n : Nat}

/-! ## Runs of calls -/

/-- The blocks that the relocation has programmed on the turn of the slot `i`. -/
def copiesOf (i : Nat) (t : List Taken) : List Event :=
  (t.filter fun x => x.slot = i).flatMap Taken.copies

theorem copiesOf_cons (i : Nat) (x : Taken) (t : List Taken) :
    copiesOf i (x :: t) = if x.slot = i then x.copies ++ copiesOf i t else copiesOf i t := by
  unfold copiesOf
  by_cases h : x.slot = i
  · simp [h]
  · simp [h]

theorem copiesOf_eq_nil {i : Nat} {t : List Taken} (h : ∀ x ∈ t, x.slot = i → x.copies = []) :
    copiesOf i t = [] := by
  unfold copiesOf
  rw [List.flatMap_eq_nil_iff]
  intro x hx
  obtain ⟨hm, he⟩ := List.mem_filter.1 hx
  exact h x hm (by simpa using he)

/-- One relocation of the sector `S`, from the call that chooses it to the call that erases it; the
last call comes first. -/
structure Relocation (S : Fin 8) (t : List Taken) : Prop where
  start : ∀ x ∈ t.getLast?, x.before.fs.pt = .yieldStart
  under : ∀ x ∈ t.tail, Relocating x.after.fs ∧ x.after.fs.reloc.sector = S
  ended : ∃ x ∈ t.head?, x.Erases S

/-- Every block that lies in `S` at the start is live when its turn comes, or is written before. -/
def Visited (S : Fin 8) (t : List Taken) : Prop :=
  ∀ x₀ ∈ t.getLast?, ∀ i fd, x₀.before.fs.fd[i]? = some fd → fd.sector = S →
    (∃ x ∈ t, x.Live ∧ x.slot = i) ∨ ∃ x ∈ t, x.Writes fd.header.key

/-- A block that is live when its turn comes is appended once, with the value of its key, and
nothing else is. -/
structure CopiesOnce (t : List Taken) : Prop where
  live : ∀ x ∈ t, x.Live → ∃ e d, copiesOf x.slot t = [e] ∧
    contents x.before.fs x.before.flash x.before.fs.reloc.fd.header.key = some d ∧
    e.Stores x.before.fs.reloc.fd.header.key d
  other : ∀ x ∈ t, ¬ x.Live → x.copies = []

section runs
variable {h : List Label} {u v : World} {t : List Taken}

theorem sure_of_run (hr : Run (Step crc (n + 2)) (.off erased) h (.on u))
    (hr' : Run (TakenStep crc (n + 2)) u t v) (hl : Limits (t.map Taken.label ++ h)) :
    Run (Step crc (n + 2)) (.off erased) (t.map Taken.label ++ h) (.on v) ∧
      ∀ x ∈ t, Sure crc (n + 2) x := by
  induction hr' with
  | refl => exact ⟨hr, fun x hx => by cases hx⟩
  | @step t w x w' _ hst ih =>
    obtain ⟨hrun, hsure⟩ := ih hl.tail
    obtain ⟨rfl, he, rfl⟩ := hst
    obtain ⟨-, S, -, hsound, hpassed⟩ := hl.tail.reaches hrun (sound_erased crc)
    refine ⟨hrun.step (.call _ _ _ _ he), fun y hy => ?_⟩
    rcases List.mem_cons.1 hy with rfl | hy
    · exact ⟨hsound.2.1, hl.slotFree hsound hpassed, he⟩
    · exact hsure y hy

variable (hr : Run (TakenStep crc (n + 2)) u t v) (htook : ∀ x ∈ t, Took crc x)
include hr htook

/-- Once a copy waits for a free cell it waits for ever. -/
theorem jams_last (hj : ∃ x ∈ t, x.Jams) : ∀ x ∈ t.head?, x.Jams := by
  induction hr with
  | refl =>
    obtain ⟨x, hx, -⟩ := hj
    cases hx
  | @step t w y w' hr hst ih =>
    intro x hx
    obtain rfl : y = x := by simpa using hx
    obtain ⟨z, hz, hjz⟩ := hj
    rcases List.mem_cons.1 hz with rfl | hz
    · exact hjz
    · -- the call before this one has left the copy waiting
      have hlast := ih (fun x hx => htook x (List.mem_cons_of_mem _ hx)) ⟨z, hz, hjz⟩
      obtain ⟨hbefore, -, -⟩ := hst
      have hpt : y.before.fs.pt = .yieldRetry := by
        cases hr with
        | refl => cases hz
        | @step t _ x' _ _ hst' =>
          rw [hbefore, ← hst'.after]
          exact (hlast x' (by simp)).waits
      cases htook y List.mem_cons_self with
      | idle _ _ hj _ => exact hj hpt
      | stuck _ _ hj => exact hj
      | once e hl =>
        have := hl.1.1
        rw [hpt] at this
        cases this
      | twice hl =>
        have := hl.1.1
        rw [hpt] at this
        cases this

/-- The turn of a slot comes once. -/
theorem copiesOf_live (hno : ∀ x ∈ t, ¬ x.Jams) (hunder : ∀ x ∈ t.tail, Relocating x.after.fs) :
    (∀ x ∈ t, x.Live → copiesOf x.slot t = x.copies) ∧
      (Relocating v.fs → ∀ x ∈ t, x.Live → Beyond x.slot v.fs) := by
  induction hr with
  | refl =>
    constructor
    · intro x hx
      cases hx
    · intro _ x hx
      cases hx
  | @step t w y w' hr hst ih =>
    have hunder : ∀ x ∈ t, Relocating x.after.fs := hunder
    obtain ⟨ih₁, ih₂⟩ := ih (fun x hx => htook x (List.mem_cons_of_mem _ hx))
      (fun x hx => hno x (List.mem_cons_of_mem _ hx))
      (fun x hx => hunder x (List.mem_of_mem_tail hx))
    obtain ⟨rfl, -, rfl⟩ := hst
    -- the earlier turns are over
    have hrel : ∀ x ∈ t, Relocating y.before.fs := by
      intro x hx
      cases hr with
      | refl => cases hx
      | @step t _ x' _ _ hst' =>
        rw [← hst'.after]
        exact hunder x' (by simp)
    have hover : ∀ x ∈ t, x.Live → Beyond x.slot y.before.fs :=
      fun x hx hl => ih₂ (hrel x hx) x hx hl
    have htook' : ∀ x ∈ t, Took crc x := fun x hx => htook x (List.mem_cons_of_mem _ hx)
    have hy := htook y List.mem_cons_self
    constructor
    · intro x hx hl
      rw [copiesOf_cons]
      rcases List.mem_cons.1 hx with rfl | hx
      · rw [if_pos rfl, copiesOf_eq_nil, List.append_nil]
        intro z hz he
        refine (htook' z hz).copies_nil fun hlz => hl.not_beyond ?_
        rw [← he]
        exact hover z hz hlz
      · by_cases hs : y.slot = x.slot
        · have hdead : ¬ y.Live := fun hly => hly.not_beyond (hs ▸ hover x hx hl)
          rw [if_pos hs, hy.copies_nil hdead, ih₁ x hx hl, List.nil_append]
        · rw [if_neg hs, ih₁ x hx hl]
    · intro _ x hx hl
      refine hy.beyond (hno y List.mem_cons_self) ?_
      rcases List.mem_cons.1 hx with rfl | hx
      · exact Or.inl ⟨hl, rfl⟩
      · exact Or.inr ⟨hrel x hx, hover x hx hl⟩

omit htook in
theorem first_before : ∀ x ∈ t.getLast?, x.before = u := by
  induction hr with
  | refl =>
    intro x hx
    cases hx
  | @step t w y w' hr hst ih =>
    intro x hx
    cases hr with
    | refl =>
      obtain rfl : y = x := by simpa using hx
      exact hst.before
    | step =>
      rw [List.getLast?_cons_cons] at hx
      exact ih x hx

omit htook in
theorem slots_of_run (htraced : ∀ x ∈ t, Traced x) {i : Nat} {fd : FileDescriptor}
    (hg : u.fs.fd[i]? = some fd) : v.fs.fd[i]? = some fd ∨
      (∃ x ∈ t, x.Live ∧ x.slot = i) ∨ ∃ x ∈ t, x.Writes fd.header.key := by
  induction hr with
  | refl => exact Or.inl hg
  | @step t w y w' hr hst ih =>
    obtain ⟨rfl, -, rfl⟩ := hst
    rcases ih fun x hx => htraced x (List.mem_cons_of_mem _ hx) with
      hg | ⟨x, hx, hl⟩ | ⟨x, hx, hw⟩
    · rcases (htraced y List.mem_cons_self).slots i fd hg with hg | hl | hw
      · exact Or.inl hg
      · exact Or.inr (Or.inl ⟨y, List.mem_cons_self, hl⟩)
      · exact Or.inr (Or.inr ⟨y, List.mem_cons_self, hw⟩)
    · exact Or.inr (Or.inl ⟨x, List.mem_cons_of_mem _ hx, hl⟩)
    · exact Or.inr (Or.inr ⟨x, List.mem_cons_of_mem _ hx, hw⟩)

omit htook in
theorem Relocation.visited {S : Fin 8} (hrel : Relocation S t) (htraced : ∀ x ∈ t, Traced x) :
    Visited S t := by
  intro x₀ hx₀ i fd hg hS
  rw [first_before hr x₀ hx₀] at hg
  obtain ⟨y, hy, herase⟩ := hrel.ended
  cases hr with
  | refl => cases hy
  | @step t w z w' hr hst =>
    obtain rfl : z = y := by simpa using hy
    rcases slots_of_run hr (fun x hx => htraced x (List.mem_cons_of_mem _ hx)) hg with
      hg | ⟨x, hx, hl⟩ | ⟨x, hx, hw⟩
    · -- no descriptor points into the sector when it is erased
      rw [← hst.before] at hg
      exact absurd hS ((htraced z List.mem_cons_self).freed S herase fd (List.mem_of_getElem? hg))
    · exact Or.inl ⟨x, List.mem_cons_of_mem _ hx, hl⟩
    · exact Or.inr ⟨x, List.mem_cons_of_mem _ hx, hw⟩

/-- A relocation that comes to its end has not waited for a free cell. -/
theorem Relocation.not_jams {S : Fin 8} (hrel : Relocation S t) : ∀ x ∈ t, ¬ x.Jams := by
  intro x hx hj
  obtain ⟨y, hy, herase⟩ := hrel.ended
  exact (jams_last hr htook ⟨x, hx, hj⟩ y hy).keeps S herase

end runs

/-! ## A relocation of one block -/

theorem Tour.taken {h : List Label} {u w x v : World} (ht : Tour h u w x v) :
    ∃ t y, Run (TakenStep (fun _ => 0) (0 + 2)) u t v ∧ t.map Taken.label = relocationTo 5 ∧
      Relocation w.fs.reloc.sector t ∧ y ∈ t ∧ y.Live ∧ ∀ y ∈ t, ¬ y.Doubles := by
  have hrun : Run (TakenStep (fun _ => 0) (0 + 2)) u
      [⟨x, .thread ready, .ran .ended, v⟩, ⟨w, .thread ready, .ran .yielded, x⟩,
        ⟨u, sectorWrite 5, .wrote 0, w⟩] v :=
    ((Run.refl.step ⟨rfl, ht.turning, rfl⟩).step ⟨rfl, ht.copying, rfl⟩).step ⟨rfl, ht.freeing, rfl⟩
  obtain ⟨hnext, hreloc, hfull⟩ := ht.copied
  have hrel : Relocation w.fs.reloc.sector
      [⟨x, .thread ready, .ran .ended, v⟩, ⟨w, .thread ready, .ran .yielded, x⟩,
        ⟨u, sectorWrite 5, .wrote 0, w⟩] := by
    refine ⟨fun y hy => ?_, fun y hy => ?_, _, rfl, ?_⟩
    · obtain rfl := Option.some.inj hy
      exact ht.starts
    · rcases List.mem_cons.1 hy with rfl | hy
      · exact ⟨by simp [Relocating, hnext], congrArg Reloc.sector hreloc⟩
      · obtain rfl := List.mem_singleton.1 hy
        exact ⟨by simp [Relocating, ht.picked.1], rfl⟩
    · have hgiven := ht.given
      have hfull : sectorBase w.fs.reloc.sector + 4096 ≤ x.fs.curr.address w.fs.reloc.sector :=
        hfull
      show v.fs.curr.address _ < x.fs.curr.address _
      omega
  refine ⟨_, ⟨w, .thread ready, .ran .yielded, x⟩, hrun, rfl, hrel, by simp, ⟨ht.picked, trivial⟩,
    fun y hy => ?_⟩
  have hroom : ¬ w.fs.SectorIsFull w.fs.curr.sector := ht.turned.column.room (by omega)
  rintro ⟨⟨ans, hans⟩, hd⟩
  rcases List.mem_cons.1 hy with rfl | hy
  · exact absurd (hnext.symm.trans hd.1.1) (by simp)
  · rcases List.mem_cons.1 hy with rfl | hy
    · exact hroom hd.2.1
    · obtain rfl := List.mem_singleton.1 hy
      cases hans

/-! ## How often a block is copied -/

/-- In any run of calls from a reachable state: which calls of `fs_thread(0)` program at most one
block, and which complete relocations copy every live block once. -/
theorem copies_once_iff {h : List Label} {u v : World} {t : List Taken}
    (hr : Run (Step crc (n + 2)) (.off erased) h (.on u))
    (hr' : Run (TakenStep crc (n + 2)) u t v) (hl : Limits (t.map Taken.label ++ h)) :
    (∀ x ∈ t, (∃ ans, x.call = .thread ans) →
      ((blocks x.after.log).length ≤ 1 ∧ advance x.before.fs x.after.fs ≤ 32 ↔
        ¬ Doubling x.before.fs)) ∧
    ∀ S, Relocation S t → Visited S t ∧ (CopiesOnce t ↔ ∀ x ∈ t, ¬ x.Doubles) := by
  obtain ⟨-, hsure⟩ := sure_of_run hr hr' hl
  have htook : ∀ x ∈ t, Took crc x := fun x hx => (hsure x hx).took
  refine ⟨fun x hx hthread => ?_, fun S hrel => ⟨?_, fun honce x hx hd => ?_, fun hno => ?_⟩⟩
  · obtain ⟨ans, hcall⟩ := hthread
    have hi := (hsure x hx).inv
    have he := (hsure x hx).exec
    rw [hcall] at he
    obtain ⟨q, hq, he⟩ := Option.map_eq_some_iff.1 he
    have hran : Ran crc True x.before.fresh q.2 :=
      fsThread_ran (w := x.before.fresh) hi.steady (fun _ => hi.candidate) hq
    rw [← (Prod.mk.inj he).2]
    exact Ran.blocks_le_iff (w := x.before.fresh) hi.steady hran
  · exact hrel.visited hr' fun x hx => (hsure x hx).traced
  · have hnj := hrel.not_jams hr' htook
    obtain ⟨hcopies, -⟩ := copiesOf_live hr' htook hnj fun x hx => (hrel.under x hx).1
    cases htook x hx with
    | idle hnl => exact hnl hd.live
    | stuck hnd => exact hnd hd
    | once e _ hnd => exact hnd hd
    | twice hlive _ htwo =>
      obtain ⟨e, d, he, -⟩ := honce.live x hx hlive
      rw [← hcopies x hx hlive, he] at htwo
      cases htwo
  · have hnj := hrel.not_jams hr' htook
    obtain ⟨hcopies, -⟩ := copiesOf_live hr' htook hnj fun x hx => (hrel.under x hx).1
    refine ⟨fun x hx hlive => ?_, fun x hx => (htook x hx).copies_nil⟩
    rw [hcopies x hx hlive]
    cases htook x hx with
    | idle hnl => exact absurd hlive hnl
    | stuck _ _ hj => exact absurd hj (hnj x hx)
    | once e _ _ he hst => exact ⟨e, _, he, (hsure x hx).inv.copying hlive.1, hst⟩
    | twice _ hd => exact absurd hd (hno x hx)

theorem copies_once_iff_three : ∃ S t x, Relocation S t ∧ x ∈ t ∧ x.Live ∧ CopiesOnce t := by
  obtain ⟨h, u, w, x, v, ht⟩ := tour
  obtain ⟨t, y, hr', hlabels, hrel, hy, hlive, hno⟩ := ht.taken
  have hoff := ht.full.sectored.fromOff
  have hl : Limits (t.map Taken.label ++ (h ++ [.boot])) := by
    rw [hlabels, ← List.append_assoc]
    exact ht.afterErase.fromOff.2.limits
  exact ⟨_, t, y, hrel, hy, hlive, ((copies_once_iff hoff.1 hr' hl).2 _ hrel).2.2 hno⟩

/-- 128 writes of a key of its own to each of seven sectors, and a call of `fs_thread(0)`: the block
that is due is appended twice. -/
theorem copies_twice : ∃ h w r w', Run (Step (fun _ => 0) 2) (.off erased) h (.on w) ∧ Limits h ∧
    (Call.thread ready).exec (fun _ => 0) 2 w.fresh = some (r, w') ∧
    (blocks w'.log).length = 2 := by
  obtain ⟨h, u, w, -, -, -, hc, ⟨hpt, fd, hg, ha⟩, hget, hsec, hne⟩ := climb_picked
  obtain ⟨h', w', hc', hpt', hreloc', hslots⟩ := hc.fill 127 (by omega)
  have hcopy : Copying w'.fs := by
    refine ⟨hpt'.trans hpt, w.fs.reloc.fd, ?_, by rw [hreloc']⟩
    rw [hreloc']
    exact hslots _ _ hget (by rw [hsec]; exact hne)
  have hi := hc'.inv
  have hfree : ¬ w'.fs.SectorIsFull 6 :=
    not_full_of_blank (hc'.column.blank 6 (by decide))
  obtain ⟨code, v, hex, -⟩ := fsThread_spec (w := w'.fresh) ready false hi 0
  obtain ⟨hrun, hkeys⟩ := hc'.sectored.fromOff
  refine ⟨_, w', .ran code, v, hrun, hkeys.limits, exec_of_fsThread hex, ?_⟩
  cases thread_took hi.steady (fun _ => hi.candidate) hex with
  | idle hl => exact absurd ⟨hcopy, trivial⟩ hl
  | stuck hnd => exact absurd ⟨⟨_, rfl⟩, hcopy, hc'.column.isFull, 6, hfree⟩ hnd
  | once e _ hd => exact absurd ⟨⟨_, rfl⟩, hcopy, hc'.column.isFull, 6, hfree⟩ hd
  | twice _ _ hlen => exact hlen

end Wormvars
