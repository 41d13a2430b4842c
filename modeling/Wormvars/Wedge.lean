import Wormvars.Polling
import Wormvars.Tour

/-!
# Wedged states

A state is wedged if no number of calls of `fs_thread` makes room for a write.
That is so iff every sector is full and what `fs_thread` would erase next still
holds a block (`wedged_iff_stuck`): a copy needs a free cell, and an erase waits for
the copies.

With two calls of `fs_thread` between any two writes this does not happen
(`wedged_only_if_stuck`).  With one call for every 127 writes it does
(`wedged_at_low_rate`): each sector gets a block that is never written again at
every fourth cell, and by the time all sectors are full there have been too few
calls to move these out of any sector.
-/

namespace Wormvars

open NorFlash NewerLog Runs

variable {crc : Block → BitVec 32} {n : Nat}

/-! ## Definition -/

/-- Calls of `fs_thread(0)`, with timer and flash ready. -/
def Polls (h : List Label) : Prop := ∀ l ∈ h, ∃ r, l = .call (.thread ready) r

/-- After any number of calls of `fs_thread(0)`, `fs_write` returns `-2` for every key. -/
def Wedged (crc : Block → BitVec 32) (n : Nat) (w : World) : Prop :=
  ∀ h v, Run (Step crc n) (.on w) h (.on v) → Polls h →
    ∀ name ext data, data.length ≤ 28 →
      ∃ w', (Call.write name ext data ready).exec crc n v.fresh = some (.wrote (-2), w')

/-- Every sector is full, and the victim, or while there is none every sector but the current one,
holds a block that a descriptor points to. -/
structure Stuck (fs : Fs) : Prop where
  full : ∀ s, fs.SectorIsFull s
  victim : Relocating fs → ∃ fd ∈ fs.fd, fd.sector = fs.reloc.sector
  others : ¬ Relocating fs → ∀ s, s ≠ fs.curr.sector → ∃ fd ∈ fs.fd, fd.sector = s

/-! ## A stuck state is wedged -/

section stuck
variable {w w' : World}

theorem Stuck.in_victim {fs : Fs} (hs : Stuck fs) (h : fs.reloc.sector ≠ fs.curr.sector) :
    ∃ fd ∈ fs.fd, fd.sector = fs.reloc.sector := by
  by_cases hr : Relocating fs
  · exact hs.victim hr
  · exact hs.others hr _ h

theorem Stuck.move {k : Nat} (hs : Stuck w.fs) (hm : Move crc k w w')
    (hi : Inv crc w.fs w.flash) : Stuck w'.fs := by
  have hi' := (hm.spec hi).1
  cases hm with
  | resume _ reloc pt _ _ hk =>
    refine ⟨hs.full, fun hr => ?_, fun hr => hs.others fun h => hr (hk h).1⟩
    by_cases hr₀ : Relocating w.fs
    · have hsec := (hk hr₀).2
      obtain ⟨fd, hm, he⟩ := hs.victim hr₀
      exact ⟨fd, hm, he.trans hsec.symm⟩
    · exact hs.others hr₀ _ (hi'.victim hr).notCurrent
  | relocate _ hroom => exact absurd (hs.full _) hroom
  | erase _ hv hno =>
    obtain ⟨fd, hm, he⟩ := hs.in_victim hv.notCurrent
    exact absurd he (hno fd hm)
  | retry _ fd _ hpt hv =>
    refine ⟨hs.full, fun _ => hs.in_victim hv.notCurrent, fun hr => ?_⟩
    exact absurd (by simp [Relocating, World.setPt]) hr
  | switch _ s _ hnot => exact absurd (hs.full s) hnot

theorem Stuck.moves {k : Nat} (hs : Stuck w.fs) (hm : Moves crc k w w')
    (hi : Inv crc w.fs w.flash) : Stuck w'.fs := by
  induction hm with
  | refl => exact hs
  | tail hm h ih => exact (ih hs hi).move h (hm.spec hi).1

theorem Stuck.write (hs : Stuck w.fs) {name : BitVec 16} {ext : BitVec 8} {data : List Byte}
    (hlen : data.length ≤ 28) (ans : Answers) (n : Nat) :
    (Call.write name ext data ans).exec crc n w.fresh =
      some (.wrote (-2), (w.fresh.returns (-2)).2) := by
  unfold Call.exec fsWrite
  simp only
  rw [fsWriteWith_allFull (w := w.fresh) hlen hs.full]
  rfl

theorem Stuck.thread (hs : Stuck w.fs) (hi : Inv crc w.fs w.flash) {ans : Answers} {r : Result}
    (he : (Call.thread ans).exec crc (n + 2) w.fresh = some (r, w')) :
    Stuck w'.fs ∧ Inv crc w'.fs w'.flash := by
  have hi₀ : Inv crc w.fresh.fs w.fresh.flash := hi
  have hs₀ : Stuck w.fresh.fs := hs
  obtain ⟨k, -, hm⟩ := thread_moves hi₀ he
  exact ⟨hs₀.moves hm hi₀, (hm.spec hi₀).1⟩

/-- Further calls of `fs_thread` leave the state stuck. -/
theorem Stuck.polls {h : List Label} {t : Sys} (hs : Stuck w.fs) (hi : Inv crc w.fs w.flash)
    (hr : Run (Step crc (n + 2)) (.on w) h t) (hp : Polls h) :
    ∃ v, t = .on v ∧ Stuck v.fs ∧ Inv crc v.fs v.flash := by
  induction hr with
  | refl => exact ⟨w, rfl, hs, hi⟩
  | step _ hst ih =>
    obtain ⟨u, rfl, hsu, hiu⟩ := ih fun l hl => hp l (List.mem_cons_of_mem _ hl)
    obtain ⟨r, rfl⟩ := hp _ List.mem_cons_self
    cases hst with
    | call _ _ _ u' he => exact ⟨u', rfl, hsu.thread hiu he⟩

theorem Stuck.wedged (hs : Stuck w.fs) (hi : Inv crc w.fs w.flash) : Wedged crc (n + 2) w := by
  intro h v hr hp name ext data hlen
  obtain ⟨v', he, hsv, -⟩ := hs.polls hi hr hp
  cases he
  exact ⟨_, hsv.write hlen ready (n + 2)⟩

end stuck

/-! ## A state that is not stuck is not wedged -/

section frees
variable {w : World}

/-- Some number of calls of `fs_thread` makes room. -/
def Frees (crc : Block → BitVec 32) (n : Nat) (w : World) : Prop :=
  ∃ h v, Run (Step crc n) (.on w) h (.on v) ∧ Polls h ∧ Inv crc v.fs v.flash ∧
    ∃ s, ¬ v.fs.SectorIsFull s

theorem Frees.not_wedged (h : Frees crc (n + 2) w) : ¬ Wedged crc (n + 2) w := by
  obtain ⟨h, v, hr, hpolls, hi, hroom⟩ := h
  intro hw
  -- a key that has a slot
  obtain ⟨name, ext, hslot⟩ : ∃ name ext, HasSlot v.fs (name, BitVec.setWidth 3 (ext : BitVec 8)) := by
    cases hfd : v.fs.fd with
    | nil =>
      refine ⟨0, 0, Or.inr ?_⟩
      rw [hfd]
      decide
    | cons fd l =>
      refine ⟨fd.header.name, fd.header.ext.setWidth 8, Or.inl ?_⟩
      rw [setWidth_key]
      exact List.mem_map.2 ⟨fd, by rw [hfd]; exact List.mem_cons_self, rfl⟩
  obtain ⟨w', he⟩ := hw h v hr hpolls name ext [] (by decide)
  have hi' : Inv crc v.fresh.fs v.fresh.flash := hi
  obtain ⟨i, hret, hends⟩ := write_ends hi' (fun _ _ => hslot) he
  cases hret
  obtain ⟨s, hs⟩ := hroom
  cases hends with
  | allFull _ hall => exact hs (hall s)

/-- A call of `fs_thread` that leads to a state from which room is made. -/
theorem Frees.step {code : PtCode} {v : World}
    (he : fsThreadWith (fsWriteWith crc fun w => (fsThread crc ready (n + 1) true w).map Prod.snd)
      ready false w.fresh = some (code, v)) (h : Frees crc (n + 2) v) : Frees crc (n + 2) w := by
  obtain ⟨k, u, hr, hpolls, hu⟩ := h
  have he' : fsThread crc ready (n + 2) false w.fresh = some (code, v) := he
  have hstep : Step crc (n + 2) (.on w) (.call (.thread ready) (.ran code)) (.on v) :=
    .call w _ _ v (exec_of_fsThread he')
  refine ⟨k ++ [.call (.thread ready) (.ran code)], u, (Run.refl.step hstep).trans hr, ?_, hu⟩
  intro l hl
  rcases List.mem_append.1 hl with hl | hl
  · exact hpolls l hl
  · exact ⟨_, List.mem_singleton.1 hl⟩

theorem Frees.now (hi : Inv crc w.fs w.flash) (h : ∃ s, ¬ w.fs.SectorIsFull s) :
    Frees crc n w := ⟨[], w, .refl, fun l hl => (by cases hl), hi, h⟩

theorem not_full_eraseVictim (w : World) :
    ¬ w.eraseVictim.fs.SectorIsFull w.fs.reloc.sector :=
  not_full_of_blank (Curr.setAddress_self _ _ _)

/-- The loop finds no descriptor in the victim and erases it. -/
theorem LoopEnds.room {S : Fin 8} {m : Nat} {r : PtCode × World} (h : LoopEnds w S m r)
    (hno : ∀ fd ∈ w.fs.fd, fd.sector ≠ S) : ∃ s, ¬ r.2.fs.SectorIsFull s := by
  cases h with
  | picked v _ _ _ hahead =>
    have hzero : liveFrom w.fs S m = 0 := by
      unfold liveFrom
      rw [List.countP_eq_zero]
      intro fd hm
      simpa using hno fd (List.mem_of_mem_drop hm)
    omega
  | erased v => exact ⟨_, not_full_eraseVictim v⟩

section labels
variable (hi : Inv crc w.fs w.flash)
include hi

theorem frees_yieldNext (hpt : w.fs.pt = .yieldNext)
    (hno : ∀ fd ∈ w.fs.fd, fd.sector ≠ w.fs.reloc.sector) : Frees crc (n + 2) w := by
  have hpt₀ : w.fresh.fs.pt = .yieldNext := hpt
  obtain ⟨⟨code, v⟩, he, hl⟩ := fsThreadWith_next (fsWriteWith crc _) false hpt₀
  have hi' := inv_of_fsThreadWith (w := w.fresh) hi (by simp [World.fresh, hpt])
    (by simp [World.fresh, hpt]) he
  exact Frees.step he (.now hi' (hl.room hno))

theorem frees_yieldRead (hpt : w.fs.pt = .yieldRead)
    (hno : ∀ fd ∈ w.fs.fd, fd.sector ≠ w.fs.reloc.sector) : Frees crc (n + 2) w := by
  have hi₀ : Inv crc w.fresh.fs w.fresh.flash := hi
  have hpt₀ : w.fresh.fs.pt = .yieldRead := hpt
  obtain ⟨hv, hm, ⟨fd, hpk⟩, -⟩ := hi₀.picked (Or.inl hpt₀)
  -- the picked descriptor has left the victim
  have hne : fd.address ≠ w.fresh.fs.reloc.fd.address := by
    intro ha
    have hmem := List.mem_of_getElem? hpk.get
    have hin := hpk.inVictim
    rw [← ha] at hin
    exact hno fd hmem ((hi.index.sector fd hmem).unique hin)
  have hi' : Inv crc (w.fresh.setPt .yieldNext).fs (w.fresh.setPt .yieldNext).flash :=
    (passed_served hv hm hpk hne).inv hi₀
  have he := fsThreadWith_yieldRead (fsWriteWith crc fun w => (fsThread crc ready (n + 1) true
    w).map Prod.snd) ready false hpt₀ hpk.get
  rw [if_neg hne] at he
  exact Frees.step he (frees_yieldNext hi' rfl hno)

theorem frees_victim (hrel : Relocating w.fs)
    (hno : ∀ fd ∈ w.fs.fd, fd.sector ≠ w.fs.reloc.sector) : Frees crc (n + 2) w := by
  cases hpt : w.fs.pt with
  | null => exact absurd hpt hrel.1
  | waitTimer => exact absurd hpt hrel.2.1
  | yieldStart => exact absurd hpt hrel.2.2
  | yieldNext => exact frees_yieldNext hi hpt hno
  | yieldRead => exact frees_yieldRead hi hpt hno
  | waitRead =>
    have he : fsThreadWith (fsWriteWith crc fun w => (fsThread crc ready (n + 1) true w).map
        Prod.snd) ready false w.fresh = some (relocRead ready w.fresh) := by
      unfold fsThreadWith
      rw [show w.fresh.fs.pt = .waitRead from hpt]
    have hi' := inv_of_fsThreadWith (w := w.fresh) hi (by simp [World.fresh, hpt])
      (by simp [World.fresh, hpt]) he
    rw [relocRead_ready] at he hi'
    exact Frees.step he (frees_yieldRead hi' rfl hno)
  | waitErase =>
    have he : fsThreadWith (fsWriteWith crc fun w => (fsThread crc ready (n + 1) true w).map
        Prod.snd) ready false w.fresh = some (relocErase ready w.fresh) := by
      unfold fsThreadWith
      rw [show w.fresh.fs.pt = .waitErase from hpt]
    have hi' := inv_of_fsThreadWith (w := w.fresh) hi (by simp [World.fresh, hpt])
      (by simp [World.fresh, hpt]) he
    rw [relocErase_ready] at he hi'
    exact Frees.step he (.now hi' ⟨_, not_full_eraseVictim _⟩)
  | yieldRetry =>
    -- the copy that is retried is still in the victim
    have ht := hi.thread
    unfold Suspended at ht
    rw [hpt] at ht
    obtain ⟨-, -, -, fd, hpk, ha⟩ := ht
    have hmem := List.mem_of_getElem? hpk.get
    have hin := hpk.inVictim
    rw [← ha] at hin
    exact absurd ((hi.index.sector fd hmem).unique hin) (hno fd hmem)

theorem frees_start (hpt : w.fs.pt = .yieldStart) (hfull : ∀ s, w.fs.SectorIsFull s)
    {s : Fin 8} (hs : s ≠ w.fs.curr.sector) (hno : ∀ fd ∈ w.fs.fd, fd.sector ≠ s) :
    Frees crc (n + 2) w := by
  have hi₀ : Inv crc w.fresh.fs w.fresh.flash := hi
  have hpt₀ : w.fresh.fs.pt = .yieldStart := hpt
  have hb : blankOthers w.fresh.fs < 2 := by
    by_contra hge
    obtain ⟨t, ht⟩ := exists_blankOther (show 0 < blankOthers w.fresh.fs by omega)
    exact not_full_of_blank ht.2 (hfull t)
  obtain ⟨S, ⟨code, v⟩, he, hc, -, hl⟩ := fsThreadWith_choose (fsWriteWith crc _) false hi₀ hpt₀ hb
  have hi' := inv_of_fsThreadWith (w := w.fresh) hi (by simp [World.fresh, hpt])
    (by simp [World.fresh, hpt]) he
  refine Frees.step he (.now hi' (hl.room fun fd hm hsec => ?_))
  -- the victim has no more descriptors than `s`
  have hzero : liveIn w.fs s = 0 := by
    unfold liveIn
    rw [List.countP_eq_zero]
    intro fd hm
    simpa using hno fd hm
  have hle : liveIn w.fs S ≤ liveIn w.fs s := hc.least s ⟨hs, hfull s⟩
  have hpos : 0 < liveIn w.fs S := List.countP_pos_iff.2 ⟨fd, hm, by simpa using hsec⟩
  omega

theorem frees_idle (hrel : ¬ Relocating w.fs) (hfull : ∀ s, w.fs.SectorIsFull s)
    {s : Fin 8} (hs : s ≠ w.fs.curr.sector) (hno : ∀ fd ∈ w.fs.fd, fd.sector ≠ s) :
    Frees crc (n + 2) w := by
  by_cases hpt : w.fs.pt = .yieldStart
  · exact frees_start hi hpt hfull hs hno
  · have hpt₀ : w.fresh.fs.pt = .null ∨ w.fresh.fs.pt = .waitTimer := by
      show w.fs.pt = .null ∨ w.fs.pt = .waitTimer
      by_contra h
      rw [not_or] at h
      exact hrel ⟨h.1, h.2, hpt⟩
    have he := fsThreadWith_timer (fsWriteWith crc fun w => (fsThread crc ready (n + 1) true w).map
      Prod.snd) false hpt₀
    have h₁ : w.fs.pt ≠ .yieldRead ∧ w.fs.pt ≠ .yieldRetry := by
      rcases hpt₀ with h | h <;> (rw [show w.fs.pt = _ from h]; decide)
    have hi' := inv_of_fsThreadWith (w := w.fresh) hi h₁.1 h₁.2 he
    exact Frees.step he (frees_start hi' rfl hfull hs hno)

theorem wedged_iff_stuck : Wedged crc (n + 2) w ↔ Stuck w.fs := by
  refine ⟨fun hw => ?_, fun hs => hs.wedged hi⟩
  by_contra hns
  refine Frees.not_wedged ?_ hw
  by_cases hfull : ∀ s, w.fs.SectorIsFull s
  · by_cases hrel : Relocating w.fs
    · refine frees_victim hi hrel fun fd hm hsec => hns ⟨hfull, fun _ => ⟨fd, hm, hsec⟩, ?_⟩
      exact fun h => absurd hrel h
    · by_contra hnf
      refine hns ⟨hfull, fun h => absurd h hrel, fun _ s hs => ?_⟩
      by_contra hno
      refine hnf (frees_idle hi hrel hfull hs fun fd hm hsec => hno ⟨fd, hm, hsec⟩)
  · exact .now hi (not_forall.1 hfull)

end labels

end frees

/-! ## Two calls between any two writes -/

/-- The calls of `fs_thread` since the last write, of which two count; two before the first. -/
def credit : List Label → Nat
  | [] => 2
  | .call (.write _ _ _ _) _ :: _ => 0
  | .call (.thread _) _ :: h => min (credit h + 1) 2
  | _ :: h => credit h

/-- There are two calls of `fs_thread` between any two writes. -/
def Spaced : List Label → Prop
  | [] => True
  | .call (.write _ _ _ _) _ :: h => 2 ≤ credit h ∧ Spaced h
  | _ :: h => Spaced h

section spaced
variable {h : List Label} {s : Sys}

theorem paced_of_run (hr : Run (Guarded crc (n + 2)) (.on (coldBoot crc erased)) h s)
    (hc : ∀ l ∈ h, ∃ c r, l = .call c r) (hready : ∀ l ∈ h, l.Ready) (hsp : Spaced h) :
    ∃ w, s = .on w ∧ Paced crc w (credit h) := by
  induction hr with
  | refl => exact ⟨_, rfl, (paced_erased crc).1⟩
  | step _ hg ih =>
    obtain ⟨c, r, rfl⟩ := hc _ List.mem_cons_self
    have hrdy := hready _ List.mem_cons_self
    have ih := ih (fun l hl => hc l (List.mem_cons_of_mem _ hl))
      (fun l hl => hready l (List.mem_cons_of_mem _ hl))
    obtain ⟨hst, -, hslot⟩ := hg
    cases c with
    | write name ext data ans =>
      obtain ⟨w, rfl, hp⟩ := ih hsp.2
      obtain ⟨hlen, rfl⟩ := hrdy
      obtain ⟨v, he, hv, -⟩ := (hp.mono hsp.1).exec_write n hlen hslot
      cases hst with
      | call _ _ _ w' he' =>
        rw [he] at he'
        cases he'
        exact ⟨_, rfl, hv⟩
    | thread ans =>
      obtain ⟨w, rfl, hp⟩ := ih hsp
      obtain rfl : ans = ready := hrdy
      obtain ⟨code, v, he, hv⟩ := hp.exec_thread n
      cases hst with
      | call _ _ _ w' he' =>
        rw [he] at he'
        cases he'
        exact ⟨_, rfl, hv.paced⟩
    | read name ext len =>
      obtain ⟨w, rfl, hp⟩ := ih hsp
      cases hst with
      | call _ _ _ w' he' =>
        cases he'
        exact ⟨_, rfl, hp.inv, hp.room⟩

/-- However often `fs_thread` is called, a reachable state is wedged iff it is stuck, and none is
if there are two calls of `fs_thread` between any two writes. -/
theorem wedged_only_if_stuck (hr : Run (Step crc (n + 2)) (.on (coldBoot crc erased)) h s)
    (hc : ∀ l ∈ h, ∃ c r, l = .call c r) (hready : ∀ l ∈ h, l.Ready) (hl : Limits h) :
    ∃ w, s = .on w ∧ (Wedged crc (n + 2) w ↔ Stuck w.fs) ∧
      (Spaced h → ¬ Wedged crc (n + 2) w) := by
  have h0 : Sound crc .empty (.on (coldBoot crc erased)) := sound_boot (sound_erased crc)
  obtain ⟨w, rfl⟩ := calls_on hr hc ⟨_, rfl⟩
  obtain ⟨hg, S, -, hsound, -⟩ := hl.reaches hr h0
  have hi : Inv crc w.fs w.flash := hsound.2.1
  refine ⟨w, rfl, wedged_iff_stuck hi, fun hsp hw => ?_⟩
  obtain ⟨v, hv, hp⟩ := paced_of_run hg hc hready hsp
  cases hv
  obtain ⟨t, ht⟩ := hp.exists_room
  exact ht (((wedged_iff_stuck hi).1 hw).full t)

/-- Two writes, with two calls of `fs_thread` between them. -/
theorem wedged_only_if_stuck_two : ∃ r₁ r₂ r₃ r₄ w,
    Run (Step (fun _ => 0) 2) (.on (coldBoot (fun _ => 0) erased))
      [.call (sectorWrite 7) r₄, .call (.thread ready) r₃, .call (.thread ready) r₂,
        .call (sectorWrite 7) r₁] (.on w) ∧ ¬ Wedged (fun _ => 0) 2 w := by
  obtain ⟨r₁, w₁, he₁⟩ := Sectored.start.returns (SectorKeys.write 7)
  have h₁ := Sectored.start.call he₁ (.write 7 r₁)
  obtain ⟨r₂, w₂, he₂⟩ := h₁.returns (SectorKeys.thread ready)
  have h₂ := h₁.call he₂ (.thread ready r₂)
  obtain ⟨r₃, w₃, he₃⟩ := h₂.returns (SectorKeys.thread ready)
  have h₃ := h₂.call he₃ (.thread ready r₃)
  obtain ⟨r₄, w₄, he₄⟩ := h₃.returns (SectorKeys.write 7)
  have h₄ := h₃.call he₄ (.write 7 r₄)
  have hready : ∀ l ∈ [Label.call (sectorWrite 7) r₄, .call (.thread ready) r₃,
      .call (.thread ready) r₂, .call (sectorWrite 7) r₁], l.Ready := by
    intro l hl
    simp only [List.mem_cons, List.not_mem_nil, or_false] at hl
    rcases hl with rfl | rfl | rfl | rfl
    · exact ⟨by decide, rfl⟩
    · rfl
    · rfl
    · exact ⟨by decide, rfl⟩
  obtain ⟨v, hv, -, hspaced⟩ := wedged_only_if_stuck h₄.run h₄.calls hready h₄.keys.limits
  cases hv
  exact ⟨r₁, r₂, r₃, r₄, w₄, h₄.run, hspaced ⟨Nat.le_refl 2, Nat.le_refl 2, trivial⟩⟩

end spaced

/-! ## One call for every 127 writes -/

/-- The writes since the last call of `fs_thread`. -/
def sinceThread : List Label → Nat
  | [] => 0
  | .call (.write _ _ _ _) _ :: h => sinceThread h + 1
  | .call (.thread _) _ :: _ => 0
  | _ :: h => sinceThread h

/-- There is a call of `fs_thread` among any 128 consecutive writes. -/
def PolledOften : List Label → Prop
  | [] => True
  | l :: h => sinceThread (l :: h) < 128 ∧ PolledOften h

/-- The keys that are written once; the other one is `(0, 0)`. -/
def Cold (k : Key) : Prop := k ≠ (0, 0)

instance : DecidablePred Cold := fun k => inferInstanceAs (Decidable (k ≠ (0, 0)))

/-- With `r` copies made by `fs_thread`, and `j` writes since the last one of a cold key, at least
every fourth cell of a sector was taken by a cold key, which has left it only by one of the
copies. -/
def Squeezed (fs : Fs) (r j : Nat) : Prop :=
  ∀ s, cellsUsed fs s ≤ 4 * keysIn Cold fs s + 4 * r + if s = fs.curr.sector then j else 3

section squeezed
variable {w w' : World} {fs fs' : Fs} {f : Mem} {r j : Nat}

/-- A copy made by `fs_thread`, of whatever key. -/
theorem Squeezed.copied {k : Key} (hsq : Squeezed fs r j) (hp : Placed k fs fs')
    (hs : Shape fs.curr f) : Squeezed fs' (r + 1) j := by
  intro s
  have h₁ := hsq s
  have h₂ := hp.keysIn_le (P := Cold) s
  rw [hp.cellsUsed hs, hp.sector]
  by_cases hc : s = fs.curr.sector
  · rw [if_pos hc] at h₁ ⊢
    rw [if_pos (Or.inl hc)] at h₂
    rw [if_pos hc]
    omega
  · rw [if_neg hc] at h₁ ⊢
    rw [if_neg hc]
    split at h₂ <;> omega

/-- A write of the key that is not cold. -/
theorem Squeezed.hot {k : Key} (hsq : Squeezed fs r j) (hp : Placed k fs fs')
    (hs : Shape fs.curr f) (hk : ¬ Cold k) : Squeezed fs' r (j + 1) := by
  intro s
  have h₁ := hsq s
  have h₂ := hp.keysIn_le (P := Cold) s
  rw [hp.cellsUsed hs, hp.sector]
  rw [if_pos (Or.inr hk)] at h₂
  by_cases hc : s = fs.curr.sector
  · rw [if_pos hc] at h₁ ⊢
    rw [if_pos hc]
    omega
  · rw [if_neg hc] at h₁ ⊢
    rw [if_neg hc]
    omega

/-- The first write of a cold key. -/
theorem Squeezed.cold {k : Key} (hsq : Squeezed fs r j) (hp : Placed k fs fs')
    (hs : Shape fs.curr f) (hk : Cold k) (hnew : k ∉ keys fs) (hj : j ≤ 3) :
    Squeezed fs' r 0 := by
  intro s
  have h₁ := hsq s
  obtain ⟨h₂, h₃⟩ := hp.keysIn_new hnew hk
  have h₃ := h₃ s
  rw [hp.cellsUsed hs, hp.sector]
  by_cases hc : s = fs.curr.sector
  · subst hc
    rw [if_pos rfl] at h₁ ⊢
    rw [if_pos rfl]
    omega
  · rw [if_neg hc] at h₁ ⊢
    rw [if_neg hc]
    omega

/-- As long as few copies have been made every full sector holds a cold key. -/
theorem Squeezed.exists_fd (hsq : Squeezed fs r j) (hs : Shape fs.curr f) (hr : 4 * r + 3 < 128)
    (hj : j ≤ 3) {s : Fin 8} (hfull : fs.SectorIsFull s) : ∃ fd ∈ fs.fd, fd.sector = s := by
  have h₁ := hsq s
  rw [(hs.full_iff s).1 hfull] at h₁
  refine exists_keysIn (P := Cold) ?_
  split at h₁ <;> omega

theorem Squeezed.move {k : Nat} (hsq : Squeezed w.fs r j) (hm : Move crc k w w')
    (hi : Inv crc w.fs w.flash) (hr : 4 * r + 3 < 128) (hj : j ≤ 3) :
    Squeezed w'.fs (r + k) j ∧ blankOthers w'.fs ≤ blankOthers w.fs ∧
      totalUsed w.fs ≤ totalUsed w'.fs := by
  cases hm with
  | resume => exact ⟨hsq, Nat.le_refl _, Nat.le_refl _⟩
  | relocate _ hroom hc =>
    have hp := relocate_placed hi hc
    have hsq' := hsq.copied hp hi.shape
    have hb : blankOthers (w.relocate crc).fs = blankOthers w.fs := hp.blankOthers
    have ht : totalUsed (w.relocate crc).fs = totalUsed w.fs + 1 := hp.totalUsed hi.shape
    exact ⟨hsq', by omega, by omega⟩
  | erase _ hv hno =>
    obtain ⟨fd, hm, he⟩ := hsq.exists_fd hi.shape hr hj hv.full
    exact absurd he (hno fd hm)
  | retry => exact ⟨hsq, Nat.le_refl _, Nat.le_refl _⟩
  | switch _ s hfull hs =>
    have hblank := hi.shape.blankOther hfull hs
    have hb := blankOthers_setSector hblank hfull
    refine ⟨fun t => ?_, by omega, Nat.le_refl _⟩
    have h₁ := hsq t
    show cellsUsed w.fs t ≤ 4 * keysIn Cold w.fs t + 4 * r + if t = s then j else 3
    by_cases ht : t = s
    · subst ht
      rw [(hi.shape.blank_iff t).1 hblank.2]
      omega
    · rw [if_neg ht]
      split at h₁ <;> omega

theorem Squeezed.moves {k : Nat} (hsq : Squeezed w.fs r j) (hm : Moves crc k w w')
    (hi : Inv crc w.fs w.flash) (hr : 4 * (r + k) + 3 < 128) (hj : j ≤ 3) :
    Squeezed w'.fs (r + k) j ∧ blankOthers w'.fs ≤ blankOthers w.fs ∧
      totalUsed w.fs ≤ totalUsed w'.fs := by
  induction hm with
  | refl => exact ⟨hsq, Nat.le_refl _, Nat.le_refl _⟩
  | tail hm h ih =>
    obtain ⟨h₁, h₂, h₃⟩ := ih hsq hi (by omega)
    obtain ⟨h₄, h₅, h₆⟩ := h₁.move h (hm.spec hi).1 (by omega) hj
    rw [Nat.add_assoc] at h₄
    exact ⟨h₄, h₅.trans h₂, h₃.trans h₆⟩

end squeezed

/-! ## The run -/

/-- The state of the run after `t` writes: `m` bounds the copies made so far and those that the
blank sectors that are left can bring about. -/
def Active (w : World) (m j t : Nat) : Prop :=
  ∃ r, Squeezed w.fs r j ∧ r + blankOthers w.fs ≤ m ∧ t ≤ totalUsed w.fs

section active
variable {w w' : World} {m j t : Nat}

theorem Active.thread (ha : Active w m j t) (hi : Inv crc w.fs w.flash) (hm : m + 2 ≤ 31)
    (hj : j ≤ 3) {ans : Answers} {res : Result}
    (he : (Call.thread ans).exec crc (n + 2) w.fresh = some (res, w')) : Active w' (m + 2) j t := by
  have hi₀ : Inv crc w.fresh.fs w.fresh.flash := hi
  obtain ⟨r, hsq, hb, ht⟩ := ha
  have hsq₀ : Squeezed w.fresh.fs r j := hsq
  obtain ⟨k, hk, hm⟩ := thread_moves hi₀ he
  obtain ⟨h₁, h₂, h₃⟩ := hsq₀.moves hm hi₀ (by omega) hj
  have hb' : r + blankOthers w.fresh.fs ≤ m := hb
  exact ⟨r + k, h₁, by omega, ht.trans h₃⟩

/-- What a write does to a squeezed state: `j` goes on, or starts again with a new cold key. -/
theorem Active.append (ha : Active w m j t) (hi : Inv crc w.fs w.flash) (hj : j ≤ 3)
    {name : BitVec 16} {ext : BitVec 8} (data : List Byte)
    (hslot : HasSlot w.fs (name, ext.setWidth 3)) {j' : Nat}
    (hkey : (¬ Cold (name, ext.setWidth 3) ∧ j' = j + 1) ∨
      (Cold (name, ext.setWidth 3) ∧ (name, ext.setWidth 3) ∉ keys w.fs ∧ j' = 0)) :
    Active (appendBlock crc w (writeBuffer name ext data)).2 m j' (t + 1) := by
  obtain ⟨r, hsq, hb, ht⟩ := ha
  have hslot' : HasSlot w.fs (writeBuffer name ext data).header.key := hslot
  obtain ⟨-, hp, -⟩ := appendBlock_placed crc w _ (hi.findFd_lt hslot')
  have htot := hp.totalUsed hi.shape
  refine ⟨r, ?_, hp.blankOthers.symm ▸ hb, by omega⟩
  rcases hkey with ⟨hk, rfl⟩ | ⟨hk, hnew, rfl⟩
  · exact hsq.hot hp hi.shape hk
  · exact hsq.cold hp hi.shape hk hnew hj

theorem Active.write (ha : Active w m j t) (hi : Inv crc w.fs w.flash) (hm : m ≤ 31) (hj : j ≤ 3)
    {name : BitVec 16} {ext : BitVec 8} {data : List Byte} (hlen : data.length ≤ 28)
    {j' : Nat} (hkey : (¬ Cold (name, ext.setWidth 3) ∧ j' = j + 1) ∨
      (Cold (name, ext.setWidth 3) ∧ (name, ext.setWidth 3) ∉ keys w.fs ∧ j' = 0))
    {r : Int × World} (hw : WriteEnds crc w name ext data r) :
    Stuck r.2.fs ∨ Active r.2 m j' (t + 1) := by
  cases hw with
  | tooLong h => omega
  | allFull _ hall =>
    -- every sector is full and holds a cold key
    left
    obtain ⟨r, hsq, hb, -⟩ := ha
    have hfd := fun s => hsq.exists_fd hi.shape (by omega) hj (hall s)
    exact ⟨hall, fun _ => hfd _, fun _ s _ => hfd s⟩
  | room _ hroom hslot => exact Or.inr (ha.append hi hj data hslot hkey)
  | switched s v _ hfull hs hv _ hslot =>
    right
    obtain ⟨r, hsq, hb, ht⟩ := ha
    have hi₁ := (hi.setSector hfull hs).1
    have hb₁ := blankOthers_setSector (hi.shape.blankOther hfull hs) hfull
    obtain ⟨hsq₁, -, ht₁⟩ := hsq.move (.switch w s hfull hs) hi (by omega) hj
    obtain ⟨k, hk, hmoves⟩ := hv.moves
    obtain ⟨hsq₂, hb₂, ht₂⟩ := hsq₁.moves hmoves hi₁ (by omega) hj
    obtain ⟨hi₂, hkeeps⟩ := hmoves.spec hi₁
    have ha₂ : Active v m j t := ⟨_, hsq₂, by omega, ht.trans (ht₁.trans ht₂)⟩
    refine ha₂.append hi₂ hj data hslot ?_
    rw [hkeeps.keys]
    exact hkey

end active

/-- Every fourth write is the first one of a new key. -/
def scheduled (i : Nat) : BitVec 16 := if i % 4 = 3 then BitVec.ofNat 16 (i / 4 + 1) else 0

theorem scheduled_toNat {i : Nat} (hi : i < 1024) :
    (scheduled i).toNat = if i % 4 = 3 then i / 4 + 1 else 0 := by
  unfold scheduled
  split
  · rw [BitVec.toNat_ofNat]
    omega
  · rfl

/-- The run after `i` writes and `p` calls of `fs_thread`, with `g` writes since the last one. -/
structure Stage (crc : Block → BitVec 32) (h : List Label) (w : World) (i p g : Nat) : Prop where
  run : Run (Step crc (0 + 2)) (.on (coldBoot crc erased)) h (.on w)
  calls : ∀ l ∈ h, ∃ c r, l = .call c r
  ready : ∀ l ∈ h, l.Ready
  names : ∀ q ∈ passed h, ∃ i' < i, q = (scheduled i', 0)
  often : PolledOften h
  since : sinceThread h = g
  state : Stuck w.fs ∨ Active w (2 * p + 7) (i % 4) i

section stage
variable {h : List Label} {w : World} {i p g : Nat}

theorem limits_of_names (hi : i ≤ 1024) (hn : ∀ q ∈ passed h, ∃ i' < i, q = (scheduled i', 0)) :
    Limits h where
  ext q hq := by
    obtain ⟨i', -, rfl⟩ := hn q hq
    show (0 : BitVec 8).toNat < 8
    decide
  keys := by
    have hsub : (passed h).dedup ⊆ (List.range 257).map fun q => (BitVec.ofNat 16 q, 0) := by
      intro q hq
      obtain ⟨i', hlt, rfl⟩ := hn q (List.mem_dedup.1 hq)
      refine List.mem_map.2 ⟨(scheduled i').toNat, ?_, by rw [BitVec.ofNat_toNat, BitVec.setWidth_eq]⟩
      rw [List.mem_range, scheduled_toNat (by omega)]
      split <;> omega
    have hle := ((List.nodup_dedup _).subperm hsub).length_le
    rw [List.length_map, List.length_range] at hle
    exact hle.trans (by decide)

theorem stage_zero (crc : Block → BitVec 32) : Stage crc [] (coldBoot crc erased) 0 0 0 := by
  have hi := (paced_erased crc).1.inv
  have hcard := hi.shape.card_fullOther
  refine ⟨.refl, fun l hl => (by cases hl), fun l hl => (by cases hl), fun p hp => (by cases hp),
    trivial, rfl, Or.inr ?_⟩
  refine ⟨0, fun s => ?_, by omega, Nat.zero_le _⟩
  -- the boot leaves all append pointers at the start of their sectors
  have hptr : (coldBoot crc erased).fs.curr.address s = sectorBase s :=
    congrFun (booted_erased crc).pointers s
  have hzero := (hi.shape.blank_iff s).1 hptr
  omega

theorem Stage.sound (hst : Stage crc h w i p g) (hi : i ≤ 1024) :
    ∃ S, Sound crc S (.on w) ∧ ∀ n e, (S n e).isSome → (n, e) ∈ passed h := by
  obtain ⟨-, S, -, hsound, hpassed⟩ :=
    (limits_of_names hi hst.names).reaches hst.run (sound_boot (sound_erased crc))
  exact ⟨S, hsound, hpassed⟩

/-- The scheduled key is not cold, or has not been written before. -/
theorem Stage.key (hst : Stage crc h w i p g) (hi : i < 1024) :
    (¬ Cold (scheduled i, (0 : BitVec 8).setWidth 3) ∧ (i + 1) % 4 = i % 4 + 1) ∨
      (Cold (scheduled i, (0 : BitVec 8).setWidth 3) ∧
        (scheduled i, (0 : BitVec 8).setWidth 3) ∉ keys w.fs ∧ (i + 1) % 4 = 0) := by
  have hname := scheduled_toNat hi
  by_cases h3 : i % 4 = 3
  · right
    rw [if_pos h3] at hname
    refine ⟨fun he => ?_, fun hk => ?_, by omega⟩
    · have := congrArg (fun k : Key => k.1.toNat) he
      simp only [hname] at this
      exact absurd this (Nat.succ_ne_zero _)
    · obtain ⟨S, ⟨-, -, hc⟩, hpassed⟩ := hst.sound (Nat.le_of_lt hi)
      rw [← contents_isSome_iff (f := w.flash), hc] at hk
      unfold Store.toContents at hk
      rw [Option.isSome_map] at hk
      obtain ⟨i', hlt, he⟩ := hst.names _ (hpassed _ _ hk)
      have hname' := scheduled_toNat (Nat.lt_trans hlt hi)
      have he' : scheduled i = scheduled i' := (Prod.mk.inj he).1
      rw [← he', hname] at hname'
      split at hname' <;> omega
  · left
    refine ⟨fun hne => hne ?_, by omega⟩
    unfold scheduled
    rw [if_neg h3]
    rfl

theorem Stage.write (hst : Stage crc h w i p g) (hi : i < 1024) (hp : p ≤ 8) (hg : g < 127) :
    ∃ h' w', Stage crc h' w' (i + 1) p (g + 1) := by
  obtain ⟨S, hsound, hpassed⟩ := hst.sound (Nat.le_of_lt hi)
  have hinv : Inv crc w.fresh.fs w.fresh.flash := hsound.2.1
  have hnames : ∀ r, ∀ q ∈ passed (.call (.write (scheduled i) 0 [] Wormvars.ready) r :: h),
      ∃ i' < i + 1, q = (scheduled i', 0) := by
    intro r q hq
    rcases List.mem_cons.1 hq with rfl | hq
    · exact ⟨i, Nat.lt_succ_self i, rfl⟩
    · obtain ⟨i', hlt, he⟩ := hst.names q hq
      exact ⟨i', Nat.lt_succ_of_lt hlt, he⟩
  have hslot : SlotFor w (.write (scheduled i) 0 [] Wormvars.ready) :=
    (limits_of_names (by omega) (hnames (.wrote 0))).slotFree hsound hpassed
  obtain ⟨r, hex, hends⟩ : ∃ r, fsWrite crc Wormvars.ready 2 w.fresh (scheduled i) 0 [] = some r ∧
      WriteEnds crc w.fresh (scheduled i) 0 [] r := fsWrite_spec hinv Wormvars.ready 1 hslot
  have hstep : Step crc (0 + 2) (.on w) (.call (.write (scheduled i) 0 [] Wormvars.ready)
      (.wrote r.1)) (.on r.2) := .call w _ _ r.2 (exec_of_fsWrite hex)
  have hsince : sinceThread (.call (.write (scheduled i) 0 [] Wormvars.ready) (.wrote r.1) :: h) =
      g + 1 := congrArg (· + 1) hst.since
  refine ⟨_, r.2, hst.run.step hstep, ?_, ?_, hnames _, ⟨by omega, hst.often⟩, hsince, ?_⟩
  · intro l hl
    rcases List.mem_cons.1 hl with rfl | hl
    · exact ⟨_, _, rfl⟩
    · exact hst.calls l hl
  · intro l hl
    rcases List.mem_cons.1 hl with rfl | hl
    · exact ⟨by decide, rfl⟩
    · exact hst.ready l hl
  · rcases hst.state with hs | ha
    · left
      cases hends with
      | tooLong h => simp at h
      | allFull _ _ => exact hs
      | room _ hroom => exact absurd (hs.full _) hroom
      | switched s _ _ _ hnot => exact absurd (hs.full s) hnot
    · have ha₀ : Active w.fresh (2 * p + 7) (i % 4) i := ha
      exact ha₀.write hinv (by omega) (by omega) (by decide) (hst.key hi) hends

theorem Stage.thread (hst : Stage crc h w i p g) (hi : i ≤ 1024) (hp : p ≤ 8) :
    ∃ h' w', Stage crc h' w' i (p + 1) 0 := by
  obtain ⟨S, hsound, -⟩ := hst.sound hi
  have hinv := hsound.2.1
  obtain ⟨r, w', hex, -⟩ := call_spec hsound 0 (.thread Wormvars.ready) (fun _ h => by cases h) trivial
  refine ⟨.call (.thread Wormvars.ready) r :: h, w', hst.run.step (.call w _ _ w' hex), ?_, ?_,
    hst.names, ⟨by simp [sinceThread], hst.often⟩, rfl, ?_⟩
  · intro l hl
    rcases List.mem_cons.1 hl with rfl | hl
    · exact ⟨_, _, rfl⟩
    · exact hst.calls l hl
  · intro l hl
    rcases List.mem_cons.1 hl with rfl | hl
    · rfl
    · exact hst.ready l hl
  · rcases hst.state with hs | ha
    · exact Or.inl (hs.thread hinv hex).1
    · exact Or.inr (ha.thread hinv (by omega) (by omega) hex)

theorem Stage.writes (hst : Stage crc h w i p g) (hp : p ≤ 8) (k : Nat) (hi : i + k ≤ 1024)
    (hg : g + k ≤ 127) : ∃ h' w', Stage crc h' w' (i + k) p (g + k) := by
  induction k with
  | zero => exact ⟨h, w, hst⟩
  | succ k ih =>
    obtain ⟨h', w', hst'⟩ := ih (by omega) (by omega)
    exact hst'.write (by omega) hp (by omega)

theorem stage_rounds (crc : Block → BitVec 32) (p : Nat) (hp : p ≤ 8) :
    ∃ h w, Stage crc h w (127 * p) p 0 := by
  induction p with
  | zero => exact ⟨_, _, stage_zero crc⟩
  | succ p ih =>
    obtain ⟨h, w, hst⟩ := ih (by omega)
    obtain ⟨h', w', hst'⟩ := hst.writes (by omega) 127 (by omega) (by omega)
    exact hst'.thread (by omega) (by omega)

theorem Stage.stuck (hst : Stage crc h w 1024 p g) (hp : p ≤ 8) : Stuck w.fs := by
  obtain ⟨S, ⟨-, hi, -⟩, -⟩ := hst.sound (Nat.le_refl _)
  rcases hst.state with hs | ⟨r, hsq, hb, ht⟩
  · exact hs
  · have hall := full_of_totalUsed hi.shape ht
    have hfd := fun s => hsq.exists_fd hi.shape (by omega) (by omega) (hall s)
    exact ⟨hall, fun _ => hfd _, fun _ s _ => hfd s⟩

end stage

/-- A run of calls in which `fs_thread` is called after every 127 writes ends in a wedged state. -/
theorem wedged_at_low_rate : ∃ h w,
    Run (Step (fun _ => 0) 2) (.on (coldBoot (fun _ => 0) erased)) h (.on w) ∧
      (∀ l ∈ h, ∃ c r, l = .call c r) ∧ (∀ l ∈ h, l.Ready) ∧ Limits h ∧ PolledOften h ∧
      Wedged (fun _ => 0) 2 w := by
  obtain ⟨h, w, hst⟩ := stage_rounds (fun _ => 0) 8 (Nat.le_refl 8)
  obtain ⟨h', w', hst'⟩ := hst.writes (Nat.le_refl 8) 8 (by omega) (by omega)
  obtain ⟨S, ⟨-, hi, -⟩, -⟩ := hst'.sound (Nat.le_refl _)
  exact ⟨h', w', hst'.run, hst'.calls, hst'.ready, limits_of_names (Nat.le_refl _) hst'.names, hst'.often,
    (wedged_iff_stuck hi).2 (hst'.stuck (Nat.le_refl 8))⟩

end Wormvars
