import Wormvars.Pinned

/-!
# How long a relocation takes

`pollsLeft` bounds the calls of `fs_thread` until the victim is erased that find the
timer expired and the flash ready.  Such a call takes one off, and nothing else adds to
it: not a call that has to wait, and not a write of a user, which may even copy a block
of the victim itself (`Phase.nearer`, `WritePhase.nearer`).  So once fewer than two other
sectors are blank, a sector is erased within 103 such calls however they are mixed with
writes, or every sector is full (`relocation_latency`).
-/

namespace Wormvars

open NorFlash Runs

variable {crc : Block → BitVec 32} {n : Nat} {h h' : List Label} {k : List Event}

/-! ## The measure -/

def pollsLeft (fs : Fs) : Nat :=
  match fs.pt with
  | .null | .waitTimer => 103
  | .yieldStart => 102
  | .waitRead => 2 * ahead fs + 3
  | .yieldRead | .yieldRetry => 2 * ahead fs + 2
  | .yieldNext => 2 * ahead fs + 1
  | .waitErase => 1

/-- A call that finds nothing to wait for. -/
def Answers.Served (ans : Answers) : Prop := ans.timerExpired = true ∧ ans.flashReady = true

instance (ans : Answers) : Decidable ans.Served := inferInstanceAs (Decidable (_ ∧ _))

theorem pollsLeft_start {fs : Fs} (h : fs.pt = .null ∨ fs.pt = .waitTimer) :
    pollsLeft fs = 103 := by
  unfold pollsLeft
  rcases h with h | h <;> rw [h]

theorem pollsLeft_le {fs : Fs} (h : unreached fs ≤ 50) : pollsLeft fs ≤ 103 := by
  unfold unreached at h
  unfold pollsLeft
  cases hpt : fs.pt <;> rw [hpt] at h <;> simp only at h ⊢ <;> omega

theorem Placed.pollsLeft_le {key : Key} {fs fs' : Fs} {f : Mem} (hp : Placed key fs fs')
    (hi : Inv crc fs f) : pollsLeft fs' ≤ pollsLeft fs := by
  have hle : Relocating fs → ahead fs' ≤ ahead fs := fun hr => hp.ahead_le (hi.victim hr)
  unfold pollsLeft
  rw [hp.pt]
  cases hpt : fs.pt with
  | null => exact Nat.le_refl _
  | waitTimer => exact Nat.le_refl _
  | yieldStart => exact Nat.le_refl _
  | waitErase => exact Nat.le_refl _
  | waitRead =>
    have := hle (by simp [Relocating, hpt])
    simp only
    omega
  | yieldRead =>
    have := hle (by simp [Relocating, hpt])
    simp only
    omega
  | yieldRetry =>
    have := hle (by simp [Relocating, hpt])
    simp only
    omega
  | yieldNext =>
    have := hle (by simp [Relocating, hpt])
    simp only
    omega

/-- A sector is erased, or all are full, or the erase is nearer by `d`. -/
structure Nearer (d : Nat) (w w' : World) : Prop where
  mono : erases w.log ≤ erases w'.log
  full : erases w'.log = erases w.log → (∀ s, w.fs.SectorIsFull s) → ∀ s, w'.fs.SectorIsFull s
  blank : erases w'.log = erases w.log → blankOthers w'.fs ≤ blankOthers w.fs
  polls : erases w'.log = erases w.log →
    (∀ s, w'.fs.SectorIsFull s) ∨ pollsLeft w'.fs + d ≤ pollsLeft w.fs

namespace Nearer
variable {w v w' : World} {d d' : Nat}

theorem trans (h : Nearer d w v) (h' : Nearer d' v w') : Nearer (d + d') w w' := by
  have h₁ := h.mono
  have h₂ := h'.mono
  refine ⟨h₁.trans h₂, fun he hfull => ?_, fun he => ?_, fun he => ?_⟩
  · exact h'.full (by omega) (h.full (by omega) hfull)
  · exact (h'.blank (by omega)).trans (h.blank (by omega))
  · rcases h'.polls (by omega) with hp' | hp'
    · exact Or.inl hp'
    · rcases h.polls (by omega) with hp | hp
      · exact Or.inl (h'.full (by omega) hp)
      · exact Or.inr (by omega)

theorem weaken (h : Nearer d w w') (hd : d' ≤ d) : Nearer d' w w' where
  mono := h.mono
  full := h.full
  blank := h.blank
  polls he := (h.polls he).imp_right fun hp => by omega

/-- The thread goes to a label with less to do. -/
theorem resume (hcurr : w'.fs.curr = w.fs.curr) (hl : erases w'.log = erases w.log)
    (h : (∀ s, w'.fs.SectorIsFull s) ∨ pollsLeft w'.fs + d ≤ pollsLeft w.fs) : Nearer d w w' where
  mono := Nat.le_of_eq hl.symm
  full _ hfull s := by
    have := hfull s
    unfold Fs.SectorIsFull at this ⊢
    rw [hcurr]
    exact this
  blank _ := Nat.le_of_eq (blankOthers_of_curr hcurr)
  polls _ := h

theorem setSector (hi : Inv crc w.fs w.flash) {s : Fin 8}
    (hfull : w.fs.SectorIsFull w.fs.curr.sector) (hs : ¬ w.fs.SectorIsFull s) :
    Nearer 0 w (w.setSector s) where
  mono := Nat.le_refl _
  full _ hall := absurd (hall s) hs
  blank _ := by
    have := blankOthers_setSector (hi.shape.blankOther hfull hs) hfull
    omega
  polls _ := Or.inr (Nat.le_refl _)

theorem append {buffer : Block} (hi : Inv crc w.fs w.flash)
    (hroom : ¬ w.fs.SectorIsFull w.fs.curr.sector) (hslot : HasSlot w.fs buffer.header.key) :
    Nearer 0 w (appendBlock crc w buffer).2 := by
  have hlt := hi.findFd_lt hslot
  obtain ⟨-, hp, -⟩ := appendBlock_placed crc w buffer hlt
  exact ⟨Nat.le_of_eq (appendBlock_erases hlt crc).symm, fun _ hall => absurd (hall _) hroom,
    fun _ => Nat.le_of_eq hp.blankOthers, fun _ => Or.inr (hp.pollsLeft_le hi)⟩

theorem relocate (hi : Inv crc w.fs w.flash) (hroom : ¬ w.fs.SectorIsFull w.fs.curr.sector)
    (hc : Carries w.fs w.flash) (hd : 2 * ahead w.fs + 1 + d ≤ pollsLeft w.fs) :
    Nearer d w (w.relocate crc) := by
  have hp := relocate_placed hi hc
  have hle : ahead (w.relocate crc).fs ≤ ahead w.fs := hp.ahead_le hc.victim
  have hpolls : pollsLeft (w.relocate crc).fs = 2 * ahead (w.relocate crc).fs + 1 := rfl
  have herases : erases (w.relocate crc).log = erases w.log :=
    appendBlock_erases (hi.findFd_lt hc.hasSlot) crc
  refine ⟨Nat.le_of_eq herases.symm, fun _ hall => absurd (hall _) hroom, fun _ => ?_,
    fun _ => Or.inr (by omega)⟩
  exact Nat.le_of_eq hp.blankOthers

theorem erase (d : Nat) (w : World) : Nearer d w w.eraseVictim := by
  have herases : erases w.eraseVictim.log = erases w.log + 1 := erases_erase
  refine ⟨by omega, fun he => ?_, fun he => ?_, fun he => ?_⟩
  all_goals omega

end Nearer

/-! ## One call -/

section calls
variable {w : World} {ans : Answers} {flag : Bool}

/-- What a call takes off. -/
def Answers.progress (ans : Answers) : Nat := if ans.Served then 1 else 0

theorem Answers.progress_le (ans : Answers) : ans.progress ≤ 1 := by
  unfold progress
  split
  · exact Nat.le_refl 1
  · exact Nat.zero_le 1

theorem Answers.progress_busy {ans : Answers} (h : ¬ ans.flashReady = true) : ans.progress = 0 :=
  if_neg fun hs => h hs.2

theorem relocRead_nearer (ans : Answers) (r : Reloc)
    (h : 2 * liveFrom w.fs r.sector (r.fdIndex + 1) + 3 ≤ pollsLeft w.fs) :
    Nearer ans.progress w (relocRead ans (w.setReloc r)).2 := by
  have hp := ans.progress_le
  unfold relocRead
  simp only
  split
  · refine .resume rfl rfl (Or.inr ?_)
    show 2 * liveFrom w.fs r.sector (r.fdIndex + 1) + 2 + ans.progress ≤ _
    omega
  · next hbusy =>
    refine .resume rfl rfl (Or.inr ?_)
    show 2 * liveFrom w.fs r.sector (r.fdIndex + 1) + 3 + ans.progress ≤ _
    rw [Answers.progress_busy hbusy]
    exact h

theorem relocErase_nearer (ans : Answers) (r : Reloc) (h : 1 ≤ pollsLeft w.fs) :
    Nearer ans.progress w (relocErase ans (w.setReloc r)).2 := by
  have hwait : Nearer 0 w ((w.setReloc r).setPt .waitErase) := .resume rfl rfl (Or.inr h)
  rw [relocErase_eq]
  split
  · have := hwait.trans (Nearer.erase ans.progress ((w.setReloc r).setPt .waitErase))
    rwa [Nat.zero_add] at this
  · next hbusy =>
    rw [Answers.progress_busy hbusy]
    exact hwait

theorem Enters.pollsLeft {fs : Fs} {S : Fin 8} {m : Nat} (he : Enters fs S m) :
    2 * liveFrom fs S m + 1 ≤ pollsLeft fs := by
  unfold Wormvars.pollsLeft
  cases he with
  | choose _ hpt _ _ _ hl =>
    rw [hpt]
    have : liveFrom fs S 0 ≤ 50 := hl
    simp only
    omega
  | next hpt =>
    rw [hpt]
    exact Nat.le_refl _

theorem Phase.nearer {r : PtCode × World} (h : Phase crc ans flag w r) (hi : Inv crc w.fs w.flash)
    (hb : blankOthers w.fs < 2) : Nearer ans.progress w r.2 := by
  have hp := ans.progress_le
  have hread : w.fs.pt = .yieldRead → pollsLeft w.fs = 2 * ahead w.fs + 2 := by
    intro hpt
    unfold pollsLeft
    rw [hpt]
  cases h with
  | timer hpt =>
    have h103 := pollsLeft_start hpt
    split
    · refine .resume rfl rfl (Or.inr ?_)
      show 102 + ans.progress ≤ _
      omega
    · next hno =>
      refine .resume rfl rfl (Or.inr ?_)
      have h0 : ans.progress = 0 := if_neg fun hs => hno (Or.inr hs.1)
      show 103 + ans.progress ≤ _
      omega
  | idle _ h2 => omega
  | found S m j fd he hf =>
    refine relocRead_nearer ans { w.fs.reloc with sector := S, fd := fd, fdIndex := j } ?_
    have h₁ := he.pollsLeft
    have h₂ : liveFrom w.fs S (j + 1) + 1 = liveFrom w.fs S m := hf.liveFrom
    show 2 * liveFrom w.fs S (j + 1) + 3 ≤ _
    omega
  | behind S m m' he =>
    have := he.pollsLeft
    exact relocErase_nearer ans _ (by omega)
  | read hpt =>
    refine relocRead_nearer ans w.fs.reloc ?_
    unfold pollsLeft
    rw [hpt]
    exact Nat.le_refl _
  | erase hpt =>
    refine relocErase_nearer ans w.fs.reloc ?_
    unfold pollsLeft
    rw [hpt]
  | passed fd hpt =>
    have := hread hpt
    refine .resume rfl rfl (Or.inr ?_)
    show 2 * ahead w.fs + 1 + ans.progress ≤ _
    omega
  | copied fd hpt hg ha hroom =>
    have := hread hpt
    exact .relocate hi hroom (hi.carries hpt hg ha) (by omega)
  | retried _ hall => exact .resume rfl erases_returns (Or.inl hall)
  | switched fd s hpt hg ha hfull hs =>
    have := hread hpt
    have hc := hi.carries hpt hg ha
    have hi₁ := (hi.setSector hfull hs).1
    obtain ⟨hi₂, -, hroom, hc₂⟩ := relocate_inner hi hfull hs hc
    have h₁ : Nearer ans.progress (w.setSector s) ((w.setSector s).relocate crc) :=
      .relocate hi₁ hs (hc.setSector hs) (by
        show 2 * ahead w.fs + 1 + ans.progress ≤ pollsLeft w.fs
        omega)
    have h₂ : Nearer 0 ((w.setSector s).relocate crc)
        (((w.setSector s).relocate crc).relocate crc) := .relocate hi₂ hroom hc₂ (Nat.le_refl _)
    have := ((Nearer.setSector hi hfull hs).trans h₁).trans h₂
    rwa [Nat.zero_add] at this

theorem WritePhase.nearer {name : BitVec 16} {ext : BitVec 8} {data : List Byte} {r : Int × World}
    (h : WritePhase crc ans w name ext data r) (hi : Inv crc w.fs w.flash)
    (hb : blankOthers w.fs < 2) : Nearer 0 w r.2 := by
  cases h with
  | tooLong => exact .resume rfl erases_returns (Or.inr (Nat.le_refl _))
  | allFull => exact .resume rfl erases_returns (Or.inr (Nat.le_refl _))
  | room _ hroom hslot =>
    have hslot' : HasSlot w.fs (writeBuffer name ext data).header.key := hslot
    exact .append hi hroom hslot'
  | switched s c v _ hfull hs hph hv hroom hslot =>
    have hslot' : HasSlot v.fs (writeBuffer name ext data).header.key := hslot
    have hblank := blankOthers_setSector (hi.shape.blankOther hfull hs) hfull
    have hnested := hph.nearer (hi.setSector hfull hs).1 (by omega)
    exact ((Nearer.setSector hi hfull hs).trans (hnested.weaken (Nat.zero_le _))).trans
      (.append hv hroom hslot')

end calls

/-! ## Runs -/

def Label.isPoll : Label → Bool
  | .call (.thread ans) _ => decide ans.Served
  | _ => false

/-- The calls of `fs_thread` that find nothing to wait for. -/
def polls (h : List Label) : Nat := h.countP Label.isPoll

theorem polls_cons (l : Label) (h : List Label) : polls (l :: h) = polls [l] + polls h :=
  countP_cons_add _ _ _

theorem polls_thread (ans : Answers) (r : Result) :
    polls [.call (.thread ans) r] = ans.progress := by
  unfold polls Label.isPoll Answers.progress
  rw [List.countP_singleton]
  simp

section runs
variable {w w' : World} {c : Call} {r : Result}

theorem Inv.exec_nearer (hi : Inv crc w.fs w.flash) (hslot : SlotFor w c)
    (hb : blankOthers w.fs < 2) (he : c.exec crc (n + 2) w.fresh = some (r, w')) :
    Nearer (polls [.call c r]) w.fresh w' := by
  cases c with
  | read name ext len =>
    cases he
    exact .resume rfl rfl (Or.inr (Nat.le_refl _))
  | thread ans =>
    obtain ⟨v, hv, hp⟩ := fsThread_phase (w := w.fresh) hi ans false n
    rw [exec_of_fsThread hv] at he
    cases he
    rw [polls_thread]
    exact hp.nearer hi hb
  | write name ext data ans =>
    obtain ⟨v, hv, hp⟩ := fsWrite_phase (w := w.fresh) hi ans (n + 1) hslot
    rw [exec_of_fsWrite hv] at he
    cases he
    exact hp.nearer hi hb

/-- What a run without an erase has done about the relocation. -/
theorem relocation_progress (hr : Run (Step crc (n + 2)) (.off erased) h (.on w))
    (he : Emits (Step crc (n + 2)) (issued crc (n + 2)) (.on w) h' (.on w') k)
    (hl : Limits (h' ++ h)) (hcalls : ∀ l ∈ h', ∃ c r, l = .call c r)
    (hb : blankOthers w.fs < 2) : erases k = 0 → blankOthers w'.fs < 2 ∧
      ((∀ s, w'.fs.SectorIsFull s) ∨ pollsLeft w'.fs + polls h' ≤ pollsLeft w.fs) := by
  have hclosed : SuffixClosed fun a => Limits (a ++ h) ∧ ∀ l ∈ a, ∃ c r, l = .call c r :=
    fun l a ⟨hl, hc⟩ => ⟨hl.tail, fun x hx => hc x (List.mem_cons_of_mem _ hx)⟩
  have hmain := he.invariant (I := fun a t k => ∃ v, t = .on v ∧ (erases k = 0 →
    blankOthers v.fs < 2 ∧ ((∀ s, v.fs.SectorIsFull s) ∨
      pollsLeft v.fs + polls a ≤ pollsLeft w.fs))) hclosed ⟨hl, hcalls⟩
    ⟨w, rfl, fun _ => ⟨hb, Or.inr (Nat.le_refl _)⟩⟩ ?_
  · obtain ⟨v, hv, h⟩ := hmain
    cases hv
    exact h
  · rintro a b l t k' hrun ⟨hl', hc'⟩ hst ⟨v, rfl, hv⟩
    obtain ⟨c, r, rfl⟩ := hc' l List.mem_cons_self
    obtain ⟨hi, hslot⟩ := hl'.before (hr.trans hrun)
    cases hst with
    | call _ _ _ v' hex =>
      have hlog : issued crc (n + 2) (.on v) (.call c r) = v'.log := issued_call hex
      refine ⟨v', rfl, fun h0 => ?_⟩
      rw [hlog] at h0
      have hsum : erases (v'.log ++ k') = erases v'.log + erases k' := List.countP_append
      obtain ⟨hbv, hpv⟩ := hv (by omega)
      obtain ⟨-, hfull, hblank, hnear⟩ := hi.exec_nearer hslot hbv hex
      have hnone : erases v'.log = erases v.fresh.log := by
        show erases v'.log = 0
        omega
      have hpolls := polls_cons (.call c r) a
      refine ⟨(hblank hnone).trans_lt hbv, ?_⟩
      rcases hpv with hpv | hpv
      · exact Or.inl (hfull hnone hpv)
      · rcases hnear hnone with hn | hn
        · exact Or.inl hn
        · right
          have : pollsLeft v.fresh.fs = pollsLeft v.fs := rfl
          omega

/-- When fewer than two other sectors are blank, 103 calls of `fs_thread` that need not wait see
a sector erased, whatever is called between them, unless every sector is full. -/
theorem relocation_latency (hr : Run (Step crc (n + 2)) (.off erased) h (.on w))
    (he : Emits (Step crc (n + 2)) (issued crc (n + 2)) (.on w) h' (.on w') k)
    (hl : Limits (h' ++ h)) (hcalls : ∀ l ∈ h', ∃ c r, l = .call c r)
    (hb : blankOthers w.fs < 2) :
    0 < erases k ∨ (∀ s, w'.fs.SectorIsFull s) ∨ polls h' ≤ 102 := by
  by_cases h0 : erases k = 0
  · right
    obtain ⟨-, hor⟩ := relocation_progress hr he hl hcalls hb h0
    refine hor.imp_right fun hp => ?_
    have h103 := pollsLeft_le (reachable_unreached hr hl.of_append w rfl)
    have hpos : 0 < pollsLeft w'.fs := by
      unfold pollsLeft
      split <;> omega
    omega
  · exact Or.inl (by omega)

end runs

/-- 769 writes do not fill the flash. -/
theorem Sectored.room {h : List Label} {w : World} (hs : Sectored h w) (hle : written h ≤ 769) :
    ¬ ∀ s, w.fs.SectorIsFull s := by
  intro hfull
  have h1024 := totalUsed_of_full hs.inv.shape hfull
  obtain ⟨k, hk⟩ := hs.run.emits (issued (fun _ => 0) (0 + 2))
  have hcells := Undisturbed.cells_le hk ⟨hs.keys.limits, whole_of_calls hs.calls⟩
  have hnone : boots h = 0 := by
    refine List.countP_eq_zero.2 fun l hl => ?_
    obtain ⟨c, r, rfl⟩ := hs.calls l hl
    simp [Label.isBoot]
  omega

/-- The write that turns to the last sector but one, and 103 calls of `fs_thread` after it. -/
theorem relocation_latency_tour : ∃ h u w x v h' w' k, Tour h u w x v ∧ blankOthers w.fs = 1 ∧
    Emits (Step (fun _ => 0) (0 + 2)) (issued (fun _ => 0) (0 + 2)) (.on w) h' (.on w') k ∧
    polls h' = 103 ∧ 0 < erases k := by
  obtain ⟨h, u, w, x, v, ht⟩ := tour
  have hb : blankOthers w.fs = 1 := ht.turned.column.blankOthers
  have hw := ht.turned.sectored
  obtain ⟨hrun, hkeys⟩ := hw.fromOff
  obtain ⟨h', w', hr, hkeys', hlen, hpoll⟩ :=
    hkeys.again (c := .thread ready) hrun (SectorKeys.thread ready) 103
  obtain ⟨k, hk⟩ := hr.emits (issued (fun _ => 0) (0 + 2))
  have hpolls : polls h' = 103 := by
    rw [← hlen]
    refine List.countP_eq_length.2 fun l hl => ?_
    obtain ⟨r, -, -, -, rfl⟩ := hpoll l hl
    rfl
  have hcalls : ∀ l ∈ h', ∃ c r, l = .call c r := fun l hl => by
    obtain ⟨r, -, -, -, rfl⟩ := hpoll l hl
    exact ⟨_, _, rfl⟩
  have hs : Sectored (h' ++ .call (sectorWrite 5) (.wrote 0) :: h) w' :=
    ⟨hw.run.trans hr, fun l hl => (List.mem_append.1 hl).elim (hcalls l) (hw.calls l),
      hw.keys.append hkeys'⟩
  -- the polls write nothing
  have hroom : ¬ ∀ s, w'.fs.SectorIsFull s := by
    refine hs.room ?_
    have hidle : written h' = 0 := by
      refine List.countP_eq_zero.2 fun l hl => ?_
      obtain ⟨r, -, -, -, rfl⟩ := hpoll l hl
      simp [Label.isWritten]
    have hsum : written (h' ++ .call (sectorWrite 5) (.wrote 0) :: h) =
        written h' + written (.call (sectorWrite 5) (.wrote 0) :: h) := List.countP_append
    have hle : written (.call (sectorWrite 5) (.wrote 0) :: h) ≤ 769 :=
      List.countP_le_length.trans_eq ht.turned.length
    omega
  have hl : Limits (h' ++ (.call (sectorWrite 5) (.wrote 0) :: h ++ [.boot])) :=
    (hkeys.append hkeys').limits
  have hor := relocation_latency hrun hk hl hcalls (by omega)
  exact ⟨h, u, w, x, v, h', w', k, ht, hb, hk, hpolls,
    hor.resolve_right fun hor => hor.elim hroom (by omega)⟩

end Wormvars
