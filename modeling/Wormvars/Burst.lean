import Wormvars.Endurance

/-!
# Bursts of writes

A write takes a cell, and so does a call of `fs_thread` that yields, at most, or a call that is
cut short.  To turn to a blank sector costs one cell more, for the copy that `fs_thread` makes
inside `updateSector`.  The load of a state counts such a cell for each blank sector from the
start, so it grows by one at most with each of these steps and with no other
(`Lasting.load`).  As long as it is below 1024 some sector has room: that many writes succeed
in a row, whatever else happens (`burst_writes_succeed`).
-/

namespace Wormvars

open NorFlash Runs

variable {crc : Block → BitVec 32} {n : Nat} {h h' : List Label}

/-! ## One call -/

section calls
variable {w w' : World} {ans : Answers} {flag : Bool}

theorem load_of_curr (h : w'.fs.curr = w.fs.curr) : load (.on w') = load (.on w) := by
  show totalUsed w'.fs + blankOthers w'.fs = totalUsed w.fs + blankOthers w.fs
  rw [blankOthers_of_curr h]
  unfold totalUsed cellsUsed
  rw [h]

theorem load_setSector (hi : Inv crc w.fs w.flash) {s : Fin 8}
    (hfull : w.fs.SectorIsFull w.fs.curr.sector) (hs : ¬ w.fs.SectorIsFull s) :
    load (.on (w.setSector s)) + 1 = load (.on w) := by
  have hb := blankOthers_setSector (hi.shape.blankOther hfull hs) hfull
  show totalUsed w.fs + blankOthers (w.setSector s).fs + 1 = totalUsed w.fs + blankOthers w.fs
  omega

theorem load_append (buffer : Block) (hi : Inv crc w.fs w.flash)
    (hslot : HasSlot w.fs buffer.header.key) :
    load (.on (appendBlock crc w buffer).2) = load (.on w) + 1 := by
  obtain ⟨-, hp, -⟩ := appendBlock_placed crc w buffer (hi.findFd_lt hslot)
  have hcells := hp.totalUsed hi.shape
  have hblank := hp.blankOthers
  show totalUsed (appendBlock crc w buffer).2.fs + blankOthers (appendBlock crc w buffer).2.fs =
    totalUsed w.fs + blankOthers w.fs + 1
  omega

theorem load_relocate (hi : Inv crc w.fs w.flash) (hc : Carries w.fs w.flash) :
    load (.on (w.relocate crc)) = load (.on w) + 1 := by
  rw [← load_append _ hi hc.hasSlot]
  exact load_of_curr rfl

theorem load_relocRead (ans : Answers) (r : Reloc) :
    load (.on (relocRead ans (w.setReloc r)).2) = load (.on w) := by
  apply load_of_curr
  unfold relocRead
  simp only
  split <;> rfl

theorem load_relocErase (hi : Inv crc w.fs w.flash) (ans : Answers) (r : Reloc)
    (hv : Victim { w.fs with reloc := r }) (hno : ∀ fd ∈ w.fs.fd, fd.sector ≠ r.sector) :
    load (.on (relocErase ans (w.setReloc r)).2) ≤ load (.on w) := by
  obtain ⟨hi', hv'⟩ := hi.waitErase r hv hno
  have hwait : load (.on ((w.setReloc r).setPt .waitErase)) = load (.on w) := load_of_curr rfl
  rw [relocErase_eq, ← hwait]
  split
  · have hcells := Spent.totalUsed_eraseVictim hi' hv'
    have hblank := blankOthers_erase hv'
    unfold load
    dsimp only
    omega
  · exact Nat.le_refl _

/-- A call that yields may have copied a block. -/
theorem Phase.load {r : PtCode × World} (h : Phase crc ans flag w r) (hi : Inv crc w.fs w.flash) :
    load (.on r.2) ≤ load (.on w) + if r.1 = .yielded then 1 else 0 := by
  have hsame {c : PtCode} {v : World} (h : Wormvars.load (.on v) ≤ Wormvars.load (.on w)) :
      Wormvars.load (.on v) ≤ Wormvars.load (.on w) + if c = .yielded then 1 else 0 :=
    h.trans (Nat.le_add_right _ _)
  cases h with
  | timer =>
    split
    · exact hsame (Nat.le_of_eq (load_of_curr rfl))
    · exact hsame (Nat.le_of_eq (load_of_curr rfl))
  | idle => exact hsame (Nat.le_of_eq (load_of_curr rfl))
  | found S m j fd => exact hsame (Nat.le_of_eq (load_relocRead ans _))
  | behind S m m' he hno hv =>
    exact hsame (load_relocErase hi ans { w.fs.reloc with sector := S, fdIndex := m' }
      ⟨hv.full, hv.notCurrent⟩ hno)
  | read => exact hsame (Nat.le_of_eq (load_relocRead ans w.fs.reloc))
  | erase hpt hno hv => exact hsame (load_relocErase hi ans w.fs.reloc hv hno)
  | passed => exact hsame (Nat.le_of_eq (load_of_curr rfl))
  | copied fd hpt hg ha hroom =>
    exact Nat.le_of_eq (load_relocate hi (hi.carries hpt hg ha))
  | retried => exact hsame (Nat.le_of_eq (load_of_curr rfl))
  | switched fd s hpt hg ha hfull hs =>
    -- two copies, and one sector less that is left over
    have hc := hi.carries hpt hg ha
    obtain ⟨hi₂, -, -, hc₂⟩ := relocate_inner hi hfull hs hc
    have h₀ := load_setSector hi hfull hs
    have h₁ := load_relocate (hi.setSector hfull hs).1 (hc.setSector hs)
    have h₂ := load_relocate hi₂ hc₂
    rw [if_pos rfl]
    dsimp only
    omega

theorem WritePhase.load {name : BitVec 16} {ext : BitVec 8} {data : List Byte} {r : Int × World}
    (h : WritePhase crc ans w name ext data r) (hi : Inv crc w.fs w.flash) :
    load (.on r.2) ≤ load (.on w) + if data.length ≤ 28 then 1 else 0 := by
  cases h with
  | tooLong => exact Nat.le_add_right_of_le (Nat.le_of_eq (load_of_curr rfl))
  | allFull => exact Nat.le_add_right_of_le (Nat.le_of_eq (load_of_curr rfl))
  | room hlen hroom hslot =>
    have hslot' : HasSlot w.fs (writeBuffer name ext data).header.key := hslot
    rw [if_pos hlen]
    exact Nat.le_of_eq (load_append _ hi hslot')
  | switched s c v hlen hfull hs hph hv hroom hslot =>
    have hslot' : HasSlot v.fs (writeBuffer name ext data).header.key := hslot
    have h₀ := load_setSector hi hfull hs
    have h₁ := hph.load (hi.setSector hfull hs).1
    have h₂ := load_append _ hv hslot'
    have hone : (if c = PtCode.yielded then 1 else 0) ≤ 1 := by
      split
      · exact Nat.le_refl 1
      · exact Nat.zero_le 1
    rw [if_pos hlen]
    dsimp only at h₁ ⊢
    omega

end calls

/-! ## One step -/

/-- A write of data that fits, a call of `fs_thread` that yields, a call that is cut. -/
def Label.draws : Label → Bool
  | .call (.write _ _ data _) _ => data.length ≤ 28
  | .call (.thread _) (.ran .yielded) => true
  | .cut _ => true
  | _ => false

/-- The steps that may take a cell. -/
def draws (h : List Label) : Nat := h.countP Label.draws

theorem draws_cons (l : Label) (h : List Label) : draws (l :: h) = draws [l] + draws h :=
  countP_cons_add _ _ _

theorem Inv.exec_load {w w' : World} {c : Call} {r : Result} (hi : Inv crc w.fs w.flash)
    (hslot : SlotFor w c) (he : c.exec crc (n + 2) w.fresh = some (r, w')) :
    load (.on w') ≤ load (.on w) + draws [.call c r] := by
  cases c with
  | read name ext len =>
    cases he
    exact Nat.le_add_right_of_le (Nat.le_of_eq (load_of_curr rfl))
  | thread ans =>
    obtain ⟨⟨c, v⟩, hv, hp⟩ := fsThread_phase (w := w.fresh) hi ans false n
    rw [exec_of_fsThread hv] at he
    cases he
    have hload := hp.load hi
    cases c with
    | waiting => exact hload
    | yielded => exact hload
    | ended => exact hload
  | write name ext data ans =>
    obtain ⟨v, hv, hp⟩ := fsWrite_phase (w := w.fresh) hi ans (n + 1) hslot
    rw [exec_of_fsWrite hv] at he
    cases he
    have hload := hp.load hi
    have hdraws : draws [.call (.write name ext data ans) (.wrote v.1)] =
        if data.length ≤ 28 then 1 else 0 := by
      unfold draws Label.draws
      rw [List.countP_singleton]
      simp
    rw [hdraws]
    exact hload

theorem Lasting.load {s t : Sys} {l : Label} (hst : Lasting crc (n + 2) s l t)
    (hs : Held crc s) : load t ≤ load s + draws [l] := by
  obtain ⟨hstep, hslot⟩ := hst
  obtain ⟨k, hk⟩ := hstep.performed
  cases hk with
  | call w c r w' he => exact Inv.exec_load hs hslot he
  | cut w c _ f hint =>
    have hcut := (cut_load hs hslot hint).2
    have hone : draws [Label.cut c] = 1 := rfl
    omega
  | boot => exact Nat.le_add_right_of_le hs.boot_load
  | bootCut _ _ f hint =>
    rw [issued_bootCut] at hint
    exact Nat.le_add_right_of_le (bootCut_load hs hint).2.2.2

/-! ## Runs -/

theorem exists_room {w : World} (hi : Inv crc w.fs w.flash) (h : load (.on w) < 1024) :
    ∃ s, ¬ w.fs.SectorIsFull s := by
  by_contra hno
  rw [not_exists] at hno
  have h1024 := totalUsed_of_full hi.shape fun s => not_not.1 (hno s)
  have hle : totalUsed w.fs ≤ load (.on w) := Nat.le_add_right _ _
  omega

/-- From any state, on or off, that is reached with power cuts and without want of descriptors: no
write fails as long as the writes, the calls of `fs_thread` that yield and the calls that are cut
are no more than the cells that are free, less one for each blank sector that is not the current
one. -/
theorem burst_writes_succeed {s t : Sys} (hr : Run (Lasting crc (n + 2)) (.off erased) h s)
    (hr' : Run (Lasting crc (n + 2)) s h' t) (hroom : load s + draws h' ≤ 1024)
    (name : BitVec 16) (ext : BitVec 8) (data : List Byte) (ans : Answers) (r : Int)
    (hm : .call (.write name ext data ans) (.wrote r) ∈ h') (hlen : data.length ≤ 28) : r = 0 := by
  have hheld : Held crc s := hr.invariant (I := fun _ s => Held crc s) ⟨_, recoverable_erased crc⟩
    fun _ _ _ _ hs hst => hst.held hs
  have hmain : Held crc t ∧ load t ≤ load s + draws h' ∧ (load s + draws h' ≤ 1024 →
      ∀ name ext data ans r, .call (.write name ext data ans) (.wrote r) ∈ h' →
        data.length ≤ 28 → r = 0) := by
    refine hr'.invariant (I := fun g u => Held crc u ∧ load u ≤ load s + draws g ∧
      (load s + draws g ≤ 1024 → ∀ name ext data ans r,
        .call (.write name ext data ans) (.wrote r) ∈ g → data.length ≤ 28 → r = 0))
      ⟨hheld, Nat.le_refl _, fun _ _ _ _ _ _ hm => by cases hm⟩ ?_
    rintro g u l v ⟨hu, hload, hw⟩ hst
    have hnext := hst.load hu
    have hdraws := draws_cons l g
    refine ⟨hst.held hu, by omega, fun hle name ext data ans r hm hlen => ?_⟩
    rcases List.mem_cons.1 hm with rfl | hm
    · obtain ⟨hstep, hslot⟩ := hst
      cases hstep with
      | call w _ _ w' he =>
        have hone : draws [.call (.write name ext data ans) (.wrote r)] = 1 :=
          List.countP_cons_of_pos (decide_eq_true hlen)
        have hi : Inv crc w.fs w.flash := hu
        obtain ⟨j, hj, hends⟩ := write_ends (w := w.fresh) hi hslot he
        cases hj
        exact hends.result hlen (exists_room (w := w) hi (by omega))
    · exact hw (by omega) name ext data ans r hm hlen
  exact hmain.2.2 hroom name ext data ans r hm hlen

/-- 100 writes after a relocation, a write that is cut, and a boot. -/
theorem burst_writes_succeed_tour : ∃ h u w x v f h' w', Tour h u w x v ∧
    Step (fun _ => 0) 2 (.on v) (.cut (sectorWrite 5)) (.off f) ∧
    Run (Step (fun _ => 0) 2) (.on (coldBoot (fun _ => 0) f)) h' (.on w') ∧ h'.length = 100 ∧
    ∀ l ∈ h', l = .call (sectorWrite 5) (.wrote 0) := by
  obtain ⟨h, u, w, x, v, ht⟩ := tour
  obtain ⟨f, hf⟩ := ht.cut
  obtain ⟨hv, hkv⟩ := ht.afterErase.fromOff
  have hboot := (hv.step hf).step (.boot (.off f))
  have hkb : SectorKeys (.boot :: .cut (sectorWrite 5) :: (relocationTo 5 ++ h ++ [.boot])) :=
    hkv.append (.write 5 (.wrote 0))
  obtain ⟨h', w', hr', hkeys', hlen, hall⟩ := hkb.again hboot (SectorKeys.write 5) 100
  have hlasting := (hkb.append hkeys').limits.lasting (hboot.trans hr')
  have hroom : load (.off erased) +
      draws (h' ++ .boot :: .cut (sectorWrite 5) :: (relocationTo 5 ++ h ++ [.boot])) ≤ 1024 := by
    have hdraws : ∀ g, draws g ≤ g.length := fun _ => List.countP_le_length
    have hclimb : h.length = 768 := ht.full.length
    refine (Nat.add_le_add_left (hdraws _) _).trans ?_
    simp only [List.length_append, List.length_cons, List.length_nil, relocationTo]
    rw [load_erased]
    omega
  refine ⟨h, u, w, x, v, f, h', w', ht, hf, hr', hlen, fun l hl => ?_⟩
  obtain ⟨r, a, b, he, rfl⟩ := hall l hl
  obtain ⟨i, rfl⟩ := exec_sectorWrite he
  rw [burst_writes_succeed .refl hlasting hroom _ _ _ _ i (List.mem_append_left _ hl) (by decide)]

end Wormvars
