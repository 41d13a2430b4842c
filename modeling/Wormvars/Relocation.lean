import Wormvars.Victim

/-!
# What keeps the invariant

The steps from which `fs_write` and `fs_thread` are made, and their effect on
the invariant: appending a block for a user (`Inv.append`), copying the picked
block to the current sector (`relocate_spec`), making a blank sector the current
one (`Inv.setSector`), erasing the victim (`Inv.erase`), and the search of
`fs_thread` for the next descriptor in the victim (`relocLoop_cases`).

`Keeps crc w w'`: the contents are the same in `w` and `w'`, and every operation
issued between them is `Good` for these contents.  `Moves crc n w w'`: `w` goes to
`w'` by such steps, `n` of which copy a block; they keep the invariant and the
contents (`Moves.spec`).
-/

namespace Wormvars

open NorFlash NewerLog

variable {crc : Block → BitVec 32}

/-! ## The suspended thread -/

theorem Indexed.congr {fs fs' : Fs} {f : Mem} (h : Indexed crc fs f) (hfd : fs'.fd = fs.fd) :
    Indexed crc fs' f := by
  obtain ⟨h₁, h₂, h₃, h₄, h₅, h₆, h₇⟩ := h
  unfold keys at h₂
  constructor
  all_goals first | rwa [hfd] | (unfold keys; rwa [hfd])

theorem contents_congr {fs fs' : Fs} {f : Mem} (hfd : fs'.fd = fs.fd) :
    contents fs' f = contents fs f := by
  unfold contents
  rw [hfd]

theorem Victim.placed {k : Key} {fs fs' : Fs} (h : Victim fs) (hp : Placed k fs fs') :
    Victim fs' where
  full := by
    have := h.full
    unfold Fs.SectorIsFull at this ⊢
    rw [hp.reloc, hp.address_ne h.notCurrent]
    exact this
  notCurrent := by
    rw [hp.reloc, hp.sector]
    exact h.notCurrent

theorem Moved.placed {k : Key} {fs fs' : Fs} {n : Nat} (h : Moved fs n) (hv : Victim fs)
    (hp : Placed k fs fs') : Moved fs' n := by
  intro j x hj hx
  rw [hp.reloc]
  rcases hp.get hx with hx | ⟨-, -, hsec, -⟩
  · exact h j x hj hx
  · rw [hsec]
    exact Ne.symm hv.notCurrent

/-- The descriptor that is being moved: where it was when it was picked, or out of the victim. -/
structure Tracked (fs : Fs) (fd : FileDescriptor) : Prop where
  get : fs.fd[fs.reloc.fdIndex]? = some fd
  key : fd.header.key = fs.reloc.fd.header.key
  stays : fd.address = fs.reloc.fd.address ∨ fd.sector ≠ fs.reloc.sector

theorem Picked.tracked {fs : Fs} {fd : FileDescriptor} (h : Picked fs fd) : Tracked fs fd :=
  ⟨h.get, h.key, h.stays⟩

theorem Tracked.placed {k : Key} {fs fs' : Fs} {fd : FileDescriptor} (h : Tracked fs fd)
    (hv : Victim fs) (hp : Placed k fs fs') : ∃ x, Tracked fs' x := by
  obtain ⟨x, hx, hk, hor⟩ := hp.get_of h.get
  refine ⟨x, ?_, ?_, ?_⟩
  · rw [hp.reloc]; exact hx
  · rw [hp.reloc, hk]; exact h.key
  · rw [hp.reloc]
    rcases hor with rfl | ⟨hsec, -⟩
    · exact h.stays
    · rw [hsec]
      exact Or.inr (Ne.symm hv.notCurrent)

/-- The picked descriptor has been placed in the current sector. -/
theorem Moved.relocated {fs fs' : Fs} (h : Moved fs fs.reloc.fdIndex) (hv : Victim fs)
    (hnd : (keys fs).Nodup) (hp : Placed fs.reloc.fd.header.key fs fs') {fd : FileDescriptor}
    (hg : fs.fd[fs.reloc.fdIndex]? = some fd) (hk : fd.header.key = fs.reloc.fd.header.key) :
    Moved fs' (fs.reloc.fdIndex + 1) := by
  intro j y hj hy
  rcases Nat.lt_succ_iff_lt_or_eq.1 hj with hj | rfl
  · exact h.placed hv hp j y hj hy
  · -- the slot of the key holds the new descriptor
    obtain ⟨x, hx, hxk, -⟩ := hp.get_of hg
    obtain rfl := Option.some.inj (hx.symm.trans hy)
    rw [hp.reloc]
    rcases hp.mem hnd (List.mem_of_getElem? hx) with ⟨-, hne⟩ | ⟨-, hsec, -⟩
    · exact absurd (hxk.trans hk) hne
    · rw [hsec]
      exact Ne.symm hv.notCurrent

/-- What the suspended thread relies on in the table and the sectors, wherever the descriptors
point. -/
def Underway (fs : Fs) : Prop :=
  match fs.pt with
  | .null | .waitTimer | .yieldStart => True
  | .waitRead | .yieldRead => Victim fs ∧ Moved fs fs.reloc.fdIndex ∧ ∃ fd, Tracked fs fd
  | .yieldRetry => Victim fs ∧ Moved fs fs.reloc.fdIndex ∧ (∃ fd, Tracked fs fd) ∧
      ∀ s, fs.SectorIsFull s
  | .yieldNext => Victim fs ∧ Moved fs (fs.reloc.fdIndex + 1)
  | .waitErase => Victim fs ∧ ∀ fd ∈ fs.fd, fd.sector ≠ fs.reloc.sector

/-- The picked block lies in the victim; while the copy is retried it is the block of its key. -/
def Aimed (fs : Fs) : Prop :=
  fs.pt = .waitRead ∨ fs.pt = .yieldRead ∨ fs.pt = .yieldRetry →
    InSector fs.reloc.sector fs.reloc.fd.address ∧ (fs.pt = .yieldRetry →
      ∀ fd, fs.fd[fs.reloc.fdIndex]? = some fd → fd.address = fs.reloc.fd.address)

theorem suspended_iff {fs : Fs} : Suspended fs ↔ Underway fs ∧ Aimed fs := by
  have hpicked : (∃ fd, Picked fs fd) ↔
      (∃ fd, Tracked fs fd) ∧ InSector fs.reloc.sector fs.reloc.fd.address := by
    constructor
    · rintro ⟨fd, h⟩
      exact ⟨⟨fd, h.tracked⟩, h.inVictim⟩
    · rintro ⟨⟨fd, h⟩, hin⟩
      exact ⟨fd, h.get, h.key, hin, h.stays⟩
  unfold Suspended Underway Aimed
  cases hpt : fs.pt with
  | null => simp
  | waitTimer => simp
  | yieldStart => simp
  | waitRead => simp [hpicked, and_assoc]
  | yieldRead => simp [hpicked, and_assoc]
  | yieldRetry =>
    simp only [reduceCtorEq, or_true, true_implies]
    constructor
    · rintro ⟨hv, hm, hall, fd, hpk, ha⟩
      refine ⟨⟨hv, hm, ⟨fd, hpk.tracked⟩, hall⟩, hpk.inVictim, fun x hx => ?_⟩
      rw [hpk.get] at hx
      obtain rfl := Option.some.inj hx
      exact ha
    · rintro ⟨⟨hv, hm, ⟨fd, ht⟩, hall⟩, hin, ha⟩
      exact ⟨hv, hm, hall, fd, ⟨ht.get, ht.key, hin, ht.stays⟩, ha fd ht.get⟩
  | yieldNext => simp
  | waitErase => simp

/-- An append to the current sector leaves the thread with what it relies on. -/
theorem Underway.placed {k : Key} {fs fs' : Fs} (h : Underway fs) (hp : Placed k fs fs') :
    Underway fs' := by
  unfold Underway at h ⊢
  rw [hp.pt]
  have hpicked : Victim fs → Moved fs fs.reloc.fdIndex → (∃ fd, Tracked fs fd) →
      Victim fs' ∧ Moved fs' fs'.reloc.fdIndex ∧ ∃ fd, Tracked fs' fd := by
    rintro hv hm ⟨fd, ht⟩
    exact ⟨hv.placed hp, by rw [hp.reloc]; exact hm.placed hv hp, ht.placed hv hp⟩
  cases hpt : fs.pt with
  | null => trivial
  | waitTimer => trivial
  | yieldStart => trivial
  | waitRead =>
    rw [hpt] at h
    exact hpicked h.1 h.2.1 h.2.2
  | yieldRead =>
    rw [hpt] at h
    exact hpicked h.1 h.2.1 h.2.2
  | yieldRetry =>
    rw [hpt] at h
    obtain ⟨hv, hm, ht, hall⟩ := h
    obtain ⟨hv', hm', ht'⟩ := hpicked hv hm ht
    refine ⟨hv', hm', ht', fun s => ?_⟩
    have := hall s
    unfold Fs.SectorIsFull at this ⊢
    by_cases hs : s = fs.curr.sector
    · subst hs
      rw [hp.address_self]
      omega
    · rw [hp.address_ne hs]
      exact this
  | yieldNext =>
    rw [hpt] at h
    exact ⟨h.1.placed hp, by rw [hp.reloc]; exact h.2.placed h.1 hp⟩
  | waitErase =>
    rw [hpt] at h
    obtain ⟨hv, hno⟩ := h
    refine ⟨hv.placed hp, fun x hx => ?_⟩
    obtain ⟨j, hj⟩ := List.mem_iff_getElem?.1 hx
    rw [hp.reloc]
    rcases hp.get hj with hj | ⟨-, -, hsec, -⟩
    · exact hno x (List.mem_of_getElem? hj)
    · rw [hsec]
      exact Ne.symm hv.notCurrent

/-- A sector with room becomes the current one. -/
theorem Underway.setSector {w : World} (h : Underway w.fs) {s : Fin 8}
    (hs : ¬ w.fs.SectorIsFull s) : Underway (w.setSector s).fs := by
  have hvictim : Victim w.fs → Victim (w.setSector s).fs :=
    fun hv => ⟨hv.full, fun (he : w.fs.reloc.sector = s) => hs (by rw [← he]; exact hv.full)⟩
  unfold Underway at h ⊢
  rw [show (w.setSector s).fs.pt = w.fs.pt from rfl]
  cases hpt : w.fs.pt with
  | null => trivial
  | waitTimer => trivial
  | yieldStart => trivial
  | waitRead =>
    rw [hpt] at h
    obtain ⟨hv, hm, fd, ht⟩ := h
    exact ⟨hvictim hv, hm, fd, ht.get, ht.key, ht.stays⟩
  | yieldRead =>
    rw [hpt] at h
    obtain ⟨hv, hm, fd, ht⟩ := h
    exact ⟨hvictim hv, hm, fd, ht.get, ht.key, ht.stays⟩
  | yieldRetry =>
    rw [hpt] at h
    exact absurd (h.2.2.2 s) hs
  | yieldNext =>
    rw [hpt] at h
    exact ⟨hvictim h.1, h.2⟩
  | waitErase =>
    rw [hpt] at h
    exact ⟨hvictim h.1, h.2⟩

/-- A write by somebody else leaves the thread with what it relies on. -/
theorem Suspended.placed {k : Key} {fs fs' : Fs} (h : Suspended fs)
    (hroom : ¬ fs.SectorIsFull fs.curr.sector) (hp : Placed k fs fs') : Suspended fs' := by
  obtain ⟨hu, ha⟩ := suspended_iff.1 h
  refine suspended_iff.2 ⟨hu.placed hp, fun hpt => ?_⟩
  rw [hp.pt] at hpt ⊢
  rw [hp.reloc]
  refine ⟨(ha hpt).1, fun hretry => absurd ?_ hroom⟩
  unfold Underway at hu
  rw [hretry] at hu
  exact hu.2.2.2 _

theorem not_full_iff {fs : Fs} {s : Fin 8} :
    ¬ fs.SectorIsFull s ↔ fs.curr.address s < sectorBase s + 4096 := by
  unfold Fs.SectorIsFull filesystemSectorSize
  omega

/-! ## Writing a key -/

/-- The bytes of a block of which `block_data` is given. -/
def pad (blockData : List Byte) : Payload := fun i => blockData.getD i 0

theorem writeBuffer_key (name : BitVec 16) (ext : BitVec 8) (data : List Byte) :
    (writeBuffer name ext data).header.key = (name, ext.setWidth 3) := rfl

theorem writeBuffer_data (name : BitVec 16) (ext : BitVec 8) (data : List Byte) :
    (writeBuffer name ext data).data = pad data := rfl

theorem pad_ofFn (d : Payload) : pad (List.ofFn d) = d := by
  funext i
  unfold pad
  rw [List.getD_eq_getElem _ _ (by simp), List.getElem_ofFn]

theorem Inv.findFd_lt {fs : Fs} {f : Mem} (hi : Inv crc fs f) {h : BlockHeader}
    (hslot : HasSlot fs h.key) : findFd fs.fd h < fdMax :=
  ((isSlot_findFd fs.fd h).lt hi.index.len).2 hslot

theorem Inv.appended {w : World} {buffer : Block} (hi : Inv crc w.fs w.flash)
    (hroom : ¬ w.fs.SectorIsFull w.fs.curr.sector) (hslot : HasSlot w.fs buffer.header.key) :
    Appended crc buffer.header.key buffer.data w (appendBlock crc w buffer).2 :=
  appendBlock_spec hi.shape hi.index (not_full_iff.1 hroom) hslot

theorem Inv.append {w : World} {buffer : Block} (hi : Inv crc w.fs w.flash)
    (hroom : ¬ w.fs.SectorIsFull w.fs.curr.sector) (hslot : HasSlot w.fs buffer.header.key) :
    Inv crc (appendBlock crc w buffer).2.fs (appendBlock crc w buffer).2.flash := by
  have ha := hi.appended hroom hslot
  obtain ⟨-, hp, -⟩ := appendBlock_placed crc w buffer (hi.findFd_lt hslot)
  refine ⟨ha.shape, ha.index, hi.thread.placed hroom hp, ?_⟩
  intro hpt x hx hadr
  rw [hp.pt] at hpt
  rw [hp.reloc] at hx hadr ⊢
  -- a replaced descriptor lies in the current sector, the picked block does not
  have hin : InSector w.fs.reloc.sector w.fs.reloc.fd.address ∧
      w.fs.reloc.sector ≠ w.fs.curr.sector := by
    have ht := hi.thread
    unfold Suspended at ht
    rcases hpt with hpt | hpt
    · rw [hpt] at ht
      obtain ⟨hv, -, fd, hpk⟩ := ht
      exact ⟨hpk.inVictim, hv.notCurrent⟩
    · rw [hpt] at ht
      exact absurd (ht.2.2.1 _) hroom
  have hnext := hi.shape.next_inSector (not_full_iff.1 hroom)
  rcases hp.mem hi.index.nodup (List.mem_of_getElem? hx) with ⟨hm, hk⟩ | ⟨-, -, ha'⟩
  · rcases hp.get hx with hx | ⟨-, hk', -, -⟩
    · rw [ha.same x hm hk]
      exact hi.buffered hpt x hx hadr
    · exact absurd hk' hk
  · rw [← hadr, ha'] at hin
    exact absurd (hin.1.unique hnext) hin.2

/-! ## Keeping the contents -/

structure Keeps (crc : Block → BitVec 32) (w w' : World) : Prop where
  contents : contents w'.fs w'.flash = contents w.fs w.flash
  keys : keys w'.fs = keys w.fs
  logged : Logged (Good crc fun M => M = Wormvars.contents w.fs w.flash) w w'

theorem Keeps.refl (w : World) : Keeps crc w w := ⟨rfl, rfl, Logged.refl _ w⟩

theorem Keeps.trans {u v w : World} (h : Keeps crc u v) (h' : Keeps crc v w) : Keeps crc u w where
  contents := h'.contents.trans h.contents
  keys := h'.keys.trans h.keys
  logged := by
    have hl := h'.logged
    rw [h.contents] at hl
    exact h.logged.trans hl

/-- Nothing but the thread's own state or the choice of the current sector changes. -/
theorem Keeps.of_fd {w w' : World} (hfd : w'.fs.fd = w.fs.fd) (hf : w'.flash = w.flash)
    (hl : w'.log = w.log) : Keeps crc w w' where
  contents := by rw [hf]; exact contents_congr hfd
  keys := by unfold Wormvars.keys; rw [hfd]
  logged := Logged.of_log hl

/-- The thread goes to another label. -/
theorem Inv.resume {w : World} (hi : Inv crc w.fs w.flash) (reloc : Reloc) (pt : PtLabel)
    (hs : Suspended { w.fs with reloc := reloc, pt := pt })
    (hb : Buffered { w.fs with reloc := reloc, pt := pt } w.flash) :
    Inv crc ((w.setReloc reloc).setPt pt).fs w.flash ∧
      Keeps crc w ((w.setReloc reloc).setPt pt) :=
  ⟨⟨hi.shape, hi.index.congr rfl, hs, hb⟩, Keeps.of_fd rfl rfl rfl⟩

/-- A blank sector becomes the current one when the current one is full. -/
theorem Inv.setSector {w : World} (hi : Inv crc w.fs w.flash) {s : Fin 8}
    (hfull : w.fs.SectorIsFull w.fs.curr.sector) (hs : ¬ w.fs.SectorIsFull s) :
    Inv crc (w.setSector s).fs w.flash ∧ Keeps crc w (w.setSector s) := by
  refine ⟨⟨?_, hi.index.congr rfl, ?_, hi.buffered⟩, Keeps.of_fd rfl rfl rfl⟩
  · obtain ⟨h₁, h₂, h₃, h₄, h₅, h₆⟩ := hi.shape
    refine ⟨h₁, h₂, h₃, h₄, h₅, fun t _ => ?_⟩
    by_cases ht : t = w.fs.curr.sector
    · subst ht
      right
      have := h₂ w.fs.curr.sector
      unfold Fs.SectorIsFull filesystemSectorSize at hfull
      exact Nat.le_antisymm this hfull
    · exact h₆ t ht
  · obtain ⟨hu, ha⟩ := suspended_iff.1 hi.thread
    exact suspended_iff.2 ⟨hu.setSector hs, ha⟩

/-! ## Erasing the victim -/

/-- What `fs_thread` does after the last wait. -/
def World.eraseVictim (w : World) : World :=
  ((w.flashErase (sectorBase w.fs.reloc.sector)).setAddress w.fs.reloc.sector
    (sectorBase w.fs.reloc.sector)).setPt .null

theorem relocErase_eq (ans : Answers) (w : World) :
    relocErase ans w = if ans.flashReady then (.ended, (w.setPt .waitErase).eraseVictim)
      else (.waiting, w.setPt .waitErase) := rfl

theorem Inv.erase {w : World} (hi : Inv crc w.fs w.flash) (hv : Victim w.fs)
    (hno : ∀ fd ∈ w.fs.fd, fd.sector ≠ w.fs.reloc.sector) :
    Inv crc w.eraseVictim.fs w.eraseVictim.flash ∧ Keeps crc w w.eraseVictim := by
  have hx := hi.index
  have hout : ∀ fd ∈ w.fs.fd, ¬ InSector w.fs.reloc.sector fd.address :=
    fun fd hm hin => hno fd hm ((hx.sector fd hm).unique hin)
  have hnone : ∀ a, InSector w.fs.reloc.sector a → copies crc w.flash a = none := by
    intro a ha
    cases hc : copies crc w.flash a with
    | none => rfl
    | some c =>
      obtain ⟨fd, hm, rfl⟩ := hx.complete a c hc
      exact absurd ha (hout fd hm)
  have hcop := copies_erase hnone
  have hread : ∀ fd ∈ w.fs.fd, flashRead w.eraseVictim.flash fd.address =
      flashRead w.flash fd.address := by
    intro fd hm
    have h₁ := hx.cell fd hm
    have h₂ := hout fd hm
    have h₃ := sectorBase_mod w.fs.reloc.sector
    unfold InSector at h₂
    unfold IsCell at h₁
    apply flashRead_congr
    intro x _ _
    exact erase_outside _ _ _ _ (by unfold filesystemSectorSize; omega)
  have hshape : Shape w.eraseVictim.fs.curr w.eraseVictim.flash :=
    hi.shape.erase w.fs.reloc.sector
  have hindex : Indexed crc w.eraseVictim.fs w.eraseVictim.flash := by
    refine ⟨hx.len, hx.nodup, hx.cell, hx.sector, ?_, ?_, ?_⟩
    · intro fd hm
      rw [hread fd hm]
      exact hx.header fd hm
    · intro fd hm
      rw [hread fd hm]
      exact hx.accepted fd hm
    · intro a c hc
      have hc' : copies crc (NorFlash.erase w.flash (sectorBase w.fs.reloc.sector) 4096) a = some c := hc
      rw [hcop] at hc'
      exact hx.complete a c hc'
  have hrep : Represents (copies crc w.eraseVictim.flash) (contents w.fs w.flash) := by
    show Represents (copies crc (NorFlash.erase w.flash (sectorBase w.fs.reloc.sector) 4096)) _
    rw [hcop]
    exact hx.represents
  refine ⟨⟨hshape, hindex, trivial, fun h => ?_⟩, hindex.represents.unique hrep, rfl,
    Logged.cons rfl ?_⟩
  · rcases h with h | h <;> cases h
  · constructor
    · intro f hc
      cases hc with
      | before => exact ⟨_, rfl, hi.recoverable⟩
      | after => exact ⟨_, rfl, ⟨_, hshape⟩, hrep, hx.fits⟩
      | torn a bs k hop => cases hop
    · intro a bs hop
      cases hop
    · intro a hop
      cases hop
      refine ⟨_, rfl, rfl, hv.notCurrent, fun fd hm => ⟨hno fd hm, hout fd hm⟩, ?_⟩
      intro c hc hin hacc
      have := hnone c hin
      rw [copies_eq_some hc hacc] at this
      cases this

/-! ## Copying the picked block -/

/-- The block that `fs_thread` hands to `fs_write`. -/
def relocBlock (reloc : Reloc) : Block :=
  writeBuffer reloc.fd.header.name (reloc.fd.header.ext.setWidth 8) (List.ofFn reloc.buffer.data)

/-- The picked block is appended to the current sector. -/
def World.relocate (crc : Block → BitVec 32) (w : World) : World :=
  (appendBlock crc w (relocBlock w.fs.reloc)).2.setPt .yieldNext

theorem relocBlock_key (reloc : Reloc) : (relocBlock reloc).header.key = reloc.fd.header.key := by
  unfold relocBlock
  rw [writeBuffer_key]
  unfold BlockHeader.key
  rw [BitVec.setWidth_setWidth_of_le _ (by omega), BitVec.setWidth_eq]

theorem relocBlock_data (reloc : Reloc) : (relocBlock reloc).data = reloc.buffer.data := by
  unfold relocBlock
  rw [writeBuffer_data, pad_ofFn]

/-- The buffer holds the value of the key whose descriptor is being moved. -/
structure Carries (fs : Fs) (f : Mem) : Prop where
  victim : Victim fs
  moved : Moved fs fs.reloc.fdIndex
  slot : ∃ fd, fs.fd[fs.reloc.fdIndex]? = some fd ∧ fd.header.key = fs.reloc.fd.header.key
  value : contents fs f fs.reloc.fd.header.key = some fs.reloc.buffer.data

theorem Carries.hasSlot {fs : Fs} {f : Mem} (h : Carries fs f) :
    HasSlot fs (relocBlock fs.reloc).header.key := by
  obtain ⟨fd, hg, hk⟩ := h.slot
  rw [relocBlock_key]
  exact Or.inl (List.mem_map.2 ⟨fd, List.mem_of_getElem? hg, hk⟩)

theorem relocate_placed {w : World} (hi : Inv crc w.fs w.flash) (hc : Carries w.fs w.flash) :
    Placed w.fs.reloc.fd.header.key w.fs (appendBlock crc w (relocBlock w.fs.reloc)).2.fs := by
  obtain ⟨-, hp, -⟩ := appendBlock_placed crc w _ (hi.findFd_lt hc.hasSlot)
  rw [relocBlock_key] at hp
  exact hp

theorem relocate_spec {w : World} (hi : Inv crc w.fs w.flash)
    (hroom : ¬ w.fs.SectorIsFull w.fs.curr.sector) (hc : Carries w.fs w.flash) :
    Inv crc (w.relocate crc).fs (w.relocate crc).flash ∧ Keeps crc w (w.relocate crc) ∧
      Carries (w.relocate crc).fs (w.relocate crc).flash := by
  have ha := hi.appended hroom hc.hasSlot
  rw [relocBlock_key, relocBlock_data] at ha
  have hp := relocate_placed hi hc
  have hcont := ha.contents
  rw [Function.update_eq_self_iff.2 hc.value.symm] at hcont
  obtain ⟨fd, hg, hk⟩ := hc.slot
  have hkeys := hp.keys
  have hin : w.fs.reloc.fd.header.key ∈ keys w.fs :=
    List.mem_map.2 ⟨fd, List.mem_of_getElem? hg, hk⟩
  rw [if_pos hin] at hkeys
  obtain ⟨x, hx, hxk, -⟩ := hp.get_of hg
  have hvictim := hc.victim.placed hp
  have hmoved := hc.moved.relocated hc.victim hi.index.nodup hp hg hk
  have hlog := ha.logged
  rw [Function.update_eq_self_iff.2 hc.value.symm] at hlog
  have hidx : (w.relocate crc).fs.reloc.fdIndex = w.fs.reloc.fdIndex := congrArg _ hp.reloc
  have hv : Victim (w.relocate crc).fs := ⟨hvictim.full, hvictim.notCurrent⟩
  refine ⟨⟨ha.shape, ha.index.congr rfl, ⟨hv, ?_⟩, fun h => ?_⟩,
    ⟨hcont, hkeys, hlog.mono fun e he => he.mono fun M hM => hM.elim id id⟩, ⟨hv, ?_, ?_, ?_⟩⟩
  · rw [hidx]
    exact hmoved
  · rcases h with h | h <;> cases h
  · rw [hidx]
    exact fun j y hj hy => hmoved j y (Nat.lt_succ_of_lt hj) hy
  · refine ⟨x, ?_, ?_⟩
    · show (appendBlock crc w (relocBlock w.fs.reloc)).2.fs.fd[
        (appendBlock crc w (relocBlock w.fs.reloc)).2.fs.reloc.fdIndex]? = _
      rw [hp.reloc]
      exact hx
    · show _ = (appendBlock crc w (relocBlock w.fs.reloc)).2.fs.reloc.fd.header.key
      rw [hp.reloc, hxk, hk]
  · show contents (appendBlock crc w (relocBlock w.fs.reloc)).2.fs _
      (appendBlock crc w (relocBlock w.fs.reloc)).2.fs.reloc.fd.header.key =
      some (appendBlock crc w (relocBlock w.fs.reloc)).2.fs.reloc.buffer.data
    rw [hp.reloc, ← hc.value]
    exact congrFun hcont _

/-- The picked descriptor is still where it was when its block was read. -/
theorem Inv.carries {fs : Fs} {f : Mem} (hi : Inv crc fs f) (hpt : fs.pt = .yieldRead)
    {fd : FileDescriptor} (hg : fs.fd[fs.reloc.fdIndex]? = some fd)
    (ha : fd.address = fs.reloc.fd.address) : Carries fs f := by
  have ht := hi.thread
  unfold Suspended at ht
  rw [hpt] at ht
  obtain ⟨hv, hm, fd', hpk⟩ := ht
  have hget := hpk.get
  rw [hg] at hget
  obtain rfl := Option.some.inj hget
  refine ⟨hv, hm, ⟨fd, hg, hpk.key⟩, ?_⟩
  rw [contents_eq_some_iff hi.index.nodup]
  exact ⟨fd, List.mem_of_getElem? hg, hpk.key, (hi.buffered (Or.inl hpt) fd hg ha).symm⟩

theorem Carries.setSector {w : World} (hc : Carries w.fs w.flash) {s : Fin 8}
    (hs : ¬ w.fs.SectorIsFull s) : Carries (w.setSector s).fs (w.setSector s).flash :=
  ⟨⟨hc.victim.full, fun (he : w.fs.reloc.sector = s) => hs (by rw [← he]; exact hc.victim.full)⟩,
    hc.moved, hc.slot, hc.value⟩

/-! ## Moves -/

/-- A victim has been chosen and not yet been erased. -/
def Relocating (fs : Fs) : Prop := fs.pt ≠ .null ∧ fs.pt ≠ .waitTimer ∧ fs.pt ≠ .yieldStart

/-- While a relocation is suspended its victim is full and not the current sector. -/
theorem Inv.victim {fs : Fs} {f : Mem} (hi : Inv crc fs f) (hr : Relocating fs) : Victim fs := by
  have ht := hi.thread
  unfold Suspended at ht
  cases hpt : fs.pt with
  | null => exact absurd hpt hr.1
  | waitTimer => exact absurd hpt hr.2.1
  | yieldStart => exact absurd hpt hr.2.2
  | waitRead => rw [hpt] at ht; exact ht.1
  | yieldRead => rw [hpt] at ht; exact ht.1
  | yieldRetry => rw [hpt] at ht; exact ht.1
  | yieldNext => rw [hpt] at ht; exact ht.1
  | waitErase => rw [hpt] at ht; exact ht.1

/-- What `fs_thread` and the choice of a sector do to the world, with the number of blocks
copied. -/
inductive Move (crc : Block → BitVec 32) : Nat → World → World → Prop
  | resume (w : World) (reloc : Reloc) (pt : PtLabel) :
      Suspended { w.fs with reloc := reloc, pt := pt } →
      Buffered { w.fs with reloc := reloc, pt := pt } w.flash →
      (Relocating w.fs → Relocating { w.fs with reloc := reloc, pt := pt } ∧
        reloc.sector = w.fs.reloc.sector) →
      Move crc 0 w ((w.setReloc reloc).setPt pt)
  | relocate (w : World) : ¬ w.fs.SectorIsFull w.fs.curr.sector → Carries w.fs w.flash →
      Move crc 1 w (w.relocate crc)
  | erase (w : World) : Victim w.fs → (∀ fd ∈ w.fs.fd, fd.sector ≠ w.fs.reloc.sector) →
      Move crc 0 w w.eraseVictim
  | retry (w : World) (fd : FileDescriptor) : (∀ s, w.fs.SectorIsFull s) →
      w.fs.pt = .yieldRead ∨ w.fs.pt = .yieldRetry → Victim w.fs →
      Moved w.fs w.fs.reloc.fdIndex → Picked w.fs fd → fd.address = w.fs.reloc.fd.address →
      Move crc 0 w ((w.returns (-2)).2.setPt .yieldRetry)
  | switch (w : World) (s : Fin 8) : w.fs.SectorIsFull w.fs.curr.sector →
      ¬ w.fs.SectorIsFull s → Move crc 0 w (w.setSector s)

inductive Moves (crc : Block → BitVec 32) : Nat → World → World → Prop
  | refl (w : World) : Moves crc 0 w w
  | tail {m n : Nat} {u v w : World} : Moves crc m u v → Move crc n v w → Moves crc (m + n) u w

theorem Move.spec {n : Nat} {w w' : World} (h : Move crc n w w') (hi : Inv crc w.fs w.flash) :
    Inv crc w'.fs w'.flash ∧ Keeps crc w w' := by
  cases h with
  | resume _ reloc pt hs hb _ => exact hi.resume reloc pt hs hb
  | relocate _ hroom hc =>
    obtain ⟨h₁, h₂, -⟩ := relocate_spec hi hroom hc
    exact ⟨h₁, h₂⟩
  | erase _ hv hno => exact hi.erase hv hno
  | retry _ fd hfull hpt hv hm hpk ha =>
    refine ⟨⟨hi.shape, hi.index.congr rfl, ⟨⟨hv.full, hv.notCurrent⟩, hm, hfull, fd, ?_, ha⟩, ?_⟩,
      ⟨rfl, rfl, Logged.cons rfl (Good.returns rfl rfl hi.recoverable)⟩⟩
    · exact ⟨hpk.get, hpk.key, hpk.inVictim, hpk.stays⟩
    · exact fun _ x hx hxa => hi.buffered hpt x hx hxa
  | switch _ s hfull hs => exact hi.setSector hfull hs

theorem Moves.spec {n : Nat} {w w' : World} (h : Moves crc n w w') (hi : Inv crc w.fs w.flash) :
    Inv crc w'.fs w'.flash ∧ Keeps crc w w' := by
  induction h with
  | refl => exact ⟨hi, Keeps.refl _⟩
  | tail _ hm ih =>
    obtain ⟨hv, hk⟩ := ih hi
    obtain ⟨hw, hk'⟩ := hm.spec hv
    exact ⟨hw, hk.trans hk'⟩

theorem Move.moves {n : Nat} {w w' : World} (h : Move crc n w w') : Moves crc n w w' := by
  have := Moves.tail (.refl w) h
  rwa [Nat.zero_add] at this

theorem Moves.trans {m n : Nat} {u v w : World} (h : Moves crc m u v) (h' : Moves crc n v w) :
    Moves crc (m + n) u w := by
  induction h' with
  | refl => exact h
  | tail _ hm ih =>
    rw [← Nat.add_assoc]
    exact (ih h).tail hm

/-! ## The search for the next descriptor -/

/-- The loop stops at the first descriptor in the victim from slot `n` on, or erases the
victim. -/
theorem relocLoop_cases (ans : Answers) (w : World) (n : Nat) :
    (∃ j fd, n ≤ j ∧ w.fs.fd[j]? = some fd ∧ fd.sector = w.fs.reloc.sector ∧
      (∀ i x, n ≤ i → i < j → w.fs.fd[i]? = some x → x.sector ≠ w.fs.reloc.sector) ∧
      relocLoop ans (w.fs.fd.drop n) (w.setReloc { w.fs.reloc with fdIndex := n }) =
        relocRead ans (w.setReloc { w.fs.reloc with fd := fd, fdIndex := j })) ∨
    (∃ m, (∀ i x, n ≤ i → w.fs.fd[i]? = some x → x.sector ≠ w.fs.reloc.sector) ∧
      relocLoop ans (w.fs.fd.drop n) (w.setReloc { w.fs.reloc with fdIndex := n }) =
        relocErase ans (w.setReloc { w.fs.reloc with fdIndex := m })) := by
  generalize hl : w.fs.fd.drop n = l
  induction l generalizing n with
  | nil =>
    right
    refine ⟨n, fun i x hi hx => ?_, rfl⟩
    have := List.drop_eq_nil_iff.1 hl
    rw [List.getElem?_eq_none (by omega)] at hx
    cases hx
  | cons fd l ih =>
    have hn : w.fs.fd[n]? = some fd := by
      have h := congrArg (fun l => l[0]?) hl
      simpa using h
    have htail : w.fs.fd.drop (n + 1) = l := by
      rw [← List.tail_drop, hl]
      rfl
    by_cases hs : fd.sector = w.fs.reloc.sector
    · left
      refine ⟨n, fd, Nat.le_refl n, hn, hs, fun i x h₁ h₂ => by omega, ?_⟩
      rw [relocLoop]
      exact if_pos hs
    · have hstep : relocLoop ans (fd :: l) (w.setReloc { w.fs.reloc with fdIndex := n }) =
          relocLoop ans l (w.setReloc { w.fs.reloc with fdIndex := n + 1 }) := by
        rw [relocLoop]
        exact if_neg hs
      have hext : ∀ i x, n ≤ i → w.fs.fd[i]? = some x → i = n → x.sector ≠ w.fs.reloc.sector := by
        rintro i x - hx rfl
        rw [hn] at hx
        obtain rfl := Option.some.inj hx
        exact hs
      rw [hstep]
      rcases ih (n + 1) htail with ⟨j, fd', hj, hg, hsec, hbef, he⟩ | ⟨m, hall, he⟩
      · left
        refine ⟨j, fd', by omega, hg, hsec, fun i x h₁ h₂ hx => ?_, he⟩
        by_cases hin : i = n
        · exact hext i x h₁ hx hin
        · exact hbef i x (by omega) h₂ hx
      · right
        refine ⟨m, fun i x h₁ hx => ?_, he⟩
        by_cases hin : i = n
        · exact hext i x h₁ hx hin
        · exact hall i x (by omega) hx

end Wormvars
