import Wormvars.Blocks
import Wormvars.Phases

/-!
# Writes, erases and cells

Three accounts of a world, over what its log holds and what its state shows:
`cellBalance` compares the blocks programmed with the cells in use and those given
back by erases, `writeBalance` the calls of `flash_write` with the blocks and the
descriptors, `budget` the blocks with what relocation may still copy.

`Spent u w w'` says what a piece of a call does to them.  The first two balances stay,
the second as long as no descriptor has its flag set (`Settled`), which is so until
power fails; the budget grows by the `u` blocks that users write
(`Phase.spent`, `WritePhase.spent`).  An erase earns 51 copies: the 50 that its
successor may take and one that is made twice when the blank sector is taken.
-/

namespace Wormvars

open NorFlash

variable {crc : Block → BitVec 32} {w v w' : World}

/-! ## Counting -/

def Op.isProgram : Op → Bool
  | .program _ _ => true
  | _ => false

def Op.isErase : Op → Bool
  | .erase _ => true
  | _ => false

/-- The calls of `flash_write`. -/
def programs (log : List Event) : Nat := log.countP fun e => e.op.isProgram

/-- The calls of `flash_erase`. -/
def erases (log : List Event) : Nat := log.countP fun e => e.op.isErase

/-- The calls of `flash_write` with a whole block. -/
def blockWrites (log : List Event) : Nat := log.countP fun e => e.op.isBlock

theorem blockWrites_eq (log : List Event) : blockWrites log = (blocks log).length :=
  List.countP_eq_length_filter

section cons
variable {log : List Event} {fs : Fs} {f : Mem} {a : Nat} {bs : List Byte} {r : Int}

@[simp] theorem programs_program :
    programs (⟨fs, f, .program a bs⟩ :: log) = programs log + 1 := List.countP_cons_of_pos rfl

@[simp] theorem programs_erase : programs (⟨fs, f, .erase a⟩ :: log) = programs log :=
  List.countP_cons_of_neg (by simp [Op.isProgram])

@[simp] theorem programs_returns : programs (⟨fs, f, .returns r⟩ :: log) = programs log :=
  List.countP_cons_of_neg (by simp [Op.isProgram])

@[simp] theorem erases_program : erases (⟨fs, f, .program a bs⟩ :: log) = erases log :=
  List.countP_cons_of_neg (by simp [Op.isErase])

@[simp] theorem erases_erase : erases (⟨fs, f, .erase a⟩ :: log) = erases log + 1 :=
  List.countP_cons_of_pos rfl

@[simp] theorem erases_returns : erases (⟨fs, f, .returns r⟩ :: log) = erases log :=
  List.countP_cons_of_neg (by simp [Op.isErase])

@[simp] theorem blockWrites_erase : blockWrites (⟨fs, f, .erase a⟩ :: log) = blockWrites log :=
  List.countP_cons_of_neg (by simp [Op.isBlock])

@[simp] theorem blockWrites_returns :
    blockWrites (⟨fs, f, .returns r⟩ :: log) = blockWrites log :=
  List.countP_cons_of_neg (by simp [Op.isBlock])

end cons

/-! ## One write -/

/-- No descriptor has its flag set. -/
def Settled (fs : Fs) : Prop := ∀ fd ∈ fs.fd, fd.header.newer = fsBlockCurrent

theorem Settled.congr {fs fs' : Fs} (h : Settled fs) (hfd : fs'.fd = fs.fd) : Settled fs' := by
  unfold Settled
  rw [hfd]
  exact h

theorem Settled.placed {k : Key} {fs fs' : Fs} (h : Settled fs) (hp : Placed k fs fs')
    (hnd : (keys fs).Nodup) : Settled fs' := by
  intro fd hm
  obtain ⟨i, new, hs, hfd, rfl, -, -, hnew⟩ := hp.fd
  rw [hfd, mem_putFd hnd hs] at hm
  rcases hm with rfl | ⟨hm, -⟩
  · exact hnew
  · exact h fd hm

theorem Settled.clearNewer (h : Settled w.fs) (i : Nat) : clearNewer w i = w := by
  unfold Wormvars.clearNewer
  split
  · next fd hg =>
    rw [if_neg]
    rw [h fd (List.mem_of_getElem? hg)]
    decide
  · rfl

theorem invalidatePrevious_programs (w : World) (i : Nat) :
    programs (invalidatePrevious w i).log =
      programs w.log + if i < w.fs.fd.length then 1 else 0 := by
  unfold invalidatePrevious
  split
  · next fd hg =>
    rw [if_pos (List.getElem?_eq_some_iff.1 hg).1]
    exact programs_program
  · next hg =>
    rw [if_neg (Nat.not_lt.2 (List.getElem?_eq_none_iff.1 hg))]
    rfl

theorem clearNewer_erases (w : World) (i : Nat) : erases (clearNewer w i).log = erases w.log := by
  unfold clearNewer
  split
  · split
    · exact erases_program
    · rfl
  · rfl

theorem invalidatePrevious_erases (w : World) (i : Nat) :
    erases (invalidatePrevious w i).log = erases w.log := by
  unfold invalidatePrevious
  split
  · exact erases_program
  · rfl

theorem stageBlock_erases (crc : Block → BitVec 32) (w : World) (buffer : Block) :
    erases (stageBlock crc w buffer).log = erases w.log := by
  unfold stageBlock
  simp only [invalidatePrevious_erases]
  exact erases_program.trans (clearNewer_erases w _)

/-- The block, and the mark on the previous one. -/
theorem Settled.stageBlock_programs (h : Settled w.fs) (buffer : Block) :
    programs (stageBlock crc w buffer).log =
      programs w.log + 1 + if findFd w.fs.fd buffer.header < w.fs.fd.length then 1 else 0 := by
  unfold stageBlock
  simp only [h.clearNewer, invalidatePrevious_programs]
  exact congrArg (· + _) programs_program

section append
variable {buffer : Block} (hi : findFd w.fs.fd buffer.header < fdMax)
include hi

theorem appendBlock_erases (crc : Block → BitVec 32) :
    erases (appendBlock crc w buffer).2.log = erases w.log := by
  obtain ⟨e, r, -, hop, -, hret, he⟩ := appendBlock_eq crc w buffer hi
  obtain ⟨fs, f, op⟩ := e
  obtain ⟨fs', f', op'⟩ := r
  obtain rfl : op = _ := hop
  obtain rfl : op' = _ := hret
  rw [he]
  show erases (_ :: _ :: (stageBlock crc w buffer).log) = _
  rw [erases_returns, erases_program, stageBlock_erases]

/-- Three writes for a key that has a block, two for a new one. -/
theorem Settled.appendBlock_programs (h : Settled w.fs) (crc : Block → BitVec 32) :
    programs (appendBlock crc w buffer).2.log =
      programs w.log + 2 + if findFd w.fs.fd buffer.header < w.fs.fd.length then 1 else 0 := by
  obtain ⟨e, r, -, hop, -, hret, he⟩ := appendBlock_eq crc w buffer hi
  obtain ⟨fs, f, op⟩ := e
  obtain ⟨fs', f', op'⟩ := r
  obtain rfl : op = _ := hop
  obtain rfl : op' = _ := hret
  rw [he]
  show programs (_ :: _ :: (stageBlock crc w buffer).log) = _
  rw [programs_returns, programs_program, h.stageBlock_programs]
  omega

omit hi in
theorem appendBlock_blockWrites (crc : Block → BitVec 32) (w : World) (buffer : Block) :
    blockWrites (appendBlock crc w buffer).2.log = blockWrites w.log + 1 := by
  obtain ⟨e, -, -, hb⟩ := appendBlock_blocks crc w buffer
  rw [blockWrites_eq, blockWrites_eq, hb, List.length_cons]

end append

/-- A key is new iff no descriptor has it. -/
theorem findFd_lt_iff (l : List FileDescriptor) (h : BlockHeader) :
    findFd l h < l.length ↔ h.key ∈ l.map fun fd => fd.header.key := by
  rcases isSlot_findFd l h with ⟨fd, hg, hk⟩ | ⟨he, hno⟩
  · exact iff_of_true (List.getElem?_eq_some_iff.1 hg).1
      (List.mem_map.2 ⟨fd, List.mem_of_getElem? hg, hk⟩)
  · rw [he]
    refine iff_of_false (Nat.lt_irrefl _) fun hm => ?_
    obtain ⟨fd, hm, hk⟩ := List.mem_map.1 hm
    exact hno fd hm hk

theorem Placed.keys_length {k : Key} {fs fs' : Fs} (hp : Placed k fs fs') :
    (Wormvars.keys fs').length =
      (Wormvars.keys fs).length + if k ∈ Wormvars.keys fs then 0 else 1 := by
  rw [hp.keys]
  split
  · rfl
  · rw [List.length_append, List.length_singleton]

/-! ## The accounts -/

def cellBalance (w : World) : Int :=
  blockWrites w.log - totalUsed w.fs - 128 * erases w.log

def writeBalance (w : World) : Int :=
  programs w.log + (keys w.fs).length - 3 * blockWrites w.log

def budget (w : World) : Int :=
  blockWrites w.log + unreached w.fs + blankOthers w.fs - 51 * erases w.log

structure Spent (u : Int) (w w' : World) : Prop where
  cells : cellBalance w' = cellBalance w
  writes : Settled w.fs → writeBalance w' = writeBalance w
  settled : Settled w.fs → Settled w'.fs
  budget : budget w' ≤ budget w + u
  reach : unreached w'.fs ≤ max (unreached w.fs) 50

namespace Spent

theorem trans {a b : Int} (h : Spent a w v) (h' : Spent b v w') : Spent (a + b) w w' where
  cells := h'.cells.trans h.cells
  writes hs := (h'.writes (h.settled hs)).trans (h.writes hs)
  settled hs := h'.settled (h.settled hs)
  budget := by
    have h₁ := h.budget
    have h₂ := h'.budget
    omega
  reach := by
    have h₁ := h.reach
    have h₂ := h'.reach
    omega

theorem mono {a b : Int} (h : Spent a w w') (hab : a ≤ b) : Spent b w w' :=
  ⟨h.cells, h.writes, h.settled, h.budget.trans (by omega), h.reach⟩

/-- The thread goes to another label, the sectors and the table stay. -/
theorem resume (w : World) (reloc : Reloc) (pt : PtLabel)
    (h : unreached ((w.setReloc reloc).setPt pt).fs ≤ unreached w.fs) :
    Spent (unreached ((w.setReloc reloc).setPt pt).fs - unreached w.fs) w
      ((w.setReloc reloc).setPt pt) where
  cells := rfl
  writes _ := rfl
  settled hs := hs.congr rfl
  budget := by
    have hb : blankOthers ((w.setReloc reloc).setPt pt).fs = blankOthers w.fs :=
      blankOthers_of_curr rfl
    have hl : ((w.setReloc reloc).setPt pt).log = w.log := rfl
    unfold Wormvars.budget
    rw [hb, hl]
    omega
  reach := h.trans (Nat.le_max_left _ _)

theorem setPt (w : World) (pt : PtLabel) (h : unreached (w.setPt pt).fs ≤ unreached w.fs) :
    Spent (unreached (w.setPt pt).fs - unreached w.fs) w (w.setPt pt) :=
  resume w w.fs.reloc pt h

theorem returns (w : World) (r : Int) : Spent 0 w (w.returns r).2 where
  cells := by
    unfold cellBalance World.returns
    simp only [blockWrites_returns, erases_returns]
  writes _ := by
    unfold writeBalance World.returns
    simp only [programs_returns, blockWrites_returns]
  settled hs := hs
  budget := by
    unfold Wormvars.budget World.returns
    simp only [blockWrites_returns, erases_returns]
    omega
  reach := Nat.le_max_left _ _

/-- A sector that is not full is taken, and the full one is left. -/
theorem setSector (hi : Inv crc w.fs w.flash) {s : Fin 8}
    (hfull : w.fs.SectorIsFull w.fs.curr.sector) (hs : ¬ w.fs.SectorIsFull s) :
    Spent (-1) w (w.setSector s) where
  cells := rfl
  writes _ := rfl
  settled hs := hs
  budget := by
    have hb := blankOthers_setSector (hi.shape.blankOther hfull hs) hfull
    have hu : unreached (w.setSector s).fs = unreached w.fs := rfl
    have hl : (w.setSector s).log = w.log := rfl
    unfold Wormvars.budget
    rw [hu, hl]
    omega
  reach := Nat.le_max_left _ _

/-- A block is appended. -/
theorem append (buffer : Block) (hi : Inv crc w.fs w.flash)
    (hslot : HasSlot w.fs buffer.header.key) :
    Spent (1 + unreached (appendBlock crc w buffer).2.fs - unreached w.fs) w
      (appendBlock crc w buffer).2 := by
  have hlt := hi.findFd_lt hslot
  obtain ⟨-, hp, -⟩ := appendBlock_placed crc w buffer hlt
  have hcells := hp.totalUsed hi.shape
  have hblank := hp.blankOthers
  have hblocks := appendBlock_blockWrites crc w buffer
  have herases := appendBlock_erases hlt crc
  refine ⟨?_, fun hs => ?_, fun hs => hs.placed hp hi.index.nodup, ?_,
    (hp.unreached_le hi).trans (Nat.le_max_left _ _)⟩
  · unfold cellBalance
    omega
  · have hprogs := hs.appendBlock_programs hlt crc
    have hkeys := hp.keys_length
    have hnew := findFd_lt_iff w.fs.fd buffer.header
    unfold writeBalance
    by_cases hk : buffer.header.key ∈ keys w.fs
    · rw [if_pos hk] at hkeys
      rw [if_pos (hnew.2 hk)] at hprogs
      omega
    · rw [if_neg hk] at hkeys
      rw [if_neg fun h => hk (hnew.1 h)] at hprogs
      omega
  · unfold Wormvars.budget
    omega

/-- The thread copies a block out of the victim and is done with its descriptor. -/
theorem relocate (hi : Inv crc w.fs w.flash) (hc : Carries w.fs w.flash)
    (hpt : w.fs.pt = .yieldRead ∨ w.fs.pt = .yieldNext) :
    Spent (1 + ahead w.fs - unreached w.fs) w (w.relocate crc) := by
  have hp := relocate_placed hi hc
  have hle : ahead (w.relocate crc).fs ≤ ahead w.fs := hp.ahead_le hc.victim
  have hnext : ahead (appendBlock crc w (relocBlock w.fs.reloc)).2.fs ≤
      unreached (appendBlock crc w (relocBlock w.fs.reloc)).2.fs := by
    unfold unreached
    rw [hp.pt]
    rcases hpt with hpt | hpt <;> rw [hpt]
    exact Nat.le_succ _
  refine ((append _ hi hc.hasSlot).trans (setPt _ .yieldNext hnext)).mono ?_
  have hu : unreached ((appendBlock crc w (relocBlock w.fs.reloc)).2.setPt .yieldNext).fs =
      ahead (w.relocate crc).fs := rfl
  rw [hu]
  omega

theorem totalUsed_eraseVictim (hi : Inv crc w.fs w.flash) (hv : Victim w.fs) :
    totalUsed w.eraseVictim.fs + 128 = totalUsed w.fs := by
  have hfull := (hi.shape.full_iff _).1 hv.full
  unfold totalUsed
  simp only [cellsUsed_erase]
  rw [← Finset.add_sum_erase _ _ (Finset.mem_univ w.fs.reloc.sector), if_pos rfl,
    ← Finset.add_sum_erase Finset.univ (cellsUsed w.fs) (Finset.mem_univ w.fs.reloc.sector), hfull,
    Finset.sum_congr rfl fun s hs => if_neg (Finset.ne_of_mem_erase hs), Nat.zero_add,
    Nat.add_comm]

theorem erase (hi : Inv crc w.fs w.flash) (hv : Victim w.fs) :
    Spent (-unreached w.fs) w w.eraseVictim where
  cells := by
    have hc := totalUsed_eraseVictim hi hv
    have hl : w.eraseVictim.log = ⟨w.fs, w.flash, .erase (sectorBase w.fs.reloc.sector)⟩ :: w.log :=
      rfl
    unfold cellBalance
    rw [hl, blockWrites_erase, erases_erase]
    omega
  writes _ := by
    have hl : w.eraseVictim.log = ⟨w.fs, w.flash, .erase (sectorBase w.fs.reloc.sector)⟩ :: w.log :=
      rfl
    have hk : keys w.eraseVictim.fs = keys w.fs := rfl
    unfold writeBalance
    rw [hl, hk, programs_erase, blockWrites_erase]
  settled hs := hs
  budget := by
    have hb := blankOthers_erase hv
    have hl : w.eraseVictim.log = ⟨w.fs, w.flash, .erase (sectorBase w.fs.reloc.sector)⟩ :: w.log :=
      rfl
    have hu : unreached w.eraseVictim.fs = 50 := rfl
    unfold Wormvars.budget
    rw [hl, hu, blockWrites_erase, erases_erase]
    omega
  reach := Nat.le_max_right _ _

end Spent

/-! ## One call -/

section calls
variable {ans : Answers} {flag : Bool}

/-- A descriptor in the victim is picked; the block is read or will be. -/
theorem relocRead_spent (ans : Answers) (r : Reloc)
    (h : liveFrom w.fs r.sector (r.fdIndex + 1) + 1 ≤ unreached w.fs) :
    Spent 0 w (relocRead ans (w.setReloc r)).2 := by
  have hle : ((liveFrom w.fs r.sector (r.fdIndex + 1) + 1 : Nat) : Int) - unreached w.fs ≤ 0 := by
    omega
  unfold relocRead
  simp only
  split
  · exact (Spent.resume w { r with buffer := flashRead w.flash r.fd.address } .yieldRead h).mono hle
  · exact (Spent.resume w r .waitRead h).mono hle

/-- Before the erase. -/
theorem Inv.waitErase (hi : Inv crc w.fs w.flash) (r : Reloc)
    (hv : Victim { w.fs with reloc := r }) (hno : ∀ fd ∈ w.fs.fd, fd.sector ≠ r.sector) :
    Inv crc ((w.setReloc r).setPt .waitErase).fs ((w.setReloc r).setPt .waitErase).flash ∧
      Victim ((w.setReloc r).setPt .waitErase).fs := by
  have hs : Suspended { w.fs with reloc := r, pt := .waitErase } := ⟨⟨hv.full, hv.notCurrent⟩, hno⟩
  have hb : Buffered { w.fs with reloc := r, pt := .waitErase } w.flash := by
    intro h
    rcases h with h | h <;> cases h
  exact ⟨(hi.resume r .waitErase hs hb).1, hv.full, hv.notCurrent⟩

/-- There is no descriptor in the victim; it is erased or will be. -/
theorem relocErase_spent (hi : Inv crc w.fs w.flash) (ans : Answers) (r : Reloc)
    (hv : Victim { w.fs with reloc := r }) (hno : ∀ fd ∈ w.fs.fd, fd.sector ≠ r.sector) :
    Spent 0 w (relocErase ans (w.setReloc r)).2 := by
  obtain ⟨hi', hv'⟩ := hi.waitErase r hv hno
  have hu : unreached ((w.setReloc r).setPt .waitErase).fs = 0 := rfl
  have hwait := Spent.resume w r .waitErase (hu ▸ Nat.zero_le _)
  rw [hu] at hwait
  rw [relocErase_eq]
  split
  · refine (hwait.trans (Spent.erase hi' hv')).mono ?_
    rw [hu]
    omega
  · exact hwait.mono (by omega)

/-- The thread goes to a label at which it has as much to do. -/
theorem Spent.to (pt : PtLabel) (h : unreached (w.setPt pt).fs ≤ unreached w.fs) :
    Spent 0 w (w.setPt pt) := (Spent.setPt w pt h).mono (by omega)

theorem Phase.spent {r : PtCode × World} (h : Phase crc ans flag w r) (hi : Inv crc w.fs w.flash) :
    Spent 0 w r.2 := by
  cases h with
  | timer hpt =>
    have hu := unreached_start (hpt.imp_right Or.inl)
    split
    · exact .to .yieldStart (Nat.le_of_eq hu.symm)
    · exact .to .waitTimer (Nat.le_of_eq hu.symm)
  | idle hpt _ => exact .to .null (Nat.le_of_eq (unreached_start (Or.inr (Or.inr hpt))).symm)
  | found S n j fd he hf =>
    refine relocRead_spent ans { w.fs.reloc with sector := S, fd := fd, fdIndex := j } ?_
    rw [hf.liveFrom]
    exact he.liveFrom_le
  | behind S n m he hno hv =>
    exact relocErase_spent hi ans { w.fs.reloc with sector := S, fdIndex := m }
      ⟨hv.full, hv.notCurrent⟩ hno
  | read hpt =>
    exact relocRead_spent ans w.fs.reloc (Nat.le_of_eq (unreached_picked (Or.inl hpt)).symm)
  | erase hpt hno hv => exact relocErase_spent hi ans w.fs.reloc hv hno
  | passed fd hpt _ _ =>
    have hu := unreached_picked (Or.inr (Or.inl hpt))
    refine .to .yieldNext ?_
    rw [hu]
    exact Nat.le_succ (ahead w.fs)
  | copied fd hpt hg ha hroom =>
    have hc := hi.carries hpt hg ha
    have hu := unreached_picked (Or.inr (Or.inl hpt))
    exact (Spent.relocate hi hc (Or.inl hpt)).mono (by omega)
  | retried hpt _ =>
    have hu := unreached_picked (Or.inr hpt)
    exact (Spent.returns w (-2)).trans (.to .yieldRetry (Nat.le_of_eq hu.symm))
  | switched fd s hpt hg ha hfull hs =>
    have hc := hi.carries hpt hg ha
    have hu := unreached_picked (Or.inr (Or.inl hpt))
    have hi₁ := (hi.setSector hfull hs).1
    have hc₁ := hc.setSector hs
    obtain ⟨hi₂, -, hroom, hc₂⟩ := relocate_inner hi hfull hs hc
    have hu₁ : unreached (w.setSector s).fs = unreached w.fs := rfl
    have ha₁ : ahead (w.setSector s).fs = ahead w.fs := rfl
    have hu₂ : unreached ((w.setSector s).relocate crc).fs =
        ahead ((w.setSector s).relocate crc).fs := rfl
    -- the copy made twice is paid for by the blank sector that is taken
    refine ((Spent.setSector hi hfull hs).trans ((Spent.relocate hi₁ hc₁ (Or.inl hpt)).trans
      (Spent.relocate hi₂ hc₂ (Or.inr rfl)))).mono ?_
    omega

/-- A write takes one block of what its user pays for. -/
theorem WritePhase.spent {name : BitVec 16} {ext : BitVec 8} {data : List Byte} {r : Int × World}
    (h : WritePhase crc ans w name ext data r) (hi : Inv crc w.fs w.flash) :
    Spent (if r.1 = 0 then 1 else 0) w r.2 := by
  cases h with
  | tooLong => exact Spent.returns w (-1)
  | allFull => exact Spent.returns w (-2)
  | room _ _ hslot =>
    have hp := append_placed data hi hslot
    have hle := hp.unreached_le hi
    refine (Spent.append (writeBuffer name ext data) hi hslot).mono ?_
    simp only [if_true]
    omega
  | switched s c v _ hfull hs hph hv _ hslot =>
    have hle := (append_placed data hv hslot).unreached_le hv
    have hnested := hph.spent (hi.setSector hfull hs).1
    refine (((Spent.setSector hi hfull hs).trans hnested).trans
      (Spent.append (writeBuffer name ext data) hv hslot)).mono ?_
    simp only [if_true]
    omega

end calls

/-! ## The work in one call -/

/-- The flag of the old block, the new block, the size of the old one, the flag of the new one. -/
theorem appendBlock_programs_le {buffer : Block} (hi : findFd w.fs.fd buffer.header < fdMax)
    (crc : Block → BitVec 32) : programs (appendBlock crc w buffer).2.log ≤ programs w.log + 4 := by
  obtain ⟨e, r, -, hop, -, hret, he⟩ := appendBlock_eq crc w buffer hi
  obtain ⟨fs, f, op⟩ := e
  obtain ⟨fs', f', op'⟩ := r
  obtain rfl : op = _ := hop
  obtain rfl : op' = _ := hret
  have hflag : ∀ i, programs (clearNewer w i).log ≤ programs w.log + 1 := by
    intro i
    unfold clearNewer
    split
    · split
      · exact Nat.le_of_eq programs_program
      · exact Nat.le_succ _
    · exact Nat.le_succ _
  have hstage : programs (stageBlock crc w buffer).log ≤ programs w.log + 3 := by
    unfold stageBlock
    simp only [invalidatePrevious_programs]
    show programs (_ :: (clearNewer w (findFd w.fs.fd buffer.header)).log) + _ ≤ _
    have := hflag (findFd w.fs.fd buffer.header)
    rw [programs_program]
    split <;> omega
  rw [he]
  show programs (_ :: _ :: (stageBlock crc w buffer).log) ≤ _
  rw [programs_returns, programs_program]
  omega

/-- At most `p` writes, `b` of them of blocks, and `e` erases. -/
structure Within (p b e : Nat) (w w' : World) : Prop where
  programs : programs w'.log ≤ programs w.log + p
  blocks : blockWrites w'.log ≤ blockWrites w.log + b
  erases : erases w'.log ≤ erases w.log + e

namespace Within
variable {p b e p' b' e' : Nat}

theorem of_log (h : w'.log = w.log) : Within 0 0 0 w w' := by
  constructor <;> exact Nat.le_of_eq (by rw [h]; rfl)

theorem trans (h : Within p b e w v) (h' : Within p' b' e' v w') :
    Within (p + p') (b + b') (e + e') w w' where
  programs := by
    have h₁ := h.programs
    have h₂ := h'.programs
    omega
  blocks := by
    have h₁ := h.blocks
    have h₂ := h'.blocks
    omega
  erases := by
    have h₁ := h.erases
    have h₂ := h'.erases
    omega

theorem mono (h : Within p b e w w') (hp : p ≤ p') (hb : b ≤ b') (he : e ≤ e') :
    Within p' b' e' w w' where
  programs := h.programs.trans (Nat.add_le_add_left hp _)
  blocks := h.blocks.trans (Nat.add_le_add_left hb _)
  erases := h.erases.trans (Nat.add_le_add_left he _)

theorem returns (w : World) (r : Int) : Within 0 0 0 w (w.returns r).2 where
  programs := Nat.le_of_eq programs_returns
  blocks := Nat.le_of_eq blockWrites_returns
  erases := Nat.le_of_eq erases_returns

theorem append (crc : Block → BitVec 32) {buffer : Block}
    (hi : findFd w.fs.fd buffer.header < fdMax) : Within 4 1 0 w (appendBlock crc w buffer).2 where
  programs := appendBlock_programs_le hi crc
  blocks := Nat.le_of_eq (appendBlock_blockWrites crc w buffer)
  erases := Nat.le_of_eq (appendBlock_erases hi crc)

theorem relocate (hi : Inv crc w.fs w.flash) (hc : Carries w.fs w.flash) :
    Within 4 1 0 w (w.relocate crc) := by
  obtain ⟨hp, hb, he⟩ := append crc (hi.findFd_lt hc.hasSlot)
  exact ⟨hp, hb, he⟩

theorem relocRead (ans : Answers) (r : Reloc) :
    Within 0 0 0 w (relocRead ans (w.setReloc r)).2 := by
  unfold Wormvars.relocRead
  simp only
  split
  · exact .of_log rfl
  · exact .of_log rfl

theorem relocErase (ans : Answers) (r : Reloc) :
    Within 0 0 1 w (relocErase ans (w.setReloc r)).2 := by
  have hwait : Within 0 0 0 w ((w.setReloc r).setPt .waitErase) := .of_log rfl
  rw [relocErase_eq]
  split
  · exact ⟨Nat.le_of_eq programs_erase, Nat.le_of_eq blockWrites_erase, Nat.le_of_eq erases_erase⟩
  · exact hwait.mono (Nat.le_refl _) (Nat.le_refl _) (Nat.zero_le _)

end Within

/-- A call of `fs_thread` copies a block, or two when it takes a blank sector, or erases. -/
theorem Phase.within {ans : Answers} {flag : Bool} {r : PtCode × World}
    (h : Phase crc ans flag w r) (hi : Inv crc w.fs w.flash) :
    Within 4 1 0 w r.2 ∨ Within 0 0 1 w r.2 ∨
      (w.fs.SectorIsFull w.fs.curr.sector ∧ Within 8 2 0 w r.2) := by
  have hidle {v : World} (h : Within 0 0 0 w v) : Within 4 1 0 w v :=
    h.mono (by omega) (by omega) (Nat.le_refl _)
  cases h with
  | timer =>
    left
    split
    · exact hidle (.of_log rfl)
    · exact hidle (.of_log rfl)
  | idle => exact Or.inl (hidle (.of_log rfl))
  | found S n j fd => exact Or.inl (hidle (.relocRead ans _))
  | behind S n m => exact Or.inr (Or.inl (.relocErase ans _))
  | read => exact Or.inl (hidle (.relocRead ans w.fs.reloc))
  | erase => exact Or.inr (Or.inl (.relocErase ans w.fs.reloc))
  | passed => exact Or.inl (hidle (.of_log rfl))
  | copied fd hpt hg ha hroom => exact Or.inl (.relocate hi (hi.carries hpt hg ha))
  | retried =>
    have hr : Within 0 0 0 (w.returns (-2)).2 ((w.returns (-2)).2.setPt .yieldRetry) := .of_log rfl
    exact Or.inl (hidle ((Within.returns w (-2)).trans hr))
  | switched fd s hpt hg ha hfull hs =>
    have hc := hi.carries hpt hg ha
    obtain ⟨hi₂, -, -, hc₂⟩ := relocate_inner hi hfull hs hc
    have hsw : Within 0 0 0 w (w.setSector s) := .of_log rfl
    exact Or.inr (Or.inr ⟨hfull, (hsw.trans (Within.relocate (hi.setSector hfull hs).1
      (hc.setSector hs))).trans (Within.relocate hi₂ hc₂)⟩)

/-- Two blocks take a blank sector. -/
theorem WritePhase.within {ans : Answers} {name : BitVec 16} {ext : BitVec 8} {data : List Byte}
    {r : Int × World} (h : WritePhase crc ans w name ext data r) (hi : Inv crc w.fs w.flash) :
    Within 4 1 1 w r.2 ∨ (w.fs.SectorIsFull w.fs.curr.sector ∧ Within 8 2 0 w r.2) := by
  cases h with
  | tooLong => exact Or.inl ((Within.returns w (-1)).mono (by omega) (by omega) (by omega))
  | allFull => exact Or.inl ((Within.returns w (-2)).mono (by omega) (by omega) (by omega))
  | room _ _ hslot =>
    have happ := Within.append crc (hi.findFd_lt (h := (writeBuffer name ext data).header) hslot)
    exact Or.inl (happ.mono (Nat.le_refl _) (Nat.le_refl _) (Nat.zero_le _))
  | switched s c v _ hfull hs hph hv _ hslot =>
    have happ := Within.append crc (hv.findFd_lt (h := (writeBuffer name ext data).header) hslot)
    have hsw : Within 0 0 0 w (w.setSector s) := .of_log rfl
    rcases hph.within (hi.setSector hfull hs).1 with h₁ | h₁ | ⟨hfull', -⟩
    · exact Or.inr ⟨hfull, (hsw.trans h₁).trans happ⟩
    · exact Or.inl ((hsw.trans h₁).trans happ)
    · exact absurd hfull' hs

end Wormvars
