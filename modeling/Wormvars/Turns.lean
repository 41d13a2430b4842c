import Wormvars.Tidy
import Wormvars.System

/-!
# The calls, whatever the flash held

Every call that returns is a few turns (`exec_turns`).  Two things are asked of the
state it starts in: where the call chooses a victim (`Call.chooses`) there is a
candidate, and, unless faulty turns are let through, a write finds a descriptor and
a copy that is under way leaves a cell of the next sector for it (`Roomy`).
-/

namespace Wormvars

open NorFlash

variable {crc : Block → BitVec 32} {faulty : Prop}

/-- There is no need of a victim, or there is a sector fit to be one. -/
def Candidate (fs : Fs) : Prop :=
  fsMinBlankSectors ≤ blankOthers fs ∨ ∃ s, FullOther fs s ∧ liveIn fs s < fdsPerSector

/-- The next call of `fs_thread` hands the picked block to `fs_write`. -/
def Copying (fs : Fs) : Prop :=
  fs.pt = .yieldRead ∧
    ∃ fd, fs.fd[fs.reloc.fdIndex]? = some fd ∧ fd.address = fs.reloc.fd.address

/-- The sector that a copy turns to takes two blocks. -/
def Roomy (fs : Fs) : Prop :=
  Copying fs → fs.SectorIsFull fs.curr.sector → ∀ s,
    nextNotFull fs 8 fs.curr.sector = some s →
      fs.curr.address s + fsBlockSize < sectorBase s + filesystemSectorSize

/-- The state in which the call runs `findRelocSector`. -/
def Call.chooses (w : World) : Call → Option Fs
  | .write _ _ data _ =>
    if w.fs.pt = .yieldStart ∧ data.length ≤ fsBlockSize - 4 ∧
        w.fs.SectorIsFull w.fs.curr.sector then
      (nextNotFull w.fs 8 w.fs.curr.sector).map fun s => (w.setSector s).fs
    else none
  | .read .. => none
  | .thread _ => if w.fs.pt = .yieldStart then some w.fs else none

/-! ## `fs_thread` without `fs_write` -/

/-- The turn of slot `i` is over, or there is no relocation. -/
def Beyond (i : Nat) (fs : Fs) : Prop :=
  match fs.pt with
  | .waitRead | .yieldRead | .yieldRetry => i < fs.reloc.fdIndex
  | .yieldNext => i ≤ fs.reloc.fdIndex
  | _ => True

/-- Some turns without an append: no sector takes a block, and one may be erased. -/
structure Idled (crc : Block → BitVec 32) (faulty : Prop) (w w' : World) : Prop where
  turns : Turns crc faulty w w'
  fd : w'.fs.fd = w.fs.fd
  sector : w'.fs.curr.sector = w.fs.curr.sector
  address : w'.fs.curr.address w.fs.curr.sector = w.fs.curr.address w.fs.curr.sector
  lower : ∀ s, w'.fs.curr.address s ≤ w.fs.curr.address s
  freed : ∀ s, w'.fs.curr.address s < w.fs.curr.address s → ∀ fd ∈ w.fs.fd, fd.sector ≠ s
  blocks : blocks w'.log = blocks w.log
  beyond : Relocating w.fs → ∀ i, Beyond i w.fs → Beyond i w'.fs

theorem Idled.keys {w w' : World} (h : Idled crc faulty w w') : keys w'.fs = keys w.fs := by
  unfold Wormvars.keys
  rw [h.fd]

section thread
variable {w : World} (ans : Answers)

theorem Idled.resume (reloc : Reloc) (pt : PtLabel)
    (hu : Underway { w.fs with reloc := reloc, pt := pt })
    (hb : Relocating w.fs → ∀ i, Beyond i w.fs → Beyond i { w.fs with reloc := reloc, pt := pt }) :
    Idled crc faulty w ((w.setReloc reloc).setPt pt) :=
  ⟨.single (.resume w reloc pt hu), rfl, rfl, rfl, fun _ => Nat.le_refl _,
    fun _ hlt => absurd hlt (Nat.lt_irrefl _), rfl, hb⟩

theorem relocRead_idled (r : Reloc) (hv : Victim { w.fs with reloc := r })
    (hm : Moved { w.fs with reloc := r } r.fdIndex)
    (ht : ∃ fd, Tracked { w.fs with reloc := r } fd)
    (hb : Relocating w.fs → ∀ i, Beyond i w.fs → i < r.fdIndex) :
    Idled crc faulty w (relocRead ans (w.setReloc r)).2 := by
  obtain ⟨fd, ht⟩ := ht
  unfold relocRead
  simp only
  split
  · exact Idled.resume { r with buffer := flashRead w.flash r.fd.address } .yieldRead
      ⟨⟨hv.full, hv.notCurrent⟩, hm, fd, ht.get, ht.key, ht.stays⟩ hb
  · exact Idled.resume r .waitRead
      ⟨⟨hv.full, hv.notCurrent⟩, hm, fd, ht.get, ht.key, ht.stays⟩ hb

theorem relocErase_idled (r : Reloc) (hv : Victim { w.fs with reloc := r })
    (hno : ∀ fd ∈ w.fs.fd, fd.sector ≠ r.sector) (hlo : sectorBase r.sector ≤
      w.fs.curr.address r.sector) :
    Idled crc faulty w (relocErase ans (w.setReloc r)).2 := by
  have hw : Idled crc faulty w ((w.setReloc r).setPt .waitErase) :=
    Idled.resume r .waitErase ⟨⟨hv.full, hv.notCurrent⟩, hno⟩ fun _ _ _ => trivial
  rw [relocErase_eq]
  split
  · have hv' : Victim ((w.setReloc r).setPt .waitErase).fs := ⟨hv.full, hv.notCurrent⟩
    refine ⟨hw.turns.tail (.erase _ hv' hno), rfl, rfl,
      Curr.setAddress_ne _ _ (Ne.symm hv.notCurrent), fun s => ?_, fun s hlt => ?_,
      blocks_cons _ _, fun _ _ _ => trivial⟩
    · show (w.fs.curr.setAddress r.sector (sectorBase r.sector)).address s ≤ w.fs.curr.address s
      by_cases hs : s = r.sector
      · subst hs
        rw [Curr.setAddress_self]
        exact hlo
      · rw [Curr.setAddress_ne _ _ hs]
    · have hlt : (w.fs.curr.setAddress r.sector (sectorBase r.sector)).address s <
          w.fs.curr.address s := hlt
      by_cases hs : s = r.sector
      · subst hs
        exact hno
      · rw [Curr.setAddress_ne _ _ hs] at hlt
        exact absurd hlt (Nat.lt_irrefl _)
  · exact hw

theorem relocLoop_idled (S : Fin 8) (n : Nat)
    (hv : Victim { w.fs with reloc := { w.fs.reloc with sector := S } })
    (hm : Moved { w.fs with reloc := { w.fs.reloc with sector := S } } n)
    (hb : Relocating w.fs → ∀ i, Beyond i w.fs → i < n)
    (hlo : sectorBase S ≤ w.fs.curr.address S) :
    Idled crc faulty w (relocLoop ans (w.fs.fd.drop n)
      (w.setReloc { w.fs.reloc with sector := S, fdIndex := n })).2 := by
  rcases relocLoop_cases ans (w.setReloc { w.fs.reloc with sector := S }) n with
    ⟨j, fd, hj, hg, hsec, hbef, he⟩ | ⟨m, hall, he⟩
  · refine Eq.mpr (congrArg (fun x => Idled crc faulty w x.2) he) ?_
    refine relocRead_idled ans { w.fs.reloc with sector := S, fd := fd, fdIndex := j }
      ⟨hv.full, hv.notCurrent⟩ ?_ ⟨fd, hg, rfl, Or.inl rfl⟩
      fun hr i hi => Nat.lt_of_lt_of_le (hb hr i hi) hj
    intro i x h₁ hx
    by_cases hin : i < n
    · exact hm i x hin hx
    · exact hbef i x (by omega) h₁ hx
  · refine Eq.mpr (congrArg (fun x => Idled crc faulty w x.2) he) ?_
    refine relocErase_idled ans { w.fs.reloc with sector := S, fdIndex := m }
      ⟨hv.full, hv.notCurrent⟩ ?_ hlo
    intro x hx
    obtain ⟨i, hxi⟩ := List.mem_iff_getElem?.1 hx
    by_cases hin : i < n
    · exact hm i x hin hxi
    · exact hall i x (by omega) hxi

/-- The victim that is chosen, if there is a candidate. -/
theorem Candidate.victim {fs : Fs} (h : Candidate fs) (ht : Tidy fs) {S : Fin 8}
    (hS : findRelocSector fs = some S) : Optimal fs S := by
  have hb : blankOthers fs < 2 := by
    by_contra hge
    rw [(findRelocSector_none fs).2 (by omega)] at hS
    cases hS
  rcases findRelocSector_some ht.liveIn_lt hb with ⟨-, hno⟩ | ⟨T, hT, hopt⟩
  · rcases h with h | ⟨s, hs, hlt⟩
    · unfold fsMinBlankSectors at h
      omega
    · have := hno s hs
      omega
  · obtain rfl := Option.some.inj (hT.symm.trans hS)
    exact hopt

variable {r : PtCode × World}
  {write : World → BitVec 16 → BitVec 8 → List Byte → Option (Int × World)} {flag : Bool}

/-- At a label that does not lead to `fs_write`. -/
theorem fsThreadWith_idled (hs : Steady w.fs) (hstart : w.fs.pt = .yieldStart → Candidate w.fs)
    (hcopy : ¬ Copying w.fs) (hretry : w.fs.pt ≠ .yieldRetry)
    (h : fsThreadWith write ans flag w = some r) : Idled crc faulty w r.2 := by
  have hu := hs.underway
  have hlo := hs.tidy.lo
  unfold Underway at hu
  unfold fsThreadWith at h
  cases hpt : w.fs.pt with
  | null =>
    have hidle : ¬ Relocating w.fs := fun hr => hr.1 hpt
    simp only [hpt] at h
    split at h
    · cases h
      exact Idled.resume w.fs.reloc .yieldStart trivial fun hr => absurd hr hidle
    · cases h
      exact Idled.resume w.fs.reloc .waitTimer trivial fun hr => absurd hr hidle
  | waitTimer =>
    have hidle : ¬ Relocating w.fs := fun hr => hr.2.1 hpt
    simp only [hpt] at h
    split at h
    · cases h
      exact Idled.resume w.fs.reloc .yieldStart trivial fun hr => absurd hr hidle
    · cases h
      exact Idled.resume w.fs.reloc .waitTimer trivial fun hr => absurd hr hidle
  | yieldStart =>
    have hidle : ¬ Relocating w.fs := fun hr => hr.2.2 hpt
    simp only [hpt] at h
    cases hS : findRelocSector w.fs with
    | none =>
      simp only [hS] at h
      obtain rfl := Option.some.inj h
      exact Idled.resume w.fs.reloc .null trivial fun hr => absurd hr hidle
    | some S =>
      simp only [hS] at h
      have hopt := (hstart hpt).victim hs.tidy hS
      have hl := @relocLoop_idled crc faulty w ans S 0
        ⟨hopt.full.2, hopt.full.1⟩ (fun j x hj => absurd hj (Nat.not_lt_zero j))
        (fun hr => absurd hr hidle) (hlo S)
      obtain rfl := Option.some.inj h
      exact hl
  | waitRead =>
    simp only [hpt] at h hu
    obtain rfl := Option.some.inj h
    exact relocRead_idled ans w.fs.reloc hu.1 hu.2.1 hu.2.2 fun _ i hi => by
      rwa [Beyond, hpt] at hi
  | yieldRead =>
    simp only [hpt] at h hu
    obtain ⟨hv, hm, fd, ht⟩ := hu
    simp only [ht.get] at h
    have ha : fd.address ≠ w.fs.reloc.fd.address := fun ha => hcopy ⟨hpt, fd, ht.get, ha⟩
    rw [if_neg ha] at h
    obtain rfl := Option.some.inj h
    refine Idled.resume w.fs.reloc .yieldNext ⟨⟨hv.full, hv.notCurrent⟩, ?_⟩ fun _ i hi => ?_
    · intro j x hj hx
      rcases Nat.lt_succ_iff_lt_or_eq.1 hj with hj | rfl
      · exact hm j x hj hx
      · obtain rfl := Option.some.inj (ht.get.symm.trans hx)
        exact ht.stays.resolve_left ha
    · rw [Beyond, hpt] at hi
      exact Nat.le_of_lt hi
  | yieldRetry => exact absurd hpt hretry
  | yieldNext =>
    simp only [hpt] at h hu
    obtain rfl := Option.some.inj h
    refine relocLoop_idled ans w.fs.reloc.sector (w.fs.reloc.fdIndex + 1) hu.1 hu.2
      (fun _ i hi => ?_) (hlo _)
    rw [Beyond, hpt] at hi
    exact Nat.lt_succ_of_le hi
  | waitErase =>
    simp only [hpt] at h hu
    obtain rfl := Option.some.inj h
    exact relocErase_idled ans w.fs.reloc hu.1 hu.2 (hlo _)

end thread

/-! ## The copy made by `fs_thread` -/

/-- Where an append is a turn. -/
def Open (faulty : Prop) (fs : Fs) : Prop :=
  ¬ fs.SectorIsFull fs.curr.sector ∨
    (faulty ∧ fs.curr.address fs.curr.sector = sectorBase fs.curr.sector + 4096)

section copy
variable {w : World}

theorem Steady.copying (hs : Steady w.fs) (hc : Copying w.fs) :
    Victim w.fs ∧ Moved w.fs w.fs.reloc.fdIndex ∧ ∃ fd, Tracked w.fs fd := by
  have hu := hs.underway
  unfold Underway at hu
  rw [hc.1] at hu
  exact hu

theorem Tracked.mem_keys {fs : Fs} {fd : FileDescriptor} (h : Tracked fs fd) :
    fs.reloc.fd.header.key ∈ keys fs :=
  List.mem_map.2 ⟨fd, List.mem_of_getElem? h.get, h.key⟩

variable (crc) in
/-- After a copy the label is already the one that a second copy ends at. -/
theorem Tidy.relocate_again (ht : Tidy w.fs) (hslot : HasSlot w.fs (relocBlock w.fs.reloc).header.key)
    (hpt : w.fs.pt = .yieldNext) :
    w.relocate crc = (appendBlock crc w (relocBlock w.fs.reloc)).2 := by
  have hsame : (appendBlock crc w (relocBlock w.fs.reloc)).2.fs.pt = w.fs.pt :=
    (ht.append crc hslot).2.pt
  unfold World.relocate
  rw [← hpt, ← hsame]
  rfl

/-- Copying with room in the current sector. -/
structure Copied (crc : Block → BitVec 32) (faulty : Prop) (w w' : World) : Prop where
  turns : Turns crc faulty w w'
  keys : keys w'.fs = keys w.fs
  sector : w'.fs.curr.sector = w.fs.curr.sector
  address : w'.fs.curr.address w.fs.curr.sector = w.fs.curr.address w.fs.curr.sector + fsBlockSize

variable (crc) in
/-- The copy gets the slot of its key. -/
theorem Steady.relocated (hs : Steady w.fs) (hc : Copying w.fs) :
    Placed w.fs.reloc.fd.header.key w.fs (appendBlock crc w (relocBlock w.fs.reloc)).2.fs := by
  obtain ⟨-, -, fd, ht⟩ := hs.copying hc
  have hslot : HasSlot w.fs (relocBlock w.fs.reloc).header.key := by
    rw [relocBlock_key]
    exact Or.inl ht.mem_keys
  rw [← relocBlock_key]
  exact (hs.tidy.append crc hslot).2

variable (crc faulty) in
theorem Steady.relocate (hs : Steady w.fs) (hc : Copying w.fs)
    (hroom : ¬ w.fs.SectorIsFull w.fs.curr.sector) : Copied crc faulty w (w.relocate crc) := by
  obtain ⟨hv, hm, fd, ht⟩ := hs.copying hc
  have hslot : HasSlot w.fs (relocBlock w.fs.reloc).header.key := by
    rw [relocBlock_key]
    exact Or.inl ht.mem_keys
  have hp := hs.relocated crc hc
  have hv' := hv.placed hp
  have hm' : Moved (appendBlock crc w (relocBlock w.fs.reloc)).2.fs
      ((appendBlock crc w (relocBlock w.fs.reloc)).2.fs.reloc.fdIndex + 1) := by
    rw [hp.reloc]
    exact hm.relocated hv hs.tidy.nodup hp ht.get ht.key
  have hturn : Turn crc faulty w (appendBlock crc w (relocBlock w.fs.reloc)).2 :=
    .append w _ hslot (Or.inl hroom)
  refine ⟨(Relation.ReflTransGen.single hturn).tail (.resume _ _ .yieldNext
    ⟨⟨hv'.full, hv'.notCurrent⟩, hm'⟩), ?_, hp.sector, hp.address_self⟩
  have hkeys := hp.keys
  rw [if_pos ht.mem_keys] at hkeys
  exact hkeys

variable (crc) in
/-- A second copy is nothing but an append. -/
theorem Steady.relocate_twice (hs : Steady w.fs) (hc : Copying w.fs)
    (hroom : ¬ w.fs.SectorIsFull w.fs.curr.sector) :
    HasSlot (w.relocate crc).fs (relocBlock (w.relocate crc).fs.reloc).header.key ∧
      (w.relocate crc).relocate crc =
        (appendBlock crc (w.relocate crc) (relocBlock (w.relocate crc).fs.reloc)).2 ∧
      Placed w.fs.reloc.fd.header.key (w.relocate crc).fs
        ((w.relocate crc).relocate crc).fs := by
  have hcopied := hs.relocate crc True hc hroom
  obtain ⟨-, -, fd, ht⟩ := hs.copying hc
  have hreloc : (w.relocate crc).fs.reloc = w.fs.reloc := (hs.relocated crc hc).reloc
  have hkey : (relocBlock (w.relocate crc).fs.reloc).header.key = w.fs.reloc.fd.header.key := by
    rw [relocBlock_key, hreloc]
  have hslot : HasSlot (w.relocate crc).fs (relocBlock (w.relocate crc).fs.reloc).header.key := by
    rw [hkey]
    exact Or.inl (hcopied.keys ▸ ht.mem_keys)
  have htidy := (hcopied.turns.steady hs).tidy
  have hagain := htidy.relocate_again crc hslot rfl
  refine ⟨hslot, hagain, ?_⟩
  rw [hagain, ← hkey]
  exact (htidy.append crc hslot).2

variable (ans : Answers) {flag : Bool} {thread : World → Option World} {r : PtCode × World}

variable (faulty) in
/-- One call of `fs_thread` with room in the current sector. -/
theorem fsThreadWith_open (hs : Steady w.fs) (hstart : w.fs.pt = .yieldStart → Candidate w.fs)
    (hroom : ¬ w.fs.SectorIsFull w.fs.curr.sector)
    (h : fsThreadWith (fsWriteWith crc thread) ans flag w = some r) :
    (¬ Copying w.fs ∧ Idled crc faulty w r.2) ∨ (Copying w.fs ∧ r.2 = w.relocate crc) := by
  by_cases hc : Copying w.fs
  · obtain ⟨hpt, fd, hg, ha⟩ := hc
    obtain ⟨-, -, x, ht⟩ := hs.copying ⟨hpt, fd, hg, ha⟩
    rw [fsThreadWith_yieldRead _ ans flag hpt hg, if_pos ha, relocWrite_append
      (fsWriteWith_room (by simp) hroom)
      ((hs.tidy.slot _).2 (by rw [relocBlock_key]; exact Or.inl ht.mem_keys))] at h
    obtain rfl := Option.some.inj h
    exact Or.inr ⟨⟨hpt, fd, hg, ha⟩, rfl⟩
  · refine Or.inl ⟨hc, fsThreadWith_idled ans hs hstart hc ?_ h⟩
    intro hpt
    have hu := hs.underway
    unfold Underway at hu
    rw [hpt] at hu
    exact hroom (hu.2.2.2 _)

variable (crc) in
/-- The copy that `fs_thread(1)` makes in the sector that `updateSector` has turned to leaves room
there. -/
theorem Steady.relocate_open {s : Fin 8} (hs : Steady w.fs) (hc : Copying w.fs)
    (hfull : w.fs.SectorIsFull w.fs.curr.sector)
    (hnext : nextNotFull w.fs 8 w.fs.curr.sector = some s) (hok : faulty ∨ Roomy w.fs) :
    Copied crc faulty (w.setSector s) ((w.setSector s).relocate crc) ∧
      Open faulty ((w.setSector s).relocate crc).fs := by
  have hfree : ¬ w.fs.SectorIsFull s := nextNotFull_some hnext
  have hturn : Turn crc faulty w (w.setSector s) := .switch w s hfree
  have hcopied := (hturn.steady hs).relocate crc faulty hc hfree
  refine ⟨hcopied, ?_⟩
  have hlt := not_full_iff.1 hfree
  have hal := hs.tidy.aligned s
  have hbase := sectorBase_mod s
  unfold Open
  rw [not_full_iff, hcopied.sector, hcopied.address]
  show w.fs.curr.address s + 32 < sectorBase s + 4096 ∨
    (faulty ∧ w.fs.curr.address s + 32 = sectorBase s + 4096)
  rcases hok with hf | hr
  · rcases Nat.lt_or_ge (w.fs.curr.address s + 32) (sectorBase s + 4096) with h | h
    · exact Or.inl h
    · exact Or.inr ⟨hf, by omega⟩
  · exact Or.inl (hr hc hfull s hnext)

end copy

/-! ## Whole calls -/

theorem fsThread_unfold {ans : Answers} {n : Nat} {flag : Bool} {w : World} {r : PtCode × World}
    (h : fsThread crc ans n flag w = some r) :
    ∃ m, fsThreadWith (fsWriteWith crc fun w => (fsThread crc ans m true w).map Prod.snd)
      ans flag w = some r := by
  cases n with
  | zero => cases h
  | succ n => exact ⟨n, h⟩

/-- What `fs_write` comes to before it appends its block. -/
inductive Prepared (crc : Block → BitVec 32) (faulty : Prop) (w : World) : World → Prop
  | room : ¬ w.fs.SectorIsFull w.fs.curr.sector → Prepared crc faulty w w
  | idled (s : Fin 8) (v : World) : w.fs.SectorIsFull w.fs.curr.sector →
      nextNotFull w.fs 8 w.fs.curr.sector = some s → ¬ Copying w.fs →
      Idled crc faulty (w.setSector s) v → Prepared crc faulty w v
  | copied (s : Fin 8) : w.fs.SectorIsFull w.fs.curr.sector →
      nextNotFull w.fs 8 w.fs.curr.sector = some s → Copying w.fs →
      Prepared crc faulty w ((w.setSector s).relocate crc)

/-- What a call of `fs_thread(0)` comes to. -/
inductive Ran (crc : Block → BitVec 32) (faulty : Prop) (w : World) : World → Prop
  | idled (w' : World) : ¬ Copying w.fs → w.fs.pt ≠ .yieldRetry → Idled crc faulty w w' →
      Ran crc faulty w w'
  | stuck (q : Int) : (∀ s, w.fs.SectorIsFull s) → Copying w.fs ∨ w.fs.pt = .yieldRetry →
      Ran crc faulty w ((w.returns q).2.setPt .yieldRetry)
  | copied : Copying w.fs → ¬ w.fs.SectorIsFull w.fs.curr.sector →
      Ran crc faulty w (w.relocate crc)
  | doubled (s : Fin 8) : Copying w.fs → w.fs.SectorIsFull w.fs.curr.sector →
      nextNotFull w.fs 8 w.fs.curr.sector = some s →
      Ran crc faulty w (((w.setSector s).relocate crc).relocate crc)

section calls
variable {w v : World} {ans : Answers} {n : Nat}

theorem Prepared.exists_room (h : Prepared crc faulty w v) : ∃ s, ¬ w.fs.SectorIsFull s := by
  cases h with
  | room hroom => exact ⟨_, hroom⟩
  | idled s v _ hnext => exact ⟨s, nextNotFull_some hnext⟩
  | copied s _ hnext => exact ⟨s, nextNotFull_some hnext⟩

theorem Prepared.turns (hs : Steady w.fs) (hok : faulty ∨ Roomy w.fs)
    (h : Prepared crc faulty w v) :
    Turns crc faulty w v ∧ keys v.fs = keys w.fs ∧ Open faulty v.fs := by
  cases h with
  | room hroom => exact ⟨.refl, rfl, Or.inl hroom⟩
  | idled s v hfull hnext _ hidle =>
    have hfree : ¬ w.fs.SectorIsFull s := nextNotFull_some hnext
    refine ⟨.head (.switch w s hfree) hidle.turns, hidle.keys, Or.inl ?_⟩
    unfold Fs.SectorIsFull
    rw [hidle.sector, hidle.address]
    exact hfree
  | copied s hfull hnext hc =>
    obtain ⟨hcopied, hopen⟩ := hs.relocate_open crc hc hfull hnext hok
    exact ⟨.head (.switch w s (nextNotFull_some hnext)) hcopied.turns, hcopied.keys, hopen⟩

variable (faulty) in
/-- What `fs_thread(1)` does after `updateSector` has turned to the sector `s`. -/
theorem nested_cases {s : Fin 8} (hs : Steady w.fs) (hfree : ¬ w.fs.SectorIsFull s)
    (hstart : w.fs.pt = .yieldStart → Candidate (w.setSector s).fs)
    (h : (fsThread crc ans n true (w.setSector s)).map Prod.snd = some v) :
    (¬ Copying w.fs ∧ Idled crc faulty (w.setSector s) v) ∨
      (Copying w.fs ∧ v = (w.setSector s).relocate crc) := by
  obtain ⟨r, hr, rfl⟩ := Option.map_eq_some_iff.1 h
  obtain ⟨m, hm⟩ := fsThread_unfold hr
  have hturn : Turn crc faulty w (w.setSector s) := .switch w s hfree
  exact fsThreadWith_open faulty ans (hturn.steady hs) hstart hfree hm

variable (faulty) in
/-- A write is refused, or it appends its block. -/
theorem fsWrite_cases {name : BitVec 16} {ext : BitVec 8} {data : List Byte} {r : Int × World}
    (hs : Steady w.fs)
    (hch : ∀ fs, (Call.write name ext data ans).chooses w = some fs → Candidate fs)
    (h : fsWrite crc ans n w name ext data = some r) :
    (r.1 < 0 ∧ r = w.returns r.1 ∧ (28 < data.length ∨ ∀ s, w.fs.SectorIsFull s)) ∨
      ∃ v, Prepared crc faulty w v ∧ data.length ≤ 28 ∧
        r = appendBlock crc v (writeBuffer name ext data) := by
  rcases fsWriteWith_cases h with hr | ⟨v, hv, hlen, hr⟩
  · exact Or.inl hr
  · refine Or.inr ⟨v, ?_, hlen, hr⟩
    cases hv with
    | room hroom => exact .room hroom
    | switch s v hfull hnext hv =>
      rcases nested_cases faulty hs (nextNotFull_some hnext) (fun hpt => hch _ (by
        simpa [Call.chooses, hpt, hnext, hfull, fsBlockSize] using hlen)) hv with
        ⟨hc, hidle⟩ | ⟨hc, rfl⟩
      · exact .idled s v hfull hnext hc hidle
      · exact .copied s hfull hnext hc

theorem fsWrite_turns {name : BitVec 16} {ext : BitVec 8} {data : List Byte} {r : Int × World}
    (hs : Steady w.fs)
    (hch : ∀ fs, (Call.write name ext data ans).chooses w = some fs → Candidate fs)
    (hok : faulty ∨ (Roomy w.fs ∧ SlotFor w (.write name ext data ans)))
    (h : fsWrite crc ans n w name ext data = some r) : Turns crc faulty w r.2 := by
  rcases fsWrite_cases faulty hs hch h with ⟨-, hr, -⟩ | ⟨v, hv, hlen, rfl⟩
  · rw [hr]
    exact .single (.refuse w r.1)
  · obtain ⟨ht, hkeys, hopen⟩ := hv.turns hs (hok.imp_right And.left)
    by_cases hk : HasSlot v.fs (writeBuffer name ext data).header.key
    · exact ht.tail (.append v _ hk hopen)
    · refine ht.tail (.reject v _ (hok.resolve_right fun hok => hk ?_) hk)
      have hslot : HasSlot w.fs (name, ext.setWidth 3) := hok.2 hlen hv.exists_room
      exact hslot.congr hkeys

/-- The block is handed to `fs_write` with the current sector full. -/
theorem relocWrite_ran {r : PtCode × World} (hs : Steady w.fs)
    (hfull : w.fs.SectorIsFull w.fs.curr.sector)
    (hcopy : Copying w.fs ∨ (w.fs.pt = .yieldRetry ∧ ∀ s, w.fs.SectorIsFull s))
    (h : relocWrite (fsWriteWith crc fun w => (fsThread crc ans n true w).map Prod.snd) w =
      some r) : Ran crc faulty w r.2 := by
  cases hw : fsWriteWith crc (fun w => (fsThread crc ans n true w).map Prod.snd) w
    w.fs.reloc.fd.header.name (w.fs.reloc.fd.header.ext.setWidth 8)
    (List.ofFn w.fs.reloc.buffer.data) with
  | none =>
    unfold relocWrite at h
    simp only [hw] at h
    cases h
  | some q =>
    rcases fsWriteWith_cases hw with ⟨hneg, hq, hwhy⟩ | ⟨v, hreach, -, hq⟩
    · have hall : ∀ s, w.fs.SectorIsFull s := hwhy.resolve_left (by simp)
      unfold relocWrite at h
      simp only [hw, if_pos hneg] at h
      obtain rfl := Option.some.inj h
      rw [hq]
      exact .stuck q.1 hall (hcopy.imp_right And.left)
    · cases hreach with
      | room hroom => exact absurd hfull hroom
      | switch s _ _ hnext hnest =>
        have hfree : ¬ w.fs.SectorIsFull s := nextNotFull_some hnext
        have hc : Copying w.fs := hcopy.resolve_right fun hr => hfree (hr.2 s)
        have hstart : w.fs.pt = .yieldStart → Candidate (w.setSector s).fs := by
          intro hpt
          rw [hc.1] at hpt
          cases hpt
        -- the nested activation has made the copy
        obtain ⟨-, rfl⟩ : Copying w.fs ∧ v = (w.setSector s).relocate crc :=
          (nested_cases faulty hs hfree hstart hnest).resolve_left fun hno => hno.1 hc
        have hturn : Turn crc faulty w (w.setSector s) := .switch w s hfree
        have hs' := hturn.steady hs
        have hsv := hs'.relocate crc faulty hc hfree
        have hreloc : ((w.setSector s).relocate crc).fs.reloc = w.fs.reloc :=
          (hs'.relocated crc hc).reloc
        have hslot := (hs'.relocate_twice crc hc hfree).1
        rw [hreloc] at hslot
        rw [relocWrite_append (hw.trans (congrArg some hq))
          (((hsv.turns.steady hs').tidy.slot _).2 hslot)] at h
        obtain rfl := Option.some.inj h
        rw [← hreloc]
        exact .doubled s hc hfull hnext

theorem fsThread_ran {r : PtCode × World} (hs : Steady w.fs)
    (hstart : w.fs.pt = .yieldStart → Candidate w.fs) (h : fsThread crc ans n false w = some r) :
    Ran crc faulty w r.2 := by
  obtain ⟨m, hm⟩ := fsThread_unfold h
  by_cases hfull : w.fs.SectorIsFull w.fs.curr.sector
  · by_cases hc : Copying w.fs
    · obtain ⟨hpt, fd, hg, ha⟩ := hc
      rw [fsThreadWith_yieldRead _ ans false hpt hg, if_pos ha] at hm
      exact relocWrite_ran hs hfull (Or.inl ⟨hpt, fd, hg, ha⟩) hm
    · by_cases hpt : w.fs.pt = .yieldRetry
      · have hu := hs.underway
        unfold Underway at hu
        rw [hpt] at hu
        rw [fsThreadWith_yieldRetry _ ans false hpt] at hm
        exact relocWrite_ran hs hfull (Or.inr ⟨hpt, hu.2.2.2⟩) hm
      · exact .idled _ hc hpt (fsThreadWith_idled ans hs hstart hc hpt hm)
  · rcases fsThreadWith_open faulty ans hs hstart hfull hm with ⟨hc, hidle⟩ | ⟨hc, he⟩
    · refine .idled _ hc (fun hpt => ?_) hidle
      have hu := hs.underway
      unfold Underway at hu
      rw [hpt] at hu
      exact hfull (hu.2.2.2 _)
    · rw [he]
      exact .copied hc hfull

theorem Ran.turns (hs : Steady w.fs) (hok : faulty ∨ Roomy w.fs) (h : Ran crc faulty w v) :
    Turns crc faulty w v := by
  cases h with
  | idled _ _ _ hidle => exact hidle.turns
  | stuck q hall hpt =>
    have hcur : Victim w.fs ∧ Moved w.fs w.fs.reloc.fdIndex ∧ ∃ fd, Tracked w.fs fd := by
      rcases hpt with hc | hpt
      · exact hs.copying hc
      · have hu := hs.underway
        unfold Underway at hu
        rw [hpt] at hu
        exact ⟨hu.1, hu.2.1, hu.2.2.1⟩
    obtain ⟨hv, hm, fd, ht⟩ := hcur
    exact .tail (.single (.refuse w q)) (.resume _ w.fs.reloc .yieldRetry
      ⟨⟨hv.full, hv.notCurrent⟩, hm, ⟨fd, ht.get, ht.key, ht.stays⟩, hall⟩)
  | copied hc hroom => exact (hs.relocate crc faulty hc hroom).turns
  | doubled s hc hfull hnext =>
    obtain ⟨hcopied, hopen⟩ := hs.relocate_open crc hc hfull hnext hok
    have hfree : ¬ w.fs.SectorIsFull s := nextNotFull_some hnext
    have hturn : Turn crc faulty w (w.setSector s) := .switch w s hfree
    obtain ⟨hslot, he, -⟩ := (hturn.steady hs).relocate_twice crc hc hfree
    rw [he]
    exact .head hturn (hcopied.turns.tail (.append _ _ hslot hopen))

theorem fsThread_turns {r : PtCode × World} (hs : Steady w.fs)
    (hstart : w.fs.pt = .yieldStart → Candidate w.fs) (hok : faulty ∨ Roomy w.fs)
    (h : fsThread crc ans n false w = some r) : Turns crc faulty w r.2 :=
  (fsThread_ran hs hstart h).turns hs hok

theorem exec_turns {c : Call} {r : Result} {w' : World} (hs : Steady w.fs)
    (hch : ∀ fs, c.chooses w = some fs → Candidate fs)
    (hok : faulty ∨ (Roomy w.fs ∧ SlotFor w c)) (h : c.exec crc n w = some (r, w')) :
    Turns crc faulty w w' := by
  cases c with
  | write name ext data ans =>
    obtain ⟨q, hq, he⟩ := Option.map_eq_some_iff.1 h
    obtain rfl := congrArg Prod.snd he
    exact fsWrite_turns hs hch hok hq
  | read name ext len =>
    obtain rfl := congrArg Prod.snd (Option.some.inj h)
    exact .refl
  | thread ans =>
    obtain ⟨q, hq, he⟩ := Option.map_eq_some_iff.1 h
    obtain rfl := congrArg Prod.snd he
    exact fsThread_turns hs (fun hpt => hch _ (if_pos hpt)) (hok.imp_right And.left) hq

end calls

/-! ## With the invariant -/

theorem Inv.steady {fs : Fs} {f : Mem} (hi : Inv crc fs f) : Steady fs := by
  have hx := hi.index
  refine ⟨⟨hx.len, hx.nodup, hi.shape.lo, fun s => ?_, hi.shape.aligned, fun fd hm => ?_,
    fun fd hm fd' hm' _ ha => hx.eq_of_address hm hm' ha⟩, (suspended_iff.1 hi.thread).1⟩
  · have := hi.shape.hi s
    omega
  · have hin := hx.sector fd hm
    have hbelow := hi.shape.below_of_copy hin (hx.copy hm)
    have hcell := hx.cell fd hm
    unfold IsCell at hcell
    exact ⟨hin.1, hbelow, by omega⟩

theorem Inv.candidate {fs : Fs} {f : Mem} (hi : Inv crc fs f) : Candidate fs := by
  by_cases hb : blankOthers fs < 2
  · obtain ⟨s, hs, hle⟩ := exists_fullOther hi.shape hi.index hb
    exact Or.inr ⟨s, hs, by show liveIn fs s < 128; omega⟩
  · exact Or.inl (Nat.not_lt.1 hb)

theorem Inv.chooses {w : World} (hi : Inv crc w.fs w.flash) {c : Call} {fs : Fs}
    (h : c.chooses w = some fs) : Candidate fs := by
  unfold Call.chooses at h
  cases c with
  | write name ext data ans =>
    simp only at h
    split at h
    · next hfull =>
      obtain ⟨s, hs, rfl⟩ := Option.map_eq_some_iff.1 h
      exact (hi.setSector hfull.2.2 (nextNotFull_some hs)).1.candidate
    · cases h
  | read name ext len => cases h
  | thread ans =>
    simp only at h
    split at h
    · obtain rfl := Option.some.inj h
      exact hi.candidate
    · cases h

/-- The value that is due to be copied is the one of its key. -/
theorem Inv.copying {fs : Fs} {f : Mem} (hi : Inv crc fs f) (hc : Copying fs) :
    contents fs f fs.reloc.fd.header.key = some fs.reloc.buffer.data := by
  obtain ⟨hpt, fd, hg, ha⟩ := hc
  exact (hi.carries hpt hg ha).value

end Wormvars
