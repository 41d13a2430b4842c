import Wormvars.Calls

/-!
# The supply of cells

`cellsUsed fs s` counts the cells of sector `s` below its append pointer.  An
append takes one cell of the current sector (`Placed.cellsUsed`), a switch takes
one blank sector (`blankOthers_setSector`), an erase gives one back
(`blankOthers_erase`).

`keysIn P fs s` counts the descriptors in `s` whose key satisfies `P`; an append
changes it by at most one (`Placed.keysIn_le`, `Placed.keysIn_new`).
-/

namespace Wormvars

open NorFlash

variable {crc : Block → BitVec 32}

/-! ## Cells -/

def cellsUsed (fs : Fs) (s : Fin 8) : Nat := (fs.curr.address s - sectorBase s) / 32

/-- The cells left in the current sector. -/
def freeCells (fs : Fs) : Nat := 128 - cellsUsed fs fs.curr.sector

section cells
variable {fs fs' : Fs} {f : Mem} {s : Fin 8}

theorem Shape.address_eq (hs : Shape fs.curr f) (s : Fin 8) :
    fs.curr.address s = sectorBase s + 32 * cellsUsed fs s ∧ cellsUsed fs s ≤ 128 := by
  have h₁ := hs.lo s
  have h₂ := hs.hi s
  have h₃ := hs.aligned s
  have h₄ := sectorBase_mod s
  unfold cellsUsed
  omega

theorem Shape.full_iff (hs : Shape fs.curr f) (s : Fin 8) :
    fs.SectorIsFull s ↔ cellsUsed fs s = 128 := by
  have h := hs.address_eq s
  unfold Fs.SectorIsFull filesystemSectorSize
  omega

theorem Shape.blank_iff (hs : Shape fs.curr f) (s : Fin 8) :
    fs.SectorIsBlank s ↔ cellsUsed fs s = 0 := by
  have h := hs.address_eq s
  unfold Fs.SectorIsBlank
  omega

theorem Shape.room_iff (hs : Shape fs.curr f) :
    ¬ fs.SectorIsFull fs.curr.sector ↔ 0 < freeCells fs := by
  have h := (hs.address_eq fs.curr.sector).2
  rw [hs.full_iff]
  unfold freeCells
  omega

theorem cellsUsed_congr (h : fs'.curr.address s = fs.curr.address s) :
    cellsUsed fs' s = cellsUsed fs s := by
  unfold cellsUsed
  rw [h]

theorem Placed.cellsUsed {k : Key} (hp : Placed k fs fs') (hs : Shape fs.curr f) (s : Fin 8) :
    cellsUsed fs' s = Wormvars.cellsUsed fs s + if s = fs.curr.sector then 1 else 0 := by
  by_cases h : s = fs.curr.sector
  · subst h
    have h₁ := hp.address_self
    have h₂ := hs.lo fs.curr.sector
    rw [if_pos rfl]
    unfold Wormvars.cellsUsed
    omega
  · rw [if_neg h, Nat.add_zero]
    exact cellsUsed_congr (hp.address_ne h)

theorem Placed.freeCells {k : Key} (hp : Placed k fs fs') (hs : Shape fs.curr f) :
    freeCells fs' = Wormvars.freeCells fs - 1 := by
  have h := hp.cellsUsed hs fs.curr.sector
  rw [if_pos rfl] at h
  unfold Wormvars.freeCells
  rw [hp.sector]
  omega

theorem cellsUsed_erase (w : World) (s : Fin 8) :
    cellsUsed w.eraseVictim.fs s = if s = w.fs.reloc.sector then 0 else cellsUsed w.fs s := by
  by_cases h : s = w.fs.reloc.sector
  · subst h
    rw [if_pos rfl]
    unfold cellsUsed
    rw [show w.eraseVictim.fs.curr.address w.fs.reloc.sector = sectorBase w.fs.reloc.sector from
      Curr.setAddress_self _ _ _]
    omega
  · rw [if_neg h]
    exact cellsUsed_congr (Curr.setAddress_ne _ _ h)

end cells

/-! ## Blank sectors -/

section blank
variable {fs fs' : Fs} {f : Mem}

theorem blankOthers_eq (fs : Fs) : blankOthers fs = (Finset.univ.filter (BlankOther fs)).card :=
  countP_sectors _

theorem blankOthers_congr (h : ∀ s, BlankOther fs' s ↔ BlankOther fs s) :
    blankOthers fs' = blankOthers fs := by
  rw [blankOthers_eq, blankOthers_eq]
  congr 1
  ext s
  simp only [Finset.mem_filter, Finset.mem_univ, true_and]
  exact h s

theorem Placed.blankOthers {k : Key} (hp : Placed k fs fs') :
    blankOthers fs' = Wormvars.blankOthers fs := by
  apply blankOthers_congr
  intro s
  unfold BlankOther Fs.SectorIsBlank
  rw [hp.sector]
  exact and_congr_right fun hne => by rw [hp.address_ne hne]

theorem blankOthers_setSector {w : World} {s : Fin 8} (hs : BlankOther w.fs s)
    (hfull : w.fs.SectorIsFull w.fs.curr.sector) :
    blankOthers (w.setSector s).fs + 1 = blankOthers w.fs := by
  have he : Finset.univ.filter (BlankOther (w.setSector s).fs) =
      (Finset.univ.filter (BlankOther w.fs)).erase s := by
    ext t
    simp only [Finset.mem_filter, Finset.mem_univ, true_and, Finset.mem_erase]
    constructor
    · rintro ⟨hne, hb⟩
      refine ⟨hne, fun (he : t = w.fs.curr.sector) => ?_, hb⟩
      subst he
      exact not_full_of_blank hb hfull
    · rintro ⟨hne, -, hb⟩
      exact ⟨hne, hb⟩
  rw [blankOthers_eq, blankOthers_eq, he]
  exact Finset.card_erase_add_one (by simpa using hs)

theorem blankOthers_erase {w : World} (hv : Victim w.fs) :
    blankOthers w.eraseVictim.fs = blankOthers w.fs + 1 := by
  have hnot : ¬ BlankOther w.fs w.fs.reloc.sector := fun h => not_full_of_blank h.2 hv.full
  have he : Finset.univ.filter (BlankOther w.eraseVictim.fs) =
      insert w.fs.reloc.sector (Finset.univ.filter (BlankOther w.fs)) := by
    ext t
    simp only [Finset.mem_filter, Finset.mem_univ, true_and, Finset.mem_insert]
    by_cases ht : t = w.fs.reloc.sector
    · subst ht
      exact iff_of_true ⟨hv.notCurrent, Curr.setAddress_self _ _ _⟩ (Or.inl rfl)
    · rw [or_iff_right ht]
      unfold BlankOther Fs.SectorIsBlank
      rw [show w.eraseVictim.fs.curr.address t = w.fs.curr.address t from
        Curr.setAddress_ne _ _ ht]
      exact Iff.rfl
  rw [blankOthers_eq, blankOthers_eq, he]
  exact Finset.card_insert_of_notMem (by simpa using hnot)

/-- A sector that is not full and not the current one is blank. -/
theorem Shape.blankOther (hs : Shape fs.curr f) {s : Fin 8}
    (hfull : fs.SectorIsFull fs.curr.sector) (h : ¬ fs.SectorIsFull s) : BlankOther fs s := by
  have hne : s ≠ fs.curr.sector := by
    rintro rfl
    exact h hfull
  exact ⟨hne, blank_of_not_full hs hne h⟩

theorem exists_blankOther (h : 0 < blankOthers fs) : ∃ s, BlankOther fs s := by
  rw [blankOthers_eq, Finset.card_pos] at h
  obtain ⟨s, hs⟩ := h
  exact ⟨s, (Finset.mem_filter.1 hs).2⟩

end blank

/-! ## Descriptors of some keys -/

/-- The descriptors in sector `s` whose key satisfies `P`. -/
def keysIn (P : Key → Prop) [DecidablePred P] (fs : Fs) (s : Fin 8) : Nat :=
  fs.fd.countP fun fd => decide (fd.sector = s) && decide (P fd.header.key)

section keysIn
variable {P : Key → Prop} [DecidablePred P] {fs fs' : Fs} {s : Fin 8}

theorem exists_keysIn (h : 0 < keysIn P fs s) : ∃ fd ∈ fs.fd, fd.sector = s := by
  obtain ⟨fd, hm, hp⟩ := List.countP_pos_iff.1 h
  simp only [Bool.and_eq_true, decide_eq_true_eq] at hp
  exact ⟨fd, hm, hp.1⟩

/-- An append takes at most one descriptor away from a sector, from the current one none, and none
whose key does not satisfy `P`. -/
theorem Placed.keysIn_le {k : Key} (hp : Placed k fs fs') (s : Fin 8) :
    keysIn P fs s ≤ keysIn P fs' s + if s = fs.curr.sector ∨ ¬ P k then 0 else 1 := by
  obtain ⟨i, new, hs, hfd, hk, hsec, -⟩ := hp.fd
  unfold keysIn
  rw [hfd]
  unfold putFd
  split
  · rw [List.countP_append]
    omega
  · next hne =>
    have hi : i < fs.fd.length := by
      have := hs.le
      omega
    rw [List.countP_set hi]
    have hold : fs.fd[i].header.key = k := by
      rcases hs with ⟨fd, hg, hk⟩ | ⟨he, -⟩
      · rw [List.getElem?_eq_getElem hi] at hg
        rw [Option.some.inj hg, hk]
      · exact absurd he hne
    rw [hk, hold, hsec]
    by_cases hc : s = fs.curr.sector ∨ ¬ P k
    · rw [if_pos hc]
      rcases hc with rfl | hc
      · by_cases hP : P k
        · simp only [hP, decide_true, Bool.and_true]
          split <;> simp
          omega
        · simp [hP]
      · simp [hc]
    · rw [if_neg hc]
      split <;> omega

/-- The first write of a key. -/
theorem Placed.keysIn_new {k : Key} (hp : Placed k fs fs') (hk : k ∉ Wormvars.keys fs) (hP : P k) :
    keysIn P fs' fs.curr.sector = keysIn P fs fs.curr.sector + 1 ∧
      ∀ s, keysIn P fs s ≤ keysIn P fs' s := by
  obtain ⟨i, new, hs, hfd, hnew, hsec, -⟩ := hp.fd
  have hi : i = fs.fd.length := by
    rcases hs with ⟨fd, hg, hk'⟩ | ⟨he, -⟩
    · exact absurd (List.mem_map.2 ⟨fd, List.mem_of_getElem? hg, hk'⟩) hk
    · exact he
  unfold keysIn
  rw [hfd]
  unfold putFd
  rw [if_pos hi]
  simp only [List.countP_append]
  refine ⟨?_, fun s => Nat.le_add_right _ _⟩
  rw [List.countP_singleton, hsec, hnew]
  simp [hP]

end keysIn

/-! ## All cells -/

/-- The cells used in all sectors. -/
def totalUsed (fs : Fs) : Nat := ∑ s, cellsUsed fs s

section total
variable {w w' : World} {fs fs' : Fs} {f : Mem}

theorem Placed.totalUsed {k : Key} (hp : Placed k fs fs') (hs : Shape fs.curr f) :
    totalUsed fs' = Wormvars.totalUsed fs + 1 := by
  unfold Wormvars.totalUsed
  simp only [hp.cellsUsed hs, Finset.sum_add_distrib, Finset.sum_ite_eq', Finset.mem_univ, if_true]

/-- Once as many cells are used as there are, every sector is full. -/
theorem full_of_totalUsed (hs : Shape fs.curr f) (ht : 1024 ≤ totalUsed fs) (s : Fin 8) :
    fs.SectorIsFull s := by
  rw [hs.full_iff]
  by_contra hne
  have hlt : totalUsed fs < ∑ _ : Fin 8, 128 := by
    refine Finset.sum_lt_sum (fun t _ => (hs.address_eq t).2) ⟨s, Finset.mem_univ s, ?_⟩
    have := (hs.address_eq s).2
    omega
  simp at hlt
  omega

theorem totalUsed_of_full (hs : Shape fs.curr f) (hfull : ∀ s, fs.SectorIsFull s) :
    totalUsed fs = 1024 := by
  have h128 : ∀ s ∈ Finset.univ, cellsUsed fs s = 128 := fun s _ => (hs.full_iff s).1 (hfull s)
  unfold totalUsed
  rw [Finset.sum_congr rfl h128]
  simp

/-- `fs_thread` takes a cell for each copy. -/
theorem Move.totalUsed_le {k : Nat} (hm : Move crc k w w') (hi : Inv crc w.fs w.flash) :
    totalUsed w'.fs ≤ totalUsed w.fs + k := by
  cases hm with
  | resume => exact Nat.le_add_right (totalUsed w.fs) 0
  | relocate _ hroom hc =>
    have hp : totalUsed (w.relocate crc).fs = totalUsed w.fs + 1 :=
      (relocate_placed hi hc).totalUsed hi.shape
    omega
  | erase =>
    have hle : totalUsed w.eraseVictim.fs ≤ totalUsed w.fs := by
      unfold totalUsed
      refine Finset.sum_le_sum fun s _ => ?_
      rw [cellsUsed_erase]
      split
      · exact Nat.zero_le _
      · exact Nat.le_refl _
    exact Nat.le_add_right_of_le hle
  | retry => exact Nat.le_add_right (totalUsed w.fs) 0
  | switch => exact Nat.le_add_right (totalUsed w.fs) 0

theorem Moves.totalUsed_le {k : Nat} (hm : Moves crc k w w') (hi : Inv crc w.fs w.flash) :
    totalUsed w'.fs ≤ totalUsed w.fs + k := by
  induction hm with
  | refl => exact Nat.le_add_right _ 0
  | tail hm h ih =>
    have h₁ := ih hi
    have h₂ := h.totalUsed_le (hm.spec hi).1
    omega

/-- A write takes a cell, and one more if `fs_thread` runs inside it. -/
theorem WriteEnds.totalUsed_le {name : BitVec 16} {ext : BitVec 8} {data : List Byte}
    {r : Int × World} (h : WriteEnds crc w name ext data r) (hi : Inv crc w.fs w.flash) :
    totalUsed r.2.fs ≤ totalUsed w.fs + 2 := by
  cases h with
  | tooLong => exact Nat.le_add_right (totalUsed w.fs) 2
  | allFull => exact Nat.le_add_right (totalUsed w.fs) 2
  | room _ hroom hslot =>
    have := (append_placed data hi hslot).totalUsed hi.shape
    show totalUsed (appendBlock crc w (writeBuffer name ext data)).2.fs ≤ _
    omega
  | switched s v _ hfull hs hv _ hslot =>
    have hi₁ := (hi.setSector hfull hs).1
    obtain ⟨m, hm, hmoves⟩ := hv.moves
    have hi₂ := (hmoves.spec hi₁).1
    have h₁ : totalUsed v.fs ≤ totalUsed w.fs + m := hmoves.totalUsed_le hi₁
    have h₂ := (append_placed data hi₂ hslot).totalUsed hi₂.shape
    show totalUsed (appendBlock crc v (writeBuffer name ext data)).2.fs ≤ _
    omega

end total

end Wormvars
