import Mathlib.Algebra.BigOperators.Fin
import Mathlib.Algebra.Order.BigOperators.Group.Finset
import Mathlib.Data.List.Perm.Subperm
import Wormvars.Append

/-!
# The sector to relocate

`findRelocSector` counts the blank sectors and the descriptors of the full ones.
It asks for no relocation iff two sectors other than the current one are blank
(`findRelocSector_none`); otherwise at least six are full, and 300 descriptors
leave one of them with at most 50 (`exists_fullOther`), so the 8-bit counters do
not wrap where it matters and the sector chosen is full, is not the current one
and has fewest descriptors (`findRelocSector_chosen`).

Without the shape that the code gives the flash there may be no candidate, and then
it is sector 0 that is returned (`findRelocSector_some`).
-/

namespace Wormvars

open NorFlash

/-! ## Blank and full sectors -/

def BlankOther (fs : Fs) (s : Fin 8) : Prop := s ≠ fs.curr.sector ∧ fs.SectorIsBlank s

def FullOther (fs : Fs) (s : Fin 8) : Prop := s ≠ fs.curr.sector ∧ fs.SectorIsFull s

instance (fs : Fs) (s : Fin 8) : Decidable (BlankOther fs s) := inferInstanceAs (Decidable (_ ∧ _))

instance (fs : Fs) (s : Fin 8) : Decidable (FullOther fs s) := inferInstanceAs (Decidable (_ ∧ _))

/-- The number of blank sectors other than the current one. -/
def blankOthers (fs : Fs) : Nat := sectors.countP fun s => BlankOther fs s

/-- The number of descriptors in sector `s`. -/
def liveIn (fs : Fs) (s : Fin 8) : Nat := fs.fd.countP fun fd => fd.sector = s

theorem mem_sectors (s : Fin 8) : s ∈ sectors := by
  revert s
  decide

theorem not_full_of_blank {fs : Fs} {s : Fin 8} (h : fs.SectorIsBlank s) :
    ¬ fs.SectorIsFull s := by
  unfold Fs.SectorIsBlank at h
  unfold Fs.SectorIsFull filesystemSectorSize
  omega

theorem countP_sectors (p : Fin 8 → Prop) [DecidablePred p] :
    sectors.countP (fun s => p s) = (Finset.univ.filter p).card := by
  have hnd : (sectors.filter fun s => p s).Nodup := List.Nodup.filter _ (by decide)
  rw [List.countP_eq_length_filter, ← List.toFinset_card_of_nodup hnd]
  congr 1
  ext s
  simp [mem_sectors]

/-! ## The loops of `findRelocSector` -/

theorem fullSectors_eq (fs : Fs) (l : List (Fin 8)) (n : Nat) (full : Fin 8 → Bool) (hn : n < 2) :
    fullSectors fs l n full =
      if 2 ≤ n + l.countP (fun s => BlankOther fs s) then none
      else some fun s => full s || (decide (s ∈ l) && decide (FullOther fs s)) := by
  induction l generalizing n full with
  | nil => simp [fullSectors, Nat.not_le.2 hn]
  | cons s l ih =>
    unfold fullSectors
    by_cases hc : s = fs.curr.sector
    · -- the current sector is passed over
      have hb : ¬ BlankOther fs s := fun h => h.1 hc
      have hf : ¬ FullOther fs s := fun h => h.1 hc
      rw [if_pos hc, ih n full hn, List.countP_cons_of_neg (by simpa using hb)]
      congr 2
      funext t
      by_cases ht : t = s
      · subst ht; simp [hf]
      · simp [ht]
    · rw [if_neg hc]
      by_cases hbl : fs.SectorIsBlank s
      · have hb : BlankOther fs s := ⟨hc, hbl⟩
        have hf : ¬ FullOther fs s := fun h => not_full_of_blank hbl h.2
        rw [if_pos hbl, List.countP_cons_of_pos (by simpa using hb)]
        unfold fsMinBlankSectors
        by_cases h2 : n + 1 = 2
        · rw [if_pos h2, if_pos (by omega)]
        · rw [if_neg h2, ih (n + 1) full (by omega)]
          congr 1
          · exact propext (by omega)
          · congr 1
            funext t
            by_cases ht : t = s
            · subst ht; simp [hf]
            · simp [ht]
      · have hb : ¬ BlankOther fs s := fun h => hbl h.2
        rw [if_neg hbl, List.countP_cons_of_neg (by simpa using hb)]
        by_cases hfl : fs.SectorIsFull s
        · have hf : FullOther fs s := ⟨hc, hfl⟩
          rw [if_pos hfl, ih n _ hn]
          congr 2
          funext t
          by_cases ht : t = s
          · subst ht; simp [hf]
          · simp [ht]
        · have hf : ¬ FullOther fs s := fun h => hfl h.2
          rw [if_neg hfl, ih n full hn]
          congr 2
          funext t
          by_cases ht : t = s
          · subst ht; simp [hf]
          · simp [ht]

theorem fdCounts_foldl (full : Fin 8 → Bool) (l : List FileDescriptor) (count : Fin 8 → Nat)
    (s : Fin 8) (hc : count s < 256) :
    l.foldl (fun count fd =>
      if full fd.sector then
        fun s => if s = fd.sector then (count s + 1) % 256 else count s
      else count) count s =
      if full s then (count s + l.countP fun fd => fd.sector = s) % 256 else count s := by
  induction l generalizing count with
  | nil => simp [Nat.mod_eq_of_lt hc]
  | cons fd l ih =>
    rw [List.foldl_cons]
    by_cases hf : full fd.sector
    · rw [if_pos hf, ih (fun s => if s = fd.sector then (count s + 1) % 256 else count s)
        (by split <;> omega)]
      by_cases hs : s = fd.sector
      · subst hs
        rw [if_pos hf, if_pos hf, if_pos rfl, List.countP_cons_of_pos (by simp)]
        omega
      · rw [if_neg hs, List.countP_cons_of_neg (by simpa using Ne.symm hs)]
    · rw [if_neg hf, ih _ hc]
      by_cases hs : s = fd.sector
      · subst hs
        rw [if_neg hf, if_neg hf]
      · rw [List.countP_cons_of_neg (by simpa using Ne.symm hs)]

theorem fdCounts_eq (full : Fin 8 → Bool) (l : List FileDescriptor) (s : Fin 8) (hf : full s) :
    fdCounts full l s = (l.countP fun fd => fd.sector = s) % 256 := by
  unfold fdCounts
  rw [fdCounts_foldl full l _ s (by simp), if_pos hf, Nat.zero_add]

/-- The last loop finds the first of the least counts, if there is one below its start value. -/
theorem relocCandidate_foldl (curr : Fin 8) (full : Fin 8 → Bool) (count : Fin 8 → Nat)
    (l : List (Fin 8)) (best : Nat × Fin 8) :
    (l.foldl (relocCandidate curr full count) best = best ∧
      ∀ s ∈ l, full (curr + s) → best.1 ≤ count (curr + s)) ∨
    ∃ before t after, l = before ++ t :: after ∧
      l.foldl (relocCandidate curr full count) best = (count (curr + t), curr + t) ∧
      full (curr + t) ∧ count (curr + t) < best.1 ∧
      (∀ s ∈ before, full (curr + s) → count (curr + t) < count (curr + s)) ∧
      ∀ s ∈ after, full (curr + s) → count (curr + t) ≤ count (curr + s) := by
  induction l generalizing best with
  | nil => exact Or.inl ⟨rfl, fun _ h => by simp at h⟩
  | cons u l ih =>
    rw [List.foldl_cons]
    by_cases hc : full (curr + u) ∧ count (curr + u) < best.1
    · have hb : relocCandidate curr full count best u = (count (curr + u), curr + u) := by
        unfold relocCandidate
        simp only [if_pos hc]
      rw [hb]
      right
      rcases ih (count (curr + u), curr + u) with
        ⟨he, hle⟩ | ⟨before, t, after, hl, he, hf, hlt, hbef, haft⟩
      · exact ⟨[], u, l, rfl, he, hc.1, hc.2, fun _ h => by simp at h, hle⟩
      · refine ⟨u :: before, t, after, by rw [hl]; rfl, he, hf, hlt.trans hc.2, ?_, haft⟩
        intro s hs hfs
        rcases List.mem_cons.1 hs with rfl | hs
        · exact hlt
        · exact hbef s hs hfs
    · have hb : relocCandidate curr full count best u = best := by
        unfold relocCandidate
        simp only [if_neg hc]
      have hu : full (curr + u) → best.1 ≤ count (curr + u) :=
        fun hf => Nat.not_lt.1 fun hlt => hc ⟨hf, hlt⟩
      rw [hb]
      rcases ih best with ⟨he, hle⟩ | ⟨before, t, after, hl, he, hf, hlt, hbef, haft⟩
      · refine Or.inl ⟨he, fun s hs hfs => ?_⟩
        rcases List.mem_cons.1 hs with rfl | hs
        · exact hu hfs
        · exact hle s hs hfs
      · refine Or.inr ⟨u :: before, t, after, by rw [hl]; rfl, he, hf, hlt, ?_, haft⟩
        intro s hs hfs
        rcases List.mem_cons.1 hs with rfl | hs
        · exact Nat.lt_of_lt_of_le hlt (hu hfs)
        · exact hbef s hs hfs

/-! ## What `findRelocSector` returns -/

theorem findRelocSector_none (fs : Fs) : findRelocSector fs = none ↔ 2 ≤ blankOthers fs := by
  unfold findRelocSector
  rw [fullSectors_eq fs sectors 0 _ (by omega), Nat.zero_add]
  unfold blankOthers
  split
  · next h =>
    split at h
    · next h2 => exact ⟨fun _ => h2, fun _ => rfl⟩
    · cases h
  · next h =>
    split at h
    · cases h
    · next h2 => exact ⟨fun h' => (by cases h'), fun h' => absurd h' h2⟩

/-- `S` is full, is not the current sector and has fewest descriptors of all such sectors. -/
structure Chosen (fs : Fs) (S : Fin 8) : Prop where
  full : FullOther fs S
  least : ∀ s, FullOther fs s → liveIn fs S ≤ liveIn fs s

/-- `S` is the first such sector in circular order from the current one, and has a descriptor less
than it has cells. -/
structure Optimal (fs : Fs) (S : Fin 8) : Prop where
  full : FullOther fs S
  few : liveIn fs S < fdsPerSector
  least : ∀ s, FullOther fs s → liveIn fs S ≤ liveIn fs s
  first : ∀ s, FullOther fs s → liveIn fs s = liveIn fs S →
    S - fs.curr.sector ≤ s - fs.curr.sector

/-- As long as the 8-bit counters do not wrap the choice is optimal, or there was none. -/
theorem findRelocSector_some {fs : Fs} (hlive : ∀ s, liveIn fs s < 256) (hb : blankOthers fs < 2) :
    (findRelocSector fs = some 0 ∧ ∀ s, FullOther fs s → fdsPerSector ≤ liveIn fs s) ∨
      ∃ S, findRelocSector fs = some S ∧ Optimal fs S := by
  unfold findRelocSector
  rw [fullSectors_eq fs sectors 0 _ (by omega), Nat.zero_add]
  unfold blankOthers at hb
  rw [if_neg (by omega)]
  simp only
  generalize hfull : (fun s => false || (decide (s ∈ sectors) && decide (FullOther fs s))) = full
  have hf : ∀ s, full s = true ↔ FullOther fs s := by
    intro s
    subst hfull
    simp [mem_sectors]
  have hcount : ∀ s, full s = true → fdCounts full fs.fd s = liveIn fs s := by
    intro s hs
    rw [fdCounts_eq _ _ _ hs]
    exact Nat.mod_eq_of_lt (hlive s)
  have hturn : ∀ s, fs.curr.sector + (s - fs.curr.sector) = s := by
    intro s
    omega
  rcases relocCandidate_foldl fs.curr.sector full (fdCounts full fs.fd) sectors
    (fdsPerSector, 0) with ⟨he, hle⟩ | ⟨before, t, after, hl, he, hft, hlt, hbef, haft⟩
  · -- the start value was not beaten
    refine Or.inl ⟨by rw [he], fun s hs => ?_⟩
    have := hle (s - fs.curr.sector) (mem_sectors _)
    rw [hturn] at this
    rw [← hcount s ((hf s).2 hs)]
    exact this ((hf s).2 hs)
  · have hsorted : (before ++ t :: after).Pairwise (· < ·) := hl ▸ (by decide)
    have hafter : ∀ d ∈ after, t < d :=
      (List.pairwise_cons.1 (List.pairwise_append.1 hsorted).2.1).1
    -- where the other full sectors were visited
    have hvisit : ∀ s, FullOther fs s →
        (liveIn fs (fs.curr.sector + t) < liveIn fs s) ∨ s = fs.curr.sector + t ∨
          (t < s - fs.curr.sector ∧ liveIn fs (fs.curr.sector + t) ≤ liveIn fs s) := by
      intro s hs
      have hfs := (hf s).2 hs
      have hm := mem_sectors (s - fs.curr.sector)
      rw [hl, List.mem_append, List.mem_cons] at hm
      rw [← hcount s hfs, ← hcount _ hft]
      rcases hm with hm | hm | hm
      · left
        have := hbef _ hm
        rw [hturn] at this
        exact this hfs
      · right; left
        rw [← hm, hturn]
      · right; right
        have := haft _ hm
        rw [hturn] at this
        exact ⟨hafter _ hm, this hfs⟩
    have hsub : fs.curr.sector + t - fs.curr.sector = t := by omega
    refine Or.inr ⟨_, by rw [he], (hf _).1 hft, ?_, fun s hs => ?_, fun s hs heq => ?_⟩
    · rw [← hcount _ hft]
      exact hlt
    · rcases hvisit s hs with h | rfl | h
      · exact Nat.le_of_lt h
      · exact Nat.le_refl _
      · exact h.2
    · rw [hsub]
      rcases hvisit s hs with h | rfl | h
      · omega
      · rw [hsub]
      · exact Fin.le_of_lt h.1

theorem findRelocSector_chosen {fs : Fs} {S : Fin 8} (hlive : ∀ s, liveIn fs s ≤ 128)
    (hex : ∃ s, FullOther fs s ∧ liveIn fs s < 128) (h : findRelocSector fs = some S) :
    Chosen fs S := by
  have hb : blankOthers fs < 2 := by
    by_contra hge
    rw [(findRelocSector_none fs).2 (by omega)] at h
    cases h
  rcases findRelocSector_some (fun s => Nat.lt_of_le_of_lt (hlive s) (by omega)) hb with
    ⟨-, hno⟩ | ⟨T, hT, hopt⟩
  · obtain ⟨s, hs, hlt⟩ := hex
    have := hno s hs
    simp only [fdsPerSector, filesystemSectorSize, fsBlockSize] at this
    omega
  · obtain rfl := Option.some.inj (hT.symm.trans h)
    exact ⟨hopt.full, hopt.least⟩

/-! ## Counting -/

section counting
variable {crc : Block → BitVec 32} {fs : Fs} {f : Mem}

/-- Descriptors at different cells of a range: there are no more than cells. -/
theorem liveIn_le {s : Fin 8} {n : Nat} (hnd : (keys fs).Nodup)
    (hcell : ∀ fd ∈ fs.fd, fd.sector = s → sectorBase s ≤ fd.address ∧
      fd.address < sectorBase s + 32 * n ∧ fd.address % 32 = 0)
    (hapart : ∀ fd ∈ fs.fd, ∀ fd' ∈ fs.fd, fd.sector = s → fd'.sector = s →
      fd.address = fd'.address → fd = fd') : liveIn fs s ≤ n := by
  have hnd : ((fs.fd.filter fun fd => fd.sector = s).map fun fd => fd.address).Nodup := by
    refine List.Nodup.map_on ?_ (List.Nodup.filter _ (List.Nodup.of_map _ hnd))
    intro a ha b hb hab
    obtain ⟨hma, hsa⟩ := List.mem_filter.1 ha
    obtain ⟨hmb, hsb⟩ := List.mem_filter.1 hb
    exact hapart a hma b hmb (by simpa using hsa) (by simpa using hsb) hab
  have hsub : ((fs.fd.filter fun fd => fd.sector = s).map fun fd => fd.address) ⊆
      (List.range n).map fun i => sectorBase s + 32 * i := by
    intro a ha
    obtain ⟨fd, hm, rfl⟩ := List.mem_map.1 ha
    obtain ⟨hm, hsec⟩ := List.mem_filter.1 hm
    obtain ⟨h₁, h₂, h₃⟩ := hcell fd hm (by simpa using hsec)
    have h₄ := sectorBase_mod s
    exact List.mem_map.2 ⟨(fd.address - sectorBase s) / 32, List.mem_range.2 (by omega), by omega⟩
  have := (hnd.subperm hsub).length_le
  rw [List.length_map, List.length_map, List.length_range, ← List.countP_eq_length_filter] at this
  exact this

/-- A sector has 128 cells. -/
theorem Indexed.liveIn_le (hx : Indexed crc fs f) (s : Fin 8) : liveIn fs s ≤ 128 := by
  refine Wormvars.liveIn_le hx.nodup (fun fd hm hs => ?_)
    fun fd hm fd' hm' _ _ ha => hx.eq_of_address hm hm' ha
  have h₁ := hx.sector fd hm
  have h₂ := hx.cell fd hm
  rw [hs] at h₁
  unfold InSector at h₁
  unfold IsCell at h₂
  omega

theorem sum_liveIn (l : List FileDescriptor) :
    ∑ s : Fin 8, l.countP (fun fd => fd.sector = s) = l.length := by
  induction l with
  | nil => simp
  | cons fd l ih =>
    simp only [List.countP_cons, Finset.sum_add_distrib, ih, List.length_cons]
    simp

/-- Every sector is the current one, blank or full. -/
theorem Shape.partition (hs : Shape fs.curr f) (s : Fin 8) (hne : s ≠ fs.curr.sector) :
    BlankOther fs s ∨ FullOther fs s := by
  rcases hs.others s hne with h | h
  · exact Or.inl ⟨hne, h⟩
  · exact Or.inr ⟨hne, by unfold Fs.SectorIsFull filesystemSectorSize; omega⟩

theorem Shape.card_fullOther (hs : Shape fs.curr f) :
    (Finset.univ.filter (FullOther fs)).card + blankOthers fs = 7 := by
  unfold blankOthers
  rw [countP_sectors, ← Finset.card_union_of_disjoint]
  · have : Finset.univ.filter (FullOther fs) ∪ Finset.univ.filter (BlankOther fs) =
        Finset.univ.erase fs.curr.sector := by
      ext s
      simp only [Finset.mem_union, Finset.mem_filter, Finset.mem_univ, true_and, Finset.mem_erase,
        and_true]
      constructor
      · rintro (h | h) <;> exact h.1
      · intro hne
        exact (hs.partition s hne).symm
    rw [this, Finset.card_erase_of_mem (Finset.mem_univ _)]
    rfl
  · rw [Finset.disjoint_filter]
    intro s _ h h'
    exact not_full_of_blank h'.2 h.2

/-- With fewer than two blank sectors some full one has at most 50 of 300 descriptors. -/
theorem exists_fullOther (hs : Shape fs.curr f) (hx : Indexed crc fs f)
    (hb : blankOthers fs < 2) : ∃ s, FullOther fs s ∧ liveIn fs s ≤ 50 := by
  by_contra hno
  have h₁ : ∀ s ∈ Finset.univ.filter (FullOther fs), 51 ≤ liveIn fs s := by
    intro s hsF
    by_contra hlt
    exact hno ⟨s, (Finset.mem_filter.1 hsF).2, by omega⟩
  have h₂ : _ ≤ ∑ s ∈ Finset.univ.filter (FullOther fs), liveIn fs s :=
    Finset.card_nsmul_le_sum _ _ _ h₁
  have h₃ : ∑ s ∈ Finset.univ.filter (FullOther fs), liveIn fs s ≤ ∑ s, liveIn fs s :=
    Finset.sum_le_sum_of_subset (Finset.filter_subset _ _)
  have h₄ : ∑ s, liveIn fs s = fs.fd.length := sum_liveIn fs.fd
  have h₅ := hs.card_fullOther
  have h₆ := hx.len
  rw [smul_eq_mul] at h₂
  unfold fdMax at h₆
  omega

/-- The sector that is relocated. -/
theorem chosen_of_findRelocSector (hs : Shape fs.curr f) (hx : Indexed crc fs f) {S : Fin 8}
    (h : findRelocSector fs = some S) : Chosen fs S ∧ liveIn fs S ≤ 50 := by
  have hb : blankOthers fs < 2 := by
    by_contra hge
    rw [(findRelocSector_none fs).2 (by omega)] at h
    cases h
  obtain ⟨s, hF, hle⟩ := exists_fullOther hs hx hb
  have hc := findRelocSector_chosen hx.liveIn_le ⟨s, hF, by omega⟩ h
  exact ⟨hc, (hc.least s hF).trans hle⟩

end counting

end Wormvars
