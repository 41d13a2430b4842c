import Wormvars.Calls
import Wormvars.Walk

/-!
# `fs_init` without descriptors

The scan is a walk over the cells below the append pointers that elects one copy
per key.  `Scan crc f₀ curr M seen w`: started on the flash `f₀`, the walk has
looked at the cells `seen` and left the world `w`: the descriptors are the
elected copies, the copies passed over are dropped, and nothing else has changed.
`Scan.invalid`, `Scan.found` and `Scan.push` are the three ways to look at one
more cell.

`fsInit_spec`: from a flash in which `M` is recoverable `fs_init` ends with the
invariant and the contents `M`, and every operation it issues on the way keeps
`M` recoverable.  If the flash has no duplicates it issues nothing.
-/

namespace Wormvars

open NorFlash NewerLog

variable {crc : Block → BitVec 32}

/-! ## One cell -/

structure Scan (crc : Block → BitVec 32) (f₀ : Mem) (curr : Curr) (M : Contents)
    (seen : List Nat) (w : World) : Prop where
  shape : Shape curr w.flash
  dropped : copies crc w.flash = survivors (copies crc f₀) seen
  unseen : ∀ a, IsCell a → a ∉ seen → flashRead w.flash a = flashRead f₀ a
  header : ∀ fd ∈ w.fs.fd, (flashRead w.flash fd.address).header = fd.header
  elected : ∀ fd ∈ w.fs.fd, elect (copies crc f₀) fd.header.key seen = some fd.address
  sector : ∀ fd ∈ w.fs.fd, InSector fd.sector fd.address
  complete : ∀ k a, elect (copies crc f₀) k seen = some a →
    ∃ fd ∈ w.fs.fd, fd.header.key = k
  nodup : (keys w.fs).Nodup
  logged : ∀ e ∈ w.log, Good crc (fun N => N = M) e
  quiet : Single (copies crc f₀) → w.flash = f₀ ∧ w.log = []

namespace Scan
variable {f₀ : Mem} {curr : Curr} {M : Contents} {seen : List Nat} {w : World}

theorem congr (h : Scan crc f₀ curr M seen w) {w' : World} (hfd : w'.fs.fd = w.fs.fd)
    (hf : w'.flash = w.flash) (hl : w'.log = w.log) : Scan crc f₀ curr M seen w' := by
  obtain ⟨h₁, h₂, h₃, h₄, h₅, h₆, h₇, h₈, h₉, h₁₀⟩ := h
  unfold keys at h₈
  constructor
  all_goals first
    | rwa [hfd, hf] | rwa [hfd] | rwa [hf, hl] | rwa [hf] | rwa [hl]
    | (unfold keys; rwa [hfd])

theorem walk (h : Scan crc f₀ curr M seen w) : Walk crc f₀ seen w :=
  ⟨h.dropped, h.unseen, h.header, h.elected, h.sector, h.complete, h.nodup⟩

/-- A step of the walk that leaves the flash alone. -/
theorem of_walk (h : Scan crc f₀ curr M seen w) {l : List Nat} {w' : World}
    (hw : Walk crc f₀ l w') (hf : w'.flash = w.flash) (hl : w'.log = w.log) :
    Scan crc f₀ curr M l w' := by
  refine ⟨?_, hw.dropped, hw.unseen, hw.header, hw.elected, hw.sector, hw.complete, hw.nodup,
    ?_, ?_⟩
  · rw [hf]
    exact h.shape
  · rw [hl]
    exact h.logged
  · rw [hf, hl]
    exact h.quiet

/-- The copy behind a descriptor. -/
theorem copy (h : Scan crc f₀ curr M seen w) {fd : FileDescriptor} (hm : fd ∈ w.fs.fd) :
    IsCell fd.address ∧ fd.address ∈ seen ∧
      copies crc w.flash fd.address = some ⟨fd.header.key, fd.header.newer == fsBlockNewer,
        (flashRead w.flash fd.address).data⟩ ∧
      copies crc f₀ fd.address = copies crc w.flash fd.address := h.walk.copy hm

theorem represents (h : Scan crc f₀ curr M seen w) (hM : Represents (copies crc f₀) M) :
    Represents (copies crc w.flash) M := by
  rw [h.dropped]
  exact hM.survivors seen

/-- A step of the walk that drops a copy. -/
theorem of_dropped (h : Scan crc f₀ curr M seen w) (hM : Represents (copies crc f₀) M)
    (hfit : Fits M) {l : List Nat} {x : Nat} {w' : World} (hw : Walk crc f₀ l w')
    (hd : Dropped crc f₀ l x w w') (hdup : ¬ Single (copies crc f₀)) :
    Scan crc f₀ curr M l w' := by
  have hcell := hd.isCell
  have hr := Dropped.rewrite w x
  obtain ⟨c, hc⟩ := hd.copy
  obtain ⟨fs, hlog⟩ := hd.log
  obtain ⟨t, ht⟩ := hcell.exists_sector
  have hshape : Shape curr w'.flash := by
    rw [hd.flash]
    exact h.shape.program_below ht.1 (h.shape.below_of_copy ht hc) hcell.2.2 _ (by simp)
  have hrep : Represents (copies crc w'.flash) M := by
    rw [hd.copies]
    exact hM.survivors l
  refine ⟨hshape, hw.dropped, hw.unseen, hw.header, hw.elected, hw.sector, hw.complete, hw.nodup,
    ?_, fun hsingle => absurd hsingle hdup⟩
  intro e he
  rw [hlog] at he
  rcases List.mem_cons.1 he with rfl | he
  · refine hr.good rfl hcell ⟨M, rfl, ⟨curr, h.shape⟩, h.represents hM, hfit⟩ ⟨M, rfl, ?_⟩
    rw [← hd.flash]
    exact ⟨⟨curr, hshape⟩, hrep, hfit⟩
  · exact h.logged e he

/-- A cell that holds no copy. -/
theorem invalid (h : Scan crc f₀ curr M seen w) {a : Nat} (hc : IsCell a) (ha : a ∉ seen)
    (hno : ¬ Accepted crc (flashRead w.flash a)) : Scan crc f₀ curr M (seen ++ [a]) w :=
  h.of_walk (h.walk.invalid hc ha hno) rfl rfl

/-- The first copy of a key takes a new descriptor; there is a free slot for it. -/
theorem push (h : Scan crc f₀ curr M seen w) (hM : Represents (copies crc f₀) M)
    (hfit : Fits M) {a : Nat} {s : Fin 8} (hs : InSector s a) (ha : a ∉ seen) (hc : IsCell a)
    (hacc : Accepted crc (flashRead w.flash a))
    (hno : ∀ fd ∈ w.fs.fd, fd.header.key ≠ (flashRead w.flash a).header.key) :
    w.fs.fd.length < fdMax ∧
      Scan crc f₀ curr M (seen ++ [a]) (w.pushFd ⟨a, (flashRead w.flash a).header, s⟩) := by
  refine ⟨?_, h.of_walk (h.walk.push hs ha hc hacc hno) rfl rfl⟩
  obtain ⟨l, hlen, hl⟩ := hfit
  have hsub : (keys w.fs ++ [(flashRead w.flash a).header.key]) ⊆ l := by
    intro k hk
    apply hl
    rcases List.mem_append.1 hk with hk | hk
    · obtain ⟨fd, hm, rfl⟩ := List.mem_map.1 hk
      obtain ⟨-, -, hcw, hcf⟩ := h.copy hm
      exact hM.known _ _ (hcf.trans hcw)
    · rw [List.mem_singleton.1 hk]
      exact hM.known _ _ (h.walk.copy_unseen hc ha hacc)
  have := ((h.walk.nodup_push hno).subperm hsub).length_le
  rw [List.length_append, List.length_singleton] at this
  unfold keys at this
  rw [List.length_map] at this
  omega

/-- A copy of a key that has a descriptor. -/
theorem found (h : Scan crc f₀ curr M seen w) (hM : Represents (copies crc f₀) M) (hfit : Fits M)
    {a : Nat} {s : Fin 8} {i : Nat} {fd : FileDescriptor} (hs : InSector s a) (ha : a ∉ seen)
    (hc : IsCell a) (hacc : Accepted crc (flashRead w.flash a)) (hg : w.fs.fd[i]? = some fd)
    (hk : fd.header.key = (flashRead w.flash a).header.key) :
    Scan crc f₀ curr M (seen ++ [a])
      (resolveDuplicate w i fd s a (flashRead w.flash a).header) := by
  obtain ⟨-, hdup, -⟩ := h.walk.duplicate ha hc hacc (List.mem_of_getElem? hg) hk
  obtain ⟨hw, x, hd⟩ := h.walk.found hs ha hc hacc hg hk
  exact h.of_dropped hM hfit hw hd hdup

end Scan

/-! ## One sector -/

/-- What `initFileDescriptors` says about a sector whose append pointer is known. -/
def sectorState (curr : Curr) (s : Fin 8) : Int :=
  if curr.address s = sectorBase s then 0
  else if curr.address s = sectorBase s + filesystemSectorSize then 2
  else 1

/-- The scan of sector `s` has turned `w` into `w'`. -/
structure SectorScanned (curr : Curr) (s : Fin 8) (w w' : World) : Prop where
  pointer : w'.fs.curr.address s = curr.address s
  others : ∀ t, t ≠ s → w'.fs.curr.address t = w.fs.curr.address t
  sector : w'.fs.curr.sector = w.fs.curr.sector

section sector
variable {f₀ : Mem} {curr : Curr} {M : Contents}

/-- A valid cell of a key that has a descriptor. -/
theorem scanCells_found {w : World} {s : Fin 8} {address : Nat} (n : Nat)
    (hacc : Accepted crc (flashRead w.flash address)) {fd : FileDescriptor}
    (hg : w.fs.fd[findFd w.fs.fd (flashRead w.flash address).header]? = some fd) :
    scanCells crc s (n + 1) address w = scanCells crc s n (address + fsBlockSize)
      (resolveDuplicate (w.setAddress s address)
        (findFd w.fs.fd (flashRead w.flash address).header) fd s address
        (flashRead w.flash address).header) := by
  rw [scanCells]
  simp only [checkBlock_snd]
  refine (if_pos (show (checkBlock crc (flashRead w.flash address)).1 = 0 from hacc)).trans ?_
  have hg' : (w.setAddress s address).fs.fd[findFd (w.setAddress s address).fs.fd
    (flashRead (w.setAddress s address).flash address).header]? = some fd := hg
  rw [hg']
  rfl

/-- A valid cell of a key that has none. -/
theorem scanCells_push {w : World} {s : Fin 8} {address : Nat} (n : Nat)
    (hacc : Accepted crc (flashRead w.flash address))
    (hg : w.fs.fd[findFd w.fs.fd (flashRead w.flash address).header]? = none) :
    scanCells crc s (n + 1) address w =
      if w.fs.fd.length < fdMax then scanCells crc s n (address + fsBlockSize)
        ((w.setAddress s address).pushFd ⟨address, (flashRead w.flash address).header, s⟩)
      else (-1, w.setAddress s address) := by
  rw [scanCells]
  simp only [checkBlock_snd]
  refine (if_pos (show (checkBlock crc (flashRead w.flash address)).1 = 0 from hacc)).trans ?_
  have hg' : (w.setAddress s address).fs.fd[findFd (w.setAddress s address).fs.fd
    (flashRead (w.setAddress s address).flash address).header]? = none := hg
  rw [hg']
  rfl

/-- A cell that is not valid. -/
theorem scanCells_invalid {w : World} {s : Fin 8} {address : Nat} (n : Nat)
    (hacc : ¬ Accepted crc (flashRead w.flash address)) :
    scanCells crc s (n + 1) address w =
      if BlankHeader (flashRead w.flash address) then
        (if address = sectorBase s then 0 else 1, w.setAddress s address)
      else scanCells crc s n (address + fsBlockSize) (w.setAddress s address) := by
  rw [scanCells]
  simp only [checkBlock_snd]
  refine (if_neg (show ¬ (checkBlock crc (flashRead w.flash address)).1 = 0 from hacc)).trans ?_
  by_cases hb : BlankHeader (flashRead w.flash address)
  · rw [if_pos hb]
    refine (if_pos ((checkBlock_blank_iff crc _).2 hb)).trans ?_
    split <;> rfl
  · rw [if_neg hb]
    exact if_neg (fun h => hb ((checkBlock_blank_iff crc _).1 h))

theorem sectorState_congr {curr curr' : Curr} {s : Fin 8}
    (h : curr'.address s = curr.address s) : sectorState curr' s = sectorState curr s := by
  unfold sectorState
  rw [h]

/-- A cell with a blank header ends the scan of the sector. -/
theorem scanCells_blank {w : World} {s : Fin 8} {address : Nat} (n : Nat)
    (hs : InSector s address) (hb : BlankHeader (flashRead w.flash address)) :
    scanCells crc s (n + 1) address w =
      (sectorState (w.setAddress s address).fs.curr s, w.setAddress s address) := by
  have haddr : (w.setAddress s address).fs.curr.address s = address := Curr.setAddress_self _ _ _
  have hhi : address < sectorBase s + 4096 := hs.2
  rw [scanCells_invalid n fun h => h.not_blank hb, if_pos hb]
  unfold sectorState filesystemSectorSize
  rw [haddr]
  split
  · rfl
  · rw [if_neg (by omega)]

/-- So does the end of the sector. -/
theorem scanCells_zero {w : World} {s : Fin 8} (address : Nat)
    (hptr : w.fs.curr.address s + 32 = sectorBase s + 4096) :
    scanCells crc s 0 address w =
      (sectorState (w.setAddress s (sectorBase s + 4096)).fs.curr s,
        w.setAddress s (sectorBase s + 4096)) := by
  have haddr : (w.setAddress s (sectorBase s + 4096)).fs.curr.address s = sectorBase s + 4096 :=
    Curr.setAddress_self _ _ _
  have hstate : sectorState (w.setAddress s (sectorBase s + 4096)).fs.curr s = 2 := by
    unfold sectorState filesystemSectorSize
    rw [haddr, if_neg (by omega), if_pos rfl]
  rw [hstate, ← hptr]
  rfl

/-- One cell below the append pointer. -/
theorem scanCells_below {w : World} {seen : List Nat} (hM : Represents (copies crc f₀) M)
    (hfit : Fits M) (h : Scan crc f₀ curr M seen w) {s : Fin 8} {address : Nat}
    (hlo : sectorBase s ≤ address) (hlt : address < curr.address s) (hal : address % 32 = 0)
    (ha : address ∉ seen) (n : Nat) :
    ∃ v, Scan crc f₀ curr M (seen ++ [address]) v ∧
      v.fs.curr = w.fs.curr.setAddress s address ∧
      scanCells crc s (n + 1) address w = scanCells crc s n (address + fsBlockSize) v := by
  have hhi := h.shape.hi s
  have hs : InSector s address := ⟨hlo, by omega⟩
  have hc : IsCell address := hs.isCell hal
  have h' : Scan crc f₀ curr M seen (w.setAddress s address) := h.congr rfl rfl rfl
  by_cases hacc : Accepted crc (flashRead w.flash address)
  · rcases isSlot_findFd w.fs.fd (flashRead w.flash address).header with ⟨fd, hg, hk⟩ | ⟨he, hno⟩
    · refine ⟨_, h'.found hM hfit hs ha hc hacc hg hk, ?_, scanCells_found n hacc hg⟩
      unfold resolveDuplicate
      split
      · rfl
      · split <;> rfl
    · obtain ⟨hlen, hscan⟩ := h'.push hM hfit hs ha hc hacc hno
      refine ⟨_, hscan, rfl, ?_⟩
      rw [scanCells_push n hacc (List.getElem?_eq_none (Nat.le_of_eq he.symm))]
      exact if_pos hlen
  · refine ⟨_, h'.invalid hc ha hacc, rfl, ?_⟩
    rw [scanCells_invalid n hacc]
    exact if_neg (h.shape.written s address hlo hlt hal)

theorem scanCells_spec (hM : Represents (copies crc f₀) M) (hfit : Fits M) (s : Fin 8) (n : Nat) :
    ∀ (address : Nat) (w : World) (seen : List Nat), Scan crc f₀ curr M seen w →
      address + 32 * n = sectorBase s + 4096 → sectorBase s ≤ address →
      address ≤ curr.address s → (∀ a ∈ seen, a < address ∨ sectorBase s + 4096 ≤ a) →
      (n = 0 → w.fs.curr.address s + 32 = sectorBase s + 4096) →
      ∃ l w', scanCells crc s n address w = (sectorState curr s, w') ∧
        Scan crc f₀ curr M (seen ++ l) w' ∧ SectorScanned curr s w w' ∧
        ∀ a, a ∈ l ↔ address ≤ a ∧ a < curr.address s ∧ a % 32 = 0 := by
  induction n with
  | zero =>
    intro address w seen h hend hlo hle _ hptr
    have hhi := h.shape.hi s
    have hfull : curr.address s = sectorBase s + 4096 := by omega
    have hself : (w.setAddress s (sectorBase s + 4096)).fs.curr.address s = curr.address s :=
      (Curr.setAddress_self _ _ _).trans hfull.symm
    refine ⟨[], w.setAddress s (sectorBase s + 4096), ?_, ?_, ⟨hself, ?_, rfl⟩, ?_⟩
    · rw [scanCells_zero address (hptr rfl), sectorState_congr hself]
    · rw [List.append_nil]
      exact h.congr rfl rfl rfl
    · intro t ht
      exact Curr.setAddress_ne _ _ ht
    · intro a
      simp only [List.not_mem_nil, false_iff]
      omega
  | succ n ih =>
    intro address w seen h hend hlo hle hseen hptr
    have hal : address % 32 = 0 := by
      have := sectorBase_mod s
      omega
    rcases Nat.lt_or_ge address (curr.address s) with hlt | hge
    · -- a written cell
      have ha : address ∉ seen := by
        intro hm
        have := hseen address hm
        omega
      obtain ⟨v, hv, hcurr, he⟩ := scanCells_below hM hfit h hlo hlt hal ha n
      have halign := h.shape.aligned s
      obtain ⟨l, w', he', hscan, hsec, hl⟩ := ih (address + 32) v _ hv (by omega) (by omega)
        (by omega) (by
          intro a hm
          rcases List.mem_append.1 hm with hm | hm
          · have := hseen a hm
            omega
          · rw [List.mem_singleton.1 hm]
            omega)
        (by
          rintro rfl
          rw [hcurr, Curr.setAddress_self]
          omega)
      refine ⟨address :: l, w', he.trans he', ?_, ⟨hsec.pointer, ?_, ?_⟩, ?_⟩
      · rw [List.append_cons]
        exact hscan
      · intro t ht
        rw [hsec.others t ht, hcurr, Curr.setAddress_ne _ _ ht]
      · rw [hsec.sector, hcurr]
        rfl
      · intro a
        rw [List.mem_cons, hl]
        omega
    · -- the first erased cell
      have hat : address = curr.address s := by omega
      have hself : (w.setAddress s address).fs.curr.address s = curr.address s :=
        (Curr.setAddress_self _ _ _).trans hat
      have hblank : BlankHeader (flashRead w.flash address) := by
        rw [blankHeader_iff]
        intro i hi
        exact h.shape.blank s _ (by omega) (by omega)
      refine ⟨[], w.setAddress s address, ?_, ?_, ⟨hself, ?_, rfl⟩, ?_⟩
      · rw [scanCells_blank n ⟨hlo, by omega⟩ hblank, sectorState_congr hself]
      · rw [List.append_nil]
        exact h.congr rfl rfl rfl
      · intro t ht
        exact Curr.setAddress_ne _ _ ht
      · intro a
        simp only [List.not_mem_nil, false_iff]
        omega

end sector

/-! ## All sectors -/

/-- A sector that is neither blank nor full. -/
def Partial (curr : Curr) (s : Fin 8) : Prop :=
  curr.address s ≠ sectorBase s ∧ curr.address s ≠ sectorBase s + filesystemSectorSize

theorem sectorState_blank {curr : Curr} {s : Fin 8} (h : curr.address s = sectorBase s) :
    sectorState curr s = 0 := if_pos h

theorem sectorState_target {curr : Curr} {s : Fin 8} (h : Partial curr s) :
    sectorState curr s = 1 := by
  unfold sectorState
  rw [if_neg h.1, if_neg h.2]

theorem sectorState_full {curr : Curr} {s : Fin 8}
    (h : curr.address s = sectorBase s + filesystemSectorSize) : sectorState curr s = 2 := by
  unfold sectorState
  rw [if_neg (by unfold filesystemSectorSize at h; omega), if_pos h]

/-- The loop of `fs_init` has done the sectors `done`. -/
structure Progress (crc : Block → BitVec 32) (f₀ : Mem) (curr : Curr) (M : Contents)
    (done : List (Fin 8)) (st : World × Fin 8 × Bool) : Prop where
  scan : ∃ seen, Scan crc f₀ curr M seen st.1 ∧
    ∀ a, a ∈ seen ↔ ∃ s ∈ done, sectorBase s ≤ a ∧ a < curr.address s ∧ a % 32 = 0
  pointer : ∀ s ∈ done, st.1.fs.curr.address s = curr.address s
  assigned : st.2.2 = true → Partial curr st.1.fs.curr.sector
  unassigned : st.2.2 = false → ∀ s ∈ done, ¬ Partial curr s
  blank : (∃ s ∈ done, curr.address s = sectorBase s) →
    curr.address st.2.1 = sectorBase st.2.1

/-- The loop of `fs_init`: what each turn keeps, for a sector that is not done yet, it keeps. -/
theorem initSector_loop {I : List (Fin 8) → World × Fin 8 × Bool → Prop}
    (hturn : ∀ done st s, s ∉ done → I done st → I (done ++ [s]) (initSector crc st s))
    {st : World × Fin 8 × Bool} (h0 : I [] st) : I sectors (sectors.foldl (initSector crc) st) := by
  have hloop : ∀ (l done : List (Fin 8)) (st : World × Fin 8 × Bool), (done ++ l).Nodup →
      I done st → I (done ++ l) (l.foldl (initSector crc) st) := by
    intro l
    induction l with
    | nil =>
      intro done st _ h
      rw [List.append_nil]
      exact h
    | cons s l ih =>
      intro done st hnd h
      have hs : s ∉ done := fun hm => (List.nodup_append.1 hnd).2.2 s hm s List.mem_cons_self rfl
      rw [List.append_cons] at hnd ⊢
      exact ih _ _ hnd (hturn done st s hs h)
  exact hloop sectors [] st (by decide) h0

section boot
variable {f₀ : Mem} {curr : Curr} {M : Contents}

/-- The scan of one more sector. -/
theorem Progress.scanned (hM : Represents (copies crc f₀) M) (hfit : Fits M)
    {done : List (Fin 8)} {st : World × Fin 8 × Bool} (h : Progress crc f₀ curr M done st)
    {s : Fin 8} (hs : s ∉ done) :
    ∃ w', initFileDescriptors crc s st.1 = (sectorState curr s, w') ∧
      (∃ seen, Scan crc f₀ curr M seen w' ∧ ∀ a, a ∈ seen ↔
        ∃ t ∈ done ++ [s], sectorBase t ≤ a ∧ a < curr.address t ∧ a % 32 = 0) ∧
      (∀ t ∈ done ++ [s], w'.fs.curr.address t = curr.address t) ∧
      w'.fs.curr.sector = st.1.fs.curr.sector := by
  obtain ⟨seen, hscan, hseen⟩ := h.scan
  have hapart : ∀ a ∈ seen, a < sectorBase s ∨ sectorBase s + 4096 ≤ a := by
    intro a ha
    obtain ⟨t, ht, h₁, h₂, -⟩ := (hseen a).1 ha
    have hne : t.val ≠ s.val := fun he => hs (Fin.ext he ▸ ht)
    have h₃ := sectorBase_eq t
    have h₄ := sectorBase_eq s
    have h₅ := hscan.shape.hi t
    omega
  obtain ⟨l, w', he, hscan', hsec, hl⟩ := scanCells_spec hM hfit s 128 (sectorBase s) st.1 seen
    hscan (by omega) (Nat.le_refl _) (hscan.shape.lo s) hapart (fun h => by omega)
  refine ⟨w', he, ⟨_, hscan', fun a => ?_⟩, ?_, hsec.sector⟩
  · rw [List.mem_append, hseen, hl]
    constructor
    · rintro (⟨t, ht, h⟩ | h)
      · exact ⟨t, List.mem_append_left _ ht, h⟩
      · exact ⟨s, List.mem_append_right _ (List.mem_singleton_self s), h⟩
    · rintro ⟨t, ht, h⟩
      rcases List.mem_append.1 ht with ht | ht
      · exact Or.inl ⟨t, ht, h⟩
      · rw [List.mem_singleton.1 ht] at h
        exact Or.inr h
  · refine List.forall_mem_append.2 ⟨fun t ht => ?_, List.forall_mem_singleton.2 hsec.pointer⟩
    rw [hsec.others t fun he => hs (he ▸ ht)]
    exact h.pointer t ht

theorem Progress.initSector (hM : Represents (copies crc f₀) M) (hfit : Fits M)
    {done : List (Fin 8)} {st : World × Fin 8 × Bool} (h : Progress crc f₀ curr M done st)
    {s : Fin 8} (hs : s ∉ done) :
    Progress crc f₀ curr M (done ++ [s]) (initSector crc st s) := by
  obtain ⟨w', he, hscan, hptr, hsec⟩ := h.scanned hM hfit hs
  have hunass : st.2.2 = false → ¬ Partial curr s → ∀ t ∈ done ++ [s], ¬ Partial curr t :=
    fun h₁ h₂ => List.forall_mem_append.2 ⟨h.unassigned h₁, List.forall_mem_singleton.2 h₂⟩
  unfold Wormvars.initSector
  simp only [he]
  by_cases hb : curr.address s = sectorBase s
  · -- a blank sector
    rw [sectorState_blank hb]
    exact ⟨hscan, hptr, fun h' => hsec ▸ h.assigned h', fun h' => hunass h' fun hp => hp.1 hb,
      fun _ => hb⟩
  · have hblank : (∃ t ∈ done ++ [s], curr.address t = sectorBase t) →
        curr.address st.2.1 = sectorBase st.2.1 := by
      rintro ⟨t, ht, hbt⟩
      rcases List.mem_append.1 ht with ht | ht
      · exact h.blank ⟨t, ht, hbt⟩
      · rw [List.mem_singleton.1 ht] at hbt
        exact absurd hbt hb
    by_cases hf : curr.address s = sectorBase s + filesystemSectorSize
    · rw [sectorState_full hf]
      exact ⟨hscan, hptr, fun h' => hsec ▸ h.assigned h', fun h' => hunass h' fun hp => hp.2 hf,
        hblank⟩
    · obtain ⟨seen, hscan, hseen⟩ := hscan
      rw [sectorState_target ⟨hb, hf⟩]
      exact ⟨⟨seen, hscan.congr rfl rfl rfl, hseen⟩, hptr, fun _ => ⟨hb, hf⟩,
        fun h' => (by cases h'), hblank⟩

/-- What a boot from `f₀` leaves. -/
structure Booted (crc : Block → BitVec 32) (f₀ : Mem) (curr : Curr) (M : Contents)
    (w : World) : Prop where
  inv : Inv crc w.fs w.flash
  contents : contents w.fs w.flash = M
  logged : ∀ e ∈ w.log, Good crc (fun N => N = M) e
  quiet : Single (copies crc f₀) → w.flash = f₀ ∧ w.log = []
  pointers : w.fs.curr.address = curr.address
  target : Partial curr curr.sector → w.fs.curr.sector = curr.sector
  blank : ¬ Partial curr curr.sector → (∃ s, curr.address s = sectorBase s) →
    w.fs.SectorIsBlank w.fs.curr.sector
  idle : w.fs.pt = .null

theorem scan_start {w : World} (hs : Shape curr w.flash) (hfd : w.fs.fd = []) (hlog : w.log = []) :
    Progress crc w.flash curr M [] (w, 0, false) := by
  have hw : Walk crc w.flash [] w := .start hfd
  refine ⟨⟨[], ⟨hs, hw.dropped, hw.unseen, hw.header, hw.elected, hw.sector, hw.complete, hw.nodup,
    by simp [hlog], fun _ => ⟨rfl, hlog⟩⟩, by simp⟩, ?_, ?_, ?_, ?_⟩
  · intro s hm
    cases hm
  · intro h
    cases h
  · intro _ s hm
    cases hm
  · rintro ⟨s, hm, -⟩
    cases hm

/-- A scan of everything below the append pointers leaves an index of the flash. -/
theorem Scan.indexed {seen : List Nat} {w : World} (h : Scan crc f₀ curr M seen w)
    (hM : Represents (copies crc f₀) M) (hfit : Fits M)
    (hall : ∀ a, a ∈ seen ↔ ∃ s, sectorBase s ≤ a ∧ a < curr.address s ∧ a % 32 = 0) :
    Indexed crc w.fs w.flash where
  len := by
    obtain ⟨l, hlen, hl⟩ := hfit
    have hsub : keys w.fs ⊆ l := by
      intro k hk
      obtain ⟨fd, hm, rfl⟩ := List.mem_map.1 hk
      obtain ⟨-, -, hcw, hcf⟩ := h.copy hm
      exact hl _ (hM.known _ _ (hcf.trans hcw))
    have := (h.nodup.subperm hsub).length_le
    unfold keys at this
    rw [List.length_map] at this
    omega
  nodup := h.nodup
  cell fd hm := (h.copy hm).1
  sector := h.sector
  header := h.header
  accepted fd hm := (copies_some_iff.1 (h.copy hm).2.2.1).1.2
  complete := by
    intro a c hc
    obtain ⟨⟨hcell, -⟩, -⟩ := copies_some_iff.1 hc
    obtain ⟨s, hs⟩ := hcell.exists_sector
    have hseen := (hall a).2 ⟨s, hs.1, h.shape.below_of_copy hs hc, hcell.2.2⟩
    rw [h.dropped, survivors_some] at hc
    have helect := hc.2 hseen
    obtain ⟨fd, hm, hk⟩ := h.complete _ _ helect
    have hfd := h.elected fd hm
    rw [hk, helect] at hfd
    exact ⟨fd, hm, (Option.some.inj hfd).symm⟩

/-- `fs_init` without descriptors; the other fields of `Fs` do not matter. -/
theorem fsInit_spec {v : World} (hfd : v.fs.fd = []) (hlog : v.log = []) (hs : Shape curr v.flash)
    (hM : Represents (copies crc v.flash) M) (hfit : Fits M) :
    Booted crc v.flash curr M (fsInit crc v) := by
  have hp := initSector_loop (I := Progress crc v.flash curr M)
    (fun _ _ _ hs h => h.initSector hM hfit hs) (scan_start hs hfd hlog)
  unfold fsInit
  generalize sectors.foldl (Wormvars.initSector crc) (v, 0, false) = st at hp
  obtain ⟨w, blankSector, sectorAssigned⟩ := st
  obtain ⟨⟨seen, hscan, hseen⟩, hptr, hass, hunass, hblank⟩ := hp
  simp only at hscan hseen hptr hass hunass hblank
  have haddr : w.fs.curr.address = curr.address := funext fun s => hptr s (mem_sectors s)
  have hindex := hscan.indexed hM hfit fun a => by
    rw [hseen]
    exact ⟨fun ⟨s, _, h⟩ => ⟨s, h⟩, fun ⟨s, h⟩ => ⟨s, mem_sectors s, h⟩⟩
  have honly : ∀ s, Partial curr s → s = curr.sector := by
    intro s hps
    by_contra hne
    rcases hs.others s hne with h | h
    · exact hps.1 h
    · exact hps.2 h
  -- the sector that is chosen
  obtain ⟨sector, hv, htarget, hblank'⟩ : ∃ sector : Fin 8,
      (if sectorAssigned then w else w.setSector blankSector) =
        ⟨{ w.fs with curr := ⟨curr.address, sector⟩ }, w.flash, w.log⟩ ∧
      (Partial curr curr.sector → sector = curr.sector) ∧
      (¬ Partial curr curr.sector → (∃ s, curr.address s = sectorBase s) →
        curr.address sector = sectorBase sector) := by
    cases sectorAssigned with
    | true =>
      refine ⟨w.fs.curr.sector, ?_, fun _ => honly _ (hass rfl), ?_⟩
      · rw [← haddr]
        rfl
      · intro hnp
        rw [honly _ (hass rfl)] at hass
        exact absurd (hass rfl) hnp
    | false =>
      refine ⟨blankSector, ?_, ?_, ?_⟩
      · rw [← haddr]
        rfl
      · exact fun hps => absurd hps (hunass rfl _ (mem_sectors _))
      · rintro - ⟨s, hs⟩
        exact hblank ⟨s, mem_sectors s, hs⟩
  have hshape : Shape ⟨curr.address, sector⟩ w.flash := by
    obtain ⟨h₁, h₂, h₃, h₄, h₅, -⟩ := hscan.shape
    refine ⟨h₁, h₂, h₃, h₄, h₅, fun s hne => ?_⟩
    by_contra hno
    rw [not_or] at hno
    have hps : Partial curr s := hno
    obtain rfl := honly s hps
    exact hne (htarget hps).symm
  have hindex' : Indexed crc ⟨w.fs.fd, ⟨curr.address, sector⟩, w.fs.reloc, .null⟩ w.flash :=
    hindex.congr rfl
  simp only [hv]
  refine ⟨⟨hshape, hindex', trivial, fun h => ?_⟩,
    hindex'.represents.unique (hscan.represents hM), hscan.logged, hscan.quiet, rfl, htarget,
    hblank', rfl⟩
  rcases h with h | h <;> cases h

theorem coldBoot_spec (hs : Shape curr f₀) (hM : Represents (copies crc f₀) M) (hfit : Fits M) :
    Booted crc f₀ curr M (coldBoot crc f₀) :=
  fsInit_spec (v := ⟨.zero, f₀, []⟩) rfl rfl hs hM hfit

end boot

end Wormvars
