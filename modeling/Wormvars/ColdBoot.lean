import Mathlib.Data.List.Dedup
import Mathlib.Data.List.TakeWhile
import Wormvars.Boot

/-!
# `fs_init` on any flash

Whatever the flash holds, the scan of a sector goes up to the first cell whose
header is blank (`scannedIn`) unless it runs out of descriptors on the way.
`Swept crc f₀ seen w` is the walk over the cells `seen` with what it does to every
byte: the size field of the copies passed over is zeroed (`thinned`), and no other
bit of the flash changes.

`coldBoot_meaning`: with 300 keys at most, each key ends with one descriptor, on the
first cell with the newer flag or else on the first cell, and a second `fs_init`
after a reset finds nothing to do.
-/

namespace Wormvars

open NorFlash NewerLog

variable {crc : Block → BitVec 32}

/-! ## The cells that are scanned -/

/-- `n` cells from `a` on. -/
def cellsFrom : Nat → Nat → List Nat
  | 0, _ => []
  | n + 1, a => a :: cellsFrom n (a + fsBlockSize)

/-- The cells of sector `s` before the first one whose header is blank. -/
def scannedIn (f : Mem) (s : Fin 8) : List Nat :=
  (cellsFrom fdsPerSector (sectorBase s)).takeWhile fun a => ¬ BlankHeader (flashRead f a)

/-- The first cell of sector `s` whose header is blank, or the end of the sector. -/
def scanEnd (f : Mem) (s : Fin 8) : Nat := sectorBase s + fsBlockSize * (scannedIn f s).length

/-- The scanned cells in the order of the scan. -/
def scanned (f : Mem) : List Nat := sectors.flatMap (scannedIn f)

/-- The keys of the valid cells among the scanned ones. -/
def scannedKeys (crc : Block → BitVec 32) (f : Mem) : List Key :=
  (scanned f).filterMap fun a => (copies crc f a).map Copy.key

theorem mem_cellsFrom {n a b : Nat} :
    b ∈ cellsFrom n a ↔ a ≤ b ∧ b < a + 32 * n ∧ b % 32 = a % 32 := by
  induction n generalizing a with
  | zero =>
    simp only [cellsFrom, List.not_mem_nil, false_iff]
    omega
  | succ n ih =>
    unfold cellsFrom
    rw [List.mem_cons, ih]
    unfold fsBlockSize
    omega

theorem length_cellsFrom (n a : Nat) : (cellsFrom n a).length = n := by
  induction n generalizing a with
  | zero => rfl
  | succ n ih =>
    unfold cellsFrom
    rw [List.length_cons, ih]

theorem takeWhile_cellsFrom (p : Nat → Bool) (n a : Nat) : ∃ m, m ≤ n ∧
    (cellsFrom n a).takeWhile p = cellsFrom m a ∧ (m < n → p (a + 32 * m) = false) := by
  induction n generalizing a with
  | zero => exact ⟨0, Nat.le_refl 0, rfl, fun h => absurd h (Nat.lt_irrefl 0)⟩
  | succ n ih =>
    unfold cellsFrom
    cases hp : p a with
    | false =>
      refine ⟨0, Nat.zero_le _, ?_, fun _ => hp⟩
      rw [List.takeWhile_cons_of_neg (by simp [hp])]
    | true =>
      obtain ⟨m, hm, he, hstop⟩ := ih (a + fsBlockSize)
      refine ⟨m + 1, by omega, ?_, fun h => ?_⟩
      · rw [List.takeWhile_cons_of_pos hp, he]
      · have := hstop (by omega)
        unfold fsBlockSize at this
        rwa [show a + 32 * (m + 1) = a + 32 + 32 * m by omega]

theorem scannedIn_eq (f : Mem) (s : Fin 8) : ∃ m, m ≤ 128 ∧
    scannedIn f s = cellsFrom m (sectorBase s) ∧ scanEnd f s = sectorBase s + 32 * m ∧
    (m < 128 → BlankHeader (flashRead f (scanEnd f s))) := by
  obtain ⟨m, hm, he, hstop⟩ :=
    takeWhile_cellsFrom (fun a => ¬ BlankHeader (flashRead f a)) fdsPerSector (sectorBase s)
  have hend : scanEnd f s = sectorBase s + 32 * m := by
    unfold scanEnd scannedIn
    rw [he, length_cellsFrom]
    rfl
  refine ⟨m, hm, he, hend, fun h => ?_⟩
  rw [hend]
  simpa using hstop h

theorem scanEnd_le (f : Mem) (s : Fin 8) : scanEnd f s ≤ sectorBase s + 4096 := by
  obtain ⟨m, hm, -, hend, -⟩ := scannedIn_eq f s
  omega

theorem le_scanEnd (f : Mem) (s : Fin 8) : sectorBase s ≤ scanEnd f s := Nat.le_add_right _ _

theorem scanEnd_mod (f : Mem) (s : Fin 8) : scanEnd f s % 32 = 0 := by
  obtain ⟨m, -, -, hend, -⟩ := scannedIn_eq f s
  have := sectorBase_mod s
  omega

theorem scanEnd_blank {f : Mem} {s : Fin 8} (h : scanEnd f s < sectorBase s + 4096) :
    BlankHeader (flashRead f (scanEnd f s)) := by
  obtain ⟨m, -, -, hend, hb⟩ := scannedIn_eq f s
  exact hb (by omega)

theorem mem_scannedIn {f : Mem} {s : Fin 8} {a : Nat} :
    a ∈ scannedIn f s ↔ sectorBase s ≤ a ∧ a < scanEnd f s ∧ a % 32 = 0 := by
  obtain ⟨m, -, he, hend, -⟩ := scannedIn_eq f s
  have := sectorBase_mod s
  rw [he, mem_cellsFrom, hend]
  omega

theorem scannedIn_spec {f : Mem} {s : Fin 8} {a : Nat} (h : a ∈ scannedIn f s) :
    InSector s a ∧ IsCell a ∧ ¬ BlankHeader (flashRead f a) := by
  have hm := mem_cellsFrom.1 ((List.takeWhile_prefix _).subset h)
  have hs : InSector s a := ⟨hm.1, by simpa [fdsPerSector, filesystemSectorSize, fsBlockSize]
    using hm.2.1⟩
  have := sectorBase_mod s
  exact ⟨hs, hs.isCell (by omega), by simpa using List.mem_takeWhile_imp h⟩

theorem mem_scanned {f : Mem} {a : Nat} : a ∈ scanned f ↔ ∃ s, a ∈ scannedIn f s := by
  unfold scanned
  rw [List.mem_flatMap]
  exact ⟨fun ⟨s, _, h⟩ => ⟨s, h⟩, fun ⟨s, h⟩ => ⟨s, mem_sectors s, h⟩⟩

theorem mem_scannedKeys {f : Mem} {k : Key} :
    k ∈ scannedKeys crc f ↔ ∃ a ∈ scanned f, ∃ c, copies crc f a = some c ∧ c.key = k := by
  unfold scannedKeys
  rw [List.mem_filterMap]
  simp only [Option.map_eq_some_iff]

/-! ## What is done to the flash -/

/-- The flash `f` with the size field zeroed in the copies that a walk over `l` has passed over. -/
def thinned (crc : Block → BitVec 32) (f : Mem) (l : List Nat) : Mem := fun x =>
  if (copies crc f x).isSome ∧ (survivors (copies crc f) l x).isNone then f x &&& 0xF3 else f x

theorem thinned_congr {f : Mem} {l l' : List Nat}
    (h : survivors (copies crc f) l = survivors (copies crc f) l') :
    thinned crc f l = thinned crc f l' := by
  unfold thinned
  rw [h]

theorem thinned_nil (crc : Block → BitVec 32) (f : Mem) : thinned crc f [] = f := by
  funext x
  unfold thinned
  rw [survivors_nil]
  cases copies crc f x <;> simp

/-- Bytes that start no cell are never touched. -/
theorem thinned_of_not_cell {f : Mem} {l : List Nat} {x : Nat} (hx : ¬ IsCell x) :
    thinned crc f l x = f x := by
  unfold thinned copies
  simp [hx]

theorem flags_clear_size (h : BlockHeader) :
    { h with size := fsSizeInvalid }.flags = h.flags &&& 0xF3 := by
  have hm : (0xF3 : Byte) = BlockHeader.flags ⟨3, 0, 1, 7, h.hash, h.name⟩ :=
    show _ = (7 : BitVec 3) ++ (1 : BitVec 1) ++ (0 : BitVec 2) ++ (3 : BitVec 2) by decide
  have hver : h.ver &&& 3 = h.ver := BitVec.and_allOnes
  have hsize : h.size &&& 0 = fsSizeInvalid := BitVec.and_zero
  have hnewer : h.newer &&& 1 = h.newer := BitVec.and_allOnes
  have hext : h.ext &&& 7 = h.ext := BitVec.and_allOnes
  rw [hm, ← BlockHeader.flags_and]
  show _ = BlockHeader.flags ⟨h.ver &&& 3, h.size &&& 0, h.newer &&& 1, h.ext &&& 7,
    h.hash &&& h.hash, h.name &&& h.name⟩
  rw [hver, hsize, hnewer, hext, BitVec.and_self, BitVec.and_self]

/-- Zeroing the size field of a stored header is an AND of its first byte. -/
theorem program_clear_size (f : Mem) (a x : Nat) :
    program f a { (flashRead f a).header with size := fsSizeInvalid }.toBytes x =
      if x = a then f x &&& 0xF3 else f x := by
  have hflags : (flashRead f a).header.flags = f a := BlockHeader.flags_ofBytes _ _ _ _
  rw [← program_flags_eq f a { (flashRead f a).header with size := fsSizeInvalid } rfl rfl]
  by_cases hx : x = a
  · subst hx
    rw [if_pos rfl]
    have := program_at f x ({ (flashRead f x).header with size := fsSizeInvalid }.toBytes.take 1) 0
      (by simp)
    rw [Nat.add_zero] at this
    rw [this]
    show f x &&& { (flashRead f x).header with size := fsSizeInvalid }.flags = _
    rw [flags_clear_size, hflags, ← BitVec.and_assoc, BitVec.and_self]
  · rw [if_neg hx, program_outside]
    simp only [List.length_take, BlockHeader.length_toBytes]
    omega

/-! ## The walk, byte by byte -/

/-- `Walk` with the bytes of the flash; the log is empty while no copy has been passed over. -/
structure Swept (crc : Block → BitVec 32) (f₀ : Mem) (seen : List Nat) (w : World) : Prop where
  walk : Walk crc f₀ seen w
  flash : w.flash = thinned crc f₀ seen
  len : w.fs.fd.length ≤ fdMax
  quiet : survivors (copies crc f₀) seen = copies crc f₀ → w.log = []

namespace Swept
variable {f₀ : Mem} {seen : List Nat} {w : World}

theorem congr (h : Swept crc f₀ seen w) {w' : World} (hfd : w'.fs.fd = w.fs.fd)
    (hf : w'.flash = w.flash) (hl : w'.log = w.log) : Swept crc f₀ seen w' :=
  ⟨h.walk.congr hfd hf, hf.trans h.flash, hfd ▸ h.len, fun hs => hl.trans (h.quiet hs)⟩

/-- A step that passes nothing over. -/
theorem of_walk (h : Swept crc f₀ seen w) {l : List Nat} {w' : World} (hw : Walk crc f₀ l w')
    (hf : w'.flash = w.flash) (hl : w'.log = w.log) (hlen : w'.fs.fd.length ≤ fdMax) :
    Swept crc f₀ l w' := by
  have hsurv : survivors (copies crc f₀) l = survivors (copies crc f₀) seen := by
    rw [← hw.dropped, hf, h.walk.dropped]
  refine ⟨hw, ?_, hlen, ?_⟩
  · rw [hf, h.flash, thinned_congr hsurv]
  · rw [hsurv, hl]
    exact h.quiet

/-- A step that invalidates the copy at `x`. -/
theorem of_dropped (h : Swept crc f₀ seen w) {l : List Nat} {x : Nat} {w' : World}
    (hw : Walk crc f₀ l w') (hd : Dropped crc f₀ l x w w') (hlen : w'.fs.fd.length ≤ fdMax) :
    Swept crc f₀ l w' := by
  obtain ⟨c, hc⟩ := hd.copy
  have hsurv := hd.survivors
  have hcs : survivors (copies crc f₀) seen x = some c := by rw [← h.walk.dropped, hc]
  have hc₀ : copies crc f₀ x = some c := (survivors_some.1 hcs).1
  refine ⟨hw, ?_, hlen, ?_⟩
  · rw [hd.flash]
    funext y
    rw [program_clear_size, h.flash]
    unfold thinned
    rw [hsurv, h.walk.dropped]
    by_cases hy : y = x
    · subst hy
      rw [if_pos rfl, if_neg (by simp [hcs]), Function.update_self, if_pos (by simp [hc₀])]
    · rw [if_neg hy, Function.update_of_ne hy]
  · intro hs
    have := congrFun hs x
    rw [hsurv, Function.update_self, hc₀] at this
    cases this

/-- The keys of the descriptors are keys of cells that have been seen. -/
theorem key_mem (h : Swept crc f₀ seen w) (hin : ∀ a ∈ seen, a ∈ scanned f₀) {k : Key}
    (hk : k ∈ keys w.fs) : k ∈ scannedKeys crc f₀ := by
  obtain ⟨fd, hm, rfl⟩ := List.mem_map.1 hk
  obtain ⟨-, hseen, hcw, hcf⟩ := h.walk.copy hm
  exact mem_scannedKeys.2 ⟨_, hin _ hseen, _, hcf.trans hcw, rfl⟩

/-! ### One cell -/

/-- The table is full and the cell `a` holds a key that is not in it. -/
structure Stuck (crc : Block → BitVec 32) (f₀ : Mem) (a : Nat) (w : World) : Prop where
  full : w.fs.fd.length = fdMax
  copy : ∃ c, copies crc f₀ a = some c ∧ c.key ∉ keys w.fs

variable {s : Fin 8} {a : Nat}

/-- A cell with a header that is not blank. -/
theorem cell (h : Swept crc f₀ seen w) (hs : InSector s a) (hc : IsCell a) (ha : a ∉ seen)
    (hb : ¬ BlankHeader (flashRead f₀ a)) (n : Nat) :
    (∃ v, Swept crc f₀ (seen ++ [a]) v ∧ v.fs.curr = w.fs.curr.setAddress s a ∧
      scanCells crc s (n + 1) a w = scanCells crc s n (a + fsBlockSize) v) ∨
    (Stuck crc f₀ a w ∧ scanCells crc s (n + 1) a w = (-1, w.setAddress s a)) := by
  have h' : Swept crc f₀ seen (w.setAddress s a) := h.congr rfl rfl rfl
  by_cases hacc : Accepted crc (flashRead w.flash a)
  · rcases isSlot_findFd w.fs.fd (flashRead w.flash a).header with ⟨fd, hg, hk⟩ | ⟨he, hno⟩
    · obtain ⟨hw, x, hd⟩ := h'.walk.found hs ha hc hacc hg hk
      refine Or.inl ⟨_, h'.of_dropped hw hd ?_, resolveDuplicate_curr, scanCells_found n hacc hg⟩
      exact (resolveDuplicate_descriptors _ _ _ _ _ _).trans_le h.len
    · have hnone : w.fs.fd[findFd w.fs.fd (flashRead w.flash a).header]? = none :=
        List.getElem?_eq_none (Nat.le_of_eq he.symm)
      by_cases hlt : w.fs.fd.length < fdMax
      · refine Or.inl ⟨_, h'.of_walk (h'.walk.push hs ha hc hacc hno) rfl rfl ?_, rfl, ?_⟩
        · show (w.fs.fd ++ [_]).length ≤ fdMax
          rw [List.length_append, List.length_singleton]
          exact hlt
        · rw [scanCells_push n hacc hnone]
          exact if_pos hlt
      · refine Or.inr ⟨⟨by have := h.len; omega, _, h.walk.copy_unseen hc ha hacc, ?_⟩, ?_⟩
        · intro hm
          obtain ⟨fd, hm, hk⟩ := List.mem_map.1 hm
          exact hno fd hm hk
        · rw [scanCells_push n hacc hnone]
          exact if_neg hlt
  · refine Or.inl ⟨_, h'.of_walk (h'.walk.invalid hc ha hacc) rfl rfl h.len, rfl, ?_⟩
    rw [scanCells_invalid n hacc]
    rw [h.walk.unseen a hc ha]
    exact if_neg hb

/-! ### One sector -/

/-- The scan of sector `s` from `a` on, with the cells `cells` before it, has looked at `l`, left
`w'` and returned `r`. -/
structure SectorEnd (crc : Block → BitVec 32) (f₀ : Mem) (s : Fin 8) (a : Nat)
    (cells l : List Nat) (w w' : World) (r : Int) : Prop where
  others : ∀ t, t ≠ s → w'.fs.curr.address t = w.fs.curr.address t
  sector : w'.fs.curr.sector = w.fs.curr.sector
  ends : (l = cells ∧ w'.fs.curr.address s = a + fsBlockSize * cells.length ∧
      r = sectorState w'.fs.curr s) ∨
    (r = -1 ∧ l ⊆ cells ∧ w'.fs.curr.address s ∈ cells ∧
      Stuck crc f₀ (w'.fs.curr.address s) w')

theorem scanCells (s : Fin 8) (n : Nat) : ∀ (a : Nat) (w : World) (seen : List Nat),
    Swept crc f₀ seen w → a + 32 * n = sectorBase s + 4096 → sectorBase s ≤ a →
    (∀ b ∈ seen, b < a ∨ sectorBase s + 4096 ≤ b) →
    (n = 0 → w.fs.curr.address s + 32 = sectorBase s + 4096) →
    ∃ l w' r, Wormvars.scanCells crc s n a w = (r, w') ∧ Swept crc f₀ (seen ++ l) w' ∧
      SectorEnd crc f₀ s a
        ((cellsFrom n a).takeWhile fun b => ¬ BlankHeader (flashRead f₀ b)) l w w' r := by
  induction n with
  | zero =>
    intro a w seen h hend hlo _ hptr
    refine ⟨[], _, _, scanCells_zero a (hptr rfl), ?_, fun t ht => Curr.setAddress_ne _ _ ht, rfl,
      Or.inl ⟨rfl, ?_, rfl⟩⟩
    · rw [List.append_nil]
      exact h.congr rfl rfl rfl
    · show (w.fs.curr.setAddress s _).address s = a + 32 * 0
      rw [Curr.setAddress_self]
      omega
  | succ n ih =>
    intro a w seen h hend hlo hseen _
    have hs : InSector s a := ⟨hlo, by omega⟩
    have hc : IsCell a := hs.isCell (by have := sectorBase_mod s; omega)
    have ha : a ∉ seen := by
      intro hm
      have := hseen a hm
      omega
    by_cases hb : BlankHeader (flashRead f₀ a)
    · -- the end of the written part
      have hbw : BlankHeader (flashRead w.flash a) := by rwa [h.walk.unseen a hc ha]
      have hcells : (cellsFrom (n + 1) a).takeWhile
          (fun b => ¬ BlankHeader (flashRead f₀ b)) = [] := by
        unfold cellsFrom
        rw [List.takeWhile_cons_of_neg (by simpa using hb)]
      rw [hcells]
      refine ⟨[], w.setAddress s a, _, scanCells_blank n hs hbw, ?_,
        fun t ht => Curr.setAddress_ne _ _ ht, rfl, Or.inl ⟨rfl, Curr.setAddress_self _ _ _, rfl⟩⟩
      rw [List.append_nil]
      exact h.congr rfl rfl rfl
    · have hcells : (cellsFrom (n + 1) a).takeWhile (fun b => ¬ BlankHeader (flashRead f₀ b)) =
          a :: (cellsFrom n (a + 32)).takeWhile fun b => ¬ BlankHeader (flashRead f₀ b) := by
        rw [cellsFrom, List.takeWhile_cons_of_pos (by simpa using hb)]
        rfl
      rw [hcells]
      rcases h.cell hs hc ha hb n with ⟨v, hv, hcurr, he⟩ | ⟨hstuck, he⟩
      · obtain ⟨l, w', r, he', hsw, hend'⟩ := ih (a + 32) v (seen ++ [a]) hv (by omega) (by omega)
          (by
            intro b hm
            rcases List.mem_append.1 hm with hm | hm
            · have := hseen b hm
              omega
            · rw [List.mem_singleton.1 hm]
              omega)
          (by
            rintro rfl
            rw [hcurr, Curr.setAddress_self]
            omega)
        refine ⟨a :: l, w', r, he.trans he', ?_, ?_, ?_, ?_⟩
        · rw [List.append_cons]
          exact hsw
        · intro t ht
          rw [hend'.others t ht, hcurr, Curr.setAddress_ne _ _ ht]
        · rw [hend'.sector, hcurr]
          rfl
        · rcases hend'.ends with ⟨hl, hp, hr⟩ | ⟨hr, hl, hp, hst⟩
          · refine Or.inl ⟨by rw [hl], ?_, hr⟩
            rw [hp, List.length_cons]
            unfold fsBlockSize
            omega
          · exact Or.inr ⟨hr, List.cons_subset_cons a hl, List.mem_cons_of_mem a hp, hst⟩
      · have haddr : (w.setAddress s a).fs.curr.address s = a := Curr.setAddress_self _ _ _
        refine ⟨[], _, _, he, ?_, fun t ht => Curr.setAddress_ne _ _ ht, rfl,
          Or.inr ⟨rfl, List.nil_subset _, ?_, ?_⟩⟩
        · rw [List.append_nil]
          exact h.congr rfl rfl rfl
        · rw [haddr]
          exact List.mem_cons_self
        · rw [haddr]
          exact ⟨hstuck.full, hstuck.copy⟩

/-- The scan of a whole sector. -/
theorem initFileDescriptors (h : Swept crc f₀ seen w) (s : Fin 8)
    (hseen : ∀ b ∈ seen, ¬ InSector s b) :
    ∃ l w' r, Wormvars.initFileDescriptors crc s w = (r, w') ∧ Swept crc f₀ (seen ++ l) w' ∧
      SectorEnd crc f₀ s (sectorBase s) (scannedIn f₀ s) l w w' r :=
  h.scanCells s fdsPerSector (sectorBase s) w seen rfl (Nat.le_refl _)
    (fun b hb => by
      have := hseen b hb
      unfold InSector at this
      omega)
    (fun h => absurd h (by decide))

end Swept

/-! ## All sectors -/

/-- More keys than descriptors. -/
def Crowded (crc : Block → BitVec 32) (f : Mem) : Prop :=
  fdMax < (scannedKeys crc f).dedup.length

/-- Sector `s` is neither blank nor full. -/
def PartlyWritten (f : Mem) (s : Fin 8) : Prop :=
  scanEnd f s ≠ sectorBase s ∧ scanEnd f s ≠ sectorBase s + filesystemSectorSize

instance (f : Mem) (s : Fin 8) : Decidable (PartlyWritten f s) :=
  inferInstanceAs (Decidable (_ ∧ _))

/-- The last sector that is partly written, if there is one among `l`. -/
def lastPartly (f : Mem) (l : List (Fin 8)) : Option (Fin 8) :=
  l.reverse.find? fun s => PartlyWritten f s

/-- The last sector that is blank, if there is one among `l`. -/
def lastBlank (f : Mem) (l : List (Fin 8)) : Option (Fin 8) :=
  l.reverse.find? fun s => scanEnd f s = sectorBase s

/-- The last sector that is partly written, else the last blank one, else sector 0. -/
def bootSector (f : Mem) : Fin 8 := (lastPartly f sectors).getD ((lastBlank f sectors).getD ⟨0, by decide⟩)

/-- The scan of every sector of `l` got to its end. -/
def Complete (f : Mem) (l : List (Fin 8)) (curr : Curr) : Prop :=
  ∀ s ∈ l, curr.address s = scanEnd f s

/-- The loop of `fs_init` has done the sectors `done`. -/
structure Toured (crc : Block → BitVec 32) (f₀ : Mem) (done : List (Fin 8))
    (st : World × Fin 8 × Bool) : Prop where
  swept : ∃ seen, Swept crc f₀ seen st.1 ∧ (∀ a ∈ seen, ∃ s ∈ done, a ∈ scannedIn f₀ s) ∧
    (Complete f₀ done st.1.fs.curr → seen = done.flatMap (scannedIn f₀))
  pointer : ∀ s ∈ done, st.1.fs.curr.address s = scanEnd f₀ s ∨
    (st.1.fs.curr.address s ∈ scannedIn f₀ s ∧ Crowded crc f₀)
  assigned : Complete f₀ done st.1.fs.curr → st.2.2 = (lastPartly f₀ done).isSome
  target : Complete f₀ done st.1.fs.curr → ∀ s, lastPartly f₀ done = some s →
    st.1.fs.curr.sector = s
  blank : Complete f₀ done st.1.fs.curr → st.2.1 = (lastBlank f₀ done).getD 0

theorem lastPartly_snoc (f : Mem) (l : List (Fin 8)) (s : Fin 8) :
    lastPartly f (l ++ [s]) = if PartlyWritten f s then some s else lastPartly f l := by
  unfold lastPartly
  rw [List.reverse_append, List.reverse_singleton, List.singleton_append, List.find?_cons]
  by_cases h : PartlyWritten f s
  · simp [h]
  · simp [h]

theorem lastBlank_snoc (f : Mem) (l : List (Fin 8)) (s : Fin 8) :
    lastBlank f (l ++ [s]) = if scanEnd f s = sectorBase s then some s else lastBlank f l := by
  unfold lastBlank
  rw [List.reverse_append, List.reverse_singleton, List.singleton_append, List.find?_cons]
  by_cases h : scanEnd f s = sectorBase s
  · simp [h]
  · simp [h]

/-- A scan that runs out of descriptors has met more keys than there are descriptors. -/
theorem Swept.Stuck.crowded {f₀ : Mem} {seen : List Nat} {w : World} {a : Nat}
    (h : Swept.Stuck crc f₀ a w) (hsw : Swept crc f₀ seen w) (hin : ∀ b ∈ seen, b ∈ scanned f₀)
    (ha : a ∈ scanned f₀) : Crowded crc f₀ := by
  obtain ⟨c, hc, hno⟩ := h.copy
  have hnd : (c.key :: keys w.fs).Nodup := List.nodup_cons.2 ⟨hno, hsw.walk.nodup⟩
  have hsub : (c.key :: keys w.fs) ⊆ (scannedKeys crc f₀).dedup := by
    intro k hk
    rw [List.mem_dedup]
    rcases List.mem_cons.1 hk with rfl | hk
    · exact mem_scannedKeys.2 ⟨a, ha, c, hc, rfl⟩
    · exact hsw.key_mem hin hk
  have hlen := (hnd.subperm hsub).length_le
  have hfull := h.full
  unfold Crowded
  unfold keys at hlen
  rw [List.length_cons, List.length_map] at hlen
  omega

theorem sectorState_nonneg (curr : Curr) (s : Fin 8) : 0 ≤ sectorState curr s := by
  unfold sectorState
  split
  · exact Int.le_refl 0
  · split <;> decide

theorem sectorState_eq_zero {curr : Curr} {s : Fin 8} :
    sectorState curr s = 0 ↔ curr.address s = sectorBase s := by
  refine ⟨fun h => ?_, sectorState_blank⟩
  unfold sectorState at h
  split at h
  · next hb => exact hb
  · split at h <;> cases h

theorem sectorState_eq_one {curr : Curr} {s : Fin 8} :
    sectorState curr s = 1 ↔ Partial curr s := by
  refine ⟨fun h => ?_, sectorState_target⟩
  unfold sectorState at h
  split at h
  · cases h
  · next hb =>
    split at h
    · cases h
    · next hf => exact ⟨hb, hf⟩

section tour
variable {f₀ : Mem} {done : List (Fin 8)} {st : World × Fin 8 × Bool}

theorem Complete.snoc {f : Mem} {l : List (Fin 8)} {s : Fin 8} {curr curr' : Curr}
    (h : Complete f (l ++ [s]) curr') (hs : s ∉ l)
    (ho : ∀ t, t ≠ s → curr'.address t = curr.address t) : Complete f l curr := by
  intro t ht
  rw [← ho t (fun he => hs (he ▸ ht))]
  exact h t (List.mem_append_left _ ht)

/-- What the scan of sector `s` leaves, with the sectors `done` swept before it and `r` returned. -/
structure SectorDone (crc : Block → BitVec 32) (f₀ : Mem) (done : List (Fin 8)) (s : Fin 8)
    (w w' : World) (r : Int) : Prop where
  swept : ∃ seen, Swept crc f₀ seen w' ∧ (∀ a ∈ seen, ∃ t ∈ done ++ [s], a ∈ scannedIn f₀ t) ∧
    (Complete f₀ (done ++ [s]) w'.fs.curr → seen = (done ++ [s]).flatMap (scannedIn f₀))
  pointer : ∀ t ∈ done ++ [s], w'.fs.curr.address t = scanEnd f₀ t ∨
    (w'.fs.curr.address t ∈ scannedIn f₀ t ∧ Crowded crc f₀)
  sector : w'.fs.curr.sector = w.fs.curr.sector
  earlier : Complete f₀ (done ++ [s]) w'.fs.curr → Complete f₀ done w.fs.curr
  result : Complete f₀ (done ++ [s]) w'.fs.curr → r = sectorState w'.fs.curr s

theorem Toured.sectorDone (h : Toured crc f₀ done st) {s : Fin 8} (hs : s ∉ done) :
    ∃ w' r, initFileDescriptors crc s st.1 = (r, w') ∧ SectorDone crc f₀ done s st.1 w' r := by
  obtain ⟨seen, hsw, hin, hflat⟩ := h.swept
  have hapart : ∀ b ∈ seen, ¬ InSector s b := by
    intro b hb hsb
    obtain ⟨t, ht, hbt⟩ := hin b hb
    exact hs ((scannedIn_spec hbt).1.unique hsb ▸ ht)
  obtain ⟨l, w', r, he, hsw', hend⟩ := hsw.initFileDescriptors s hapart
  have hl : l ⊆ scannedIn f₀ s := by
    rcases hend.ends with ⟨h, -⟩ | ⟨-, h, -⟩
    · rw [h]
      exact List.Subset.refl _
    · exact h
  have hin' : ∀ a ∈ seen ++ l, ∃ t ∈ done ++ [s], a ∈ scannedIn f₀ t := by
    intro a ha
    rcases List.mem_append.1 ha with ha | ha
    · obtain ⟨t, ht, hat⟩ := hin a ha
      exact ⟨t, List.mem_append_left _ ht, hat⟩
    · exact ⟨s, List.mem_append_right _ (List.mem_singleton_self s), hl ha⟩
  have hwhole : Complete f₀ (done ++ [s]) w'.fs.curr →
      l = scannedIn f₀ s ∧ r = sectorState w'.fs.curr s := by
    intro hc
    rcases hend.ends with ⟨hl, -, hr⟩ | ⟨-, -, hp, -⟩
    · exact ⟨hl, hr⟩
    · have h₁ := hc s (List.mem_append_right _ (List.mem_singleton_self s))
      have h₂ := (mem_scannedIn.1 hp).2.1
      omega
  refine ⟨w', r, he, ⟨_, hsw', hin', fun hc => ?_⟩, ?_, hend.sector,
    fun hc => hc.snoc hs hend.others, fun hc => (hwhole hc).2⟩
  · rw [hflat (hc.snoc hs hend.others), (hwhole hc).1, List.flatMap_append,
      List.flatMap_singleton]
  · intro t ht
    by_cases hts : t = s
    · subst hts
      rcases hend.ends with ⟨-, hp, -⟩ | ⟨-, -, hp, hst⟩
      · exact Or.inl hp
      · refine Or.inr ⟨hp, hst.crowded hsw' (fun b hb => ?_) (mem_scanned.2 ⟨t, hp⟩)⟩
        obtain ⟨u, -, hu⟩ := hin' b hb
        exact mem_scanned.2 ⟨u, hu⟩
    · rw [hend.others t hts]
      refine h.pointer t ?_
      rcases List.mem_append.1 ht with ht | ht
      · exact ht
      · exact absurd (List.mem_singleton.1 ht) hts

namespace SectorDone
variable {s : Fin 8} {w w' : World} {r : Int}

theorem address (h : SectorDone crc f₀ done s w w' r)
    (hc : Complete f₀ (done ++ [s]) w'.fs.curr) :
    r = sectorState w'.fs.curr s ∧ w'.fs.curr.address s = scanEnd f₀ s :=
  ⟨h.result hc, hc s (List.mem_append_right _ (List.mem_singleton_self s))⟩

theorem not_complete (h : SectorDone crc f₀ done s w w' r) (hr : r < 0) :
    ¬ Complete f₀ (done ++ [s]) w'.fs.curr := by
  intro hc
  rw [h.result hc] at hr
  exact absurd hr (Int.not_lt.2 (sectorState_nonneg _ s))

/-- 0 is returned for a blank sector. -/
theorem lastBlank (h : SectorDone crc f₀ done s w w' r)
    (hc : Complete f₀ (done ++ [s]) w'.fs.curr) :
    Wormvars.lastBlank f₀ (done ++ [s]) = if r = 0 then some s else Wormvars.lastBlank f₀ done := by
  obtain ⟨hr, ha⟩ := h.address hc
  rw [lastBlank_snoc, ← ha, hr]
  simp only [sectorState_eq_zero]

/-- 1 is returned for a partly written sector. -/
theorem lastPartly (h : SectorDone crc f₀ done s w w' r)
    (hc : Complete f₀ (done ++ [s]) w'.fs.curr) :
    Wormvars.lastPartly f₀ (done ++ [s]) =
      if r = 1 then some s else Wormvars.lastPartly f₀ done := by
  obtain ⟨hr, ha⟩ := h.address hc
  have hone : r = 1 ↔ PartlyWritten f₀ s := by
    rw [hr, sectorState_eq_one]
    unfold Partial PartlyWritten
    rw [ha]
  rw [lastPartly_snoc]
  simp only [hone]

end SectorDone

theorem Toured.initSector (h : Toured crc f₀ done st) {s : Fin 8} (hs : s ∉ done) :
    Toured crc f₀ (done ++ [s]) (initSector crc st s) := by
  obtain ⟨w', r, he, hd⟩ := h.sectorDone hs
  -- a sector that is not partly written leaves the target as it is
  have htar : r ≠ 1 → Complete f₀ (done ++ [s]) w'.fs.curr → ∀ t,
      lastPartly f₀ (done ++ [s]) = some t → w'.fs.curr.sector = t := by
    intro hr hc t ht
    rw [hd.lastPartly hc, if_neg hr] at ht
    exact hd.sector.trans (h.target (hd.earlier hc) t ht)
  have hass : r ≠ 1 → Complete f₀ (done ++ [s]) w'.fs.curr →
      st.2.2 = (lastPartly f₀ (done ++ [s])).isSome := by
    intro hr hc
    rw [hd.lastPartly hc, if_neg hr]
    exact h.assigned (hd.earlier hc)
  have hbl : r ≠ 0 → Complete f₀ (done ++ [s]) w'.fs.curr →
      st.2.1 = (lastBlank f₀ (done ++ [s])).getD 0 := by
    intro hr hc
    rw [hd.lastBlank hc, if_neg hr]
    exact h.blank (hd.earlier hc)
  unfold Wormvars.initSector
  simp only [he]
  split
  · -- out of descriptors
    next hneg =>
    have hno := hd.not_complete hneg
    exact ⟨hd.swept, hd.pointer, fun hc => absurd hc hno, fun hc => absurd hc hno,
      fun hc => absurd hc hno⟩
  · split
    · -- a blank sector
      next h0 =>
      refine ⟨hd.swept, hd.pointer, hass (by omega), htar (by omega), fun hc => ?_⟩
      rw [hd.lastBlank hc, if_pos h0]
      rfl
    · next h0 =>
      split
      · -- a partly written sector
        next h1 =>
        obtain ⟨seen, hsw, hin, hflat⟩ := hd.swept
        refine ⟨⟨seen, hsw.congr rfl rfl rfl, hin, hflat⟩, hd.pointer, fun hc => ?_,
          fun hc t ht => ?_, hbl h0⟩
        · rw [hd.lastPartly hc, if_pos h1]
          rfl
        · rw [hd.lastPartly hc, if_pos h1] at ht
          exact Option.some.inj ht
      · -- a full sector
        next h1 => exact ⟨hd.swept, hd.pointer, hass h1, htar h1, hbl h0⟩

theorem toured_start (crc : Block → BitVec 32) (f : Mem) :
    Toured crc f [] (⟨.zero, f, []⟩, 0, false) := by
  have hw : Walk crc f [] ⟨.zero, f, []⟩ := Walk.start (w := ⟨.zero, f, []⟩) rfl
  refine ⟨⟨[], ⟨hw, (thinned_nil crc f).symm, Nat.zero_le _, fun _ => rfl⟩, ?_,
    fun _ => rfl⟩, ?_, fun _ => rfl, ?_, fun _ => rfl⟩
  · intro a ha
    cases ha
  · intro s hs
    cases hs
  · intro _ s hs
    cases hs

end tour

/-! ## The whole of `fs_init` -/

/-- What a boot from the flash `f` leaves, whatever `f` holds: all sectors have been swept, unless
there are more keys than descriptors. -/
structure Rebuilt (crc : Block → BitVec 32) (f : Mem) (w : World) : Prop where
  swept : ∃ seen, Swept crc f seen w ∧ (∀ a ∈ seen, a ∈ scanned f) ∧
    (Complete f sectors w.fs.curr → seen = scanned f)
  pointer : ∀ s, w.fs.curr.address s = scanEnd f s ∨
    (w.fs.curr.address s ∈ scannedIn f s ∧ Crowded crc f)
  sector : Complete f sectors w.fs.curr → w.fs.curr.sector = bootSector f
  idle : w.fs.pt = .null

theorem coldBoot_rebuilt (crc : Block → BitVec 32) (f : Mem) : Rebuilt crc f (coldBoot crc f) := by
  have ht := initSector_loop (I := Toured crc f) (fun _ _ _ hs h => h.initSector hs)
    (toured_start crc f)
  unfold coldBoot fsInit
  generalize sectors.foldl (Wormvars.initSector crc) (⟨.zero, f, []⟩, 0, false) = st at ht
  obtain ⟨w, blankSector, sectorAssigned⟩ := st
  obtain ⟨⟨seen, hsw, hin, hflat⟩, hptr, hass, htar, hbl⟩ := ht
  simp only at hsw hin hflat hptr hass htar hbl
  have hin' : ∀ a ∈ seen, a ∈ scanned f := by
    intro a ha
    obtain ⟨s, -, hs⟩ := hin a ha
    exact mem_scanned.2 ⟨s, hs⟩
  cases sectorAssigned with
  | true =>
    refine ⟨⟨seen, hsw.congr rfl rfl rfl, hin', hflat⟩, fun s => hptr s (mem_sectors s),
      fun hc => ?_, rfl⟩
    obtain ⟨s, hs⟩ := Option.isSome_iff_exists.1 (hass hc).symm
    refine (htar hc s hs).trans ?_
    unfold bootSector
    rw [hs]
    rfl
  | false =>
    refine ⟨⟨seen, hsw.congr rfl rfl rfl, hin', hflat⟩, fun s => hptr s (mem_sectors s),
      fun hc => ?_, rfl⟩
    have hnone : lastPartly f sectors = none := by
      have := (hass hc).symm
      simpa using this
    show blankSector = _
    unfold bootSector
    rw [hnone, hbl hc]
    rfl

namespace Rebuilt
variable {f : Mem} {w : World}

theorem complete (h : Rebuilt crc f w) (hfit : ¬ Crowded crc f) : Complete f sectors w.fs.curr :=
  fun s _ => (h.pointer s).resolve_right fun h => hfit h.2

theorem swept_scanned (h : Rebuilt crc f w) (hc : Complete f sectors w.fs.curr) :
    Swept crc f (scanned f) w := by
  obtain ⟨seen, hsw, -, hall⟩ := h.swept
  rwa [← hall hc]

end Rebuilt

section final
variable {f : Mem} {seen : List Nat} {w : World}

theorem Swept.mem_keys (h : Swept crc f (scanned f) w) {k : Key} :
    k ∈ keys w.fs ↔ k ∈ scannedKeys crc f := by
  refine ⟨h.key_mem fun _ ha => ha, fun hk => ?_⟩
  obtain ⟨a, ha, c, hc, hk⟩ := mem_scannedKeys.1 hk
  obtain ⟨b, hb⟩ := Option.isSome_iff_exists.1 (elect_isSome ha hc hk)
  obtain ⟨fd, hm, hfk⟩ := h.walk.complete k b hb
  exact List.mem_map.2 ⟨fd, hm, hfk⟩

/-- Every key got its descriptor: there are not more than descriptors. -/
theorem Swept.not_crowded (h : Swept crc f (scanned f) w) : ¬ Crowded crc f := by
  have hsub : (scannedKeys crc f).dedup ⊆ keys w.fs := by
    intro k hk
    rw [List.mem_dedup] at hk
    exact h.mem_keys.2 hk
  have hlen := ((List.nodup_dedup _).subperm hsub).length_le
  have := h.len
  unfold keys at hlen
  rw [List.length_map] at hlen
  unfold Crowded
  omega

/-- Which descriptors there are. -/
theorem Swept.mem_fd (h : Swept crc f seen w) (fd : FileDescriptor) : fd ∈ w.fs.fd ↔
    elect (copies crc f) fd.header.key seen = some fd.address ∧ InSector fd.sector fd.address ∧
      (flashRead w.flash fd.address).header = fd.header := by
  refine ⟨fun hm => ⟨h.walk.elected fd hm, h.walk.sector fd hm, h.walk.header fd hm⟩, ?_⟩
  rintro ⟨he, hs, hh⟩
  obtain ⟨x, hx, hk⟩ := h.walk.complete _ _ he
  have hxa := h.walk.elected x hx
  rw [hk, he] at hxa
  have ha : fd.address = x.address := Option.some.inj hxa
  have hfd : fd = x := by
    obtain ⟨a, g, s⟩ := fd
    obtain ⟨a', g', s'⟩ := x
    obtain rfl : a = a' := ha
    obtain rfl : g = g' := hh.symm.trans (h.walk.header _ hx)
    obtain rfl : s = s' := hs.unique (h.walk.sector _ hx)
    rfl
  rw [hfd]
  exact hx

/-- What the walk zeroes: the first byte of the valid cells that were seen and have no descriptor. -/
theorem Swept.flash_eq (h : Swept crc f seen w) (x : Nat) : w.flash x =
    if x ∈ seen ∧ (copies crc f x).isSome ∧ ∀ fd ∈ w.fs.fd, fd.address ≠ x
    then f x &&& 0xF3 else f x := by
  rw [h.flash]
  unfold thinned
  cases hc : copies crc f x with
  | none => simp
  | some c =>
    congr 1
    simp only [Option.isSome_some, true_and, Option.isNone_iff_eq_none, eq_iff_iff]
    constructor
    · intro hnone
      have hx : x ∈ seen ∧ elect (copies crc f) c.key seen ≠ some x := by
        by_contra hno
        have : survivors (copies crc f) seen x = some c :=
          survivors_some.2 ⟨hc, fun hm => by_contra fun hne => hno ⟨hm, hne⟩⟩
        rw [hnone] at this
        cases this
      refine ⟨hx.1, fun fd hm ha => ?_⟩
      have hcw := (h.walk.copy hm).2.2.1
      rw [h.walk.dropped, ha, hnone] at hcw
      cases hcw
    · rintro ⟨hm, hno⟩
      cases hsv : survivors (copies crc f) seen x with
      | none => rfl
      | some d =>
        obtain ⟨hd, he⟩ := survivors_some.1 hsv
        obtain ⟨fd, hfd, hk⟩ := h.walk.complete _ _ (he hm)
        have := h.walk.elected fd hfd
        rw [hk, he hm] at this
        exact absurd (Option.some.inj this).symm (hno fd hfd)

/-- No header becomes blank, and none ceases to be. -/
theorem Swept.blankHeader_iff (h : Swept crc f seen w) {a : Nat} (ha : IsCell a) :
    BlankHeader (flashRead w.flash a) ↔ BlankHeader (flashRead f a) := by
  have hcell : ∀ i, 0 < i → i < 4 → w.flash (a + i) = f (a + i) := by
    intro i h₁ h₂
    rw [h.flash]
    exact thinned_of_not_cell fun hc => by
      unfold IsCell at ha hc
      omega
  by_cases hz : w.flash a = f a
  · rw [Wormvars.blankHeader_iff, Wormvars.blankHeader_iff]
    refine forall₂_congr fun i hi => ?_
    rcases Nat.eq_zero_or_pos i with rfl | hpos
    · rw [Nat.add_zero, hz]
    · rw [hcell i hpos hi]
  · -- a copy that was passed over
    have he := h.flash_eq a
    split at he
    · next hx =>
      obtain ⟨c, hc⟩ := Option.isSome_iff_exists.1 hx.2.1
      refine iff_of_false (fun hb => ?_) (copies_some_iff.1 hc).1.2.not_blank
      have h0 := (Wormvars.blankHeader_iff _ _).1 hb 0 (by omega)
      rw [Nat.add_zero, he] at h0
      have := congrArg (BitVec.getLsbD · 2) h0
      simp at this
    · exact absurd he hz

theorem Swept.scannedIn_eq (h : Swept crc f seen w) (s : Fin 8) :
    scannedIn w.flash s = scannedIn f s := by
  have hcongr : ∀ l : List Nat, (∀ a ∈ l, IsCell a) →
      (l.takeWhile fun a => ¬ BlankHeader (flashRead w.flash a)) =
        l.takeWhile fun a => ¬ BlankHeader (flashRead f a) := by
    intro l
    induction l with
    | nil => exact fun _ => rfl
    | cons a l ih =>
      intro hl
      rw [List.takeWhile_cons, List.takeWhile_cons,
        ih fun b hb => hl b (List.mem_cons_of_mem a hb)]
      simp only [h.blankHeader_iff (hl a List.mem_cons_self)]
  refine hcongr _ fun a ha => ?_
  have hm := mem_cellsFrom.1 ha
  have := sectorBase_mod s
  exact InSector.isCell (s := s) ⟨hm.1, by
    simpa [fdsPerSector, filesystemSectorSize, fsBlockSize] using hm.2.1⟩ (by omega)

/-- A second boot. -/
theorem Swept.again (h : Swept crc f (scanned f) w) : (coldBoot crc w.flash).log = [] ∧
    (coldBoot crc w.flash).flash = w.flash ∧ (coldBoot crc w.flash).fs.fd.Perm w.fs.fd := by
  have hcold := coldBoot_rebuilt crc w.flash
  have hscan : scanned w.flash = scanned f := by
    unfold scanned
    rw [funext h.scannedIn_eq]
  have hkeys : (scannedKeys crc w.flash).dedup ⊆ (scannedKeys crc f).dedup := by
    intro k hk
    rw [List.mem_dedup, mem_scannedKeys] at hk ⊢
    obtain ⟨a, ha, c, hc, hk⟩ := hk
    rw [h.walk.dropped] at hc
    exact ⟨a, hscan ▸ ha, c, (survivors_some.1 hc).1, hk⟩
  have hfit : ¬ Crowded crc w.flash := by
    have := ((List.nodup_dedup _).subperm hkeys).length_le
    have := h.not_crowded
    unfold Crowded at this ⊢
    omega
  have hsw := hcold.swept_scanned (hcold.complete hfit)
  rw [hscan] at hsw
  have hsurv : survivors (copies crc w.flash) (scanned f) = copies crc w.flash := by
    rw [h.walk.dropped, survivors_survivors]
  have hflash : (coldBoot crc w.flash).flash = w.flash := by
    rw [hsw.flash, thinned_congr (hsurv.trans (survivors_nil _).symm), thinned_nil]
  refine ⟨hsw.quiet hsurv, hflash, ?_⟩
  refine (List.perm_ext_iff_of_nodup (List.Nodup.of_map _ hsw.walk.nodup)
    (List.Nodup.of_map _ h.walk.nodup)).2 fun fd => ?_
  rw [hsw.mem_fd, h.mem_fd, hflash, h.walk.dropped, elect_survivors]

end final

/-- The meaning of `fs_init` on a flash of any content whose scanned cells hold 300 keys at most. -/
theorem coldBoot_meaning (crc : Block → BitVec 32) (f : Mem)
    (hfit : (scannedKeys crc f).dedup.length ≤ fdMax) :
    let w := coldBoot crc f
    ((keys w.fs).Nodup ∧ ∀ k, k ∈ keys w.fs ↔ k ∈ scannedKeys crc f) ∧
    (∀ fd ∈ w.fs.fd, InSector fd.sector fd.address ∧
      fd.header = (flashRead f fd.address).header ∧
      some fd.address = ((scanned f).find? (flagged (copies crc f) fd.header.key)).or
        ((scanned f).find? (holds (copies crc f) fd.header.key))) ∧
    (∀ x, w.flash x =
      if x ∈ scanned f ∧ (copies crc f x).isSome ∧ ∀ fd ∈ w.fs.fd, fd.address ≠ x
      then f x &&& 0xF3 else f x) ∧
    (∀ s, w.fs.curr.address s = scanEnd f s) ∧ w.fs.curr.sector = bootSector f ∧
    (coldBoot crc w.flash).log = [] ∧ (coldBoot crc w.flash).flash = w.flash ∧
      (coldBoot crc w.flash).fs.fd.Perm w.fs.fd := by
  intro w
  have hcold : Rebuilt crc f w := coldBoot_rebuilt crc f
  have hcomplete := hcold.complete (Nat.not_lt.2 hfit)
  have hsw := hcold.swept_scanned hcomplete
  refine ⟨⟨hsw.walk.nodup, fun k => hsw.mem_keys⟩, fun fd hm => ⟨hsw.walk.sector fd hm, ?_, ?_⟩,
    hsw.flash_eq, fun s => hcomplete s (mem_sectors s), hcold.sector hcomplete, hsw.again⟩
  · -- the cell of a descriptor has not been touched
    obtain ⟨hcell, -, -, -⟩ := hsw.walk.copy hm
    rw [← hsw.walk.header fd hm]
    congr 1
    apply flashRead_congr
    intro x h₁ h₂
    rw [hsw.flash_eq]
    refine if_neg fun hx => ?_
    obtain ⟨c, hc⟩ := Option.isSome_iff_exists.1 hx.2.1
    have hxc := (copies_some_iff.1 hc).1.1
    unfold IsCell at hcell hxc
    exact hx.2.2 fd hm (by omega)
  · rw [← elect_eq_find]
    exact (hsw.walk.elected fd hm).symm

/-- Two copies of the key `(7, 1)`, the second one with the newer flag. -/
def twoCopies : Mem :=
  program (program (fun _ => 0xFF) 0xF4000
    (updateBlockHash (fun _ => 0) (writeBuffer 7 1 [1]) fsSize32 fsBlockCurrent).toBytes) 0xF4020
    (updateBlockHash (fun _ => 0) (writeBuffer 7 1 [2]) fsSize32 fsBlockNewer).toBytes

theorem scannedKeys_twoCopies : scannedKeys (fun _ => 0) twoCopies = [(7, 1), (7, 1)] := by
  decide +kernel

theorem coldBoot_meaning_two : (7, 1) ∈ keys (coldBoot (fun _ => 0) twoCopies).fs ∧
    ∀ fd ∈ (coldBoot (fun _ => 0) twoCopies).fs.fd, fd.address = 0xF4020 := by
  obtain ⟨⟨-, hkeys⟩, hfd, -⟩ := coldBoot_meaning (fun _ => 0) twoCopies
    (by rw [scannedKeys_twoCopies]; decide)
  refine ⟨(hkeys _).2 (by rw [scannedKeys_twoCopies]; decide), fun fd hm => ?_⟩
  have hkey : fd.header.key = (7, 1) := by
    have := (hkeys _).1 (List.mem_map.2 ⟨fd, hm, rfl⟩)
    rw [scannedKeys_twoCopies] at this
    simpa using this
  have hfirst : (scanned twoCopies).find? (flagged (copies (fun _ => 0) twoCopies) (7, 1)) =
      some 0xF4020 := by decide +kernel
  have := (hfd fd hm).2.2
  rw [hkey, hfirst] at this
  simpa using this

end Wormvars
