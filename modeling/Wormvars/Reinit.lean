import Wormvars.Refinement

/-!
# `fs_init` on a running system

`fs_init` does not clear `Fs`.  It compares every valid cell with the
descriptors that are there already, and takes the cell of a descriptor for a
second copy of it: every block is invalidated (`fsInit_again`), and `fs_read`,
which does not check the block, goes on as before.

So a second `fs_init` is harmless only while there are no descriptors
(`reinit_harmless_iff`); one variable is enough to lose it (`reinit_loses`).
-/

namespace Wormvars

open NorFlash NewerLog Runs

variable {crc : Block → BitVec 32} {n : Nat} {w : World}

/-! ## Runs -/

inductive WarmLabel where
  | call (c : Call) (r : Result)
  /-- `fs_init` with `Fs` as it is -/
  | init

inductive WarmStep (crc : Block → BitVec 32) (n : Nat) : World → WarmLabel → World → Prop
  | call (w : World) (c : Call) (r : Result) (w' : World) :
      c.exec crc n w.fresh = some (r, w') → WarmStep crc n w (.call c r) w'
  | init (w : World) : WarmStep crc n w .init (fsInit crc w.fresh)

/-- No write fails for want of a descriptor, `fs_init` is called without descriptors. -/
structure WarmGuarded (crc : Block → BitVec 32) (n : Nat) (w : World) (l : WarmLabel)
    (w' : World) : Prop where
  step : WarmStep crc n w l w'
  slot : ∀ c r, l = .call c r → SlotFor w c
  bare : l = .init → w.fs.fd = []

/-- `fs_init` has no effect on stored data. -/
structure Harmless (crc : Block → BitVec 32) (w : World) : Prop where
  valid : ∀ a, IsCell a → Accepted crc (flashRead w.flash a) →
    Accepted crc (flashRead (fsInit crc w.fresh).flash a)
  reads : ∀ name ext len, fsRead (fsInit crc w.fresh) name ext len = fsRead w name ext len
  reboot : ∀ name ext len,
    fsRead (coldBoot crc (fsInit crc w.fresh).flash) name ext len = fsRead w name ext len
  found : ∀ (name : BitVec 16) (ext : BitVec 8) len,
    (∀ a, IsCell a → Accepted crc (flashRead (fsInit crc w.fresh).flash a) →
      (flashRead (fsInit crc w.fresh).flash a).header.key ≠ (name, ext.setWidth 3)) →
    fsRead (fsInit crc w.fresh) name ext len = .notFound

/-! ## Descriptors are never given back -/

section descriptors
variable {thread : World → Option World}
  {write : World → BitVec 16 → BitVec 8 → List Byte → Option (Int × World)}

theorem appendBlock_descriptors (crc : Block → BitVec 32) (w : World) (buffer : Block) :
    w.fs.fd.length ≤ (appendBlock crc w buffer).2.fs.fd.length := by
  by_cases hi : findFd w.fs.fd buffer.header < fdMax
  · obtain ⟨-, hp, -⟩ := appendBlock_placed crc w buffer hi
    have hk := congrArg List.length hp.keys
    unfold keys at hk
    split at hk
    · rw [List.length_map, List.length_map] at hk
      omega
    · rw [List.length_append, List.length_map, List.length_map] at hk
      omega
  · have hlen := (stageBlock_fs crc w buffer).1.len
    have hc : (clearNewer w (findFd w.fs.fd buffer.header)).fs.curr = w.fs.curr :=
      (clearNewer_fs w _).1.curr
    have he : appendBlock crc w buffer = (stageBlock crc w buffer).returns (-1) := by
      unfold appendBlock stageBlock
      simp only [hc, if_neg hi]
    rw [he]
    exact Nat.le_of_eq hlen.symm

theorem updateSectorWith_descriptors
    (ht : ∀ u v, thread u = some v → u.fs.fd.length ≤ v.fs.fd.length) {r : Int × World}
    (h : updateSectorWith thread w = some r) : w.fs.fd.length ≤ r.2.fs.fd.length := by
  unfold updateSectorWith at h
  split at h
  · split at h
    · next s _ =>
      obtain ⟨v, hv, rfl⟩ := Option.map_eq_some_iff.1 h
      exact ht (w.setSector s) v hv
    · cases h
      exact Nat.le_refl _
  · cases h
    exact Nat.le_refl _

theorem fsWriteWith_descriptors
    (ht : ∀ u v, thread u = some v → u.fs.fd.length ≤ v.fs.fd.length) {name : BitVec 16}
    {ext : BitVec 8} {data : List Byte} {r : Int × World}
    (h : fsWriteWith crc thread w name ext data = some r) :
    w.fs.fd.length ≤ r.2.fs.fd.length := by
  unfold fsWriteWith at h
  split at h
  · cases h
    exact Nat.le_refl _
  · split at h
    · cases h
    · next r v hu =>
      have hv := updateSectorWith_descriptors ht hu
      split at h
      · cases h
        exact hv
      · cases h
        exact hv.trans (appendBlock_descriptors crc v _)

theorem relocRead_fd (ans : Answers) (w : World) : (relocRead ans w).2.fs.fd = w.fs.fd := by
  unfold relocRead
  split <;> rfl

theorem relocErase_fd (ans : Answers) (w : World) : (relocErase ans w).2.fs.fd = w.fs.fd := by
  unfold relocErase
  split <;> rfl

theorem relocLoop_fd (ans : Answers) (l : List FileDescriptor) :
    ∀ w : World, (relocLoop ans l w).2.fs.fd = w.fs.fd := by
  induction l with
  | nil => exact relocErase_fd ans
  | cons fd l ih =>
    intro w
    unfold relocLoop
    split
    · exact relocRead_fd ans _
    · exact ih _

theorem relocNext_fd (ans : Answers) (w : World) : (relocNext ans w).2.fs.fd = w.fs.fd :=
  relocLoop_fd ans _ _

theorem relocWrite_descriptors
    (hw : ∀ u name ext data r, write u name ext data = some r →
      u.fs.fd.length ≤ r.2.fs.fd.length) {r : PtCode × World} (h : relocWrite write w = some r) :
    w.fs.fd.length ≤ r.2.fs.fd.length := by
  unfold relocWrite at h
  simp only at h
  split at h
  · cases h
  · next hr =>
    have := hw _ _ _ _ _ hr
    split at h <;> cases h <;> exact this

theorem fsThreadWith_descriptors
    (hw : ∀ u name ext data r, write u name ext data = some r →
      u.fs.fd.length ≤ r.2.fs.fd.length) {ans : Answers} {flag : Bool} {r : PtCode × World}
    (h : fsThreadWith write ans flag w = some r) : w.fs.fd.length ≤ r.2.fs.fd.length := by
  have hsame : ∀ {x : PtCode × World}, x.2.fs.fd = w.fs.fd → some x = some r →
      w.fs.fd.length ≤ r.2.fs.fd.length := by
    rintro x hx ⟨⟩
    rw [hx]
  unfold fsThreadWith at h
  split at h
  · split at h <;> exact hsame (by rfl) h
  · split at h <;> exact hsame (by rfl) h
  · split at h
    · exact hsame (by rfl) h
    · cases h
      refine Nat.le_of_eq (congrArg List.length ?_).symm
      exact relocLoop_fd ans _ _
  · exact hsame (relocRead_fd ans w) h
  · split at h
    · cases h
    · split at h
      · exact relocWrite_descriptors hw h
      · exact hsame (by rfl) h
  · exact relocWrite_descriptors hw h
  · exact hsame (relocNext_fd ans w) h
  · exact hsame (relocErase_fd ans w) h

theorem fsThread_descriptors (crc : Block → BitVec 32) (ans : Answers) (n : Nat) :
    ∀ flag w r, fsThread crc ans n flag w = some r → w.fs.fd.length ≤ r.2.fs.fd.length := by
  induction n with
  | zero =>
    intro flag w r h
    cases h
  | succ n ih =>
    intro flag w r h
    refine fsThreadWith_descriptors (fun u name ext data r hr => ?_) h
    refine fsWriteWith_descriptors (fun u v hv => ?_) hr
    obtain ⟨r, hr, rfl⟩ := Option.map_eq_some_iff.1 hv
    exact ih true u r hr

theorem exec_descriptors {c : Call} {r : Result} {w' : World}
    (h : c.exec crc n w = some (r, w')) : w.fs.fd.length ≤ w'.fs.fd.length := by
  cases c with
  | read name ext len =>
    cases h
    exact Nat.le_refl _
  | thread ans =>
    obtain ⟨x, hx, he⟩ := Option.map_eq_some_iff.1 h
    cases he
    exact fsThread_descriptors crc ans n _ _ _ hx
  | write name ext data ans =>
    obtain ⟨x, hx, he⟩ := Option.map_eq_some_iff.1 h
    cases he
    refine fsWriteWith_descriptors (fun u v hv => ?_) hx
    obtain ⟨y, hy, rfl⟩ := Option.map_eq_some_iff.1 hv
    exact fsThread_descriptors crc ans n _ _ _ hy

end descriptors

/-! ## `fs_init` as a walk over the sectors -/

/-- What the scan of every sector keeps, and the choice of the current sector, `fs_init` keeps. -/
theorem fsInit_invariant {I : List (Fin 8) → World → Prop} (h0 : I [] w)
    (hscan : ∀ done s v, I done v → I (done ++ [s]) (initFileDescriptors crc s v).2)
    (hsector : ∀ done s v, I done v → I done (v.setSector s))
    (hpt : ∀ done v, I done v → I done (v.setPt .null)) : I sectors (fsInit crc w) := by
  have hturn : ∀ (done : List (Fin 8)) (st : World × Fin 8 × Bool) (s : Fin 8), s ∉ done →
      I done st.1 → I (done ++ [s]) (initSector crc st s).1 := by
    intro done st s _ h
    have := hscan done s st.1 h
    unfold initSector
    simp only
    split
    · exact this
    · split
      · exact this
      · split
        · exact hsector _ _ _ this
        · exact this
  have h0' : I [] ((w, (0 : Fin 8), false) : World × Fin 8 × Bool).1 := h0
  have hall := initSector_loop (I := fun done st => I done st.1) hturn h0'
  unfold fsInit
  generalize sectors.foldl (initSector crc) (w, 0, false) = st at hall
  obtain ⟨v, blankSector, sectorAssigned⟩ := st
  cases sectorAssigned with
  | true => exact hpt _ _ hall
  | false => exact hpt _ _ (hsector _ _ _ hall)

theorem scanCells_descriptors (s : Fin 8) (n : Nat) : ∀ (a : Nat) (w : World),
    w.fs.fd.length ≤ (scanCells crc s n a w).2.fs.fd.length := by
  induction n with
  | zero => exact fun _ _ => Nat.le_refl _
  | succ n ih =>
    intro a w
    by_cases hacc : Accepted crc (flashRead w.flash a)
    · cases hg : w.fs.fd[findFd w.fs.fd (flashRead w.flash a).header]? with
      | some fd =>
        rw [scanCells_found n hacc hg]
        refine Nat.le_trans ?_ (ih _ _)
        rw [resolveDuplicate_descriptors]
        exact Nat.le_refl _
      | none =>
        rw [scanCells_push n hacc hg]
        split
        · refine Nat.le_trans ?_ (ih _ _)
          simp [World.pushFd, World.setAddress]
        · exact Nat.le_refl _
    · rw [scanCells_invalid n hacc]
      split
      · exact Nat.le_refl _
      · exact ih _ (w.setAddress s a)

theorem fsInit_descriptors (crc : Block → BitVec 32) (w : World) :
    w.fs.fd.length ≤ (fsInit crc w).fs.fd.length :=
  fsInit_invariant (I := fun _ v => w.fs.fd.length ≤ v.fs.fd.length) (Nat.le_refl _)
    (fun _ s v h => h.trans (scanCells_descriptors s fdsPerSector (sectorBase s) v))
    (fun _ _ _ h => h) (fun _ _ h => h)

/-! ## Without descriptors -/

theorem fsRead_nil (h : w.fs.fd = []) (name : BitVec 16) (ext : BitVec 8) (len : Nat) :
    fsRead w name ext len = .notFound := by
  unfold fsRead
  simp [h]

theorem contents_of_fd_nil {fs : Fs} {f : Mem} (h : fs.fd = []) : contents fs f = fun _ => none := by
  funext k
  simp [contents, h]

/-- A boot from a flash without valid cells finds nothing. -/
theorem coldBoot_empty {curr : Curr} {f : Mem} (hs : Shape curr f)
    (hno : ∀ a, IsCell a → ¬ Accepted crc (flashRead f a)) : (coldBoot crc f).fs.fd = [] := by
  have hM : Represents (copies crc f) fun _ => none := by
    constructor
    · intro a c hc
      obtain ⟨⟨hcell, hacc⟩, -⟩ := copies_some_iff.1 hc
      exact absurd hacc (hno a hcell)
    · intro k v hv
      cases hv
  exact fd_nil_of_contents (coldBoot_spec hs hM ⟨[], Nat.zero_le _, fun k hk => by cases hk⟩).contents

/-- Without descriptors there is nothing on flash that `fs_init` could lose. -/
theorem fsInit_bare (hi : Inv crc w.fs w.flash) (hfd : w.fs.fd = []) :
    Booted crc w.flash w.fs.curr (fun _ => none) (fsInit crc w.fresh) ∧
      (fsInit crc w.fresh).fs.fd = [] ∧ (fsInit crc w.fresh).flash = w.flash ∧
      ∀ a, IsCell a → ¬ Accepted crc (flashRead w.flash a) := by
  have hM := hi.index.represents
  have hfit := hi.index.fits
  rw [contents_of_fd_nil hfd] at hM hfit
  have hb : Booted crc w.flash w.fs.curr (fun _ => none) (fsInit crc w.fresh) :=
    fsInit_spec (v := w.fresh) hfd rfl hi.shape hM hfit
  refine ⟨hb, fd_nil_of_contents hb.contents, (hb.quiet hi.index.single).1, fun a ha hacc => ?_⟩
  obtain ⟨fd, hm, -⟩ := hi.index.complete a _ (copies_eq_some ha hacc)
  rw [hfd] at hm
  cases hm

theorem harmless_of_bare (hi : Inv crc w.fs w.flash) (hfd : w.fs.fd = []) : Harmless crc w := by
  obtain ⟨-, hfd', hflash, hno⟩ := fsInit_bare hi hfd
  constructor
  · intro a ha hacc
    exact absurd hacc (hno a ha)
  · intro name ext len
    rw [fsRead_nil hfd', fsRead_nil hfd]
  · intro name ext len
    rw [hflash, fsRead_nil (coldBoot_empty hi.shape hno), fsRead_nil hfd]
  · intro name ext len _
    exact fsRead_nil hfd' name ext len

/-! ## With descriptors -/

/-- `fs_init`, started in `w` with all its valid cells in the index, has visited the cells `D`:
the descriptors are the same, and no cell of `D` is valid. -/
structure Rescan (crc : Block → BitVec 32) (w : World) (D : Nat → Prop) (v : World) : Prop where
  fd : v.fs.fd = w.fs.fd
  shape : Shape w.fs.curr v.flash
  data : ∀ a, IsCell a → (flashRead v.flash a).data = (flashRead w.flash a).data
  valid : ∀ a, IsCell a → Accepted crc (flashRead v.flash a) →
    flashRead v.flash a = flashRead w.flash a
  rejected : ∀ a, IsCell a → D a → ¬ Accepted crc (flashRead v.flash a)

section rescan
variable {D E : Nat → Prop} {v : World}

theorem Rescan.mono (h : Rescan crc w D v) (hE : ∀ a, E a → D a) : Rescan crc w E v :=
  ⟨h.fd, h.shape, h.data, h.valid, fun a ha he => h.rejected a ha (hE a he)⟩

/-- The cell of a descriptor is compared with itself: neither is newer, and it is invalidated. -/
theorem Rescan.drop (h : Rescan crc w D v) (hx : Indexed crc w.fs w.flash) {s : Fin 8} {a : Nat}
    (hlo : sectorBase s ≤ a) (hlt : a < w.fs.curr.address s) (hal : a % 32 = 0)
    (hacc : Accepted crc (flashRead v.flash a)) (n : Nat) :
    ∃ u, Rescan crc w (fun b => D b ∨ b = a) u ∧
      scanCells crc s (n + 1) a v = scanCells crc s n (a + fsBlockSize) u := by
  have hc : IsCell a := h.shape.isCell hlo hlt hal
  have hva := h.valid a hc hacc
  obtain ⟨fd, hm, ha⟩ := hx.complete a _ (copies_eq_some hc (hva ▸ hacc))
  have hhead : (flashRead v.flash a).header = fd.header := by rw [hva, ← ha, hx.header fd hm]
  -- the descriptor that is found is the one of the cell
  have hg : v.fs.fd[findFd v.fs.fd (flashRead v.flash a).header]? = some fd := by
    rcases isSlot_findFd v.fs.fd (flashRead v.flash a).header with ⟨fd', hg, hk⟩ | ⟨-, hno⟩
    · rw [hg]
      have hm' := List.mem_of_getElem? hg
      rw [h.fd] at hm'
      rw [hhead] at hk
      rw [eq_of_key hx.nodup hm' hm hk]
    · rw [h.fd, hhead] at hno
      exact absurd rfl (hno fd hm)
  have hcase : ¬ (fd.header.newer = fsBlockCurrent ∧
      (flashRead v.flash a).header.newer = fsBlockNewer) := by
    rw [hhead]
    rintro ⟨h₁, h₂⟩
    rw [h₁] at h₂
    cases h₂
  have hr : Rewrite (flashRead v.flash a).header
      { (flashRead v.flash a).header with size := fsSizeInvalid }
      { (flashRead v.flash a).header with size := fsSizeInvalid }.toBytes :=
    ⟨Or.inr rfl, Or.inl rfl⟩
  have hw := hr.rewritten (f := v.flash) (a := a) rfl hc
  have hrej : ¬ Accepted crc (flashRead (program v.flash a
      { (flashRead v.flash a).header with size := fsSizeInvalid }.toBytes) a) := by
    rw [hw.self]
    exact not_accepted (show fsSizeInvalid ≠ fsSize32 by decide)
  refine ⟨(v.setAddress s a).flashWrite a
    { (flashRead v.flash a).header with size := fsSizeInvalid }.toBytes, ?_, ?_⟩
  · constructor
    · exact h.fd
    · exact h.shape.program_below hlo hlt hal _ (by simp)
    · intro b hb
      rw [← h.data b hb]
      by_cases hba : b = a
      · subst hba
        exact (congrArg Block.data hw.self).trans rfl
      · exact congrArg Block.data (hw.other b hb hba)
    · intro b hb hacc'
      by_cases hba : b = a
      · subst hba
        exact absurd hacc' hrej
      · have he := hw.other b hb hba
        exact he.trans (h.valid b hb (he ▸ hacc'))
    · rintro b hb hD hacc'
      by_cases hba : b = a
      · subst hba
        exact hrej hacc'
      · have he := hw.other b hb hba
        exact h.rejected b hb (hD.resolve_right hba) (he ▸ hacc')
  · rw [scanCells_found n hacc hg, resolveDuplicate_older hcase]

theorem Rescan.scanCells (hx : Indexed crc w.fs w.flash) (s : Fin 8) (n : Nat) :
    ∀ (a : Nat) (D : Nat → Prop) (v : World), Rescan crc w D v → sectorBase s ≤ a →
      a + 32 * n = sectorBase s + 4096 →
      Rescan crc w (fun b => D b ∨ (a ≤ b ∧ b < w.fs.curr.address s))
        (scanCells crc s n a v).2 := by
  induction n with
  | zero =>
    intro a D v h _ hend
    have hhi := h.shape.hi s
    exact ⟨h.fd, h.shape, h.data, h.valid, fun b hb hD => h.rejected b hb
      (hD.resolve_right fun hr => by omega)⟩
  | succ n ih =>
    intro a D v h hlo hend
    have hal : a % 32 = 0 := by
      have := sectorBase_mod s
      omega
    rcases Nat.lt_or_ge a (w.fs.curr.address s) with hlt | hge
    · -- a written cell
      obtain ⟨u, hu, he⟩ : ∃ u, Rescan crc w (fun b => D b ∨ b = a) u ∧
          Wormvars.scanCells crc s (n + 1) a v =
            Wormvars.scanCells crc s n (a + fsBlockSize) u := by
        by_cases hacc : Accepted crc (flashRead v.flash a)
        · exact h.drop hx hlo hlt hal hacc n
        · refine ⟨v.setAddress s a, ⟨h.fd, h.shape, h.data, h.valid, ?_⟩, ?_⟩
          · rintro b hb (hD | rfl)
            · exact h.rejected b hb hD
            · exact hacc
          · rw [scanCells_invalid n hacc]
            exact if_neg (h.shape.written s a hlo hlt hal)
      rw [he]
      have := ih (a + 32) _ u hu (by omega) (by omega)
      exact ⟨this.fd, this.shape, this.data, this.valid, fun b hb hD => this.rejected b hb <| by
        have := hb.2.2
        rcases hD with hD | hD
        · exact Or.inl (Or.inl hD)
        · by_cases hba : b = a
          · exact Or.inl (Or.inr hba)
          · exact Or.inr (by omega)⟩
    · -- the first erased cell
      have hblank : BlankHeader (flashRead v.flash a) := by
        rw [blankHeader_iff]
        intro i hi
        exact h.shape.blank s _ (by omega) (by omega)
      have hacc : ¬ Accepted crc (flashRead v.flash a) := fun h' => h'.not_blank hblank
      rw [scanCells_invalid n hacc, if_pos hblank]
      exact ⟨h.fd, h.shape, h.data, h.valid, fun b hb hD => h.rejected b hb
        (hD.resolve_right fun hr => by omega)⟩

end rescan

/-- A second `fs_init` invalidates every block. -/
theorem fsInit_again (hi : Inv crc w.fs w.flash) :
    (fsInit crc w.fresh).fs.fd = w.fs.fd ∧ Shape w.fs.curr (fsInit crc w.fresh).flash ∧
      (∀ a, IsCell a →
        (flashRead (fsInit crc w.fresh).flash a).data = (flashRead w.flash a).data) ∧
      ∀ a, IsCell a → ¬ Accepted crc (flashRead (fsInit crc w.fresh).flash a) := by
  have hall := fsInit_invariant (w := w.fresh)
    (I := fun done v => Rescan crc w
      (fun b => ∃ s ∈ done, sectorBase s ≤ b ∧ b < w.fs.curr.address s) v)
    ⟨rfl, hi.shape, fun _ _ => rfl, fun _ _ _ => rfl, fun _ _ ⟨_, hm, _⟩ => by cases hm⟩
    (fun done s v h => by
      refine (Rescan.scanCells hi.index s fdsPerSector (sectorBase s) _ v h (Nat.le_refl _)
        rfl).mono ?_
      rintro b ⟨t, ht, hb⟩
      rcases List.mem_append.1 ht with ht | ht
      · exact Or.inl ⟨t, ht, hb⟩
      · rw [List.mem_singleton.1 ht] at hb
        exact Or.inr hb)
    (fun _ _ _ h => ⟨h.fd, h.shape, h.data, h.valid, h.rejected⟩)
    (fun _ _ h => ⟨h.fd, h.shape, h.data, h.valid, h.rejected⟩)
  refine ⟨hall.fd, hall.shape, hall.data, fun a ha hacc => ?_⟩
  obtain ⟨s, hs⟩ := ha.exists_sector
  exact hall.rejected a ha
    ⟨s, mem_sectors s, hs.1, hall.shape.below_of_copy hs (copies_eq_some ha hacc)⟩ hacc

/-- `fs_read` does not show it. -/
theorem fsRead_again (hi : Inv crc w.fs w.flash) (name : BitVec 16) (ext : BitVec 8) (len : Nat) :
    fsRead (fsInit crc w.fresh) name ext len = fsRead w name ext len := by
  obtain ⟨hfd, -, hdata, -⟩ := fsInit_again hi
  unfold fsRead
  rw [hfd]
  simp only
  split
  · next fd hg => rw [hdata _ (hi.index.cell fd (List.mem_of_getElem? hg))]
  · rfl

/-- After the next reboot nothing is left. -/
theorem reboot_again (hi : Inv crc w.fs w.flash) :
    (coldBoot crc (fsInit crc w.fresh).flash).fs.fd = [] := by
  obtain ⟨-, hshape, -, hno⟩ := fsInit_again hi
  exact coldBoot_empty hshape hno

theorem harmless_iff (hi : Inv crc w.fs w.flash) : Harmless crc w ↔ w.fs.fd = [] := by
  refine ⟨fun h => ?_, harmless_of_bare hi⟩
  rw [List.eq_nil_iff_forall_not_mem]
  intro fd hm
  exact (fsInit_again hi).2.2.2 _ (hi.index.cell fd hm)
    (h.valid _ (hi.index.cell fd hm) (hi.index.accepted fd hm))

/-! ## In a run -/

/-- A call whose write finds a descriptor keeps the invariant. -/
theorem Inv.exec {c : Call} {r : Result} {w' : World} (hi : Inv crc w.fs w.flash)
    (hslot : SlotFor w c) (h : c.exec crc (n + 2) w.fresh = some (r, w')) :
    Inv crc w'.fs w'.flash := by
  have hi : Inv crc w.fresh.fs w.fresh.flash := hi
  cases c with
  | read name ext len =>
    cases h
    exact hi
  | thread ans =>
    obtain ⟨k, -, hm⟩ := thread_moves hi h
    exact (hm.spec hi).1
  | write name ext data ans =>
    obtain ⟨i, -, hends⟩ := write_ends hi hslot h
    rcases hends.cases hi with ⟨-, rfl⟩ | ⟨-, -, -, hw⟩
    · exact hi
    · exact hw.inv

theorem slotFor_of_bare (hfd : w.fs.fd = []) (c : Call) : SlotFor w c := by
  cases c with
  | read => trivial
  | thread => trivial
  | write => exact fun _ _ => Or.inr (by rw [hfd]; decide)

/-- In any run `fs_init` has no effect while there are no descriptors; and in a run in which it
was called only then, and no write failed for want of a descriptor, that is the only time when it
has none. -/
theorem reinit_harmless_iff :
    (∀ h w, Run (WarmStep crc (n + 2)) (coldBoot crc erased) h w → w.fs.fd = [] →
      Harmless crc w) ∧
    ∀ h w, Run (WarmGuarded crc (n + 2)) (coldBoot crc erased) h w →
      (Harmless crc w ↔ w.fs.fd = []) := by
  have hb := booted_erased crc
  constructor
  · intro h w hr hfd
    -- descriptors stay, and as long as there are none every step keeps the invariant
    have hor : w.fs.fd ≠ [] ∨ Inv crc w.fs w.flash := by
      refine hr.invariant (I := fun _ w => w.fs.fd ≠ [] ∨ Inv crc w.fs w.flash) (Or.inr hb.inv) ?_
      intro _ u l v hu hst
      by_cases hfd : u.fs.fd = []
      · right
        have hi := hu.resolve_left (not_not_intro hfd)
        cases hst with
        | call c r _ he => exact hi.exec (slotFor_of_bare hfd c) he
        | init => exact (fsInit_bare hi hfd).1.inv
      · left
        have hpos := List.length_pos_of_ne_nil hfd
        apply List.ne_nil_of_length_pos
        cases hst with
        | call c r _ he => exact Nat.lt_of_lt_of_le hpos (exec_descriptors (w := u.fresh) he)
        | init => exact Nat.lt_of_lt_of_le hpos (fsInit_descriptors crc u.fresh)
    exact harmless_of_bare (hor.resolve_left (not_not_intro hfd)) hfd
  · intro h w hr
    refine harmless_iff (hr.invariant (I := fun _ w => Inv crc w.fs w.flash) hb.inv ?_)
    intro _ u l v hi hg
    obtain ⟨hst, hslot, hbare⟩ := hg
    cases hst with
    | call c r _ he => exact hi.exec (hslot c r rfl) he
    | init => exact (fsInit_bare hi (hbare rfl)).1.inv

/-- After a boot and one write, `fs_init` is not harmless any more. -/
theorem reinit_harmless_iff_one : Harmless (fun _ => 0) (coldBoot (fun _ => 0) erased) ∧
    ∃ w, WarmStep (fun _ => 0) 2 (coldBoot (fun _ => 0) erased)
      (.call (.write 7 0 [1, 2] ⟨true, true⟩) (.wrote 0)) w ∧
      (Harmless (fun _ => 0) w ↔ w.fs.fd = []) := by
  have hbare := coldBoot_erased_bare fun _ => 0
  obtain ⟨harmless, hiff⟩ := @reinit_harmless_iff (fun _ => 0) 0
  obtain ⟨w, he, -⟩ := first_exec
  have hst : WarmStep (fun _ => 0) (0 + 2) (coldBoot (fun _ => 0) erased)
    (.call (.write 7 0 [1, 2] ⟨true, true⟩) (.wrote 0)) w := .call _ _ _ _ he
  exact ⟨harmless [] _ .refl hbare, w, hst, hiff _ w (Run.refl.step
    ⟨hst, fun c _ _ => slotFor_of_bare hbare c, fun h => by cases h⟩)⟩

/-- Two bytes are written under the name `7`.  After a second `fs_init` they are still read; after
a reboot they are gone. -/
theorem reinit_loses : ∃ w, WarmStep (fun _ => 0) 2 (coldBoot (fun _ => 0) erased)
      (.call (.write 7 0 [1, 2] ⟨true, true⟩) (.wrote 0)) w ∧
    fsRead w 7 0 2 = .found [1, 2] ∧ fsRead (fsInit (fun _ => 0) w.fresh) 7 0 2 = .found [1, 2] ∧
    fsRead (coldBoot (fun _ => 0) (fsInit (fun _ => 0) w.fresh).flash) 7 0 2 = .notFound := by
  obtain ⟨w, he, hread⟩ := first_exec
  have hi : Inv (fun _ => 0) w.fs w.flash :=
    (booted_erased _).inv.exec (n := 0) (slotFor_of_bare (coldBoot_erased_bare _) _) he
  exact ⟨w, .call _ _ _ _ he, hread, (fsRead_again hi 7 0 2).trans hread,
    fsRead_nil (reboot_again hi) 7 0 2⟩

end Wormvars
