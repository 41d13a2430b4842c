import Wormvars.Choice

/-!
# Where the append pointers stand after a boot

`boot_at_erased`: on a flash whose erased cells are the ends of its sectors, the
append pointers of a boot stand at erased cells, and the blocks that are written
next go to erased cells, iff there are no more keys than descriptors.

A scan that runs out of descriptors leaves the pointer at the cell it was looking
at, which holds a block (`overflow_at_block`).
-/

namespace Wormvars

open NorFlash NewerLog Runs

variable {crc : Block → BitVec 32}

/-! ## What an append leaves alone -/

section outside
variable {w : World} {x : Nat}

/-- `x` lies in no cell that a header rewrite for slot `i` touches. -/
def OutsideSlot (fs : Fs) (i : Nat) (x : Nat) : Prop :=
  ∀ fd, fs.fd[i]? = some fd → x < fd.address ∨ fd.address + 32 ≤ x

theorem clearNewer_outside {i : Nat} (h : OutsideSlot w.fs i x) :
    (clearNewer w i).flash x = w.flash x := by
  unfold clearNewer
  split
  · next fd hg =>
    split
    · refine program_outside _ _ _ _ ?_
      have := h fd hg
      simp only [BlockHeader.length_toBytes]
      omega
    · rfl
  · rfl

theorem invalidatePrevious_outside {i : Nat} (h : OutsideSlot w.fs i x) :
    (invalidatePrevious w i).flash x = w.flash x := by
  unfold invalidatePrevious
  split
  · next fd hg =>
    refine program_outside _ _ _ _ ?_
    have := h fd hg
    simp only [List.length_take, BlockHeader.length_toBytes]
    omega
  · rfl

/-- The address of the descriptor is what it was. -/
theorem clearNewer_get {i : Nat} {fd : FileDescriptor} (h : (clearNewer w i).fs.fd[i]? = some fd) :
    ∃ fd', w.fs.fd[i]? = some fd' ∧ fd'.address = fd.address := by
  unfold clearNewer at h
  split at h
  · next old hg =>
    refine ⟨old, hg, ?_⟩
    split at h
    · have hi := (List.getElem?_eq_some_iff.1 hg).1
      simp only [World.setFd, World.flashWrite, List.getElem?_set_self hi] at h
      obtain rfl := Option.some.inj h
      rfl
    · rw [hg] at h
      obtain rfl := Option.some.inj h
      rfl
  · exact ⟨fd, h, rfl⟩

theorem stageBlock_outside (crc : Block → BitVec 32) (buffer : Block)
    (hs : OutsideSlot w.fs (findFd w.fs.fd buffer.header) x)
    (hp : x < w.fs.curr.address w.fs.curr.sector ∨ w.fs.curr.address w.fs.curr.sector + 32 ≤ x) :
    (stageBlock crc w buffer).flash x = w.flash x := by
  unfold stageBlock
  rw [invalidatePrevious_outside]
  · refine Eq.trans (program_outside _ _ _ _ ?_) (clearNewer_outside hs)
    rw [Block.length_toBytes]
    exact hp
  · intro fd hg
    obtain ⟨fd', hg', ha⟩ := clearNewer_get hg
    rw [← ha]
    exact hs fd' hg'

theorem updateFd_flash (w : World) (i : Nat) (h : BlockHeader) : ∃ b : Byte,
    (updateFd w i h).flash = program w.flash (w.fs.curr.address w.fs.curr.sector) [b] := by
  refine ⟨{ h with newer := fsBlockCurrent }.flags, ?_⟩
  unfold updateFd
  simp only
  split <;> rfl

/-- Only the cell at the append pointer and the cell of the old block are touched. -/
theorem appendBlock_outside (crc : Block → BitVec 32) (buffer : Block)
    (hs : OutsideSlot w.fs (findFd w.fs.fd buffer.header) x)
    (hp : x < w.fs.curr.address w.fs.curr.sector ∨ w.fs.curr.address w.fs.curr.sector + 32 ≤ x) :
    (appendBlock crc w buffer).2.flash x = w.flash x := by
  have hc : (clearNewer w (findFd w.fs.fd buffer.header)).fs.curr = w.fs.curr :=
    (clearNewer_fs w _).1.curr
  have hcurr := (stageBlock_fs crc w buffer).1.curr
  rw [← stageBlock_outside crc buffer hs hp]
  obtain ⟨b, hb⟩ := updateFd_flash (stageBlock crc w buffer) (findFd w.fs.fd buffer.header)
    (updateBlockHash crc buffer fsSize32 fsBlockNewer).header
  rw [hcurr] at hb
  unfold appendBlock
  unfold stageBlock at hb ⊢
  simp only [hc]
  split
  · refine (congrFun hb x).trans (program_outside _ _ _ _ ?_)
    rw [List.length_singleton]
    omega
  · rfl

end outside

/-! ## Above the append pointers -/

/-- Above the append pointers the flash is erased, and the descriptors lie in their sectors. -/
structure Clear (w : World) : Prop where
  blank : ∀ s x, w.fs.curr.address s ≤ x → x < sectorBase s + 4096 → w.flash x = 0xFF
  hi : ∀ s, w.fs.curr.address s ≤ sectorBase s + 4096
  sector : ∀ fd ∈ w.fs.fd, InSector fd.sector fd.address

/-- Whole blocks go to erased cells. -/
def SafeBlocks (log : List Event) : Prop := ∀ e ∈ log, ∀ a bs, e.op = .program a bs →
  bs.length = fsBlockSize → Blank e.flash a fsBlockSize

section clear
variable {w w' : World}

theorem safeBlocks_iff {log : List Event} : SafeBlocks log ↔
    ∀ e ∈ blocks log, ∀ a bs, e.op = .program a bs → Blank e.flash a fsBlockSize := by
  constructor
  · intro h e he a bs hop
    obtain ⟨hm, hb⟩ := List.mem_filter.1 he
    refine h e hm a bs hop ?_
    rw [hop] at hb
    simpa [Op.isBlock] using hb
  · intro h e he a bs hop hl
    exact h e (mem_blocks he hop hl) a bs hop

/-- The cell of a descriptor is not among the erased ones. -/
theorem Clear.outside (h : Clear w) (ht : Tidy w.fs) {s : Fin 8} {x : Nat}
    (hlo : w.fs.curr.address s ≤ x) (hx : x < sectorBase s + 4096) (i : Nat) :
    OutsideSlot w.fs i x := by
  intro fd hg
  have hm := List.mem_of_getElem? hg
  obtain ⟨h₁, h₂, h₃⟩ := ht.cell fd hm
  have h₄ := h.sector fd hm
  have h₅ := ht.lo s
  have h₆ := ht.aligned s
  unfold InSector at h₄
  by_cases hs : fd.sector = s
  · subst hs
    omega
  · have h₇ := sectorBase_eq fd.sector
    have h₈ := sectorBase_eq s
    have h₉ : fd.sector.val ≠ s.val := fun he => hs (Fin.ext he)
    omega

theorem Clear.append_blank (h : Clear w) (ht : Tidy w.fs)
    (hroom : ¬ w.fs.SectorIsFull w.fs.curr.sector) (i : Nat) :
    Blank (clearNewer w i).flash (w.fs.curr.address w.fs.curr.sector) fsBlockSize := by
  have hlt := not_full_iff.1 hroom
  have hal := ht.aligned w.fs.curr.sector
  have hbase := sectorBase_mod w.fs.curr.sector
  intro x h₁ h₂
  unfold fsBlockSize at h₂
  rw [clearNewer_outside (h.outside ht h₁ (by omega) i)]
  exact h.blank _ x h₁ (by omega)

/-- The blocks of an append in a sector with room. -/
theorem Clear.append_safe (h : Clear w) (ht : Tidy w.fs) (buffer : Block)
    (hroom : ¬ w.fs.SectorIsFull w.fs.curr.sector) (hsafe : SafeBlocks w.log) :
    SafeBlocks (appendBlock crc w buffer).2.log := by
  obtain ⟨e, hflash, hop, hlog⟩ := appendBlock_blocks crc w buffer
  rw [safeBlocks_iff] at hsafe ⊢
  rw [hlog]
  intro e' he' a bs hop'
  rcases List.mem_cons.1 he' with rfl | he'
  · rw [hop] at hop'
    cases hop'
    rw [hflash]
    exact h.append_blank ht hroom _
  · exact hsafe e' he' a bs hop'

theorem Clear.append (hc : Clear w) (ht : Tidy w.fs) {buffer : Block}
    (hslot : HasSlot w.fs buffer.header.key)
    (hroom : ¬ w.fs.SectorIsFull w.fs.curr.sector) : Clear (appendBlock crc w buffer).2 := by
  obtain ⟨-, hp⟩ := ht.append crc hslot
  have hlt := not_full_iff.1 hroom
  have hal := ht.aligned w.fs.curr.sector
  have hbase := sectorBase_mod w.fs.curr.sector
  refine ⟨fun s x h₁ h₂ => ?_, fun s => ?_, fun fd hm => ?_⟩
  · have h₃ : w.fs.curr.address s ≤ x := Nat.le_trans (hp.address_le s) h₁
    rw [appendBlock_outside crc buffer (hc.outside ht h₃ h₂ _)]
    · exact hc.blank s x h₃ h₂
    · by_cases hcur : s = w.fs.curr.sector
      · subst hcur
        rw [hp.address_self] at h₁
        omega
      · have h₄ := ht.lo s
        have h₅ := ht.lo w.fs.curr.sector
        have h₆ := sectorBase_eq s
        have h₇ := sectorBase_eq w.fs.curr.sector
        have h₈ : s.val ≠ w.fs.curr.sector.val := fun he => hcur (Fin.ext he)
        omega
  · by_cases hcur : s = w.fs.curr.sector
    · subst hcur
      rw [hp.address_self]
      omega
    · rw [hp.address_ne hcur]
      exact hc.hi s
  · rcases hp.mem ht.nodup hm with ⟨hm, -⟩ | ⟨-, hsec, hadr⟩
    · exact hc.sector fd hm
    · rw [hsec, hadr]
      exact ⟨ht.lo _, hlt⟩

theorem Clear.eraseVictim (hc : Clear w) : Clear w.eraseVictim := by
  have hself : w.eraseVictim.fs.curr.address w.fs.reloc.sector = sectorBase w.fs.reloc.sector :=
    Curr.setAddress_self _ _ _
  have hother : ∀ s, s ≠ w.fs.reloc.sector →
      w.eraseVictim.fs.curr.address s = w.fs.curr.address s :=
    fun _ hs => Curr.setAddress_ne _ _ hs
  refine ⟨fun s x h₁ h₂ => ?_, fun s => ?_, hc.sector⟩
  · show NorFlash.erase w.flash (sectorBase w.fs.reloc.sector) 4096 x = 0xFF
    by_cases hin : sectorBase w.fs.reloc.sector ≤ x ∧ x < sectorBase w.fs.reloc.sector + 4096
    · exact erase_inside _ _ _ _ hin.1 hin.2
    · rw [erase_outside _ _ _ _ (by omega)]
      have hne : s ≠ w.fs.reloc.sector := by
        rintro rfl
        rw [hself] at h₁
        exact hin ⟨h₁, h₂⟩
      rw [hother s hne] at h₁
      exact hc.blank s x h₁ h₂
  · by_cases hs : s = w.fs.reloc.sector
    · rw [hs, hself]
      omega
    · rw [hother s hs]
      exact hc.hi s

theorem Turn.clear (h : Turn crc False w w') (hs : Steady w.fs) (hc : Clear w)
    (hsafe : SafeBlocks w.log) : Clear w' ∧ SafeBlocks w'.log := by
  cases h with
  | resume reloc pt _ => exact ⟨⟨hc.blank, hc.hi, hc.sector⟩, hsafe⟩
  | refuse r =>
    refine ⟨⟨hc.blank, hc.hi, hc.sector⟩, ?_⟩
    rw [safeBlocks_iff, returns_blocks, ← safeBlocks_iff]
    exact hsafe
  | append buffer hslot hopen =>
    have hroom := hopen.resolve_right fun hf => hf.1
    exact ⟨hc.append hs.tidy hslot hroom, hc.append_safe hs.tidy buffer hroom hsafe⟩
  | reject buffer hf => exact hf.elim
  | switch s _ => exact ⟨⟨hc.blank, hc.hi, hc.sector⟩, hsafe⟩
  | erase hv hno =>
    refine ⟨hc.eraseVictim, ?_⟩
    rw [safeBlocks_iff]
    show ∀ e ∈ blocks (_ :: w.log), _
    rw [blocks_cons, if_neg (by simp [Op.isBlock]), ← safeBlocks_iff]
    exact hsafe

theorem Turns.clear (h : Turns crc False w w') (hs : Steady w.fs) (hc : Clear w)
    (hsafe : SafeBlocks w.log) : Steady w'.fs ∧ Clear w' ∧ SafeBlocks w'.log := by
  induction h with
  | refl => exact ⟨hs, hc, hsafe⟩
  | tail _ ht ih =>
    obtain ⟨hs', hc', hsafe'⟩ := ih
    exact ⟨ht.steady hs', ht.clear hs' hc' hsafe'⟩

/-- What one call does from a state with the flash erased above the append pointers. -/
theorem exec_safe {n : Nat} {c : Call} {r : Result} (hs : Steady w.fs) (hc : Clear w)
    (hch : ∀ fs, c.chooses w = some fs → Candidate fs) (hroomy : Roomy w.fs)
    (h : c.exec crc n w.fresh = some (r, w')) : SafeBlocks w'.log := by
  have hc' : Clear w.fresh := ⟨hc.blank, hc.hi, hc.sector⟩
  have hs' : Steady w.fresh.fs := hs
  have hnil : SafeBlocks w.fresh.log := fun e he => by cases he
  cases c with
  | write name ext data ans =>
    obtain ⟨q, hq, he⟩ := Option.map_eq_some_iff.1 h
    obtain rfl := congrArg Prod.snd he
    rcases fsWrite_cases False (w := w.fresh) hs hch hq with
      ⟨-, hr, -⟩ | ⟨v, hv, -, rfl⟩
    · show SafeBlocks q.2.log
      rw [hr, safeBlocks_iff, returns_blocks, ← safeBlocks_iff]
      exact hnil
    · obtain ⟨ht, -, hopen⟩ := hv.turns hs' (Or.inr hroomy)
      obtain ⟨hsv, hcv, hsafe⟩ := Turns.clear ht hs hc' hnil
      exact hcv.append_safe hsv.tidy _ (hopen.resolve_right fun hf => hf.1) hsafe
  | read name ext len =>
    obtain rfl := congrArg Prod.snd (Option.some.inj h)
    exact hnil
  | thread ans =>
    obtain ⟨q, hq, he⟩ := Option.map_eq_some_iff.1 h
    obtain rfl := congrArg Prod.snd he
    have ht : Turns crc False w.fresh q.2 :=
      fsThread_turns (w := w.fresh) hs (fun hpt => hch _ (if_pos hpt)) (Or.inr hroomy) hq
    exact (ht.clear hs hc' hnil).2.2

end clear

/-! ## After a boot -/

/-- In each sector the erased cells come last, and no other cell has a blank header. -/
structure Packed (f : Mem) : Prop where
  suffix : ∀ s a b, InSector s a → InSector s b → IsCell a → IsCell b → a ≤ b →
    Blank f a fsBlockSize → Blank f b fsBlockSize
  header : ∀ a, IsCell a → BlankHeader (flashRead f a) → Blank f a fsBlockSize

/-- The append pointer of `s` is at the end of the sector or at an erased cell of it. -/
def AtErased (w : World) (s : Fin 8) : Prop :=
  w.fs.curr.address s = sectorBase s + filesystemSectorSize ∨
    (InSector s (w.fs.curr.address s) ∧ IsCell (w.fs.curr.address s) ∧
      Blank w.flash (w.fs.curr.address s) fsBlockSize)

section boot
variable {f : Mem} {w : World}

theorem Rebuilt.clear (h : Rebuilt crc f w) (hfit : ¬ Crowded crc f) (hp : Packed f) :
    Clear w := by
  have hc := h.complete hfit
  have hsw := h.swept_scanned hc
  have hptr : ∀ s, w.fs.curr.address s = scanEnd f s := fun s => hc s (mem_sectors s)
  refine ⟨fun s x h₁ h₂ => ?_, fun s => ?_, hsw.walk.sector⟩
  · rw [hptr] at h₁
    -- the cell that `x` lies in
    have hbase := sectorBase_mod s
    have hmod := scanEnd_mod f s
    have hlo := le_scanEnd f s
    have hend : InSector s (scanEnd f s) := ⟨hlo, by omega⟩
    have hcell : InSector s (x - x % 32) := ⟨by omega, by omega⟩
    have hblank := hp.header _ (hend.isCell hmod) (scanEnd_blank hend.2)
    have hfx : f x = 0xFF := hp.suffix s _ _ hend hcell (hend.isCell hmod)
      (hcell.isCell (by omega)) (by omega) hblank x (by omega) (by unfold fsBlockSize; omega)
    rw [hsw.flash_eq, if_neg, hfx]
    rintro ⟨hx, -⟩
    obtain ⟨t, ht⟩ := mem_scanned.1 hx
    obtain rfl := (scannedIn_spec ht).1.unique (show InSector s x from ⟨by omega, h₂⟩)
    have := (mem_scannedIn.1 ht).2.1
    omega
  · rw [hptr]
    exact scanEnd_le f s

theorem Clear.atErased (hc : Clear w) (ht : Tidy w.fs) (s : Fin 8) : AtErased w s := by
  have hlo := ht.lo s
  have hal := ht.aligned s
  have hbase := sectorBase_mod s
  rcases Nat.eq_or_lt_of_le (hc.hi s) with he | hlt
  · exact Or.inl he
  · have hin : InSector s (w.fs.curr.address s) := ⟨hlo, hlt⟩
    refine Or.inr ⟨hin, hin.isCell hal, fun x h₁ h₂ => hc.blank s x h₁ ?_⟩
    unfold fsBlockSize at h₂
    omega

/-- A pointer that was left where the descriptors ran out. -/
theorem Rebuilt.crowded (h : Rebuilt crc f w) (hcrowd : Crowded crc f) :
    ∃ s, ¬ AtErased w s := by
  by_contra hall
  rw [not_exists] at hall
  have hat : ∀ s, AtErased w s := fun s => not_not.1 (hall s)
  refine (h.swept_scanned fun s _ => ?_).not_crowded hcrowd
  refine (h.pointer s).resolve_right fun hin => ?_
  obtain ⟨hs, hcell, hb⟩ := scannedIn_spec hin.1
  rcases hat s with he | ⟨-, -, hblank⟩
  · unfold InSector at hs
    unfold filesystemSectorSize at he
    omega
  · obtain ⟨seen, hsw, -, -⟩ := h.swept
    exact hb ((hsw.blankHeader_iff hcell).1 (header_of_blank hblank))

end boot

/-- A call that returns, with a candidate if it chooses a victim, room for a copy that is under way
and a descriptor for what it writes. -/
structure Sparing (crc : Block → BitVec 32) (n : Nat) (w : World) (c : Call) (w' : World) :
    Prop where
  choosing : Choosing crc n w c w'
  roomy : Roomy w.fs
  slot : SlotFor w c

theorem boot_at_erased {f : Mem} (hp : Packed f) :
    ((∀ s, AtErased (coldBoot crc f) s) ∧
      (∀ n name ext data ans r w', (Call.write name ext data ans).exec crc n
        (coldBoot crc f).fresh = some (r, w') → SafeBlocks w'.log) ↔ ¬ Crowded crc f) ∧
    (¬ Crowded crc f → ∀ n h w, Run (Sparing crc n) (coldBoot crc f) h w →
      (∀ s, AtErased w s) ∧ ∀ (c : Call) (r : Result) (w' : World),
        (∀ fs, c.chooses w = some fs → Candidate fs) → Roomy w.fs →
        c.exec crc n w.fresh = some (r, w') → SafeBlocks w'.log) := by
  have hb := coldBoot_rebuilt crc f
  have hruns : ¬ Crowded crc f → ∀ n h w, Run (Sparing crc n) (coldBoot crc f) h w →
      Steady w.fs ∧ Clear w := by
    intro hfit n h w hr
    refine hr.invariant (I := fun _ w => Steady w.fs ∧ Clear w)
      ⟨hb.steady hfit, hb.clear hfit hp⟩ ?_
    rintro _ u c v ⟨hs, hc⟩ hst
    obtain ⟨r, hr⟩ := hst.choosing.returns
    have ht : Turns crc False u.fresh v := exec_turns (w := u.fresh) hs hst.choosing.candidate
      (Or.inr ⟨hst.roomy, hst.slot⟩) hr
    obtain ⟨hsv, hcv, -⟩ := ht.clear hs ⟨hc.blank, hc.hi, hc.sector⟩ fun e he => by cases he
    exact ⟨hsv, hcv⟩
  refine ⟨⟨fun h hcrowd => ?_, fun hfit => ⟨fun s => ?_, ?_⟩⟩, ?_⟩
  · obtain ⟨s, hs⟩ := hb.crowded hcrowd
    exact hs (h.1 s)
  · exact (hb.clear hfit hp).atErased (hb.steady hfit).tidy s
  · intro n name ext data ans r w' he
    refine exec_safe (hb.steady hfit) (hb.clear hfit hp) (fun fs hch => ?_) (fun hc => ?_) he
    · simp only [Call.chooses] at hch
      rw [if_neg (by rw [hb.idle]; simp)] at hch
      cases hch
    · have := hc.1
      rw [hb.idle] at this
      cases this
  · intro hfit n h w hr
    obtain ⟨hs, hc⟩ := hruns hfit n h w hr
    exact ⟨hc.atErased hs.tidy, fun c r w' hch hroomy he => exec_safe hs hc hch hroomy he⟩

/-- A flash on which the filesystem has been running. -/
theorem Shape.packed {curr : Curr} {f : Mem} (hs : Shape curr f) : Packed f := by
  have hbehind : ∀ {s : Fin 8} {a : Nat}, InSector s a → IsCell a → BlankHeader (flashRead f a) →
      curr.address s ≤ a := by
    intro s a hin hcell hb
    unfold InSector at hin
    unfold IsCell at hcell
    by_contra hlt
    exact hs.written s a hin.1 (Nat.not_le.1 hlt) (by omega) hb
  constructor
  · intro s a b ha hb hca hcb hab hblank x h₁ h₂
    have hle := hbehind ha hca (header_of_blank hblank)
    have hbase := sectorBase_mod s
    unfold InSector at hb
    unfold IsCell at hcb
    unfold fsBlockSize at h₂
    exact hs.blank s x (by omega) (by omega)
  · intro a hcell hb x h₁ h₂
    obtain ⟨s, hin⟩ := hcell.exists_sector
    have hle := hbehind hin hcell hb
    have hbase := sectorBase_mod s
    unfold InSector at hin
    unfold IsCell at hcell
    unfold fsBlockSize at h₂
    exact hs.blank s x (by omega) (by omega)

/-- A flash with six full sectors is booted and written to twice. -/
theorem boot_at_erased_tour : ∃ h u w x v, Tour h u w x v ∧ ∃ w₁ r w₂,
    Sparing (fun _ => 0) 2 (coldBoot (fun _ => 0) w.flash) (sectorWrite 5) w₁ ∧
    (∀ s, AtErased w₁ s) ∧ (sectorWrite 6).exec (fun _ => 0) 2 w₁.fresh = some (r, w₂) ∧
    SafeBlocks w₂.log := by
  obtain ⟨h, u, w, x, v, ht⟩ := tour
  have hw := ht.turned.inv
  obtain ⟨hrun, hkeys⟩ := ht.turned.sectored.fromOff
  have hboot := hrun.step (.boot (.on w))
  have hkeys : SectorKeys (.boot :: (.call (sectorWrite 5) (.wrote 0) :: h ++ [.boot])) := hkeys
  obtain ⟨hidle, -, hroom⟩ := ht.reboot
  have hafter := (boot_at_erased hw.shape.packed).2 hw.not_crowded 2
  refine ⟨h, u, w, x, v, ht, ?_⟩
  have hboot : Run (Step (fun _ => 0) (0 + 2)) (.off erased) _
    (.on (coldBoot (fun _ => 0) w.flash)) := hboot
  generalize coldBoot (fun _ => 0) w.flash = b at *
  obtain ⟨hb, hslot, -⟩ := hkeys.next (c := sectorWrite 5) hboot (SectorKeys.write 5)
  have hb' : Inv (fun _ => 0) b.fresh.fs b.fresh.flash := hb
  have hroom' : ¬ b.fresh.fs.SectorIsFull b.fresh.fs.curr.sector := hroom
  have he₁ : (sectorWrite 5).exec (fun _ => 0) (0 + 2) b.fresh = some (.wrote _, _) :=
    exec_of_fsWrite (fsWriteWith_room (by decide) hroom')
  obtain ⟨-, hp, -⟩ := appendBlock_placed (fun _ => 0) b.fresh
    (writeBuffer (BitVec.ofNat 16 (5 : Fin 8)) 0 []) (hb'.findFd_lt (hslot (by decide) ⟨_, hroom⟩))
  have hnocopy : ∀ {fs : Fs}, fs.pt = .null → Roomy fs := by
    intro fs hpt hc
    rw [hc.1] at hpt
    cases hpt
  have hsparing : Sparing (fun _ => 0) 2 b (sectorWrite 5) _ :=
    ⟨⟨⟨_, he₁⟩, fun fs hch => hb.chooses hch⟩, hnocopy hidle, hslot⟩
  obtain ⟨hi, -, r, w₂, he₂⟩ := (hkeys.append (.write 5 _)).next (c := sectorWrite 6)
    (hboot.step (.call b _ _ _ he₁)) (SectorKeys.write 6)
  obtain ⟨hat, hsafe⟩ := hafter _ _ (Run.refl.step hsparing)
  exact ⟨_, r, w₂, hsparing, hat, he₂,
    hsafe (sectorWrite 6) r w₂ (fun fs hch => hi.chooses hch) (hnocopy (hp.pt.trans hidle)) he₂⟩

/-! ## A flash with one key more than descriptors -/

/-- The block of name `i`, without data. -/
def namedBlock (crc : Block → BitVec 32) (i : Nat) : Block :=
  updateBlockHash crc (writeBuffer (BitVec.ofNat 16 i) 0 []) fsSize32 fsBlockCurrent

/-- The blocks of the names below `n`, from the first cell on. -/
def stocked (crc : Block → BitVec 32) : Nat → Mem
  | 0 => erased
  | n + 1 => program (stocked crc n) (0xF4000 + 32 * n) (namedBlock crc n).toBytes

theorem stocked_blank (crc : Block → BitVec 32) {n x : Nat} (hx : 0xF4000 + 32 * n ≤ x) :
    stocked crc n x = 0xFF := by
  induction n with
  | zero => rfl
  | succ n ih =>
    unfold stocked
    rw [program_outside _ _ _ _ (by rw [Block.length_toBytes]; omega)]
    exact ih (by omega)

theorem stocked_read (crc : Block → BitVec 32) {n i : Nat} (hi : i < n) :
    flashRead (stocked crc n) (0xF4000 + 32 * i) = namedBlock crc i := by
  induction n with
  | zero => omega
  | succ n ih =>
    unfold stocked
    rcases Nat.lt_succ_iff_lt_or_eq.1 hi with hlt | rfl
    · rw [flashRead_program_outside _ _ _ _ (by rw [Block.length_toBytes]; omega)]
      exact ih hlt
    · exact flashRead_program_blank (fun x hx _ => stocked_blank crc hx) _

theorem stocked_accepted (crc : Block → BitVec 32) {n i : Nat} (hi : i < n) :
    Accepted crc (flashRead (stocked crc n) (0xF4000 + 32 * i)) := by
  rw [stocked_read crc hi]
  exact accepted_updateBlockHash crc _ _

/-- The cells with a blank header are the ones behind the blocks. -/
theorem stocked_header (crc : Block → BitVec 32) {n a : Nat} (ha : IsCell a)
    (hb : BlankHeader (flashRead (stocked crc n) a)) : 0xF4000 + 32 * n ≤ a := by
  by_contra hlt
  unfold IsCell at ha
  have hacc := stocked_accepted crc (n := n) (i := (a - 0xF4000) / 32) (by omega)
  rw [show 0xF4000 + 32 * ((a - 0xF4000) / 32) = a by omega] at hacc
  exact hacc.not_blank hb

theorem packed_stocked (crc : Block → BitVec 32) (n : Nat) : Packed (stocked crc n) := by
  constructor
  · intro s a b _ _ ha _ hab hblank x h₁ _
    have := stocked_header crc ha (header_of_blank hblank)
    exact stocked_blank crc (by omega)
  · intro a ha hb x h₁ _
    have := stocked_header crc ha hb
    exact stocked_blank crc (by omega)

theorem mem_scannedKeys_stocked (crc : Block → BitVec 32) {n i : Nat} (hn : n ≤ 1024)
    (hi : i < n) : (BitVec.ofNat 16 i, 0) ∈ scannedKeys crc (stocked crc n) := by
  have hcell : IsCell (0xF4000 + 32 * i) := by
    unfold IsCell
    omega
  obtain ⟨s, hs⟩ := hcell.exists_sector
  have hscan : 0xF4000 + 32 * i ∈ scanned (stocked crc n) := by
    refine mem_scanned.2 ⟨s, mem_scannedIn.2 ⟨hs.1, ?_, hcell.2.2⟩⟩
    by_contra hge
    have hlo := le_scanEnd (stocked crc n) s
    have hin : InSector s (scanEnd (stocked crc n) s) := ⟨hlo, by have := hs.2; omega⟩
    have := stocked_header crc (hin.isCell (scanEnd_mod _ s)) (scanEnd_blank hin.2)
    omega
  refine mem_scannedKeys.2 ⟨_, hscan, _, copies_eq_some hcell (stocked_accepted crc hi), ?_⟩
  rw [stocked_read crc hi]
  rfl

theorem crowded_stocked (crc : Block → BitVec 32) : Crowded crc (stocked crc 301) := by
  have hnd : ((List.range 301).map fun i => ((BitVec.ofNat 16 i, 0) : Key)).Nodup := by
    refine List.Nodup.map_on (fun i hi j hj hij => ?_) List.nodup_range
    have := congrArg (fun k : Key => k.1.toNat) hij
    simp only [BitVec.toNat_ofNat] at this
    rw [List.mem_range] at hi hj
    omega
  have hsub : ((List.range 301).map fun i => ((BitVec.ofNat 16 i, 0) : Key)) ⊆
      (scannedKeys crc (stocked crc 301)).dedup := by
    intro k hk
    obtain ⟨i, hi, rfl⟩ := List.mem_map.1 hk
    rw [List.mem_dedup]
    exact mem_scannedKeys_stocked crc (by omega) (List.mem_range.1 hi)
  have := (hnd.subperm hsub).length_le
  rw [List.length_map, List.length_range] at this
  exact this

/-- With 301 blocks of different names a pointer is left at the last of them. -/
theorem overflow_at_block : Packed (stocked (fun _ => 0) 301) ∧
    ∃ s, ¬ AtErased (coldBoot (fun _ => 0) (stocked (fun _ => 0) 301)) s :=
  ⟨packed_stocked _ _, (coldBoot_rebuilt _ _).crowded (crowded_stocked _)⟩

end Wormvars
