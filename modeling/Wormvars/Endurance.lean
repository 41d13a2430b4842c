import Wormvars.Ink

/-!
# Wear under power cuts

A step together with the operations that it performs, also when power fails in the middle of
one (`Performed`).  The account of the cells comes out over every run, and the bound on wear
stays as it is without power cuts: a power cut costs one block more, and a boot the 50
that a relocation copies again (`endurance`).  What a boot makes of a
flash can be read off its ink: it leaves `(1023 - ink f) / 128` other sectors blank.
-/

namespace Wormvars

open NorFlash Runs

variable {crc : Block → BitVec 32} {n : Nat} {s t : Sys} {k : List Event}

/-! ## Steps and what they perform -/

/-- A step, and the operations that reach the flash, the last one first. -/
inductive Performed (crc : Block → BitVec 32) (n : Nat) : Sys → Label → Sys → List Event → Prop
  | call (w : World) (c : Call) (r : Result) (w' : World) :
      c.exec crc n w.fresh = some (r, w') → Performed crc n (.on w) (.call c r) (.on w') w'.log
  | cut (w : World) (c : Call) (k : List Event) (f : Mem) :
      Interrupts crc (issued crc n (.on w) (.cut c)) k f →
      Performed crc n (.on w) (.cut c) (.off f) k
  | boot (s : Sys) : Performed crc n s .boot (.on (coldBoot crc s.flash)) (coldBoot crc s.flash).log
  | bootCut (s : Sys) (k : List Event) (f : Mem) :
      Interrupts crc (issued crc n s .bootCut) k f → Performed crc n s .bootCut (.off f) k

theorem Performed.step {l : Label} (h : Performed crc n s l t k) : Step crc n s l t := by
  cases h with
  | call w c r w' he => exact .call w c r w' he
  | cut w c k f hi =>
    obtain ⟨e, he, hc⟩ := hi.cut
    exact .cut w c e f he hc
  | boot => exact .boot s
  | bootCut _ k f hi =>
    obtain ⟨e, he, hc⟩ := hi.cut
    exact .bootCut s e f he hc

theorem Step.performed {l : Label} (h : Step crc n s l t) : ∃ k, Performed crc n s l t k := by
  cases h with
  | call w c r w' he => exact ⟨_, .call w c r w' he⟩
  | cut w c e f he hc =>
    obtain ⟨k, hk⟩ := hc.interrupts he
    exact ⟨k, .cut w c k f hk⟩
  | boot => exact ⟨_, .boot s⟩
  | bootCut _ e f he hc =>
    obtain ⟨k, hk⟩ := hc.interrupts he
    exact ⟨k, .bootCut s k f hk⟩

/-- A step in which no write fails for want of a descriptor, labelled with what it performs. -/
def Performs (crc : Block → BitVec 32) (n : Nat) (s : Sys) (x : Label × List Event) (t : Sys) :
    Prop := Performed crc n s x.1 t x.2 ∧ SlotFree s x.1

theorem Performs.lasting {x : Label × List Event} (h : Performs crc n s x t) :
    Lasting crc n s x.1 t := ⟨h.1.step, h.2⟩

/-- Every run performs something. -/
theorem lasting_performs {h : List Label} (hr : Run (Lasting crc n) s h t) :
    ∃ g k, g.map Prod.fst = h ∧ Emits (Performs crc n) (fun _ x => x.2) s g t k := by
  induction hr with
  | refl => exact ⟨[], [], rfl, .refl⟩
  | step _ hst ih =>
    obtain ⟨g, k, rfl, he⟩ := ih
    obtain ⟨k', hk⟩ := hst.step.performed
    exact ⟨(_, k') :: g, _, rfl, he.step ⟨hk, hst.slot⟩⟩

/-! ## Boots -/

theorem issued_bootCut (crc : Block → BitVec 32) (n : Nat) (s : Sys) :
    issued crc n s .bootCut = (coldBoot crc s.flash).log := by
  cases s with
  | on w => simp only [issued]
  | off f => simp only [issued]

/-- A boot rewrites headers. -/
theorem coldBoot_chain (crc : Block → BitVec 32) (f : Mem) :
    Chain f (coldBoot crc f).log (coldBoot crc f).flash ∧
      blockWrites (coldBoot crc f).log = 0 ∧ erases (coldBoot crc f).log = 0 := by
  refine Settles.coldBoot (I := fun g log => Chain f log g ∧ blockWrites log = 0 ∧
    erases log = 0) ⟨⟨.nil, rfl, rfl⟩, ?_⟩
  rintro seen w s a i fd hw hs ha hc hacc hg hk ⟨hchain, hb, he⟩
  have hdrop : ∀ {l : List Nat} {x : Nat} {w' : World}, Dropped crc f l x w w' →
      Chain f w'.log w'.flash ∧ blockWrites w'.log = 0 ∧ erases w'.log = 0 := by
    intro l x w' hd
    obtain ⟨fs, hlog⟩ := hd.log
    rw [hlog, hd.flash]
    refine ⟨.cons (e := ⟨fs, w.flash, .program x _⟩) hchain (flags_ne_of_invalid rfl), ?_, ?_⟩
    · exact (List.countP_cons_of_neg (by simp [Op.isBlock, fsBlockSize])).trans hb
    · exact erases_program.trans he
  by_cases hcase : fd.header.newer = fsBlockCurrent ∧
      (flashRead w.flash a).header.newer = fsBlockNewer
  · exact hdrop (hw.found_newer hs ha hc hacc hg hk hcase).2
  · exact hdrop (hw.found_older ha hc hacc (List.mem_of_getElem? hg) hk hcase).2

section booted
variable {M : Contents} {f : Mem} (hM : Recoverable crc M f)
include hM

theorem Recoverable.booted_ink : ink (coldBoot crc f).flash = ink f := by
  obtain ⟨curr, hs, hb⟩ := hM.booted
  rw [hb.inv.shape.ink_eq, hs.ink_eq, hb.pointers]

/-- A boot goes on with a sector that is not full, if there is one. -/
theorem Recoverable.booted_blank :
    totalUsed (coldBoot crc f).fs = ink f ∧
      blankOthers (coldBoot crc f).fs ≤ (1023 - ink f) / 128 := by
  obtain ⟨curr, hs, hb⟩ := hM.booted
  have hshape := hb.inv.shape
  have hused : totalUsed (coldBoot crc f).fs = ink f := by
    rw [← hshape.ink, hM.booted_ink]
  have heq := hshape.totalUsed_eq
  have hle := (hshape.address_eq (coldBoot crc f).fs.curr.sector).2
  refine ⟨hused, ?_⟩
  by_cases hfull : cellsUsed (coldBoot crc f).fs (coldBoot crc f).fs.curr.sector = 128
  · have hnone : blankOthers (coldBoot crc f).fs = 0 := by
      by_contra hpos
      obtain ⟨t, -, ht⟩ := exists_blankOther (Nat.pos_of_ne_zero hpos)
      by_cases hp : Partial curr curr.sector
      · have hsec := hb.target hp
        have haddr := hshape.address_eq (coldBoot crc f).fs.curr.sector
        rw [hfull, hsec, hb.pointers] at haddr
        unfold Partial filesystemSectorSize at hp
        omega
      · have ht' : curr.address t = sectorBase t := by
          rw [← hb.pointers]
          exact ht
        have := (hshape.blank_iff _).1 (hb.blank hp ⟨t, ht'⟩)
        omega
    rw [hnone]
    exact Nat.zero_le _
  · omega

end booted

/-! ## The load -/

/-- The cells in use, and one for each sector that is left over: what a switch to such a sector
wastes on a copy. -/
def load : Sys → Nat
  | .on w => totalUsed w.fs + blankOthers w.fs
  | .off f => ink f + (1023 - ink f) / 128

/-- The copies that the thread may still make. -/
def pending : Sys → Nat
  | .on w => unreached w.fs
  | .off _ => 0

theorem ink_le (f : Mem) : ink f ≤ 1024 := by
  unfold ink inkedCells
  refine (Finset.card_filter_le _ _).trans ?_
  rw [Finset.card_sigma]
  simp

/-- Turning the system off. -/
theorem Held.load_off (hs : Held crc s) :
    ink s.flash + (1023 - ink s.flash) / 128 ≤ load s := by
  cases s with
  | off f => exact Nat.le_refl _
  | on w =>
    have hshape : Shape w.fs.curr w.flash := Inv.shape hs
    have hink := hshape.ink
    have heq := hshape.totalUsed_eq
    have hle := (hshape.address_eq w.fs.curr.sector).2
    show ink w.flash + (1023 - ink w.flash) / 128 ≤ totalUsed w.fs + blankOthers w.fs
    omega

def Label.isCut : Label → Bool
  | .cut _ => true
  | _ => false

/-- The power cuts during calls. -/
def cuts (h : List Label) : Nat := h.countP Label.isCut

theorem cuts_cons (l : Label) (h : List Label) : cuts (l :: h) = cuts [l] + cuts h :=
  countP_cons_add _ _ _

/-- What a step adds to the ink, and to the load with the copies that are pending. -/
structure Worn (s : Sys) (l : Label) (t : Sys) (k : List Event) : Prop where
  ink : ink t.flash + 128 * erases k = ink s.flash + blockWrites k
  load : load t + pending t + 77 * erases k ≤
    load s + pending s + written [l] + cuts [l] + 50 * boots [l]

section step
variable {w w' : World} {c : Call} {r : Result}

theorem worn_call (hi : Inv crc w.fs w.flash) (hslot : SlotFor w c)
    (he : c.exec crc (n + 2) w.fresh = some (r, w')) :
    Worn (.on w) (.call c r) (.on w') w'.log := by
  obtain ⟨hspent, hi'⟩ := hi.exec_spent hslot he
  obtain ⟨-, hcells, -, -, hbudget, -⟩ := hspent.step hi' he
  have hlog : issued crc (n + 2) (.on w) (.call c r) = w'.log := issued_call he
  rw [hlog] at hcells hbudget
  have h₁ := hi.shape.ink
  have h₂ := hi'.shape.ink
  have hboots : boots [Label.call c r] = 0 := rfl
  have hcuts : cuts [Label.call c r] = 0 := rfl
  constructor
  · show ink w'.flash + _ = ink w.flash + _
    omega
  · show totalUsed w'.fs + blankOthers w'.fs + unreached w'.fs + _ ≤
      totalUsed w.fs + blankOthers w.fs + unreached w.fs + _ + _ + _
    omega

/-- A call that is cut short has programmed a block, or two if it has turned to a blank sector. -/
theorem cut_load {f : Mem} (hi : Inv crc w.fs w.flash) (hslot : SlotFor w c)
    (h : Interrupts crc (issued crc (n + 2) (.on w) (.cut c)) k f) :
    ink f + 128 * erases k = ink w.flash + blockWrites k ∧
      load (.off f) + 77 * erases k ≤ load (.on w) + 1 := by
  obtain ⟨r, w', he, hwithin⟩ := exec_within hi hslot n
  rw [issued_cut he] at h
  have htotal := (worn_call hi hslot he).ink
  have hink := h.ink (hi.exec_chain hslot he) (hi.exec_good hslot he) htotal
  have hb : blockWrites k ≤ blockWrites w'.log := h.sublist.countP_le
  have hers : erases k ≤ erases w'.log := h.sublist.countP_le
  have hb₀ : blockWrites w.fresh.log = 0 := rfl
  have he₀ : erases w.fresh.log = 0 := rfl
  have hshape := hi.shape.ink
  have heq := hi.shape.totalUsed_eq
  have hle := (hi.shape.address_eq w.fs.curr.sector).2
  have hmax := ink_le f
  refine ⟨hink, ?_⟩
  show ink f + (1023 - ink f) / 128 + _ ≤ totalUsed w.fs + blankOthers w.fs + 1
  rcases hwithin with ⟨-, hb', he'⟩ | ⟨hfull, -, hb', he'⟩
  · omega
  · have h128 := (hi.shape.full_iff _).1 hfull
    omega

theorem worn_cut {f : Mem} (hi : Inv crc w.fs w.flash) (hslot : SlotFor w c)
    (h : Interrupts crc (issued crc (n + 2) (.on w) (.cut c)) k f) :
    Worn (.on w) (.cut c) (.off f) k := by
  obtain ⟨hink, hload⟩ := cut_load hi hslot h
  have hcuts : cuts [Label.cut c] = 1 := rfl
  have hpending : pending (.off f) = 0 := rfl
  exact ⟨hink, by omega⟩

end step

section boot
variable (hs : Held crc s)
include hs

theorem Held.boot_load : load (.on (coldBoot crc s.flash)) ≤ load s := by
  obtain ⟨M, hM⟩ := hs.recoverable
  obtain ⟨hused, hblank⟩ := hM.booted_blank
  have hoff := hs.load_off
  show totalUsed (coldBoot crc s.flash).fs + blankOthers (coldBoot crc s.flash).fs ≤ _
  omega

theorem worn_boot : Worn s .boot (.on (coldBoot crc s.flash)) (coldBoot crc s.flash).log := by
  obtain ⟨M, hM⟩ := hs.recoverable
  obtain ⟨-, hnone, hers⟩ := coldBoot_chain crc s.flash
  obtain ⟨curr, -, hb⟩ := hM.booted
  have h50 := unreached_start (Or.inl hb.idle)
  have hink := hM.booted_ink
  have hload := Held.boot_load hs
  have hboots : boots [Label.boot] = 1 := rfl
  clear hb
  generalize coldBoot crc s.flash = v at *
  constructor
  · show ink v.flash + _ = _
    omega
  · show load (.on v) + unreached v.fs + _ ≤ _
    omega

/-- What a boot that is cut short does is no more than what it does. -/
theorem bootCut_load {f : Mem} (h : Interrupts crc (coldBoot crc s.flash).log k f) :
    ink f = ink s.flash ∧ blockWrites k = 0 ∧ erases k = 0 ∧ load (.off f) ≤ load s := by
  obtain ⟨M, hM⟩ := hs.recoverable
  obtain ⟨hchain, hnone, hers⟩ := coldBoot_chain crc s.flash
  obtain ⟨curr, -, hb⟩ := hM.booted
  have htotal : ink (coldBoot crc s.flash).flash + 128 * erases (coldBoot crc s.flash).log =
      ink s.flash + blockWrites (coldBoot crc s.flash).log := by
    rw [hM.booted_ink, hnone, hers]
  have hink := h.ink hchain (fun e he => ⟨_, hb.logged e he⟩) htotal
  have hblocks : blockWrites k ≤ blockWrites (coldBoot crc s.flash).log := h.sublist.countP_le
  have hers' : erases k ≤ erases (coldBoot crc s.flash).log := h.sublist.countP_le
  rw [hnone] at hblocks
  rw [hers] at hers'
  have hsame : ink f = ink s.flash := by omega
  refine ⟨hsame, by omega, by omega, ?_⟩
  show ink f + (1023 - ink f) / 128 ≤ _
  rw [hsame]
  exact hs.load_off

theorem worn_bootCut {f : Mem} (h : Interrupts crc (coldBoot crc s.flash).log k f) :
    Worn s .bootCut (.off f) k := by
  obtain ⟨hsame, hnone, hers, hload⟩ := bootCut_load hs h
  have hpending : pending (.off f) = 0 := rfl
  constructor
  · show ink f + _ = _
    omega
  · omega

end boot

theorem Performed.worn {l : Label} (h : Performed crc (n + 2) s l t k) (hslot : SlotFree s l)
    (hs : Held crc s) : Worn s l t k := by
  cases h with
  | call w c r w' he => exact worn_call hs hslot he
  | cut w c _ f hint => exact worn_cut hs hslot hint
  | boot => exact worn_boot hs
  | bootCut _ _ f hint =>
    rw [issued_bootCut] at hint
    exact worn_bootCut hs hint

/-! ## Runs -/

theorem sum_wear (h : List (Label × List Event)) :
    (h.map fun x => ((written [x.1] + cuts [x.1] + 50 * boots [x.1] : Nat) : Int)).sum =
      (written (h.map Prod.fst) + cuts (h.map Prod.fst) + 50 * boots (h.map Prod.fst) : Nat) := by
  induction h with
  | nil => rfl
  | cons x h ih =>
    rw [List.map_cons, List.sum_cons, ih, List.map_cons, written_cons x.1 (h.map Prod.fst),
      cuts_cons x.1 (h.map Prod.fst), boots_cons x.1 (h.map Prod.fst)]
    omega

theorem ink_erased : ink erased = 0 := by
  rw [shape_erased.ink_eq]
  exact Finset.sum_eq_zero fun s _ => by simp

theorem load_erased : load (.off erased) = 7 := by
  show ink erased + (1023 - ink erased) / 128 = 7
  rw [ink_erased]

/-- Over any run from the flash as delivered, with power cuts anywhere: the blocks programmed, torn
ones included, are the cells that hold something and 128 for each erase, and there are 77 writes of
users or more for each erase and for each 128 blocks, but for one block for each call that is cut,
50 for each boot and 7 at the start. -/
theorem endurance {h : List (Label × List Event)}
    (he : Emits (Performs crc (n + 2)) (fun _ x => x.2) (.off erased) h t k) :
    blockWrites k = ink t.flash + 128 * erases k ∧
    77 * erases k + ink t.flash ≤ written (h.map Prod.fst) + cuts (h.map Prod.fst) +
      50 * boots (h.map Prod.fst) + 7 ∧
    77 * blockWrites k ≤ 128 * (written (h.map Prod.fst) + cuts (h.map Prod.fst) +
      50 * boots (h.map Prod.fst) + 7) := by
  have hheld : ∀ {g : List (Label × List Event)} {s : Sys},
      Run (Performs crc (n + 2)) (.off erased) g s → Held crc s := fun hr =>
    hr.invariant (I := fun _ s => Held crc s) ⟨_, recoverable_erased crc⟩
      fun _ _ _ _ hs hst => hst.lasting.held hs
  have hall : SuffixClosed fun _ : List (Label × List Event) => True := fun _ _ _ => trivial
  have hblocks : Additive fun k => (blockWrites k : Int) := additive_countP _
  have herases : Additive fun k => (erases k : Int) := additive_countP _
  have hink := he.conserve (fun s => ink s.flash) hall trivial (hblocks.sub (herases.mul 128))
    fun g a x b hr _ hst => by
      have := (hst.1.worn hst.2 (hheld hr)).ink
      omega
  have hwear := he.amortise (fun s => (load s + pending s : Nat)) hall trivial (herases.mul (-77))
    (fun x => (written [x.1] + cuts [x.1] + 50 * boots [x.1] : Nat)) fun g a x b hr _ hst => by
      have := (hst.1.worn hst.2 (hheld hr)).load
      omega
  rw [sum_wear] at hwear
  have hstart := load_erased
  have hnone : pending (.off erased) = 0 := rfl
  have hempty : ink (Sys.off erased).flash = 0 := ink_erased
  have hend := (hheld he.run).load_off
  refine ⟨?_, ?_, ?_⟩
  · omega
  · omega
  · omega

/-- A write is cut after a relocation, and the system boots again. -/
theorem endurance_tour : ∃ h u w x v f g k, Tour h u w x v ∧
    Emits (Performs (fun _ => 0) (0 + 2)) (fun _ x => x.2) (.off erased) g
      (.on (coldBoot (fun _ => 0) f)) k ∧
    g.map Prod.fst = .boot :: .cut (sectorWrite 5) :: (relocationTo 5 ++ h ++ [.boot]) ∧
    0 < erases k ∧ 77 * erases k + ink (coldBoot (fun _ => 0) f).flash ≤
      written (g.map Prod.fst) + cuts (g.map Prod.fst) + 50 * boots (g.map Prod.fst) + 7 := by
  obtain ⟨h, u, w, x, v, ht⟩ := tour
  obtain ⟨f, hf⟩ := ht.cut
  obtain ⟨hx, hkx⟩ := ht.beforeErase.fromOff
  obtain ⟨hv, hkv⟩ := ht.afterErase.fromOff
  obtain ⟨g, k, hg, he⟩ := lasting_performs (hkx.limits.lasting hx)
  obtain ⟨-, hslot, -⟩ := hkv.next (c := sectorWrite 5) hv (SectorKeys.write 5)
  obtain ⟨k', hk'⟩ := hf.performed
  have hrun := ((he.step (l := (_, v.log)) ⟨.call x _ _ v ht.freeing, trivial⟩).step
    (l := (_, k')) ⟨hk', hslot⟩).step (l := (_, _)) ⟨.boot (.off f), trivial⟩
  refine ⟨h, u, w, x, v, f, _, _, ht, hrun, ?_, ?_, (endurance hrun).2.1⟩
  · rw [List.map_cons, List.map_cons, List.map_cons, hg]
    rfl
  · obtain ⟨e, hm, hop⟩ := ht.freed
    exact List.countP_pos_iff.2 ⟨e, List.mem_append_right _ (List.mem_append_right _
      (List.mem_append_left _ hm)), by rw [hop]; rfl⟩

end Wormvars
