import Wormvars.Chain
import Wormvars.Repair
import Wormvars.Throughput

/-!
# Cells with a header

`ink f` counts the cells of the flash whose header is not blank.  It is what the append
pointers show (`Shape.ink`), but it needs no file system and so can be told at any moment
also of a flash that a power cut leaves.  A block takes one cell of it and an erase gives
128 back, also when the log of a call or a boot is cut short (`Interrupts.ink`): the rewrites
of headers find a header and leave one, or the account of the whole log would not come out.
-/

namespace Wormvars

open NorFlash Runs

variable {crc : Block → BitVec 32} {n : Nat} {f g : Mem} {l p : List Event} {e : Event}

/-- The cells, by sector and number, whose header is not blank. -/
def inkedCells (f : Mem) : Finset (Σ _ : Fin 8, ℕ) :=
  (Finset.univ.sigma fun _ => Finset.range 128).filter fun c =>
    ¬ BlankHeader (flashRead f (sectorBase c.1 + 32 * c.2))

def ink (f : Mem) : Nat := (inkedCells f).card

theorem mem_inkedCells {c : Σ _ : Fin 8, ℕ} : c ∈ inkedCells f ↔
    c.2 < 128 ∧ ¬ BlankHeader (flashRead f (sectorBase c.1 + 32 * c.2)) := by
  unfold inkedCells
  simp

/-! ## Operations -/

theorem inkedCells_program (f : Mem) (a : Nat) (bs : List Byte) :
    inkedCells f ⊆ inkedCells (program f a bs) := by
  intro c hc
  rw [mem_inkedCells] at hc ⊢
  exact ⟨hc.1, fun hb => hc.2 (blankHeader_of_program hb)⟩

theorem ink_program_le (f : Mem) (a : Nat) (bs : List Byte) : ink f ≤ ink (program f a bs) :=
  Finset.card_le_card (inkedCells_program f a bs)

theorem IsCell.exists_index {a : Nat} (h : IsCell a) :
    ∃ (s : Fin 8) (i : Nat), i < 128 ∧ sectorBase s + 32 * i = a := by
  obtain ⟨s, hs⟩ := h.exists_sector
  have hmod := sectorBase_mod s
  unfold IsCell at h
  unfold InSector at hs
  exact ⟨s, (a - sectorBase s) / 32, by omega, by omega⟩

/-- A cell takes its header. -/
theorem ink_program_blank {a : Nat} {bs : List Byte} (ha : IsCell a)
    (hblank : BlankHeader (flashRead f a)) (hb : bs.getD 0 0xFF ≠ 0xFF) :
    ink f + 1 ≤ ink (program f a bs) := by
  obtain ⟨s, i, hi, he⟩ := ha.exists_index
  have hnot : ⟨s, i⟩ ∉ inkedCells f := by
    rw [mem_inkedCells]
    exact fun h => h.2 (he.symm ▸ hblank)
  have hin : ⟨s, i⟩ ∈ inkedCells (program f a bs) := by
    rw [mem_inkedCells]
    refine ⟨hi, fun h => hb ?_⟩
    have h0 := (blankHeader_iff _ _).1 (he ▸ h) 0 (by omega)
    unfold program at h0
    rw [if_pos (by omega), Nat.add_zero, Nat.sub_self] at h0
    exact of_and_eq_ones h0
  have hsub : insert ⟨s, i⟩ (inkedCells f) ⊆ inkedCells (program f a bs) :=
    Finset.insert_subset hin (inkedCells_program f a bs)
  have := Finset.card_le_card hsub
  rwa [Finset.card_insert_of_notMem hnot] at this

/-- The bytes that a power cut leaves out may only add to the ink. -/
theorem ink_take_le (f : Mem) (a : Nat) (bs : List Byte) (k : Nat) :
    ink (program f a (bs.take k)) ≤ ink (program f a bs) := by
  refine Finset.card_le_card fun c hc => ?_
  rw [mem_inkedCells] at hc ⊢
  refine ⟨hc.1, fun hb => hc.2 ?_⟩
  rw [blankHeader_iff] at hb ⊢
  intro j hj
  have hbyte := hb j hj
  rw [program_take]
  split
  · exact hbyte
  · have := program_and_self f a bs (sectorBase c.1 + 32 * c.2 + j)
    rw [hbyte, ones_and] at this
    exact this

theorem ink_erase (f : Mem) (s : Fin 8) :
    ink f ≤ ink (erase f (sectorBase s) filesystemSectorSize) + 128 := by
  have hinj : Function.Injective fun i => (⟨s, i⟩ : Σ _ : Fin 8, ℕ) := fun i j h => by
    simpa using h
  have hsub : inkedCells f ⊆ inkedCells (erase f (sectorBase s) filesystemSectorSize) ∪
      (Finset.range 128).map ⟨_, hinj⟩ := by
    rintro ⟨t, i⟩ hc
    rw [Finset.mem_union]
    rw [mem_inkedCells] at hc ⊢
    by_cases ht : t = s
    · right
      subst ht
      exact Finset.mem_map.2 ⟨i, Finset.mem_range.2 hc.1, rfl⟩
    · left
      refine ⟨hc.1, fun hb => hc.2 ?_⟩
      rw [blankHeader_iff] at hb ⊢
      intro j hj
      have hbyte := hb j hj
      have h₁ := sectorBase_eq t
      have h₂ := sectorBase_eq s
      have hne : t.val ≠ s.val := fun h => ht (Fin.ext h)
      have hlt : i < 128 := hc.1
      rwa [erase_outside] at hbyte
      unfold filesystemSectorSize
      dsimp only
      omega
  have := (Finset.card_le_card hsub).trans (Finset.card_union_le _ _)
  rwa [Finset.card_map, Finset.card_range] at this

/-! ## Logs -/

theorem blockWrites_cons (e : Event) (l : List Event) :
    blockWrites (e :: l) = blockWrites [e] + blockWrites l := countP_cons_add _ _ _

theorem erases_cons (e : Event) (l : List Event) : erases (e :: l) = erases [e] + erases l :=
  countP_cons_add _ _ _

/-- A block is programmed where there is no header. -/
theorem Good.blank {Ms : Contents → Prop} (hg : Good crc Ms e) {a : Nat} {bs : List Byte}
    (hop : e.op = .program a bs) (hl : bs.length = fsBlockSize) :
    IsCell a ∧ BlankHeader (flashRead e.flash a) := by
  obtain ⟨ha, -, hb⟩ := (hg.legal a bs hop).block hl
  refine ⟨ha, (blankHeader_iff _ _).2 fun i hi => hb (a + i) (by omega) ?_⟩
  unfold fsBlockSize
  omega

theorem Op.ink_le (hg : ∃ Ms, Good crc Ms e) (hi : e.op.Inks) :
    ink e.flash + blockWrites [e] ≤ ink (e.op.apply e.flash) + 128 * erases [e] := by
  obtain ⟨Ms, hg⟩ := hg
  obtain ⟨fs, f, op⟩ := e
  cases op with
  | program a bs =>
    by_cases hl : bs.length = fsBlockSize
    · have hone : blockWrites [(⟨fs, f, .program a bs⟩ : Event)] = 1 :=
        List.countP_cons_of_pos (beq_iff_eq.2 hl)
      obtain ⟨ha, hb⟩ := hg.blank rfl hl
      rw [hone]
      exact Nat.le_add_right_of_le (ink_program_blank ha hb hi)
    · have hnone : blockWrites [(⟨fs, f, .program a bs⟩ : Event)] = 0 :=
        List.countP_cons_of_neg (by simpa [Op.isBlock] using hl)
      rw [hnone]
      exact Nat.le_add_right_of_le (ink_program_le f a bs)
  | erase a =>
    obtain ⟨s, rfl, -⟩ := hg.erase a rfl
    rw [blockWrites_erase, erases_erase]
    exact ink_erase f s
  | returns r => exact Nat.le_add_right _ _

theorem Chain.ink_le (h : Chain f l g) (hg : ∀ e ∈ l, ∃ Ms, Good crc Ms e) :
    ink f + blockWrites l ≤ ink g + 128 * erases l := by
  induction h with
  | nil => exact Nat.le_refl _
  | @cons l e h hi ih =>
    have h₁ := ih fun x hx => hg x (List.mem_cons_of_mem _ hx)
    have h₂ := Op.ink_le (hg e List.mem_cons_self) hi
    rw [blockWrites_cons, erases_cons]
    omega

/-- The account of a log comes out at each of its operations. -/
theorem Chain.ink_split (h : Chain f (p ++ e :: l) g)
    (hg : ∀ x ∈ p ++ e :: l, ∃ Ms, Good crc Ms x)
    (htotal : ink g + 128 * erases (p ++ e :: l) = ink f + blockWrites (p ++ e :: l)) :
    ink e.flash + 128 * erases l = ink f + blockWrites l ∧
    ink (e.op.apply e.flash) + 128 * erases (e :: l) = ink f + blockWrites (e :: l) := by
  obtain ⟨hl, hi, hp⟩ := h.split
  have h₁ := hl.ink_le fun x hx => hg x (by simp [hx])
  have h₂ := Op.ink_le (hg e (by simp)) hi
  have h₃ := hp.ink_le fun x hx => hg x (by simp [hx])
  have herases : erases (p ++ e :: l) = erases p + erases (e :: l) := List.countP_append
  have hblocks : blockWrites (p ++ e :: l) = blockWrites p + blockWrites (e :: l) :=
    List.countP_append
  rw [herases, hblocks, erases_cons, blockWrites_cons] at htotal
  rw [erases_cons, blockWrites_cons]
  constructor
  · omega
  · omega

/-! ## Power cuts -/

/-- What of a log a power cut lets happen, the operation that it cuts short included, and the
flash that it leaves. -/
inductive Interrupts (crc : Block → BitVec 32) (log : List Event) : List Event → Mem → Prop
  | before {p l : List Event} {e : Event} : log = p ++ e :: l → Interrupts crc log l e.flash
  | after {p l : List Event} {e : Event} : log = p ++ e :: l →
      Interrupts crc log (e :: l) (e.op.apply e.flash)
  | torn {p l : List Event} {e : Event} (a : Nat) (bs : List Byte) (k : Nat) : log = p ++ e :: l →
      e.op = .program a bs → 0 < k → k < bs.length →
      Cut crc e (program e.flash a (bs.take k)) →
      Interrupts crc log (e :: l) (program e.flash a (bs.take k))

theorem Interrupts.cut {log : List Event} (h : Interrupts crc log l f) :
    ∃ e ∈ log, Cut crc e f := by
  cases h with
  | before hl => exact ⟨_, hl ▸ by simp, .before⟩
  | after hl => exact ⟨_, hl ▸ by simp, .after⟩
  | torn a bs k hl _ _ _ hc => exact ⟨_, hl ▸ by simp, hc⟩

theorem Cut.interrupts {log : List Event} (he : e ∈ log) (h : Cut crc e f) :
    ∃ l, Interrupts crc log l f := by
  obtain ⟨p, l, hl⟩ := List.append_of_mem he
  cases h with
  | before => exact ⟨_, .before hl⟩
  | after => exact ⟨_, .after hl⟩
  | torn a bs k hop h₀ hk hc => exact ⟨_, .torn a bs k hl hop h₀ hk (.torn a bs k hop h₀ hk hc)⟩

theorem Interrupts.sublist {log : List Event} (h : Interrupts crc log l f) : l.Sublist log := by
  cases h with
  | before hl =>
    rw [hl]
    exact (List.sublist_cons_self _ _).trans (List.sublist_append_right _ _)
  | after hl =>
    rw [hl]
    exact List.sublist_append_right _ _
  | torn a bs k hl =>
    rw [hl]
    exact List.sublist_append_right _ _

/-- The first byte of a block gives the cell its header, and a header is rewritten in place. -/
theorem Good.ink_torn {Ms : Contents → Prop} (hg : Good crc Ms e) {a k : Nat} {bs : List Byte}
    (hop : e.op = .program a bs) (hi : bs.getD 0 0xFF ≠ 0xFF) (h₀ : 0 < k)
    (hfull : ink (program e.flash a bs) = ink e.flash + blockWrites [e]) :
    ink (program e.flash a (bs.take k)) = ink (program e.flash a bs) := by
  have hle := ink_take_le e.flash a bs k
  by_cases hl : bs.length = fsBlockSize
  · obtain ⟨ha, hb⟩ := hg.blank hop hl
    have hfirst : (bs.take k).getD 0 0xFF ≠ 0xFF := by
      rwa [List.getD_eq_getElem?_getD, List.getElem?_take_of_lt h₀, ← List.getD_eq_getElem?_getD]
    have hblank := ink_program_blank ha hb hfirst
    have hone : blockWrites [e] ≤ 1 := List.countP_le_length
    omega
  · have hnone : blockWrites [e] = 0 :=
      List.countP_cons_of_neg (by rw [hop]; simpa [Op.isBlock] using hl)
    have hge := ink_program_le e.flash a (bs.take k)
    omega

/-- A log whose account comes out, cut short anywhere. -/
theorem Interrupts.ink {log : List Event} {f₀ : Mem} (h : Interrupts crc log l f)
    (hc : Chain f₀ log g) (hg : ∀ e ∈ log, ∃ Ms, Good crc Ms e)
    (htotal : ink g + 128 * erases log = ink f₀ + blockWrites log) :
    Wormvars.ink f + 128 * erases l = Wormvars.ink f₀ + blockWrites l := by
  cases h with
  | before hl =>
    subst hl
    exact (hc.ink_split hg htotal).1
  | after hl =>
    subst hl
    exact (hc.ink_split hg htotal).2
  | @torn p l e a bs k hl hop h₀ =>
    subst hl
    obtain ⟨h₁, h₂⟩ := hc.ink_split hg htotal
    obtain ⟨Ms, hgood⟩ := hg e (by simp)
    obtain ⟨-, hinks, -⟩ := hc.split
    have hcons₁ := erases_cons e l
    have hcons₂ := blockWrites_cons e l
    have herases : erases [e] = 0 := List.countP_cons_of_neg (by simp [hop, Op.isErase])
    rw [hop] at hinks h₂
    have hfull : Wormvars.ink (program e.flash a bs) + 128 * erases (e :: l) =
      Wormvars.ink f₀ + blockWrites (e :: l) := h₂
    have htorn := hgood.ink_torn hop hinks h₀ (by omega)
    omega

/-! ## Append pointers -/

theorem Shape.ink_eq {curr : Curr} (hs : Shape curr f) :
    ink f = ∑ s, (curr.address s - sectorBase s) / 32 := by
  have hset : inkedCells f =
      Finset.univ.sigma fun s => Finset.range ((curr.address s - sectorBase s) / 32) := by
    ext ⟨s, i⟩
    have hlo := hs.lo s
    have hhi := hs.hi s
    have hal := hs.aligned s
    have hmod := sectorBase_mod s
    rw [mem_inkedCells]
    simp only [Finset.mem_sigma, Finset.mem_univ, Finset.mem_range, true_and]
    constructor
    · rintro ⟨hi, hb⟩
      by_contra hge
      refine hb ((blankHeader_iff _ _).2 fun j hj => hs.blank s _ ?_ ?_)
      · omega
      · omega
    · intro hi
      exact ⟨by omega, hs.written s _ (Nat.le_add_right _ _) (by omega) (by omega)⟩
  unfold ink
  rw [hset, Finset.card_sigma]
  simp only [Finset.card_range]

/-- The cells in use are those with a header. -/
theorem Shape.ink {fs : Fs} (hs : Shape fs.curr f) : ink f = totalUsed fs := hs.ink_eq

/-- The other sectors are blank or full. -/
theorem Shape.totalUsed_eq {fs : Fs} (hs : Shape fs.curr f) :
    totalUsed fs + 128 * blankOthers fs = 896 + cellsUsed fs fs.curr.sector := by
  have hcell : ∀ s, cellsUsed fs s + (if BlankOther fs s then 128 else 0) +
      (if s = fs.curr.sector then 128 else 0) =
        128 + (if s = fs.curr.sector then cellsUsed fs fs.curr.sector else 0) := by
    intro s
    by_cases hcurr : s = fs.curr.sector
    · rw [if_neg fun hb => hb.1 hcurr, if_pos hcurr, if_pos hcurr, hcurr]
      omega
    · rw [if_neg hcurr, if_neg hcurr]
      have haddr := hs.address_eq s
      rcases hs.others s hcurr with h | h
      · rw [if_pos ⟨hcurr, h⟩]
        omega
      · have hfull : fs.SectorIsFull s := (hs.full_iff s).2 (by omega)
        rw [if_neg fun hb : BlankOther fs s => not_full_of_blank hb.2 hfull]
        omega
  have hsum : ∑ s : Fin 8, (cellsUsed fs s + (if BlankOther fs s then 128 else 0) +
      (if s = fs.curr.sector then 128 else 0)) =
        ∑ s : Fin 8, (128 + if s = fs.curr.sector then cellsUsed fs fs.curr.sector else 0) :=
    Finset.sum_congr rfl fun s _ => hcell s
  simp only [Finset.sum_add_distrib, Finset.sum_ite_eq', Finset.mem_univ, if_true] at hsum
  rw [← Finset.sum_filter, Finset.sum_const, ← blankOthers_eq, Finset.sum_const, Finset.card_univ,
    Fintype.card_fin, smul_eq_mul, smul_eq_mul] at hsum
  unfold totalUsed
  omega

end Wormvars
