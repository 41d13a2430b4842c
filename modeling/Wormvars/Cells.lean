import Wormvars.NewerLog
import Wormvars.Fs

/-!
# The flash as a log of cells

The eight sectors are cut into 32-byte cells.  `copies crc f` reads the flash as
a log of copies in the sense of `NewerLog`: a cell that `checkBlock` accepts is
a copy of its key, every other cell is empty.  Each flash operation of the code
is an update of that log at one cell:

* a block programmed into an erased cell puts a copy (`copies_program_block`),
* a header rewrite that clears newer clears the flag (`copies_clear_newer`),
* a header rewrite that zeroes the size drops the copy (`copies_clear_size`).

`Shape curr f` says how the append pointers lie in the flash: below them no cell
has a blank header, above them every byte is `0xFF`, and every sector but the
current one is blank or full.
-/

namespace Wormvars

open NorFlash NewerLog

abbrev Key := BitVec 16 × BitVec 3
abbrev Payload := Fin 28 → Byte
abbrev Contents := Key → Option Payload

/-- Addresses where a cell of one of the eight sectors starts. -/
def IsCell (a : Nat) : Prop := 0xF4000 ≤ a ∧ a < 0xFC000 ∧ a % 32 = 0

def InSector (s : Fin 8) (a : Nat) : Prop := sectorBase s ≤ a ∧ a < sectorBase s + 4096

instance (a : Nat) : Decidable (IsCell a) := inferInstanceAs (Decidable (_ ∧ _))

instance (s : Fin 8) (a : Nat) : Decidable (InSector s a) := inferInstanceAs (Decidable (_ ∧ _))

theorem sectorBase_eq : ∀ s : Fin 8, sectorBase s = 0xF4000 + 4096 * s.val := by decide

theorem sectorBase_mod (s : Fin 8) : sectorBase s % 32 = 0 := by
  rw [sectorBase_eq]; omega

theorem InSector.isCell {s : Fin 8} {a : Nat} (h : InSector s a) (ha : a % 32 = 0) : IsCell a := by
  unfold InSector at h
  rw [sectorBase_eq] at h
  exact ⟨by omega, by omega, ha⟩

theorem InSector.unique {s t : Fin 8} {a : Nat} (hs : InSector s a) (ht : InSector t a) : s = t := by
  unfold InSector at hs ht
  rw [sectorBase_eq] at hs ht
  ext
  omega

theorem IsCell.exists_sector {a : Nat} (h : IsCell a) : ∃ s, InSector s a := by
  unfold IsCell at h
  refine ⟨⟨(a - 0xF4000) / 4096, by omega⟩, ?_⟩
  unfold InSector
  rw [sectorBase_eq]
  dsimp only
  omega

/-! ## Copies -/

/-- The copy held at `a`, if there is one. -/
def copies (crc : Block → BitVec 32) (f : Mem) : Image Nat Key Payload := fun a =>
  let b := flashRead f a
  if IsCell a ∧ Accepted crc b then some ⟨b.header.key, b.header.newer == fsBlockNewer, b.data⟩
  else none

theorem copies_eq_none {crc : Block → BitVec 32} {f : Mem} {a : Nat}
    (h : ¬ Accepted crc (flashRead f a)) : copies crc f a = none :=
  if_neg fun h' => h h'.2

theorem copies_eq_some {crc : Block → BitVec 32} {f : Mem} {a : Nat} (ha : IsCell a)
    (h : Accepted crc (flashRead f a)) :
    copies crc f a = some ⟨(flashRead f a).header.key, (flashRead f a).header.newer == fsBlockNewer,
      (flashRead f a).data⟩ := if_pos ⟨ha, h⟩

theorem copies_some_iff {crc : Block → BitVec 32} {f : Mem} {a : Nat} {c : Copy Key Payload} :
    copies crc f a = some c ↔ (IsCell a ∧ Accepted crc (flashRead f a)) ∧
      c = ⟨(flashRead f a).header.key, (flashRead f a).header.newer == fsBlockNewer,
        (flashRead f a).data⟩ := by
  unfold copies
  simp only []
  split
  · next h => rw [Option.some.injEq, and_iff_right h, eq_comm]
  · next h => simp [h]

theorem copies_congr {crc : Block → BitVec 32} {f f' : Mem} {a : Nat}
    (h : flashRead f a = flashRead f' a) : copies crc f a = copies crc f' a := by
  unfold copies
  rw [h]

/-- Programming inside one cell changes the log at that cell only. -/
theorem copies_program (crc : Block → BitVec 32) (f : Mem) (a : Nat) (bs : List Byte)
    (ha : IsCell a) (hl : bs.length ≤ 32) :
    copies crc (program f a bs) =
      Function.update (copies crc f) a (copies crc (program f a bs) a) := by
  funext b
  by_cases hb : b = a
  · subst hb; rw [Function.update_self]
  · rw [Function.update_of_ne hb]
    by_cases hc : IsCell b
    · apply copies_congr
      apply flashRead_program_outside
      unfold IsCell at ha hc
      omega
    · unfold copies
      simp [hc]

/-! ## The three updates -/

/-- What an erased cell reads as. -/
theorem flashRead_blank {f : Mem} {a : Nat} (h : Blank f a 32) :
    flashRead f a = ⟨.ofBytes 0xFF 0xFF 0xFF 0xFF, fun _ => 0xFF⟩ := by
  apply Block.ext
  · show BlockHeader.ofBytes _ _ _ _ = _
    rw [h a (by omega) (by omega), h _ (by omega) (by omega), h _ (by omega) (by omega),
      h _ (by omega) (by omega)]
  · intro i
    exact h _ (by omega) (by omega)

theorem ones_and_header (h : BlockHeader) : .ofBytes 0xFF 0xFF 0xFF 0xFF &&& h = h := by
  rw [← h.ofBytes_toBytes, ← BlockHeader.ofBytes_and]
  simp only [ones_and]

theorem flashRead_program_blank {f : Mem} {a : Nat} (h : Blank f a 32) (b : Block) :
    flashRead (program f a b.toBytes) a = b := by
  rw [flashRead_program_block, flashRead_blank h]
  exact Block.ext (ones_and_header _) fun i => ones_and _

theorem not_accepted_blank {crc : Block → BitVec 32} {f : Mem} {a : Nat} (h : Blank f a 32) :
    ¬ Accepted crc (flashRead f a) := by
  rw [flashRead_blank h]
  exact not_accepted (by show BitVec.extractLsb' 2 2 (0xFF : Byte) ≠ fsSize32; decide)

theorem copies_program_block {crc : Block → BitVec 32} {f : Mem} {a : Nat} (ha : IsCell a)
    (h : Blank f a 32) {b : Block} (hb : Accepted crc b) :
    copies crc (program f a b.toBytes) = Function.update (copies crc f) a
      (some ⟨b.header.key, b.header.newer == fsBlockNewer, b.data⟩) := by
  rw [copies_program crc f a _ ha (by simp)]
  congr 1
  have hr := flashRead_program_blank h b
  rw [copies_eq_some ha (by rw [hr]; exact hb), hr]

theorem and_clear_newer (h : BlockHeader) : h &&& { h with newer := 0 } = { h with newer := 0 } := by
  show (⟨h.ver &&& h.ver, h.size &&& h.size, h.newer &&& 0, h.ext &&& h.ext, h.hash &&& h.hash,
    h.name &&& h.name⟩ : BlockHeader) = _
  simp only [BitVec.and_self]
  congr 1
  exact BitVec.and_zero

theorem and_clear_size (h : BlockHeader) : h &&& { h with size := 0 } = { h with size := 0 } := by
  show (⟨h.ver &&& h.ver, h.size &&& 0, h.newer &&& h.newer, h.ext &&& h.ext, h.hash &&& h.hash,
    h.name &&& h.name⟩ : BlockHeader) = _
  simp only [BitVec.and_self]
  congr 1
  exact BitVec.and_zero

/-- A header request, whole or cut to `j` bytes, that agrees with what is stored in all but the
flags does all its work with the first byte. -/
theorem program_header_take {f : Mem} {a : Nat} {h : BlockHeader}
    (hh : (flashRead f a).header.hash = h.hash) (hn : (flashRead f a).header.name = h.name)
    {j : Nat} (hj : 0 < j) : program f a (h.toBytes.take j) = program f a h.toBytes := by
  funext x
  rw [program_take]
  split
  · rfl
  · have h₁ := congrFun (program_flags_eq f a h hh hn) x
    rw [program_take, if_neg (by omega)] at h₁
    exact h₁

theorem copies_clear_newer {crc : Block → BitVec 32} {f : Mem} {a : Nat} {c : Copy Key Payload}
    (h : copies crc f a = some c) {g : BlockHeader} (hg : (flashRead f a).header = g) :
    copies crc (program f a { g with newer := fsBlockCurrent }.toBytes) =
      Function.update (copies crc f) a (some { c with newer := false }) := by
  obtain ⟨⟨ha, hacc⟩, rfl⟩ := copies_some_iff.1 h
  rw [copies_program crc f a _ ha (by simp)]
  congr 1
  have hr : flashRead (program f a { g with newer := fsBlockCurrent }.toBytes) a =
      { flashRead f a with header := { (flashRead f a).header with newer := 0 } } := by
    rw [flashRead_program_header, hg]
    exact Block.ext (and_clear_newer g) fun _ => rfl
  rw [copies_eq_some ha (by rw [hr, accepted_newer]; exact hacc), hr]
  rfl

theorem copies_clear_size (crc : Block → BitVec 32) {f : Mem} {a : Nat} (ha : IsCell a)
    {g : BlockHeader} (hg : (flashRead f a).header = g) :
    copies crc (program f a { g with size := fsSizeInvalid }.toBytes) =
      Function.update (copies crc f) a none := by
  rw [copies_program crc f a _ ha (by simp)]
  congr 1
  apply copies_eq_none
  apply not_accepted
  rw [flashRead_program_header, hg]
  show (g &&& { g with size := 0 }).size ≠ fsSize32
  rw [and_clear_size]
  show (0 : BitVec 2) ≠ fsSize32
  decide

/-- Erasing a sector without copies leaves the log as it is. -/
theorem copies_erase {crc : Block → BitVec 32} {f : Mem} {s : Fin 8}
    (h : ∀ a, InSector s a → copies crc f a = none) :
    copies crc (erase f (sectorBase s) 4096) = copies crc f := by
  funext a
  by_cases ha : IsCell a
  · by_cases hs : InSector s a
    · rw [h a hs]
      apply copies_eq_none
      apply not_accepted_blank
      have := sectorBase_mod s
      intro x h₁ h₂
      unfold InSector at hs
      unfold IsCell at ha
      exact erase_inside _ _ _ _ (by omega) (by omega)
    · apply copies_congr
      apply flashRead_congr
      intro x h₁ h₂
      have := sectorBase_mod s
      unfold InSector at hs
      unfold IsCell at ha
      exact erase_outside _ _ _ _ (by omega)
  · unfold copies
    simp [ha]

/-! ## Append pointers -/

theorem Curr.setAddress_self (curr : Curr) (s : Fin 8) (a : Nat) :
    (curr.setAddress s a).address s = a := if_pos rfl

theorem Curr.setAddress_ne (curr : Curr) {s t : Fin 8} (a : Nat) (h : t ≠ s) :
    (curr.setAddress s a).address t = curr.address t := if_neg h

/-- The append pointers `curr` fit the flash `f`. -/
structure Shape (curr : Curr) (f : Mem) : Prop where
  lo : ∀ s, sectorBase s ≤ curr.address s
  hi : ∀ s, curr.address s ≤ sectorBase s + 4096
  aligned : ∀ s, curr.address s % 32 = 0
  written : ∀ s a, sectorBase s ≤ a → a < curr.address s → a % 32 = 0 →
    ¬ BlankHeader (flashRead f a)
  blank : ∀ s x, curr.address s ≤ x → x < sectorBase s + 4096 → f x = 0xFF
  others : ∀ s, s ≠ curr.sector →
    curr.address s = sectorBase s ∨ curr.address s = sectorBase s + 4096

theorem blankHeader_iff (f : Mem) (a : Nat) :
    BlankHeader (flashRead f a) ↔ ∀ i, i < 4 → f (a + i) = 0xFF := by
  have hw : (flashRead f a).header.toWord = (f (a + 3) ++ f (a + 2)) ++ f (a + 1) ++ f a := by
    show (BlockHeader.ofBytes _ _ _ _).toWord = _
    unfold BlockHeader.toWord
    rw [BlockHeader.flags_ofBytes]
    rfl
  unfold BlankHeader
  rw [hw]
  constructor
  · intro h
    have ones (i : Nat) (hi : i < 32) :
        ((f (a + 3) ++ f (a + 2)) ++ f (a + 1) ++ f a).getLsbD i = true := by
      rw [h, show longBlankPattern = BitVec.allOnes 32 from rfl, BitVec.getLsbD_allOnes]
      exact decide_eq_true hi
    intro i hi
    apply BitVec.eq_of_getLsbD_eq
    intro j hj
    have h8 : (0xFF : Byte).getLsbD j = true := by
      rw [show (0xFF : Byte) = BitVec.allOnes 8 from rfl, BitVec.getLsbD_allOnes]
      exact decide_eq_true hj
    rw [h8]
    have := ones (8 * i + j) (by omega)
    simp only [BitVec.getLsbD_append] at this
    obtain rfl | rfl | rfl | rfl : i = 0 ∨ i = 1 ∨ i = 2 ∨ i = 3 := by omega
    · simpa [hj] using this
    · rw [if_neg (by omega), if_pos (by omega)] at this
      rw [← this]; congr 1; omega
    · rw [if_neg (by omega), if_neg (by omega), if_pos (by omega)] at this
      rw [← this]; congr 1; omega
    · rw [if_neg (by omega), if_neg (by omega), if_neg (by omega)] at this
      rw [← this]; congr 1; omega
  · intro h
    have h₀ := h 0 (by omega)
    rw [Nat.add_zero] at h₀
    rw [h₀, h 1 (by omega), h 2 (by omega), h 3 (by omega)]
    rfl

theorem header_of_blank {f : Mem} {a : Nat} (h : Blank f a 32) : BlankHeader (flashRead f a) :=
  (blankHeader_iff f a).2 fun i hi => h _ (by omega) (by omega)

/-- Programming does not blank a header. -/
theorem blankHeader_of_program {f : Mem} {a b : Nat} {bs : List Byte}
    (h : BlankHeader (flashRead (program f a bs) b)) : BlankHeader (flashRead f b) := by
  rw [blankHeader_iff] at h ⊢
  intro i hi
  have := program_and_self f a bs (b + i)
  rw [h i hi, ones_and] at this
  exact this

theorem Shape.isCell {curr : Curr} {f : Mem} (h : Shape curr f) {s : Fin 8} {a : Nat}
    (hlo : sectorBase s ≤ a) (hhi : a < curr.address s) (ha : a % 32 = 0) : IsCell a := by
  have := h.hi s
  exact InSector.isCell (s := s) ⟨hlo, by omega⟩ ha

/-- A cell that is not erased lies below the append pointer of its sector. -/
theorem Shape.below {curr : Curr} {f : Mem} (h : Shape curr f) {s : Fin 8} {a : Nat}
    (hs : InSector s a) (ha : a % 32 = 0) (hb : ¬ Blank f a 32) : a < curr.address s := by
  by_contra hge
  apply hb
  intro x h₁ h₂
  have := sectorBase_mod s
  unfold InSector at hs
  exact h.blank s x (by omega) (by omega)

theorem Shape.below_of_copy {crc : Block → BitVec 32} {curr : Curr} {f : Mem} (h : Shape curr f)
    {s : Fin 8} {a : Nat} (hs : InSector s a) {c : Copy Key Payload} (hc : copies crc f a = some c) :
    a < curr.address s := by
  obtain ⟨⟨ha, hacc⟩, -⟩ := copies_some_iff.1 hc
  exact h.below hs ha.2.2 fun hb => not_accepted_blank hb hacc

/-- Programming a cell below the append pointer. -/
theorem Shape.program_below {curr : Curr} {f : Mem} (h : Shape curr f) {s : Fin 8} {a : Nat}
    (hlo : sectorBase s ≤ a) (hhi : a < curr.address s) (ha : a % 32 = 0) (bs : List Byte)
    (hl : bs.length ≤ 32) : Shape curr (program f a bs) where
  lo := h.lo
  hi := h.hi
  aligned := h.aligned
  written t b h₁ h₂ h₃ hb := h.written t b h₁ h₂ h₃ (blankHeader_of_program hb)
  blank := by
    intro t x h₁ h₂
    rw [program_outside, h.blank t x h₁ h₂]
    have h₃ := h.aligned s
    have h₄ := h.hi s
    by_cases hst : t = s
    · subst hst; omega
    · have hx : InSector t x := ⟨by have := h.lo t; omega, h₂⟩
      have h₅ := sectorBase_eq s
      have h₆ := sectorBase_eq t
      have h₇ : s.val ≠ t.val := fun e => hst (Fin.ext e.symm)
      unfold InSector at hx
      omega
  others := h.others

/-- The append pointer of the current sector passes the cell it points at once anything of a
block has been programmed there. -/
theorem Shape.program_next {curr : Curr} {f : Mem} (h : Shape curr f)
    (hroom : curr.address curr.sector < sectorBase curr.sector + 4096) (bs : List Byte)
    (hl : bs.length ≤ 32) (h0 : 0 < bs.length) (hb : bs[0] ≠ 0xFF) :
    Shape (curr.setAddress curr.sector (curr.address curr.sector + 32))
      (program f (curr.address curr.sector) bs) := by
  have hc := h.aligned curr.sector
  have hb' := sectorBase_mod curr.sector
  have hlo := h.lo curr.sector
  constructor
  · intro s
    by_cases hs : s = curr.sector
    · subst hs; rw [Curr.setAddress_self]; omega
    · rw [Curr.setAddress_ne _ _ hs]; exact h.lo s
  · intro s
    by_cases hs : s = curr.sector
    · subst hs; rw [Curr.setAddress_self]; omega
    · rw [Curr.setAddress_ne _ _ hs]; exact h.hi s
  · intro s
    by_cases hs : s = curr.sector
    · subst hs; rw [Curr.setAddress_self]; omega
    · rw [Curr.setAddress_ne _ _ hs]; exact h.aligned s
  · intro s a h₁ h₂ h₃ hbl
    by_cases hs : s = curr.sector
    · subst hs
      rw [Curr.setAddress_self] at h₂
      by_cases ha : a = curr.address curr.sector
      · subst ha
        rw [blankHeader_iff] at hbl
        have := hbl 0 (by omega)
        rw [program_at _ _ _ 0 h0, Nat.add_zero, h.blank _ _ (Nat.le_refl _) hroom, ones_and] at this
        exact hb this
      · exact h.written _ a h₁ (by omega) h₃ (blankHeader_of_program hbl)
    · rw [Curr.setAddress_ne _ _ hs] at h₂
      exact h.written s a h₁ h₂ h₃ (blankHeader_of_program hbl)
  · intro s x h₁ h₂
    by_cases hs : s = curr.sector
    · subst hs
      rw [Curr.setAddress_self] at h₁
      rw [program_outside _ _ _ _ (by omega), h.blank _ x (by omega) h₂]
    · rw [Curr.setAddress_ne _ _ hs] at h₁
      have h₃ := h.lo s
      have h₅ := sectorBase_eq s
      have h₆ := sectorBase_eq curr.sector
      have h₈ : s.val ≠ curr.sector.val := fun e => hs (Fin.ext e)
      rw [program_outside _ _ _ _ (by omega), h.blank s x h₁ h₂]
  · intro s hs
    have hs' : s ≠ curr.sector := hs
    rw [Curr.setAddress_ne _ _ hs']
    exact h.others s hs'

/-- Erasing a sector and resetting its append pointer. -/
theorem Shape.erase {curr : Curr} {f : Mem} (h : Shape curr f) (s : Fin 8) :
    Shape (curr.setAddress s (sectorBase s)) (erase f (sectorBase s) 4096) := by
  -- the other sectors lie outside the erased range
  have hout : ∀ t x, t ≠ s → sectorBase t ≤ x → x < sectorBase t + 4096 →
      x < sectorBase s ∨ sectorBase s + 4096 ≤ x := by
    intro t x ht h₁ h₂
    have h₅ := sectorBase_eq s
    have h₆ := sectorBase_eq t
    have h₈ : t.val ≠ s.val := fun e => ht (Fin.ext e)
    omega
  constructor
  · intro t
    by_cases ht : t = s
    · subst ht; exact Nat.le_of_eq (Curr.setAddress_self _ _ _).symm
    · rw [Curr.setAddress_ne _ _ ht]; exact h.lo t
  · intro t
    by_cases ht : t = s
    · subst ht; rw [Curr.setAddress_self]; omega
    · rw [Curr.setAddress_ne _ _ ht]; exact h.hi t
  · intro t
    by_cases ht : t = s
    · subst ht; rw [Curr.setAddress_self]; exact sectorBase_mod t
    · rw [Curr.setAddress_ne _ _ ht]; exact h.aligned t
  · intro t a h₁ h₂ h₃
    by_cases ht : t = s
    · subst ht
      rw [Curr.setAddress_self] at h₂
      omega
    · rw [Curr.setAddress_ne _ _ ht] at h₂
      have h₄ := h.hi t
      have h₅ := sectorBase_mod t
      rw [flashRead_congr fun x _ _ => erase_outside _ _ _ _ (hout t x ht (by omega) (by omega))]
      exact h.written t a h₁ h₂ h₃
  · intro t x h₁ h₂
    by_cases ht : t = s
    · subst ht
      rw [Curr.setAddress_self] at h₁
      exact erase_inside _ _ _ _ h₁ h₂
    · rw [Curr.setAddress_ne _ _ ht] at h₁
      have h₄ := h.lo t
      rw [erase_outside _ _ _ _ (hout t x ht (by omega) h₂)]
      exact h.blank t x h₁ h₂
  · intro t ht
    by_cases hs : t = s
    · subst hs; rw [Curr.setAddress_self]; exact Or.inl rfl
    · rw [Curr.setAddress_ne _ _ hs]; exact h.others t ht

end Wormvars
