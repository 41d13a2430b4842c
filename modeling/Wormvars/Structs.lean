import Wormvars.NorFlash

/-!
# Blocks and their header

The 32-byte cell of `wvars_structs.h`: a packed 4-byte header (bit-fields
allocated from the least significant bit, little-endian name) and 28 bytes of
payload.  `flashRead` overlays a `Block` on memory, `Block.toBytes` gives its
bytes back.

Programming a block, a header or the first byte of a header over a stored block
is the field-wise AND of the two (`flashRead_program_block`,
`flashRead_program_header`, `flashRead_program_byte`).

`checkBlock` and `updateBlockHash` are the two halves of the codec; a block is
accepted iff its size is `fsSize32` and its hash is the one computed with hash
and newer cleared (`checkBlock_accepts_iff`).
-/

namespace Wormvars

open NorFlash

def fsBlockSize : Nat := 32
def fsVersion : BitVec 2 := 0
def fsSize32 : BitVec 2 := 1
def fsSizeInvalid : BitVec 2 := 0
def fsBlockNewer : BitVec 1 := 1
def fsBlockCurrent : BitVec 1 := 0
def longBlankPattern : BitVec 32 := 0xFFFFFFFF

/-! ## Layout -/

/-- `struct st_blockHeader`. -/
structure BlockHeader where
  ver : BitVec 2
  size : BitVec 2
  newer : BitVec 1
  ext : BitVec 3
  hash : BitVec 8
  name : BitVec 16
deriving DecidableEq

namespace BlockHeader

/-- The byte that holds the bit-fields. -/
def flags (h : BlockHeader) : Byte := h.ext ++ h.newer ++ h.size ++ h.ver

def toBytes (h : BlockHeader) : List Byte :=
  [h.flags, h.hash, h.name.extractLsb' 0 8, h.name.extractLsb' 8 8]

def ofBytes (b₀ b₁ b₂ b₃ : Byte) : BlockHeader where
  ver := b₀.extractLsb' 0 2
  size := b₀.extractLsb' 2 2
  newer := b₀.extractLsb' 4 1
  ext := b₀.extractLsb' 5 3
  hash := b₁
  name := b₃ ++ b₂

/-- The header read as one `u32_t`. -/
def toWord (h : BlockHeader) : BitVec 32 := h.name ++ h.hash ++ h.flags

/-- Name and extension. -/
def key (h : BlockHeader) : BitVec 16 × BitVec 3 := (h.name, h.ext)

instance : AndOp BlockHeader where
  and g h := ⟨g.ver &&& h.ver, g.size &&& h.size, g.newer &&& h.newer, g.ext &&& h.ext,
    g.hash &&& h.hash, g.name &&& h.name⟩

end BlockHeader

/-- One cell. -/
structure Block where
  header : BlockHeader
  data : Fin 28 → Byte

def Block.toBytes (b : Block) : List Byte := b.header.toBytes ++ List.ofFn b.data

instance : AndOp Block where
  and b c := ⟨b.header &&& c.header, fun i => b.data i &&& c.data i⟩

/-- `flash_read(address, buffer, FS_BLOCK_SIZE)`. -/
def flashRead (m : Mem) (address : Nat) : Block where
  header := .ofBytes (m address) (m (address + 1)) (m (address + 2)) (m (address + 3))
  data i := m (address + 4 + i)

/-! ## Codec -/

def blockIsBlank : Int := -1
def blockIsInvalid : Int := -2
def blockIsIllegalSize : Int := -3
def blockIsErrored : Int := -4

/-- The status of a block, and the buffer as it is left. -/
def checkBlock (crc : Block → BitVec 32) (buffer : Block) : Int × Block :=
  if buffer.header.toWord = longBlankPattern then (blockIsBlank, buffer)
  else if buffer.header.size = fsSizeInvalid then (blockIsInvalid, buffer)
  else if buffer.header.size ≠ fsSize32 then (blockIsIllegalSize, buffer)
  else
    let hash := buffer.header.hash
    let newer := buffer.header.newer
    let buffer := { buffer with header := { buffer.header with hash := 0, newer := 0 } }
    let crc32 := crc buffer
    let buffer := { buffer with header := { buffer.header with hash := hash, newer := newer } }
    if hash ≠ crc32.setWidth 8 then (blockIsErrored, buffer) else (0, buffer)

def updateBlockHash (crc : Block → BitVec 32) (block : Block) (size : BitVec 2)
    (newer : BitVec 1) : Block :=
  let block := { block with header :=
    { block.header with ver := fsVersion, size := size, hash := 0, newer := 0 } }
  let crc32 := crc block
  { block with header := { block.header with hash := crc32.setWidth 8, newer := newer } }

/-- `checkBlock` accepts `b`. -/
def Accepted (crc : Block → BitVec 32) (b : Block) : Prop := (checkBlock crc b).1 = 0

instance (crc : Block → BitVec 32) (b : Block) : Decidable (Accepted crc b) :=
  inferInstanceAs (Decidable (_ = _))

/-- The first word of `b` is the blank pattern. -/
def BlankHeader (b : Block) : Prop := b.header.toWord = longBlankPattern

instance (b : Block) : Decidable (BlankHeader b) := inferInstanceAs (Decidable (_ = _))

/-- What the hash is computed over. -/
def Block.masked (b : Block) : Block :=
  { b with header := { b.header with hash := 0, newer := 0 } }

/-! ## Lemmas -/

theorem Block.ext {b c : Block} (h : b.header = c.header) (hd : ∀ i, b.data i = c.data i) :
    b = c := by
  obtain ⟨bh, bd⟩ := b
  obtain ⟨ch, cd⟩ := c
  obtain rfl : bh = ch := h
  obtain rfl : bd = cd := funext hd
  rfl

theorem Block.and_header (b c : Block) : (b &&& c).header = b.header &&& c.header := rfl

theorem Block.and_data (b c : Block) (i : Fin 28) : (b &&& c).data i = b.data i &&& c.data i := rfl

theorem BlockHeader.and_name (g h : BlockHeader) : (g &&& h).name = g.name &&& h.name := rfl

theorem BlockHeader.and_hash (g h : BlockHeader) : (g &&& h).hash = g.hash &&& h.hash := rfl

theorem BlockHeader.flags_and (g h : BlockHeader) : (g &&& h).flags = g.flags &&& h.flags := by
  show (g.ext &&& h.ext) ++ (g.newer &&& h.newer) ++ (g.size &&& h.size) ++ (g.ver &&& h.ver) = _
  unfold flags
  rw [← BitVec.and_append, ← BitVec.and_append, ← BitVec.and_append]

namespace BlockHeader

theorem flags_ver (h : BlockHeader) : h.flags.extractLsb' 0 2 = h.ver :=
  BitVec.extractLsb'_append_eq_right

theorem flags_size (h : BlockHeader) : h.flags.extractLsb' 2 2 = h.size :=
  (BitVec.extractLsb'_append_eq_of_le (Nat.le_refl 2)).trans BitVec.extractLsb'_append_eq_right

theorem flags_newer (h : BlockHeader) : h.flags.extractLsb' 4 1 = h.newer :=
  (BitVec.extractLsb'_append_eq_of_le (by omega)).trans <|
    (BitVec.extractLsb'_append_eq_of_le (Nat.le_refl 2)).trans BitVec.extractLsb'_append_eq_right

theorem flags_ext (h : BlockHeader) : h.flags.extractLsb' 5 3 = h.ext :=
  (BitVec.extractLsb'_append_eq_of_le (by omega)).trans <|
    (BitVec.extractLsb'_append_eq_of_le (by omega)).trans BitVec.extractLsb'_append_eq_left

theorem ofBytes_toBytes (h : BlockHeader) :
    ofBytes h.flags h.hash (h.name.extractLsb' 0 8) (h.name.extractLsb' 8 8) = h := by
  unfold ofBytes
  rw [flags_ver, flags_size, flags_newer, flags_ext]
  congr 1
  exact BitVec.extractLsb'_append_extractLsb'

theorem ofBytes_and (a₀ a₁ a₂ a₃ b₀ b₁ b₂ b₃ : Byte) :
    ofBytes (a₀ &&& b₀) (a₁ &&& b₁) (a₂ &&& b₂) (a₃ &&& b₃) =
      ofBytes a₀ a₁ a₂ a₃ &&& ofBytes b₀ b₁ b₂ b₃ := by
  unfold ofBytes
  rw [BitVec.extractLsb'_and, BitVec.extractLsb'_and, BitVec.extractLsb'_and,
    BitVec.extractLsb'_and, ← BitVec.and_append]
  rfl

/-- The flags of a header stored at `a` are its first byte. -/
theorem flags_ofBytes (b₀ b₁ b₂ b₃ : Byte) : (ofBytes b₀ b₁ b₂ b₃).flags = b₀ := by
  unfold flags ofBytes
  ext i hi
  simp only [BitVec.getElem_append, BitVec.getElem_extractLsb']
  split
  · simp [← BitVec.getLsbD_eq_getElem]
  · split
    · rw [← BitVec.getLsbD_eq_getElem]
      congr 1
      omega
    · split
      · rw [← BitVec.getLsbD_eq_getElem]
        congr 1
        omega
      · rw [← BitVec.getLsbD_eq_getElem]
        congr 1
        omega

theorem toBytes_ofBytes (b₀ b₁ b₂ b₃ : Byte) :
    (ofBytes b₀ b₁ b₂ b₃).toBytes = [b₀, b₁, b₂, b₃] := by
  unfold toBytes
  rw [flags_ofBytes]
  have h₂ : (ofBytes b₀ b₁ b₂ b₃).name.extractLsb' 0 8 = b₂ := BitVec.extractLsb'_append_eq_right
  have h₃ : (ofBytes b₀ b₁ b₂ b₃).name.extractLsb' 8 8 = b₃ := BitVec.extractLsb'_append_eq_left
  rw [h₂, h₃]
  rfl

/-- A header with an illegal or blank word has all size bits set. -/
theorem size_of_blank {h : BlockHeader} (hb : h.toWord = longBlankPattern) : h.size = 3 := by
  have h₁ : h.toWord.extractLsb' 2 2 = h.size :=
    (BitVec.extractLsb'_append_eq_of_add_le (by omega)).trans (flags_size h)
  rw [← h₁, hb]
  rfl

end BlockHeader

/-- A block whose size field is not 3 is not taken for blank. -/
theorem not_blankHeader {b : Block} (h : b.header.size ≠ 3) : ¬ BlankHeader b :=
  fun hb => h (BlockHeader.size_of_blank hb)

@[simp] theorem BlockHeader.length_toBytes (h : BlockHeader) : h.toBytes.length = 4 := rfl

@[simp] theorem Block.length_toBytes (b : Block) : b.toBytes.length = 32 := by
  rw [toBytes, List.length_append, List.length_ofFn, BlockHeader.length_toBytes]

theorem Block.toBytes_data (b : Block) (i : Fin 28) (h : 4 + i.val < b.toBytes.length) :
    b.toBytes[4 + i.val] = b.data i := by
  unfold toBytes at h ⊢
  rw [List.getElem_append_right (by simp), List.getElem_ofFn]
  congr 1
  exact Fin.ext (Nat.add_sub_cancel_left 4 i)

/-! ## Blocks in memory -/

theorem flashRead_congr {m m' : Mem} {a : Nat} (h : ∀ x, a ≤ x → x < a + 32 → m x = m' x) :
    flashRead m a = flashRead m' a := by
  apply Block.ext
  · show BlockHeader.ofBytes _ _ _ _ = BlockHeader.ofBytes _ _ _ _
    rw [h a (by omega) (by omega), h (a + 1) (by omega) (by omega), h (a + 2) (by omega) (by omega),
      h (a + 3) (by omega) (by omega)]
  · intro i
    exact h (a + 4 + i) (by omega) (by omega)

theorem flashRead_program_outside (m : Mem) (a : Nat) (bs : List Byte) (b : Nat)
    (h : a + bs.length ≤ b ∨ b + 32 ≤ a) : flashRead (program m a bs) b = flashRead m b :=
  flashRead_congr fun x _ _ => program_outside _ _ _ _ (by omega)

theorem flashRead_program_block (m : Mem) (a : Nat) (b : Block) :
    flashRead (program m a b.toBytes) a = flashRead m a &&& b := by
  have hl := b.length_toBytes
  have hat (i : Nat) (hi : i < b.toBytes.length) : program m a b.toBytes (a + i) =
      m (a + i) &&& b.toBytes[i] := program_at m a b.toBytes i hi
  apply Block.ext
  · rw [Block.and_header]
    show BlockHeader.ofBytes _ _ _ _ = BlockHeader.ofBytes _ _ _ _ &&& b.header
    rw [← b.header.ofBytes_toBytes, ← BlockHeader.ofBytes_and]
    congr 1
    · exact hat 0 (by omega)
    · exact hat 1 (by omega)
    · exact hat 2 (by omega)
    · exact hat 3 (by omega)
  · intro i
    rw [Block.and_data]
    show program m a b.toBytes (a + 4 + i) = m (a + 4 + i) &&& b.data i
    rw [Nat.add_assoc, hat (4 + i) (by omega), Block.toBytes_data]

theorem flashRead_program_header (m : Mem) (a : Nat) (h : BlockHeader) :
    flashRead (program m a h.toBytes) a = ⟨(flashRead m a).header &&& h, (flashRead m a).data⟩ := by
  have hat (i : Nat) (hi : i < 4) : program m a h.toBytes (a + i) = m (a + i) &&& h.toBytes[i] :=
    program_at m a h.toBytes i hi
  apply Block.ext
  · show BlockHeader.ofBytes _ _ _ _ = BlockHeader.ofBytes _ _ _ _ &&& h
    conv => rhs; rw [← h.ofBytes_toBytes, ← BlockHeader.ofBytes_and]
    congr 1
    · exact hat 0 (by omega)
    · exact hat 1 (by omega)
    · exact hat 2 (by omega)
    · exact hat 3 (by omega)
  · intro i
    exact program_outside _ _ _ _ (by right; simp only [BlockHeader.length_toBytes]; omega)

/-- Programming the first byte of a header that agrees with the stored one on the other three
is as good as programming all of it. -/
theorem program_flags_eq (m : Mem) (a : Nat) (h : BlockHeader)
    (hh : (flashRead m a).header.hash = h.hash) (hn : (flashRead m a).header.name = h.name) :
    program m a (h.toBytes.take 1) = program m a h.toBytes := by
  have h₁ : m (a + 1) = h.hash := hh
  have h₂ : m (a + 2) = h.name.extractLsb' 0 8 := by
    rw [← hn]; exact BitVec.extractLsb'_append_eq_right.symm
  have h₃ : m (a + 3) = h.name.extractLsb' 8 8 := by
    rw [← hn]; exact BitVec.extractLsb'_append_eq_left.symm
  funext x
  rw [program_take]
  split
  · rfl
  · by_cases hx : x < a + 4
    · have hat := program_at m a h.toBytes (x - a) (by simp; omega)
      rw [show a + (x - a) = x by omega] at hat
      rw [hat]
      obtain hx | hx | hx : x = a + 1 ∨ x = a + 2 ∨ x = a + 3 := by omega
      · subst hx
        simp only [Nat.add_sub_cancel_left]
        rw [h₁]; exact BitVec.and_self.symm
      · subst hx
        simp only [Nat.add_sub_cancel_left]
        rw [h₂]; exact BitVec.and_self.symm
      · subst hx
        simp only [Nat.add_sub_cancel_left]
        rw [h₃]; exact BitVec.and_self.symm
    · rw [program_outside _ _ _ _ (by simp; omega)]

/-! ## The codec accepts what it makes -/

theorem checkBlock_accepts_iff (crc : Block → BitVec 32) (b : Block) :
    Accepted crc b ↔ b.header.size = fsSize32 ∧ b.header.hash = (crc b.masked).setWidth 8 := by
  unfold Accepted checkBlock
  by_cases hs : b.header.size = fsSize32
  · have hb : b.header.toWord ≠ longBlankPattern := fun h => by
      have := BlockHeader.size_of_blank h
      rw [hs] at this
      cases this
    have h0 : b.header.size ≠ fsSizeInvalid := by rw [hs]; decide
    rw [if_neg hb, if_neg h0, if_neg (not_not_intro hs)]
    show (if b.header.hash ≠ (crc b.masked).setWidth 8 then (blockIsErrored, _) else (0, _)).1 = 0 ↔ _
    split
    · next h => exact ⟨fun h' => absurd (show blockIsErrored = 0 from h') (by decide),
        fun h' => absurd h'.2 h⟩
    · next h => exact ⟨fun _ => ⟨hs, not_not.1 h⟩, fun _ => rfl⟩
  · rw [if_pos hs]
    refine ⟨fun h => absurd h ?_, fun h => absurd h.1 hs⟩
    split
    · exact fun h => by cases h
    · split <;> exact fun h => by cases h

theorem checkBlock_blank_iff (crc : Block → BitVec 32) (b : Block) :
    (checkBlock crc b).1 = blockIsBlank ↔ BlankHeader b := by
  unfold checkBlock BlankHeader
  split
  · next h => exact ⟨fun _ => h, fun _ => rfl⟩
  · next h =>
    refine ⟨fun h' => absurd h' ?_, fun h' => absurd h' h⟩
    split
    · exact fun h => by cases h
    · split
      · exact fun h => by cases h
      · simp only
        split <;> exact fun h => by cases h

/-- The buffer comes back as it was given. -/
@[simp] theorem checkBlock_snd (crc : Block → BitVec 32) (b : Block) : (checkBlock crc b).2 = b := by
  unfold checkBlock
  simp only []
  repeat' (split <;> try rfl)

theorem Accepted.size {crc : Block → BitVec 32} {b : Block} (h : Accepted crc b) :
    b.header.size = fsSize32 := ((checkBlock_accepts_iff crc b).1 h).1

theorem not_accepted {crc : Block → BitVec 32} {b : Block} (h : b.header.size ≠ fsSize32) :
    ¬ Accepted crc b := fun ha => h ha.size

/-- Acceptance does not depend on the newer flag. -/
theorem accepted_newer (crc : Block → BitVec 32) (b : Block) (n : BitVec 1) :
    Accepted crc { b with header := { b.header with newer := n } } ↔ Accepted crc b := by
  rw [checkBlock_accepts_iff, checkBlock_accepts_iff]
  rfl

theorem accepted_updateBlockHash (crc : Block → BitVec 32) (b : Block) (n : BitVec 1) :
    Accepted crc (updateBlockHash crc b fsSize32 n) := by
  rw [checkBlock_accepts_iff]
  exact ⟨rfl, rfl⟩

theorem Accepted.not_blank {crc : Block → BitVec 32} {b : Block} (h : Accepted crc b) :
    ¬ BlankHeader b := not_blankHeader (by rw [h.size]; decide)

end Wormvars
