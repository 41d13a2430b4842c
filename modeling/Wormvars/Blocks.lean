import Wormvars.Recursion

/-!
# The blocks that a call programs

`blocks` picks from a log the operations that program a whole block.  A write
that gets as far as a sector with room programs one, at the append pointer
(`appendBlock_blocks`); the rewrites of headers and the labels of `fs_thread` that
do not lead to `fs_write` program none.
-/

namespace Wormvars

open NorFlash

variable {crc : Block → BitVec 32}

/-- The operation programs a whole block. -/
def Op.isBlock : Op → Bool
  | .program _ bytes => bytes.length == fsBlockSize
  | _ => false

/-- The operations of a log that program a whole block. -/
def blocks (log : List Event) : List Event := log.filter fun e => e.op.isBlock

theorem blocks_cons (e : Event) (log : List Event) :
    blocks (e :: log) = if e.op.isBlock then e :: blocks log else blocks log :=
  List.filter_cons

theorem isBlock_block (a : Nat) (b : Block) : Op.isBlock (.program a b.toBytes) = true := by
  simp [Op.isBlock, fsBlockSize]

theorem mem_blocks {log : List Event} {e : Event} {a : Nat} {bs : List Byte} (he : e ∈ log)
    (hop : e.op = .program a bs) (hl : bs.length = fsBlockSize) : e ∈ blocks log := by
  refine List.mem_filter.2 ⟨he, ?_⟩
  rw [hop]
  simp [Op.isBlock, hl]

/-! ## One write -/

theorem clearNewer_blocks (w : World) (i : Nat) :
    blocks (clearNewer w i).log = blocks w.log := by
  unfold clearNewer
  split
  · split
    · exact blocks_cons _ _
    · rfl
  · rfl

theorem invalidatePrevious_blocks (w : World) (i : Nat) :
    blocks (invalidatePrevious w i).log = blocks w.log := by
  unfold invalidatePrevious
  split
  · exact blocks_cons _ _
  · rfl

theorem updateFd_blocks (w : World) (i : Nat) (h : BlockHeader) :
    blocks (updateFd w i h).log = blocks w.log := by
  unfold updateFd
  simp only
  split
  · exact blocks_cons _ _
  · exact blocks_cons _ _

theorem returns_blocks (w : World) (r : Int) : blocks (w.returns r).2.log = blocks w.log :=
  blocks_cons _ _

/-- The block goes to the append pointer, on the flash that `clearNewer` has left. -/
theorem stageBlock_blocks (crc : Block → BitVec 32) (w : World) (buffer : Block) :
    ∃ e : Event, e.flash = (clearNewer w (findFd w.fs.fd buffer.header)).flash ∧
      e.op = .program (w.fs.curr.address w.fs.curr.sector)
        (updateBlockHash crc buffer fsSize32 fsBlockNewer).toBytes ∧
      blocks (stageBlock crc w buffer).log = e :: blocks w.log := by
  unfold stageBlock
  simp only [invalidatePrevious_blocks]
  refine ⟨⟨(clearNewer w (findFd w.fs.fd buffer.header)).fs, _, _⟩, rfl, rfl, ?_⟩
  rw [← clearNewer_blocks w (findFd w.fs.fd buffer.header)]
  exact (blocks_cons _ _).trans (if_pos (isBlock_block _ _))

theorem appendBlock_blocks (crc : Block → BitVec 32) (w : World) (buffer : Block) :
    ∃ e : Event, e.flash = (clearNewer w (findFd w.fs.fd buffer.header)).flash ∧
      e.op = .program (w.fs.curr.address w.fs.curr.sector)
        (updateBlockHash crc buffer fsSize32 fsBlockNewer).toBytes ∧
      blocks (appendBlock crc w buffer).2.log = e :: blocks w.log := by
  have hc : (clearNewer w (findFd w.fs.fd buffer.header)).fs.curr = w.fs.curr :=
    (clearNewer_fs w _).1.curr
  obtain ⟨e, hflash, hop, hlog⟩ := stageBlock_blocks crc w buffer
  refine ⟨e, hflash, hop, ?_⟩
  rw [← hlog]
  unfold appendBlock stageBlock
  simp only [hc]
  split
  · rw [returns_blocks]
    exact updateFd_blocks _ _ _
  · exact returns_blocks _ _

/-- What `fs_write` does on the way to `appendBlock`. -/
inductive Reaches (thread : World → Option World) (w : World) : World → Prop
  | room : ¬ w.fs.SectorIsFull w.fs.curr.sector → Reaches thread w w
  | switch (s : Fin 8) (v : World) : w.fs.SectorIsFull w.fs.curr.sector →
      nextNotFull w.fs 8 w.fs.curr.sector = some s → thread (w.setSector s) = some v →
      Reaches thread w v

/-- A write is refused, or it appends a block. -/
theorem fsWriteWith_cases {thread : World → Option World} {w : World} {name : BitVec 16}
    {ext : BitVec 8} {data : List Byte} {r : Int × World}
    (h : fsWriteWith crc thread w name ext data = some r) :
    (r.1 < 0 ∧ r = w.returns r.1 ∧ (28 < data.length ∨ ∀ s, w.fs.SectorIsFull s)) ∨
      ∃ v, Reaches thread w v ∧ data.length ≤ 28 ∧
        r = appendBlock crc v (writeBuffer name ext data) := by
  by_cases hlen : data.length ≤ 28
  · by_cases hfull : w.fs.SectorIsFull w.fs.curr.sector
    · cases hs : nextNotFull w.fs 8 w.fs.curr.sector with
      | none =>
        have hall := all_full_of_none hs
        rw [fsWriteWith_allFull hlen hall] at h
        obtain rfl := Option.some.inj h
        exact Or.inl ⟨by show (-2 : Int) < 0; decide, rfl, Or.inr hall⟩
      | some s =>
        cases hv : thread (w.setSector s) with
        | none =>
          unfold fsWriteWith updateSectorWith at h
          rw [if_neg (by unfold fsBlockSize; omega), if_pos hfull, hs] at h
          simp [hv] at h
        | some v =>
          rw [fsWriteWith_next hlen hfull hs hv] at h
          exact Or.inr ⟨v, .switch s v hfull hs hv, hlen, (Option.some.inj h).symm⟩
    · rw [fsWriteWith_room hlen hfull] at h
      exact Or.inr ⟨w, .room hfull, hlen, (Option.some.inj h).symm⟩
  · rw [fsWriteWith_tooLong (by omega)] at h
    obtain rfl := Option.some.inj h
    exact Or.inl ⟨by show (-1 : Int) < 0; decide, rfl, Or.inl (by omega)⟩

end Wormvars
