import Mathlib.Logic.Relation
import Wormvars.Blocks

/-!
# The table and the append pointers, whatever the flash held

After a boot from a flash of any layout the descriptors of a sector point to
different cells below its append pointer (`Tidy`).  An append may put the pointer
one cell behind the end of the sector, but no further, and no 8-bit counter of
`findRelocSector` wraps (`Tidy.liveIn_lt`).

`Turn crc faulty w w'`: the steps that `fs_write` and `fs_thread` are made of.  With
`faulty` they include the two that go wrong: a block appended behind the end of
the sector, and a block appended without a free descriptor.  They keep `Steady`,
that is `Tidy` and what the suspended thread relies on.
-/

namespace Wormvars

open NorFlash

variable {crc : Block → BitVec 32}

/-! ## The invariant -/

structure Tidy (fs : Fs) : Prop where
  len : fs.fd.length ≤ fdMax
  nodup : (keys fs).Nodup
  lo : ∀ s, sectorBase s ≤ fs.curr.address s
  hi : ∀ s, fs.curr.address s ≤ sectorBase s + 4096 + 32
  aligned : ∀ s, fs.curr.address s % 32 = 0
  cell : ∀ fd ∈ fs.fd, sectorBase fd.sector ≤ fd.address ∧
    fd.address < fs.curr.address fd.sector ∧ fd.address % 32 = 0
  apart : ∀ fd ∈ fs.fd, ∀ fd' ∈ fs.fd, fd.sector = fd'.sector → fd.address = fd'.address →
    fd = fd'

namespace Tidy
variable {fs fs' : Fs}

theorem congr (h : Tidy fs) (hfd : fs'.fd = fs.fd) (ha : fs'.curr.address = fs.curr.address) :
    Tidy fs' := by
  obtain ⟨h₁, h₂, h₃, h₄, h₅, h₆, h₇⟩ := h
  unfold keys at h₂
  constructor
  · rwa [hfd]
  · unfold keys
    rwa [hfd]
  · rwa [ha]
  · rwa [ha]
  · rwa [ha]
  · rwa [hfd, ha]
  · rwa [hfd]

/-- A sector has 128 cells, and there is one behind them. -/
theorem liveIn_lt (h : Tidy fs) (s : Fin 8) : liveIn fs s < 256 := by
  have hle : liveIn fs s ≤ 129 := by
    refine liveIn_le h.nodup (fun fd hm hs => ?_) fun fd hm fd' hm' hs hs' =>
      h.apart fd hm fd' hm' (hs.trans hs'.symm)
    subst hs
    obtain ⟨h₁, h₂, h₃⟩ := h.cell fd hm
    have := h.hi fd.sector
    exact ⟨h₁, by omega, h₃⟩
  omega

theorem placed {k : Key} (h : Tidy fs) (hp : Placed k fs fs') (hslot : HasSlot fs k)
    (hle : fs.curr.address fs.curr.sector ≤ sectorBase fs.curr.sector + 4096) : Tidy fs' := by
  have hkeys := hp.keys
  have hnd : (Wormvars.keys fs').Nodup := by
    rw [hkeys]
    split
    · exact h.nodup
    · next hno =>
      refine List.nodup_append.2 ⟨h.nodup, List.nodup_singleton _, ?_⟩
      rintro k' hk' _ hm rfl
      rw [List.mem_singleton] at hm
      exact hno (hm ▸ hk')
  have hgrow := hp.address_le
  constructor
  · have hl := congrArg List.length hkeys
    have := h.len
    unfold Wormvars.keys at hl
    split at hl
    · simp only [List.length_map] at hl
      omega
    · next hno =>
      have := hslot.resolve_left hno
      simp only [List.length_map, List.length_append, List.length_singleton] at hl
      omega
  · exact hnd
  · exact fun s => (h.lo s).trans (hgrow s)
  · intro s
    by_cases hs : s = fs.curr.sector
    · subst hs
      rw [hp.address_self]
      omega
    · rw [hp.address_ne hs]
      exact h.hi s
  · intro s
    have := h.aligned s
    by_cases hs : s = fs.curr.sector
    · subst hs
      rw [hp.address_self]
      omega
    · rw [hp.address_ne hs]
      exact this
  · intro x hx
    rcases hp.mem h.nodup hx with ⟨hm, -⟩ | ⟨-, hsec, hadr⟩
    · obtain ⟨h₁, h₂, h₃⟩ := h.cell x hm
      exact ⟨h₁, Nat.lt_of_lt_of_le h₂ (hgrow _), h₃⟩
    · rw [hsec, hadr, hp.address_self]
      exact ⟨h.lo _, by omega, h.aligned _⟩
  · intro x hx y hy hs ha
    rcases hp.mem h.nodup hx with ⟨hmx, -⟩ | ⟨hkx, hsx, hax⟩
    · rcases hp.mem h.nodup hy with ⟨hmy, -⟩ | ⟨-, hsy, hay⟩
      · exact h.apart x hmx y hmy hs ha
      · -- the new cell is not in use
        have := (h.cell x hmx).2.1
        rw [hs, hsy, ha, hay] at this
        omega
    · rcases hp.mem h.nodup hy with ⟨hmy, -⟩ | ⟨hky, -, -⟩
      · have := (h.cell y hmy).2.1
        rw [← hs, hsx, ← ha, hax] at this
        omega
      · exact eq_of_key hnd hx hy (hkx.trans hky.symm)

end Tidy

/-- `Tidy`, and what the suspended thread relies on. -/
structure Steady (fs : Fs) : Prop where
  tidy : Tidy fs
  underway : Underway fs

/-! ## Steps -/

inductive Turn (crc : Block → BitVec 32) (faulty : Prop) : World → World → Prop
  | resume (w : World) (reloc : Reloc) (pt : PtLabel) :
      Underway { w.fs with reloc := reloc, pt := pt } →
      Turn crc faulty w ((w.setReloc reloc).setPt pt)
  | refuse (w : World) (r : Int) : Turn crc faulty w (w.returns r).2
  | append (w : World) (buffer : Block) : HasSlot w.fs buffer.header.key →
      (¬ w.fs.SectorIsFull w.fs.curr.sector ∨
        (faulty ∧ w.fs.curr.address w.fs.curr.sector = sectorBase w.fs.curr.sector + 4096)) →
      Turn crc faulty w (appendBlock crc w buffer).2
  | reject (w : World) (buffer : Block) : faulty → ¬ HasSlot w.fs buffer.header.key →
      Turn crc faulty w (appendBlock crc w buffer).2
  | switch (w : World) (s : Fin 8) : ¬ w.fs.SectorIsFull s → Turn crc faulty w (w.setSector s)
  | erase (w : World) : Victim w.fs → (∀ fd ∈ w.fs.fd, fd.sector ≠ w.fs.reloc.sector) →
      Turn crc faulty w w.eraseVictim

abbrev Turns (crc : Block → BitVec 32) (faulty : Prop) : World → World → Prop :=
  Relation.ReflTransGen (Turn crc faulty)

section turn
variable {faulty : Prop} {w w' : World}

theorem Tidy.slot (h : Tidy w.fs) (buffer : Block) :
    findFd w.fs.fd buffer.header < fdMax ↔ HasSlot w.fs buffer.header.key :=
  (isSlot_findFd w.fs.fd buffer.header).lt h.len

variable (crc) in
/-- A block for a key with a descriptor, or a free one. -/
theorem Tidy.append (h : Tidy w.fs) {buffer : Block} (hslot : HasSlot w.fs buffer.header.key) :
    (appendBlock crc w buffer).1 = 0 ∧
      Placed buffer.header.key w.fs (appendBlock crc w buffer).2.fs := by
  obtain ⟨h₀, hp, -⟩ := appendBlock_placed crc w buffer ((h.slot buffer).2 hslot)
  exact ⟨h₀, hp⟩

/-- A block for a key without: the table and the pointers stay as they are. -/
theorem appendBlock_rejected {buffer : Block} (hslot : ¬ HasSlot w.fs buffer.header.key) :
    appendBlock crc w buffer = World.returns (w.flashWrite (w.fs.curr.address w.fs.curr.sector)
      (updateBlockHash crc buffer fsSize32 fsBlockNewer).toBytes) (-1) := by
  unfold HasSlot at hslot
  rw [not_or] at hslot
  rcases isSlot_findFd w.fs.fd buffer.header with ⟨fd, hg, hk⟩ | ⟨he, -⟩
  · exact absurd (List.mem_map.2 ⟨fd, List.mem_of_getElem? hg, hk⟩) hslot.1
  · exact appendBlock_noSlot crc he (Nat.not_lt.1 hslot.2)

theorem Tidy.erase (h : Tidy w.fs) (hno : ∀ fd ∈ w.fs.fd, fd.sector ≠ w.fs.reloc.sector) :
    Tidy w.eraseVictim.fs := by
  have hself : w.eraseVictim.fs.curr.address w.fs.reloc.sector = sectorBase w.fs.reloc.sector :=
    Curr.setAddress_self _ _ _
  have hne : ∀ s, s ≠ w.fs.reloc.sector →
      w.eraseVictim.fs.curr.address s = w.fs.curr.address s :=
    fun s hs => Curr.setAddress_ne _ _ hs
  refine ⟨h.len, h.nodup, fun s => ?_, fun s => ?_, fun s => ?_, fun fd hm => ?_, h.apart⟩
  · by_cases hs : s = w.fs.reloc.sector
    · rw [hs, hself]
    · rw [hne s hs]
      exact h.lo s
  · by_cases hs : s = w.fs.reloc.sector
    · rw [hs, hself]
      omega
    · rw [hne s hs]
      exact h.hi s
  · by_cases hs : s = w.fs.reloc.sector
    · rw [hs, hself]
      exact sectorBase_mod _
    · rw [hne s hs]
      exact h.aligned s
  · rw [hne _ (hno fd hm)]
    exact h.cell fd hm

theorem Turn.steady (h : Turn crc faulty w w') (hs : Steady w.fs) : Steady w'.fs := by
  cases h with
  | resume reloc pt hu => exact ⟨hs.tidy.congr rfl rfl, hu⟩
  | refuse r => exact hs
  | append buffer hslot hroom =>
    obtain ⟨-, hp⟩ := hs.tidy.append crc hslot
    refine ⟨hs.tidy.placed hp hslot ?_, hs.underway.placed hp⟩
    rcases hroom with hroom | ⟨-, he⟩
    · have := not_full_iff.1 hroom
      omega
    · omega
  | reject buffer _ hslot =>
    rw [appendBlock_rejected hslot]
    exact hs
  | switch s hfree => exact ⟨hs.tidy.congr rfl rfl, hs.underway.setSector hfree⟩
  | erase _ hno => exact ⟨hs.tidy.erase hno, trivial⟩

theorem Turns.steady (h : Turns crc faulty w w') (hs : Steady w.fs) : Steady w'.fs := by
  induction h with
  | refl => exact hs
  | tail _ ht ih => exact ht.steady ih

end turn

end Wormvars
