import Wormvars.Refinement
import Wormvars.Supply

/-!
# Writes that fail

`fs_write` fails in three places.  A block that is too long and a full file system
are found before anything is done.  The third, no free descriptor, is found when
the block is on flash already and the append pointer has not moved.

As long as the third is not reached, a failed write has no effect
(`failed_writes_harmless`).  After it, the next write programs its block over the
one that is there, and what is read back is the AND of the two
(`failed_write_corrupts`).
-/

namespace Wormvars

open NorFlash NewerLog Runs

variable {crc : Block → BitVec 32} {n : Nat}

/-- In a run in which every write that looks for a descriptor finds one, `fs_read` gives what was
last acknowledged, and a call of `fs_write` that fails changes no result of `fs_read`. -/
theorem failed_writes_harmless {h : List Label} {w : World}
    (hr : Run (Guarded crc (n + 2)) (.off erased) h (.on w)) (hc : ∀ l ∈ h, l.Whole) :
    Reads w (lastAcked h) ∧
    ∀ name ext data ans r w', SlotFor w (.write name ext data ans) →
      (Call.write name ext data ans).exec crc (n + 2) w.fresh = some (.wrote r, w') → r < 0 →
      ∀ nm ex len, fsRead w' nm ex len = fsRead w nm ex len := by
  obtain ⟨S, hS, hsound⟩ := simulates hr (sound_erased crc)
  refine ⟨?_, fun name ext data ans r w' hslot he hneg nm ex len => ?_⟩
  · have hreads := hsound.reads
    rw [stored_whole hS hc] at hreads
    exact hreads
  · have hi : Inv crc w.fresh.fs w.fresh.flash := hsound.2.1
    obtain ⟨i, hi', hends⟩ := write_ends hi hslot he
    cases hi'
    rcases hends.cases hi with ⟨-, rfl⟩ | ⟨rfl, -⟩
    · rfl
    · exact absurd hneg (by decide)

/-- After the first write a block of 29 bytes is refused, and the two bytes are still there. -/
theorem failed_writes_harmless_one : ∃ w w', Step (fun _ => 0) 2
    (.on (coldBoot (fun _ => 0) erased)) (.call (.write 7 0 [1, 2] ⟨true, true⟩) (.wrote 0)) (.on w) ∧
    (Call.write 7 0 (List.replicate 29 3) ⟨true, true⟩).exec (fun _ => 0) 2 w.fresh =
      some (.wrote (-1), w') ∧ fsRead w' 7 0 3 = .found [1, 2, 0] := by
  obtain ⟨w, hw⟩ := first_write
  obtain ⟨hg, -⟩ := simulates_limits ((Run.refl.step (.boot (.off erased))).step hw)
    (sound_erased _) (empty_passed []) (.single rfl (by decide))
  obtain ⟨hread, hfail⟩ := failed_writes_harmless hg fun l hl => by
    simp only [List.mem_cons, List.not_mem_nil, or_false] at hl
    rcases hl with rfl | rfl <;> trivial
  have he : (Call.write 7 0 (List.replicate 29 3) ⟨true, true⟩).exec (fun _ => 0) 2 w.fresh =
      some (.wrote (-1), (w.fresh.returns (-1)).2) :=
    exec_of_fsWrite (fsWriteWith_tooLong (by decide))
  refine ⟨w, _, hw, he, ?_⟩
  rw [hfail _ _ _ _ _ _ (fun h => absurd h (by decide)) he (by decide)]
  exact (hread 7 0 3 (by decide)).trans (by rfl)

/-! ## The third failure -/

/-- Nothing is set that was clear. -/
def Cleared (f f' : Mem) : Prop := ∀ x, f' x &&& f x = f' x

theorem Cleared.refl (f : Mem) : Cleared f f := fun _ => BitVec.and_self

theorem Cleared.trans {f g h : Mem} (h₁ : Cleared f g) (h₂ : Cleared g h) : Cleared f h := by
  intro x
  calc h x &&& f x = h x &&& g x &&& f x := by rw [h₂ x]
    _ = h x &&& (g x &&& f x) := BitVec.and_assoc _ _ _
    _ = h x := by rw [h₁ x, h₂ x]

/-- A byte that is zero stays zero. -/
theorem Cleared.zero {f f' : Mem} (h : Cleared f f') {x : Nat} (hx : f x = 0) : f' x = 0 := by
  rw [← h x, hx]
  exact BitVec.and_zero

section third
variable {w : World} {buffer : Block}

theorem clearNewer_cleared (w : World) (i : Nat) : Cleared w.flash (clearNewer w i).flash := by
  unfold clearNewer
  split
  · split
    · exact program_and_self _ _ _
    · exact Cleared.refl _
  · exact Cleared.refl _

theorem invalidatePrevious_cleared (w : World) (i : Nat) :
    Cleared w.flash (invalidatePrevious w i).flash := by
  unfold invalidatePrevious
  split
  · exact program_and_self _ _ _
  · exact Cleared.refl _

theorem appendBlock_cleared (crc : Block → BitVec 32) (hi : findFd w.fs.fd buffer.header < fdMax) :
    Cleared w.flash (appendBlock crc w buffer).2.flash := by
  obtain ⟨e, r, hflash, hop, -, -, he⟩ := appendBlock_eq crc w buffer hi
  have h₁ := clearNewer_cleared w (findFd w.fs.fd buffer.header)
  have h₂ := program_and_self (clearNewer w (findFd w.fs.fd buffer.header)).flash
    (w.fs.curr.address w.fs.curr.sector) (updateBlockHash crc buffer fsSize32 fsBlockNewer).toBytes
  have h₃ := invalidatePrevious_cleared
    ((clearNewer w (findFd w.fs.fd buffer.header)).flashWrite
      (w.fs.curr.address w.fs.curr.sector)
      (updateBlockHash crc buffer fsSize32 fsBlockNewer).toBytes) (findFd w.fs.fd buffer.header)
  have hstage : Cleared w.flash (stageBlock crc w buffer).flash := h₁.trans (Cleared.trans h₂ h₃)
  rw [he]
  refine hstage.trans ?_
  show Cleared _ (e.op.apply e.flash)
  rw [hop, hflash]
  exact program_and_self _ _ _

end third

/-- After a boot, the names below `k` are written, without data. -/
def filled : Nat → List Label
  | 0 => [.boot]
  | k + 1 => .call (.write (BitVec.ofNat 16 k) 0 [] ⟨true, true⟩) (.wrote 0) :: filled k

/-- Every write of a new name succeeds as long as there are descriptors. -/
theorem filled_run (crc : Block → BitVec 32) (k : Nat) (hk : k ≤ 300) :
    ∃ w, Run (Step crc (0 + 2)) (.off erased) (filled k) (.on w) ∧ Inv crc w.fs w.flash ∧
      keys w.fs = (List.range k).map (fun i => (BitVec.ofNat 16 i, 0)) ∧
      totalUsed w.fs ≤ 2 * k := by
  induction k with
  | zero =>
    have hb := booted_erased crc
    have hi := hb.inv
    refine ⟨coldBoot crc erased, Run.refl.step (.boot (.off erased)), hi, ?_, ?_⟩
    · have hnone : ∀ key, key ∉ keys (coldBoot crc erased).fs := by
        intro key hm
        rw [← contents_isSome_iff (f := (coldBoot crc erased).flash), hb.contents] at hm
        cases hm
      exact List.eq_nil_iff_forall_not_mem.2 hnone
    · have hzero : ∀ s ∈ Finset.univ, cellsUsed (coldBoot crc erased).fs s = 0 :=
        fun s _ => (hi.shape.blank_iff s).1 (congrFun hb.pointers s)
      unfold totalUsed
      rw [Finset.sum_congr rfl hzero]
      simp
  | succ k ih =>
    obtain ⟨w, hr, hi, hkeys, ht⟩ := ih (by omega)
    have hi₀ : Inv crc w.fresh.fs w.fresh.flash := hi
    have hnew : ((BitVec.ofNat 16 k, (0 : BitVec 8).setWidth 3) : Key) ∉ keys w.fs := by
      rw [hkeys]
      intro hm
      obtain ⟨i, hi, he⟩ := List.mem_map.1 hm
      have := congrArg BitVec.toNat (Prod.mk.inj he).1
      rw [List.mem_range] at hi
      simp only [BitVec.toNat_ofNat] at this
      omega
    have hlen : w.fs.fd.length = k := by
      have := congrArg List.length hkeys
      unfold keys at this
      rwa [List.length_map, List.length_map, List.length_range] at this
    have hslot : HasSlot w.fresh.fs (BitVec.ofNat 16 k, (0 : BitVec 8).setWidth 3) :=
      Or.inr (show w.fs.fd.length < fdMax by unfold fdMax; omega)
    have hnotfull : ¬ ∀ s, w.fs.SectorIsFull s := by
      intro hall
      have := totalUsed_of_full hi.shape hall
      omega
    obtain ⟨⟨r, w'⟩, hex, hends⟩ : ∃ r, fsWrite crc ⟨true, true⟩ 2 w.fresh (BitVec.ofNat 16 k) 0 [] =
        some r ∧ WriteEnds crc w.fresh (BitVec.ofNat 16 k) 0 [] r :=
      fsWrite_spec hi₀ ⟨true, true⟩ 1 fun _ _ => hslot
    have ht' := hends.totalUsed_le hi₀
    have ht₀ : totalUsed w.fresh.fs ≤ 2 * k := ht
    rcases hends.cases hi₀ with ⟨hneg, -⟩ | ⟨rfl, -, -, hw⟩
    · exfalso
      cases hends with
      | tooLong h => simp at h
      | allFull _ hall => exact hnotfull hall
      | room => exact absurd hneg (by decide)
      | switched => exact absurd hneg (by decide)
    · refine ⟨w', hr.step (.call w _ _ w' (exec_of_fsWrite hex)), hw.inv, ?_, ht'.trans (by omega)⟩
      rw [hw.keys]
      refine (if_neg hnew).trans ?_
      rw [List.range_succ, List.map_append]
      exact congrArg (· ++ _) hkeys

/-- A write for which there is no descriptor: its block is on flash, in the cell that the next
write takes. -/
theorem fsWrite_noSlot {w : World} {name : BitVec 16} {ext : BitVec 8} (data : List Byte)
    (hi : Inv crc w.fs w.flash) (hlen : data.length ≤ 28) (hsome : ∃ s, ¬ w.fs.SectorIsFull s)
    (hmax : fdMax ≤ w.fs.fd.length) (hno : (name, ext.setWidth 3) ∉ keys w.fs) (ans : Answers) :
    ∃ v : World, Inv crc v.fs v.flash ∧ ¬ v.fs.SectorIsFull v.fs.curr.sector ∧ keys v.fs = keys w.fs ∧
      fsWrite crc ans (n + 1) w name ext data = some (World.returns (v.flashWrite
        (v.fs.curr.address v.fs.curr.sector)
        (updateBlockHash crc (writeBuffer name ext data) fsSize32 fsBlockNewer).toBytes) (-1)) := by
  -- the append, once there is room
  have happend : ∀ v : World, keys v.fs = keys w.fs →
      appendBlock crc v (writeBuffer name ext data) = World.returns (v.flashWrite
        (v.fs.curr.address v.fs.curr.sector)
        (updateBlockHash crc (writeBuffer name ext data) fsSize32 fsBlockNewer).toBytes) (-1) := by
    intro v hk
    have hl := congrArg List.length hk
    unfold keys at hl
    rw [List.length_map, List.length_map] at hl
    refine appendBlock_noSlot crc ?_ (by omega)
    rcases isSlot_findFd v.fs.fd (writeBuffer name ext data).header with ⟨fd, hg, hkey⟩ | ⟨he, -⟩
    · refine absurd ?_ hno
      rw [← hk]
      exact List.mem_map.2 ⟨fd, List.mem_of_getElem? hg, hkey⟩
    · exact he
  by_cases hfull : w.fs.SectorIsFull w.fs.curr.sector
  · obtain ⟨s, v, -, -, hroom, hi', hk, hw⟩ := fsWrite_switch hi ans n name ext hlen hfull hsome
    exact ⟨v, hi', hroom, hk, hw.trans (congrArg some (happend v hk))⟩
  · exact ⟨w, hi, hfull, rfl, (fsWriteWith_room hlen hfull).trans (congrArg some (happend w rfl))⟩

/-- `fs_read` reads at the address that the descriptors of the key have. -/
theorem fsRead_at {w : World} {name : BitVec 16} {ext : BitVec 8} {a len : Nat}
    (hext : ext.toNat < 8) (hlen : len ≤ 28) (hk : (name, ext.setWidth 3) ∈ keys w.fs)
    (ha : ∀ fd ∈ w.fs.fd, fd.header.key = (name, ext.setWidth 3) → fd.address = a) :
    fsRead w name ext len = .found ((List.ofFn (flashRead w.flash a).data).take len) := by
  obtain ⟨fd, hm, hkey⟩ := List.mem_map.1 hk
  unfold fsRead
  simp only
  rw [fsRead_pred name hext, ← List.find?_eq_getElem?_findIdx]
  cases hf : w.fs.fd.find? fun fd => fd.header.key == (name, ext.setWidth 3) with
  | none => simpa [hkey] using List.find?_eq_none.1 hf fd hm
  | some fd' =>
    have hkey' : fd'.header.key = (name, ext.setWidth 3) := by simpa using List.find?_some hf
    simp only
    rw [if_pos (by unfold fsBlockSize; omega), ha fd' (List.mem_of_find?_eq_some hf) hkey']

/-- The 301st name is refused; the next write, of `0xFF` under the name `0`, returns `0`, and the
byte is read back as `0`. -/
theorem failed_write_corrupts : ∃ w w₁ w₂,
    Run (Step (fun _ => 0) 2) (.off erased) (filled 300) (.on w) ∧
    (Call.write 300 0 [] ⟨true, true⟩).exec (fun _ => 0) 2 w.fresh = some (.wrote (-1), w₁) ∧
    (Call.write 0 0 [0xFF] ⟨true, true⟩).exec (fun _ => 0) 2 w₁.fresh = some (.wrote 0, w₂) ∧
    fsRead w₂ 0 0 1 = .found [0] := by
  obtain ⟨w, hr, hi, hkeys, ht⟩ := filled_run (fun _ => 0) 300 (Nat.le_refl 300)
  have hi₀ : Inv (fun _ => 0) w.fresh.fs w.fresh.flash := hi
  have hlen : w.fs.fd.length = 300 := by
    have := congrArg List.length hkeys
    unfold keys at this
    rwa [List.length_map, List.length_map, List.length_range] at this
  have hnotfull : ∃ s, ¬ w.fresh.fs.SectorIsFull s := by
    by_contra hall
    have := totalUsed_of_full hi.shape (not_exists_not.1 hall)
    omega
  have hno : ((300 : BitVec 16), (0 : BitVec 8).setWidth 3) ∉ keys w.fresh.fs := by
    show _ ∉ keys w.fs
    rw [hkeys]
    decide +kernel
  obtain ⟨v, hiv, hroom, hkv, he⟩ := fsWrite_noSlot (n := 1) [] hi₀ (Nat.zero_le 28) hnotfull
    (show fdMax ≤ w.fs.fd.length from Nat.le_of_eq hlen.symm) hno ⟨true, true⟩
  have hkv : keys v.fs = (List.range 300).map fun i => (BitVec.ofNat 16 i, 0) := hkv.trans hkeys
  generalize hu : v.flashWrite (v.fs.curr.address v.fs.curr.sector) (updateBlockHash (fun _ => 0)
    (writeBuffer 300 0 []) fsSize32 fsBlockNewer).toBytes = u at he
  have hufs : u.fs = v.fs := by rw [← hu]; rfl
  -- the first data byte of the refused block is zero on flash
  have hzero : u.flash (v.fs.curr.address v.fs.curr.sector + 4) = 0 := by
    rw [← hu]
    refine (program_at _ _ _ 4 (by simp)).trans ?_
    rw [show (updateBlockHash (fun _ => 0) (writeBuffer 300 0 []) fsSize32 fsBlockNewer).toBytes[4] =
      (0 : Byte) from rfl]
    exact BitVec.and_zero
  -- the next write goes to the same cell
  have hslot : ((0 : BitVec 16), (0 : BitVec 8).setWidth 3) ∈ keys v.fs := by
    rw [hkv]
    decide +kernel
  generalize hw₁ : (u.returns (-1)).2 = w₁ at he
  have hfs₁ : w₁.fresh.fs = v.fs := by rw [← hw₁]; exact hufs
  have hroom₁ : ¬ w₁.fresh.fs.SectorIsFull w₁.fresh.fs.curr.sector := by rw [hfs₁]; exact hroom
  have hfind : findFd w₁.fresh.fs.fd (writeBuffer 0 0 [0xFF]).header < fdMax := by
    rw [hfs₁]
    exact hiv.findFd_lt (Or.inl hslot)
  obtain ⟨h0, hp, -⟩ := appendBlock_placed (fun _ => 0) w₁.fresh (writeBuffer 0 0 [0xFF]) hfind
  have hclear := appendBlock_cleared (fun _ => 0) hfind
  rw [hfs₁] at hp
  refine ⟨w, w₁, (appendBlock (fun _ => 0) w₁.fresh (writeBuffer 0 0 [0xFF])).2, hr, ?_, ?_, ?_⟩
  · rw [exec_of_fsWrite he, ← hw₁]
    rfl
  · rw [exec_of_fsWrite (fsWriteWith_room (by decide) hroom₁), h0]
  · have hkeys₂ : ((0 : BitVec 16), (0 : BitVec 8).setWidth 3) ∈
        keys (appendBlock (fun _ => 0) w₁.fresh (writeBuffer 0 0 [0xFF])).2.fs := by
      rw [hp.keys]
      exact (if_pos hslot).symm ▸ hslot
    have hfd : ∀ fd ∈ (appendBlock (fun _ => 0) w₁.fresh (writeBuffer 0 0 [0xFF])).2.fs.fd,
        fd.header.key = (0, (0 : BitVec 8).setWidth 3) →
        fd.address = v.fs.curr.address v.fs.curr.sector := by
      intro fd hm hk
      rcases hp.mem hiv.index.nodup hm with ⟨-, hne⟩ | ⟨-, -, ha⟩
      · exact absurd hk hne
      · exact ha
    rw [fsRead_at (by decide) (by decide) hkeys₂ hfd, List.ofFn_succ, List.take_succ_cons,
      List.take_zero]
    have hflash₁ : w₁.fresh.flash = u.flash := by rw [← hw₁]; rfl
    have hbyte := hclear.zero (x := v.fs.curr.address v.fs.curr.sector + 4) (hflash₁ ▸ hzero)
    exact congrArg (fun b => ReadResult.found [b]) hbyte

end Wormvars
