import Wormvars.Capacity
import Wormvars.Store
import Wormvars.Turns

/-!
# A run with a relocation

128 writes of a key of its own to each of six sectors, a write that turns to the seventh
and has `fs_thread` pick a block, a call of `fs_thread(0)` that copies the block and one
that erases the sector (`tour`).  After that a write can be cut (`Sectored.cut`).

`Column` says what the writes leave in RAM, `Climb` that they lead there from the first
boot.  What is shown about runs is tried on this one.
-/

namespace Wormvars

open NorFlash NewerLog Runs

variable {crc : Block → BitVec 32} {n : Nat}

/-! ## Runs that write the keys of the sectors -/

/-- The key of the blocks that the run writes to the sector `s`. -/
def sectorKey (s : Fin 8) : Key := (BitVec.ofNat 16 s, 0)

def sectorWrite (s : Fin 8) : Call := .write (BitVec.ofNat 16 s) 0 [] ready

def SectorKeys (h : List Label) : Prop := ∀ q ∈ passed h, ∃ s : Fin 8, q = (BitVec.ofNat 16 s, 0)

/-- Calls from the first boot on. -/
structure Sectored (h : List Label) (w : World) : Prop where
  run : Run (Step (fun _ => 0) (0 + 2)) (.on (coldBoot (fun _ => 0) erased)) h (.on w)
  calls : ∀ l ∈ h, ∃ c r, l = .call c r
  keys : SectorKeys h

section sectored
variable {h h' : List Label} {w w' : World} {c : Call} {r : Result}

theorem SectorKeys.append (hk : SectorKeys h) (hk' : SectorKeys h') : SectorKeys (h' ++ h) := by
  induction h' with
  | nil => exact hk
  | cons l h' ih =>
    intro q hq
    rw [List.cons_append, passed_cons] at hq
    rcases List.mem_append.1 hq with hq | hq
    · exact hk' q (by rw [passed_cons]; exact List.mem_append_left _ hq)
    · refine ih (fun q hq => hk' q ?_) q hq
      rw [passed_cons]
      exact List.mem_append_right _ hq

theorem SectorKeys.thread (ans : Answers) (r : Result) : SectorKeys [.call (.thread ans) r] :=
  fun _ hq => by cases hq

theorem SectorKeys.write (s : Fin 8) (r : Result) : SectorKeys [.call (sectorWrite s) r] :=
  fun _ hq => ⟨s, List.mem_singleton.1 hq⟩

theorem SectorKeys.limits (hk : SectorKeys h) : Limits h where
  ext q hq := by
    obtain ⟨s, rfl⟩ := hk q hq
    show (0 : BitVec 8).toNat < 8
    decide
  keys := by
    have hsub : (passed h).dedup ⊆
        (List.finRange 8).map fun s : Fin 8 => (BitVec.ofNat 16 s, 0) := by
      intro q hq
      obtain ⟨s, rfl⟩ := hk q (List.mem_dedup.1 hq)
      exact List.mem_map.2 ⟨s, List.mem_finRange s, rfl⟩
    have hle := ((List.nodup_dedup _).subperm hsub).length_le
    rw [List.length_map, List.length_finRange] at hle
    exact hle.trans (by decide)

theorem Sectored.start : Sectored [] (coldBoot (fun _ => 0) erased) :=
  ⟨.refl, fun _ hl => (by cases hl), fun _ hq => by cases hq⟩

theorem Sectored.call (hs : Sectored h w) (he : c.exec (fun _ => 0) (0 + 2) w.fresh = some (r, w'))
    (hk : SectorKeys [.call c r]) : Sectored (.call c r :: h) w' := by
  refine ⟨hs.run.step (.call w c r w' he), fun l hl => ?_, hs.keys.append hk⟩
  rcases List.mem_cons.1 hl with rfl | hl
  · exact ⟨c, r, rfl⟩
  · exact hs.calls l hl

theorem Sectored.inv (hs : Sectored h w) : Inv (fun _ => 0) w.fs w.flash := by
  obtain ⟨-, S, -, hsound, -⟩ := hs.keys.limits.reaches hs.run (sound_boot (sound_erased _))
  exact hsound.2.1

/-- The first boot included. -/
theorem Sectored.fromOff (hs : Sectored h w) :
    Run (Step (fun _ => 0) (0 + 2)) (.off erased) (h ++ [.boot]) (.on w) ∧
      SectorKeys (h ++ [.boot]) :=
  ⟨(Run.refl.step (.boot (.off erased))).trans hs.run, (show SectorKeys [Label.boot] from
    fun _ hq => by cases hq).append hs.keys⟩

/-- Whatever is called next returns. -/
theorem SectorKeys.next (hk : SectorKeys h)
    (hr : Run (Step (fun _ => 0) (0 + 2)) (.off erased) h (.on w))
    (hc : ∀ r, SectorKeys [.call c r]) : Inv (fun _ => 0) w.fs w.flash ∧ SlotFor w c ∧
      ∃ r w', c.exec (fun _ => 0) (0 + 2) w.fresh = some (r, w') := by
  have hl : Limits (.call c (.wrote 0) :: h) := (hk.append (hc (.wrote 0))).limits
  obtain ⟨-, S, -, hsound, hpassed⟩ := hk.limits.reaches hr (sound_erased _)
  obtain ⟨r, w', he, -⟩ := hl.call (c := c) hsound hpassed 0
  exact ⟨hsound.2.1, hl.slotFree hsound hpassed, r, w', he⟩

theorem Sectored.returns (hs : Sectored h w) (hc : ∀ r, SectorKeys [.call c r]) :
    ∃ r w', c.exec (fun _ => 0) (0 + 2) w.fresh = some (r, w') := by
  obtain ⟨hr, hk⟩ := hs.fromOff
  exact (hk.next hr hc).2.2

/-- A call made `k` times. -/
theorem SectorKeys.again (hk : SectorKeys h)
    (hr : Run (Step (fun _ => 0) (0 + 2)) (.off erased) h (.on w))
    (hc : ∀ r, SectorKeys [.call c r]) (k : Nat) :
    ∃ h' w', Run (Step (fun _ => 0) (0 + 2)) (.on w) h' (.on w') ∧ SectorKeys h' ∧
      h'.length = k ∧ ∀ l ∈ h', ∃ r a b, c.exec (fun _ => 0) (0 + 2) a = some (r, b) ∧
        l = .call c r := by
  induction k with
  | zero => exact ⟨[], w, .refl, fun _ hq => (by cases hq), rfl, fun _ hl => by cases hl⟩
  | succ k ih =>
    obtain ⟨h', v, hrun, hk', hlen, hall⟩ := ih
    obtain ⟨-, -, r, w', he⟩ := (hk.append hk').next (hr.trans hrun) hc
    refine ⟨.call c r :: h', w', hrun.step (.call v c r w' he), hk'.append (hc r),
      congrArg (· + 1) hlen, fun l hl => ?_⟩
    rcases List.mem_cons.1 hl with rfl | hl
    · exact ⟨r, _, _, he, rfl⟩
    · exact hall l hl

theorem exec_sectorWrite {s : Fin 8} {r : Result}
    (he : (sectorWrite s).exec crc n w = some (r, w')) : ∃ i, r = .wrote i := by
  obtain ⟨q, -, heq⟩ := Option.map_eq_some_iff.1 he
  exact ⟨q.1, (Prod.mk.inj heq).1.symm⟩

end sectored

/-! ## From sector to sector -/

/-- The sectors are used in circular order from 7 on, each for its own key; the current one, `s`,
has `r` blocks. -/
structure Column (fs : Fs) (s : Fin 8) (r : Nat) : Prop where
  keyed : ∀ fd ∈ fs.fd, fd.header.key = sectorKey fd.sector
  live : ∀ j, j + 1 < s + 1 ∨ (j = s ∧ 0 < r) → ∃ fd ∈ fs.fd, fd.sector = j
  full : ∀ j, j + 1 < s + 1 → fs.SectorIsFull j
  blank : ∀ j, s + 1 < j + 1 → fs.SectorIsBlank j
  sector : fs.curr.sector = s
  address : fs.curr.address s = sectorBase s + 32 * r

theorem sectorKey_injective : Function.Injective sectorKey := by decide

section column
variable {fs fs' : Fs} {s : Fin 8} {r : Nat}

theorem Column.congr (hc : Column fs s r) (hfd : fs'.fd = fs.fd) (hcurr : fs'.curr = fs.curr) :
    Column fs' s r := by
  obtain ⟨h₁, h₂, h₃, h₄, h₅, h₆⟩ := hc
  unfold Fs.SectorIsFull at h₃
  unfold Fs.SectorIsBlank at h₄
  constructor
  · rwa [hfd]
  · rwa [hfd]
  · unfold Fs.SectorIsFull
    rwa [hcurr]
  · unfold Fs.SectorIsBlank
    rwa [hcurr]
  · rwa [hcurr]
  · rwa [hcurr]

/-- A block of the key of the current sector. -/
theorem Column.placed (hc : Column fs s r) (hnd : (keys fs).Nodup)
    (hp : Placed (sectorKey s) fs fs') : Column fs' s (r + 1) := by
  have hkeyed : ∀ fd ∈ fs'.fd, fd.header.key = sectorKey fd.sector := by
    intro fd hm
    rcases hp.mem hnd hm with ⟨hm, -⟩ | ⟨hk, hs, -⟩
    · exact hc.keyed fd hm
    · rw [hk, hs, hc.sector]
  have hother : ∀ j, j ≠ s → fs'.curr.address j = fs.curr.address j :=
    fun j hj => hp.address_ne (by rwa [hc.sector])
  refine ⟨hkeyed, fun j hj => ?_, fun j hj => ?_, fun j hj => ?_, hp.sector.trans hc.sector, ?_⟩
  · by_cases hjs : j = s
    · -- the descriptor of the block
      have hmem : sectorKey s ∈ keys fs' := by
        rw [hp.keys]
        split
        · next hk => exact hk
        · exact List.mem_append_right _ List.mem_cons_self
      obtain ⟨fd, hm, hk⟩ := List.mem_map.1 hmem
      exact ⟨fd, hm, hjs ▸ sectorKey_injective ((hkeyed fd hm).symm.trans hk)⟩
    · obtain ⟨fd, hm, hsec⟩ := hc.live j (Or.inl (hj.resolve_right fun h => hjs h.1))
      obtain ⟨i, hg⟩ := List.mem_iff_getElem?.1 hm
      have hk : fd.header.key ≠ sectorKey s := by
        rw [hc.keyed fd hm, hsec]
        exact fun he => hjs (sectorKey_injective he)
      exact ⟨fd, List.mem_of_getElem? (hp.get_other hg hk), hsec⟩
  · unfold Fs.SectorIsFull
    rw [hother j fun he => absurd hj (he ▸ lt_irrefl _)]
    exact hc.full j hj
  · unfold Fs.SectorIsBlank
    rw [hother j fun he => absurd hj (he ▸ lt_irrefl _)]
    exact hc.blank j hj
  · have hself := hp.address_self
    rw [hc.sector, hc.address] at hself
    rw [hself]
    omega

/-- The current sector is full and the next one is used. -/
theorem Column.next {w : World} (hc : Column w.fs s 128) (hs : s ≠ 6) :
    Column (w.setSector (s + 1)).fs (s + 1) 0 := by
  have hbefore : ∀ s j : Fin 8, s ≠ 6 → j + 1 < s + 1 + 1 → j + 1 < s + 1 ∨ j = s := by decide
  have hafter : ∀ s j : Fin 8, s ≠ 6 → s + 1 + 1 < j + 1 → s + 1 < j + 1 := by decide
  have hnext : ∀ s : Fin 8, s ≠ 6 → s + 1 < s + 1 + 1 := by decide
  refine ⟨hc.keyed, fun j hj => ?_, fun j hj => ?_, fun j hj => hc.blank j (hafter s j hs hj), rfl,
    hc.blank (s + 1) (hnext s hs)⟩
  · have hj := hj.resolve_right fun h => absurd h.2 (Nat.lt_irrefl 0)
    refine hc.live j ((hbefore s j hs hj).imp_right fun h => ⟨h, by omega⟩)
  · rcases hbefore s j hs hj with h | rfl
    · exact hc.full j h
    · exact Nat.le_of_eq hc.address.symm

theorem Column.isFull (hc : Column fs s 128) : fs.SectorIsFull fs.curr.sector := by
  rw [hc.sector]
  exact Nat.le_of_eq hc.address.symm

theorem Column.room (hc : Column fs s r) (hr : r < 128) :
    ¬ fs.SectorIsFull fs.curr.sector := by
  rw [not_full_iff, hc.sector, hc.address]
  omega

theorem Column.blankOthers (hc : Column fs s r) : blankOthers fs = 7 - (s + 1).val := by
  have hcount : ∀ s : Fin 8, (Finset.univ.filter fun j : Fin 8 => s + 1 < j + 1).card =
      7 - (s + 1).val := by decide
  rw [blankOthers_eq, ← hcount s]
  congr 1
  refine Finset.filter_congr fun j _ => ?_
  constructor
  · rintro ⟨hne, hb⟩
    rw [hc.sector] at hne
    by_contra hle
    have hlt : ∀ s j : Fin 8, j ≠ s → ¬ s + 1 < j + 1 → j + 1 < s + 1 := by decide
    exact not_full_of_blank hb (hc.full j (hlt s j hne hle))
  · intro h
    refine ⟨fun he => absurd h ?_, hc.blank j h⟩
    rw [he, hc.sector]
    exact lt_irrefl _
end column

/-- Writes lead from the first boot to a column. -/
structure Climb (h : List Label) (w : World) (s : Fin 8) (r : Nat) : Prop where
  run : Run (Step (fun _ => 0) (0 + 2)) (.on (coldBoot (fun _ => 0) erased)) h (.on w)
  writes : ∀ l ∈ h, ∃ s, l = .call (sectorWrite s) (.wrote 0)
  length : h.length = 128 * (s + 1).val + r
  column : Column w.fs s r

section climb
variable {h : List Label} {w v : World} {s s' : Fin 8} {r r' : Nat}

theorem sectorKeys_of_writes (hw : ∀ l ∈ h, ∃ s, l = .call (sectorWrite s) (.wrote 0)) :
    SectorKeys h := by
  induction h with
  | nil => exact fun _ hq => by cases hq
  | cons l h ih =>
    obtain ⟨s, rfl⟩ := hw l List.mem_cons_self
    exact (ih fun l hl => hw l (List.mem_cons_of_mem _ hl)).append (.write s _)

theorem Climb.sectored (hc : Climb h w s r) : Sectored h w where
  run := hc.run
  calls l hl := by
    obtain ⟨s, rfl⟩ := hc.writes l hl
    exact ⟨_, _, rfl⟩
  keys := sectorKeys_of_writes hc.writes

theorem Climb.inv (hc : Climb h w s r) : Inv (fun _ => 0) w.fs w.flash := hc.sectored.inv

theorem Climb.hasSlot (hc : Climb h w s r) (s' : Fin 8) : HasSlot w.fs (sectorKey s') := by
  right
  have hsub : keys w.fs ⊆ (List.finRange 8).map sectorKey := by
    intro k hk
    obtain ⟨fd, hm, rfl⟩ := List.mem_map.1 hk
    exact List.mem_map.2 ⟨fd.sector, List.mem_finRange _, (hc.column.keyed fd hm).symm⟩
  have hle := (hc.inv.index.nodup.subperm hsub).length_le
  unfold keys at hle
  rw [List.length_map, List.length_map, List.length_finRange] at hle
  unfold fdMax
  omega

/-- One more write; `v` is the state in which its block is appended. -/
theorem Climb.append (hc : Climb h w s r) (hv : Column v.fs s' r') (hfd : v.fs.fd = w.fs.fd)
    (ha : v.fs.curr.address = w.fs.curr.address)
    (hlen : 128 * (s + 1).val + r = 128 * (s' + 1).val + r')
    (he : fsWrite (fun _ => 0) ready 2 w.fresh (BitVec.ofNat 16 s') 0 [] =
      some (appendBlock (fun _ => 0) v (writeBuffer (BitVec.ofNat 16 s') 0 []))) :
    ∃ w', (sectorWrite s').exec (fun _ => 0) (0 + 2) w.fresh = some (.wrote 0, w') ∧
      Placed (sectorKey s') v.fs w'.fs ∧
      Climb (.call (sectorWrite s') (.wrote 0) :: h) w' s' (r' + 1) := by
  have hkeys : keys v.fs = keys w.fs := by
    unfold keys
    rw [hfd]
  have htidy : Tidy v.fs := hc.inv.steady.tidy.congr hfd ha
  have hslot : HasSlot v.fs (writeBuffer (BitVec.ofNat 16 s') 0 []).header.key :=
    (hc.hasSlot s').congr hkeys
  obtain ⟨h0, hp⟩ := htidy.append (fun _ => 0) hslot
  have hexec := exec_of_fsWrite he
  rw [h0] at hexec
  refine ⟨_, hexec, hp, hc.run.step (.call w _ _ _ hexec), fun l hl => ?_, ?_,
    hv.placed htidy.nodup hp⟩
  · rcases List.mem_cons.1 hl with rfl | hl
    · exact ⟨s', rfl⟩
    · exact hc.writes l hl
  · rw [List.length_cons, hc.length, hlen]
    rfl

theorem Climb.write (hc : Climb h w s r) (hr : r < 128) :
    ∃ w', Placed (sectorKey s) w.fs w'.fs ∧
      Climb (.call (sectorWrite s) (.wrote 0) :: h) w' s (r + 1) := by
  have hroom : ¬ w.fresh.fs.SectorIsFull w.fresh.fs.curr.sector := hc.column.room hr
  obtain ⟨w', -, hp, hc'⟩ := hc.append (v := w.fresh) hc.column rfl rfl rfl
    (fsWriteWith_room (by decide) hroom)
  exact ⟨w', hp, hc'⟩

/-- Writes that fill the current sector change nothing that the suspended thread holds. -/
theorem Climb.fill (hc : Climb h w s r) (k : Nat) (hk : r + k ≤ 128) :
    ∃ h' w', Climb h' w' s (r + k) ∧ w'.fs.pt = w.fs.pt ∧ w'.fs.reloc = w.fs.reloc ∧
      ∀ (i : Nat) (fd : FileDescriptor), w.fs.fd[i]? = some fd → fd.sector ≠ s →
        w'.fs.fd[i]? = some fd := by
  induction k with
  | zero => exact ⟨h, w, hc, rfl, rfl, fun _ _ hg _ => hg⟩
  | succ k ih =>
    obtain ⟨h', w', hc', hpt, hreloc, hslots⟩ := ih (by omega)
    obtain ⟨w'', hp, hc''⟩ := hc'.write (by omega)
    refine ⟨_, w'', hc'', hp.pt.trans hpt, hp.reloc.trans hreloc, fun i fd hg hne => ?_⟩
    have hg' := hslots i fd hg hne
    refine hp.get_other hg' fun he => hne (sectorKey_injective ?_)
    rw [← hc'.column.keyed fd (List.mem_of_getElem? hg'), he]

/-- A write that turns to the next sector. -/
theorem Climb.switch (hc : Climb h w s 128) (hs : s ≠ 6) {reloc : Reloc} {pt : PtLabel}
    {code : PtCode} (hthread : ∀ write, fsThreadWith write ready true (w.fresh.setSector (s + 1)) =
      some (code, ((w.fresh.setSector (s + 1)).setReloc reloc).setPt pt)) :
    ∃ w', (sectorWrite (s + 1)).exec (fun _ => 0) (0 + 2) w.fresh = some (.wrote 0, w') ∧
      Placed (sectorKey (s + 1)) (((w.fresh.setSector (s + 1)).setReloc reloc).setPt pt).fs w'.fs ∧
      Climb (.call (sectorWrite (s + 1)) (.wrote 0) :: h) w' (s + 1) 1 := by
  have hsucc : ∀ s : Fin 8, s ≠ 6 → (s + 1 + 1).val = (s + 1).val + 1 := by decide
  have hval := hsucc s hs
  have hcol := hc.column.next hs
  have hfull : w.fresh.fs.SectorIsFull w.fresh.fs.curr.sector := hc.column.isFull
  have hnext : nextNotFull w.fresh.fs 8 w.fresh.fs.curr.sector = some (s + 1) := by
    have hfree : ¬ w.fs.SectorIsFull (s + 1) := hcol.room (by omega)
    show nextNotFull w.fs 8 w.fs.curr.sector = _
    rw [hc.column.sector]
    unfold nextNotFull
    exact if_pos hfree
  refine hc.append (v := ((w.fresh.setSector (s + 1)).setReloc reloc).setPt pt)
    (hcol.congr rfl rfl) rfl rfl (by omega) ?_
  refine fsWriteWith_next (by decide) hfull hnext ?_
  show (fsThreadWith _ ready true (w.fresh.setSector (s + 1))).map Prod.snd = _
  rw [hthread]
  rfl

/-- The first boot makes the last sector the current one. -/
theorem Climb.start : Climb [] (coldBoot (fun _ => 0) erased) 7 0 := by
  have hptr : ∀ j, (coldBoot (fun _ => 0) erased).fs.curr.address j = sectorBase j :=
    congrFun (booted_erased fun _ => 0).pointers
  have hnone : ∀ j : Fin 8, ¬ j + 1 < (7 : Fin 8) + 1 := by decide
  refine ⟨.refl, fun _ hl => (by cases hl), rfl, fun fd hm => ?_, fun j hj => ?_,
    fun j hj => absurd hj (hnone j), fun j _ => hptr j, by decide +kernel, hptr 7⟩
  · rw [coldBoot_erased_bare] at hm
    cases hm
  · rcases hj with hj | hj
    · exact absurd hj (hnone j)
    · omega

/-- After the boot, `fs_thread` stays without a victim for as long as two sectors are blank. -/
theorem climb_idle (p : Nat) (hp : p ≤ 5) : ∃ h w, Climb h w (7 + Fin.ofNat 8 p) 128 ∧
    w.fs.pt = if p % 2 = 0 then .null else .yieldStart := by
  induction p with
  | zero =>
    obtain ⟨h, w, hc, hpt, -⟩ := Climb.start.fill 128 (by omega)
    exact ⟨h, w, hc, hpt.trans (booted_erased fun _ => 0).idle⟩
  | succ p ih =>
    obtain ⟨h, w, hc, hpt⟩ := ih (by omega)
    have hs : ∀ p, p < 5 → (7 + Fin.ofNat 8 p : Fin 8) ≠ 6 ∧
        7 + Fin.ofNat 8 p + 1 = (7 + Fin.ofNat 8 (p + 1) : Fin 8) ∧
        (7 + Fin.ofNat 8 p + 1 + 1 : Fin 8).val ≤ 5 := by decide
    obtain ⟨h6, hsucc, hfive⟩ := hs p (by omega)
    have hcol := hc.column.next h6
    have hstep : ∃ pt code, (∀ write, fsThreadWith write ready true
        (w.fresh.setSector (7 + Fin.ofNat 8 p + 1)) = some (code,
          ((w.fresh.setSector (7 + Fin.ofNat 8 p + 1)).setReloc w.fs.reloc).setPt pt)) ∧
        pt = if (p + 1) % 2 = 0 then .null else .yieldStart := by
      by_cases hp2 : p % 2 = 0
      · rw [if_pos hp2] at hpt
        exact ⟨.yieldStart, .yielded, fun write => fsThreadWith_timer write true (Or.inl hpt),
          (if_neg (by omega)).symm⟩
      · rw [if_neg hp2] at hpt
        have hb : 2 ≤ blankOthers (w.fresh.setSector (7 + Fin.ofNat 8 p + 1)).fs := by
          have := hcol.blankOthers
          show 2 ≤ blankOthers (w.setSector (7 + Fin.ofNat 8 p + 1)).fs
          omega
        exact ⟨.null, .waiting, fun write => fsThreadWith_idle write true hpt hb,
          (if_pos (by omega)).symm⟩
    obtain ⟨pt, code, hthread, he⟩ := hstep
    obtain ⟨w', -, hplaced, hc'⟩ := hc.switch h6 hthread
    obtain ⟨h'', w'', hc'', hpt'', -⟩ := hc'.fill 127 (by omega)
    rw [hsucc] at hc''
    exact ⟨h'', w'', hc'', (hpt''.trans hplaced.pt).trans he⟩

/-- Every full sector but the current one holds a block: that of the victim is picked. -/
theorem choose_picks {u : World} (hi : Inv (fun _ => 0) u.fs u.flash) (hpt : u.fs.pt = .yieldStart)
    (hb : blankOthers u.fs < 2) (hlive : ∀ s, FullOther u.fs s → ∃ fd ∈ u.fs.fd, fd.sector = s) :
    ∃ reloc, (∀ write flag, fsThreadWith write ready flag u =
        some (.yielded, (u.setReloc reloc).setPt .yieldRead)) ∧
      u.fs.fd[reloc.fdIndex]? = some reloc.fd ∧ reloc.fd.sector = reloc.sector ∧
      FullOther u.fs reloc.sector := by
  cases hS : findRelocSector u.fs with
  | none =>
    have := (findRelocSector_none u.fs).1 hS
    omega
  | some S =>
    obtain ⟨hch, -⟩ := chosen_of_findRelocSector hi.shape hi.index hS
    rcases relocLoop_cases ready (u.setReloc { u.fs.reloc with sector := S }) 0 with
      ⟨j, fd, -, hg, hsec, -, he⟩ | ⟨m, hall, -⟩
    · rw [relocRead_ready] at he
      refine ⟨{ u.fs.reloc with
        sector := S, fd := fd, fdIndex := j, buffer := flashRead u.flash fd.address },
        fun write flag => ?_, hg, hsec, hch.full⟩
      unfold fsThreadWith
      simp only [hpt, hS]
      exact congrArg some he
    · -- the victim holds a block
      obtain ⟨fd, hm, hsec⟩ := hlive S hch.full
      obtain ⟨i, hg⟩ := List.mem_iff_getElem?.1 hm
      exact absurd hsec (hall i fd (Nat.zero_le i) hg)

/-- The write that turns to the last sector but one has a block picked. -/
theorem climb_picked : ∃ h u w, Climb h u 4 128 ∧ u.fs.pt = .yieldStart ∧
    (sectorWrite 5).exec (fun _ => 0) (0 + 2) u.fresh = some (.wrote 0, w) ∧
    Climb (.call (sectorWrite 5) (.wrote 0) :: h) w 5 1 ∧ Copying w.fs ∧
    w.fs.fd[w.fs.reloc.fdIndex]? = some w.fs.reloc.fd ∧
    w.fs.reloc.fd.sector = w.fs.reloc.sector ∧ w.fs.reloc.sector ≠ 5 := by
  obtain ⟨h, u, hc, hpt⟩ := climb_idle 5 (by omega)
  have hc : Climb h u 4 128 := hc
  have hpt : u.fs.pt = .yieldStart := hpt
  have hcol : Column (u.fresh.setSector 5).fs 5 0 := hc.column.next (by decide)
  have hi : Inv (fun _ => 0) (u.fresh.setSector 5).fs (u.fresh.setSector 5).flash :=
    (Inv.setSector (w := u.fresh) hc.inv hc.column.isFull (hcol.room (by omega))).1
  have hb : blankOthers (u.fresh.setSector 5).fs < 2 := by
    rw [hcol.blankOthers]
    decide
  have hlive : ∀ s, FullOther (u.fresh.setSector 5).fs s →
      ∃ fd ∈ (u.fresh.setSector 5).fs.fd, fd.sector = s := by
    intro s hs
    have hor : ∀ s : Fin 8, s ≠ 5 → s + 1 < 5 + 1 ∨ (5 : Fin 8) + 1 < s + 1 := by decide
    rcases hor s hs.1 with hlt | hlt
    · exact hcol.live s (Or.inl hlt)
    · exact absurd hs.2 (not_full_of_blank (hcol.blank s hlt))
  obtain ⟨reloc, hthread, hg, hsec, hfull⟩ := choose_picks hi hpt hb hlive
  obtain ⟨w, hexec, hp, hc'⟩ := hc.switch (by decide) fun write => hthread write true
  have hreloc : w.fs.reloc = reloc := hp.reloc
  have hne : reloc.sector ≠ 5 := hfull.1
  have hget : w.fs.fd[w.fs.reloc.fdIndex]? = some w.fs.reloc.fd := by
    rw [hreloc]
    refine hp.get_other hg fun he => hne ?_
    rw [← hsec]
    refine sectorKey_injective ?_
    rw [← hcol.keyed _ (List.mem_of_getElem? hg), he]
    rfl
  refine ⟨h, u, w, hc, hpt, hexec, hc', ⟨hp.pt, _, hget, rfl⟩, hget, ?_, ?_⟩
  · rw [hreloc]
    exact hsec
  · rw [hreloc]
    exact hne

end climb

theorem exec_copies {w : World} (ans : Answers) (hi : Inv crc w.fs w.flash) (hc : Copying w.fs)
    (hroom : ¬ w.fs.SectorIsFull w.fs.curr.sector) :
    (Call.thread ans).exec crc (n + 1) w = some (.ran .yielded, w.relocate crc) := by
  obtain ⟨hpt, fd, hg, ha⟩ := hc
  refine exec_of_fsThread (r := (.yielded, _)) ?_
  unfold fsThread
  rw [fsThreadWith_yieldRead _ ans false hpt hg, if_pos ha]
  exact relocWrite_room _ hi (hi.carries hpt hg ha) hroom

variable (crc) in
theorem exec_erases {w : World} (hpt : w.fs.pt = .yieldNext) (hv : Victim w.fs)
    (hno : ∀ fd ∈ w.fs.fd, fd.sector ≠ w.fs.reloc.sector) :
    ∃ v, (Call.thread ready).exec crc (n + 1) w = some (.ran .ended, v) ∧
      (∃ e ∈ v.log, e.op = .erase (sectorBase w.fs.reloc.sector)) ∧
      v.fs.curr.address w.fs.reloc.sector = sectorBase w.fs.reloc.sector ∧
      (v.fs.SectorIsFull v.fs.curr.sector → w.fs.SectorIsFull w.fs.curr.sector) ∧
      blankOthers v.fs = blankOthers w.fs + 1 := by
  rcases relocLoop_cases ready w (w.fs.reloc.fdIndex + 1) with ⟨j, fd, -, hg, hsec, -⟩ | ⟨m, -, he⟩
  · exact absurd hsec (hno fd (List.mem_of_getElem? hg))
  · have hv' : Victim ((w.setReloc { w.fs.reloc with fdIndex := m }).setPt .waitErase).fs :=
      ⟨hv.full, hv.notCurrent⟩
    have hexec : (Call.thread ready).exec crc (n + 1) w = some (.ran .ended,
        ((w.setReloc { w.fs.reloc with fdIndex := m }).setPt .waitErase).eraseVictim) := by
      refine exec_of_fsThread (r := (.ended, _)) ?_
      unfold fsThread fsThreadWith
      simp only [hpt]
      exact congrArg some he
    refine ⟨_, hexec, ⟨_, List.mem_cons_self, rfl⟩, Curr.setAddress_self _ _ _, fun hfull => ?_,
      blankOthers_erase hv'⟩
    unfold Fs.SectorIsFull at hfull ⊢
    exact hfull.trans_eq (Curr.setAddress_ne _ _ (Ne.symm hv.notCurrent))

/-! ## A relocation -/

/-- In `u` six sectors are full; in `w` the next one has been turned to, and a block of the victim
has been picked; in `x` it has been copied; in `v` the victim has been erased. -/
structure Tour (h : List Label) (u w x v : World) : Prop where
  full : Climb h u 4 128
  starts : u.fs.pt = .yieldStart
  turning : (sectorWrite 5).exec (fun _ => 0) (0 + 2) u.fresh = some (.wrote 0, w)
  turned : Climb (.call (sectorWrite 5) (.wrote 0) :: h) w 5 1
  picked : Copying w.fs
  copying : (Call.thread ready).exec (fun _ => 0) (0 + 2) w.fresh = some (.ran .yielded, x)
  copied : x.fs.pt = .yieldNext ∧ x.fs.reloc = w.fs.reloc ∧ x.fs.SectorIsFull w.fs.reloc.sector
  freeing : (Call.thread ready).exec (fun _ => 0) (0 + 2) x.fresh = some (.ran .ended, v)
  freed : ∃ e ∈ v.log, e.op = .erase (sectorBase w.fs.reloc.sector)
  given : v.fs.curr.address w.fs.reloc.sector = sectorBase w.fs.reloc.sector
  spare : blankOthers v.fs = 2
  room : ¬ v.fs.SectorIsFull v.fs.curr.sector

/-- The block that the write has had picked is copied by the next call of `fs_thread(0)`, and the
one after that erases the sector. -/
theorem tour : ∃ h u w x v, Tour h u w x v := by
  obtain ⟨h, u, w, hu, hstart, hexec, hc, hcopy, hget, hsec, hne⟩ := climb_picked
  have hi : Inv (fun _ => 0) w.fresh.fs w.fresh.flash := hc.inv
  have hroom : ¬ w.fresh.fs.SectorIsFull w.fresh.fs.curr.sector := hc.column.room (by omega)
  have hp := hi.steady.relocated (fun _ => 0) hcopy
  have hcopied := exec_copies (n := 1) ready hi hcopy hroom
  have hreloc : (w.fresh.relocate fun _ => 0).fs.reloc = w.fs.reloc := hp.reloc
  have hvictim := (hi.steady.copying hcopy).1
  have hv : Victim (w.fresh.relocate fun _ => 0).fs := by
    have hv := hvictim.placed hp
    exact ⟨hv.full, hv.notCurrent⟩
  -- the copy was the last block in the victim
  have hno : ∀ fd ∈ (w.fresh.relocate fun _ => 0).fs.fd,
      fd.sector ≠ (w.fresh.relocate fun _ => 0).fs.reloc.sector := by
    intro fd hm
    rw [hreloc]
    rcases hp.mem hi.index.nodup hm with ⟨hm, hk⟩ | ⟨-, hs, -⟩
    · intro he
      refine hk ?_
      rw [hc.column.keyed fd hm, he, ← hsec]
      exact (hc.column.keyed _ (List.mem_of_getElem? hget)).symm
    · rw [hs]
      exact fun he => hne (he.symm.trans hc.column.sector)
  obtain ⟨v, herases, herased, hgiven, hstill, hspare⟩ := exec_erases (fun _ => 0) (n := 1)
    (w := (w.fresh.relocate fun _ => 0).fresh) rfl hv hno
  have hfull : (w.fresh.relocate fun _ => 0).fs.SectorIsFull w.fs.reloc.sector := by
    have hfull := hv.full
    rwa [hreloc] at hfull
  refine ⟨h, u, w, _, v, hu, hstart, hexec, hc, hcopy, hcopied, ⟨rfl, hreloc, hfull⟩, herases, ?_,
    ?_, ?_, fun hf => ?_⟩
  · rw [← hreloc]
    exact herased
  · rw [← hreloc]
    exact hgiven
  · have hone : blankOthers (w.fresh.relocate fun _ => 0).fs = blankOthers w.fs := hp.blankOthers
    rw [hspare]
    show blankOthers (w.fresh.relocate fun _ => 0).fs + 1 = 2
    rw [hone, hc.column.blankOthers]
    decide
  · -- the current sector holds two blocks
    have hfull : sectorBase (w.fresh.relocate fun _ => 0).fs.curr.sector + 4096 ≤
      (w.fresh.relocate fun _ => 0).fs.curr.address (w.fresh.relocate fun _ => 0).fs.curr.sector :=
      hstill hf
    have hsector : (w.fresh.relocate fun _ => 0).fs.curr.sector = w.fresh.fs.curr.sector :=
      hp.sector
    have haddress : (w.fresh.relocate fun _ => 0).fs.curr.address w.fresh.fs.curr.sector =
      w.fresh.fs.curr.address w.fresh.fs.curr.sector + 32 := hp.address_self
    have hbase : w.fresh.fs.curr.address 5 = sectorBase 5 + 32 * 1 := hc.column.address
    rw [hsector, haddress, show w.fresh.fs.curr.sector = 5 from hc.column.sector, hbase] at hfull
    omega

section relocated
variable {h : List Label} {u w x v : World}

/-- A write to `s` that has a block picked, and the calls that copy it and erase the sector; the
last one comes first. -/
def relocationTo (s : Fin 8) : List Label := [.call (.thread ready) (.ran .ended),
  .call (.thread ready) (.ran .yielded), .call (sectorWrite s) (.wrote 0)]

theorem Tour.beforeErase (ht : Tour h u w x v) :
    Sectored (.call (.thread ready) (.ran .yielded) :: .call (sectorWrite 5) (.wrote 0) :: h) x :=
  ht.turned.sectored.call ht.copying (.thread _ _)

theorem Tour.afterErase (ht : Tour h u w x v) : Sectored (relocationTo 5 ++ h) v :=
  ht.beforeErase.call ht.freeing (.thread _ _)

/-- A boot from the flash of `w` goes on with the seventh sector; the last one is blank. -/
theorem Tour.reboot (ht : Tour h u w x v) : (coldBoot (fun _ => 0) w.flash).fs.pt = .null ∧
    blankOthers (coldBoot (fun _ => 0) w.flash).fs = 1 ∧
    ¬ (coldBoot (fun _ => 0) w.flash).fs.SectorIsFull
      (coldBoot (fun _ => 0) w.flash).fs.curr.sector := by
  have hc := ht.turned.column
  have hi := ht.turned.inv
  have hb := coldBoot_spec hi.shape hi.index.represents hi.index.fits
  have hpartial : Partial w.fs.curr w.fs.curr.sector := by
    unfold Partial filesystemSectorSize
    have haddress := hc.address
    rw [hc.sector, haddress]
    omega
  have htarget := hb.target hpartial
  have hsame : blankOthers (coldBoot (fun _ => 0) w.flash).fs = blankOthers w.fs := by
    apply blankOthers_congr
    intro s
    unfold BlankOther Fs.SectorIsBlank
    rw [hb.pointers, htarget]
  refine ⟨hb.idle, ?_, ?_⟩
  · rw [hsame, hc.blankOthers]
    decide
  · have hroom := hc.room (by omega)
    unfold Fs.SectorIsFull at hroom ⊢
    rwa [hb.pointers, htarget]

/-- The next write can be cut between two of its programs. -/
theorem Tour.cut (ht : Tour h u w x v) : ∃ f, Step (fun _ => 0) (0 + 2) (.on v)
    (.cut (sectorWrite 5)) (.off f) := by
  obtain ⟨hr, hk⟩ := ht.afterErase.fromOff
  obtain ⟨hi, hslot, -⟩ := hk.next (c := sectorWrite 5) hr (SectorKeys.write 5)
  have hi : Inv (fun _ => 0) v.fresh.fs v.fresh.flash := hi
  have hslot : HasSlot v.fresh.fs (writeBuffer (BitVec.ofNat 16 (5 : Fin 8)) 0 []).header.key :=
    hslot (by decide) ⟨_, ht.room⟩
  have hroom : ¬ v.fresh.fs.SectorIsFull v.fresh.fs.curr.sector := ht.room
  have hexec : (sectorWrite 5).exec (fun _ => 0) (0 + 2) v.fresh = some (.wrote _, _) :=
    exec_of_fsWrite (fsWriteWith_room (by decide) hroom)
  obtain ⟨e, r, -, -, -, -, he⟩ := appendBlock_eq (fun _ => 0) v.fresh
    (writeBuffer (BitVec.ofNat 16 (5 : Fin 8)) 0 []) (hi.findFd_lt hslot)
  rw [he] at hexec
  refine ⟨e.flash, .cut v _ e _ ?_ .before⟩
  rw [issued_cut hexec]
  exact List.mem_cons_of_mem _ List.mem_cons_self

end relocated

end Wormvars
