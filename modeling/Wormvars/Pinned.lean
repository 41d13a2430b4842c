import Wormvars.Wear

/-!
# Data that is not written again

`findRelocSector` takes the sector with fewest descriptors, and of the sectors there are
to choose from one has at most 50.  A sector with more than 50 descriptors of keys that
nobody writes is therefore never taken, for as long as they are not written: it is never
erased, and these descriptors stay where they are (`cold_data_pinned`).  Wear is not
leveled between data that changes and data that does not.
-/

namespace Wormvars

open NorFlash Runs

variable {crc : Block → BitVec 32} {n : Nat} {h h' : List Label} {k : List Event}

/-! ## The victim -/

section victim
variable {fs : Fs} {f : Mem} {S S' : Fin 8}

/-- The slots below `n` hold no descriptor in the victim. -/
theorem Moved.liveIn_eq (hm : Moved fs m) :
    liveIn fs fs.reloc.sector = liveFrom fs fs.reloc.sector m := by
  have hnone : (fs.fd.take m).countP (fun fd => fd.sector = fs.reloc.sector) = 0 := by
    rw [List.countP_eq_zero]
    intro x hx
    obtain ⟨i, hi⟩ := List.mem_iff_getElem?.1 hx
    rw [List.getElem?_take] at hi
    split at hi
    · next hlt => simpa using hm i x hlt hi
    · cases hi
  unfold liveIn liveFrom
  rw [← List.take_append_drop m fs.fd, List.countP_append, hnone, Nat.zero_add,
    List.take_append_drop]

theorem liveFrom_le_succ (fs : Fs) (S : Fin 8) (m : Nat) :
    liveFrom fs S m ≤ liveFrom fs S (m + 1) + 1 := by
  unfold liveFrom
  rw [← List.tail_drop]
  cases fs.fd.drop m with
  | nil => exact Nat.zero_le _
  | cons x l =>
    rw [List.countP_cons, List.tail_cons]
    split
    · exact Nat.le_refl _
    · exact Nat.le_succ _

/-- What is in the victim has still to be looked at. -/
theorem Inv.liveIn_victim (hi : Inv crc fs f) (hr : Relocating fs) :
    liveIn fs fs.reloc.sector ≤ unreached fs := by
  have ht := hi.thread
  have hpicked : Moved fs fs.reloc.fdIndex → liveIn fs fs.reloc.sector ≤ ahead fs + 1 := by
    intro hm
    rw [hm.liveIn_eq]
    exact liveFrom_le_succ _ _ _
  unfold Suspended at ht
  unfold unreached
  cases hpt : fs.pt with
  | null => exact absurd hpt hr.1
  | waitTimer => exact absurd hpt hr.2.1
  | yieldStart => exact absurd hpt hr.2.2
  | waitRead =>
    rw [hpt] at ht
    exact hpicked ht.2.1
  | yieldRead =>
    rw [hpt] at ht
    exact hpicked ht.2.1
  | yieldRetry =>
    rw [hpt] at ht
    exact hpicked ht.2.1
  | yieldNext =>
    rw [hpt] at ht
    exact Nat.le_of_eq ht.2.liveIn_eq
  | waitErase =>
    rw [hpt] at ht
    unfold liveIn
    rw [Nat.le_zero, List.countP_eq_zero]
    intro x hx
    simpa using ht.2 x hx

/-- A sector with more than 50 descriptors. -/
structure Crammed (fs : Fs) (S : Fin 8) : Prop where
  many : 50 < liveIn fs S
  reach : unreached fs ≤ 50

theorem Crammed.not_victim (hc : Crammed fs S) (hi : Inv crc fs f) (hr : Relocating fs) :
    fs.reloc.sector ≠ S := by
  rintro rfl
  have h₁ := hi.liveIn_victim hr
  have h₂ := hc.many
  have h₃ := hc.reach
  omega

theorem Crammed.not_entered (hc : Crammed fs S) (hi : Inv crc fs f) {m : Nat}
    (he : Enters fs S' m) : S' ≠ S := by
  cases he with
  | choose _ _ _ _ _ hl =>
    rintro rfl
    have := hc.many
    omega
  | next hpt => exact hc.not_victim hi (by simp [Relocating, hpt])

/-- There is no descriptor in a blank sector. -/
theorem Crammed.not_blank (hc : Crammed fs S) (hi : Inv crc fs f) : ¬ fs.SectorIsBlank S := by
  intro hb
  have hpos : 0 < fs.fd.countP fun fd => fd.sector = S :=
    Nat.lt_of_le_of_lt (Nat.zero_le 50) hc.many
  obtain ⟨fd, hm, hs⟩ := List.countP_pos_iff.1 hpos
  have hin := hi.index.sector fd hm
  have hlt := hi.shape.below_of_copy hin (hi.index.copy hm)
  have hlo := hin.1
  obtain rfl : fd.sector = S := by simpa using hs
  unfold Fs.SectorIsBlank at hb
  omega

end victim

theorem sectorBase_injective : Function.Injective sectorBase := by decide

theorem Limits.of_append (hl : Limits (h' ++ h)) : Limits h := by
  induction h' with
  | nil => exact hl
  | cons l h' ih => exact ih hl.tail

/-- Before the next step of a run, in which power may have failed. -/
theorem Limits.before {w : World} {l : Label} (hr : Run (Step crc (n + 2)) (.off erased) h (.on w))
    (hl : Limits (l :: h)) : Inv crc w.fs w.flash ∧ SlotFree (.on w) l := by
  obtain ⟨-, S, -, hsound, hpassed⟩ := hl.tail.reaches hr (sound_erased crc)
  exact ⟨hsound.2.1, hl.slotFree hsound hpassed⟩

/-- There are at most 50 descriptors for `fs_thread` to look at. -/
theorem reachable_unreached {s : Sys} (hr : Run (Step crc (n + 2)) (.off erased) h s)
    (hl : Limits h) : ∀ w, s = .on w → unreached w.fs ≤ 50 := by
  induction hr with
  | refl =>
    intro w hw
    cases hw
  | step hr hst ih =>
    rintro w' rfl
    cases hst with
    | call w c r _ he =>
      obtain ⟨hi, hslot⟩ := hl.before hr
      have hreach := (hi.exec_spent hslot he).1.reach
      have hw := ih hl.tail w rfl
      exact hreach.trans (Nat.max_le.2 ⟨hw, Nat.le_refl 50⟩)
    | boot s =>
      obtain ⟨-, S, -, hsound, -⟩ := hl.tail.reaches hr (sound_erased crc)
      obtain ⟨curr, -, hb⟩ := hsound.recoverable.2.booted
      exact Nat.le_of_eq (unreached_start (Or.inl hb.idle))

/-! ## One call -/

theorem Placed.mem_other {key : Key} {fs fs' : Fs} (hp : Placed key fs fs') {fd : FileDescriptor}
    (hm : fd ∈ fs.fd) (hk : fd.header.key ≠ key) : fd ∈ fs'.fd := by
  obtain ⟨j, hj⟩ := List.mem_iff_getElem?.1 hm
  exact List.mem_of_getElem? (hp.get_other hj hk)

/-- A piece of the log that counts no erase holds none. -/
theorem Logged.no_erase {Q : Event → Prop} {u v : World} (hl : Logged Q u v)
    (he : erases v.log = erases u.log) : ∀ e ∈ v.log, e ∈ u.log ∨ ∀ a, e.op ≠ .erase a := by
  obtain ⟨k, hk, -⟩ := hl
  have hnone : k.countP (fun e => e.op.isErase) = 0 := by
    unfold erases at he
    rw [hk, List.countP_append] at he
    omega
  intro e hm
  rw [hk, List.mem_append] at hm
  rcases hm with hm | hm
  · right
    rintro a hop
    have := List.countP_eq_zero.1 hnone e hm
    rw [hop] at this
    exact this rfl
  · exact Or.inl hm

/-- The descriptors in `S` whose key satisfies `P` stay, and `S` is not erased. -/
structure Stays (P : Key → Prop) (S : Fin 8) (w w' : World) : Prop where
  fds : ∀ fd ∈ w.fs.fd, fd.sector = S → P fd.header.key → fd ∈ w'.fs.fd
  ops : ∀ e ∈ w'.log, e ∈ w.log ∨ e.op ≠ .erase (sectorBase S)

namespace Stays
variable {P : Key → Prop} {S : Fin 8} {u v w w' : World}

theorem trans (h : Stays P S u v) (h' : Stays P S v w) : Stays P S u w where
  fds fd hm hs hP := h'.fds fd (h.fds fd hm hs hP) hs hP
  ops e he := (h'.ops e he).elim (h.ops e) Or.inr

theorem of_fd (hfd : w'.fs.fd = w.fs.fd) (hl : w'.log = w.log) : Stays P S w w' :=
  ⟨fun _ hm _ _ => hfd ▸ hm, fun _ he => Or.inl (hl ▸ he)⟩

theorem returns (w : World) (r : Int) : Stays P S w (w.returns r).2 where
  fds _ hm _ _ := hm
  ops e he := by
    rcases List.mem_cons.1 he with rfl | he
    · exact Or.inr (by simp)
    · exact Or.inl he

/-- A block of another key is appended. -/
theorem append {buffer : Block} (hi : findFd w.fs.fd buffer.header < fdMax)
    (hk : ∀ fd ∈ w.fs.fd, fd.sector = S → P fd.header.key → fd.header.key ≠ buffer.header.key) :
    Stays P S w (appendBlock crc w buffer).2 := by
  obtain ⟨-, hp, hl⟩ := appendBlock_placed crc w buffer hi
  refine ⟨fun fd hm hs hP => hp.mem_other hm (hk fd hm hs hP), fun e he => ?_⟩
  exact (hl.no_erase (appendBlock_erases hi crc) e he).imp_right fun h => h _

/-- A block that is copied out of another sector. -/
theorem relocate (hi : Inv crc w.fs w.flash) (hc : Carries w.fs w.flash)
    (hk : ∀ fd ∈ w.fs.fd, fd.sector = S → P fd.header.key →
      fd.header.key ≠ w.fs.reloc.fd.header.key) : Stays P S w (w.relocate crc) := by
  have happ : Stays P S w (appendBlock crc w (relocBlock w.fs.reloc)).2 := by
    refine append (hi.findFd_lt hc.hasSlot) ?_
    rw [relocBlock_key]
    exact hk
  exact happ.trans (of_fd rfl rfl)

theorem erase (h : w.fs.reloc.sector ≠ S) : Stays P S w w.eraseVictim where
  fds _ hm _ _ := hm
  ops e he := by
    rcases List.mem_cons.1 he with rfl | he
    · right
      intro hop
      exact h (sectorBase_injective (Op.erase.inj hop))
    · exact Or.inl he

end Stays

section calls
variable {P : Key → Prop} {S : Fin 8} {w : World} {ans : Answers} {flag : Bool}

theorem relocRead_stays (r : Reloc) : Stays P S w (relocRead ans (w.setReloc r)).2 := by
  unfold relocRead
  simp only
  split
  · exact .of_fd rfl rfl
  · exact .of_fd rfl rfl

theorem relocErase_stays (r : Reloc) (h : r.sector ≠ S) :
    Stays P S w (relocErase ans (w.setReloc r)).2 := by
  rw [relocErase_eq]
  split
  · have hw : Stays P S w ((w.setReloc r).setPt .waitErase) := .of_fd rfl rfl
    exact hw.trans (.erase h)
  · exact .of_fd rfl rfl

/-- What `fs_thread` holds has been read from the victim. -/
theorem Inv.held_key (hi : Inv crc w.fs w.flash) (hc : Crammed w.fs S) (hpt : w.fs.pt = .yieldRead)
    {fd : FileDescriptor} (hg : w.fs.fd[w.fs.reloc.fdIndex]? = some fd)
    (ha : fd.address = w.fs.reloc.fd.address) :
    ∀ x ∈ w.fs.fd, x.sector = S → P x.header.key →
      x.header.key ≠ w.fs.reloc.fd.header.key := by
  obtain ⟨-, -, ⟨fd', hpk⟩, -⟩ := hi.picked (Or.inl hpt)
  obtain rfl := Option.some.inj (hg.symm.trans hpk.get)
  have hm := List.mem_of_getElem? hg
  have hin := hpk.inVictim
  rw [← ha] at hin
  have hsec : fd.sector = w.fs.reloc.sector := (hi.index.sector fd hm).unique hin
  intro x hx hS _ hk
  obtain rfl : x = fd := eq_of_key hi.index.nodup hx hm (hk.trans hpk.key.symm)
  exact hc.not_victim hi (by simp [Relocating, hpt]) (hsec.symm.trans hS)

theorem Phase.stays {r : PtCode × World} (h : Phase crc ans flag w r) (hi : Inv crc w.fs w.flash)
    (hc : Crammed w.fs S) : Stays P S w r.2 := by
  cases h with
  | timer =>
    split
    · exact .of_fd rfl rfl
    · exact .of_fd rfl rfl
  | idle => exact .of_fd rfl rfl
  | found S' m j fd => exact relocRead_stays _
  | behind S' m m' he => exact relocErase_stays _ (hc.not_entered hi he)
  | read => exact relocRead_stays w.fs.reloc
  | erase hpt =>
    exact relocErase_stays w.fs.reloc (hc.not_victim hi (by simp [Relocating, hpt]))
  | passed => exact .of_fd rfl rfl
  | copied fd hpt hg ha _ =>
    exact Stays.relocate hi (hi.carries hpt hg ha) (hi.held_key hc hpt hg ha)
  | retried =>
    have hr : Stays P S (w.returns (-2)).2 ((w.returns (-2)).2.setPt .yieldRetry) := .of_fd rfl rfl
    exact (Stays.returns w (-2)).trans hr
  | switched fd s hpt hg ha hfull hs =>
    have hcar := hi.carries hpt hg ha
    have hkey := hi.held_key (P := P) hc hpt hg ha
    obtain ⟨hi₂, -, -, hc₂⟩ := relocate_inner hi hfull hs hcar
    have hi₁ := (hi.setSector hfull hs).1
    have hc₁ := hcar.setSector hs
    have hp := relocate_placed hi₁ hc₁
    have hne : s ≠ w.fs.curr.sector := by
      rintro rfl
      exact hs hfull
    have hsS : s ≠ S := by
      rintro rfl
      exact hc.not_blank hi (blank_of_not_full hi.shape hne hs)
    have hsw : Stays P S w (w.setSector s) := .of_fd rfl rfl
    -- the first copy lies in the sector that was blank
    have hkey₂ : ∀ x ∈ ((w.setSector s).relocate crc).fs.fd, x.sector = S → P x.header.key →
        x.header.key ≠ ((w.setSector s).relocate crc).fs.reloc.fd.header.key := by
      intro x hx hS _
      have hreloc : ((w.setSector s).relocate crc).fs.reloc = w.fs.reloc := hp.reloc
      rw [hreloc]
      rcases hp.mem hi₁.index.nodup hx with ⟨-, hk⟩ | ⟨-, hsec, -⟩
      · exact hk
      · exact absurd (hsec.symm.trans hS) hsS
    exact (hsw.trans (.relocate hi₁ hc₁ hkey)).trans (.relocate hi₂ hc₂ hkey₂)

/-- A write of a key that does not satisfy `P`. -/
theorem WritePhase.stays {name : BitVec 16} {ext : BitVec 8} {data : List Byte} {r : Int × World}
    (h : WritePhase crc ans w name ext data r) (hi : Inv crc w.fs w.flash)
    (hc : Crammed w.fs S) (hP : ¬ P (name, ext.setWidth 3)) : Stays P S w r.2 := by
  have hkey : ∀ v : World, ∀ fd ∈ v.fs.fd, fd.sector = S → P fd.header.key →
      fd.header.key ≠ (writeBuffer name ext data).header.key := by
    rintro v fd - - hfd hk
    rw [hk] at hfd
    exact hP hfd
  cases h with
  | tooLong => exact Stays.returns w (-1)
  | allFull => exact Stays.returns w (-2)
  | room _ _ hslot =>
    exact Stays.append (hi.findFd_lt (h := (writeBuffer name ext data).header) hslot) (hkey w)
  | switched s c v _ hfull hs hph hv _ hslot =>
    have hsw : Stays P S w (w.setSector s) := .of_fd rfl rfl
    have hnested : Stays P S (w.setSector s) v :=
      hph.stays (hi.setSector hfull hs).1 ⟨hc.many, hc.reach⟩
    exact (hsw.trans hnested).trans
      (.append (hv.findFd_lt (h := (writeBuffer name ext data).header) hslot) (hkey v))

end calls

/-! ## Runs -/

section runs
variable {P : Key → Prop} {S : Fin 8} {w : World} {l : Label} {t : Sys}

/-- A step that writes no key that satisfies `P`. -/
theorem Crammed.step (hc : Crammed w.fs S) (hi : Inv crc w.fs w.flash) (hl : l.Whole)
    (hslot : SlotFree (.on w) l) (hcold : ∀ p ∈ passed [l], ¬ P (p.1, p.2.setWidth 3))
    (hst : Step crc (n + 2) (.on w) l t) :
    ∃ w', t = .on w' ∧ (∀ fd ∈ w.fs.fd, fd.sector = S → P fd.header.key → fd ∈ w'.fs.fd) ∧
      ∀ e ∈ issued crc (n + 2) (.on w) l, e.op ≠ .erase (sectorBase S) := by
  cases hst with
  | call _ c r w' he =>
    have hstays : Stays P S w.fresh w' := by
      cases c with
      | read name ext len =>
        cases he
        exact .of_fd rfl rfl
      | thread ans =>
        obtain ⟨v, hv, hp⟩ := fsThread_phase (w := w.fresh) hi ans false n
        rw [exec_of_fsThread hv] at he
        cases he
        exact hp.stays hi hc
      | write name ext data ans =>
        obtain ⟨v, hv, hp⟩ := fsWrite_phase (w := w.fresh) hi ans (n + 1) hslot
        rw [exec_of_fsWrite hv] at he
        cases he
        exact hp.stays hi hc (hcold (name, ext) List.mem_cons_self)
    refine ⟨w', rfl, hstays.fds, fun e hm => ?_⟩
    unfold issued at hm
    simp only [he] at hm
    exact (hstays.ops e hm).resolve_left fun h => by cases h
  | cut => exact hl.elim
  | boot =>
    obtain ⟨-, hlog, -, hperm⟩ := hi.rebooted
    refine ⟨_, rfl, fun fd hm _ _ => hperm.mem_iff.2 hm, fun e hm => ?_⟩
    have hm' : e ∈ (coldBoot crc w.flash).log := hm
    rw [hlog] at hm'
    cases hm'
  | bootCut => exact hl.elim

end runs

/-! ## Fifty-one keys in one sector -/

def numbered (i : Nat) : Label := .call (.write (BitVec.ofNat 16 i) 0 [] ready) (.wrote 0)

def numberedKey (i : Nat) : Key := (BitVec.ofNat 16 i, 0)

/-- The keys with the numbers below `m` have been written to a sector that was blank. -/
structure Numbered (h : List Label) (w : World) (m : Nat) : Prop where
  run : Run (Step (fun _ => 0) (0 + 2)) (.off erased) h (.on w)
  passed : passed h = ((List.range m).map fun i => (BitVec.ofNat 16 i, 0)).reverse
  keys : keys w.fs = (List.range m).map numberedKey
  address : w.fs.curr.address w.fs.curr.sector = sectorBase w.fs.curr.sector + 32 * m
  many : m ≤ keysIn (fun key => key.1 ≠ 1000) w.fs w.fs.curr.sector

theorem Numbered.limits {w : World} {m : Nat} (hn : Numbered h w m) (hm : m ≤ 300) : Limits h where
  ext q hq := by
    rw [hn.passed, List.mem_reverse] at hq
    obtain ⟨i, -, rfl⟩ := List.mem_map.1 hq
    show (0 : BitVec 8).toNat < 8
    decide
  keys := by
    have hle := (List.dedup_sublist (Wormvars.passed h)).length_le
    rw [hn.passed, List.length_reverse, List.length_map, List.length_range] at hle
    rw [hn.passed]
    exact hle.trans hm

theorem Numbered.next {w : World} {m : Nat} (hn : Numbered h w m) (hm : m < 128) :
    ∃ w', Numbered (numbered m :: h) w' (m + 1) := by
  have hw : Inv (fun _ => 0) w.fs w.flash := reachable_inv hn.run (hn.limits (by omega))
  have hi : Inv (fun _ => 0) w.fresh.fs w.fresh.flash := hw
  have hroom : ¬ w.fresh.fs.SectorIsFull w.fresh.fs.curr.sector := by
    have := hn.address
    unfold Fs.SectorIsFull filesystemSectorSize
    show ¬ sectorBase w.fs.curr.sector + 4096 ≤ w.fs.curr.address w.fs.curr.sector
    omega
  have hnew : numberedKey m ∉ Wormvars.keys w.fs := by
    rw [hn.keys, List.mem_map]
    rintro ⟨i, hi, he⟩
    have hlt := List.mem_range.1 hi
    have := congrArg BitVec.toNat (Prod.mk.inj he).1
    rw [BitVec.toNat_ofNat, BitVec.toNat_ofNat] at this
    omega
  have hslot : HasSlot w.fresh.fs (BitVec.ofNat 16 m, (0 : BitVec 8).setWidth 3) := by
    right
    have hlen := congrArg List.length hn.keys
    unfold Wormvars.keys at hlen
    rw [List.length_map, List.length_map, List.length_range] at hlen
    show w.fs.fd.length < 300
    omega
  have hp := append_placed [] hi hslot
  have hexec : (Call.write (BitVec.ofNat 16 m) 0 [] ready).exec (fun _ => 0) (0 + 2) w.fresh =
      some (.wrote 0,
        (appendBlock (fun _ => 0) w.fresh (writeBuffer (BitVec.ofNat 16 m) 0 [])).2) := by
    have hfs : fsWrite (fun _ => 0) ready (0 + 2) w.fresh (BitVec.ofNat 16 m) 0 [] =
        some (appendBlock (fun _ => 0) w.fresh (writeBuffer (BitVec.ofNat 16 m) 0 [])) :=
      fsWriteWith_room (by decide) hroom
    rw [append_returns hi hslot] at hfs
    exact exec_of_fsWrite hfs
  have hP : (numberedKey m).1 ≠ 1000 := by
    intro he
    have := congrArg BitVec.toNat he
    rw [show (numberedKey m).1 = BitVec.ofNat 16 m from rfl, BitVec.toNat_ofNat] at this
    simp at this
    omega
  refine ⟨_, hn.run.step (.call w _ _ _ hexec), ?_, ?_, ?_, ?_⟩
  · rw [List.range_succ, List.map_append, List.reverse_append, ← hn.passed]
    rfl
  · have hkeys := hp.keys
    rw [if_neg (show (BitVec.ofNat 16 m, (0 : BitVec 8).setWidth 3) ∉ Wormvars.keys w.fresh.fs
      from hnew)] at hkeys
    rw [hkeys, List.range_succ, List.map_append]
    exact congrArg (· ++ _) hn.keys
  · rw [hp.sector, hp.address_self, Nat.mul_succ, ← Nat.add_assoc]
    exact congrArg (· + 32) hn.address
  · obtain ⟨hone, -⟩ := hp.keysIn_new (P := fun key => key.1 ≠ 1000) hnew hP
    rw [hp.sector, hone]
    exact Nat.succ_le_succ hn.many

end Wormvars
