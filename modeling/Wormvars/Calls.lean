import Wormvars.Relocation

/-!
# `fs_thread` and `fs_write` as a whole

Every call of `fs_thread` returns, keeps the invariant and changes no contents
(`fsThread_spec`).  A call of `fs_write` returns `-1` or `-2` and does nothing,
or returns `0` and writes its key (`fsWrite_spec`).

The recursion `fs_write → updateSector → fs_thread(1) → fs_write` is at most that
deep: `updateSector` calls `fs_thread` only when it has just made a blank sector
the current one, and with room in the current sector `fs_write` does not get to
`fs_thread` (`fsWriteWith_room`).
-/

namespace Wormvars

open NorFlash NewerLog

variable {crc : Block → BitVec 32}

/-! ## `fs_write` -/

theorem nextNotFull_some {fs : Fs} {n : Nat} {s t : Fin 8} (h : nextNotFull fs n s = some t) :
    ¬ fs.SectorIsFull t := by
  induction n generalizing s with
  | zero => cases h
  | succ n ih =>
    unfold nextNotFull at h
    simp only at h
    split at h
    · next hs =>
      obtain rfl := Option.some.inj h
      exact hs
    · split at h
      · exact ih h
      · cases h

/-- The loop that finds nothing has seen every sector up to the current one. -/
theorem nextNotFull_none {fs : Fs} {n : Nat} {s : Fin 8} (h : nextNotFull fs n s = none) (i : Nat)
    (hi : i < n) (hbef : ∀ j < i, s + 1 + Fin.ofNat 8 j ≠ fs.curr.sector) :
    fs.SectorIsFull (s + 1 + Fin.ofNat 8 i) := by
  induction n generalizing s i with
  | zero => omega
  | succ n ih =>
    unfold nextNotFull at h
    simp only at h
    split at h
    · cases h
    · next hfull =>
      have h0 : ∀ t : Fin 8, t + Fin.ofNat 8 0 = t := by decide
      have hsucc : ∀ (t : Fin 8) (j : Nat), t + Fin.ofNat 8 (j + 1) = t + 1 + Fin.ofNat 8 j := by
        intro t j
        apply Fin.ext
        simp only [Fin.val_add, Fin.val_ofNat, Fin.val_one]
        omega
      cases i with
      | zero => rw [h0]; exact not_not.1 hfull
      | succ i =>
        split at h
        · rw [hsucc]
          refine ih h i (by omega) fun j hj => ?_
          rw [← hsucc]
          exact hbef (j + 1) (by omega)
        · next hc =>
          have := hbef 0 (by omega)
          rw [h0] at this
          exact absurd this hc

theorem all_full_of_none {fs : Fs} (h : nextNotFull fs 8 fs.curr.sector = none) (s : Fin 8) :
    fs.SectorIsFull s := by
  have hs : fs.curr.sector + 1 + Fin.ofNat 8 (s - fs.curr.sector - 1).val = s := by
    generalize fs.curr.sector = c
    revert c s
    decide
  rw [← hs]
  refine nextNotFull_none h _ (by omega) fun j hj he => ?_
  -- the current sector is the last one seen
  have hlast : ∀ (c : Fin 8) (j : Nat), j < 7 → c + 1 + Fin.ofNat 8 j ≠ c := by
    intro c j hj he
    have := congrArg Fin.val he
    simp only [Fin.val_add, Fin.val_ofNat, Fin.val_one] at this
    omega
  exact hlast _ j (by omega) he

section write
variable {thread : World → Option World} {w : World} {name : BitVec 16} {ext : BitVec 8}
  {data : List Byte}

theorem fsWriteWith_tooLong (h : 28 < data.length) :
    fsWriteWith crc thread w name ext data = some (w.returns (-1)) := by
  unfold fsWriteWith
  exact if_pos h

/-- With room in the current sector `fs_thread` is not called. -/
theorem fsWriteWith_room (hlen : data.length ≤ 28) (hroom : ¬ w.fs.SectorIsFull w.fs.curr.sector) :
    fsWriteWith crc thread w name ext data =
      some (appendBlock crc w (writeBuffer name ext data)) := by
  unfold fsWriteWith updateSectorWith
  rw [if_neg (by unfold fsBlockSize; omega), if_neg hroom]
  simp

theorem fsWriteWith_allFull (hlen : data.length ≤ 28) (hfull : ∀ s, w.fs.SectorIsFull s) :
    fsWriteWith crc thread w name ext data = some (w.returns (-2)) := by
  have hnone : nextNotFull w.fs 8 w.fs.curr.sector = none := by
    cases h : nextNotFull w.fs 8 w.fs.curr.sector with
    | none => rfl
    | some t => exact absurd (hfull t) (nextNotFull_some h)
  unfold fsWriteWith updateSectorWith
  rw [if_neg (by unfold fsBlockSize; omega), if_pos (hfull _), hnone]
  simp

/-- A full sector is left for a blank one, `fs_thread(1)` runs before the block is written. -/
theorem fsWriteWith_switch (crc : Block → BitVec 32) (thread : World → Option World)
    (name : BitVec 16) (ext : BitVec 8) {data : List Byte} (hlen : data.length ≤ 28)
    (hfull : w.fs.SectorIsFull w.fs.curr.sector) (hsome : ∃ s, ¬ w.fs.SectorIsFull s) :
    ∃ s, ¬ w.fs.SectorIsFull s ∧ ∀ v, thread (w.setSector s) = some v →
      fsWriteWith crc thread w name ext data =
        some (appendBlock crc v (writeBuffer name ext data)) := by
  cases h : nextNotFull w.fs 8 w.fs.curr.sector with
  | none =>
    obtain ⟨s, hs⟩ := hsome
    exact absurd (all_full_of_none h s) hs
  | some s =>
    refine ⟨s, nextNotFull_some h, fun v hv => ?_⟩
    unfold fsWriteWith updateSectorWith
    rw [if_neg (by unfold fsBlockSize; omega), if_pos hfull, h]
    simp [hv]

end write

/-! ## One call of `fs_thread` -/

/-- What a call does about the victim: descriptors come into the current sector only, and a
victim stays the victim until it is erased. -/
structure Spared (w w' : World) : Prop where
  fds : ∀ fd ∈ w'.fs.fd, fd ∈ w.fs.fd ∨ fd.sector = w'.fs.curr.sector
  victim : Relocating w.fs → (Relocating w'.fs ∧ w'.fs.reloc.sector = w.fs.reloc.sector) ∨
    ∃ e ∈ w'.log, e.op = .erase (sectorBase w.fs.reloc.sector)

theorem Spared.trans {P : Event → Prop} {u v w : World} (h : Spared u v) (h' : Spared v w)
    (hs : w.fs.curr.sector = v.fs.curr.sector) (hl : Logged P v w) : Spared u w where
  fds fd hm := by
    rcases h'.fds fd hm with hm | hm
    · rw [hs]
      exact h.fds fd hm
    · exact Or.inr hm
  victim hr := by
    rcases h.victim hr with ⟨hr', he⟩ | ⟨e, hm, he⟩
    · rw [← he]
      exact h'.victim hr'
    · exact Or.inr ⟨e, hl.subset hm, he⟩

/-- An appended block. -/
theorem Placed.spared {k : Key} {w w' : World} (hp : Placed k w.fs w'.fs)
    (hnd : (Wormvars.keys w.fs).Nodup) : Spared w w' where
  fds fd hm := by
    rcases hp.mem hnd hm with ⟨hm, -⟩ | ⟨-, hsec, -⟩
    · exact Or.inl hm
    · exact Or.inr (hsec.trans hp.sector.symm)
  victim hr := by
    left
    unfold Relocating at hr ⊢
    rw [hp.pt, hp.reloc]
    exact ⟨hr, rfl⟩

/-- A call that leaves the current sector where it is and takes at most one cell of it. -/
structure Served (crc : Block → BitVec 32) (w w' : World) : Prop where
  moves : ∃ n, n ≤ 1 ∧ Moves crc n w w'
  spared : Spared w w'
  sector : w'.fs.curr.sector = w.fs.curr.sector
  address : w'.fs.curr.address w.fs.curr.sector ≤ w.fs.curr.address w.fs.curr.sector + 32

theorem Served.inv {w w' : World} (h : Served crc w w') (hi : Inv crc w.fs w.flash) :
    Inv crc w'.fs w'.flash := by
  obtain ⟨n, -, hm⟩ := h.moves
  exact (hm.spec hi).1

theorem Served.resume (w : World) (reloc : Reloc) (pt : PtLabel)
    (hs : Suspended { w.fs with reloc := reloc, pt := pt })
    (hb : Buffered { w.fs with reloc := reloc, pt := pt } w.flash)
    (hk : Relocating w.fs → Relocating { w.fs with reloc := reloc, pt := pt } ∧
      reloc.sector = w.fs.reloc.sector) :
    Served crc w ((w.setReloc reloc).setPt pt) :=
  ⟨⟨0, Nat.zero_le 1, (Move.resume w reloc pt hs hb hk).moves⟩,
    ⟨fun _ hm => Or.inl hm, fun h => Or.inl (hk h)⟩, rfl, Nat.le_add_right (w.fs.curr.address w.fs.curr.sector) 32⟩

section thread
variable {w : World} (ans : Answers)

theorem relocRead_served (r : Reloc) (hv : Victim { w.fs with reloc := r })
    (hm : Moved { w.fs with reloc := r } r.fdIndex)
    (hp : ∃ fd, Picked { w.fs with reloc := r } fd)
    (hk : Relocating w.fs → r.sector = w.fs.reloc.sector) :
    Served crc w (relocRead ans (w.setReloc r)).2 := by
  unfold relocRead
  obtain ⟨fd, hp⟩ := hp
  simp only
  split
  · refine Served.resume w { r with buffer := flashRead w.flash r.fd.address } .yieldRead ?_ ?_
      fun h => ⟨by simp [Relocating], hk h⟩
    · exact ⟨⟨hv.full, hv.notCurrent⟩, hm, fd, hp.get, hp.key, hp.inVictim, hp.stays⟩
    · intro _ x _ hx
      exact congrArg (fun a => (flashRead w.flash a).data) hx.symm
  · refine Served.resume w r .waitRead ?_ ?_ fun h => ⟨by simp [Relocating], hk h⟩
    · exact ⟨⟨hv.full, hv.notCurrent⟩, hm, fd, hp.get, hp.key, hp.inVictim, hp.stays⟩
    · intro h
      rcases h with h | h <;> cases h

theorem relocErase_served (r : Reloc) (hv : Victim { w.fs with reloc := r })
    (hno : ∀ fd ∈ w.fs.fd, fd.sector ≠ r.sector)
    (hk : Relocating w.fs → r.sector = w.fs.reloc.sector) :
    Served crc w (relocErase ans (w.setReloc r)).2 := by
  have hw : Served crc w ((w.setReloc r).setPt .waitErase) :=
    Served.resume w r .waitErase ⟨⟨hv.full, hv.notCurrent⟩, hno⟩
      (fun h => by rcases h with h | h <;> cases h) fun h => ⟨by simp [Relocating], hk h⟩
  rw [relocErase_eq]
  split
  · have hv' : Victim ((w.setReloc r).setPt .waitErase).fs := ⟨hv.full, hv.notCurrent⟩
    obtain ⟨n, hn, hmoves⟩ := hw.moves
    refine ⟨⟨n, hn, hmoves.tail (.erase _ hv' hno)⟩, ⟨fun _ hm => Or.inl hm, fun h => Or.inr ?_⟩,
      rfl, ?_⟩
    · rw [← hk h]
      exact ⟨_, List.mem_cons_self, rfl⟩
    show (w.fs.curr.setAddress r.sector (sectorBase r.sector)).address w.fs.curr.sector ≤ _
    rw [Curr.setAddress_ne _ _ (Ne.symm hv.notCurrent)]
    exact Nat.le_add_right _ 32
  · exact hw

/-- The loop over the descriptors from slot `n` on. -/
theorem relocLoop_served (hi : Inv crc w.fs w.flash) (S : Fin 8) (n : Nat)
    (hv : Victim { w.fs with reloc := { w.fs.reloc with sector := S } })
    (hm : Moved { w.fs with reloc := { w.fs.reloc with sector := S } } n)
    (hk : Relocating w.fs → S = w.fs.reloc.sector) :
    Served crc w (relocLoop ans (w.fs.fd.drop n)
      (w.setReloc { w.fs.reloc with sector := S, fdIndex := n })).2 := by
  rcases relocLoop_cases ans (w.setReloc { w.fs.reloc with sector := S }) n with
    ⟨j, fd, hj, hg, hsec, hbef, he⟩ | ⟨m, hall, he⟩
  · refine Eq.mpr (congrArg (fun x => Served crc w x.2) he) ?_
    refine relocRead_served ans { w.fs.reloc with sector := S, fd := fd, fdIndex := j }
      ⟨hv.full, hv.notCurrent⟩ ?_ ⟨fd, hg, rfl, ?_, Or.inl rfl⟩ hk
    · intro i x h₁ hx
      by_cases hin : i < n
      · exact hm i x hin hx
      · exact hbef i x (by omega) h₁ hx
    · show InSector S fd.address
      rw [← show fd.sector = S from hsec]
      exact hi.index.sector fd (List.mem_of_getElem? hg)
  · refine Eq.mpr (congrArg (fun x => Served crc w x.2) he) ?_
    refine relocErase_served ans { w.fs.reloc with sector := S, fdIndex := m }
      ⟨hv.full, hv.notCurrent⟩ ?_ hk
    intro x hx
    obtain ⟨i, hxi⟩ := List.mem_iff_getElem?.1 hx
    by_cases hin : i < n
    · exact hm i x hin hxi
    · exact hall i x (by omega) hxi

end thread

section step
variable {w : World} (write : World → BitVec 16 → BitVec 8 → List Byte → Option (Int × World))
  (ans : Answers) (flag : Bool)

omit write ans flag in
/-- The thread is not relocating and stays so. -/
theorem idle_served (hidle : ¬ Relocating w.fs) (pt : PtLabel)
    (hpt : pt = .null ∨ pt = .waitTimer ∨ pt = .yieldStart) : Served crc w (w.setPt pt) := by
  refine Served.resume w w.fs.reloc pt ?_ (fun h => ?_) fun h => absurd h hidle
  · rcases hpt with rfl | rfl | rfl <;> trivial
  · rcases hpt with rfl | rfl | rfl <;> rcases h with h | h <;> cases h

/-- At a label that does not lead to `fs_write`. -/
theorem fsThreadWith_served (hi : Inv crc w.fs w.flash) (h₁ : w.fs.pt ≠ .yieldRead)
    (h₂ : w.fs.pt ≠ .yieldRetry) :
    ∃ c w', fsThreadWith write ans flag w = some (c, w') ∧ Served crc w w' := by
  have ht := hi.thread
  unfold Suspended at ht
  unfold fsThreadWith
  cases hpt : w.fs.pt with
  | null =>
    have hidle : ¬ Relocating w.fs := fun h => h.1 hpt
    simp only
    split
    · exact ⟨_, _, rfl, idle_served hidle .yieldStart (by simp)⟩
    · exact ⟨_, _, rfl, idle_served hidle .waitTimer (by simp)⟩
  | waitTimer =>
    have hidle : ¬ Relocating w.fs := fun h => h.2.1 hpt
    simp only
    split
    · exact ⟨_, _, rfl, idle_served hidle .yieldStart (by simp)⟩
    · exact ⟨_, _, rfl, idle_served hidle .waitTimer (by simp)⟩
  | yieldStart =>
    have hidle : ¬ Relocating w.fs := fun h => h.2.2 hpt
    simp only
    cases hS : findRelocSector w.fs with
    | none => exact ⟨_, _, rfl, idle_served hidle .null (by simp)⟩
    | some S =>
      obtain ⟨hc, -⟩ := chosen_of_findRelocSector hi.shape hi.index hS
      exact ⟨_, _, rfl, relocLoop_served ans hi S 0 ⟨hc.full.2, hc.full.1⟩
        (fun j x hj => absurd hj (Nat.not_lt_zero j)) fun h => absurd h hidle⟩
  | waitRead =>
    rw [hpt] at ht
    exact ⟨_, _, rfl, relocRead_served ans w.fs.reloc ht.1 ht.2.1 ht.2.2 fun _ => rfl⟩
  | yieldRead => exact absurd hpt h₁
  | yieldRetry => exact absurd hpt h₂
  | yieldNext =>
    rw [hpt] at ht
    exact ⟨_, _, rfl, relocLoop_served ans hi w.fs.reloc.sector (w.fs.reloc.fdIndex + 1) ht.1 ht.2
      fun _ => rfl⟩
  | waitErase =>
    rw [hpt] at ht
    exact ⟨_, _, rfl, relocErase_served ans w.fs.reloc ht.1 ht.2 fun _ => rfl⟩

/-- After the block was read: it is handed to `fs_write` if its descriptor is still where it
was. -/
theorem fsThreadWith_yieldRead (hpt : w.fs.pt = .yieldRead) {fd : FileDescriptor}
    (hg : w.fs.fd[w.fs.reloc.fdIndex]? = some fd) :
    fsThreadWith write ans flag w =
      if fd.address = w.fs.reloc.fd.address then relocWrite write w
      else some (.yielded, w.setPt .yieldNext) := by
  unfold fsThreadWith
  simp only [hpt, hg]

theorem fsThreadWith_yieldRetry (hpt : w.fs.pt = .yieldRetry) :
    fsThreadWith write ans flag w = relocWrite write w := by
  unfold fsThreadWith
  simp only [hpt]

omit write ans flag in
/-- The descriptor has been written since its block was read. -/
theorem passed_served (hv : Victim w.fs) (hm : Moved w.fs w.fs.reloc.fdIndex)
    {fd : FileDescriptor} (hpk : Picked w.fs fd) (ha : fd.address ≠ w.fs.reloc.fd.address) :
    Served crc w (w.setPt .yieldNext) := by
  refine Served.resume w w.fs.reloc .yieldNext ⟨⟨hv.full, hv.notCurrent⟩, ?_⟩ (fun h => ?_)
    fun _ => ⟨by simp [Relocating], rfl⟩
  · intro j x hj hx
    rcases Nat.lt_succ_iff_lt_or_eq.1 hj with hj | rfl
    · exact hm j x hj hx
    · have hget := hpk.get
      rw [show w.fs.fd[w.fs.reloc.fdIndex]? = some x from hx] at hget
      obtain rfl := Option.some.inj hget
      exact hpk.stays.resolve_left ha
  · rcases h with h | h <;> cases h

/-- What the thread relies on while it holds a block. -/
theorem Inv.picked {fs : Fs} {f : Mem} (hi : Inv crc fs f)
    (hpt : fs.pt = .yieldRead ∨ fs.pt = .yieldRetry) :
    Victim fs ∧ Moved fs fs.reloc.fdIndex ∧ (∃ fd, Picked fs fd) ∧
      (fs.pt = .yieldRetry → ∀ s, fs.SectorIsFull s) := by
  have ht := hi.thread
  unfold Suspended at ht
  rcases hpt with hpt | hpt
  · rw [hpt] at ht
    exact ⟨ht.1, ht.2.1, ht.2.2, fun h => by rw [hpt] at h; cases h⟩
  · rw [hpt] at ht
    obtain ⟨hv, hm, hall, fd, hpk, -⟩ := ht
    exact ⟨hv, hm, ⟨fd, hpk⟩, fun _ => hall⟩

end step

/-! ## The copy made by `fs_thread` -/

/-- The blank sector that has become the current one has room after one call of `fs_thread`. -/
theorem Served.room {w w' : World} (hs : Served crc w w')
    (hblank : w.fs.SectorIsBlank w.fs.curr.sector) : ¬ w'.fs.SectorIsFull w'.fs.curr.sector := by
  have h := hs.address
  unfold Fs.SectorIsBlank at hblank
  rw [not_full_iff, hs.sector]
  omega

theorem blank_of_not_full {f : Mem} {fs : Fs} (hs : Shape fs.curr f) {s : Fin 8}
    (hne : s ≠ fs.curr.sector) (h : ¬ fs.SectorIsFull s) : fs.SectorIsBlank s := by
  rcases hs.others s hne with h' | h'
  · exact h'
  · exact absurd (by unfold Fs.SectorIsFull filesystemSectorSize; omega) h

/-- `fs_write` has appended the block. -/
theorem relocWrite_append {w v : World}
    {write : World → BitVec 16 → BitVec 8 → List Byte → Option (Int × World)}
    (hw : write w w.fs.reloc.fd.header.name (w.fs.reloc.fd.header.ext.setWidth 8)
      (List.ofFn w.fs.reloc.buffer.data) = some (appendBlock crc v (relocBlock w.fs.reloc)))
    (hi : findFd v.fs.fd (relocBlock w.fs.reloc).header < fdMax) : relocWrite write w =
      some (.yielded, (appendBlock crc v (relocBlock w.fs.reloc)).2.setPt .yieldNext) := by
  have h0 := (appendBlock_placed crc v (relocBlock w.fs.reloc) hi).1
  unfold relocWrite
  simp only [hw, h0]
  rfl

section relocWrite
variable {w : World} (thread : World → Option World) (hi : Inv crc w.fs w.flash)
include hi

theorem relocWrite_room (hc : Carries w.fs w.flash)
    (hroom : ¬ w.fs.SectorIsFull w.fs.curr.sector) :
    relocWrite (fsWriteWith crc thread) w = some (.yielded, w.relocate crc) :=
  relocWrite_append (fsWriteWith_room (by simp) hroom) (hi.findFd_lt hc.hasSlot)

omit thread in
theorem relocate_served (hc : Carries w.fs w.flash)
    (hroom : ¬ w.fs.SectorIsFull w.fs.curr.sector) : Served crc w (w.relocate crc) := by
  have hp := relocate_placed hi hc
  exact ⟨⟨1, Nat.le_refl 1, (Move.relocate w hroom hc).moves⟩, ⟨(hp.spared hi.index.nodup).fds,
    fun _ => Or.inl ⟨by simp [Relocating, World.relocate, World.setPt], congrArg _ hp.reloc⟩⟩,
    hp.sector, Nat.le_of_eq hp.address_self⟩

/-- Every sector is full: the copy is tried again. -/
theorem relocWrite_allFull (hfull : ∀ s, w.fs.SectorIsFull s)
    (hpt : w.fs.pt = .yieldRead ∨ w.fs.pt = .yieldRetry) {fd : FileDescriptor}
    (hpk : Picked w.fs fd) (ha : fd.address = w.fs.reloc.fd.address) :
    relocWrite (fsWriteWith crc thread) w = some (.yielded, (w.returns (-2)).2.setPt .yieldRetry) ∧
      Served crc w ((w.returns (-2)).2.setPt .yieldRetry) := by
  obtain ⟨hv, hm, -⟩ := hi.picked hpt
  constructor
  · unfold relocWrite
    simp only
    rw [fsWriteWith_allFull (by simp) hfull]
    rfl
  · exact ⟨⟨0, Nat.zero_le 1, (Move.retry w fd hfull hpt hv hm hpk ha).moves⟩,
      ⟨fun _ hm => Or.inl hm, fun _ => Or.inl ⟨by simp [Relocating, World.setPt], rfl⟩⟩, rfl,
      Nat.le_add_right (w.fs.curr.address w.fs.curr.sector) 32⟩

/-- The current sector is full: the inner activation makes the copy, then it is made again. -/
theorem relocWrite_switch (hc : Carries w.fs w.flash)
    (hfull : w.fs.SectorIsFull w.fs.curr.sector) (hsome : ∃ s, ¬ w.fs.SectorIsFull s)
    (hthread : ∀ s, ¬ w.fs.SectorIsFull s →
      thread (w.setSector s) = some ((w.setSector s).relocate crc)) :
    ∃ s, ¬ w.fs.SectorIsFull s ∧ relocWrite (fsWriteWith crc thread) w =
      some (.yielded, ((w.setSector s).relocate crc).relocate crc) := by
  have hlen : (List.ofFn w.fs.reloc.buffer.data).length ≤ 28 := by simp
  obtain ⟨s, hs, hw⟩ := fsWriteWith_switch crc thread w.fs.reloc.fd.header.name
    (w.fs.reloc.fd.header.ext.setWidth 8) hlen hfull hsome
  have hi₁ := (hi.setSector hfull hs).1
  have hc₁ := hc.setSector hs
  have hp := relocate_placed hi₁ hc₁
  obtain ⟨hi₂, -, hc₂⟩ := relocate_spec hi₁ hs hc₁
  refine ⟨s, hs, ?_⟩
  have hreloc : ((w.setSector s).relocate crc).fs.reloc = w.fs.reloc := hp.reloc
  have hlast : ((w.setSector s).relocate crc).relocate crc = (appendBlock crc
      ((w.setSector s).relocate crc) (relocBlock w.fs.reloc)).2.setPt .yieldNext := by
    rw [← hreloc]
    rfl
  rw [hlast]
  exact relocWrite_append (hw _ (hthread s hs)) (by rw [← hreloc]; exact hi₂.findFd_lt hc₂.hasSlot)

end relocWrite

/-! ## `fs_thread` -/

section fsThread
variable {w : World} (thread : World → Option World) (ans : Answers) (flag : Bool)

/-- With room in the current sector `fs_thread` does not depend on the inner activation. -/
theorem fsThreadWith_room (hi : Inv crc w.fs w.flash)
    (hroom : ¬ w.fs.SectorIsFull w.fs.curr.sector) :
    ∃ c w', fsThreadWith (fsWriteWith crc thread) ans flag w = some (c, w') ∧ Served crc w w' := by
  by_cases hpt : w.fs.pt = .yieldRead ∨ w.fs.pt = .yieldRetry
  · obtain ⟨hv, hm, ⟨fd, hpk⟩, hall⟩ := hi.picked hpt
    have h₁ : w.fs.pt = .yieldRead := hpt.resolve_right fun h => hroom (hall h _)
    rw [fsThreadWith_yieldRead _ ans flag h₁ hpk.get]
    split
    · next ha =>
      have hc := hi.carries h₁ hpk.get ha
      rw [relocWrite_room thread hi hc hroom]
      exact ⟨_, _, rfl, relocate_served hi hc hroom⟩
    · next ha => exact ⟨_, _, rfl, passed_served hv hm hpk ha⟩
  · rw [not_or] at hpt
    exact fsThreadWith_served _ ans flag hi hpt.1 hpt.2

/-- What `fs_thread(1)` does from inside `updateSector`. -/
theorem nested_served (hi : Inv crc w.fs w.flash) (hfull : w.fs.SectorIsFull w.fs.curr.sector)
    {s : Fin 8} (hs : ¬ w.fs.SectorIsFull s) :
    ∃ c v, fsThreadWith (fsWriteWith crc thread) ans true (w.setSector s) = some (c, v) ∧
      Served crc (w.setSector s) v ∧ ¬ v.fs.SectorIsFull v.fs.curr.sector := by
  have hne : s ≠ w.fs.curr.sector := by
    rintro rfl
    exact hs hfull
  have hblank := blank_of_not_full hi.shape hne hs
  have hi' := (hi.setSector hfull hs).1
  obtain ⟨c, v, he, hv⟩ := fsThreadWith_room thread ans true hi' hs
  exact ⟨c, v, he, hv, hv.room hblank⟩

omit thread ans flag in
/-- The copy that the inner activation makes leaves room for the outer one. -/
theorem relocate_inner (hi : Inv crc w.fs w.flash) {s : Fin 8}
    (hfull : w.fs.SectorIsFull w.fs.curr.sector) (hs : ¬ w.fs.SectorIsFull s)
    (hc : Carries w.fs w.flash) :
    Inv crc ((w.setSector s).relocate crc).fs ((w.setSector s).relocate crc).flash ∧
      Served crc (w.setSector s) ((w.setSector s).relocate crc) ∧
      ¬ ((w.setSector s).relocate crc).fs.SectorIsFull
        ((w.setSector s).relocate crc).fs.curr.sector ∧
      Carries ((w.setSector s).relocate crc).fs ((w.setSector s).relocate crc).flash := by
  have hne : s ≠ w.fs.curr.sector := by
    rintro rfl
    exact hs hfull
  have hi₁ := (hi.setSector hfull hs).1
  have hc₁ := hc.setSector hs
  obtain ⟨hi₂, -, hc₂⟩ := relocate_spec hi₁ hs hc₁
  have hserved := relocate_served hi₁ hc₁ hs
  exact ⟨hi₂, hserved, hserved.room (blank_of_not_full hi.shape hne hs), hc₂⟩

omit thread in
/-- How a call of `fs_thread` ends: without, or with, a change of the current sector. -/
inductive ThreadEnds (crc : Block → BitVec 32) (w : World) : World → Prop
  | served (w' : World) : Served crc w w' → ThreadEnds crc w w'
  | switched (s : Fin 8) : w.fs.SectorIsFull w.fs.curr.sector → ¬ w.fs.SectorIsFull s →
      Carries w.fs w.flash → ThreadEnds crc w (((w.setSector s).relocate crc).relocate crc)

omit thread ans flag in
theorem ThreadEnds.moves (hi : Inv crc w.fs w.flash) {w' : World} (h : ThreadEnds crc w w') :
    ∃ n, n ≤ 2 ∧ Moves crc n w w' := by
  cases h with
  | served _ hs =>
    obtain ⟨n, hn, hm⟩ := hs.moves
    exact ⟨n, by omega, hm⟩
  | switched s hfull hs hc =>
    obtain ⟨-, -, hroom, hc₂⟩ := relocate_inner hi hfull hs hc
    exact ⟨2, Nat.le_refl 2, (((Move.switch w s hfull hs).moves.tail
      (.relocate _ hs (hc.setSector hs))).tail (.relocate _ hroom hc₂))⟩

omit thread ans flag in
/-- The switch of the current sector, and what follows it there. -/
theorem Spared.switch {s : Fin 8} {v : World} (h : Spared (w.setSector s) v) : Spared w v :=
  ⟨h.fds, h.victim⟩

omit thread ans flag in
theorem ThreadEnds.spared (hi : Inv crc w.fs w.flash) {w' : World} (h : ThreadEnds crc w w') :
    Spared w w' := by
  cases h with
  | served _ hs => exact hs.spared
  | switched s hfull hs hc =>
    obtain ⟨hi₂, h₁, hroom, hc₂⟩ := relocate_inner hi hfull hs hc
    have h₂ := relocate_served hi₂ hc₂ hroom
    obtain ⟨-, hk₃, -⟩ := relocate_spec hi₂ hroom hc₂
    exact (h₁.spared.trans h₂.spared h₂.sector hk₃.logged).switch

omit thread in
theorem fsThread_spec (hi : Inv crc w.fs w.flash) (n : Nat) :
    ∃ c w', fsThread crc ans (n + 2) flag w = some (c, w') ∧ ThreadEnds crc w w' := by
  unfold fsThread
  generalize hT : (fun w => (fsThread crc ans (n + 1) true w).map Prod.snd) = T
  by_cases hfull : w.fs.SectorIsFull w.fs.curr.sector
  · by_cases hpt : w.fs.pt = .yieldRead ∨ w.fs.pt = .yieldRetry
    · obtain ⟨hv, hm, ⟨fd, hpk⟩, hretry⟩ := hi.picked hpt
      by_cases hall : ∀ s, w.fs.SectorIsFull s
      · rcases hpt with hpt | hpt
        · rw [fsThreadWith_yieldRead _ ans flag hpt hpk.get]
          split
          · next ha =>
            obtain ⟨he, hs⟩ := relocWrite_allFull T hi hall (Or.inl hpt) hpk ha
            exact ⟨_, _, he, .served _ hs⟩
          · next ha => exact ⟨_, _, rfl, .served _ (passed_served hv hm hpk ha)⟩
        · have ht := hi.thread
          unfold Suspended at ht
          rw [hpt] at ht
          obtain ⟨-, -, -, fd', hpk', ha⟩ := ht
          obtain ⟨he, hs⟩ := relocWrite_allFull T hi hall (Or.inr hpt) hpk' ha
          rw [fsThreadWith_yieldRetry _ ans flag hpt]
          exact ⟨_, _, he, .served _ hs⟩
      · have h₁ : w.fs.pt = .yieldRead := hpt.resolve_right fun h => hall (hretry h)
        rw [fsThreadWith_yieldRead _ ans flag h₁ hpk.get]
        split
        · next ha =>
          have hc := hi.carries h₁ hpk.get ha
          -- the inner activation resumes at the same label
          have hthread : ∀ s, ¬ w.fs.SectorIsFull s →
              T (w.setSector s) = some ((w.setSector s).relocate crc) := by
            intro s hs
            have hi₁ := (hi.setSector hfull hs).1
            rw [← hT]
            show (fsThreadWith (fsWriteWith crc _) ans true (w.setSector s)).map Prod.snd = _
            rw [fsThreadWith_yieldRead (w := w.setSector s) _ ans true h₁ hpk.get,
              if_pos (show fd.address = (w.setSector s).fs.reloc.fd.address from ha),
              relocWrite_room _ hi₁ (hc.setSector hs) hs]
            rfl
          obtain ⟨s, hs, he⟩ := relocWrite_switch T hi hc hfull (not_forall.1 hall) hthread
          exact ⟨_, _, he, .switched s hfull hs hc⟩
        · next ha => exact ⟨_, _, rfl, .served _ (passed_served hv hm hpk ha)⟩
    · rw [not_or] at hpt
      obtain ⟨c, w', he, hs⟩ := fsThreadWith_served (fsWriteWith crc T) ans flag hi hpt.1 hpt.2
      exact ⟨c, w', he, .served _ hs⟩
  · obtain ⟨c, w', he, hs⟩ := fsThreadWith_room T ans flag hi hfull
    exact ⟨c, w', he, .served _ hs⟩

end fsThread

/-! ## `fs_write` -/

theorem HasSlot.congr {fs fs' : Fs} {k : Key} (h : HasSlot fs k) (hk : keys fs' = keys fs) :
    HasSlot fs' k := by
  have hl := congrArg List.length hk
  unfold keys at hl
  rw [List.length_map, List.length_map] at hl
  unfold HasSlot at h ⊢
  rwa [hk, hl]

section fsWrite
variable {w v : World} {name : BitVec 16} {ext : BitVec 8} {data : List Byte}

/-- How a call of `fs_write` ends. -/
inductive WriteEnds (crc : Block → BitVec 32) (w : World) (name : BitVec 16) (ext : BitVec 8)
    (data : List Byte) : Int × World → Prop
  | tooLong : 28 < data.length → WriteEnds crc w name ext data (w.returns (-1))
  | allFull : data.length ≤ 28 → (∀ s, w.fs.SectorIsFull s) →
      WriteEnds crc w name ext data (w.returns (-2))
  | room : data.length ≤ 28 → ¬ w.fs.SectorIsFull w.fs.curr.sector →
      HasSlot w.fs (name, ext.setWidth 3) →
      WriteEnds crc w name ext data (0, (appendBlock crc w (writeBuffer name ext data)).2)
  | switched (s : Fin 8) (v : World) : data.length ≤ 28 →
      w.fs.SectorIsFull w.fs.curr.sector → ¬ w.fs.SectorIsFull s →
      Served crc (w.setSector s) v → ¬ v.fs.SectorIsFull v.fs.curr.sector →
      HasSlot v.fs (name, ext.setWidth 3) →
      WriteEnds crc w name ext data (0, (appendBlock crc v (writeBuffer name ext data)).2)

theorem append_returns (hi : Inv crc w.fs w.flash) (hslot : HasSlot w.fs (name, ext.setWidth 3)) :
    appendBlock crc w (writeBuffer name ext data) =
      (0, (appendBlock crc w (writeBuffer name ext data)).2) :=
  Prod.ext (appendBlock_placed crc w (writeBuffer name ext data) (hi.findFd_lt hslot)).1 rfl

/-- A write that finds the current sector full, and another one that is not. -/
theorem fsWrite_switch (hi : Inv crc w.fs w.flash) (ans : Answers) (n : Nat) (name : BitVec 16)
    (ext : BitVec 8) (hlen : data.length ≤ 28) (hfull : w.fs.SectorIsFull w.fs.curr.sector)
    (hsome : ∃ s, ¬ w.fs.SectorIsFull s) :
    ∃ s v, ¬ w.fs.SectorIsFull s ∧ Served crc (w.setSector s) v ∧
      ¬ v.fs.SectorIsFull v.fs.curr.sector ∧ Inv crc v.fs v.flash ∧ keys v.fs = keys w.fs ∧
      fsWrite crc ans (n + 1) w name ext data =
        some (appendBlock crc v (writeBuffer name ext data)) := by
  obtain ⟨s, hs, hw⟩ := fsWriteWith_switch crc
    (fun w => (fsThread crc ans (n + 1) true w).map Prod.snd) name ext hlen hfull hsome
  obtain ⟨c, v, he, hv, hroom⟩ := nested_served
    (fun w => (fsThread crc ans n true w).map Prod.snd) ans hi hfull hs
  have hv' : (fsThread crc ans (n + 1) true (w.setSector s)).map Prod.snd = some v := by
    show (fsThreadWith _ ans true (w.setSector s)).map Prod.snd = _
    rw [he]
    rfl
  obtain ⟨k, -, hm⟩ := hv.moves
  obtain ⟨hi', hk⟩ := hm.spec (hi.setSector hfull hs).1
  exact ⟨s, v, hs, hv, hroom, hi', hk.keys, hw v hv'⟩

theorem fsWrite_spec (hi : Inv crc w.fs w.flash) (ans : Answers) (n : Nat)
    (hslot : data.length ≤ 28 → (∃ s, ¬ w.fs.SectorIsFull s) →
      HasSlot w.fs (name, ext.setWidth 3)) :
    ∃ r, fsWrite crc ans (n + 1) w name ext data = some r ∧ WriteEnds crc w name ext data r := by
  by_cases hlen : data.length ≤ 28
  · by_cases hall : ∀ s, w.fs.SectorIsFull s
    · exact ⟨_, fsWriteWith_allFull hlen hall, .allFull hlen hall⟩
    · have hsome := not_forall.1 hall
      have hslot' := hslot hlen hsome
      by_cases hfull : w.fs.SectorIsFull w.fs.curr.sector
      · obtain ⟨s, v, hs, hv, hroom, hi', hk, hw⟩ := fsWrite_switch hi ans n name ext hlen hfull hsome
        have hslotv : HasSlot v.fs (name, ext.setWidth 3) := hslot'.congr hk
        refine ⟨_, hw, ?_⟩
        rw [append_returns hi' hslotv]
        exact .switched s v hlen hfull hs hv hroom hslotv
      · refine ⟨_, fsWriteWith_room hlen hfull, ?_⟩
        rw [append_returns hi hslot']
        exact .room hlen hfull hslot'
  · exact ⟨_, fsWriteWith_tooLong (by omega), .tooLong (by omega)⟩

theorem append_placed (data : List Byte) (hi : Inv crc v.fs v.flash)
    (hslot : HasSlot v.fs (name, ext.setWidth 3)) : Placed (name, ext.setWidth 3) v.fs
      (appendBlock crc v (writeBuffer name ext data)).2.fs :=
  (appendBlock_placed crc v (writeBuffer name ext data) (hi.findFd_lt hslot)).2.1

theorem append_spared (data : List Byte) (hi : Inv crc v.fs v.flash) (hslot : HasSlot v.fs (name, ext.setWidth 3)) :
    Spared v (appendBlock crc v (writeBuffer name ext data)).2 ∧
      (appendBlock crc v (writeBuffer name ext data)).2.fs.curr.sector = v.fs.curr.sector ∧
      Logged Event.Succeeds v (appendBlock crc v (writeBuffer name ext data)).2 := by
  obtain ⟨-, hp, hl⟩ := appendBlock_placed crc v (writeBuffer name ext data) (hi.findFd_lt hslot)
  exact ⟨hp.spared hi.index.nodup, hp.sector, hl⟩

theorem WriteEnds.spared (hi : Inv crc w.fs w.flash) {r : Int × World}
    (h : WriteEnds crc w name ext data r) : Spared w r.2 := by
  cases h with
  | tooLong => exact ⟨fun _ hm => Or.inl hm, fun hr => Or.inl ⟨hr, rfl⟩⟩
  | allFull => exact ⟨fun _ hm => Or.inl hm, fun hr => Or.inl ⟨hr, rfl⟩⟩
  | room hlen hroom hslot => exact (append_spared data hi hslot).1
  | switched s v hlen hfull hs hv hroom hslot =>
    obtain ⟨n, -, hm⟩ := hv.moves
    obtain ⟨hi₂, -⟩ := hm.spec (hi.setSector hfull hs).1
    obtain ⟨h₃, hs₃, hl₃⟩ := append_spared data hi₂ hslot
    exact (hv.spared.trans h₃ hs₃ hl₃).switch

/-- What a write of `d` under the key `k` does. -/
structure Wrote (crc : Block → BitVec 32) (k : Key) (d : Payload) (w w' : World) : Prop where
  inv : Inv crc w'.fs w'.flash
  contents : contents w'.fs w'.flash = Function.update (contents w.fs w.flash) k (some d)
  keys : keys w'.fs = if k ∈ keys w.fs then keys w.fs else keys w.fs ++ [k]
  logged : Logged (Good crc fun M => M = Wormvars.contents w.fs w.flash ∨
    M = Function.update (Wormvars.contents w.fs w.flash) k (some d)) w w'

/-- The append after a nested call of `fs_thread` that kept the contents. -/
theorem Keeps.wrote (hk : Keeps crc w v) (hi : Inv crc v.fs v.flash)
    (hroom : ¬ v.fs.SectorIsFull v.fs.curr.sector) (hslot : HasSlot v.fs (name, ext.setWidth 3)) :
    Wrote crc (name, ext.setWidth 3) (pad data) w
      (appendBlock crc v (writeBuffer name ext data)).2 := by
  have hslot' : HasSlot v.fs (writeBuffer name ext data).header.key := hslot
  obtain ⟨-, hp, -⟩ := appendBlock_placed crc v _ (hi.findFd_lt hslot')
  have ha := hi.appended hroom hslot'
  refine ⟨hi.append hroom hslot', ?_, ?_, ?_⟩
  · rw [ha.contents, hk.contents]
    rfl
  · rw [hp.keys, hk.keys]
    rfl
  · have hl := ha.logged
    rw [hk.contents] at hl
    exact (hk.logged.mono fun e he => he.mono fun M hM => Or.inl hM).trans hl

/-- The outcomes of `fs_write` as a caller sees them. -/
theorem WriteEnds.cases (hi : Inv crc w.fs w.flash) {r : Int} {w' : World}
    (h : WriteEnds crc w name ext data (r, w')) :
    (r < 0 ∧ w' = (w.returns r).2) ∨ (r = 0 ∧ data.length ≤ 28 ∧ (∃ s, ¬ w.fs.SectorIsFull s) ∧
      Wrote crc (name, ext.setWidth 3) (pad data) w w') := by
  cases h with
  | tooLong h => exact Or.inl ⟨by decide, rfl⟩
  | allFull hlen hall => exact Or.inl ⟨by decide, rfl⟩
  | room hlen hroom hslot =>
    exact Or.inr ⟨rfl, hlen, ⟨_, hroom⟩, (Keeps.refl w).wrote hi hroom hslot⟩
  | switched s v hlen hfull hs hv hroom hslot =>
    obtain ⟨hi₁, hk₁⟩ := hi.setSector hfull hs
    obtain ⟨n, -, hm⟩ := hv.moves
    obtain ⟨hi₂, hk₂⟩ := hm.spec hi₁
    exact Or.inr ⟨rfl, hlen, ⟨s, hs⟩, (hk₁.trans hk₂).wrote hi₂ hroom hslot⟩

end fsWrite

end Wormvars
