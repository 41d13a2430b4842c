import Wormvars.Supply

/-!
# Relocation keeps up with the writes

With timer and flash always ready a relocation takes at most two calls of
`fs_thread` and one cell for each live block of its victim, of which there are
at most 50.  `copiesLeft` and `callsLeft` bound what is still to be done before
the victim is erased.

`Paced crc w c`: at least one sector other than the current one is blank, and if
it is the last one, the current sector has the cells that the relocation still
takes, and those of the writes that can come before it is done when there are two
calls of `fs_thread` between any two writes; `c` of them have come since the last
write.  It is kept by every call of `fs_thread` (`Paced.poll`) and by every write
that comes after two of them (`Paced.write`).
-/

namespace Wormvars

open NorFlash

variable {crc : Block → BitVec 32}

/-- The timer has expired and the flash is ready. -/
def ready : Answers := ⟨true, true⟩

/-! ## What is left to do -/

/-- The descriptors from slot `n` on that are in sector `S`. -/
def liveFrom (fs : Fs) (S : Fin 8) (n : Nat) : Nat := (fs.fd.drop n).countP fun fd => fd.sector = S

/-- The descriptors in the victim that the loop of `fs_thread` has not reached. -/
def ahead (fs : Fs) : Nat := liveFrom fs fs.reloc.sector (fs.reloc.fdIndex + 1)

/-- The blocks that may still be copied before the victim is erased. -/
def copiesLeft (fs : Fs) : Nat :=
  match fs.pt with
  | .yieldRead => ahead fs + 1
  | .yieldNext => ahead fs
  | _ => 50

/-- The calls of `fs_thread` up to and including the one that erases the victim. -/
def callsLeft (fs : Fs) : Nat :=
  match fs.pt with
  | .yieldRead => 2 * ahead fs + 2
  | .yieldNext => 2 * ahead fs + 1
  | .yieldStart => 101
  | _ => 102

theorem countP_le_of_getElem? {α : Type} {p : α → Bool} {l l' : List α}
    (h : ∀ (j : Nat) x, l'[j]? = some x → p x → ∃ y, l[j]? = some y ∧ p y) :
    l'.countP p ≤ l.countP p := by
  induction l' generalizing l with
  | nil => simp
  | cons x l' ih =>
    have htail : l'.countP p ≤ l.tail.countP p := by
      refine ih fun j y hj hy => ?_
      obtain ⟨z, hz, hpz⟩ := h (j + 1) y hj hy
      refine ⟨z, ?_, hpz⟩
      cases l with
      | nil => cases hz
      | cons => exact hz
    rw [List.countP_cons]
    split
    · next hx =>
      obtain ⟨y, hy, hpy⟩ := h 0 x rfl hx
      cases l with
      | nil => cases hy
      | cons z l =>
        obtain rfl : z = y := Option.some.inj hy
        rw [List.countP_cons, if_pos hpy]
        exact Nat.add_le_add_right htail 1
    · refine htail.trans ?_
      cases l with
      | nil => exact Nat.le_refl _
      | cons z l => exact List.Sublist.countP_le (List.sublist_cons_self z l)

section left
variable {fs fs' : Fs}

/-- An append to another sector brings nothing into `S`. -/
theorem Placed.liveFrom_le {k : Key} (hp : Placed k fs fs') {S : Fin 8}
    (hS : S ≠ fs.curr.sector) (n : Nat) : liveFrom fs' S n ≤ liveFrom fs S n := by
  unfold liveFrom
  refine countP_le_of_getElem? fun j x hj hx => ?_
  rw [List.getElem?_drop] at hj ⊢
  rcases hp.get hj with h | ⟨-, -, hsec, -⟩
  · exact ⟨x, h, hx⟩
  · exact absurd ((decide_eq_true_iff.1 hx).symm.trans hsec) hS

theorem Placed.ahead_le {k : Key} (hp : Placed k fs fs') (hv : Victim fs) :
    ahead fs' ≤ ahead fs := by
  unfold ahead
  rw [hp.reloc]
  exact hp.liveFrom_le hv.notCurrent _

theorem liveFrom_zero (fs : Fs) (S : Fin 8) : liveFrom fs S 0 = liveIn fs S := rfl

/-- The loop has passed the slots from `n` up to `j`, which holds a descriptor in `S`. -/
theorem liveFrom_found {S : Fin 8} {n j : Nat} {fd : FileDescriptor} (hnj : n ≤ j)
    (hj : fs.fd[j]? = some fd) (hS : fd.sector = S)
    (hbef : ∀ i x, n ≤ i → i < j → fs.fd[i]? = some x → x.sector ≠ S) :
    liveFrom fs S (j + 1) + 1 = liveFrom fs S n := by
  unfold liveFrom
  have hsplit : fs.fd.drop n = (fs.fd.drop n).take (j - n) ++ fd :: fs.fd.drop (j + 1) := by
    have hd : (fs.fd.drop n).drop (j - n) = fd :: fs.fd.drop (j + 1) := by
      rw [List.drop_drop, Nat.add_sub_cancel' hnj]
      exact (List.drop_eq_getElem?_toList_append).trans (by rw [hj]; rfl)
    rw [← hd, List.take_append_drop]
  have hnone : ((fs.fd.drop n).take (j - n)).countP (fun fd => fd.sector = S) = 0 := by
    rw [List.countP_eq_zero]
    intro x hx
    obtain ⟨i, hi⟩ := List.mem_iff_getElem?.1 hx
    rw [List.getElem?_take] at hi
    split at hi
    · next hlt =>
      rw [List.getElem?_drop] at hi
      simpa using hbef (n + i) x (by omega) (by omega) hi
    · cases hi
  rw [hsplit, List.countP_append, hnone, List.countP_cons, if_pos (by simpa using hS), Nat.zero_add]

end left

/-! ## Calls with everything ready -/

section calls
variable {w : World}

theorem relocRead_ready (w : World) : relocRead ready w = (.yielded,
    (w.setReloc { w.fs.reloc with buffer := flashRead w.flash w.fs.reloc.fd.address }).setPt
      .yieldRead) := rfl

theorem relocErase_ready (w : World) :
    relocErase ready w = (.ended, (w.setPt .waitErase).eraseVictim) := rfl

/-- How the loop over the descriptors from slot `n` on ends. -/
inductive LoopEnds (w : World) (S : Fin 8) (n : Nat) : PtCode × World → Prop
  | picked (v : World) : v.fs.pt = .yieldRead → v.fs.curr = w.fs.curr → v.log = w.log →
      ahead v.fs + 1 = liveFrom w.fs S n → LoopEnds w S n (.yielded, v)
  | erased (v : World) : v.fs.reloc.sector = S → v.fs.curr = w.fs.curr → v.log = w.log →
      LoopEnds w S n (.ended, v.eraseVictim)

theorem relocLoop_ready (w : World) (S : Fin 8) (n : Nat) :
    LoopEnds w S n (relocLoop ready (w.fs.fd.drop n)
      (w.setReloc { w.fs.reloc with sector := S, fdIndex := n })) := by
  rcases relocLoop_cases ready (w.setReloc { w.fs.reloc with sector := S }) n with
    ⟨j, fd, hj, hg, hsec, hbef, he⟩ | ⟨m, -, he⟩
  · refine Eq.mpr (congrArg (LoopEnds w S n) he) ?_
    rw [relocRead_ready]
    exact .picked _ rfl rfl rfl (liveFrom_found hj hg hsec hbef)
  · refine Eq.mpr (congrArg (LoopEnds w S n) he) ?_
    rw [relocErase_ready]
    exact .erased _ rfl rfl rfl

variable (write : World → BitVec 16 → BitVec 8 → List Byte → Option (Int × World)) (flag : Bool)

theorem fsThreadWith_timer (h : w.fs.pt = .null ∨ w.fs.pt = .waitTimer) :
    fsThreadWith write ready flag w = some (.yielded, w.setPt .yieldStart) := by
  unfold fsThreadWith
  rcases h with h | h
  · simp only [h]
    exact if_pos (Or.inr rfl)
  · simp only [h]
    exact if_pos (Or.inr rfl)

theorem fsThreadWith_idle (h : w.fs.pt = .yieldStart) (hb : 2 ≤ blankOthers w.fs) :
    fsThreadWith write ready flag w = some (.waiting, w.setPt .null) := by
  unfold fsThreadWith
  simp only [h, (findRelocSector_none w.fs).2 hb]

theorem fsThreadWith_choose (hi : Inv crc w.fs w.flash) (h : w.fs.pt = .yieldStart)
    (hb : blankOthers w.fs < 2) :
    ∃ S r, fsThreadWith write ready flag w = some r ∧ Chosen w.fs S ∧ liveIn w.fs S ≤ 50 ∧
      LoopEnds w S 0 r := by
  unfold fsThreadWith
  cases hS : findRelocSector w.fs with
  | none =>
    have := (findRelocSector_none w.fs).1 hS
    omega
  | some S =>
    obtain ⟨hc, hl⟩ := chosen_of_findRelocSector hi.shape hi.index hS
    simp only [h]
    exact ⟨S, _, rfl, hc, hl, relocLoop_ready w S 0⟩

theorem fsThreadWith_next (h : w.fs.pt = .yieldNext) :
    ∃ r, fsThreadWith write ready flag w = some r ∧
      LoopEnds w w.fs.reloc.sector (w.fs.reloc.fdIndex + 1) r := by
  unfold fsThreadWith
  simp only [h]
  exact ⟨_, rfl, relocLoop_ready w w.fs.reloc.sector (w.fs.reloc.fdIndex + 1)⟩

end calls

/-! ## The pace that is kept -/

/-- The cells that the relocation, and the writes that may come before its end, still take. -/
def reserve (fs : Fs) (c : Nat) : Nat := copiesLeft fs + (callsLeft fs + c - 1) / 2

structure Paced (crc : Block → BitVec 32) (w : World) (c : Nat) : Prop where
  inv : Inv crc w.fs w.flash
  room : (2 ≤ blankOthers w.fs ∧ (w.fs.pt = .null ∨ w.fs.pt = .yieldStart)) ∨
    (blankOthers w.fs = 1 ∧ (w.fs.pt = .null ∨ w.fs.pt = .yieldStart ∨ w.fs.pt = .yieldRead ∨
      w.fs.pt = .yieldNext) ∧ reserve w.fs c ≤ freeCells w.fs)

/-- The calls of `fs_thread` until it has nothing to do. -/
def callsToIdle (fs : Fs) : Nat :=
  if 2 ≤ blankOthers fs then if fs.pt = .yieldStart then 1 else 2 else callsLeft fs + 2

section paced
variable {w : World} {c : Nat}

theorem Paced.mono (h : Paced crc w c) {c' : Nat} (hc : c' ≤ c) : Paced crc w c' where
  inv := h.inv
  room := by
    refine h.room.imp_right fun ⟨hb, hpt, hr⟩ => ⟨hb, hpt, ?_⟩
    unfold reserve at hr ⊢
    omega

theorem Paced.blank (h : Paced crc w c) : 0 < blankOthers w.fs := by
  rcases h.room with ⟨hb, -⟩ | ⟨hb, -⟩ <;> omega

theorem blankOthers_of_curr {fs fs' : Fs} (h : fs'.curr = fs.curr) :
    blankOthers fs' = blankOthers fs :=
  blankOthers_congr fun s => by unfold BlankOther Fs.SectorIsBlank; rw [h]

theorem freeCells_of_curr {fs fs' : Fs} (h : fs'.curr = fs.curr) :
    freeCells fs' = freeCells fs := by
  unfold freeCells cellsUsed
  rw [h]

/-- What a call of `fs_thread` that switches no sector does to the pace. -/
structure Polled (crc : Block → BitVec 32) (w : World) (c : Nat) (r : PtCode × World) : Prop where
  paced : Paced crc r.2 (min (c + 1) 2)
  logged : Logged Event.Succeeds w r.2
  idle : r.1 = .waiting → 2 ≤ blankOthers r.2.fs
  nearer : r.1 ≠ .waiting → callsToIdle r.2.fs < callsToIdle w.fs

/-- The loop over the descriptors, with one blank sector left. -/
theorem LoopEnds.polled {S : Fin 8} {n : Nat} {r : PtCode × World} (h : LoopEnds w S n r)
    (hi : Inv crc r.2.fs r.2.flash) (hS : FullOther w.fs S) (hb : blankOthers w.fs = 1)
    (hr : reserve w.fs c ≤ freeCells w.fs) (hcopies : liveFrom w.fs S n ≤ copiesLeft w.fs)
    (hcalls : 2 * liveFrom w.fs S n + 1 ≤ callsLeft w.fs) : Polled crc w c r := by
  have hidle : callsToIdle w.fs = callsLeft w.fs + 2 := if_neg (by omega)
  cases h with
  | picked v hpt hcurr hlog hahead =>
    have hbv := (blankOthers_of_curr hcurr).trans hb
    have hcopies' : copiesLeft v.fs = ahead v.fs + 1 := by unfold copiesLeft; rw [hpt]
    have hcalls' : callsLeft v.fs = 2 * ahead v.fs + 2 := by unfold callsLeft; rw [hpt]
    have hidle' : callsToIdle v.fs = callsLeft v.fs + 2 := if_neg (by omega)
    refine ⟨⟨hi, Or.inr ⟨hbv, by simp [hpt], ?_⟩⟩, Logged.of_log hlog, by simp, fun _ => ?_⟩
    · show reserve v.fs (min (c + 1) 2) ≤ freeCells v.fs
      rw [freeCells_of_curr hcurr]
      unfold reserve at hr ⊢
      omega
    · show callsToIdle v.fs < callsToIdle w.fs
      omega
  | erased v hsec hcurr hlog =>
    have hv : Victim v.fs := by
      refine ⟨?_, ?_⟩
      · rw [hsec]
        unfold Fs.SectorIsFull
        rw [hcurr]
        exact hS.2
      · rw [hsec, hcurr]
        exact hS.1
    have hbv : blankOthers v.eraseVictim.fs = 2 := by
      rw [blankOthers_erase hv, blankOthers_of_curr hcurr, hb]
    have hidle' : callsToIdle v.eraseVictim.fs = 2 := by
      unfold callsToIdle
      rw [if_pos (by omega)]
      rfl
    refine ⟨⟨hi, Or.inl ⟨Nat.le_of_eq hbv.symm, Or.inl rfl⟩⟩, ?_, by simp, fun _ => ?_⟩
    · refine Logged.cons (e := ⟨v.fs, v.flash, .erase (sectorBase v.fs.reloc.sector)⟩) ?_
        fun r hr => by cases hr
      rw [← hlog]
      rfl
    · show callsToIdle v.eraseVictim.fs < callsToIdle w.fs
      omega

/-- The thread goes to a label at which it is idle. -/
theorem Polled.idle_label (hi : Inv crc w.fs w.flash) (hb : 2 ≤ blankOthers w.fs) (pt : PtLabel)
    (hpt : pt = .null ∨ pt = .yieldStart) (code : PtCode)
    (hnear : code ≠ .waiting → w.fs.pt = .null ∧ pt = .yieldStart) :
    Polled crc w c (code, w.setPt pt) := by
  have hidle : (w.setPt pt).fs.pt = .null ∨ (w.setPt pt).fs.pt = .yieldStart := hpt
  have hi' : Inv crc (w.setPt pt).fs (w.setPt pt).flash := by
    refine ⟨hi.shape, hi.index.congr rfl, ?_, fun h => ?_⟩
    · rcases hpt with rfl | rfl <;> trivial
    · rcases hpt with rfl | rfl <;> rcases h with h | h <;> cases h
  refine ⟨⟨hi', Or.inl ⟨hb, hidle⟩⟩, Logged.of_log rfl, fun _ => hb, fun hc => ?_⟩
  obtain ⟨h₁, rfl⟩ := hnear hc
  have hb' : 2 ≤ blankOthers (w.setPt .yieldStart).fs := hb
  show callsToIdle (w.setPt .yieldStart).fs < callsToIdle w.fs
  have hlt : (w.setPt .yieldStart).fs.pt = .yieldStart := rfl
  unfold callsToIdle
  rw [if_pos hb, if_pos hb', if_pos hlt, if_neg (by simp [h₁])]
  omega

/-- What a call of `fs_thread` leaves keeps the invariant. -/
theorem inv_of_fsThreadWith (hi : Inv crc w.fs w.flash) (h₁ : w.fs.pt ≠ .yieldRead)
    (h₂ : w.fs.pt ≠ .yieldRetry) {thread : World → Option World} {ans : Answers} {flag : Bool}
    {r : PtCode × World} (hr : fsThreadWith (fsWriteWith crc thread) ans flag w = some r) :
    Inv crc r.2.fs r.2.flash := by
  obtain ⟨code, w', he, hs⟩ := fsThreadWith_served (fsWriteWith crc thread) ans flag hi h₁ h₂
  rw [hr] at he
  cases he
  exact hs.inv hi

section poll
variable (hi : Inv crc w.fs w.flash) (hb : blankOthers w.fs = 1)
  (hr : reserve w.fs c ≤ freeCells w.fs) (thread : World → Option World) (flag : Bool)

include hi hb hr

/-- The timer has expired. -/
theorem poll_timer (hpt : w.fs.pt = .null) :
    ∃ r, fsThreadWith (fsWriteWith crc thread) ready flag w = some r ∧ Polled crc w c r := by
  have he := fsThreadWith_timer (fsWriteWith crc thread) flag (Or.inl hpt)
  have hi' := inv_of_fsThreadWith hi (by simp [hpt]) (by simp [hpt]) he
  have h₁ : reserve (w.setPt .yieldStart).fs (min (c + 1) 2) ≤ reserve w.fs c := by
    unfold reserve copiesLeft callsLeft
    simp only [hpt, World.setPt]
    omega
  refine ⟨_, he, ⟨hi', Or.inr ⟨hb, Or.inr (Or.inl rfl), h₁.trans hr⟩⟩, Logged.of_log rfl,
    by simp, fun _ => ?_⟩
  have hb' : blankOthers (w.setPt .yieldStart).fs = 1 := hb
  show callsToIdle (w.setPt .yieldStart).fs < callsToIdle w.fs
  unfold callsToIdle
  rw [if_neg (by omega), if_neg (by omega)]
  unfold callsLeft
  simp only [hpt, World.setPt]
  omega

/-- A victim is chosen. -/
theorem poll_start (hpt : w.fs.pt = .yieldStart) :
    ∃ r, fsThreadWith (fsWriteWith crc thread) ready flag w = some r ∧ Polled crc w c r := by
  obtain ⟨S, r, he, hS, hlive, hl⟩ := fsThreadWith_choose (fsWriteWith crc thread) flag hi hpt
    (by omega)
  have hi' := inv_of_fsThreadWith hi (by simp [hpt]) (by simp [hpt]) he
  rw [← liveFrom_zero] at hlive
  refine ⟨r, he, hl.polled hi' hS.full hb hr ?_ ?_⟩
  · unfold copiesLeft
    rw [hpt]
    exact hlive
  · unfold callsLeft
    simp only [hpt]
    omega

/-- A block has been read: it is written, unless its descriptor has moved. -/
theorem poll_read (hpt : w.fs.pt = .yieldRead) :
    ∃ r, fsThreadWith (fsWriteWith crc thread) ready flag w = some r ∧ Polled crc w c r := by
  obtain ⟨hv, hm, ⟨fd, hpk⟩, -⟩ := hi.picked (Or.inl hpt)
  have hcopies : copiesLeft w.fs = ahead w.fs + 1 := by unfold copiesLeft; rw [hpt]
  have hcalls : callsLeft w.fs = 2 * ahead w.fs + 2 := by unfold callsLeft; rw [hpt]
  have hidle : callsToIdle w.fs = callsLeft w.fs + 2 := if_neg (by omega)
  unfold reserve at hr
  rw [fsThreadWith_yieldRead _ ready flag hpt hpk.get]
  split
  · next ha =>
    have hc := hi.carries hpt hpk.get ha
    have hroom : ¬ w.fs.SectorIsFull w.fs.curr.sector := hi.shape.room_iff.2 (by omega)
    have hpl := relocate_placed hi hc
    have hi' := (relocate_spec hi hroom hc).1
    have hb' : blankOthers (w.relocate crc).fs = 1 := hpl.blankOthers.trans hb
    have hf' : freeCells (w.relocate crc).fs = freeCells w.fs - 1 := hpl.freeCells hi.shape
    have hahead : ahead (w.relocate crc).fs ≤ ahead w.fs := hpl.ahead_le hv
    have hcopies' : copiesLeft (w.relocate crc).fs = ahead (w.relocate crc).fs := rfl
    have hcalls' : callsLeft (w.relocate crc).fs = 2 * ahead (w.relocate crc).fs + 1 := rfl
    have hidle' : callsToIdle (w.relocate crc).fs = callsLeft (w.relocate crc).fs + 2 :=
      if_neg (by omega)
    refine ⟨_, relocWrite_room thread hi hc hroom, ⟨hi', Or.inr ⟨hb', by simp [World.relocate,
      World.setPt], ?_⟩⟩, (appendBlock_placed crc w _ (hi.findFd_lt hc.hasSlot)).2.2, by simp,
      fun _ => ?_⟩
    · show reserve (w.relocate crc).fs (min (c + 1) 2) ≤ freeCells (w.relocate crc).fs
      unfold reserve
      omega
    · show callsToIdle (w.relocate crc).fs < callsToIdle w.fs
      omega
  · next ha =>
    have hi' := (passed_served hv hm hpk ha : Served crc w _).inv hi
    have hb' : blankOthers (w.setPt .yieldNext).fs = 1 := hb
    have hcopies' : copiesLeft (w.setPt .yieldNext).fs = ahead w.fs := rfl
    have hcalls' : callsLeft (w.setPt .yieldNext).fs = 2 * ahead w.fs + 1 := rfl
    have hidle' : callsToIdle (w.setPt .yieldNext).fs =
        callsLeft (w.setPt .yieldNext).fs + 2 := if_neg (by omega)
    refine ⟨_, rfl, ⟨hi', Or.inr ⟨hb', by simp [World.setPt], ?_⟩⟩, Logged.of_log rfl, by simp,
      fun _ => ?_⟩
    · show reserve (w.setPt .yieldNext).fs (min (c + 1) 2) ≤ freeCells w.fs
      unfold reserve
      omega
    · show callsToIdle (w.setPt .yieldNext).fs < callsToIdle w.fs
      omega

/-- A descriptor is done. -/
theorem poll_next (hpt : w.fs.pt = .yieldNext) :
    ∃ r, fsThreadWith (fsWriteWith crc thread) ready flag w = some r ∧ Polled crc w c r := by
  have hrel : Relocating w.fs := by simp [Relocating, hpt]
  have hv := hi.victim hrel
  obtain ⟨r, he, hl⟩ := fsThreadWith_next (fsWriteWith crc thread) flag hpt
  have hi' := inv_of_fsThreadWith hi (by simp [hpt]) (by simp [hpt]) he
  refine ⟨r, he, hl.polled hi' ⟨hv.notCurrent, hv.full⟩ hb hr ?_ ?_⟩
  · unfold copiesLeft
    rw [hpt]
    exact Nat.le_refl (ahead w.fs)
  · unfold callsLeft
    rw [hpt]
    exact Nat.le_refl (2 * ahead w.fs + 1)

end poll

/-- One call of `fs_thread`, also from inside `updateSector`. -/
theorem Paced.poll (hp : Paced crc w c) (thread : World → Option World) (flag : Bool) :
    ∃ r, fsThreadWith (fsWriteWith crc thread) ready flag w = some r ∧ Polled crc w c r := by
  have hi := hp.inv
  rcases hp.room with ⟨hb, hpt | hpt⟩ | ⟨hb, hpt, hr⟩
  · exact ⟨_, fsThreadWith_timer _ flag (Or.inl hpt),
      .idle_label hi hb _ (Or.inr rfl) _ fun _ => ⟨hpt, rfl⟩⟩
  · exact ⟨_, fsThreadWith_idle _ flag hpt hb, .idle_label hi hb _ (Or.inl rfl) _ fun h =>
      absurd rfl h⟩
  · rcases hpt with hpt | hpt | hpt | hpt
    · exact poll_timer hi hb hr thread flag hpt
    · exact poll_start hi hb hr thread flag hpt
    · exact poll_read hi hb hr thread flag hpt
    · exact poll_next hi hb hr thread flag hpt

section write
variable {name : BitVec 16} {ext : BitVec 8} (data : List Byte)

/-- A write into the current sector after two calls of `fs_thread`. -/
theorem Paced.append (hp : Paced crc w 2) (hroom : 0 < freeCells w.fs)
    (hslot : HasSlot w.fs (name, ext.setWidth 3)) :
    Paced crc (appendBlock crc w (writeBuffer name ext data)).2 0 := by
  have hi := hp.inv
  have hslot' : HasSlot w.fs (writeBuffer name ext data).header.key := hslot
  obtain ⟨-, hpl, -⟩ := appendBlock_placed crc w _ (hi.findFd_lt hslot')
  have hi' := hi.append (hi.shape.room_iff.2 hroom) hslot'
  have hb := hpl.blankOthers
  refine ⟨hi', ?_⟩
  rw [hb, hpl.pt]
  refine hp.room.imp_right fun ⟨hb, hpt, hr⟩ => ⟨hb, hpt, ?_⟩
  have hle : copiesLeft (appendBlock crc w (writeBuffer name ext data)).2.fs ≤ copiesLeft w.fs ∧
      callsLeft (appendBlock crc w (writeBuffer name ext data)).2.fs ≤ callsLeft w.fs ∧
      1 ≤ callsLeft w.fs := by
    unfold copiesLeft callsLeft
    rw [hpl.pt]
    rcases hpt with hpt | hpt | hpt | hpt
    · simp [hpt]
    · simp [hpt]
    · have := hpl.ahead_le (hi.victim (by simp [Relocating, hpt]))
      simp only [hpt]
      omega
    · have := hpl.ahead_le (hi.victim (by simp [Relocating, hpt]))
      simp only [hpt]
      omega
  rw [hpl.freeCells hi.shape]
  unfold reserve at hr ⊢
  omega

/-- A blank sector has become the current one. -/
theorem Paced.setSector (hp : Paced crc w 2) (hfull : w.fs.SectorIsFull w.fs.curr.sector)
    {s : Fin 8} (hs : ¬ w.fs.SectorIsFull s) :
    Paced crc (w.setSector s) 2 ∧ freeCells (w.setSector s).fs = 128 := by
  have hi := hp.inv
  have hi' := (hi.setSector hfull hs).1
  have hblank := hi.shape.blankOther hfull hs
  have hb := blankOthers_setSector hblank hfull
  have hused : cellsUsed w.fs s = 0 := (hi.shape.blank_iff s).1 hblank.2
  have hfree : freeCells (w.setSector s).fs = 128 := by
    show 128 - cellsUsed w.fs s = 128
    rw [hused]
  have hnone : freeCells w.fs = 0 := by
    unfold freeCells
    rw [(hi.shape.full_iff _).1 hfull]
  rcases hp.room with ⟨hb2, hpt⟩ | ⟨hb1, hpt, hr⟩
  · refine ⟨⟨hi', ?_⟩, hfree⟩
    by_cases h2 : 2 ≤ blankOthers (w.setSector s).fs
    · exact Or.inl ⟨h2, hpt⟩
    · refine Or.inr ⟨by omega, hpt.elim Or.inl fun h => Or.inr (Or.inl h), ?_⟩
      rw [hfree]
      unfold reserve copiesLeft callsLeft
      rw [show (w.setSector s).fs.pt = w.fs.pt from rfl]
      rcases hpt with hpt | hpt <;> simp [hpt]
  · -- with one blank sector there is room for a write
    have hcalls : 1 ≤ callsLeft w.fs := by
      unfold callsLeft
      split <;> omega
    unfold reserve at hr
    omega

theorem Paced.write (hp : Paced crc w 2) (hlen : data.length ≤ 28)
    (hslot : HasSlot w.fs (name, ext.setWidth 3)) (n : Nat) :
    ∃ w', fsWrite crc ready (n + 1) w name ext data = some (0, w') ∧ Paced crc w' 0 ∧
      Logged Event.Succeeds w w' := by
  have hi := hp.inv
  unfold fsWrite
  by_cases hroom : w.fs.SectorIsFull w.fs.curr.sector
  · obtain ⟨s, hs⟩ := exists_blankOther hp.blank
    obtain ⟨t, ht, hw⟩ := fsWriteWith_switch crc
      (fun w => (fsThread crc ready (n + 1) true w).map Prod.snd) name ext hlen hroom
      ⟨s, not_full_of_blank hs.2⟩
    obtain ⟨hpt, hfree⟩ := hp.setSector hroom ht
    obtain ⟨⟨code, v⟩, he, hv⟩ := hpt.poll (fun w => (fsThread crc ready n true w).map Prod.snd) true
    obtain ⟨_, _, he', hserved, hroomv⟩ := nested_served
      (fun w => (fsThread crc ready n true w).map Prod.snd) ready hi hroom ht
    rw [he] at he'
    cases he'
    have hpv : Paced crc v 2 := hv.paced
    have hslotv : HasSlot v.fs (name, ext.setWidth 3) := by
      obtain ⟨k, -, hm⟩ := hserved.moves
      exact hslot.congr (hm.spec hpt.inv).2.keys
    have hthread : (fsThread crc ready (n + 1) true (w.setSector t)).map Prod.snd = some v := by
      show (fsThreadWith _ ready true (w.setSector t)).map Prod.snd = _
      rw [he]
      rfl
    refine ⟨_, ?_, hpv.append data (hpv.inv.shape.room_iff.1 hroomv) hslotv, ?_⟩
    · rw [hw v hthread]
      exact congrArg some (append_returns hpv.inv hslotv)
    · exact Logged.trans hv.logged (append_spared data hpv.inv hslotv).2.2
  · refine ⟨_, ?_, hp.append data (hi.shape.room_iff.1 hroom) hslot,
      (append_spared data hi hslot).2.2⟩
    rw [fsWriteWith_room hlen hroom]
    exact congrArg some (append_returns hi hslot)

end write

/-- With a blank sector to spare some sector is not full. -/
theorem Paced.exists_room (hp : Paced crc w c) : ∃ s, ¬ w.fs.SectorIsFull s := by
  obtain ⟨s, hs⟩ := exists_blankOther hp.blank
  exact ⟨s, not_full_of_blank hs.2⟩

end paced

end Wormvars
