import Wormvars.Capacity

/-!
# One call of `fs_thread`, label by label

`Phase crc ans flag w r`: from the label where the thread stands in `w` a call
ends in `r`, whatever the waits in it are answered.  A call has exactly one of these
endings (`fsThread_phase`), and so does the call that `updateSector` makes after it
has switched sectors (`fsWrite_phase`).  What is said about single calls in the
modules behind this one is read off these cases.

`unreached fs` counts the descriptors in the victim that the thread still has to
look at; before there is a victim, it is the 50 that the victim has at most.
-/

namespace Wormvars

open NorFlash

variable {crc : Block → BitVec 32} {ans : Answers} {flag : Bool} {w : World}

/-! ## Endings -/

/-- The loop over the descriptors is entered at slot `n`, to relocate sector `S`. -/
inductive Enters (fs : Fs) : Fin 8 → Nat → Prop
  | choose (S : Fin 8) : fs.pt = .yieldStart → blankOthers fs < 2 → findRelocSector fs = some S →
      Chosen fs S → liveIn fs S ≤ 50 → Enters fs S 0
  | next : fs.pt = .yieldNext → Enters fs fs.reloc.sector (fs.reloc.fdIndex + 1)

/-- Slot `j` is the first from `n` on that holds a descriptor in `S`. -/
structure Found (fs : Fs) (S : Fin 8) (n j : Nat) (fd : FileDescriptor) : Prop where
  lo : n ≤ j
  get : fs.fd[j]? = some fd
  sector : fd.sector = S
  first : ∀ i x, n ≤ i → i < j → fs.fd[i]? = some x → x.sector ≠ S

inductive Phase (crc : Block → BitVec 32) (ans : Answers) (flag : Bool) (w : World) :
    PtCode × World → Prop
  | timer : w.fs.pt = .null ∨ w.fs.pt = .waitTimer → Phase crc ans flag w
      (if flag ∨ ans.timerExpired then (.yielded, w.setPt .yieldStart)
        else (.waiting, w.setPt .waitTimer))
  | idle : w.fs.pt = .yieldStart → 2 ≤ blankOthers w.fs →
      Phase crc ans flag w (.waiting, w.setPt .null)
  | found (S : Fin 8) (n j : Nat) (fd : FileDescriptor) : Enters w.fs S n →
      Found w.fs S n j fd → Phase crc ans flag w
        (relocRead ans (w.setReloc { w.fs.reloc with sector := S, fd := fd, fdIndex := j }))
  | behind (S : Fin 8) (n m : Nat) : Enters w.fs S n →
      (∀ fd ∈ w.fs.fd, fd.sector ≠ S) →
      Victim { w.fs with reloc := { w.fs.reloc with sector := S } } → Phase crc ans flag w
        (relocErase ans (w.setReloc { w.fs.reloc with sector := S, fdIndex := m }))
  | read : w.fs.pt = .waitRead → Phase crc ans flag w (relocRead ans w)
  | erase : w.fs.pt = .waitErase → (∀ fd ∈ w.fs.fd, fd.sector ≠ w.fs.reloc.sector) →
      Victim w.fs → Phase crc ans flag w (relocErase ans w)
  | passed (fd : FileDescriptor) : w.fs.pt = .yieldRead →
      w.fs.fd[w.fs.reloc.fdIndex]? = some fd → fd.address ≠ w.fs.reloc.fd.address →
      Phase crc ans flag w (.yielded, w.setPt .yieldNext)
  | copied (fd : FileDescriptor) : w.fs.pt = .yieldRead →
      w.fs.fd[w.fs.reloc.fdIndex]? = some fd → fd.address = w.fs.reloc.fd.address →
      ¬ w.fs.SectorIsFull w.fs.curr.sector → Phase crc ans flag w (.yielded, w.relocate crc)
  | retried : w.fs.pt = .yieldRead ∨ w.fs.pt = .yieldRetry → (∀ s, w.fs.SectorIsFull s) →
      Phase crc ans flag w (.yielded, (w.returns (-2)).2.setPt .yieldRetry)
  | switched (fd : FileDescriptor) (s : Fin 8) : w.fs.pt = .yieldRead →
      w.fs.fd[w.fs.reloc.fdIndex]? = some fd → fd.address = w.fs.reloc.fd.address →
      w.fs.SectorIsFull w.fs.curr.sector → ¬ w.fs.SectorIsFull s →
      Phase crc ans flag w (.yielded, ((w.setSector s).relocate crc).relocate crc)

/-! ## Every call is one of them -/

/-- The loop finds a descriptor in the victim, or there is none left. -/
theorem relocLoop_phase {S : Fin 8} {n : Nat} (he : Enters w.fs S n)
    (hv : Victim { w.fs with reloc := { w.fs.reloc with sector := S } })
    (hm : Moved { w.fs with reloc := { w.fs.reloc with sector := S } } n) :
    Phase crc ans flag w (relocLoop ans (w.fs.fd.drop n)
      (w.setReloc { w.fs.reloc with sector := S, fdIndex := n })) := by
  rcases relocLoop_cases ans (w.setReloc { w.fs.reloc with sector := S }) n with
    ⟨j, fd, hj, hg, hsec, hbef, h⟩ | ⟨m, hall, h⟩
  · refine Eq.mpr (congrArg (Phase crc ans flag w) h) ?_
    exact .found S n j fd he ⟨hj, hg, hsec, hbef⟩
  · refine Eq.mpr (congrArg (Phase crc ans flag w) h) ?_
    refine .behind S n m he (fun x hx => ?_) hv
    obtain ⟨i, hxi⟩ := List.mem_iff_getElem?.1 hx
    by_cases hin : i < n
    · exact hm i x hin hxi
    · exact hall i x (by omega) hxi

section calls
variable (hi : Inv crc w.fs w.flash)
include hi

/-- At a label that does not lead to `fs_write`. -/
theorem fsThreadWith_phase
    (write : World → BitVec 16 → BitVec 8 → List Byte → Option (Int × World))
    (h₁ : w.fs.pt ≠ .yieldRead) (h₂ : w.fs.pt ≠ .yieldRetry) :
    ∃ r, fsThreadWith write ans flag w = some r ∧ Phase crc ans flag w r := by
  have ht := hi.thread
  unfold Suspended at ht
  unfold fsThreadWith
  cases hpt : w.fs.pt with
  | null =>
    refine ⟨_, ?_, .timer (Or.inl hpt)⟩
    simp only
    split <;> rfl
  | waitTimer =>
    refine ⟨_, ?_, .timer (Or.inr hpt)⟩
    simp only
    split <;> rfl
  | yieldStart =>
    simp only
    cases hS : findRelocSector w.fs with
    | none => exact ⟨_, rfl, .idle hpt ((findRelocSector_none w.fs).1 hS)⟩
    | some S =>
      obtain ⟨hc, hl⟩ := chosen_of_findRelocSector hi.shape hi.index hS
      have hb : blankOthers w.fs < 2 := by
        by_contra hge
        rw [(findRelocSector_none w.fs).2 (by omega)] at hS
        cases hS
      exact ⟨_, rfl, relocLoop_phase (.choose S hpt hb hS hc hl) ⟨hc.full.2, hc.full.1⟩
        fun j x hj => absurd hj (Nat.not_lt_zero j)⟩
  | waitRead => exact ⟨_, rfl, .read hpt⟩
  | yieldRead => exact absurd hpt h₁
  | yieldRetry => exact absurd hpt h₂
  | yieldNext =>
    rw [hpt] at ht
    exact ⟨_, rfl, relocLoop_phase (.next hpt) ht.1 ht.2⟩
  | waitErase =>
    rw [hpt] at ht
    exact ⟨_, rfl, .erase hpt ht.2 ht.1⟩

/-- With room in the current sector the inner activation is not reached. -/
theorem fsThreadWith_room_phase (thread : World → Option World) (ans : Answers) (flag : Bool)
    (hroom : ¬ w.fs.SectorIsFull w.fs.curr.sector) :
    ∃ r, fsThreadWith (fsWriteWith crc thread) ans flag w = some r ∧ Phase crc ans flag w r := by
  by_cases hpt : w.fs.pt = .yieldRead ∨ w.fs.pt = .yieldRetry
  · obtain ⟨-, -, ⟨fd, hpk⟩, hall⟩ := hi.picked hpt
    have h₁ : w.fs.pt = .yieldRead := hpt.resolve_right fun h => hroom (hall h _)
    rw [fsThreadWith_yieldRead _ ans flag h₁ hpk.get]
    split
    · next ha =>
      have hc := hi.carries h₁ hpk.get ha
      exact ⟨_, relocWrite_room thread hi hc hroom, .copied fd h₁ hpk.get ha hroom⟩
    · next ha => exact ⟨_, rfl, .passed fd h₁ hpk.get ha⟩
  · rw [not_or] at hpt
    exact fsThreadWith_phase hi _ hpt.1 hpt.2

/-- At the labels that lead to `fs_write`, with the current sector full. -/
theorem fsThread_full_phase (n : Nat) (hfull : w.fs.SectorIsFull w.fs.curr.sector)
    (hpt : w.fs.pt = .yieldRead ∨ w.fs.pt = .yieldRetry) :
    ∃ r, fsThread crc ans (n + 2) flag w = some r ∧ Phase crc ans flag w r := by
  obtain ⟨-, -, ⟨fd, hpk⟩, hretry⟩ := hi.picked hpt
  unfold fsThread
  generalize hT : (fun w => (fsThread crc ans (n + 1) true w).map Prod.snd) = T
  rcases hpt with hpt | hpt
  · rw [fsThreadWith_yieldRead _ ans flag hpt hpk.get]
    split
    · next ha =>
      by_cases hall : ∀ s, w.fs.SectorIsFull s
      · exact ⟨_, (relocWrite_allFull T hi hall (Or.inl hpt) hpk ha).1, .retried (Or.inl hpt) hall⟩
      · have hc := hi.carries hpt hpk.get ha
        -- the inner activation resumes at the same label, with room
        have hthread : ∀ s, ¬ w.fs.SectorIsFull s →
            T (w.setSector s) = some ((w.setSector s).relocate crc) := by
          intro s hs
          have hi₁ := (hi.setSector hfull hs).1
          rw [← hT]
          show (fsThreadWith (fsWriteWith crc _) ans true (w.setSector s)).map Prod.snd = _
          rw [fsThreadWith_yieldRead (w := w.setSector s) _ ans true hpt hpk.get,
            if_pos (show fd.address = (w.setSector s).fs.reloc.fd.address from ha),
            relocWrite_room _ hi₁ (hc.setSector hs) hs]
          rfl
        obtain ⟨s, hs, he⟩ := relocWrite_switch T hi hc hfull (not_forall.1 hall) hthread
        exact ⟨_, he, .switched fd s hpt hpk.get ha hfull hs⟩
    · next ha => exact ⟨_, rfl, .passed fd hpt hpk.get ha⟩
  · have ht := hi.thread
    unfold Suspended at ht
    rw [hpt] at ht
    obtain ⟨-, -, hall, fd', hpk', ha⟩ := ht
    rw [fsThreadWith_yieldRetry _ ans flag hpt]
    exact ⟨_, (relocWrite_allFull T hi hall (Or.inr hpt) hpk' ha).1, .retried (Or.inr hpt) hall⟩

theorem fsThread_phase (ans : Answers) (flag : Bool) (n : Nat) :
    ∃ r, fsThread crc ans (n + 2) flag w = some r ∧ Phase crc ans flag w r := by
  by_cases hroom : w.fs.SectorIsFull w.fs.curr.sector
  · by_cases hpt : w.fs.pt = .yieldRead ∨ w.fs.pt = .yieldRetry
    · exact fsThread_full_phase hi n hroom hpt
    · rw [not_or] at hpt
      exact fsThreadWith_phase hi _ hpt.1 hpt.2
  · exact fsThreadWith_room_phase hi _ ans flag hroom

end calls

/-- How a call of `fs_write` ends, with the activation of `fs_thread` in it. -/
inductive WritePhase (crc : Block → BitVec 32) (ans : Answers) (w : World) (name : BitVec 16)
    (ext : BitVec 8) (data : List Byte) : Int × World → Prop
  | tooLong : 28 < data.length → WritePhase crc ans w name ext data (w.returns (-1))
  | allFull : data.length ≤ 28 → (∀ s, w.fs.SectorIsFull s) →
      WritePhase crc ans w name ext data (w.returns (-2))
  | room : data.length ≤ 28 → ¬ w.fs.SectorIsFull w.fs.curr.sector →
      HasSlot w.fs (name, ext.setWidth 3) →
      WritePhase crc ans w name ext data (0, (appendBlock crc w (writeBuffer name ext data)).2)
  | switched (s : Fin 8) (c : PtCode) (v : World) : data.length ≤ 28 →
      w.fs.SectorIsFull w.fs.curr.sector → ¬ w.fs.SectorIsFull s →
      Phase crc ans true (w.setSector s) (c, v) → Inv crc v.fs v.flash →
      ¬ v.fs.SectorIsFull v.fs.curr.sector → HasSlot v.fs (name, ext.setWidth 3) →
      WritePhase crc ans w name ext data (0, (appendBlock crc v (writeBuffer name ext data)).2)

/-- The call that `updateSector` makes after a switch. -/
theorem nested_phase (hi : Inv crc w.fs w.flash) (ans : Answers) (n : Nat)
    (hfull : w.fs.SectorIsFull w.fs.curr.sector) {s : Fin 8} (hs : ¬ w.fs.SectorIsFull s) :
    ∃ c v, fsThread crc ans (n + 1) true (w.setSector s) = some (c, v) ∧
      Phase crc ans true (w.setSector s) (c, v) ∧ Inv crc v.fs v.flash ∧ keys v.fs = keys w.fs ∧
      ¬ v.fs.SectorIsFull v.fs.curr.sector := by
  have hi' := (hi.setSector hfull hs).1
  obtain ⟨c, v, he, hv, hroom⟩ := nested_served
    (fun w => (fsThread crc ans n true w).map Prod.snd) ans hi hfull hs
  obtain ⟨r, he', hp⟩ := fsThreadWith_room_phase hi'
    (fun w => (fsThread crc ans n true w).map Prod.snd) ans true hs
  obtain rfl : (c, v) = r := Option.some.inj (he.symm.trans he')
  obtain ⟨k, -, hm⟩ := hv.moves
  exact ⟨c, v, he, hp, hv.inv hi', (hm.spec hi').2.keys, hroom⟩

theorem fsWrite_phase (hi : Inv crc w.fs w.flash) (ans : Answers) (n : Nat) {name : BitVec 16}
    {ext : BitVec 8} {data : List Byte}
    (hslot : data.length ≤ 28 → (∃ s, ¬ w.fs.SectorIsFull s) →
      HasSlot w.fs (name, ext.setWidth 3)) :
    ∃ r, fsWrite crc ans (n + 1) w name ext data = some r ∧
      WritePhase crc ans w name ext data r := by
  by_cases hlen : data.length ≤ 28
  · by_cases hall : ∀ s, w.fs.SectorIsFull s
    · exact ⟨_, fsWriteWith_allFull hlen hall, .allFull hlen hall⟩
    · have hslot' := hslot hlen (not_forall.1 hall)
      by_cases hfull : w.fs.SectorIsFull w.fs.curr.sector
      · obtain ⟨s, hs, hw⟩ := fsWriteWith_switch crc
          (fun w => (fsThread crc ans (n + 1) true w).map Prod.snd) name ext hlen hfull
          (not_forall.1 hall)
        obtain ⟨c, v, he, hp, hi', hk, hroom⟩ := nested_phase hi ans n hfull hs
        have hslotv : HasSlot v.fs (name, ext.setWidth 3) := hslot'.congr hk
        refine ⟨_, hw v (by simp only [he, Option.map_some]), ?_⟩
        rw [append_returns hi' hslotv]
        exact .switched s c v hlen hfull hs hp hi' hroom hslotv
      · refine ⟨_, fsWriteWith_room hlen hfull, ?_⟩
        rw [append_returns hi hslot']
        exact .room hlen hfull hslot'
  · exact ⟨_, fsWriteWith_tooLong (by omega), .tooLong (by omega)⟩

theorem WritePhase.inv {name : BitVec 16} {ext : BitVec 8} {data : List Byte} {r : Int × World}
    (h : WritePhase crc ans w name ext data r) (hi : Inv crc w.fs w.flash) :
    Inv crc r.2.fs r.2.flash := by
  cases h with
  | tooLong => exact hi
  | allFull => exact hi
  | room _ hroom hslot =>
    have hslot' : HasSlot w.fs (writeBuffer name ext data).header.key := hslot
    exact hi.append hroom hslot'
  | switched s c v _ _ _ _ hv hroom hslot =>
    have hslot' : HasSlot v.fs (writeBuffer name ext data).header.key := hslot
    exact hv.append hroom hslot'

/-! ## What is still to be looked at -/

/-- The descriptors in the victim that the thread has not dealt with. -/
def unreached (fs : Fs) : Nat :=
  match fs.pt with
  | .null | .waitTimer | .yieldStart => 50
  | .waitRead | .yieldRead | .yieldRetry => ahead fs + 1
  | .yieldNext => ahead fs
  | .waitErase => 0

section unreached
variable {fs fs' : Fs} {f : Mem}

theorem unreached_start (h : fs.pt = .null ∨ fs.pt = .waitTimer ∨ fs.pt = .yieldStart) :
    unreached fs = 50 := by
  unfold unreached
  rcases h with h | h | h <;> rw [h]

theorem unreached_picked (h : fs.pt = .waitRead ∨ fs.pt = .yieldRead ∨ fs.pt = .yieldRetry) :
    unreached fs = ahead fs + 1 := by
  unfold unreached
  rcases h with h | h | h <;> rw [h]

theorem Enters.liveFrom_le {S : Fin 8} {n : Nat} (h : Enters fs S n) :
    liveFrom fs S n ≤ unreached fs := by
  unfold unreached
  cases h with
  | choose _ hpt _ _ _ hl =>
    rw [hpt]
    exact hl
  | next hpt =>
    rw [hpt]
    exact Nat.le_refl _

theorem Found.liveFrom {S : Fin 8} {n j : Nat} {fd : FileDescriptor} (h : Found fs S n j fd) :
    liveFrom fs S (j + 1) + 1 = Wormvars.liveFrom fs S n :=
  liveFrom_found h.lo h.get h.sector h.first

/-- A write leaves the thread with no more to do. -/
theorem Placed.unreached_le {k : Key} (hp : Placed k fs fs') (hi : Inv crc fs f) :
    unreached fs' ≤ unreached fs := by
  have hle : Relocating fs → ahead fs' ≤ ahead fs := fun hr => hp.ahead_le (hi.victim hr)
  unfold unreached
  rw [hp.pt]
  cases hpt : fs.pt with
  | null => exact Nat.le_refl _
  | waitTimer => exact Nat.le_refl _
  | yieldStart => exact Nat.le_refl _
  | waitRead => exact Nat.succ_le_succ (hle (by simp [Relocating, hpt]))
  | yieldRead => exact Nat.succ_le_succ (hle (by simp [Relocating, hpt]))
  | yieldRetry => exact Nat.succ_le_succ (hle (by simp [Relocating, hpt]))
  | yieldNext => exact hle (by simp [Relocating, hpt])
  | waitErase => exact Nat.le_refl _

end unreached

end Wormvars
