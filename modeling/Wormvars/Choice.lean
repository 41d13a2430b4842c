import Wormvars.ColdBoot
import Wormvars.Tour

/-!
# Which sector is relocated, whatever the flash held

`victim_sound_iff`: in every run from a boot with 300 keys at most, in which there was
a candidate each time a victim was chosen, the next choice is the one it should be
iff there is a candidate.  Without one `findRelocSector` still returns 0 and gives
sector 0 (`no_candidate`).
-/

namespace Wormvars

open NorFlash NewerLog Runs

variable {crc : Block → BitVec 32}

/-! ## One choice -/

/-- What `findRelocSector` should return. -/
structure VictimSound (fs : Fs) : Prop where
  none_iff : findRelocSector fs = none ↔ fsMinBlankSectors ≤ blankOthers fs
  optimal : ∀ S, findRelocSector fs = some S → Optimal fs S

theorem Tidy.victimSound_iff {fs : Fs} (ht : Tidy fs) : VictimSound fs ↔ Candidate fs := by
  constructor
  · intro h
    rcases Nat.lt_or_ge (blankOthers fs) 2 with hb | hb
    · rcases findRelocSector_some ht.liveIn_lt hb with ⟨h0, -⟩ | ⟨S, -, hopt⟩
      · have hopt := h.optimal 0 h0
        exact Or.inr ⟨0, hopt.full, hopt.few⟩
      · exact Or.inr ⟨S, hopt.full, hopt.few⟩
    · exact Or.inl hb
  · exact fun h => ⟨findRelocSector_none fs, fun S hS => h.victim ht hS⟩

/-! ## After a boot -/

theorem Rebuilt.steady {f : Mem} {w : World} (h : Rebuilt crc f w) (hfit : ¬ Crowded crc f) :
    Steady w.fs := by
  have hc := h.complete hfit
  have hsw := h.swept_scanned hc
  have hptr : ∀ s, w.fs.curr.address s = scanEnd f s := fun s => hc s (mem_sectors s)
  have hcell : ∀ fd ∈ w.fs.fd, fd.address ∈ scannedIn f fd.sector := by
    intro fd hm
    obtain ⟨-, hseen, -, -⟩ := hsw.walk.copy hm
    obtain ⟨s, hs⟩ := mem_scanned.1 hseen
    rwa [(hsw.walk.sector fd hm).unique (scannedIn_spec hs).1]
  refine ⟨⟨hsw.len, hsw.walk.nodup, fun s => ?_, fun s => ?_, fun s => ?_, fun fd hm => ?_,
    fun fd hm fd' hm' _ ha => ?_⟩, ?_⟩
  · rw [hptr]
    exact le_scanEnd f s
  · rw [hptr]
    have := scanEnd_le f s
    omega
  · rw [hptr]
    exact scanEnd_mod f s
  · rw [hptr]
    exact mem_scannedIn.1 (hcell fd hm)
  · apply eq_of_key hsw.walk.nodup hm hm'
    rw [← hsw.walk.header fd hm, ← hsw.walk.header fd' hm', ha]
  · unfold Underway
    rw [h.idle]
    trivial

/-- The keys on the flash of a running system fit the table. -/
theorem Inv.not_crowded {fs : Fs} {f : Mem} (hi : Inv crc fs f) : ¬ Crowded crc f := by
  have hsub : (scannedKeys crc f).dedup ⊆ keys fs := by
    intro k hk
    obtain ⟨a, -, c, hc, rfl⟩ := mem_scannedKeys.1 (List.mem_dedup.1 hk)
    obtain ⟨fd, hm, rfl⟩ := hi.index.complete a c hc
    have hcopy := hi.index.copy hm
    rw [hc] at hcopy
    rw [Option.some.inj hcopy]
    exact List.mem_map_of_mem hm
  have hle := ((List.nodup_dedup _).subperm hsub).length_le
  have hlen := hi.index.len
  unfold keys at hle
  unfold Crowded
  rw [List.length_map] at hle
  omega

/-! ## Runs -/

/-- A call that returns and, if it chooses a victim, has a candidate. -/
structure Choosing (crc : Block → BitVec 32) (n : Nat) (w : World) (c : Call) (w' : World) :
    Prop where
  returns : ∃ r, c.exec crc n w.fresh = some (r, w')
  candidate : ∀ fs, c.chooses w = some fs → Candidate fs

theorem Choosing.turns {n : Nat} {w w' : World} {c : Call} (h : Choosing crc n w c w')
    (hs : Steady w.fs) : Turns crc True w.fresh w' := by
  obtain ⟨r, hr⟩ := h.returns
  exact exec_turns (w := w.fresh) hs h.candidate (Or.inl trivial) hr

/-- The sector that `updateSector` turns to becomes the current one before a victim is chosen. -/
theorem Steady.chooses {w : World} (hs : Steady w.fs) {c : Call} {fs : Fs}
    (h : c.chooses w = some fs) : Tidy fs := by
  unfold Call.chooses at h
  cases c with
  | write name ext data ans =>
    simp only at h
    split at h
    · obtain ⟨s, -, rfl⟩ := Option.map_eq_some_iff.1 h
      exact hs.tidy.congr rfl rfl
    · cases h
  | read name ext len => cases h
  | thread ans =>
    simp only at h
    split at h
    · obtain rfl := Option.some.inj h
      exact hs.tidy
    · cases h

theorem victim_sound_iff {n : Nat} {f : Mem} (hfit : (scannedKeys crc f).dedup.length ≤ fdMax)
    {h : List Call} {w : World} (hr : Run (Choosing crc n) (coldBoot crc f) h w) :
    (VictimSound w.fs ↔ Candidate w.fs) ∧
    ∀ (c : Call) (fs : Fs), c.chooses w = some fs → (VictimSound fs ↔ Candidate fs) := by
  have hboot := (coldBoot_rebuilt crc f).steady (Nat.not_lt.2 hfit)
  have hs : Steady w.fs := hr.invariant (I := fun _ w => Steady w.fs) hboot
    fun _ _ _ _ hs hc => (hc.turns hs).steady hs
  exact ⟨hs.tidy.victimSound_iff, fun c fs hc => (hs.chooses hc).victimSound_iff⟩

/-- After a boot from a flash with six full sectors, `fs_thread` has waited for the timer. -/
theorem victim_sound_iff_tour : ∃ h u w x v, Tour h u w x v ∧ ∃ w' S,
    Choosing (fun _ => 0) 1 (coldBoot (fun _ => 0) w.flash) (.thread ready) w' ∧
    findRelocSector w'.fs = some S ∧ Optimal w'.fs S := by
  obtain ⟨h, u, w, x, v, ht⟩ := tour
  have hi := ht.turned.inv
  have hboot := coldBoot_spec hi.shape hi.index.represents hi.index.fits
  obtain ⟨hidle, hblank, -⟩ := ht.reboot
  have hcand := hboot.inv.candidate
  have hsound := @victim_sound_iff (fun _ => 0) 1 w.flash (Nat.not_lt.1 hi.not_crowded)
  refine ⟨h, u, w, x, v, ht, ?_⟩
  clear hboot
  generalize coldBoot (fun _ => 0) w.flash = b at *
  have hstep : Choosing (fun _ => 0) 1 b (.thread ready) (b.fresh.setPt .yieldStart) := by
    refine ⟨⟨_, exec_of_fsThread (r := (.yielded, _)) ?_⟩, fun fs hch => ?_⟩
    · exact fsThreadWith_timer _ false (Or.inl hidle)
    · simp only [Call.chooses] at hch
      rw [if_neg (by rw [hidle]; simp)] at hch
      cases hch
  have hvictim := (hsound (Run.refl.step hstep)).1.2 hcand
  cases hS : findRelocSector (b.fresh.setPt .yieldStart).fs with
  | none =>
    have h2 : 2 ≤ blankOthers b.fs := hvictim.none_iff.1 hS
    omega
  | some S => exact ⟨_, S, hstep, hS, hvictim.optimal S hS⟩

/-- Every sector is partly written: its first cell holds an invalid block. -/
def scribbled : Mem := fun x => if x % 4096 = 0 then 0 else 0xFF

/-- Sector 0 is chosen, which is not full. -/
theorem no_candidate : (scannedKeys (fun _ => 0) scribbled).dedup.length ≤ fdMax ∧
    findRelocSector (coldBoot (fun _ => 0) scribbled).fs = some 0 ∧
    ¬ (coldBoot (fun _ => 0) scribbled).fs.SectorIsFull 0 := by
  decide +kernel

end Wormvars
