import Wormvars.Recovery
import Wormvars.Tour

/-!
# Safety of the flash operations

Every program that is issued is one that write-once flash stores as requested
(`programs_legal`), every erase hits a sector without live data, and nothing live
comes into a sector between its choice as victim and its erase
(`erases_only_dead`).
-/

namespace Wormvars

open NorFlash NewerLog Runs

variable {crc : Block → BitVec 32} {n : Nat} {h : List Label} {l : Label}

/-- The operations of a step within the limits are good ones. -/
theorem issued_good {s : Sys} (hr : Run (Step crc (n + 2)) (.off erased) h s)
    (hl : Limits (l :: h)) : ∀ e ∈ issued crc (n + 2) s l, ∃ Ms, Good crc Ms e := by
  obtain ⟨-, S, -, hsound, hpassed⟩ := hl.tail.reaches hr (sound_erased crc)
  exact fun e he => ⟨_, hsound.good hl.head (hl.slotFree hsound hpassed) e he⟩

/-! ## Programs -/

/-- A legal program leaves exactly the requested bytes. -/
theorem LegalProgram.stored {fs : Fs} {f : Mem} {a : Nat} {bs : List Byte}
    (h : LegalProgram fs f a bs) (i : Nat) (hi : i < bs.length) :
    program f a bs (a + i) = bs[i] := by
  by_cases hl : bs.length = fsBlockSize
  · obtain ⟨-, -, hb⟩ := h.block hl
    exact program_of_blank f a bs (hl ▸ hb) i hi
  · obtain ⟨-, hs, -⟩ := h.header hl
    exact program_of_submask f a bs hs i hi

theorem programs_legal {s : Sys} (hr : Run (Step crc (n + 2)) (.off erased) h s)
    (hl : Limits (l :: h)) :
    ∀ e ∈ issued crc (n + 2) s l, ∀ a bs, e.op = .program a bs →
      LegalProgram e.fs e.flash a bs ∧
        ∀ i (hi : i < bs.length), program e.flash a bs (a + i) = bs[i] := by
  intro e he a bs hop
  obtain ⟨Ms, hg⟩ := issued_good hr hl e he
  have := hg.legal a bs hop
  exact ⟨this, this.stored⟩

/-- The first write issues two programs and returns. -/
theorem programs_legal_one :
    (issued (fun _ => 0) 2 (.on (coldBoot (fun _ => 0) erased))
      (.cut (.write 7 0 [1, 2] ⟨true, true⟩))).length = 3 ∧
    ∀ e ∈ issued (fun _ => 0) 2 (.on (coldBoot (fun _ => 0) erased))
      (.cut (.write 7 0 [1, 2] ⟨true, true⟩)), ∀ a bs, e.op = .program a bs →
      LegalProgram e.fs e.flash a bs :=
  ⟨by decide +kernel, fun e he a bs hop => (programs_legal
    (Run.refl.step (.boot (.off erased)) : Run (Step (fun _ => 0) (0 + 2)) _ [.boot] _)
    (.single rfl (by decide)) e he a bs hop).1⟩

/-! ## Erases -/

/-- Erases hit no live data.  Between two calls the victim is full and not the current sector; no
call brings a descriptor into it, and it is the victim until a call erases it. -/
theorem erases_only_dead {s : Sys} (hr : Run (Step crc (n + 2)) (.off erased) h s)
    (hl : Limits (l :: h)) :
    (∀ e ∈ issued crc (n + 2) s l, ∀ a, e.op = .erase a → SafeErase crc e.fs e.flash a) ∧
    (∀ w, s = .on w → Relocating w.fs →
      w.fs.SectorIsFull w.fs.reloc.sector ∧ w.fs.reloc.sector ≠ w.fs.curr.sector) ∧
    ∀ w c r w', s = .on w → l = .call c r → Step crc (n + 2) s l (.on w') →
      (Relocating w'.fs → ∀ fd ∈ w'.fs.fd, fd.sector = w'.fs.reloc.sector → fd ∈ w.fs.fd) ∧
      (Relocating w.fs →
        (Relocating w'.fs ∧ w'.fs.reloc.sector = w.fs.reloc.sector) ∨
        ∃ e ∈ issued crc (n + 2) s l, e.op = .erase (sectorBase w.fs.reloc.sector)) := by
  obtain ⟨-, S, -, hsound, hpassed⟩ := hl.tail.reaches hr (sound_erased crc)
  refine ⟨fun e he => ?_, ?_, ?_⟩
  · obtain ⟨Ms, hg⟩ := issued_good hr hl e he
    exact hg.erase
  · rintro w rfl hrel
    have hv := hsound.2.1.victim hrel
    exact ⟨hv.full, hv.notCurrent⟩
  · rintro w c r w' rfl rfl hst
    obtain ⟨r', v, hex, hspec⟩ := hl.call hsound hpassed n
    cases hst with
    | call _ _ _ _ hex' =>
      have hissued : issued crc (n + 2) (.on w) (.call c r) = w'.log := issued_call hex'
      rw [hex] at hex'
      cases hex'
      obtain ⟨S', -, -, hi', -⟩ := hspec.store
      refine ⟨fun hrel fd hm hsec => ?_, fun hrel => ?_⟩
      · rcases hspec.spared.fds fd hm with hm | hcur
        · exact hm
        · exact absurd (hsec.symm.trans hcur) (hi'.victim hrel).notCurrent
      · rw [hissued]
        exact hspec.spared.victim hrel

/-- The last call of a relocation. -/
theorem erases_only_dead_tour : ∃ h u w x v e, Tour h u w x v ∧
    e ∈ issued (fun _ => 0) 2 (.on x) (.call (.thread ready) (.ran .ended)) ∧
    e.op = .erase (sectorBase w.fs.reloc.sector) ∧
    SafeErase (fun _ => 0) e.fs e.flash (sectorBase w.fs.reloc.sector) ∧
    x.fs.reloc.sector = w.fs.reloc.sector ∧ x.fs.reloc.sector ≠ x.fs.curr.sector := by
  obtain ⟨h, u, w, x, v, ht⟩ := tour
  obtain ⟨e, he, hop⟩ := ht.freed
  have hm : e ∈ issued (fun _ => 0) (0 + 2) (.on x) (.call (.thread ready) (.ran .ended)) := by
    rw [issued_call ht.freeing]
    exact he
  obtain ⟨hrun, hkeys⟩ := ht.beforeErase.fromOff
  obtain ⟨hsafe, hvictim, -⟩ :=
    erases_only_dead hrun (hkeys.append (.thread ready (.ran .ended))).limits
  obtain ⟨hpt, hreloc, -⟩ := ht.copied
  have hrel : Relocating x.fs := by simp [Relocating, hpt]
  exact ⟨h, u, w, x, v, e, ht, hm, hop, hsafe e hm _ hop, congrArg Reloc.sector hreloc,
    (hvictim x rfl hrel).2⟩

end Wormvars
