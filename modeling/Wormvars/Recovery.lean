import Wormvars.Refinement
import Wormvars.Tour

/-!
# The index and the log

Between two calls the descriptors, the append pointers and the flash agree
(`reachable_consistent`), and a boot builds from the flash alone what the calls
had built step by step (`reboot_rebuilds`).
-/

namespace Wormvars

open NorFlash NewerLog Runs

variable {crc : Block → BitVec 32} {n : Nat} {h : List Label}

/-- Within the limits the invariant holds whenever the system is on. -/
theorem reachable_inv {w : World} (hr : Run (Step crc (n + 2)) (.off erased) h (.on w))
    (hl : Limits h) : Inv crc w.fs w.flash := by
  obtain ⟨-, S, -, hsound, -⟩ := hl.reaches hr (sound_erased crc)
  exact hsound.2.1

/-! ## Consistency -/

/-- What holds between two calls. -/
structure Consistent (crc : Block → BitVec 32) (fs : Fs) (f : Mem) : Prop where
  count : fs.fd.length ≤ 300
  keys : fs.fd.Pairwise fun a b => (a.header.name, a.header.ext) ≠ (b.header.name, b.header.ext)
  addresses : fs.fd.Pairwise fun a b => a.address ≠ b.address
  placed : ∀ fd ∈ fs.fd, sectorBase fd.sector ≤ fd.address ∧
    (fd.address - sectorBase fd.sector) % 32 = 0 ∧ fd.address + 32 ≤ sectorBase fd.sector + 4096 ∧
    fd.address < fs.curr.address fd.sector
  header : ∀ fd ∈ fs.fd, [f fd.address, f (fd.address + 1), f (fd.address + 2),
    f (fd.address + 3)] = fd.header.toBytes
  valid : ∀ fd ∈ fs.fd, (checkBlock crc (flashRead f fd.address)).1 = 0
  rejected : ∀ s a, sectorBase s ≤ a → a < fs.curr.address s → (a - sectorBase s) % 32 = 0 →
    (∀ fd ∈ fs.fd, fd.address ≠ a) → (checkBlock crc (flashRead f a)).1 ≠ 0
  once : ∀ fd ∈ fs.fd, ∀ s a, sectorBase s ≤ a → a < sectorBase s + 4096 →
    (a - sectorBase s) % 32 = 0 → (checkBlock crc (flashRead f a)).1 = 0 →
    (flashRead f a).header.name = fd.header.name → (flashRead f a).header.ext = fd.header.ext →
    a = fd.address
  blank : ∀ s x, fs.curr.address s ≤ x → x < sectorBase s + 4096 → f x = 0xFF
  others : ∀ s, s ≠ fs.curr.sector → fs.SectorIsBlank s ∨ fs.SectorIsFull s

theorem cell_of_offset {s : Fin 8} {a : Nat} (hlo : sectorBase s ≤ a)
    (hhi : a < sectorBase s + 4096) (ha : (a - sectorBase s) % 32 = 0) : IsCell a := by
  have := sectorBase_mod s
  exact InSector.isCell (s := s) ⟨hlo, hhi⟩ (by omega)

theorem Inv.consistent {fs : Fs} {f : Mem} (hi : Inv crc fs f) : Consistent crc fs f := by
  have hx := hi.index
  have hkeys : fs.fd.Pairwise fun a b => a.header.key ≠ b.header.key :=
    List.pairwise_map.1 hx.nodup
  constructor
  · exact hx.len
  · exact hkeys
  · refine hkeys.imp_of_mem fun ha hb hk he => hk ?_
    rw [hx.eq_of_address ha hb he]
  · intro fd hm
    have hin := hx.sector fd hm
    have hbelow := hi.shape.below_of_copy hin (hx.copy hm)
    have hcell := hx.cell fd hm
    have hbase := sectorBase_mod fd.sector
    unfold InSector at hin
    unfold IsCell at hcell
    exact ⟨hin.1, by omega, by omega, hbelow⟩
  · intro fd hm
    rw [← hx.header fd hm]
    exact (BlockHeader.toBytes_ofBytes _ _ _ _).symm
  · exact hx.accepted
  · intro s a hlo hhi ha hno hacc
    have hs := hi.shape.hi s
    have hcell : IsCell a := cell_of_offset hlo (by omega) ha
    obtain ⟨fd, hm, he⟩ := hx.complete a _ (copies_eq_some hcell hacc)
    exact hno fd hm he
  · intro fd hm s a hlo hhi ha hacc hn he
    have hcell : IsCell a := cell_of_offset hlo hhi ha
    have hk : (flashRead f a).header.key = fd.header.key := Prod.ext hn he
    exact (hx.single a fd.address _ _ (copies_eq_some hcell hacc) (hx.copy hm) hk)
  · exact hi.shape.blank
  · intro s hs
    refine (hi.shape.others s hs).imp_right fun h => ?_
    unfold Fs.SectorIsFull filesystemSectorSize
    exact Nat.le_of_eq h.symm

theorem reachable_consistent {w : World} (hr : Run (Step crc (n + 2)) (.off erased) h (.on w))
    (hl : Limits h) : Consistent crc w.fs w.flash :=
  (reachable_inv hr hl).consistent

/-- After a relocation. -/
theorem reachable_consistent_tour : ∃ h u w x v, Tour h u w x v ∧
    Consistent (fun _ => 0) v.fs v.flash := by
  obtain ⟨h, u, w, x, v, ht⟩ := tour
  obtain ⟨hrun, hkeys⟩ := ht.afterErase.fromOff
  exact ⟨h, u, w, x, v, ht, reachable_consistent hrun hkeys.limits⟩

/-! ## Reboot -/

/-- Two indexes of one flash hold the same descriptors. -/
theorem Indexed.perm {fs fs' : Fs} {f : Mem} (hx : Indexed crc fs f) (hx' : Indexed crc fs' f) :
    fs.fd.Perm fs'.fd := by
  have hsub : ∀ {a b : Fs}, Indexed crc a f → Indexed crc b f → ∀ fd ∈ a.fd, fd ∈ b.fd := by
    intro a b ha hb fd hm
    obtain ⟨fd', hm', he⟩ := hb.complete _ _ (ha.copy hm)
    have hhead : fd'.header = fd.header := by
      rw [← ha.header fd hm, ← hb.header fd' hm', he]
    have hin := hb.sector fd' hm'
    rw [he] at hin
    have hsec : fd'.sector = fd.sector := hin.unique (ha.sector fd hm)
    obtain ⟨a, h, s⟩ := fd
    obtain ⟨a', h', s'⟩ := fd'
    obtain rfl : a' = a := he
    obtain rfl : h' = h := hhead
    obtain rfl : s' = s := hsec
    exact hm'
  rw [List.perm_ext_iff_of_nodup hx.nodup.of_map hx'.nodup.of_map]
  exact fun fd => ⟨hsub hx hx' fd, hsub hx' hx fd⟩

/-- A boot from the flash of a running system writes nothing and finds what was in RAM. -/
theorem reboot_rebuilds {w : World} (hr : Run (Step crc (n + 2)) (.off erased) h (.on w))
    (hl : Limits h) :
    (coldBoot crc w.flash).log = [] ∧ (coldBoot crc w.flash).flash = w.flash ∧
      (∀ s, (coldBoot crc w.flash).fs.curr.address s = w.fs.curr.address s) ∧
      (coldBoot crc w.flash).fs.fd.Perm w.fs.fd ∧
      (¬ w.fs.SectorIsBlank w.fs.curr.sector → ¬ w.fs.SectorIsFull w.fs.curr.sector →
        (coldBoot crc w.flash).fs.curr.sector = w.fs.curr.sector) := by
  have hi := reachable_inv hr hl
  have hb := coldBoot_spec hi.shape hi.index.represents hi.index.fits
  obtain ⟨hflash, hlog⟩ := hb.quiet hi.index.single
  have hindex := hb.inv.index
  rw [hflash] at hindex
  refine ⟨hlog, hflash, fun s => congrFun hb.pointers s, hindex.perm hi.index, fun h₁ h₂ => ?_⟩
  refine hb.target ⟨h₁, fun he => h₂ ?_⟩
  unfold Fs.SectorIsFull
  exact Nat.le_of_eq he.symm

/-- Between the copy and the erase of a relocation. -/
theorem reboot_rebuilds_tour : ∃ h u w x v, Tour h u w x v ∧
    (coldBoot (fun _ => 0) x.flash).log = [] ∧
    (coldBoot (fun _ => 0) x.flash).fs.fd.Perm x.fs.fd := by
  obtain ⟨h, u, w, x, v, ht⟩ := tour
  obtain ⟨hrun, hkeys⟩ := ht.beforeErase.fromOff
  obtain ⟨hlog, -, -, hperm, -⟩ := reboot_rebuilds hrun hkeys.limits
  exact ⟨h, u, w, x, v, ht, hlog, hperm⟩

end Wormvars
