import Mathlib.Data.List.Perm.Subperm
import Wormvars.Chain
import Wormvars.Mock
import Wormvars.Wear

/-!
# The file system on the mock

The tests link the file system with `FlashMock`.  What it is asked for over a run is the log
of the run, and at each point of it the mock reads as the flash of the model does
(`Chain`, `Carried`).  So what the tests print is known: the sector map shows the cells in use,
and `get_write_count` and `get_erase_count` are bound to them by the accounts of the file system
(`mock_statistics`).
-/

namespace Wormvars

open NorFlash Runs

variable {crc : Block → BitVec 32} {n : Nat}

/-! ## The mock -/

/-- `flash_write` and `flash_erase` of `flash.cc`. -/
def Op.onMock (m : FlashMock) : Op → FlashMock
  | .program a bs => m.write (BitVec.ofNat 32 a) bs
  | .erase a => m.erase (BitVec.ofNat 32 a)
  | .returns _ => m

/-- The mock after the operations of a log. -/
def mockAfter (log : List Event) : FlashMock := log.foldr (fun e m => e.op.onMock m) .new

def FlashMock.getWriteCount (m : FlashMock) : Nat := m.writeCount

def FlashMock.getEraseCount (m : FlashMock) : Nat := m.eraseCount

/-- The number that `print_sector_map` prints for a sector. -/
def FlashMock.sectorMap (m : FlashMock) (s : Fin 8) : Nat := (m.flash s).length

/-- Blocks and headers of cells, and whole sectors. -/
def Op.OnCells : Op → Prop
  | .program a bs => IsCell a ∧ bs.length ≤ 32
  | .erase a => ∃ s, a = sectorBase s
  | .returns _ => True

theorem Good.onCells {Ms : Contents → Prop} {e : Event} (h : Good crc Ms e) : e.op.OnCells := by
  obtain ⟨fs, f, op⟩ := e
  cases op with
  | program a bs =>
    have hl := h.legal a bs rfl
    refine ⟨?_, ?_⟩
    · by_cases h32 : bs.length = fsBlockSize
      · exact (hl.block h32).1
      · exact (hl.header h32).1
    · rcases hl.length with h32 | h4 | h1
      · exact Nat.le_of_eq h32
      · omega
      · omega
  | erase a =>
    obtain ⟨s, hs, -⟩ := h.erase a rfl
    exact ⟨s, hs⟩
  | returns => trivial

theorem toNat_cell {a : Nat} (ha : IsCell a) : (BitVec.ofNat 32 a).toNat = a := by
  unfold IsCell at ha
  rw [BitVec.toNat_ofNat]
  omega

theorem addressToSector_cell {a : Nat} (ha : IsCell a) :
    ∃ s, FlashMock.addressToSector (BitVec.ofNat 32 a) = some s := by
  rw [← inFlash_iff]
  unfold InFlash
  rw [toNat_cell ha]
  exact ⟨ha.1, ha.2.1⟩

/-- The mock after a log that leads to the flash `f`. -/
structure Carried (m : FlashMock) (f : Mem) (log : List Event) : Prop where
  mirrors : Mirrors m f
  inked : ∀ s, ∀ a ∈ (m.flash s).map FlashChunk.address,
    (stored (m.flash s) a).getD 0 0xFF ≠ 0xFF
  writes : m.getWriteCount = programs log
  erases : m.getEraseCount = erases log

theorem Carried.program {m : FlashMock} {f : Mem} {log : List Event} (h : Carried m f log)
    {fs : Fs} {a : Nat} {bs : List Byte} (ha : IsCell a) (hl : bs.length ≤ 32)
    (hb : bs.getD 0 0xFF ≠ 0xFF) :
    Carried (m.write (BitVec.ofNat 32 a) bs) (program f a bs)
      (⟨fs, f, .program a bs⟩ :: log) := by
  obtain ⟨s, hs⟩ := addressToSector_cell ha
  have hn := toNat_cell ha
  have hm := h.mirrors.write hs (by rw [hn]; exact ha.2.2) hl
  have he := h.mirrors.write_eq hs hl
  rw [hn] at hm
  refine ⟨hm, ?_, ?_, ?_⟩
  · rw [he]
    intro t b hb'
    by_cases ht : t = s
    · subst ht
      simp only [Function.update_self, map_address_writeChunk] at hb' ⊢
      rw [stored_writeChunk]
      split
      · rw [getD_mergeBuffer]
        exact fun h => hb (of_and_eq_ones h)
      · next hne =>
        refine h.inked t b ?_
        split at hb'
        · exact hb'
        · rcases List.mem_append.1 hb' with hb' | hb'
          · exact hb'
          · exact absurd (List.mem_singleton.1 hb') hne
    · simp only [Function.update_of_ne ht] at hb' ⊢
      exact h.inked t b hb'
  · rw [he, programs_program, ← h.writes]
    rfl
  · rw [he, erases_program, ← h.erases]
    rfl

theorem Carried.erase {m : FlashMock} {f : Mem} {log : List Event} (h : Carried m f log)
    {fs : Fs} (s : Fin 8) : Carried (m.erase (BitVec.ofNat 32 (sectorBase s)))
      (NorFlash.erase f (sectorBase s) 4096) (⟨fs, f, .erase (sectorBase s)⟩ :: log) := by
  have hbase := sectorBase_eq s
  have hcell : IsCell (sectorBase s) := by
    unfold IsCell
    omega
  have hn := toNat_cell hcell
  have hs : FlashMock.addressToSector (BitVec.ofNat 32 (sectorBase s)) = some s := by
    rw [addressToSector_eq_some, hn]
    omega
  have hm := h.mirrors.erase hs
  rw [hn, show sectorBase s / 4096 * 4096 = sectorBase s by omega] at hm
  have he : m.erase (BitVec.ofNat 32 (sectorBase s)) = { m with
      flash := Function.update m.flash s []
      eraseCount := m.eraseCount + 1 } := by
    unfold FlashMock.erase
    simp only [hs]
  refine ⟨hm, ?_, ?_, ?_⟩
  · rw [he]
    intro t b hb
    by_cases ht : t = s
    · subst ht
      simp at hb
    · simp only [Function.update_of_ne ht] at hb ⊢
      exact h.inked t b hb
  · rw [he, programs_erase, ← h.writes]
    rfl
  · rw [he, erases_erase, ← h.erases]
    rfl

/-- The mock holds what the operations of the file system leave. -/
theorem Chain.carried {f : Mem} {log : List Event} (h : Chain erased log f)
    (hc : ∀ e ∈ log, e.op.OnCells) : Carried (mockAfter log) f log := by
  induction h with
  | nil => exact ⟨mirrors_new, fun s a ha => (by cases ha), rfl, rfl⟩
  | @cons l e h hi ih =>
    have hl := ih fun e he => hc e (List.mem_cons_of_mem _ he)
    have hon := hc e List.mem_cons_self
    obtain ⟨fs, f, op⟩ := e
    cases op with
    | program a bs => exact hl.program hon.1 hon.2 hi
    | erase a =>
      obtain ⟨s, rfl⟩ := hon
      exact hl.erase s
    | returns r =>
      obtain ⟨h₁, h₂, h₃, h₄⟩ := hl
      exact ⟨h₁, h₂, h₃.trans programs_returns.symm, h₄.trans erases_returns.symm⟩

/-- Every cell reads as on the flash `f`. -/
def ReadsAs (m : FlashMock) (f : Mem) : Prop := ∀ a size, IsCell a → size ≤ 32 →
  (m.read (BitVec.ofNat 32 a) size).1 = some ((List.range size).map fun i => f (a + i))

theorem Carried.reads {m : FlashMock} {f : Mem} {log : List Event} (h : Carried m f log) :
    ReadsAs m f := by
  intro a size ha hsize
  have hn := toNat_cell ha
  rw [h.mirrors.read (by rw [hn]; exact ha.2.2) hsize, arrayExec_read, hn,
    if_pos (inFlash_iff.2 (addressToSector_cell ha))]

/-- There is a chunk for each cell below the append pointer. -/
theorem Carried.mem_chunks {m : FlashMock} {w : World} {log : List Event}
    (h : Carried m w.flash log) (hs : Shape w.fs.curr w.flash) {s : Fin 8} {a : BitVec 32} :
    a ∈ (m.flash s).map FlashChunk.address ↔
      ∃ i, i < cellsUsed w.fs s ∧ BitVec.ofNat 32 (sectorBase s + 32 * i) = a := by
  have haddr := (hs.address_eq s).1
  have hle := (hs.address_eq s).2
  have hbase := sectorBase_eq s
  constructor
  · intro ha
    obtain ⟨hsec, hal⟩ := h.mirrors.start s a ha
    obtain ⟨h₁, h₂⟩ := addressToSector_eq_some.1 hsec
    have hbyte := h.mirrors.bytes a s hsec hal 0 (by omega)
    have hlt : a.toNat < w.fs.curr.address s := by
      by_contra hge
      rw [hs.blank s (a.toNat + 0) (by omega) (by omega)] at hbyte
      exact h.inked s a ha hbyte.symm
    refine ⟨(a.toNat - sectorBase s) / 32, by omega, ?_⟩
    apply BitVec.eq_of_toNat_eq
    rw [BitVec.toNat_ofNat]
    omega
  · rintro ⟨i, hi, rfl⟩
    have hcell : IsCell (sectorBase s + 32 * i) := by
      unfold IsCell
      omega
    have hn := toNat_cell hcell
    have hsec : FlashMock.addressToSector (BitVec.ofNat 32 (sectorBase s + 32 * i)) = some s := by
      rw [addressToSector_eq_some, hn]
      omega
    by_contra hno
    -- without a chunk all bytes would be `0xFF`
    refine hs.written s (sectorBase s + 32 * i) (by omega) (by omega) hcell.2.2 ?_
    rw [blankHeader_iff]
    intro j hj
    have hbyte := h.mirrors.bytes _ s hsec (by rw [hn]; exact hcell.2.2) j (by omega)
    have hnil : stored (m.flash s) (BitVec.ofNat 32 (sectorBase s + 32 * i)) = [] := by
      unfold stored
      split
      · next chunk hfind =>
        have hmem := List.mem_of_find?_eq_some hfind
        have heq : chunk.address = BitVec.ofNat 32 (sectorBase s + 32 * i) := by
          simpa using List.find?_some hfind
        exact absurd (heq ▸ List.mem_map_of_mem hmem) hno
      · rfl
    rw [hn, hnil] at hbyte
    exact hbyte

theorem Carried.sectorMap {m : FlashMock} {w : World} {log : List Event}
    (h : Carried m w.flash log) (hs : Shape w.fs.curr w.flash) (s : Fin 8) :
    m.sectorMap s = cellsUsed w.fs s := by
  have hle := (hs.address_eq s).2
  have hbase := sectorBase_eq s
  have hperm : ((m.flash s).map FlashChunk.address).Perm
      ((List.range (cellsUsed w.fs s)).map fun i => BitVec.ofNat 32 (sectorBase s + 32 * i)) := by
    refine (List.perm_ext_iff_of_nodup (h.mirrors.nodup s) ?_).2 fun a => ?_
    · refine List.Nodup.map_on (fun i hi j hj he => ?_) List.nodup_range
      rw [List.mem_range] at hi hj
      have := congrArg BitVec.toNat he
      rw [BitVec.toNat_ofNat, BitVec.toNat_ofNat] at this
      omega
    · rw [h.mem_chunks hs, List.mem_map]
      simp only [List.mem_range]
  have := hperm.length_eq
  rwa [List.length_map, List.length_map, List.length_range] at this

/-! ## Runs -/

section runs
variable {h : List Label} {w : World} {k : List Event}
  (he : Emits (Step crc (n + 2)) (issued crc (n + 2)) (.on (coldBoot crc erased)) h (.on w) k)
  (hu : Undisturbed h)
include he hu

/-- What holds of all that a call does holds of all that a run does. -/
theorem Undisturbed.logged {P : Event → Prop}
    (hcall : ∀ {v v' : World} {c : Call} {r : Result}, Inv crc v.fs v.flash → SlotFor v c →
      c.exec crc (n + 2) v.fresh = some (r, v') → ∀ e ∈ v'.log, P e) : ∀ e ∈ k, P e := by
  refine he.invariant (I := fun _ _ k => ∀ e ∈ k, P e) suffixClosed_undisturbed hu
    (fun e he => (by cases he)) ?_
  rintro g t l u k' hr hu' hst hlog e hm
  obtain ⟨v, rfl, -⟩ := hu'.tail.reached hr
  obtain ⟨hi, hslot⟩ := hu'.before hr
  have hwhole := hu'.whole l List.mem_cons_self
  rcases List.mem_append.1 hm with hm | hm
  · cases hst with
    | call _ c r v' hex =>
      rw [issued_call hex] at hm
      exact hcall hi hslot hex e hm
    | cut => exact hwhole.elim
    | boot =>
      obtain ⟨-, hnone, -, -⟩ := hi.rebooted
      have hiss : issued crc (n + 2) (.on v) .boot = [] := hnone
      rw [hiss] at hm
      cases hm
    | bootCut => exact hwhole.elim
  · exact hlog e hm

/-- A run starts with the flash as it is delivered. -/
theorem Undisturbed.chain : Chain erased k w.flash := by
  have hstart : (coldBoot crc erased).flash = erased := by
    have hnone : ∀ a, copies crc erased a = none :=
      fun a => copies_eq_none (not_accepted_blank fun _ _ _ => rfl)
    refine ((booted_erased crc).quiet fun a b c d ha => ?_).1
    rw [hnone] at ha
    cases ha
  have hmain := he.invariant (I := fun _ t k => ∃ v, t = .on v ∧ Chain erased k v.flash)
    suffixClosed_undisturbed hu ?_ ?_
  · obtain ⟨v, hv, hc⟩ := hmain
    cases hv
    exact hc
  · refine ⟨_, rfl, ?_⟩
    rw [hstart]
    exact .nil
  · rintro g t l u k' hr hu' hst ⟨v, rfl, hc⟩
    obtain ⟨hi, hslot⟩ := hu'.before hr
    have hwhole := hu'.whole l List.mem_cons_self
    cases hst with
    | call _ c r v' hex =>
      rw [issued_call hex]
      exact ⟨v', rfl, hc.append (hi.exec_chain hslot hex)⟩
    | cut => exact hwhole.elim
    | boot =>
      obtain ⟨-, hlog, hflash, -⟩ := hi.rebooted
      have hiss : issued crc (n + 2) (.on v) .boot = [] := hlog
      refine ⟨_, rfl, ?_⟩
      rw [hiss]
      show Chain erased k' (coldBoot crc v.flash).flash
      rw [hflash]
      exact hc
    | bootCut => exact hwhole.elim

/-- All that a run asks of the mock is about cells and whole sectors. -/
theorem Undisturbed.onCells : ∀ e ∈ k, e.op.OnCells := by
  refine hu.logged he fun hi hslot hex e hm => ?_
  obtain ⟨Ms, hg⟩ := hi.exec_good hslot hex e hm
  exact hg.onCells

end runs

/-- The tests' system after any run of calls and reboots: at the end and before each operation the
mock reads as the flash of the model, the sector map shows the cells in use, and every block
takes three writes, but for the first of each key. -/
theorem mock_statistics {h : List Label} {w : World} {k : List Event}
    (he : Emits (Step crc (n + 2)) (issued crc (n + 2)) (.on (coldBoot crc erased)) h (.on w) k)
    (hu : Undisturbed h) :
    ReadsAs (mockAfter k) w.flash ∧
    (∀ e l, e :: l <:+ k → ReadsAs (mockAfter l) e.flash) ∧
    (∀ s, (mockAfter k).sectorMap s = cellsUsed w.fs s) ∧
    (mockAfter k).getWriteCount + (keys w.fs).length =
      3 * (∑ s, (mockAfter k).sectorMap s + 128 * (mockAfter k).getEraseCount) := by
  have hc := hu.chain he
  have hon := hu.onCells he
  have hcar := hc.carried hon
  have hs : Shape w.fs.curr w.flash := (hu.inv he.run).shape
  have hmap : ∀ s, (mockAfter k).sectorMap s = cellsUsed w.fs s := hcar.sectorMap hs
  refine ⟨hcar.reads, fun e l hsuf => ?_, hmap, ?_⟩
  · obtain ⟨p, rfl⟩ := hsuf
    have hl : ∀ x ∈ l, x.op.OnCells := fun x hx =>
      hon x (List.mem_append_right _ (List.mem_cons_of_mem _ hx))
    exact (hc.split.1.carried hl).reads
  · have hblocks := hu.blockWrites_eq he
    have hprograms := hu.programs_eq he
    rw [Finset.sum_congr rfl fun s _ => hmap s, hcar.writes, hcar.erases]
    show _ = 3 * (totalUsed w.fs + _)
    omega

theorem mock_statistics_tour : ∃ h u w x v k, Tour h u w x v ∧
    Emits (Step (fun _ => 0) (0 + 2)) (issued (fun _ => 0) (0 + 2))
      (.on (coldBoot (fun _ => 0) erased)) (relocationTo 5 ++ h) (.on v) k ∧
    0 < erases k ∧ ReadsAs (mockAfter k) v.flash ∧
    (mockAfter k).getWriteCount + (keys v.fs).length =
      3 * (∑ s, (mockAfter k).sectorMap s + 128 * (mockAfter k).getEraseCount) := by
  obtain ⟨h, u, w, x, v, ht⟩ := tour
  obtain ⟨k, he, hu, hpos⟩ := ht.emits
  obtain ⟨hreads, -, -, hcount⟩ := mock_statistics he hu
  exact ⟨h, u, w, x, v, k, ht, he, hpos, hreads, hcount⟩

end Wormvars
