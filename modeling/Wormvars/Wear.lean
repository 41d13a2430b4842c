import Wormvars.Accounts
import Wormvars.Ledger
import Wormvars.Recovery
import Wormvars.Tour

/-!
# Wear

What the flash has been through, over runs of calls and boots in which power does not
fail.  The statistics are exact: of the calls of `flash_write` since the flash was
delivered there are three for each block written, but two for the first of each key, and
a block is in use or in a sector that has been erased (`flash_statistics`).

From the 50 descriptors that a victim has at most it follows what relocation costs: 77
writes of users at least for each erase, so that at most 128 blocks are programmed for 77
written, whatever is written and however often `fs_thread` is called (`wear_bound`).
Only a boot that interrupts a relocation can waste up to 50 copies more.
-/

namespace Wormvars

open NorFlash Runs

variable {crc : Block → BitVec 32} {n : Nat} {h : List Label} {k : List Event}

/-! ## Boots -/

section boot
variable {w : World} (hi : Inv crc w.fs w.flash)
include hi

/-- A boot of a flash that is in order writes nothing and finds the same descriptors. -/
theorem Inv.rebooted : Booted crc w.flash w.fs.curr (contents w.fs w.flash) (coldBoot crc w.flash) ∧
    (coldBoot crc w.flash).log = [] ∧ (coldBoot crc w.flash).flash = w.flash ∧
    (coldBoot crc w.flash).fs.fd.Perm w.fs.fd := by
  have hb := coldBoot_spec hi.shape hi.index.represents hi.index.fits
  obtain ⟨hflash, hlog⟩ := hb.quiet hi.index.single
  have hindex := hb.inv.index
  rw [hflash] at hindex
  exact ⟨hb, hlog, hflash, hindex.perm hi.index⟩

omit hi in
theorem blankOthers_eq_erase (fs : Fs) :
    blankOthers fs = ((Finset.univ.filter fs.SectorIsBlank).erase fs.curr.sector).card := by
  rw [blankOthers_eq]
  congr 1
  ext s
  simp [BlankOther]

/-- If the sector written last is full or blank, a boot takes a blank one. -/
theorem Inv.rebooted_blankOthers : blankOthers (coldBoot crc w.flash).fs ≤ blankOthers w.fs := by
  obtain ⟨hb, -, -, -⟩ := hi.rebooted
  have hset : Finset.univ.filter (coldBoot crc w.flash).fs.SectorIsBlank =
      Finset.univ.filter w.fs.SectorIsBlank := by
    ext s
    simp only [Finset.mem_filter, Finset.mem_univ, true_and]
    unfold Fs.SectorIsBlank
    rw [hb.pointers]
  rw [blankOthers_eq_erase, blankOthers_eq_erase, hset]
  by_cases hp : Partial w.fs.curr w.fs.curr.sector
  · rw [hb.target hp]
  · by_cases hblank : ∃ s, w.fs.curr.address s = sectorBase s
    · -- the sector that is taken is blank, the one that was current need not be
      have hm : (coldBoot crc w.flash).fs.curr.sector ∈
          Finset.univ.filter w.fs.SectorIsBlank := by
        rw [← hset]
        simpa using hb.blank hp hblank
      rw [Finset.card_erase_of_mem hm]
      exact Finset.pred_card_le_card_erase
    · have hnone : Finset.univ.filter w.fs.SectorIsBlank = ∅ := by
        rw [Finset.filter_eq_empty_iff]
        exact fun s _ hs => hblank ⟨s, hs⟩
      rw [hnone]
      simp

theorem Inv.rebooted_totalUsed : totalUsed (coldBoot crc w.flash).fs = totalUsed w.fs := by
  obtain ⟨hb, -⟩ := hi.rebooted
  unfold totalUsed
  exact Finset.sum_congr rfl fun s _ => cellsUsed_congr (congrFun hb.pointers s)

theorem Inv.rebooted_keys : (keys (coldBoot crc w.flash).fs).length = (keys w.fs).length := by
  obtain ⟨-, -, -, hperm⟩ := hi.rebooted
  exact (hperm.map _).length_eq

theorem Inv.rebooted_settled (hs : Settled w.fs) : Settled (coldBoot crc w.flash).fs := by
  obtain ⟨-, -, -, hperm⟩ := hi.rebooted
  exact fun fd hm => hs fd (hperm.mem_iff.1 hm)

end boot

/-! ## One step -/

/-- A run without power cuts that stays within the limits. -/
structure Undisturbed (h : List Label) : Prop where
  limits : Limits h
  whole : ∀ l ∈ h, l.Whole

theorem Undisturbed.tail {l : Label} (hu : Undisturbed (l :: h)) : Undisturbed h :=
  ⟨hu.limits.tail, fun l hl => hu.whole l (List.mem_cons_of_mem _ hl)⟩

theorem Undisturbed.of_append {h' : List Label} (hu : Undisturbed (h' ++ h)) : Undisturbed h := by
  induction h' with
  | nil => exact hu
  | cons l h' ih => exact ih hu.tail

theorem suffixClosed_undisturbed : SuffixClosed Undisturbed := fun _ _ h => h.tail

/-- A write of a user that was carried out. -/
def Label.isWritten : Label → Bool
  | .call (.write _ _ _ _) (.wrote r) => r == 0
  | _ => false

def Label.isBoot : Label → Bool
  | .boot => true
  | _ => false

/-- The writes of users that were carried out. -/
def written (h : List Label) : Nat := h.countP Label.isWritten

def boots (h : List Label) : Nat := h.countP Label.isBoot

theorem written_wrote (name : BitVec 16) (ext : BitVec 8) (data : List Byte) (ans : Answers)
    (r : Int) :
    (written [.call (.write name ext data ans) (.wrote r)] : Int) = if r = 0 then 1 else 0 := by
  unfold written Label.isWritten
  split
  · next h => simp [h]
  · next h => simp [h]

theorem written_cons (l : Label) (h : List Label) :
    written (l :: h) = written [l] + written h := countP_cons_add _ _ _

theorem boots_cons (l : Label) (h : List Label) : boots (l :: h) = boots [l] + boots h :=
  countP_cons_add _ _ _

/-- Copies that the steps of a history may use up, one for each write and 50 for each boot. -/
theorem sum_credit (h : List Label) :
    (h.map fun l => ((written [l] + 50 * boots [l] : Nat) : Int)).sum =
      (written h + 50 * boots h : Nat) := by
  induction h with
  | nil => rfl
  | cons l h ih =>
    rw [List.map_cons, List.sum_cons, ih, written_cons l h, boots_cons l h]
    omega

/-- What a step does to the accounts. -/
structure StepSpent (crc : Block → BitVec 32) (n : Nat) (w : World) (l : Label) (w' : World) :
    Prop where
  inv : Inv crc w'.fs w'.flash
  cells : (totalUsed w'.fs : Int) = totalUsed w.fs +
    (blockWrites (issued crc n (.on w) l) - 128 * erases (issued crc n (.on w) l))
  writes : Settled w.fs → ((keys w'.fs).length : Int) = (keys w.fs).length +
    (3 * blockWrites (issued crc n (.on w) l) - programs (issued crc n (.on w) l))
  settled : Settled w.fs → Settled w'.fs
  budget : (unreached w'.fs + blankOthers w'.fs : Int) ≤ unreached w.fs + blankOthers w.fs +
    (51 * erases (issued crc n (.on w) l) - blockWrites (issued crc n (.on w) l)) +
    (written [l] + 50 * boots [l] : Nat)
  reach : unreached w'.fs ≤ max (unreached w.fs) 50

/-- A call starts with an empty log. -/
theorem Spent.step {w w' : World} {c : Call} {r : Result}
    (hs : Spent (written [.call c r]) w.fresh w') (hi' : Inv crc w'.fs w'.flash)
    (he : c.exec crc n w.fresh = some (r, w')) :
    StepSpent crc n w (.call c r) w' := by
  have hlog : issued crc n (.on w) (.call c r) = w'.log := issued_call he
  obtain ⟨hcells, hwrites, hsettled, hbudget, hreach⟩ := hs
  unfold cellBalance at hcells
  unfold writeBalance at hwrites
  unfold Wormvars.budget at hbudget
  have h₀ : w.fresh.log = [] := rfl
  have h₁ : programs [] = 0 := rfl
  have h₂ : erases [] = 0 := rfl
  have h₃ : blockWrites [] = 0 := rfl
  have h₄ : boots [Label.call c r] = 0 := rfl
  have h₅ : w.fresh.fs = w.fs := rfl
  rw [h₀, h₂, h₃, h₅] at hcells hbudget
  rw [h₀, h₁, h₃, h₅] at hwrites
  rw [h₅] at hsettled
  constructor
  · exact hi'
  · rw [hlog]
    omega
  · rw [hlog]
    intro hw
    have := hwrites hw
    omega
  · exact hsettled
  · rw [hlog, h₄]
    omega
  · exact hreach

theorem Inv.exec_spent {w w' : World} {c : Call} {r : Result} (hi : Inv crc w.fs w.flash)
    (hslot : SlotFor w c) (he : c.exec crc (n + 2) w.fresh = some (r, w')) :
    Spent (written [.call c r]) w.fresh w' ∧ Inv crc w'.fs w'.flash := by
  cases c with
  | read name ext len =>
    cases he
    exact ⟨⟨rfl, fun _ => rfl, id, Int.le_of_eq (Int.add_zero _).symm, Nat.le_max_left _ _⟩, hi⟩
  | thread ans =>
    obtain ⟨v, hv, hp⟩ := fsThread_phase (w := w.fresh) hi ans false n
    have hex := exec_of_fsThread hv
    obtain ⟨m, -, hm⟩ := thread_moves (w := w.fresh) hi hex
    rw [hex] at he
    cases he
    exact ⟨hp.spent hi, (hm.spec hi).1⟩
  | write name ext data ans =>
    obtain ⟨v, hv, hp⟩ := fsWrite_phase (w := w.fresh) hi ans (n + 1) hslot
    have hsp := hp.spent hi
    rw [exec_of_fsWrite hv] at he
    cases he
    rw [← written_wrote name ext data ans v.1] at hsp
    exact ⟨hsp, hp.inv hi⟩

theorem Inv.step_spent {w : World} {l : Label} {t : Sys} (hi : Inv crc w.fs w.flash)
    (hl : l.Whole) (hslot : SlotFree (.on w) l) (hst : Step crc (n + 2) (.on w) l t) :
    ∃ w', t = .on w' ∧ StepSpent crc (n + 2) w l w' := by
  cases hst with
  | call _ c r w' he =>
    obtain ⟨hsp, hi'⟩ := hi.exec_spent hslot he
    exact ⟨w', rfl, hsp.step hi' he⟩
  | cut => exact hl.elim
  | boot =>
    obtain ⟨hb, hlog, -, -⟩ := hi.rebooted
    have hiss : issued crc (n + 2) (.on w) .boot = [] := hlog
    have hblank := hi.rebooted_blankOthers
    have hu : unreached (coldBoot crc w.flash).fs = 50 :=
      unreached_start (Or.inl hb.idle)
    refine ⟨_, rfl, hb.inv, ?_, fun _ => ?_, hi.rebooted_settled, ?_,
      hu ▸ Nat.le_max_right _ _⟩
    · have := hi.rebooted_totalUsed
      rw [hiss]
      show (totalUsed (coldBoot crc w.flash).fs : Int) = totalUsed w.fs + (0 - 128 * 0)
      omega
    · have := hi.rebooted_keys
      rw [hiss]
      show ((keys (coldBoot crc w.flash).fs).length : Int) = (keys w.fs).length + (3 * 0 - 0)
      omega
    · rw [hiss, show w.fs = w.fs from rfl]
      show (unreached (coldBoot crc w.flash).fs + blankOthers (coldBoot crc w.flash).fs : Int) ≤
        unreached w.fs + blankOthers w.fs + (51 * 0 - 0) + (0 + 50 * 1)
      omega
  | bootCut => exact hl.elim

/-! ## Runs -/

theorem settled_erased (crc : Block → BitVec 32) : Settled (coldBoot crc erased).fs := by
  intro fd hm
  have hsome := (contents_isSome_iff (f := (coldBoot crc erased).flash) fd.header.key).2
    (List.mem_map_of_mem hm)
  rw [(booted_erased crc).contents] at hsome
  cases hsome

section runs
variable {s t : Sys} {l : Label}

theorem Undisturbed.inv {w : World}
    (hr : Run (Step crc (n + 2)) (.on (coldBoot crc erased)) h (.on w)) (hu : Undisturbed h) :
    Inv crc w.fs w.flash := by
  obtain ⟨-, S, -, hsound, -⟩ := hu.limits.reaches hr (sound_boot (sound_erased crc))
  exact hsound.2.1

/-- Before the next step of an undisturbed run. -/
theorem Undisturbed.before {w : World}
    (hr : Run (Step crc (n + 2)) (.on (coldBoot crc erased)) h (.on w))
    (hu : Undisturbed (l :: h)) : Inv crc w.fs w.flash ∧ SlotFree (.on w) l := by
  obtain ⟨-, S, -, hsound, hpassed⟩ :=
    hu.tail.limits.reaches hr (sound_boot (sound_erased crc))
  exact ⟨hsound.2.1, hu.limits.slotFree hsound hpassed⟩

/-- The next step of an undisturbed run. -/
theorem Undisturbed.next {w : World}
    (hr : Run (Step crc (n + 2)) (.on (coldBoot crc erased)) h (.on w))
    (hu : Undisturbed (l :: h)) (hst : Step crc (n + 2) (.on w) l t) :
    ∃ w', t = .on w' ∧ StepSpent crc (n + 2) w l w' := by
  obtain ⟨hi, hslot⟩ := hu.before hr
  exact hi.step_spent (hu.whole l List.mem_cons_self) hslot hst

theorem Undisturbed.reached (hr : Run (Step crc (n + 2)) (.on (coldBoot crc erased)) h s)
    (hu : Undisturbed h) : ∃ w, s = .on w ∧ Settled w.fs ∧ unreached w.fs ≤ 50 := by
  induction hr with
  | refl =>
    have h50 := unreached_start (Or.inl (booted_erased crc).idle)
    exact ⟨_, rfl, settled_erased crc, Nat.le_of_eq h50⟩
  | step hr hst ih =>
    obtain ⟨v, rfl, hs, hv⟩ := ih hu.tail
    obtain ⟨w', rfl, hsp⟩ := hu.next hr hst
    have hreach := hsp.reach
    exact ⟨w', rfl, hsp.settled hs, by omega⟩

/-- A measure of the state while the system is on. -/
def Sys.measure (m : Fs → Int) : Sys → Int
  | .on w => m w.fs
  | .off _ => 0

theorem totalUsed_coldBoot_erased (crc : Block → BitVec 32) :
    totalUsed (coldBoot crc erased).fs = 0 := by
  unfold totalUsed
  refine Finset.sum_eq_zero fun s _ => ?_
  unfold cellsUsed
  rw [(booted_erased crc).pointers]
  show (sectorBase s - sectorBase s) / 32 = 0
  omega

theorem keys_coldBoot_erased (crc : Block → BitVec 32) :
    keys (coldBoot crc erased).fs = [] := by
  rw [List.eq_nil_iff_forall_not_mem]
  intro k hk
  rw [← contents_isSome_iff (f := (coldBoot crc erased).flash), (booted_erased crc).contents] at hk
  cases hk

theorem blankOthers_le (fs : Fs) : blankOthers fs ≤ 7 := by
  rw [blankOthers_eq_erase]
  refine (Finset.card_le_card (Finset.erase_subset_erase _ (Finset.subset_univ _))).trans ?_
  rw [Finset.card_erase_of_mem (Finset.mem_univ _)]
  simp

variable {w : World}
  (he : Emits (Step crc (n + 2)) (issued crc (n + 2)) (.on (coldBoot crc erased)) h (.on w) k)
  (hu : Undisturbed h)
include he hu

/-- A measure that every step changes by the value of what it issues. -/
theorem Undisturbed.conserve {value : List Event → Int} (hv : Additive value) (m : Fs → Int)
    (hs : ∀ w l w', Settled w.fs → StepSpent crc (n + 2) w l w' →
      m w'.fs = m w.fs + value (issued crc (n + 2) (.on w) l)) :
    m w.fs = m (coldBoot crc erased).fs + value k := by
  refine he.conserve (Sys.measure m) suffixClosed_undisturbed hu hv ?_
  intro h a l b hr hok hst
  obtain ⟨v, rfl, hset, -⟩ := hok.tail.reached hr
  obtain ⟨w', rfl, hsp⟩ := hok.next hr hst
  exact hs v l w' hset hsp

end runs

/-- The run up to the erase, and what it issues. -/
theorem Tour.emits {g : List Label} {u w x v : World} (ht : Tour g u w x v) :
    ∃ k, Emits (Step (fun _ => 0) (0 + 2)) (issued (fun _ => 0) (0 + 2))
      (.on (coldBoot (fun _ => 0) erased)) (relocationTo 5 ++ g) (.on v) k ∧
      Undisturbed (relocationTo 5 ++ g) ∧ 0 < erases k := by
  obtain ⟨k, hk⟩ := ht.beforeErase.run.emits (issued (fun _ => 0) (0 + 2))
  refine ⟨_, hk.step (.call x _ _ v ht.freeing),
    ⟨ht.afterErase.keys.limits, whole_of_calls ht.afterErase.calls⟩, ?_⟩
  obtain ⟨e, he, hop⟩ := ht.freed
  rw [issued_call ht.freeing]
  exact List.countP_pos_iff.2 ⟨e, List.mem_append_left _ he, by rw [hop]; rfl⟩

theorem Undisturbed.blockWrites_eq {w : World} (he : Emits (Step crc (n + 2)) (issued crc (n + 2))
    (.on (coldBoot crc erased)) h (.on w) k) (hu : Undisturbed h) :
    blockWrites k = totalUsed w.fs + 128 * erases k := by
  have hblocks : Additive fun k => (blockWrites k : Int) := additive_countP _
  have herases : Additive fun k => (erases k : Int) := additive_countP _
  have hcells := hu.conserve he (hblocks.sub (herases.mul 128)) (fun fs => totalUsed fs)
    fun _ _ _ _ hsp => hsp.cells
  simp only [totalUsed_coldBoot_erased] at hcells
  omega

theorem Undisturbed.programs_eq {w : World} (he : Emits (Step crc (n + 2)) (issued crc (n + 2))
    (.on (coldBoot crc erased)) h (.on w) k) (hu : Undisturbed h) :
    programs k + (keys w.fs).length = 3 * blockWrites k := by
  have hblocks : Additive fun k => (blockWrites k : Int) := additive_countP _
  have hprograms : Additive fun k => (programs k : Int) := additive_countP _
  have hwrites := hu.conserve he ((hblocks.mul 3).sub hprograms) (fun fs => (keys fs).length)
    fun _ _ _ hset hsp => hsp.writes hset
  simp only [keys_coldBoot_erased, List.length_nil] at hwrites
  omega

/-- Since the flash was delivered every block programmed took a cell, which is in use or was given
back with 127 others by an erase; each took three calls of `flash_write`, the first of a key
two. -/
theorem flash_statistics {w : World} (he : Emits (Step crc (n + 2)) (issued crc (n + 2))
    (.on (coldBoot crc erased)) h (.on w) k) (hu : Undisturbed h) :
    blockWrites k = totalUsed w.fs + 128 * erases k ∧
    programs k + (keys w.fs).length = 3 * blockWrites k :=
  ⟨hu.blockWrites_eq he, hu.programs_eq he⟩

theorem flash_statistics_tour : ∃ h u w x v k, Tour h u w x v ∧ Emits (Step (fun _ => 0) (0 + 2))
    (issued (fun _ => 0) (0 + 2)) (.on (coldBoot (fun _ => 0) erased)) (relocationTo 5 ++ h) (.on v) k ∧
    0 < erases k ∧ blockWrites k = totalUsed v.fs + 128 * erases k ∧
    programs k + (keys v.fs).length = 3 * blockWrites k := by
  obtain ⟨h, u, w, x, v, ht⟩ := tour
  obtain ⟨k, he, hu, hpos⟩ := ht.emits
  exact ⟨h, u, w, x, v, k, ht, he, hpos, flash_statistics he hu⟩

/-- What the users' writes and the boots pay for. -/
theorem Undisturbed.cells_le {w : World} (he : Emits (Step crc (n + 2)) (issued crc (n + 2))
    (.on (coldBoot crc erased)) h (.on w) k) (hu : Undisturbed h) :
    77 * erases k + totalUsed w.fs ≤ written h + 50 * boots h + 57 := by
  have hcells := hu.blockWrites_eq he
  have hblocks : Additive fun k => (blockWrites k : Int) := additive_countP _
  have herases : Additive fun k => (erases k : Int) := additive_countP _
  have hbudget := he.amortise (Sys.measure fun fs => unreached fs + blankOthers fs)
    suffixClosed_undisturbed hu ((herases.mul 51).sub hblocks)
    (fun l => (written [l] + 50 * boots [l] : Nat)) fun h a l b hr hok hst => by
      obtain ⟨v, rfl, -⟩ := hok.tail.reached hr
      obtain ⟨w', rfl, hsp⟩ := hok.next hr hst
      exact hsp.budget
  rw [sum_credit] at hbudget
  have h50 : unreached (coldBoot crc erased).fs = 50 :=
    unreached_start (Or.inl (booted_erased crc).idle)
  have h7 := blankOthers_le (coldBoot crc erased).fs
  have hstart : Sys.measure (fun fs => unreached fs + blankOthers fs) (.on (coldBoot crc erased)) =
      (unreached (coldBoot crc erased).fs : Int) + blankOthers (coldBoot crc erased).fs := rfl
  have hend : Sys.measure (fun fs => unreached fs + blankOthers fs) (.on w) =
      (unreached w.fs : Int) + blankOthers w.fs := rfl
  omega

/-- There are 77 writes of users or more for each erase, and at most 128 blocks are programmed for
77 that users write, but for 57 blocks at the start and 50 at each boot. -/
theorem wear_bound {w : World} (he : Emits (Step crc (n + 2)) (issued crc (n + 2))
    (.on (coldBoot crc erased)) h (.on w) k) (hu : Undisturbed h) :
    77 * erases k + totalUsed w.fs ≤ written h + 50 * boots h + 57 ∧
    77 * blockWrites k ≤ 128 * (written h + 50 * boots h + 57) := by
  have hcells := hu.cells_le he
  have hblocks := hu.blockWrites_eq he
  exact ⟨hcells, by omega⟩

theorem wear_bound_tour : ∃ h u w x v k, Tour h u w x v ∧ Emits (Step (fun _ => 0) (0 + 2))
    (issued (fun _ => 0) (0 + 2)) (.on (coldBoot (fun _ => 0) erased)) (relocationTo 5 ++ h) (.on v) k ∧
    0 < erases k ∧ 77 * erases k + totalUsed v.fs ≤
      written (relocationTo 5 ++ h) + 50 * boots (relocationTo 5 ++ h) + 57 := by
  obtain ⟨h, u, w, x, v, ht⟩ := tour
  obtain ⟨k, he, hu, hpos⟩ := ht.emits
  exact ⟨h, u, w, x, v, k, ht, he, hpos, (wear_bound he hu).1⟩

/-! ## One call -/

theorem exec_within {w : World} {c : Call} (hi : Inv crc w.fs w.flash) (hslot : SlotFor w c)
    (n : Nat) : ∃ r w', c.exec crc (n + 2) w.fresh = some (r, w') ∧ (Within 4 1 1 w.fresh w' ∨
      (w.fs.SectorIsFull w.fs.curr.sector ∧ Within 8 2 0 w.fresh w')) := by
  cases c with
  | read name ext len =>
    have hlog : Within 0 0 0 w.fresh w.fresh := .of_log rfl
    exact ⟨_, _, rfl, Or.inl (hlog.mono (by omega) (by omega) (by omega))⟩
  | thread ans =>
    obtain ⟨v, hv, hp⟩ := fsThread_phase (w := w.fresh) hi ans false n
    refine ⟨_, _, exec_of_fsThread hv, ?_⟩
    rcases hp.within hi with h | h | h
    · exact Or.inl (h.mono (Nat.le_refl 4) (Nat.le_refl 1) (Nat.zero_le 1))
    · exact Or.inl (h.mono (Nat.zero_le 4) (Nat.zero_le 1) (Nat.le_refl 1))
    · exact Or.inr h
  | write name ext data ans =>
    obtain ⟨v, hv, hp⟩ := fsWrite_phase (w := w.fresh) hi ans (n + 1) hslot
    exact ⟨_, _, exec_of_fsWrite hv, hp.within hi⟩

/-- The work that a call, with what it runs inside itself, puts on the flash at most, also after
power cuts. -/
theorem call_work_bounded {w : World} {c : Call} {r : Result}
    (hr : Run (Step crc (n + 2)) (.off erased) h (.on w)) (hl : Limits (.call c r :: h)) :
    programs (issued crc (n + 2) (.on w) (.call c r)) ≤ 8 ∧
      erases (issued crc (n + 2) (.on w) (.call c r)) ≤ 1 ∧
      (erases (issued crc (n + 2) (.on w) (.call c r)) = 1 →
        programs (issued crc (n + 2) (.on w) (.call c r)) ≤ 4) := by
  obtain ⟨-, S, -, hsound, hpassed⟩ := hl.tail.reaches hr (sound_erased crc)
  have hslot : SlotFor w c := hl.slotFree hsound hpassed
  obtain ⟨r', w', he, hw⟩ := exec_within hsound.2.1 hslot n
  have hlog : issued crc (n + 2) (.on w) (.call c r) = w'.log := issued_call he
  have h₁ : programs w.fresh.log = 0 := rfl
  have h₂ : erases w.fresh.log = 0 := rfl
  rw [hlog]
  rcases hw with ⟨hp, -, he⟩ | ⟨-, hp, -, he⟩
  · omega
  · omega

/-- The write that has a block picked inside itself, and the call that erases the sector. -/
theorem call_work_bounded_tour : ∃ h u w x v, Tour h u w x v ∧
    programs (issued (fun _ => 0) 2 (.on u) (.call (sectorWrite 5) (.wrote 0))) ≤ 8 ∧
    erases (issued (fun _ => 0) 2 (.on x) (.call (.thread ready) (.ran .ended))) = 1 ∧
    programs (issued (fun _ => 0) 2 (.on x) (.call (.thread ready) (.ran .ended))) ≤ 4 := by
  obtain ⟨h, u, w, x, v, ht⟩ := tour
  obtain ⟨hu, hku⟩ := ht.full.sectored.fromOff
  obtain ⟨hx, hkx⟩ := ht.beforeErase.fromOff
  obtain ⟨hprograms, -⟩ := call_work_bounded hu (hku.append (.write 5 (.wrote 0))).limits
  obtain ⟨-, hone, hfew⟩ := call_work_bounded hx (hkx.append (.thread ready (.ran .ended))).limits
  have hpos : 0 < erases (issued (fun _ => 0) 2 (.on x) (.call (.thread ready) (.ran .ended))) := by
    obtain ⟨e, he, hop⟩ := ht.freed
    rw [issued_call ht.freeing]
    exact List.countP_pos_iff.2 ⟨e, he, by rw [hop]; rfl⟩
  exact ⟨h, u, w, x, v, ht, hprograms, Nat.le_antisymm hone hpos, hfew (Nat.le_antisymm hone hpos)⟩

end Wormvars
