import Wormvars.Capacity
import Wormvars.Refinement

/-!
# Runs in which relocation is polled

A run in which after every write `fs_thread` is called until it returns
`PT_WAITING` never fails a write, and has two blank sectors whenever it is idle
(`relocation_keeps_capacity`).
-/

namespace Wormvars

open NorFlash NewerLog Runs

variable {crc : Block → BitVec 32} {n : Nat}

/-! ## Histories -/

/-- No cuts, timer and flash always ready, data that fits a block. -/
def Label.Ready : Label → Prop
  | .call (.write _ _ data ans) _ => data.length ≤ 28 ∧ ans = ready
  | .call (.thread ans) _ => ans = ready
  | .call (.read _ _ _) _ => True
  | .boot => True
  | .cut _ | .bootCut => False

/-- `fs_thread` has last returned `PT_WAITING`, or has not been called since a boot, and
`fs_write` has not been called since then. -/
def IdlePoint : List Label → Prop
  | [] => True
  | .boot :: _ => True
  | .call (.thread _) (.ran code) :: _ => code = .waiting
  | .call (.read _ _ _) _ :: h => IdlePoint h
  | _ :: _ => False

/-- Writes and boots come at idle points. -/
def PolledToIdle : List Label → Prop
  | [] => True
  | .call (.write _ _ _ _) _ :: h | .boot :: h => IdlePoint h ∧ PolledToIdle h
  | _ :: h => PolledToIdle h

theorem PolledToIdle.tail {l : Label} {h : List Label} (hp : PolledToIdle (l :: h)) :
    PolledToIdle h := by
  cases l with
  | call c r =>
    cases c with
    | write => exact hp.2
    | read => exact hp
    | thread => exact hp
  | cut => exact hp
  | boot => exact hp.2
  | bootCut => exact hp

/-! ## One step -/

section step
variable {w : World} {c : Nat}

theorem Paced.exec_write (hp : Paced crc w 2) (n : Nat) {name : BitVec 16} {ext : BitVec 8}
    {data : List Byte} (hlen : data.length ≤ 28) (hslot : SlotFor w (.write name ext data ready)) :
    ∃ w', (Call.write name ext data ready).exec crc (n + 2) w.fresh = some (.wrote 0, w') ∧
      Paced crc w' 0 ∧ Logged Event.Succeeds w.fresh w' := by
  have hp' : Paced crc w.fresh 2 := ⟨hp.inv, hp.room⟩
  obtain ⟨w', he, hw, hl⟩ := hp'.write data hlen (hslot hlen hp.exists_room) (n + 1)
  exact ⟨w', exec_of_fsWrite he, hw, hl⟩

theorem Paced.exec_thread (hp : Paced crc w c) (n : Nat) :
    ∃ code w', (Call.thread ready).exec crc (n + 2) w.fresh = some (.ran code, w') ∧
      Polled crc w.fresh c (code, w') := by
  have hp' : Paced crc w.fresh c := ⟨hp.inv, hp.room⟩
  obtain ⟨⟨code, w'⟩, he, hw⟩ :=
    hp'.poll (fun w => (fsThread crc ready (n + 1) true w).map Prod.snd) false
  have he' : fsThread crc ready (n + 2) false w.fresh = some (code, w') := he
  exact ⟨code, w', exec_of_fsThread he', hw⟩

/-- Polling gets to where there is nothing to do. -/
theorem Paced.polls (hp : Paced crc w c) (n : Nat) :
    ∃ h v, Run (Step crc (n + 2)) (.on w) (.call (.thread ready) (.ran .waiting) :: h) (.on v) ∧
      ∀ l ∈ h, ∃ r, l = .call (.thread ready) r := by
  induction hk : callsToIdle w.fs using Nat.strong_induction_on generalizing w c with
  | _ k ih =>
    obtain ⟨code, v, he, hv⟩ := hp.exec_thread n
    have hstep : Step crc (n + 2) (.on w) (.call (.thread ready) (.ran code)) (.on v) :=
      .call w _ _ v he
    by_cases hcode : code = .waiting
    · subst hcode
      exact ⟨[], v, Run.refl.step hstep, fun l hl => by cases hl⟩
    · have hlt : callsToIdle v.fs < k := hk ▸ hv.nearer hcode
      obtain ⟨h, u, hrun, hall⟩ := ih _ hlt hv.paced rfl
      refine ⟨h ++ [.call (.thread ready) (.ran code)], u, ?_, fun l hl => ?_⟩
      · exact (Run.refl.step hstep).trans hrun
      rcases List.mem_append.1 hl with hl | hl
      · exact hall l hl
      · exact ⟨_, List.mem_singleton.1 hl⟩

end step

/-! ## Boots -/

/-- Enough blank sectors for a boot to leave one besides the current one. -/
def Rested (fs : Fs) : Prop :=
  2 ≤ blankOthers fs ∨ (1 ≤ blankOthers fs ∧ fs.SectorIsBlank fs.curr.sector)

/-- A boot leaves the same blank sectors, but for the one it may make the current one. -/
theorem Booted.paced {w v : World} {M : Contents} (hb : Booted crc w.flash w.fs.curr M v)
    (hrest : Rested w.fs) : Paced crc v 2 ∧ Rested v.fs := by
  have hi := hb.inv
  have hblank : ∀ s, v.fs.SectorIsBlank s ↔ w.fs.SectorIsBlank s := by
    intro s
    unfold Fs.SectorIsBlank
    rw [hb.pointers]
  by_cases hpart : Partial w.fs.curr w.fs.curr.sector
  · have hsame : blankOthers v.fs = blankOthers w.fs := by
      apply blankOthers_congr
      intro s
      unfold BlankOther
      rw [hb.target hpart, hblank]
    have h2 : 2 ≤ blankOthers v.fs := by
      rw [hsame]
      exact hrest.resolve_right fun h => hpart.1 h.2
    exact ⟨⟨hi, Or.inl ⟨h2, Or.inl hb.idle⟩⟩, Or.inl h2⟩
  · have hsome : ∃ s, w.fs.curr.address s = sectorBase s := by
      rcases hrest with h | h
      · obtain ⟨s, hs⟩ := exists_blankOther (show 0 < blankOthers w.fs by omega)
        exact ⟨s, hs.2⟩
      · exact ⟨_, h.2⟩
    have hcur := hb.blank hpart hsome
    -- the blank sectors of `w` are the current sector of `v` and the others of `v`
    have h1 : 1 ≤ blankOthers v.fs := by
      have hsub : ∀ T : Finset (Fin 8), (∀ s ∈ T, w.fs.SectorIsBlank s) → 2 ≤ T.card →
          1 ≤ blankOthers v.fs := by
        intro T hT hcard
        have hle : (T.erase v.fs.curr.sector) ⊆ Finset.univ.filter (BlankOther v.fs) := by
          intro s hs
          obtain ⟨hne, hm⟩ := Finset.mem_erase.1 hs
          exact Finset.mem_filter.2 ⟨Finset.mem_univ s, hne, (hblank s).2 (hT s hm)⟩
        have h₁ := Finset.card_le_card hle
        have h₂ := Finset.pred_card_le_card_erase (s := T) (a := v.fs.curr.sector)
        rw [blankOthers_eq]
        omega
      rcases hrest with h | ⟨h, hc⟩
      · refine hsub (Finset.univ.filter (BlankOther w.fs)) ?_ (by rw [← blankOthers_eq]; exact h)
        exact fun s hs => (Finset.mem_filter.1 hs).2.2
      · refine hsub (insert w.fs.curr.sector (Finset.univ.filter (BlankOther w.fs))) ?_ ?_
        · intro s hs
          rcases Finset.mem_insert.1 hs with rfl | hs
          · exact hc
          · exact (Finset.mem_filter.1 hs).2.2
        · rw [Finset.card_insert_of_notMem fun hm => (Finset.mem_filter.1 hm).2.1 rfl,
            ← blankOthers_eq]
          omega
    refine ⟨⟨hi, ?_⟩, Or.inr ⟨h1, hcur⟩⟩
    by_cases h2 : 2 ≤ blankOthers v.fs
    · exact Or.inl ⟨h2, Or.inl hb.idle⟩
    · refine Or.inr ⟨by omega, Or.inl hb.idle, ?_⟩
      unfold freeCells reserve copiesLeft callsLeft
      rw [(hi.shape.blank_iff _).1 hcur, hb.idle]
      simp

/-- The boot of the erased flash. -/
theorem paced_erased (crc : Block → BitVec 32) :
    Paced crc (coldBoot crc erased) 2 ∧ Rested (coldBoot crc erased).fs := by
  let w : World := ⟨{ Fs.zero with curr := ⟨sectorBase, 0⟩ }, erased, []⟩
  have hb : Booted crc w.flash w.fs.curr _ (coldBoot crc erased) := booted_erased crc
  refine hb.paced (Or.inl ?_)
  have : blankOthers w.fs = 7 := by decide
  omega

/-! ## Runs -/

theorem Paced.of_blank {w : World} {c : Nat} (hp : Paced crc w c) (hb : 2 ≤ blankOthers w.fs) :
    Paced crc w 2 := by
  refine ⟨hp.inv, hp.room.imp_right fun ⟨hb', _⟩ => ?_⟩
  omega

/-- What holds in a run that is polled to idle. -/
structure Kept (crc : Block → BitVec 32) (h : List Label) (w : World) : Prop where
  paced : ∃ c, Paced crc w c
  idle : IdlePoint h → Paced crc w 2 ∧ Rested w.fs
  waiting : ∀ ans h', h = .call (.thread ans) (.ran .waiting) :: h' → 2 ≤ blankOthers w.fs
  wrote : ∀ name ext data ans r, .call (.write name ext data ans) (.wrote r) ∈ h → r = 0

/-- The system is off only before the first boot. -/
def KeptSys (crc : Block → BitVec 32) (h : List Label) : Sys → Prop
  | .on w => Kept crc h w
  | .off f => h = [] ∧ f = erased

section kept
variable {h : List Label} {w w' : World} {s t : Sys} {l : Label}

theorem Kept.write (hk : Kept crc h w) {name : BitVec 16} {ext : BitVec 8} {data : List Byte}
    {ans : Answers} {r : Result} (hpolled : IdlePoint h)
    (hready : Label.Ready (.call (.write name ext data ans) r))
    (hslot : SlotFor w (.write name ext data ans))
    (he : (Call.write name ext data ans).exec crc (n + 2) w.fresh = some (r, w')) :
    Kept crc (.call (.write name ext data ans) r :: h) w' := by
  obtain ⟨hlen, rfl⟩ := hready
  obtain ⟨v, he', hv, -⟩ := (hk.idle hpolled).1.exec_write n hlen hslot
  rw [he] at he'
  cases he'
  refine ⟨⟨0, hv⟩, fun h => h.elim, fun _ _ h => (by cases h), ?_⟩
  intro nm ex d a r hm
  rcases List.mem_cons.1 hm with h | h
  · cases h
    rfl
  · exact hk.wrote nm ex d a r h

theorem Kept.thread (hk : Kept crc h w) {ans : Answers} {r : Result}
    (hready : Label.Ready (.call (.thread ans) r))
    (he : (Call.thread ans).exec crc (n + 2) w.fresh = some (r, w')) :
    Kept crc (.call (.thread ans) r :: h) w' := by
  obtain rfl : ans = ready := hready
  obtain ⟨c, hp⟩ := hk.paced
  obtain ⟨code, v, he', hv⟩ := hp.exec_thread n
  rw [he] at he'
  cases he'
  have hwait : code = .waiting → 2 ≤ blankOthers w'.fs := hv.idle
  refine ⟨⟨_, hv.paced⟩, fun hc => ⟨hv.paced.of_blank (hwait hc), Or.inl (hwait hc)⟩, ?_, ?_⟩
  · intro a h' he
    cases he
    exact hwait rfl
  · intro nm ex d a r hm
    rcases List.mem_cons.1 hm with h | h
    · cases h
    · exact hk.wrote nm ex d a r h

theorem Kept.boot (hk : Kept crc h w) (hpolled : IdlePoint h) :
    Kept crc (.boot :: h) (coldBoot crc w.flash) := by
  obtain ⟨hp, hrest⟩ := hk.idle hpolled
  have hi := hp.inv
  obtain ⟨hp', hrest'⟩ :=
    (coldBoot_spec hi.shape hi.index.represents hi.index.fits).paced hrest
  refine ⟨⟨2, hp'⟩, fun _ => ⟨hp', hrest'⟩, fun _ _ h => (by cases h), ?_⟩
  intro nm ex d a r hm
  rcases List.mem_cons.1 hm with h | h
  · cases h
  · exact hk.wrote nm ex d a r h

theorem KeptSys.step (hk : KeptSys crc h s) (hg : Guarded crc (n + 2) s l t) (hready : l.Ready)
    (hpolled : PolledToIdle (l :: h)) : KeptSys crc (l :: h) t := by
  obtain ⟨hst, -, hslot⟩ := hg
  cases hst with
  | call w c r w' he =>
    cases c with
    | write name ext data ans => exact Kept.write hk hpolled.1 hready hslot he
    | thread ans => exact Kept.thread hk hready he
    | read name ext len =>
      cases he
      refine ⟨?_, fun hi => ?_, fun _ _ h => (by cases h), ?_⟩
      · obtain ⟨c, hp⟩ := hk.paced
        exact ⟨c, hp.inv, hp.room⟩
      · obtain ⟨hp, hrest⟩ := hk.idle hi
        exact ⟨⟨hp.inv, hp.room⟩, hrest⟩
      · intro nm ex d a r hm
        rcases List.mem_cons.1 hm with h | h
        · cases h
        · exact hk.wrote nm ex d a r h
  | cut => exact hready.elim
  | boot =>
    cases s with
    | on w => exact Kept.boot hk hpolled.1
    | off f =>
      obtain ⟨rfl, rfl⟩ := hk
      obtain ⟨hp, hrest⟩ := paced_erased crc
      refine ⟨⟨2, hp⟩, fun _ => ⟨hp, hrest⟩, fun _ _ h => (by cases h), ?_⟩
      intro nm ex d a r hm
      rcases List.mem_singleton.1 hm with h
      cases h
  | bootCut => exact hready.elim

theorem kept_of_run (hr : Run (Guarded crc (n + 2)) (.off erased) h s)
    (hready : ∀ l ∈ h, l.Ready) (hpolled : PolledToIdle h) : KeptSys crc h s := by
  induction hr with
  | refl => exact ⟨rfl, rfl⟩
  | step _ hg ih =>
    exact (ih (fun l hl => hready l (List.mem_cons_of_mem _ hl)) hpolled.tail).step hg
      (hready _ List.mem_cons_self) hpolled

/-- The operations issued by the next step are no failing `return`. -/
theorem Kept.succeeds (hk : Kept crc h w) (hslot : SlotFree (.on w) l) (hready : l.Ready)
    (hpolled : PolledToIdle (l :: h)) :
    ∀ e ∈ issued crc (n + 2) (.on w) l, Event.Succeeds e := by
  intro e he
  cases l with
  | call c r =>
    cases c with
    | write name ext data ans =>
      obtain ⟨hlen, rfl⟩ := hready
      obtain ⟨v, hex, -, hl⟩ := (hk.idle hpolled.1).1.exec_write n hlen hslot
      unfold issued at he
      simp only [hex] at he
      exact (hl.mem he).resolve_left fun h => by cases h
    | thread ans =>
      obtain rfl : ans = ready := hready
      obtain ⟨c, hp⟩ := hk.paced
      obtain ⟨code, v, hex, hv⟩ := hp.exec_thread n
      unfold issued at he
      simp only [hex] at he
      exact (hv.logged.mem he).resolve_left fun h => by cases h
    | read name ext len => cases he
  | cut => exact hready.elim
  | boot =>
    obtain ⟨c, hp⟩ := hk.paced
    have hi := hp.inv
    obtain ⟨-, hlog⟩ :=
      (coldBoot_spec hi.shape hi.index.represents hi.index.fits).quiet hi.index.single
    have he' : e ∈ (coldBoot crc w.flash).log := he
    rw [hlog] at he'
    cases he'
  | bootCut => exact hready.elim

end kept

/-- A run that is polled to idle: polling ends, no `fs_write` fails, neither a user's nor one of
`fs_thread`, there is always room, and two blank sectors once `fs_thread` has nothing to do. -/
theorem relocation_keeps_capacity {h : List Label} {w : World}
    (hr : Run (Step crc (n + 2)) (.off erased) h (.on w)) (hl : Limits h)
    (hready : ∀ l ∈ h, l.Ready) (hpolled : PolledToIdle h) :
    (∃ h' v, Run (Step crc (n + 2)) (.on w) (.call (.thread ready) (.ran .waiting) :: h') (.on v) ∧
      ∀ l ∈ h', ∃ r, l = .call (.thread ready) r) ∧
    (∀ name ext data ans r, .call (.write name ext data ans) (.wrote r) ∈ h → r = 0) ∧
    (∀ l, Limits (l :: h) → l.Ready → PolledToIdle (l :: h) →
      ∀ e ∈ issued crc (n + 2) (.on w) l, ∀ r, e.op = .returns r → 0 ≤ r) ∧
    (∃ s, ¬ w.fs.SectorIsFull s) ∧
    ∀ ans h', h = .call (.thread ans) (.ran .waiting) :: h' →
      fsMinBlankSectors ≤ blankOthers w.fs := by
  obtain ⟨hg, S, -, hsound, hpassed⟩ := hl.reaches hr (sound_erased crc)
  have hk : Kept crc h w := kept_of_run hg hready hpolled
  obtain ⟨c, hp⟩ := hk.paced
  refine ⟨hp.polls n, hk.wrote, fun l hll hlr hlp => ?_, hp.exists_room, hk.waiting⟩
  exact hk.succeeds (hll.slotFree hsound hpassed) hlr hlp

theorem polledToIdle_threads {h h' : List Label} (hp : PolledToIdle h)
    (hall : ∀ l ∈ h', ∃ r, l = .call (.thread ready) r) : PolledToIdle (h' ++ h) := by
  induction h' with
  | nil => exact hp
  | cons l h' ih =>
    obtain ⟨r, rfl⟩ := hall l List.mem_cons_self
    exact ih fun l hl => hall l (List.mem_cons_of_mem _ hl)

/-- The first write, and `fs_thread` until it has nothing to do. -/
theorem relocation_keeps_capacity_polled : ∃ w h' v, Step (fun _ => 0) 2
    (.on (coldBoot (fun _ => 0) erased)) (.call (.write 7 0 [1, 2] ready) (.wrote 0)) (.on w) ∧
    Run (Step (fun _ => 0) 2) (.on w) (.call (.thread ready) (.ran .waiting) :: h') (.on v) ∧
    (∀ l ∈ h', ∃ r, l = .call (.thread ready) r) ∧ fsMinBlankSectors ≤ blankOthers v.fs := by
  obtain ⟨w, hw⟩ := first_write
  have hr := (Run.refl.step (.boot (.off erased))).step hw
  have hl : Limits [.call (.write 7 0 [1, 2] ready) (.wrote 0), .boot] := .single rfl (by decide)
  have hready : ∀ l ∈ [Label.call (.write 7 0 [1, 2] ready) (.wrote 0), .boot], l.Ready := by
    intro l hl
    simp only [List.mem_cons, List.not_mem_nil, or_false] at hl
    rcases hl with rfl | rfl
    · exact ⟨by decide, rfl⟩
    · trivial
  have hpolled : PolledToIdle [.call (.write 7 0 [1, 2] ready) (.wrote 0), .boot] :=
    ⟨trivial, trivial, trivial⟩
  obtain ⟨⟨h', v, hrun, hall⟩, -⟩ := relocation_keeps_capacity hr hl hready hpolled
  have hall' : ∀ l ∈ Label.call (.thread ready) (.ran .waiting) :: h',
      ∃ r, l = .call (.thread ready) r := by
    intro l hm
    rcases List.mem_cons.1 hm with rfl | hm
    · exact ⟨_, rfl⟩
    · exact hall l hm
  have hpassed : ∀ g : List Label, (∀ l ∈ g, ∃ r, l = .call (.thread ready) r) →
      passed (g ++ [.call (.write 7 0 [1, 2] ready) (.wrote 0), .boot]) = [(7, 0)] := by
    intro g hg
    induction g with
    | nil => rfl
    | cons l g ih =>
      obtain ⟨r, rfl⟩ := hg l List.mem_cons_self
      exact ih fun l hl => hg l (List.mem_cons_of_mem _ hl)
  have hready' : ∀ l ∈ .call (.thread ready) (.ran .waiting) :: h' ++
      [Label.call (.write 7 0 [1, 2] ready) (.wrote 0), .boot], l.Ready := by
    intro l hm
    rcases List.mem_append.1 hm with hm | hm
    · obtain ⟨r, rfl⟩ := hall' l hm
      rfl
    · exact hready l hm
  -- the same theorem at the end of the polling
  obtain ⟨-, -, -, -, hblank⟩ := relocation_keeps_capacity (hr.trans hrun)
    (.single (hpassed _ hall') (by decide)) hready' (polledToIdle_threads hpolled hall')
  exact ⟨w, h', v, hw, hrun, hall, hblank ready _ rfl⟩

end Wormvars
