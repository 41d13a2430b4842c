import Wormvars.Latency

/-!
# How fast users may write

An erase gives 128 cells back and costs 51 at most, and it comes within 103 calls of
`fs_thread` that need not wait.  So users can write 77 blocks for each 103 such calls, in
any order and to any keys, with 126 more at any time for the sectors that are blank
(`Metered`): no write fails, and there is always a sector that is not full
(`metered_writes_succeed`).

The argument goes back to the last time that two other sectors were blank.  `Sustained a e fs`
says what the steps `a` since then, with `e` erases, have left of the cells that were free.
-/

namespace Wormvars

open NorFlash Runs

variable {crc : Block → BitVec 32} {n : Nat} {h h' a : List Label} {e : Nat}

/-! ## Rates -/

/-- No stretch of the run has more than 126 writes beyond 77 for each 103 calls of `fs_thread`. -/
def Metered (h : List Label) : Prop :=
  ∀ m, m <:+: h → 103 * written m ≤ 77 * polls m + 103 * 126

theorem Metered.tail {l : Label} (hm : Metered (l :: h)) : Metered h :=
  fun m hi => hm m (hi.trans (List.suffix_cons l h).isInfix)

theorem Metered.of_prefix (hm : Metered h) (ha : a <+: h) :
    103 * written a ≤ 77 * polls a + 103 * 126 := hm a ha.isInfix

theorem polls_singleton_le (l : Label) : polls [l] ≤ 1 := List.countP_le_length

theorem pollsLeft_pos (fs : Fs) : 1 ≤ pollsLeft fs := by
  unfold pollsLeft
  split <;> omega

/-! ## Cells -/

/-- No cell of a blank sector is used. -/
theorem totalUsed_blankOthers {fs : Fs} {f : Mem} (hs : Shape fs.curr f) :
    totalUsed fs + 128 * blankOthers fs ≤ 1024 := by
  have hcell : ∀ s, cellsUsed fs s + (if BlankOther fs s then 128 else 0) ≤ 128 := by
    intro s
    have hle := (hs.address_eq s).2
    by_cases hb : BlankOther fs s
    · have h0 : cellsUsed fs s = 0 := (hs.blank_iff s).1 hb.2
      rw [if_pos hb]
      omega
    · rw [if_neg hb]
      omega
  have hsum : ∑ s : Fin 8, (cellsUsed fs s + if BlankOther fs s then 128 else 0) ≤
      ∑ _ : Fin 8, 128 := Finset.sum_le_sum fun s _ => hcell s
  rw [Finset.sum_add_distrib, ← Finset.sum_filter, Finset.sum_const, ← blankOthers_eq] at hsum
  simp only [smul_eq_mul, Finset.sum_const, Finset.card_univ, Fintype.card_fin] at hsum
  unfold totalUsed
  omega

/-! ## Since two sectors were blank -/

/-- The steps `a`, with `e` erases, since two other sectors were blank. -/
structure Sustained (a : List Label) (e : Nat) (fs : Fs) : Prop where
  calls : pollsLeft fs + polls a ≤ 103 * (e + 1) + 1
  cells : totalUsed fs + unreached fs + blankOthers fs + 77 * e ≤ 820 + written a

theorem Sustained.start {fs : Fs} {f : Mem} (hs : Shape fs.curr f) (h2 : 2 ≤ blankOthers fs)
    (hu : unreached fs ≤ 50) : Sustained [] 0 fs := by
  have hp := pollsLeft_le hu
  have ht := totalUsed_blankOthers hs
  constructor
  · show pollsLeft fs + 0 ≤ _
    omega
  · show _ ≤ 820 + 0
    omega

/-- The cells are not used up. -/
theorem not_used_up {fs : Fs}
    (hcells : totalUsed fs + unreached fs + blankOthers fs + 77 * e ≤ 820 + written a)
    (hpolls : polls a ≤ 103 * (e + 1) + 1) (hrate : 103 * written a ≤ 77 * polls a + 103 * 126) :
    totalUsed fs < 1024 := by
  omega

theorem Sustained.not_full {fs : Fs} {f : Mem} (h : Sustained a e fs) (hs : Shape fs.curr f)
    (hrate : 103 * written a ≤ 77 * polls a + 103 * 126) : ∃ s, ¬ fs.SectorIsFull s := by
  have hp := h.calls
  by_contra hno
  rw [not_exists] at hno
  have hfull := totalUsed_of_full hs fun s => not_not.1 (hno s)
  have := not_used_up h.cells (by omega) hrate
  omega

section step
variable {w w' : World} {c : Call} {r : Result}

/-- A call. -/
theorem Sustained.step (h : Sustained a e w.fs) (hsp : StepSpent crc (n + 2) w (.call c r) w')
    (hnear : blankOthers w.fs < 2 → Nearer (polls [.call c r]) w.fresh w')
    (he : c.exec crc (n + 2) w.fresh = some (r, w'))
    (hbase : 2 ≤ blankOthers w.fs → a = [] ∧ e = 0) (hu : unreached w.fs ≤ 50)
    (hrate : 103 * written (.call c r :: a) ≤ 77 * polls (.call c r :: a) + 103 * 126) :
    Sustained (.call c r :: a) (e + erases w'.log) w'.fs := by
  have hlog : issued crc (n + 2) (.on w) (.call c r) = w'.log := issued_call he
  obtain ⟨hi', hcells, -, -, hbudget, hreach⟩ := hsp
  rw [hlog] at hcells hbudget
  have hp := h.calls
  have hc := h.cells
  have hpos := pollsLeft_pos w.fs
  have hle : pollsLeft w'.fs ≤ 103 := pollsLeft_le (by omega)
  have hone := polls_singleton_le (.call c r)
  have hboots : boots [Label.call c r] = 0 := rfl
  have hw := written_cons (.call c r) a
  have hq := polls_cons (.call c r) a
  have hcells' : totalUsed w'.fs + unreached w'.fs + blankOthers w'.fs +
      77 * (e + erases w'.log) ≤ 820 + written (.call c r :: a) := by omega
  refine ⟨?_, hcells'⟩
  by_cases h0 : erases w'.log = 0
  · by_cases hb : blankOthers w.fs < 2
    · rcases (hnear hb).polls h0 with hfull | hless
      · -- then the cells would be used up
        have h1024 := totalUsed_of_full hi'.shape hfull
        rw [h0] at hcells'
        have := not_used_up hcells' (by omega) hrate
        omega
      · have : pollsLeft w.fresh.fs = pollsLeft w.fs := rfl
        omega
    · obtain ⟨rfl, rfl⟩ := hbase (by omega)
      have hnil : polls [] = 0 := rfl
      omega
  · omega

theorem WriteEnds.result {name : BitVec 16} {ext : BitVec 8} {data : List Byte} {i : Int}
    (h : WriteEnds crc w name ext data (i, w')) (hlen : data.length ≤ 28)
    (hsome : ∃ s, ¬ w.fs.SectorIsFull s) : i = 0 := by
  obtain ⟨s, hs⟩ := hsome
  generalize he : (i, w') = p at h
  cases h with
  | tooLong hlong => omega
  | allFull _ hall => exact absurd (hall s) hs
  | room => exact congrArg Prod.fst he
  | switched => exact congrArg Prod.fst he

end step

/-! ## Runs -/

/-- As long as users keep to the rate no write fails, from any state reached with two sectors
blank, whatever is written, and wherever the calls of `fs_thread` come. -/
theorem metered_writes_succeed {w : World} {s : Sys}
    (hr : Run (Step crc (n + 2)) (.off erased) h (.on w)) (hb : 2 ≤ blankOthers w.fs)
    (hr' : Run (Step crc (n + 2)) (.on w) h' s) (hl : Limits (h' ++ h))
    (hcalls : ∀ l ∈ h', ∃ c r, l = .call c r) (hm : Metered h') :
    (∀ name ext data ans r, .call (.write name ext data ans) (.wrote r) ∈ h' →
      data.length ≤ 28 → r = 0) ∧ ∃ w', s = .on w' ∧ ∃ t, ¬ w'.fs.SectorIsFull t := by
  obtain ⟨k, he⟩ := hr'.emits (issued crc (n + 2))
  have hclosed : SuffixClosed fun g => Limits (g ++ h) ∧ (∀ l ∈ g, ∃ c r, l = .call c r) ∧
      Metered g := fun l g ⟨hl, hc, hm⟩ =>
    ⟨hl.tail, fun x hx => hc x (List.mem_cons_of_mem _ hx), hm.tail⟩
  have hi : Inv crc w.fs w.flash := reachable_inv hr hl.of_append
  have hu := reachable_unreached hr hl.of_append w rfl
  have hmain := he.invariant (I := fun g t _ => (∀ name ext data ans r,
    .call (.write name ext data ans) (.wrote r) ∈ g → data.length ≤ 28 → r = 0) ∧
    ∃ v, t = .on v ∧ Inv crc v.fs v.flash ∧ ∃ a e, a <+: g ∧ Sustained a e v.fs ∧
      (2 ≤ blankOthers v.fs → a = [] ∧ e = 0)) hclosed ⟨hl, hcalls, hm⟩ ?_ ?_
  · obtain ⟨hw, v, rfl, hiv, a, e, ha, hsus, -⟩ := hmain
    exact ⟨hw, v, rfl, hsus.not_full hiv.shape (hm.of_prefix ha)⟩
  · exact ⟨fun _ _ _ _ _ h => (by cases h), w, rfl, hi, [], 0, List.prefix_refl _,
      .start hi.shape hb hu, fun _ => ⟨rfl, rfl⟩⟩
  · rintro g b l t k' hrun ⟨hl', hc', hm'⟩ hst ⟨hw, v, rfl, hiv, a, e, ha, hsus, hbase⟩
    obtain ⟨c, r, rfl⟩ := hc' l List.mem_cons_self
    obtain ⟨-, hslot⟩ := hl'.before (hr.trans hrun)
    have huv := reachable_unreached (hr.trans hrun) hl'.tail v rfl
    cases hst with
    | call _ _ _ v' hex =>
      obtain ⟨hsp, hi'⟩ := hiv.exec_spent hslot hex
      have hsp' := hsp.step hi' hex
      have hal : .call c r :: a <+: .call c r :: g := List.prefix_cons_inj _ |>.2 ha
      have hsus' := hsus.step hsp' (fun hb => hiv.exec_nearer hslot hb hex) hex hbase huv
        (hm'.of_prefix hal)
      have hroom := hsus.not_full hiv.shape (hm'.tail.of_prefix ha)
      refine ⟨fun name ext data ans i hmem hlen => ?_, v', rfl, hi', ?_⟩
      · rcases List.mem_cons.1 hmem with heq | hmem
        · cases heq
          obtain ⟨j, hj, hends⟩ := write_ends (w := v.fresh) hiv hslot hex
          cases hj
          exact hends.result hlen hroom
        · exact hw name ext data ans i hmem hlen
      · by_cases hb' : 2 ≤ blankOthers v'.fs
        · have hu' := hsp'.reach
          exact ⟨[], 0, List.nil_prefix, .start hi'.shape hb' (by omega), fun _ => ⟨rfl, rfl⟩⟩
        · exact ⟨_, _, hal, hsus', fun h => absurd h hb'⟩

/-- 126 writes in a row after a relocation. -/
theorem metered_writes_succeed_tour : ∃ h u w x v h' w', Tour h u w x v ∧
    Run (Step (fun _ => 0) 2) (.on v) h' (.on w') ∧ h'.length = 126 ∧
    (∀ l ∈ h', l = .call (sectorWrite 5) (.wrote 0)) ∧ ∃ s, ¬ w'.fs.SectorIsFull s := by
  obtain ⟨h, u, w, x, v, ht⟩ := tour
  obtain ⟨hr, hkeys⟩ := ht.afterErase.fromOff
  obtain ⟨h', w', hr', hkeys', hlen, hall⟩ := hkeys.again hr (SectorKeys.write 5) 126
  have hmetered : Metered h' := by
    intro m hm
    have hle := hm.length_le
    have : written m ≤ m.length := List.countP_le_length
    omega
  have hcalls : ∀ l ∈ h', ∃ c r, l = .call c r := fun l hl => by
    obtain ⟨r, -, -, -, rfl⟩ := hall l hl
    exact ⟨_, _, rfl⟩
  obtain ⟨hzero, v', hv, hroom⟩ := metered_writes_succeed hr (Nat.le_of_eq ht.spare.symm) hr'
    (hkeys.append hkeys').limits hcalls hmetered
  cases hv
  refine ⟨h, u, w, x, v, h', w', ht, hr', hlen, fun l hl => ?_, hroom⟩
  obtain ⟨r, a, b, he, rfl⟩ := hall l hl
  obtain ⟨i, rfl⟩ := exec_sectorWrite he
  rw [hzero _ _ _ _ i hl (by decide)]

end Wormvars
