import Wormvars.Tour

/-!
# What a caller may rely on

Without power cuts `fs_read` returns what was last written with success
(`fs_reads_lastAcked`).  With power cuts, as many as there may be, every boot
finds what was acknowledged, and of a write that was cut short all or nothing
(`fs_crash_atomic`).
-/

namespace Wormvars

open NorFlash NewerLog Runs

variable {crc : Block → BitVec 32} {n : Nat} {h h' : List Label}

/-! ## Without power cuts -/

/-- A run of calls goes on with the system on, and no write is cut short. -/
theorem calls_on {s t : Sys} (hr : Run (Step crc n) s h t) (hc : ∀ l ∈ h, ∃ c r, l = .call c r)
    (hs : ∃ w, s = .on w) : ∃ w, t = .on w := by
  induction hr with
  | refl => exact hs
  | step _ hst _ =>
    obtain ⟨c, r, rfl⟩ := hc _ List.mem_cons_self
    cases hst with
    | call w _ _ w' _ => exact ⟨w', rfl⟩

/-- A step that power does not fail in. -/
def Label.Whole : Label → Prop
  | .call _ _ | .boot => True
  | .cut _ | .bootCut => False

theorem whole_of_calls (hc : ∀ l ∈ h, ∃ c r, l = .call c r) : ∀ l ∈ h, l.Whole := by
  intro l hl
  obtain ⟨c, r, rfl⟩ := hc l hl
  trivial

theorem interrupted_whole (hc : ∀ l ∈ h, l.Whole) (name : BitVec 16) (ext : BitVec 8) :
    interrupted h name ext = [] := by
  induction h with
  | nil => rfl
  | cons l h ih =>
    have hl := hc l List.mem_cons_self
    have ih := ih fun l hl => hc l (List.mem_cons_of_mem _ hl)
    cases l with
    | boot => exact ih
    | cut => exact hl.elim
    | bootCut => exact hl.elim
    | call c r =>
      cases c with
      | read => exact ih
      | thread => exact ih
      | write nm ex d ans =>
        cases r with
        | read => exact ih
        | ran => exact ih
        | wrote r =>
          simp only [interrupted]
          rw [ih, ite_self]

/-- Without cuts the store holds what was last acknowledged. -/
theorem stored_whole {S : Store} (hr : Run StoreStep .empty h S) (hc : ∀ l ∈ h, l.Whole) :
    S = lastAcked h := by
  funext name ext
  rcases stored_last hr name ext with he | ⟨d, hd, -⟩
  · exact he
  · rw [interrupted_whole hc] at hd
    cases hd

/-- From a boot of an erased flash on, every call within the limits returns, and `fs_read` gives
the data of the last `fs_write` that returned `0`. -/
theorem fs_reads_lastAcked {s : Sys} (hr : Run (Step crc (n + 2)) (.on (coldBoot crc erased)) h s)
    (hc : ∀ l ∈ h, ∃ c r, l = .call c r) (hl : Limits h) :
    ∃ w, s = .on w ∧ Reads w (lastAcked h) ∧
      ∀ c, (∀ r, Limits (.call c r :: h)) →
        ∃ r w', c.exec crc (n + 2) w.fresh = some (r, w') := by
  obtain ⟨w, rfl⟩ := calls_on hr hc ⟨_, rfl⟩
  have h0 : Sound crc .empty (.on (coldBoot crc erased)) := sound_boot (sound_erased crc)
  obtain ⟨-, S, hS, hsound, hpassed⟩ := hl.reaches hr h0
  refine ⟨w, rfl, ?_, fun c hlc => ?_⟩
  · have hreads := hsound.reads
    rw [stored_whole hS (whole_of_calls hc)] at hreads
    exact hreads
  · obtain ⟨r, w', he, -⟩ := (hlc (.wrote 0)).call hsound hpassed n
    exact ⟨r, w', he⟩

/-- After a relocation the last block that was written reads back. -/
theorem fs_reads_lastAcked_tour : ∃ h u w x v, Tour h u w x v ∧ fsRead v 5 0 3 = .found [0, 0, 0] ∧
    ∃ r w', (sectorWrite 5).exec (fun _ => 0) 2 v.fresh = some (r, w') := by
  obtain ⟨h, u, w, x, v, ht⟩ := tour
  have hs := ht.afterErase
  obtain ⟨v', hv, hread, hnext⟩ := fs_reads_lastAcked hs.run hs.calls hs.keys.limits
  cases hv
  refine ⟨h, u, w, x, v, ht, (hread 5 0 3 (by decide)).trans ?_, hnext (sectorWrite 5)
    fun r => (hs.keys.append (.write 5 r)).limits⟩
  rfl

/-- Two bytes are written under the name `7` after a boot of the erased flash. -/
theorem first_exec : ∃ w', (Call.write 7 0 [1, 2] ⟨true, true⟩).exec (fun _ => 0) (0 + 2)
    (coldBoot (fun _ => 0) erased).fresh = some (.wrote 0, w') ∧ fsRead w' 7 0 2 = .found [1, 2] := by
  have hw : ((Call.write 7 0 [1, 2] ⟨true, true⟩).exec (fun _ => 0) (0 + 2)
      (coldBoot (fun _ => 0) erased).fresh).map (fun r => (r.1, fsRead r.2 7 0 2)) =
      some (.wrote 0, .found [1, 2]) := by decide +kernel
  obtain ⟨⟨r, w'⟩, he, heq⟩ := Option.map_eq_some_iff.1 hw
  obtain ⟨rfl, hread⟩ := Prod.mk.inj heq
  exact ⟨w', he, hread⟩

theorem first_write : ∃ w', Step (fun _ => 0) (0 + 2) (.on (coldBoot (fun _ => 0) erased))
    (.call (.write 7 0 [1, 2] ⟨true, true⟩) (.wrote 0)) (.on w') := by
  obtain ⟨w', he, -⟩ := first_exec
  exact ⟨w', .call _ _ _ _ he⟩

/-! ## With power cuts -/

/-- Between two moments at which the system is on, it does what the store does: a write cut short
sets its key or does not, a cut of anything else changes nothing. -/
theorem fs_crash_atomic {w w' : World} (hr : Run (Step crc (n + 2)) (.off erased) h (.on w))
    (hr' : Run (Step crc (n + 2)) (.on w) h' (.on w')) (hl : Limits (h' ++ h)) :
    ∃ S S', Run StoreStep .empty h S ∧ Reads w S ∧ Run StoreStep S h' S' ∧ Reads w' S' ∧
      ∀ name ext, S' name ext = lastAcked (h' ++ h) name ext ∨
        ∃ d ∈ interrupted (h' ++ h) name ext, S' name ext = some d := by
  have hlh : Limits h := by
    clear hr hr'
    induction h' with
    | nil => exact hl
    | cons l k ih => exact ih hl.tail
  obtain ⟨-, S, hS, hsound, hpassed⟩ := hlh.reaches hr (sound_erased crc)
  obtain ⟨-, S', hS', hsound', -⟩ := simulates_limits hr' hsound hpassed hl
  exact ⟨S, S', hS, hsound.reads, hS', hsound'.reads, stored_last (hS.trans hS')⟩

/-- The first write is cut after its last flash operation. -/
theorem fs_crash_atomic_one : ∃ f,
    Step (fun _ => 0) 2 (.on (coldBoot (fun _ => 0) erased)) (.cut (.write 7 0 [1, 2] ⟨true, true⟩))
      (.off f) ∧
    (fsRead (coldBoot (fun _ => 0) f) 7 0 2 = .notFound ∨
      fsRead (coldBoot (fun _ => 0) f) 7 0 2 = .found [1, 2]) := by
  have hlen : (issued (fun _ => 0) 2 (.on (coldBoot (fun _ => 0) erased))
      (.cut (.write 7 0 [1, 2] ⟨true, true⟩))).length = 3 := by decide +kernel
  generalize hw : coldBoot (fun _ => 0) erased = w at hlen ⊢
  obtain ⟨e, l, he⟩ := List.exists_cons_of_length_pos (Nat.lt_of_lt_of_eq (by decide) hlen.symm)
  have hcut : Step (fun _ => 0) (0 + 2) (.on w) (.cut (.write 7 0 [1, 2] ⟨true, true⟩))
      (.off e.flash) := .cut _ _ e _ (by rw [he]; exact List.mem_cons_self) .before
  refine ⟨e.flash, hcut, ?_⟩
  have hboot : Step (fun _ => 0) (0 + 2) (.off erased) .boot (.on w) := hw ▸ .boot (.off erased)
  obtain ⟨S, S', hS, -, hS', hread, -⟩ := fs_crash_atomic (Run.refl.step hboot)
    ((Run.refl.step hcut).step (.boot _)) (.single rfl (by decide))
  have hread := hread 7 0 2 (by decide)
  cases hS with
  | step h0 h1 =>
    cases h0
    obtain rfl : S = .empty := h1
    cases hS' with
    | step h2 h3 =>
      cases h2 with
      | step h4 h5 =>
        cases h4
        obtain rfl : S' = _ := h3
        rcases h5 with rfl | rfl
        · exact Or.inl (hread.trans (by rfl))
        · exact Or.inr (hread.trans (by rfl))

end Wormvars
