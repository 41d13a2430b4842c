import Wormvars.Reinit

/-!
# Keys and lengths in `fs_write` and `fs_read`

`fs_write` keeps three bits of the extension and refuses data that does not fit
the block; `fs_read` compares all eight bits and copies as much as it is asked for.
`write_read_agree_iff` says when the two agree about a write that returned 0, in
any session with a free descriptor.
-/

namespace Wormvars

open NorFlash NewerLog Runs

variable {crc : Block → BitVec 32} {n : Nat}

/-! ## Sessions -/

/-- A call that returns. -/
def CallStep (crc : Block → BitVec 32) (n : Nat) (w : World) (c : Call) (w' : World) : Prop :=
  ∃ r, c.exec crc n w.fresh = some (r, w')

/-- A step in which no write fails for want of a descriptor. -/
structure Lasting (crc : Block → BitVec 32) (n : Nat) (s : Sys) (l : Label) (t : Sys) : Prop where
  step : Step crc n s l t
  slot : SlotFree s l

/-- Within the limits none does. -/
theorem Limits.lasting {h : List Label} {s : Sys} (hl : Limits h)
    (hr : Run (Step crc (n + 2)) (.off erased) h s) :
    Run (Lasting crc (n + 2)) (.off erased) h s :=
  (hl.reaches hr (sound_erased crc)).1.mono fun _ _ _ hg => ⟨hg.step, hg.slot⟩

/-- The system keeps a map, whatever the arguments of the calls were. -/
def Held (crc : Block → BitVec 32) : Sys → Prop
  | .on w => Inv crc w.fs w.flash
  | .off f => ∃ M, Recoverable crc M f

theorem Held.recoverable {s : Sys} (h : Held crc s) : ∃ M, Recoverable crc M s.flash := by
  cases s with
  | on w => exact ⟨_, Inv.recoverable h⟩
  | off f => exact h

/-- The operations of a call are safe to cut. -/
theorem Inv.exec_good {w w' : World} {c : Call} {r : Result} (hi : Inv crc w.fs w.flash)
    (hslot : SlotFor w c) (h : c.exec crc (n + 2) w.fresh = some (r, w')) :
    ∀ e ∈ w'.log, ∃ Ms, Good crc Ms e := by
  have hi : Inv crc w.fresh.fs w.fresh.flash := hi
  have hlog : ∀ {Ms : Contents → Prop}, Logged (Good crc Ms) w.fresh w' →
      ∀ e ∈ w'.log, ∃ Ms, Good crc Ms e := by
    intro Ms hl e he
    rcases hl.mem he with he | he
    · cases he
    · exact ⟨Ms, he⟩
  cases c with
  | read name ext len =>
    obtain rfl := congrArg Prod.snd (Option.some.inj h)
    exact fun e he => by cases he
  | thread ans =>
    obtain ⟨k, -, hm⟩ := thread_moves hi h
    exact hlog (hm.spec hi).2.logged
  | write name ext data ans =>
    obtain ⟨i, -, hends⟩ := write_ends hi hslot h
    rcases hends.cases hi with ⟨-, rfl⟩ | ⟨-, -, -, hw⟩
    · have hl : Logged (Good crc fun M => M = contents w.fs w.flash) w.fresh (w.fresh.returns i).2 :=
        Logged.cons rfl (Good.returns (e := ⟨w.fs, w.flash, .returns i⟩) rfl rfl hi.recoverable)
      exact hlog hl
    · exact hlog hw.logged

theorem Lasting.held {s t : Sys} {l : Label} (h : Lasting crc (n + 2) s l t) (hs : Held crc s) :
    Held crc t := by
  have hcut : ∀ {e : Event} {f : Mem}, (∃ Ms, Good crc Ms e) → Cut crc e f → Held crc (.off f) := by
    rintro e f ⟨Ms, hg⟩ hc
    obtain ⟨M, -, hM⟩ := hg.cut f hc
    exact ⟨M, hM⟩
  have hboot := hs.recoverable
  obtain ⟨M, hM⟩ := hboot
  obtain ⟨curr, -, hb⟩ := hM.booted
  obtain ⟨hst, hslot⟩ := h
  cases hst with
  | call w c r w' he => exact Inv.exec hs hslot he
  | cut w c e f hm hc =>
    refine hcut ?_ hc
    unfold issued at hm
    simp only at hm
    split at hm
    · next r w' he => exact Inv.exec_good hs hslot he e hm
    · cases hm
  | boot => exact hb.inv
  | bootCut _ e f hm hc => exact hcut ⟨_, hb.logged e (by cases s <;> exact hm)⟩ hc

/-- A table that is not full now has not been full since the boot. -/
theorem session_inv {f : Mem} (hf : ∃ M, Recoverable crc M f) {h : List Call} {w : World}
    (hr : Run (CallStep crc (n + 2)) (coldBoot crc f) h w) :
    w.fs.fd.length < fdMax → Inv crc w.fs w.flash := by
  obtain ⟨M, hM⟩ := hf
  obtain ⟨curr, -, hb⟩ := hM.booted
  refine hr.invariant (I := fun _ w => w.fs.fd.length < fdMax → Inv crc w.fs w.flash)
    (fun _ => hb.inv) ?_
  rintro _ u c v hu ⟨r, he⟩ hfree
  have hlt : u.fs.fd.length < fdMax := Nat.lt_of_le_of_lt (exec_descriptors (w := u.fresh) he) hfree
  refine (hu hlt).exec ?_ he
  cases c with
  | write name ext data ans => exact fun _ _ => Or.inr hlt
  | read name ext len => trivial
  | thread ans => trivial

/-! ## Agreement -/

/-- `fs_read` after a write of `data`: of its key, up to `len` bytes, and of any other. -/
structure Agree (w w' : World) (name : BitVec 16) (ext : BitVec 8) (data : List Byte)
    (len : Nat) : Prop where
  own : fsRead w' name ext len = .notFound ∨
    (len ≤ fsBlockSize - 4 ∧ fsRead w' name ext len = .found ((padded data).take len))
  others : ∀ name' ext' len', (name', ext') ≠ (name, ext) →
    fsRead w' name' ext' len' = fsRead w name' ext' len'

theorem fsRead_congr {w w' : World}
    (h : contents w'.fs w'.flash = contents w.fs w.flash) (name : BitVec 16) (ext : BitVec 8)
    (len : Nat) : fsRead w' name ext len = fsRead w name ext len := by
  by_cases hext : ext.toNat < 8
  · rw [fsRead_of_ext w' name hext, fsRead_of_ext w name hext, h]
  · rw [fsRead_of_large w' name hext, fsRead_of_large w name hext]

section agree
variable {w w' : World} {name : BitVec 16} {ext : BitVec 8} {data : List Byte}
  (hlen : data.length ≤ 28) (hc : contents w'.fs w'.flash =
    Function.update (contents w.fs w.flash) (name, ext.setWidth 3) (some (pad data)))

include hlen hc

/-- Under the key that is stored the data is read. -/
theorem fsRead_stored {ext' : BitVec 8} (hext : ext'.toNat < 8)
    (hk : ext'.setWidth 3 = ext.setWidth 3) (len : Nat) : fsRead w' name ext' len =
      if len ≤ fsBlockSize - 4 then .found ((padded data).take len) else .overrun := by
  rw [fsRead_of_ext w' name hext, hc, hk, Function.update_self]
  simp only [ofFn_pad hlen]

theorem agree_of_ext (hext : ext.toNat < 8) (len : Nat) :
    Agree w w' name ext data len ↔ len ≤ fsBlockSize - 4 := by
  have hown := fsRead_stored hlen hc hext rfl len
  constructor
  · rintro ⟨h | h, -⟩
    · by_contra hgt
      rw [hown, if_neg hgt] at h
      cases h
    · exact h.1
  · intro hle
    rw [if_pos hle] at hown
    refine ⟨Or.inr ⟨hle, hown⟩, fun name' ext' len' hne => ?_⟩
    by_cases hext' : ext'.toNat < 8
    · have hkey : (name', ext'.setWidth 3) ≠ (name, ext.setWidth 3) := by
        intro he
        obtain ⟨rfl, hk⟩ := Prod.mk.inj he
        refine hne (congrArg (name', ·) ?_)
        rw [← setWidth_ext hext', hk, setWidth_ext hext]
      rw [fsRead_of_ext w' name' hext', fsRead_of_ext w name' hext', hc,
        Function.update_of_ne hkey]
    · rw [fsRead_of_large w' name' hext', fsRead_of_large w name' hext']

theorem agree_of_large (hext : ¬ ext.toNat < 8) (len : Nat) : Agree w w' name ext data len ↔
    contents w.fs w.flash (name, ext.setWidth 3) = some (pad data) := by
  constructor
  · intro h
    -- the same name with the three bits that are kept
    have hsmall : ((ext.setWidth 3).setWidth 8).toNat < 8 := by
      simp only [BitVec.toNat_setWidth]
      omega
    have hkey : ((ext.setWidth 3).setWidth 8).setWidth 3 = ext.setWidth 3 := by
      rw [BitVec.setWidth_setWidth_of_le _ (by omega), BitVec.setWidth_eq]
    have hne : (name, (ext.setWidth 3).setWidth 8) ≠ (name, ext) := by
      intro he
      rw [(Prod.mk.inj he).2] at hsmall
      exact hext hsmall
    have hread := h.others _ _ 28 hne
    rw [fsRead_stored hlen hc hsmall hkey, fsRead_of_ext w name hsmall, hkey,
      if_pos (by decide)] at hread
    cases hd : contents w.fs w.flash (name, ext.setWidth 3) with
    | none =>
      rw [hd] at hread
      cases hread
    | some d =>
      rw [hd] at hread
      simp only [if_pos (show 28 ≤ fsBlockSize - 4 by decide), ReadResult.found.injEq] at hread
      rw [← ofFn_pad hlen, List.take_of_length_le (by simp), List.take_of_length_le (by simp)]
        at hread
      rw [List.ofFn_injective hread]
  · intro hsame
    rw [← hsame, Function.update_eq_self] at hc
    exact ⟨Or.inl (fsRead_of_large w' name hext len), fun name' ext' len' _ =>
      fsRead_congr hc name' ext' len'⟩

end agree

/-- In a session after any run of calls, boots and power cuts in which no write failed for want of a
descriptor: which writes that returned 0 `fs_read` agrees with, and which it reads back. -/
theorem write_read_agree_iff {h₀ : List Label} {s : Sys}
    (hr₀ : Run (Lasting crc (n + 2)) (.off erased) h₀ s) {h : List Call} {w w' : World}
    (hr : Run (CallStep crc (n + 2)) (coldBoot crc s.flash) h w)
    (hfree : w.fs.fd.length < fdMax) {name : BitVec 16} {ext : BitVec 8} {data : List Byte}
    {ans : Answers} (he : (Call.write name ext data ans).exec crc (n + 2) w.fresh =
      some (.wrote 0, w')) (len : Nat) :
    (Agree w w' name ext data len ↔ (ext.toNat < 8 ∧ len ≤ fsBlockSize - 4) ∨
      (8 ≤ ext.toNat ∧ contents w.fs w.flash (name, ext.setWidth 3) = some (pad data))) ∧
    (fsRead w' name ext len = .found ((padded data).take len) ↔
      ext.toNat < 8 ∧ len ≤ fsBlockSize - 4) := by
  have hheld : Held crc s :=
    hr₀.invariant (I := fun _ s => Held crc s) ⟨_, recoverable_erased crc⟩
      fun _ _ _ _ hs hst => hst.held hs
  have hi : Inv crc w.fs w.flash := session_inv hheld.recoverable hr hfree
  have hi : Inv crc w.fresh.fs w.fresh.flash := hi
  obtain ⟨i, hi', hends⟩ := write_ends hi (fun _ _ => Or.inr hfree) he
  cases hi'
  rcases hends.cases hi with ⟨hneg, -⟩ | ⟨-, hlen, -, hw⟩
  · exact absurd hneg (by decide)
  · have hc : contents w'.fs w'.flash = Function.update (contents w.fs w.flash)
        (name, ext.setWidth 3) (some (pad data)) := hw.contents
    by_cases hext : ext.toNat < 8
    · have hown := fsRead_stored hlen hc hext rfl len
      constructor
      · rw [agree_of_ext hlen hc hext]
        simp only [hext, true_and, Nat.not_le.2 hext, false_and, or_false]
      · rw [hown]
        by_cases hle : len ≤ fsBlockSize - 4
        · simp [hle, hext]
        · simp [hle]
    · constructor
      · rw [agree_of_large hlen hc hext]
        simp only [hext, false_and, false_or, Nat.not_lt.1 hext, true_and]
      · rw [fsRead_of_large w' name hext]
        simp [hext]

theorem write_read_agree_iff_one : ∃ w',
    (Call.write 7 0 [1, 2] ⟨true, true⟩).exec (fun _ => 0) 2 (coldBoot (fun _ => 0) erased).fresh =
      some (.wrote 0, w') ∧ ¬ Agree (coldBoot (fun _ => 0) erased) w' 7 0 [1, 2] 29 := by
  obtain ⟨w', he, -⟩ := first_exec
  have hfree : (coldBoot (fun _ => 0) erased).fs.fd.length < fdMax := by
    rw [coldBoot_erased_bare]
    decide
  have hrun : Run (CallStep (fun _ => 0) (0 + 2)) (coldBoot (fun _ => 0) (Sys.off erased).flash) []
    (coldBoot (fun _ => 0) erased) := .refl
  refine ⟨w', he, fun h => ?_⟩
  have hor := (@write_read_agree_iff (fun _ => 0) 0 [] (.off erased) .refl [] _ w' hrun hfree
    7 0 [1, 2] ⟨true, true⟩ he 29).1.1 h
  rcases hor with h | h
  · exact absurd h.2 (by decide)
  · exact absurd h.1 (by decide)

/-- Reading 29 bytes runs past the block; writing under the extension 9 changes the extension 1. -/
theorem write_read_disagree :
    (∃ w, (Call.write 7 0 [1, 2] ⟨true, true⟩).exec (fun _ => 0) 2
      (coldBoot (fun _ => 0) erased).fresh = some (.wrote 0, w) ∧ fsRead w 7 0 29 = .overrun) ∧
    ∃ w, (Call.write 7 9 [1, 2] ⟨true, true⟩).exec (fun _ => 0) 2
      (coldBoot (fun _ => 0) erased).fresh = some (.wrote 0, w) ∧
      fsRead (coldBoot (fun _ => 0) erased) 7 1 2 = .notFound ∧
      fsRead w 7 1 2 = .found [1, 2] := by
  have h₁ : ((Call.write 7 0 [1, 2] ⟨true, true⟩).exec (fun _ => 0) 2
      (coldBoot (fun _ => 0) erased).fresh).map (fun r => (r.1, fsRead r.2 7 0 29)) =
      some (.wrote 0, .overrun) := by decide +kernel
  have h₂ : ((Call.write 7 9 [1, 2] ⟨true, true⟩).exec (fun _ => 0) 2
      (coldBoot (fun _ => 0) erased).fresh).map (fun r => (r.1, fsRead r.2 7 1 2)) =
      some (.wrote 0, .found [1, 2]) := by decide +kernel
  obtain ⟨⟨r₁, w₁⟩, he₁, heq₁⟩ := Option.map_eq_some_iff.1 h₁
  obtain ⟨⟨r₂, w₂⟩, he₂, heq₂⟩ := Option.map_eq_some_iff.1 h₂
  obtain ⟨rfl, hread₁⟩ := Prod.mk.inj heq₁
  obtain ⟨rfl, hread₂⟩ := Prod.mk.inj heq₂
  exact ⟨⟨w₁, he₁, hread₁⟩, w₂, he₂, fsRead_nil (coldBoot_erased_bare _) 7 1 2, hread₂⟩

end Wormvars
