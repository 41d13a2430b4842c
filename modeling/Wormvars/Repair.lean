import Wormvars.Agreement

/-!
# What a boot has to repair

Between two operations at most one key has two copies on flash, and only while
`fs_write` is at work: of the operations it issues, each is aimed at a cell without
which no key has two copies (`Event.Spares.cut`).  So the flash that a power cut leaves, at any time
and after any number of cuts before, costs the next `fs_init` one `flash_write` at
most.  It marks the copy whose flag is cleared, and the other one has its flag set
(`recovery_bounded`): the branches of `initFileDescriptors` for two copies that are both
flagged, or neither, are never taken.
-/

namespace Wormvars

open NorFlash NewerLog Runs

variable {crc : Block → BitVec 32} {n : Nat} {h : List Label}

/-! ## Operations -/

/-- A program of a part of one cell, without which no key has two copies; the other operations
find no key with two copies and leave none. -/
def Event.Spares (crc : Block → BitVec 32) (e : Event) : Prop :=
  match e.op with
  | .program a bs => IsCell a ∧ bs.length ≤ 32 ∧ Spare (copies crc e.flash) a
  | op => Single (copies crc e.flash) ∧ Single (copies crc (op.apply e.flash))

theorem spare_program {f : Mem} {a : Nat} {bs : List Byte} (ha : IsCell a) (hl : bs.length ≤ 32)
    (h : Spare (copies crc f) a) : Spare (copies crc (program f a bs)) a := by
  rw [copies_program crc f a bs ha hl]
  exact h.update _

/-- Whatever of it reaches the flash. -/
theorem Event.Spares.cut {e : Event} (h : e.Spares crc) {f : Mem} (hc : Cut crc e f) :
    ∃ a, Spare (copies crc f) a := by
  obtain ⟨fs, f₀, op⟩ := e
  cases op with
  | program a bs =>
    obtain ⟨ha, hl, hs⟩ := h
    refine ⟨a, ?_⟩
    cases hc with
    | before => exact hs
    | after => exact spare_program ha hl hs
    | torn a' bs' k hop =>
      cases hop
      exact spare_program ha (by rw [List.length_take]; omega) hs
  | erase a =>
    obtain ⟨h₀, h₁⟩ := h
    cases hc with
    | before => exact ⟨0, h₀.spare 0⟩
    | after => exact ⟨0, h₁.spare 0⟩
    | torn a' bs' k hop => cases hop
  | returns r =>
    obtain ⟨h₀, h₁⟩ := h
    cases hc with
    | before => exact ⟨0, h₀.spare 0⟩
    | after => exact ⟨0, h₁.spare 0⟩
    | torn a' bs' k hop => cases hop

/-! ## A write -/

section append
variable {w : World} {buffer : Block} (hi : Inv crc w.fs w.flash)
include hi

theorem clearNewer_spares (i : Nat) : Logged (Event.Spares crc) w (clearNewer w i) := by
  unfold clearNewer
  split
  · next fd hg =>
    have hm := List.mem_of_getElem? hg
    split
    · exact Logged.cons rfl ⟨hi.index.cell fd hm, by simp, hi.index.single.spare _⟩
    · exact Logged.refl _ _
  · exact Logged.refl _ _

/-- The stages up to the mark on the previous copy. -/
theorem stageBlock_spares (hroom : ¬ w.fs.SectorIsFull w.fs.curr.sector) :
    Logged (Event.Spares crc) w (stageBlock crc w buffer) := by
  have hs := hi.shape
  have hx := hi.index
  have hroom' := not_full_iff.1 hroom
  have hb := accepted_updateBlockHash crc buffer fsBlockNewer
  have hblock : ∀ {v : World}, Single (copies crc v.flash) → Logged (Event.Spares crc) v
      (v.flashWrite (w.fs.curr.address w.fs.curr.sector)
        (updateBlockHash crc buffer fsSize32 fsBlockNewer).toBytes) := fun hv =>
    Logged.cons rfl ⟨hs.next_isCell hroom', by simp, hv.spare _⟩
  unfold stageBlock
  dsimp only
  rcases isSlot_findFd w.fs.fd buffer.header with ⟨fd, hg, hk⟩ | ⟨he, hno⟩
  · have hm := List.mem_of_getElem? hg
    have hcopy := hx.copy hm
    have hne := hx.address_ne hs hroom' hm
    obtain ⟨f₁, l₁, hclear, hrw₁, hcop₁, hs₁, -⟩ := clearNewer_spec hs hx hg
    have hd := doubled hs hx hroom' hb rfl hm hk hrw₁ hcop₁ hs₁
    have haged := hx.single.replace
      (c := ⟨fd.header.key, false, (flashRead w.flash fd.address).data⟩) hcopy rfl
    have hsingle : Single (copies crc f₁) := by
      rw [hcop₁]
      exact haged
    -- the old copy is the spare one while there are two
    have hspare : Spare (copies crc (program f₁ (w.fs.curr.address w.fs.curr.sector)
        (updateBlockHash crc buffer fsSize32 fsBlockNewer).toBytes)) fd.address := by
      rw [hd.image]
      exact haged.spare_put (Function.update_self ..) hk.symm hne
    have hget : ((clearNewer w (findFd w.fs.fd buffer.header)).flashWrite
        (w.fs.curr.address w.fs.curr.sector)
        (updateBlockHash crc buffer fsSize32 fsBlockNewer).toBytes).fs.fd[findFd w.fs.fd
          buffer.header]? = some fd.aged := by
      rw [hclear]
      show (w.fs.fd.set _ fd.aged)[_]? = _
      rw [List.getElem?_set_self (List.getElem?_eq_some_iff.1 hg).1]
    refine (clearNewer_spares hi (findFd w.fs.fd buffer.header)).trans ((hblock ?_).trans ?_)
    · rw [hclear]
      exact hsingle
    · rw [invalidatePrevious_of_get hget]
      refine Logged.cons rfl ⟨hx.cell fd hm, by simp, ?_⟩
      rw [hclear]
      exact hspare
  · have hnone : w.fs.fd[findFd w.fs.fd buffer.header]? = none :=
      List.getElem?_eq_none (Nat.le_of_eq he.symm)
    have hclear : clearNewer w (findFd w.fs.fd buffer.header) = w := by
      unfold clearNewer
      rw [hnone]
    rw [hclear]
    refine (hblock hx.single).trans (Logged.of_log ?_)
    unfold invalidatePrevious
    rw [show (w.flashWrite (w.fs.curr.address w.fs.curr.sector) _).fs.fd[findFd w.fs.fd
      buffer.header]? = none from hnone]

theorem appendBlock_spares (hroom : ¬ w.fs.SectorIsFull w.fs.curr.sector)
    (hslot : HasSlot w.fs buffer.header.key) :
    Logged (Event.Spares crc) w (appendBlock crc w buffer).2 := by
  have hroom' := not_full_iff.1 hroom
  have hst := stageBlock_staged hi.shape hi.index hroom' hslot
  have hend := (hi.append hroom hslot).index.single
  obtain ⟨e, r, hef, hop, hrf, hret, he⟩ := appendBlock_eq crc w buffer (hi.findFd_lt hslot)
  rw [he] at hend ⊢
  refine (stageBlock_spares hi hroom).trans (Logged.trans
    (v := ⟨(stageBlock crc w buffer).fs, e.op.apply e.flash, e :: (stageBlock crc w buffer).log⟩)
    (Logged.cons rfl ?_) (Logged.cons rfl ?_))
  · obtain ⟨fs, f, op⟩ := e
    obtain rfl : f = _ := hef
    obtain rfl : op = _ := hop
    refine ⟨hi.shape.next_isCell hroom', by simp [finishBytes], ?_⟩
    refine hi.index.single.of_keys fun a c hc => ?_
    obtain ⟨hne, hc⟩ := update_none_eq_some.1 hc
    exact ⟨c, (hst.others a c hc hne).1, rfl⟩
  · obtain ⟨fs, f, op⟩ := r
    obtain rfl : f = _ := hrf
    obtain rfl : op = _ := hret
    exact ⟨hend, hend⟩

end append

/-! ## Calls -/

section calls
variable {w w' : World}

theorem returns_spares (hi : Inv crc w.fs w.flash) (r : Int) :
    Logged (Event.Spares crc) w (w.returns r).2 :=
  Logged.cons rfl ⟨hi.index.single, hi.index.single⟩

theorem Move.spares {k : Nat} (h : Move crc k w w') (hi : Inv crc w.fs w.flash) :
    Logged (Event.Spares crc) w w' := by
  cases h with
  | resume => exact Logged.of_log rfl
  | relocate _ hroom hc =>
    have happ : Logged (Event.Spares crc) w (appendBlock crc w (relocBlock w.fs.reloc)).2 :=
      appendBlock_spares hi hroom hc.hasSlot
    exact happ.trans (Logged.of_log rfl)
  | erase _ hv hno => exact Logged.cons rfl ⟨hi.index.single, (hi.erase hv hno).1.index.single⟩
  | retry => exact (returns_spares hi (-2)).trans (Logged.of_log rfl)
  | switch => exact Logged.of_log rfl

theorem Moves.spares {k : Nat} (h : Moves crc k w w') (hi : Inv crc w.fs w.flash) :
    Logged (Event.Spares crc) w w' := by
  induction h with
  | refl => exact Logged.refl _ _
  | tail hm h ih => exact (ih hi).trans (h.spares (hm.spec hi).1)

theorem WriteEnds.spares {name : BitVec 16} {ext : BitVec 8} {data : List Byte}
    {r : Int × World} (h : WriteEnds crc w name ext data r) (hi : Inv crc w.fs w.flash) :
    Logged (Event.Spares crc) w r.2 := by
  cases h with
  | tooLong => exact returns_spares hi (-1)
  | allFull => exact returns_spares hi (-2)
  | room _ hroom hslot => exact appendBlock_spares hi hroom hslot
  | switched s v _ hfull hs hv hroom hslot =>
    have hi₁ := (hi.setSector hfull hs).1
    obtain ⟨m, -, hmoves⟩ := hv.moves
    have hsw : Logged (Event.Spares crc) w (w.setSector s) := Logged.of_log rfl
    exact (hsw.trans (hmoves.spares hi₁)).trans
      (appendBlock_spares (hmoves.spec hi₁).1 hroom hslot)

theorem Inv.exec_spares (hi : Inv crc w.fs w.flash) {c : Call} {r : Result} (hslot : SlotFor w c)
    (h : c.exec crc (n + 2) w.fresh = some (r, w')) : ∀ e ∈ w'.log, e.Spares crc := by
  have hi : Inv crc w.fresh.fs w.fresh.flash := hi
  have hlog : Logged (Event.Spares crc) w.fresh w' := by
    cases c with
    | read name ext len =>
      obtain rfl := congrArg Prod.snd (Option.some.inj h)
      exact Logged.refl _ _
    | thread ans =>
      obtain ⟨k, -, hm⟩ := thread_moves hi h
      exact hm.spares hi
    | write name ext data ans =>
      obtain ⟨i, -, hends⟩ := write_ends hi hslot h
      exact hends.spares hi
  intro e he
  exact (hlog.mem he).resolve_left fun h => by cases h

end calls

/-! ## Boots -/

section walk
variable {f₀ : Mem}

/-- Turns of the walk that keep `I` for a flash and a log, whatever the flash holds. -/
structure Settles (crc : Block → BitVec 32) (f₀ : Mem) (I : Mem → List Event → Prop) : Prop where
  start : I f₀ []
  found : ∀ {seen : List Nat} {w : World} {s : Fin 8} {a i : Nat} {fd : FileDescriptor},
    Walk crc f₀ seen w → InSector s a → a ∉ seen → IsCell a → Accepted crc (flashRead w.flash a) →
    w.fs.fd[i]? = some fd → fd.header.key = (flashRead w.flash a).header.key → I w.flash w.log →
    I (resolveDuplicate w i fd s a (flashRead w.flash a).header).flash
      (resolveDuplicate w i fd s a (flashRead w.flash a).header).log

namespace Settles
variable {I : Mem → List Event → Prop}

theorem scanCells (h : Settles crc f₀ I) (s : Fin 8) (n : Nat) : ∀ (a : Nat) (w : World)
    (seen : List Nat), Walk crc f₀ seen w → I w.flash w.log →
    a + 32 * n = sectorBase s + 4096 → sectorBase s ≤ a →
    (∀ b ∈ seen, b < a ∨ sectorBase s + 4096 ≤ b) →
    ∃ l, Walk crc f₀ (seen ++ l) (Wormvars.scanCells crc s n a w).2 ∧ (∀ b ∈ l, InSector s b) ∧
      I (Wormvars.scanCells crc s n a w).2.flash (Wormvars.scanCells crc s n a w).2.log := by
  have hstop : ∀ {seen : List Nat} {w w' : World}, Walk crc f₀ seen w → I w.flash w.log →
      w'.fs.fd = w.fs.fd → w'.flash = w.flash → w'.log = w.log →
      ∃ l, Walk crc f₀ (seen ++ l) w' ∧ (∀ b ∈ l, InSector s b) ∧ I w'.flash w'.log := by
    intro seen w w' hw hI hfd hf hl
    refine ⟨[], ?_, List.forall_mem_nil _, ?_⟩
    · rw [List.append_nil]
      exact hw.congr hfd hf
    · rw [hf, hl]
      exact hI
  induction n with
  | zero =>
    intro a w seen hw hI _ _ _
    exact hstop hw hI rfl rfl rfl
  | succ n ih =>
    intro a w seen hw hI hend hlo hseen
    have hs : InSector s a := ⟨hlo, by omega⟩
    have hc : IsCell a := hs.isCell (by have := sectorBase_mod s; omega)
    have ha : a ∉ seen := by
      intro hm
      have := hseen a hm
      omega
    have hw' : Walk crc f₀ seen (w.setAddress s a) := hw.congr rfl rfl
    have hnext : ∀ {v : World}, Walk crc f₀ (seen ++ [a]) v → I v.flash v.log →
        ∃ l, Walk crc f₀ (seen ++ l) (Wormvars.scanCells crc s n (a + 32) v).2 ∧
          (∀ b ∈ l, InSector s b) ∧ I (Wormvars.scanCells crc s n (a + 32) v).2.flash
            (Wormvars.scanCells crc s n (a + 32) v).2.log := by
      intro v hv hIv
      obtain ⟨l, hl, hin, hI'⟩ := ih (a + 32) v _ hv hIv (by omega) (by omega) (by
        intro b hb
        rcases List.mem_append.1 hb with hb | hb
        · have := hseen b hb
          omega
        · rw [List.mem_singleton.1 hb]
          omega)
      refine ⟨a :: l, ?_, List.forall_mem_cons.2 ⟨hs, hin⟩, hI'⟩
      rw [List.append_cons]
      exact hl
    by_cases hacc : Accepted crc (flashRead w.flash a)
    · rcases isSlot_findFd w.fs.fd (flashRead w.flash a).header with ⟨fd, hg, hk⟩ | ⟨he, hno⟩
      · rw [scanCells_found n hacc hg]
        exact hnext (hw'.found hs ha hc hacc hg hk).1 (h.found hw' hs ha hc hacc hg hk hI)
      · rw [scanCells_push n hacc (List.getElem?_eq_none (Nat.le_of_eq he.symm))]
        split
        · exact hnext (hw'.push hs ha hc hacc hno) hI
        · exact hstop hw hI rfl rfl rfl
    · rw [scanCells_invalid n hacc]
      split
      · exact hstop hw hI rfl rfl rfl
      · exact hnext (hw'.invalid hc ha hacc) hI

/-- The loop of `fs_init` has done the sectors `done`. -/
structure Settling (crc : Block → BitVec 32) (f₀ : Mem) (I : Mem → List Event → Prop)
    (done : List (Fin 8)) (st : World × Fin 8 × Bool) : Prop where
  walked : ∃ seen, Walk crc f₀ seen st.1 ∧ ∀ b ∈ seen, ∃ t ∈ done, InSector t b
  kept : I st.1.flash st.1.log

theorem settling (h : Settles crc f₀ I) : Settling crc f₀ I [] (⟨.zero, f₀, []⟩, 0, false) :=
  ⟨⟨[], Walk.start (w := ⟨.zero, f₀, []⟩) rfl, List.forall_mem_nil _⟩, h.start⟩

theorem initSector (h : Settles crc f₀ I) {done : List (Fin 8)} {st : World × Fin 8 × Bool}
    {s : Fin 8} (hs : s ∉ done) (hst : Settling crc f₀ I done st) :
    Settling crc f₀ I (done ++ [s]) (initSector crc st s) := by
  obtain ⟨⟨seen, hw, hin⟩, hI⟩ := hst
  obtain ⟨l, hw', hl, hI'⟩ := h.scanCells s 128 (sectorBase s) st.1 seen hw hI rfl (Nat.le_refl _)
    (by
      intro b hb
      obtain ⟨t, ht, hbt⟩ := hin b hb
      have hne : t.val ≠ s.val := fun he => hs (Fin.ext he ▸ ht)
      have h₁ := sectorBase_eq t
      have h₂ := sectorBase_eq s
      unfold InSector at hbt
      omega)
  have hin' : ∀ b ∈ seen ++ l, ∃ t ∈ done ++ [s], InSector t b := by
    intro b hb
    rcases List.mem_append.1 hb with hb | hb
    · obtain ⟨t, ht, hbt⟩ := hin b hb
      exact ⟨t, List.mem_append_left _ ht, hbt⟩
    · exact ⟨s, List.mem_append_right _ (List.mem_singleton_self s), hl b hb⟩
  unfold Wormvars.initSector
  dsimp only
  split_ifs
  · exact ⟨⟨_, hw', hin'⟩, hI'⟩
  · exact ⟨⟨_, hw', hin'⟩, hI'⟩
  · exact ⟨⟨_, hw'.congr rfl rfl, hin'⟩, hI'⟩
  · exact ⟨⟨_, hw', hin'⟩, hI'⟩

/-- What every turn keeps holds after the boot. -/
theorem coldBoot (h : Settles crc f₀ I) : I (coldBoot crc f₀).flash (coldBoot crc f₀).log := by
  have hloop := initSector_loop (I := Settling crc f₀ I) (fun _ _ _ hs hst => h.initSector hs hst)
    h.settling
  unfold Wormvars.coldBoot fsInit
  generalize sectors.foldl (Wormvars.initSector crc) (⟨.zero, f₀, []⟩, 0, false) = st at hloop
  obtain ⟨w, blankSector, sectorAssigned⟩ := st
  cases sectorAssigned with
  | true => exact hloop.kept
  | false => exact hloop.kept

end Settles

/-- The copy at `a`, whose flag is cleared, is marked; the one at `b` has the same key, and its flag
is set. -/
structure Event.Mends (crc : Block → BitVec 32) (e : Event) (a b : Nat) : Prop where
  op : e.op = .program a { (flashRead e.flash a).header with size := fsSizeInvalid }.toBytes
  ne : a ≠ b
  copies : ∃ c d, copies crc e.flash a = some c ∧ copies crc e.flash b = some d ∧ c.key = d.key ∧
    c.newer = false ∧ d.newer = true

/-- A walk that has mended the flash, or found nothing to mend. -/
inductive Mended (crc : Block → BitVec 32) (f₀ f : Mem) (log : List Event) : Prop
  | nothing : f = f₀ → log = [] → Mended crc f₀ f log
  | mended (e : Event) (a b : Nat) : log = [e] → e.flash = f₀ → e.Mends crc a b →
      Single (copies crc f) → Mended crc f₀ f log

/-- A walk over a flash with one copy too many drops it. -/
theorem settles_mended {M : Contents} (hM : Represents (copies crc f₀) M) {p : Nat}
    (hp : Spare (copies crc f₀) p) : Settles crc f₀ (Mended crc f₀) where
  start := .nothing rfl rfl
  found := by
    intro seen w s a i fd hw hs ha hc hacc hg hk hI
    have hm := List.mem_of_getElem? hg
    obtain ⟨hne, -, -⟩ := hw.duplicate ha hc hacc hm hk
    obtain ⟨-, -, hcw, -⟩ := hw.copy hm
    have hca := copies_eq_some hc hacc
    cases hI with
    | mended e x y hl hef he hsingle => exact absurd (hsingle _ _ _ _ hcw hca hk) hne
    | nothing hf hl =>
      subst hf
      have hflags := hM.flags hp hcw hca hk hne
      have hsingle : ∀ {x : Nat} {l : List Nat} {v : World}, Dropped crc w.flash l x w v →
          x = fd.address ∨ x = a → Single (copies crc v.flash) := by
        intro x l v hd hx
        rw [hd.copies, hd.survivors]
        rcases hx with rfl | rfl
        · exact hp.either hcw hca hk hne
        · exact hp.either hca hcw hk.symm (Ne.symm hne)
      by_cases hcase : fd.header.newer = fsBlockCurrent ∧
          (flashRead w.flash a).header.newer = fsBlockNewer
      · -- the descriptor takes the copy just met
        have hd := (hw.found_newer hs ha hc hacc hg hk hcase).2
        obtain ⟨fs, hlog⟩ := hd.log
        rw [hl] at hlog
        refine .mended _ fd.address a hlog rfl ⟨rfl, hne, _, _, hcw, hca, hk, ?_, ?_⟩
          (hsingle hd (Or.inl rfl))
        · exact (newer_eq_false _).2 hcase.1
        · exact beq_iff_eq.2 hcase.2
      · -- the copy just met is the former one
        have hd := (hw.found_older (i := i) (s := s) ha hc hacc hm hk hcase).2
        obtain ⟨fs, hlog⟩ := hd.log
        rw [hl] at hlog
        rcases hflags with ⟨h₁, h₂⟩ | ⟨h₁, h₂⟩
        · exact .mended _ a fd.address hlog rfl
            ⟨rfl, Ne.symm hne, _, _, hca, hcw, hk.symm, h₂, h₁⟩ (hsingle hd (Or.inr rfl))
        · exact absurd ⟨(newer_eq_false _).1 h₂, beq_iff_eq.1 h₁⟩ hcase

end walk

/-! ## Runs -/

/-- One copy too many at most. -/
theorem Lasting.spare {s t : Sys} {l : Label} (h : Lasting crc (n + 2) s l t) (hs : Held crc s)
    (hp : ∃ a, Spare (copies crc s.flash) a) : ∃ a, Spare (copies crc t.flash) a := by
  obtain ⟨M, hM⟩ := hs.recoverable
  obtain ⟨a, ha⟩ := hp
  have hnext := h.held hs
  obtain ⟨hst, hslot⟩ := h
  cases hst with
  | call w c r w' he => exact ⟨0, hnext.index.single.spare 0⟩
  | cut w c e f hm hc =>
    unfold issued at hm
    simp only at hm
    split at hm
    · next r w' he => exact (Inv.exec_spares hs hslot he e hm).cut hc
    · cases hm
  | boot => exact ⟨0, hnext.index.single.spare 0⟩
  | bootCut _ e f hm hc =>
    have hm : e ∈ (coldBoot crc s.flash).log := by cases s <;> exact hm
    cases (settles_mended hM.represents ha).coldBoot with
    | nothing hf hl =>
      rw [hl] at hm
      cases hm
    | mended e' x y hl hef he hsingle =>
      rw [hl, List.mem_singleton] at hm
      obtain rfl := hm
      obtain ⟨c, d, hx, hy, hk, -⟩ := he.copies
      refine Event.Spares.cut ?_ hc
      obtain ⟨fs, f₁, op⟩ := e
      obtain rfl : f₁ = s.flash := hef
      obtain rfl : op = .program x
        { (flashRead s.flash x).header with size := fsSizeInvalid }.toBytes := he.op
      exact ⟨(copies_some_iff.1 hx).1.1, by simp, ha.either hx hy hk he.ne⟩

/-- After any run of calls, boots and power cuts in which no write failed for want of a descriptor,
one key at most has two copies, and a boot calls `flash_write` once at most: for the older one of
the two. -/
theorem recovery_bounded {s : Sys} (hr : Run (Lasting crc (n + 2)) (.off erased) h s) :
    (∃ a, Spare (copies crc s.flash) a) ∧
    ((coldBoot crc s.flash).log = [] ∨ ∃ e a b, (coldBoot crc s.flash).log = [e] ∧
      e.flash = s.flash ∧ e.Mends crc a b) := by
  have hnone : copies crc (Sys.off erased).flash = fun _ => none :=
    funext fun a => copies_eq_none (not_accepted_blank fun _ _ _ => rfl)
  have hI : Held crc s ∧ ∃ a, Spare (copies crc s.flash) a := by
    refine hr.invariant (I := fun _ s => Held crc s ∧ ∃ a, Spare (copies crc s.flash) a)
      ⟨⟨_, recoverable_erased crc⟩, 0, ?_⟩
      fun _ _ _ _ hs hst => ⟨hst.held hs.1, hst.spare hs.1 hs.2⟩
    intro a b c d ha
    rw [hnone] at ha
    cases (update_none_eq_some.1 ha).2
  obtain ⟨hheld, hspare⟩ := hI
  obtain ⟨a, ha⟩ := hspare
  obtain ⟨M, hM⟩ := hheld.recoverable
  refine ⟨⟨a, ha⟩, ?_⟩
  cases (settles_mended hM.represents ha).coldBoot with
  | nothing _ hl => exact Or.inl hl
  | mended e x y hl hef he _ => exact Or.inr ⟨e, x, y, hl, hef, he⟩

/-- Of a key that is written twice, the second write is cut when both copies are on flash. -/
theorem second_cut : ∃ w f, Step (fun _ => 0) (0 + 2) (.on (coldBoot (fun _ => 0) erased))
    (.call (.write 7 0 [1, 2] ⟨true, true⟩) (.wrote 0)) (.on w) ∧
    Step (fun _ => 0) (0 + 2) (.on w) (.cut (.write 7 0 [3] ⟨true, true⟩)) (.off f) ∧
    (coldBoot (fun _ => 0) f).log.length = 1 := by
  have hw : ((Call.write 7 0 [1, 2] ⟨true, true⟩).exec (fun _ => 0) (0 + 2)
      (coldBoot (fun _ => 0) erased).fresh).map (fun r => (r.1,
        (issued (fun _ => 0) (0 + 2) (.on r.2) (.cut (.write 7 0 [3] ⟨true, true⟩))).any
          fun e => (coldBoot (fun _ => 0) e.flash).log.length = 1)) =
      some (.wrote 0, true) := by decide +kernel
  obtain ⟨⟨r, w⟩, he, heq⟩ := Option.map_eq_some_iff.1 hw
  obtain ⟨rfl, hany⟩ := Prod.mk.inj heq
  obtain ⟨e, hm, hone⟩ := List.any_eq_true.1 hany
  exact ⟨w, e.flash, .call _ _ _ _ he, .cut w _ e _ hm .before, of_decide_eq_true hone⟩

theorem recovery_bounded_cut : ∃ f, Run (Step (fun _ => 0) 2) (.off erased)
    [.cut (.write 7 0 [3] ⟨true, true⟩), .call (.write 7 0 [1, 2] ⟨true, true⟩) (.wrote 0), .boot]
      (.off f) ∧
    ∃ e a b, (coldBoot (fun _ => 0) f).log = [e] ∧ e.flash = f ∧ e.Mends (fun _ => 0) a b := by
  obtain ⟨w, f, hw, hf, hone⟩ := second_cut
  have hr := ((Run.refl.step (.boot (.off erased))).step hw).step hf
  have hl : Limits [.cut (.write 7 0 [3] ⟨true, true⟩),
      .call (.write 7 0 [1, 2] ⟨true, true⟩) (.wrote 0), .boot] := by
    have hsame : ∀ p : BitVec 16 × BitVec 8, p ∈ [(7, 0), (7, 0)] → p = (7, 0) := by simp
    exact .same hsame (by decide)
  refine ⟨f, hr, (recovery_bounded (hl.lasting hr)).2.resolve_left fun hlog => ?_⟩
  have hlog : (coldBoot (fun _ => 0) f).log = [] := hlog
  rw [hlog] at hone
  cases hone

end Wormvars
