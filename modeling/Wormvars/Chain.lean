import Wormvars.Agreement

/-!
# Logs that account for the flash

`Chain f l g`: the operations of the log `l`, one after the other, lead from the flash `f` to
`g`.  What a call logs does so (`Inv.exec_chain`): between the calls of `flash_write` and
`flash_erase` nothing happens to the flash.
-/

namespace Wormvars

open NorFlash

variable {crc : Block → BitVec 32} {n : Nat}

/-! ## Logs -/

/-- The first byte of a program is not `0xFF`. -/
def Op.Inks : Op → Prop
  | .program _ bs => bs.getD 0 0xFF ≠ 0xFF
  | _ => True

/-- The operations of a log, the last one first, lead from one flash to the other. -/
inductive Chain (f : Mem) : List Event → Mem → Prop
  | nil : Chain f [] f
  | cons {l : List Event} {e : Event} : Chain f l e.flash → e.op.Inks →
      Chain f (e :: l) (e.op.apply e.flash)

theorem Chain.append {f g k : Mem} {l l' : List Event} (h : Chain f l g) (h' : Chain g l' k) :
    Chain f (l' ++ l) k := by
  induction h' with
  | nil => exact h
  | cons _ hi ih => exact ih.cons hi

/-- What comes before an operation of the log, and what comes after it. -/
theorem Chain.split {f g : Mem} {p l : List Event} {e : Event} (h : Chain f (p ++ e :: l) g) :
    Chain f l e.flash ∧ e.op.Inks ∧ Chain (e.op.apply e.flash) p g := by
  induction p generalizing g with
  | nil =>
    cases h with
    | cons h hi => exact ⟨h, hi, .nil⟩
  | cons x p ih =>
    cases h with
    | cons h hi =>
      obtain ⟨h₁, h₂, h₃⟩ := ih h
      exact ⟨h₁, h₂, h₃.cons hi⟩

/-- The log accounts for the flash. -/
def Chained (w w' : World) : Prop := ∃ l, w'.log = l ++ w.log ∧ Chain w.flash l w'.flash

namespace Chained
variable {u v w w' : World}

theorem resume (hl : w'.log = w.log) (hf : w'.flash = w.flash) : Chained w w' :=
  ⟨[], hl, hf ▸ .nil⟩

theorem trans (h : Chained u v) (h' : Chained v w) : Chained u w := by
  obtain ⟨l, hl, hc⟩ := h
  obtain ⟨l', hl', hc'⟩ := h'
  exact ⟨l' ++ l, by rw [hl', hl, List.append_assoc], hc.append hc'⟩

theorem cons {e : Event} (hl : w'.log = e :: w.log) (he : e.flash = w.flash) (hi : e.op.Inks)
    (hf : w'.flash = e.op.apply e.flash) : Chained w w' := by
  refine ⟨[e], hl, ?_⟩
  rw [hf]
  exact .cons (he ▸ .nil) hi

theorem returns (w : World) (r : Int) : Chained w (w.returns r).2 :=
  cons rfl rfl trivial rfl

theorem flashWrite (w : World) (a : Nat) {bs : List Byte} (h : bs.getD 0 0xFF ≠ 0xFF) :
    Chained w (w.flashWrite a bs) := cons rfl rfl h rfl

end Chained

/-! ## Calls -/

theorem flags_ne_of_newer {h : BlockHeader} (hn : h.newer = fsBlockCurrent) : h.flags ≠ 0xFF := by
  intro hf
  have := h.flags_newer
  rw [hf, hn] at this
  revert this
  decide

theorem flags_ne_of_invalid {h : BlockHeader} (hs : h.size = fsSizeInvalid) : h.flags ≠ 0xFF := by
  intro hf
  have := h.flags_size
  rw [hf, hs] at this
  revert this
  decide

section append
variable {w : World}

theorem clearNewer_chained (w : World) (i : Nat) : Chained w (clearNewer w i) := by
  unfold clearNewer
  split
  · split
    · exact (Chained.resume rfl rfl).trans (.flashWrite (w.setFd i _) _ (flags_ne_of_newer rfl))
    · exact .resume rfl rfl
  · exact .resume rfl rfl

theorem invalidatePrevious_chained (w : World) (i : Nat) :
    Chained w (invalidatePrevious w i) := by
  unfold invalidatePrevious
  split
  · exact (Chained.resume rfl rfl).trans (.flashWrite (w.setFd i _) _ (flags_ne_of_invalid rfl))
  · exact .resume rfl rfl

theorem appendBlock_chained (crc : Block → BitVec 32) {w : World} {buffer : Block}
    (hlt : findFd w.fs.fd buffer.header < fdMax) : Chained w (appendBlock crc w buffer).2 := by
  have hstage : Chained w (stageBlock crc w buffer) := by
    unfold stageBlock
    refine (clearNewer_chained w _).trans (.trans (.flashWrite _ _ ?_)
      (invalidatePrevious_chained _ _))
    exact flags_ne_blank rfl
  obtain ⟨e, r, hef, hop, hrf, hret, he⟩ := appendBlock_eq crc w buffer hlt
  rw [he]
  refine hstage.trans (.trans
    (v := ⟨(stageBlock crc w buffer).fs, e.op.apply e.flash, e :: (stageBlock crc w buffer).log⟩)
    (.cons rfl hef ?_ rfl) (.cons rfl hrf ?_ ?_))
  · rw [hop]
    exact flags_ne_of_newer rfl
  · rw [hret]
    trivial
  · rw [hret, hrf]
    rfl

end append

section calls
variable {w w' : World}

theorem Move.chained {k : Nat} (h : Move crc k w w') (hi : Inv crc w.fs w.flash) :
    Chained w w' := by
  cases h with
  | resume => exact .resume rfl rfl
  | relocate _ hroom hc =>
    exact (appendBlock_chained crc (hi.findFd_lt hc.hasSlot)).trans (.resume rfl rfl)
  | erase => exact .cons rfl rfl trivial rfl
  | retry => exact (Chained.returns w (-2)).trans (.resume rfl rfl)
  | switch => exact .resume rfl rfl

theorem Moves.chained {k : Nat} (h : Moves crc k w w') (hi : Inv crc w.fs w.flash) :
    Chained w w' := by
  induction h with
  | refl => exact .resume rfl rfl
  | tail hm h ih => exact (ih hi).trans (h.chained (hm.spec hi).1)

theorem WriteEnds.chained {name : BitVec 16} {ext : BitVec 8} {data : List Byte} {r : Int × World}
    (h : WriteEnds crc w name ext data r) (hi : Inv crc w.fs w.flash) : Chained w r.2 := by
  cases h with
  | tooLong => exact .returns w _
  | allFull => exact .returns w _
  | room _ hroom hslot =>
    exact appendBlock_chained crc (hi.findFd_lt (h := (writeBuffer name ext data).header) hslot)
  | switched s v _ hfull hs hv hroom hslot =>
    have hi₁ := (hi.setSector hfull hs).1
    obtain ⟨m, -, hmoves⟩ := hv.moves
    have hiv := (hmoves.spec hi₁).1
    have hsw : Chained w (w.setSector s) := .resume rfl rfl
    exact (hsw.trans (hmoves.chained hi₁)).trans
      (appendBlock_chained crc (hiv.findFd_lt (h := (writeBuffer name ext data).header) hslot))

/-- A call starts with an empty log. -/
theorem Inv.exec_chain (hi : Inv crc w.fs w.flash) {c : Call} {r : Result} (hslot : SlotFor w c)
    (h : c.exec crc (n + 2) w.fresh = some (r, w')) : Chain w.flash w'.log w'.flash := by
  have hi : Inv crc w.fresh.fs w.fresh.flash := hi
  have hc : Chained w.fresh w' := by
    cases c with
    | read name ext len =>
      obtain rfl := congrArg Prod.snd (Option.some.inj h)
      exact .resume rfl rfl
    | thread ans =>
      obtain ⟨k, -, hm⟩ := thread_moves hi h
      exact hm.chained hi
    | write name ext data ans =>
      obtain ⟨i, -, hends⟩ := write_ends hi hslot h
      exact hends.chained hi
  obtain ⟨l, hl, hchain⟩ := hc
  rw [hl, show w.fresh.log = [] from rfl, List.append_nil]
  exact hchain

end calls

end Wormvars
