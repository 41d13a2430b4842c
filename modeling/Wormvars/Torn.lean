import Wormvars.Agreement
import Wormvars.Blocks

/-!
# Blocks that are cut short

Of a block that is programmed while power fails the first bytes are on flash, and `0xFF`
after them.  If its header is complete, all depends on whether `checkBlock` accepts what is
there (`torn_block_boots`).  If not, the next boot finds what was stored before.  If it does,
the boot takes it for the whole block, since its flag is set and that of the old copy, if
there is one, has been cleared: the old value is lost, and half of the new one is stored.

The `crc32_calc` that comes with the repository returns 0 for every block, and with it every
such block is accepted.
-/

namespace Wormvars

open NorFlash NewerLog Runs

variable {crc : Block → BitVec 32} {n : Nat} {h : List Label}

/-- `crc32_calc` of `crc32.c`. -/
def crc32Calc : Block → BitVec 32 := fun _ => 0

/-! ## Torn blocks -/

/-- A block of which `k` bytes have been programmed, the header among them. -/
def Block.torn (b : Block) (k : Nat) : Block where
  header := b.header
  data i := if 4 + i.val < k then b.data i else 0xFF

theorem getD_toBytes_torn (b : Block) {k : Nat} (hk : 4 ≤ k) (hk' : k ≤ 32) (i : Nat) :
    (b.torn k).toBytes.getD i 0xFF = (b.toBytes.take k).getD i 0xFF := by
  have hl := b.length_toBytes
  have hl' := (b.torn k).length_toBytes
  have htake : (b.toBytes.take k).length = k := by
    rw [List.length_take]
    omega
  by_cases h4 : i < 4
  · rw [List.getD_eq_getElem _ _ (by omega), List.getD_eq_getElem _ _ (by omega),
      List.getElem_take]
    unfold Block.toBytes
    rw [List.getElem_append_left (by simpa using h4), List.getElem_append_left (by simpa using h4)]
    rfl
  · by_cases h32 : i < 32
    · obtain ⟨j, rfl⟩ : ∃ j : Fin 28, i = 4 + j.val := ⟨⟨i - 4, by omega⟩, by simp only; omega⟩
      rw [List.getD_eq_getElem _ _ (by omega), Block.toBytes_data]
      unfold Block.torn
      simp only
      split
      · rw [List.getD_eq_getElem _ _ (by omega), List.getElem_take, Block.toBytes_data]
      · rw [List.getD_eq_default _ _ (by omega)]
    · rw [List.getD_eq_default _ _ (by omega), List.getD_eq_default _ _ (by omega)]

/-- A program that is cut short does what programming the torn block does. -/
theorem program_torn (f : Mem) (a : Nat) (b : Block) {k : Nat} (hk : 4 ≤ k) (hk' : k ≤ 32) :
    program f a (b.toBytes.take k) = program f a (b.torn k).toBytes := by
  funext x
  unfold program
  rw [getD_toBytes_torn b hk hk']

/-- Without a hash nothing tells a torn block from a whole one. -/
theorem accepted_torn {b : Block} (hb : Accepted crc32Calc b) (k : Nat) :
    Accepted crc32Calc (b.torn k) := by
  rw [checkBlock_accepts_iff] at hb ⊢
  exact hb

/-! ## One block -/

/-- What is stored if only `k` bytes of the block `b` are programmed, where `M` was stored. -/
def tornContents (crc : Block → BitVec 32) (M : Contents) (b : Block) (k : Nat) : Contents :=
  if Accepted crc (b.torn k) then Function.update M b.header.key (some (b.torn k).data) else M

/-- If `e` programs a block, `Q` holds of its key and its data, and this is what a boot finds of
it. -/
def Event.Tears (crc : Block → BitVec 32) (M : Contents) (Q : Key → Payload → Prop) (e : Event) :
    Prop :=
  ∀ a bs, e.op = .program a bs → bs.length = fsBlockSize → ∃ b : Block, bs = b.toBytes ∧
    Accepted crc b ∧ Q b.header.key b.data ∧ ∀ k, 4 ≤ k → k < 32 →
      Recoverable crc (tornContents crc M b k) (program e.flash a (bs.take k))

theorem Event.Tears.mono {M : Contents} {Q Q' : Key → Payload → Prop} {e : Event}
    (h : e.Tears crc M Q) (hq : ∀ k d, Q k d → Q' k d) : e.Tears crc M Q' := by
  intro a bs hop hlen
  obtain ⟨b, hb, hacc, hbq, hk⟩ := h a bs hop hlen
  exact ⟨b, hb, hacc, hq _ _ hbq, hk⟩

theorem tears_of_not_block {M : Contents} {Q : Key → Payload → Prop} {e : Event}
    (h : ¬ e.op.isBlock = true) : e.Tears crc M Q := by
  intro a bs hop hlen
  refine absurd ?_ h
  rw [hop]
  simp [Op.isBlock, hlen]

/-- A block that is not accepted is at the append pointer. -/
theorem recoverable_rejected {curr : Curr} {f : Mem} {M : Contents} (hs : Shape curr f)
    (hM : Represents (copies crc f) M) (hfit : Fits M)
    (hroom : curr.address curr.sector < sectorBase curr.sector + 4096) {b : Block}
    (hno : ¬ Accepted crc b) (hsize : b.header.size = fsSize32) :
    Recoverable crc M (program f (curr.address curr.sector) b.toBytes) := by
  have hblank := hs.next_blank hroom
  have hl := b.length_toBytes
  have hnone : copies crc (program f (curr.address curr.sector) b.toBytes)
      (curr.address curr.sector) = none :=
    copies_eq_none (by rw [flashRead_program_blank hblank]; exact hno)
  refine ⟨⟨_, hs.program_next hroom b.toBytes (by omega) (by omega) (flags_ne_blank hsize)⟩, ?_,
    hfit⟩
  rw [copies_program crc f _ _ (hs.next_isCell hroom) (by omega), hnone,
    ← copies_eq_none (not_accepted_blank hblank), Function.update_eq_self]
  exact hM

section append
variable {w : World} (hi : Inv crc w.fs w.flash)
include hi

/-- The block of a write, of which nothing else has been programmed than the old copy's flag. -/
theorem recoverable_torn (hroom : ¬ w.fs.SectorIsFull w.fs.curr.sector) {b : Block}
    (hsize : b.header.size = fsSize32) (hn : b.header.newer = fsBlockNewer)
    (hslot : HasSlot w.fs b.header.key) :
    Recoverable crc (if Accepted crc b then
        Function.update (contents w.fs w.flash) b.header.key (some b.data)
      else contents w.fs w.flash)
      (program (clearNewer w (findFd w.fs.fd b.header)).flash
        (w.fs.curr.address w.fs.curr.sector) b.toBytes) := by
  have hs := hi.shape
  have hx := hi.index
  have hroom' := not_full_iff.1 hroom
  have hfind := isSlot_findFd w.fs.fd b.header
  have hfit := hx.fits_put hfind ((hfind.lt hx.len).2 hslot) b.data
  rcases hfind with ⟨fd, hg, hk⟩ | ⟨he, hno⟩
  · have hm := List.mem_of_getElem? hg
    obtain ⟨f₁, l₁, hclear, hrw₁, hcop₁, hs₁, -⟩ := clearNewer_spec hs hx hg
    rw [hclear]
    split
    · next hacc =>
      have hd := doubled hs hx hroom' hacc hn hm hk hrw₁ hcop₁ hs₁
      exact ⟨⟨_, hd.shape⟩, hd.represents, hfit⟩
    · next hacc =>
      have hrep : Represents (copies crc f₁) (contents w.fs w.flash) := by
        rw [hcop₁]
        exact hx.represents.age (hx.copy hm) fun a c hc hck =>
          hx.single a _ c _ hc (hx.copy hm) hck
      exact recoverable_rejected hs₁ hrep hx.fits hroom' hacc hsize
  · have hnone : w.fs.fd[findFd w.fs.fd b.header]? = none :=
      List.getElem?_eq_none (Nat.le_of_eq he.symm)
    have hclear : clearNewer w (findFd w.fs.fd b.header) = w := by
      unfold clearNewer
      rw [hnone]
    rw [hclear]
    split
    · next hacc =>
      have hfree : copies crc w.flash (w.fs.curr.address w.fs.curr.sector) = none :=
        copies_eq_none (not_accepted_blank (hs.next_blank hroom'))
      have hcop := copies_program_block (hs.next_isCell hroom') (hs.next_blank hroom') hacc
      have hl := b.length_toBytes
      have hrep := hx.represents.put hfree
        (c := ⟨b.header.key, b.header.newer == fsBlockNewer, b.data⟩) (beq_iff_eq.2 hn)
        fun a c hc hk => by
          obtain ⟨fd, hm, -, hfk, -⟩ := hx.copy_fd hc
          exact absurd (hfk.trans hk) (hno fd hm)
      rw [← hcop] at hrep
      exact ⟨⟨_, hs.program_next hroom' b.toBytes (by omega) (by omega) (flags_ne_blank hsize)⟩,
        hrep, hfit⟩
    · next hacc => exact recoverable_rejected hs hx.represents hx.fits hroom' hacc hsize

theorem appendBlock_tears (buffer : Block) (hroom : ¬ w.fs.SectorIsFull w.fs.curr.sector)
    (hslot : HasSlot w.fs buffer.header.key) :
    Logged (Event.Tears crc (contents w.fs w.flash)
      fun k d => k = buffer.header.key ∧ d = buffer.data) w (appendBlock crc w buffer).2 := by
  obtain ⟨l, hl, -⟩ := (appendBlock_spec hi.shape hi.index (not_full_iff.1 hroom) hslot).logged
  obtain ⟨e, hef, hop, hblocks⟩ := appendBlock_blocks crc w buffer
  have hone : blocks l = [e] := by
    rw [hl] at hblocks
    unfold blocks at hblocks ⊢
    rw [List.filter_append] at hblocks
    exact List.append_cancel_right (hblocks.trans (List.singleton_append).symm)
  refine ⟨l, hl, fun x hx a bs hx' hlen => ?_⟩
  have hmem := mem_blocks hx hx' hlen
  rw [hone, List.mem_singleton] at hmem
  subst hmem
  rw [hx'] at hop
  cases hop
  refine ⟨_, rfl, accepted_updateBlockHash crc buffer fsBlockNewer, ⟨rfl, rfl⟩, fun k hk hk' => ?_⟩
  rw [hef, program_torn _ _ _ hk (Nat.le_of_lt hk')]
  have hslot' : HasSlot w.fs
    ((updateBlockHash crc buffer fsSize32 fsBlockNewer).torn k).header.key := hslot
  exact recoverable_torn hi hroom rfl rfl hslot'

end append

/-! ## Calls -/

section calls
variable {w w' : World}

/-- A block that `fs_thread` copies is one that is stored. -/
theorem Move.tears {k : Nat} (h : Move crc k w w') (hi : Inv crc w.fs w.flash) :
    Logged (Event.Tears crc (contents w.fs w.flash)
      fun k d => contents w.fs w.flash k = some d) w w' := by
  cases h with
  | resume => exact Logged.of_log rfl
  | relocate _ hroom hc =>
    have happ := appendBlock_tears hi (relocBlock w.fs.reloc) hroom hc.hasSlot
    refine (happ.mono fun e he => he.mono ?_).trans (Logged.of_log rfl)
    rintro k d ⟨rfl, rfl⟩
    rw [relocBlock_key, relocBlock_data]
    exact hc.value
  | erase => exact Logged.cons rfl (tears_of_not_block (by simp [Op.isBlock]))
  | retry => exact Logged.cons rfl (tears_of_not_block (by simp [Op.isBlock]))
  | switch => exact Logged.of_log rfl

theorem Moves.tears {k : Nat} (h : Moves crc k w w') (hi : Inv crc w.fs w.flash) :
    Logged (Event.Tears crc (contents w.fs w.flash)
      fun k d => contents w.fs w.flash k = some d) w w' := by
  induction h with
  | refl => exact Logged.refl _ _
  | tail hm h ih =>
    obtain ⟨hiv, hkeep⟩ := hm.spec hi
    have := h.tears hiv
    rw [hkeep.contents] at this
    exact (ih hi).trans this

/-- What a call may program: a stored value, or the one it has been given. -/
def Call.Puts (M : Contents) (c : Call) (k : Key) (d : Payload) : Prop :=
  M k = some d ∨ ∃ name ext data ans, c = .write name ext data ans ∧ k = (name, ext.setWidth 3) ∧
    d = pad data

theorem WriteEnds.tears {name : BitVec 16} {ext : BitVec 8} {data : List Byte} {r : Int × World}
    (h : WriteEnds crc w name ext data r) (hi : Inv crc w.fs w.flash) (ans : Answers) :
    Logged (Event.Tears crc (contents w.fs w.flash)
      (Call.Puts (contents w.fs w.flash) (.write name ext data ans))) w r.2 := by
  have hown : ∀ k d, k = (writeBuffer name ext data).header.key ∧
      d = (writeBuffer name ext data).data → Call.Puts (contents w.fs w.flash)
        (.write name ext data ans) k d := by
    rintro k d ⟨hk, hd⟩
    exact Or.inr ⟨name, ext, data, ans, rfl, hk.trans (writeBuffer_key name ext data),
      hd.trans (writeBuffer_data name ext data)⟩
  cases h with
  | tooLong => exact Logged.cons rfl (tears_of_not_block (by simp [Op.isBlock]))
  | allFull => exact Logged.cons rfl (tears_of_not_block (by simp [Op.isBlock]))
  | room _ hroom hslot =>
    have happ := appendBlock_tears hi (writeBuffer name ext data) hroom hslot
    exact happ.mono fun e he => he.mono hown
  | switched s v _ hfull hs hv hroom hslot =>
    have hi₁ := (hi.setSector hfull hs).1
    obtain ⟨m, -, hmoves⟩ := hv.moves
    obtain ⟨hiv, hkeep⟩ := hmoves.spec hi₁
    have hmv : Logged (Event.Tears crc (contents w.fs w.flash)
        fun k d => contents w.fs w.flash k = some d) (w.setSector s) v := hmoves.tears hi₁
    have hsw : Logged (Event.Tears crc (contents w.fs w.flash)
      (Call.Puts (contents w.fs w.flash) (.write name ext data ans))) w v :=
      (Logged.of_log rfl).trans (hmv.mono fun e he => he.mono fun _ _ => Or.inl)
    have happ := appendBlock_tears hiv (writeBuffer name ext data) hroom hslot
    rw [hkeep.contents] at happ
    exact hsw.trans (happ.mono fun e he => he.mono hown)

theorem Inv.exec_tears (hi : Inv crc w.fs w.flash) {c : Call} {r : Result} (hslot : SlotFor w c)
    (h : c.exec crc (n + 2) w.fresh = some (r, w')) :
    ∀ e ∈ w'.log, e.Tears crc (contents w.fs w.flash) (c.Puts (contents w.fs w.flash)) := by
  have hi : Inv crc w.fresh.fs w.fresh.flash := hi
  have hlog : Logged (Event.Tears crc (contents w.fs w.flash) (c.Puts (contents w.fs w.flash)))
      w.fresh w' := by
    cases c with
    | read name ext len =>
      obtain rfl := congrArg Prod.snd (Option.some.inj h)
      exact Logged.refl _ _
    | thread ans =>
      obtain ⟨k, -, hm⟩ := thread_moves hi h
      exact (hm.tears hi).mono fun e he => he.mono fun _ _ => Or.inl
    | write name ext data ans =>
      obtain ⟨i, -, hends⟩ := write_ends hi hslot h
      exact hends.tears hi ans
  intro e he
  exact (hlog.mem he).resolve_left fun h => by cases h

end calls

/-! ## Boots -/

/-- In any state a run has reached, when power fails in a call while a block is programmed, of which
the header is complete: a boot finds the torn block stored if `checkBlock` accepts it, as it does
with the `crc32_calc` of the repository, and else what was stored before the call.  The block need
not be the one that is written: `fs_thread` may be copying any other. -/
theorem torn_block_boots {w : World} (hr : Run (Lasting crc (n + 2)) (.off erased) h (.on w))
    {c : Call} (hslot : SlotFor w c) {e : Event} (he : e ∈ issued crc (n + 2) (.on w) (.cut c))
    {a : Nat} {bs : List Byte} (hop : e.op = .program a bs) (hlen : bs.length = fsBlockSize) :
    ∃ b : Block, bs = b.toBytes ∧ c.Puts (contents w.fs w.flash) b.header.key b.data ∧
      (∀ k, 4 ≤ k → k < 32 →
        contents (coldBoot crc (program e.flash a (bs.take k))).fs
            (coldBoot crc (program e.flash a (bs.take k))).flash =
          tornContents crc (contents w.fs w.flash) b k) ∧
      (crc = crc32Calc → ∀ k, Accepted crc (b.torn k)) := by
  have hi : Inv crc w.fs w.flash := hr.invariant (I := fun _ s => Held crc s)
    ⟨_, recoverable_erased crc⟩ fun _ _ _ _ hs hst => hst.held hs
  have htears : e.Tears crc (contents w.fs w.flash) (c.Puts (contents w.fs w.flash)) := by
    unfold issued at he
    simp only at he
    split at he
    · next r w' hex => exact hi.exec_tears hslot hex e he
    · cases he
  obtain ⟨b, hb, hacc, hputs, hk⟩ := htears a bs hop hlen
  refine ⟨b, hb, hputs, fun k h4 h32 => ?_, ?_⟩
  · obtain ⟨curr, -, hboot⟩ := (hk k h4 h32).booted
    exact hboot.contents
  · rintro rfl k
    exact accepted_torn hacc k

/-- The block of the first write. -/
theorem torn_block_boots_one : ∃ e a bs, e ∈ issued crc32Calc 2 (.on (coldBoot crc32Calc erased))
    (.cut (.write 7 0 [1, 2] ⟨true, true⟩)) ∧ e.op = .program a bs ∧ ∃ b : Block,
      contents (coldBoot crc32Calc (program e.flash a (bs.take 5))).fs
          (coldBoot crc32Calc (program e.flash a (bs.take 5))).flash =
        tornContents crc32Calc (contents (coldBoot crc32Calc erased).fs
          (coldBoot crc32Calc erased).flash) b 5 := by
  have hany : (issued crc32Calc 2 (.on (coldBoot crc32Calc erased))
      (.cut (.write 7 0 [1, 2] ⟨true, true⟩))).any (fun e => e.op.isBlock) = true := by
    decide +kernel
  obtain ⟨e, he, hblock⟩ := List.any_eq_true.1 hany
  have hfree : (coldBoot crc32Calc erased).fs.fd.length < fdMax := by
    rw [coldBoot_erased_bare]
    decide
  have hboot : Lasting crc32Calc (0 + 2) (.off erased) .boot (.on (coldBoot crc32Calc erased)) :=
    ⟨.boot (.off erased), trivial⟩
  obtain ⟨fs, f, op⟩ := e
  cases op with
  | program a bs =>
    have hlen : bs.length = fsBlockSize := beq_iff_eq.1 hblock
    obtain ⟨b, -, -, hk, -⟩ := torn_block_boots (Run.refl.step hboot)
      (c := .write 7 0 [1, 2] ⟨true, true⟩) (fun _ _ => Or.inr hfree) he rfl hlen
    exact ⟨_, a, bs, he, rfl, b, hk 5 (by omega) (by omega)⟩
  | erase => cases hblock
  | returns => cases hblock

end Wormvars
