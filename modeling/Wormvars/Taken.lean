import Wormvars.Turns

/-!
# The calls and the relocation

`fs_thread` copies a block by calling `fs_write`, and `fs_write` calls `fs_thread(1)`
when the current sector is full.  The inner activation finds the label of the outer
one and the block that is to be copied, and copies it; then the outer one does.
A call of `fs_thread(0)` does so in the states that are `Doubling`, and in no other
(`Ran.blocks_le_iff`).

`Taken` is a call that has been made.  `Took` says what it copies and which turns
it leaves behind, `Traced` what becomes of the descriptors.
-/

namespace Wormvars

open NorFlash

variable {crc : Block → BitVec 32} {faulty : Prop} {n : Nat}

/-! ## One call of `fs_thread` -/

/-- The block that is due is handed to `fs_write` with the current sector full and another not. -/
def Doubling (fs : Fs) : Prop :=
  Copying fs ∧ fs.SectorIsFull fs.curr.sector ∧ ∃ s, ¬ fs.SectorIsFull s

/-- How far the append pointers have advanced, those of erased sectors aside. -/
def advance (fs fs' : Fs) : Nat := ∑ s, (fs'.curr.address s - fs.curr.address s)

/-- A copy of the value `d` under the key `k`. -/
def Event.Stores (e : Event) (k : Key) (d : Payload) : Prop :=
  ∃ a b, e.op = .program a (Block.toBytes b) ∧ b.header.key = k ∧ b.data = d

theorem relocate_blocks (crc : Block → BitVec 32) (w : World) :
    ∃ e : Event, e.Stores w.fs.reloc.fd.header.key w.fs.reloc.buffer.data ∧
      blocks (w.relocate crc).log = e :: blocks w.log := by
  obtain ⟨e, -, hop, hlog⟩ := appendBlock_blocks crc w (relocBlock w.fs.reloc)
  exact ⟨e, ⟨_, _, hop, relocBlock_key _, relocBlock_data _⟩, hlog⟩

section thread
variable {w v : World}

theorem advance_zero {fs fs' : Fs} (h : ∀ s, fs'.curr.address s ≤ fs.curr.address s) :
    advance fs fs' = 0 := by
  unfold advance
  apply Finset.sum_eq_zero
  intro s _
  exact Nat.sub_eq_zero_of_le (h s)

theorem Steady.relocate_advance (hs : Steady w.fs) (hc : Copying w.fs) :
    advance w.fs (w.relocate crc).fs = 32 := by
  have hp := hs.relocated crc hc
  have hself : (w.relocate crc).fs.curr.address w.fs.curr.sector =
      w.fs.curr.address w.fs.curr.sector + 32 := hp.address_self
  have hne : ∀ s, s ≠ w.fs.curr.sector →
      (w.relocate crc).fs.curr.address s = w.fs.curr.address s := fun s h => hp.address_ne h
  unfold advance
  rw [Finset.sum_eq_single w.fs.curr.sector]
  · rw [hself]
    omega
  · intro s _ h
    rw [hne s h]
    omega
  · intro h
    exact absurd (Finset.mem_univ _) h

/-- The blocks that a call of `fs_thread(0)` programs, and the cells that it takes. -/
theorem Ran.blocks_le_iff (hs : Steady w.fs) (h : Ran crc faulty w v) :
    (blocks v.log).length ≤ (blocks w.log).length + 1 ∧ advance w.fs v.fs ≤ 32 ↔
      ¬ Doubling w.fs := by
  cases h with
  | idled _ hc _ hidle =>
    rw [hidle.blocks, advance_zero hidle.lower]
    simp [Doubling, hc]
  | stuck q hall _ =>
    have hlog : blocks ((w.returns q).2.setPt .yieldRetry).log = blocks w.log := returns_blocks w q
    have hadv : advance w.fs ((w.returns q).2.setPt .yieldRetry).fs = 0 :=
      advance_zero fun _ => Nat.le_refl _
    rw [hlog, hadv]
    simp [Doubling, hall]
  | copied hc hroom =>
    obtain ⟨e, -, hlog⟩ := relocate_blocks crc w
    rw [hlog, hs.relocate_advance hc]
    simp [Doubling, hroom]
  | doubled s hc hfull hnext =>
    obtain ⟨e, -, hlog⟩ := relocate_blocks crc (w.setSector s)
    obtain ⟨e', -, hlog'⟩ := relocate_blocks crc ((w.setSector s).relocate crc)
    have hcount : (blocks (((w.setSector s).relocate crc).relocate crc).log).length =
        (blocks w.log).length + 2 := by
      rw [hlog', hlog]
      rfl
    have hd : Doubling w.fs := ⟨hc, hfull, s, nextNotFull_some hnext⟩
    rw [hcount]
    simp [hd]

end thread

/-! ## Calls that have been made -/

/-- A call, with the states before and after it. -/
structure Taken where
  before : World
  call : Call
  result : Result
  after : World

/-- The system, on, takes the call `x`. -/
structure TakenStep (crc : Block → BitVec 32) (n : Nat) (w : World) (x : Taken) (w' : World) :
    Prop where
  before : x.before = w
  exec : x.call.exec crc n w.fresh = some (x.result, w')
  after : x.after = w'

/-- The call gets as far as `fs_thread`. -/
def Call.Resumes (fs : Fs) : Call → Prop
  | .write _ _ data _ => data.length ≤ fsBlockSize - 4 ∧ fs.SectorIsFull fs.curr.sector ∧
      ∃ s, ¬ fs.SectorIsFull s
  | .read .. => False
  | .thread _ => True

namespace Taken

def label (x : Taken) : Label := .call x.call x.result

/-- The slot whose turn it is. -/
def slot (x : Taken) : Nat := x.before.fs.reloc.fdIndex

/-- The turn of a block comes, and it has not been written since it was read. -/
def Live (x : Taken) : Prop := Copying x.before.fs ∧ x.call.Resumes x.before.fs

/-- A call of `fs_thread(0)` in a state in which it copies twice. -/
def Doubles (x : Taken) : Prop := (∃ ans, x.call = .thread ans) ∧ Doubling x.before.fs

/-- The blocks that the relocation has programmed: a write that returned 0 programs its own last. -/
def copies (x : Taken) : List Event :=
  match x.result with
  | .wrote r => if r = 0 then (blocks x.after.log).tail else blocks x.after.log
  | _ => blocks x.after.log

/-- A write of the key `k` that returned 0. -/
def Writes (x : Taken) (k : Key) : Prop :=
  ∃ name ext data ans, x.call = .write name ext data ans ∧ k = (name, ext.setWidth 3) ∧
    x.result = .wrote 0

/-- The sector `s` is erased, which resets its append pointer. -/
def Erases (x : Taken) (s : Fin 8) : Prop :=
  x.after.fs.curr.address s < x.before.fs.curr.address s

/-- A copy is left waiting for a free cell. -/
structure Jams (x : Taken) : Prop where
  waits : x.after.fs.pt = .yieldRetry
  keeps : ∀ s, ¬ x.Erases s

end Taken

/-- What a call comes to, as far as the relocation goes. -/
inductive Took (crc : Block → BitVec 32) (x : Taken) : Prop
  | idle : ¬ x.Live → x.copies = [] → (x.before.fs.pt = .yieldRetry → x.Jams) →
      (Relocating x.before.fs → ∀ i, Beyond i x.before.fs → Beyond i x.after.fs) → Took crc x
  | stuck : ¬ x.Doubles → x.copies = [] → x.Jams → Took crc x
  | once (e : Event) : x.Live → ¬ x.Doubles → x.copies = [e] →
      e.Stores x.before.fs.reloc.fd.header.key x.before.fs.reloc.buffer.data →
      (∀ i, i = x.slot ∨ Beyond i x.before.fs → Beyond i x.after.fs) → Took crc x
  | twice : x.Live → x.Doubles → x.copies.length = 2 →
      (∀ i, i = x.slot ∨ Beyond i x.before.fs → Beyond i x.after.fs) → Took crc x

theorem Beyond.congr {i : Nat} {fs fs' : Fs} (hpt : fs'.pt = fs.pt) (hr : fs'.reloc = fs.reloc) :
    Beyond i fs' ↔ Beyond i fs := by
  unfold Beyond
  rw [hpt, hr]

/-- After the copy the turn of the slot is over. -/
theorem Steady.relocate_beyond {w : World} (hs : Steady w.fs) (hc : Copying w.fs) (i : Nat)
    (hi : i = w.fs.reloc.fdIndex ∨ Beyond i w.fs) : Beyond i (w.relocate crc).fs := by
  have hreloc : (w.relocate crc).fs.reloc = w.fs.reloc := (hs.relocated crc hc).reloc
  show i ≤ (w.relocate crc).fs.reloc.fdIndex
  rw [hreloc]
  rcases hi with rfl | hi
  · exact Nat.le_refl _
  · unfold Beyond at hi
    rw [hc.1] at hi
    exact Nat.le_of_lt hi

section took
variable {w w' : World}

/-- No other slot has the key that is copied. -/
theorem Steady.copying_key (hs : Steady w.fs) (hc : Copying w.fs) {i : Nat} {fd : FileDescriptor}
    (hg : w.fs.fd[i]? = some fd) (hi : i ≠ w.fs.reloc.fdIndex) :
    fd.header.key ≠ w.fs.reloc.fd.header.key := by
  obtain ⟨-, -, x, ht⟩ := hs.copying hc
  intro hk
  have hlt : i < (keys w.fs).length := by
    unfold keys
    rw [List.length_map]
    exact (List.getElem?_eq_some_iff.1 hg).1
  refine hi ((List.getElem?_inj hlt hs.tidy.nodup).1 ?_)
  unfold keys
  rw [List.getElem?_map, List.getElem?_map, hg, ht.get]
  simp [hk, ht.key]

theorem thread_took (hs : Steady w.fs) (hstart : w.fs.pt = .yieldStart → Candidate w.fs)
    {ans : Answers} {code : PtCode} (h : fsThread crc ans n false w.fresh = some (code, w')) :
    Took crc ⟨w, .thread ans, .ran code, w'⟩ := by
  have hr : Ran crc True w.fresh w' := fsThread_ran (w := w.fresh) hs hstart h
  cases hr with
  | idled _ hc hpt hidle =>
    exact .idle (fun hl => hc hl.1) hidle.blocks (fun h => absurd h hpt) hidle.beyond
  | stuck q hall hor =>
    exact .stuck (fun hd => hd.2.2.2.elim fun s hs => hs (hall s)) (returns_blocks w.fresh q)
      ⟨rfl, fun s => Nat.lt_irrefl _⟩
  | copied hc hroom =>
    obtain ⟨e, hst, hlog⟩ := relocate_blocks crc w.fresh
    exact .once e ⟨hc, trivial⟩ (fun hd => hroom hd.2.2.1) hlog hst
      (Steady.relocate_beyond (w := w.fresh) hs hc)
  | doubled s hc hfull hnext =>
    have hfree : ¬ w.fresh.fs.SectorIsFull s := nextNotFull_some hnext
    have hturn : Turn crc True w.fresh (w.fresh.setSector s) := .switch _ s hfree
    have hs' : Steady (w.fresh.setSector s).fs := hturn.steady hs
    obtain ⟨e, -, hlog⟩ := relocate_blocks crc (w.fresh.setSector s)
    obtain ⟨e', -, hlog'⟩ := relocate_blocks crc ((w.fresh.setSector s).relocate crc)
    obtain ⟨-, -, hp⟩ := hs'.relocate_twice crc hc hfree
    refine .twice ⟨hc, trivial⟩ ⟨⟨ans, rfl⟩, hc, hfull, s, hfree⟩ ?_ fun i hi => ?_
    · show (blocks (((w.fresh.setSector s).relocate crc).relocate crc).log).length = 2
      rw [hlog', hlog]
      rfl
    · exact (Beyond.congr hp.pt hp.reloc).2 (hs'.relocate_beyond hc i hi)

theorem write_took (hs : Steady w.fs) {name : BitVec 16} {ext : BitVec 8} {data : List Byte}
    {ans : Answers} (hslot : SlotFor w (.write name ext data ans))
    (hch : ∀ fs, (Call.write name ext data ans).chooses w = some fs → Candidate fs) {r : Int}
    (h : fsWrite crc ans n w.fresh name ext data = some (r, w')) :
    Took crc ⟨w, .write name ext data ans, .wrote r, w'⟩ := by
  have hs₀ : Steady w.fresh.fs := hs
  rcases fsWrite_cases True (w := w.fresh) hs hch h with
    ⟨hneg, hr, hwhy⟩ | ⟨v, hv, hlen, hr⟩
  · -- refused
    obtain rfl : w' = (w.fresh.returns r).2 := congrArg Prod.snd hr
    have hcopies : Taken.copies ⟨w, .write name ext data ans, .wrote r, (w.fresh.returns r).2⟩ =
        [] := by
      unfold Taken.copies
      simp only
      rw [if_neg (Int.ne_of_lt hneg)]
      exact returns_blocks w.fresh r
    refine .idle ?_ hcopies (fun hpt => ⟨hpt, fun s => Nat.lt_irrefl _⟩) fun _ _ hi => hi
    rintro ⟨-, hle, -, s, hs⟩
    rcases hwhy with hlt | hall
    · exact absurd hle (Nat.not_le.2 hlt)
    · exact hs (hall s)
  · obtain ⟨ht, hkeys, -⟩ := hv.turns hs₀ (Or.inl trivial)
    have hsv := ht.steady hs₀
    have hslot₀ : HasSlot w.fresh.fs (name, ext.setWidth 3) := hslot hlen hv.exists_room
    have hslotv : HasSlot v.fs (writeBuffer name ext data).header.key := hslot₀.congr hkeys
    obtain ⟨h0, hp⟩ := hsv.tidy.append crc hslotv
    obtain ⟨e, -, -, hlog⟩ := appendBlock_blocks crc v (writeBuffer name ext data)
    obtain rfl : w' = (appendBlock crc v (writeBuffer name ext data)).2 := congrArg Prod.snd hr
    obtain rfl : r = 0 := (congrArg Prod.fst hr).trans h0
    -- the last block is the caller's
    have hcopies : Taken.copies ⟨w, .write name ext data ans, .wrote 0,
        (appendBlock crc v (writeBuffer name ext data)).2⟩ = blocks v.log := by
      unfold Taken.copies
      simp [hlog]
    have hbeyond : ∀ i, Beyond i v.fs →
        Beyond i (appendBlock crc v (writeBuffer name ext data)).2.fs :=
      fun i hi => (Beyond.congr hp.pt hp.reloc).2 hi
    have hretry : w.fs.pt = .yieldRetry → ¬ ∃ s, ¬ w.fs.SectorIsFull s := by
      rintro hpt ⟨s, hfree⟩
      have hu := hs.underway
      unfold Underway at hu
      rw [hpt] at hu
      exact hfree (hu.2.2.2 s)
    cases hv with
    | room hroom =>
      exact .idle (fun hl => hroom hl.2.2.1) hcopies (fun hpt => absurd ⟨_, hroom⟩ (hretry hpt))
        fun _ i hi => hbeyond i hi
    | idled s _ hfull hnext hc hidle =>
      refine .idle (fun hl => hc hl.1) (hcopies.trans hidle.blocks)
        (fun hpt => absurd ⟨s, nextNotFull_some hnext⟩ (hretry hpt)) fun hrel i hi => ?_
      exact hbeyond i (hidle.beyond hrel i hi)
    | copied s hfull hnext hc =>
      have hfree : ¬ w.fresh.fs.SectorIsFull s := nextNotFull_some hnext
      have hturn : Turn crc True w.fresh (w.fresh.setSector s) := .switch _ s hfree
      obtain ⟨e', hst, hlog'⟩ := relocate_blocks crc (w.fresh.setSector s)
      refine .once e' ⟨hc, hlen, hfull, s, hfree⟩ ?_ (hcopies.trans hlog') hst fun i hi => ?_
      · rintro ⟨⟨ans', he⟩, -⟩
        cases he
      · exact hbeyond i ((hturn.steady hs₀).relocate_beyond hc i hi)

/-- A call of a run within the limits. -/
structure Sure (crc : Block → BitVec 32) (n : Nat) (x : Taken) : Prop where
  inv : Inv crc x.before.fs x.before.flash
  slot : SlotFor x.before x.call
  exec : x.call.exec crc n x.before.fresh = some (x.result, x.after)

theorem Sure.took {x : Taken} (h : Sure crc n x) : Took crc x := by
  obtain ⟨w, c, r, w'⟩ := x
  obtain ⟨hi, hslot, he⟩ := h
  cases c with
  | write name ext data ans =>
    obtain ⟨q, hq, he⟩ := Option.map_eq_some_iff.1 he
    obtain ⟨rfl, rfl⟩ := Prod.mk.inj he
    exact write_took hi.steady hslot (fun _ h => hi.chooses h) hq
  | read name ext len =>
    have hread : (Result.read (fsRead w.fresh name ext len), w.fresh) = (r, w') := Option.some.inj he
    obtain ⟨rfl, rfl⟩ := Prod.mk.inj hread
    exact .idle (fun hl => hl.2) rfl (fun hpt => ⟨hpt, fun s => Nat.lt_irrefl _⟩)
      fun _ _ hi => hi
  | thread ans =>
    obtain ⟨q, hq, he⟩ := Option.map_eq_some_iff.1 he
    obtain ⟨rfl, rfl⟩ := Prod.mk.inj he
    exact thread_took hi.steady (fun _ => hi.candidate) hq

/-- What becomes of the descriptors: each stays in its slot, unless its turn comes or its key is
written, and a sector that is erased has none. -/
structure Traced (x : Taken) : Prop where
  slots : ∀ i fd, x.before.fs.fd[i]? = some fd →
    x.after.fs.fd[i]? = some fd ∨ (x.Live ∧ x.slot = i) ∨ x.Writes fd.header.key
  freed : ∀ s, x.Erases s → ∀ fd ∈ x.before.fs.fd, fd.sector ≠ s

theorem thread_traced (hs : Steady w.fs) (hstart : w.fs.pt = .yieldStart → Candidate w.fs)
    {ans : Answers} {code : PtCode} (h : fsThread crc ans n false w.fresh = some (code, w')) :
    Traced ⟨w, .thread ans, .ran code, w'⟩ := by
  have hr : Ran crc True w.fresh w' := fsThread_ran (w := w.fresh) hs hstart h
  cases hr with
  | idled _ hc hpt hidle =>
    refine ⟨fun i fd hg => Or.inl ?_, hidle.freed⟩
    show w'.fs.fd[i]? = some fd
    rw [hidle.fd]
    exact hg
  | stuck q hall hor => exact ⟨fun i fd hg => Or.inl hg, fun s hlt => absurd hlt (Nat.lt_irrefl _)⟩
  | copied hc hroom =>
    have hp := Steady.relocated crc (w := w.fresh) hs hc
    refine ⟨fun i fd hg => ?_, fun s hlt => absurd (hp.address_le s) (Nat.not_le.2 hlt)⟩
    by_cases hi : w.fs.reloc.fdIndex = i
    · exact Or.inr (Or.inl ⟨⟨hc, trivial⟩, hi⟩)
    · exact Or.inl (hp.get_other hg (hs.copying_key hc hg (Ne.symm hi)))
  | doubled s hc hfull hnext =>
    have hfree : ¬ w.fresh.fs.SectorIsFull s := nextNotFull_some hnext
    have hturn : Turn crc True w.fresh (w.fresh.setSector s) := .switch _ s hfree
    have hs' : Steady (w.fresh.setSector s).fs := hturn.steady hs
    have hp := hs'.relocated crc hc
    obtain ⟨-, -, hp'⟩ := hs'.relocate_twice crc hc hfree
    refine ⟨fun i fd hg => ?_, fun t hlt => ?_⟩
    · by_cases hi : w.fs.reloc.fdIndex = i
      · exact Or.inr (Or.inl ⟨⟨hc, trivial⟩, hi⟩)
      · have hk := hs.copying_key hc hg (Ne.symm hi)
        exact Or.inl (hp'.get_other (hp.get_other hg hk) hk)
    · exact absurd ((hp.address_le t).trans (hp'.address_le t)) (Nat.not_le.2 hlt)

theorem Prepared.slots {v : World} (hs : Steady w.fs) (h : Prepared crc faulty w v) {i : Nat}
    {fd : FileDescriptor} (hg : w.fs.fd[i]? = some fd) : v.fs.fd[i]? = some fd ∨
      (Copying w.fs ∧ w.fs.SectorIsFull w.fs.curr.sector ∧ w.fs.reloc.fdIndex = i) := by
  cases h with
  | room => exact Or.inl hg
  | idled s v hfull hnext hc hidle =>
    left
    rw [hidle.fd]
    exact hg
  | copied s hfull hnext hc =>
    have hturn : Turn crc True w (w.setSector s) := .switch w s (nextNotFull_some hnext)
    by_cases hi : w.fs.reloc.fdIndex = i
    · exact Or.inr ⟨hc, hfull, hi⟩
    · exact Or.inl (((hturn.steady hs).relocated crc hc).get_other hg
        (hs.copying_key hc hg (Ne.symm hi)))

theorem Prepared.freed {v : World} (hs : Steady w.fs) (h : Prepared crc faulty w v) {s : Fin 8}
    (hlt : v.fs.curr.address s < w.fs.curr.address s) : ∀ fd ∈ w.fs.fd, fd.sector ≠ s := by
  cases h with
  | room => exact absurd hlt (Nat.lt_irrefl _)
  | idled t v hfull hnext hc hidle => exact hidle.freed s hlt
  | copied t hfull hnext hc =>
    have hturn : Turn crc True w (w.setSector t) := .switch w t (nextNotFull_some hnext)
    exact absurd (((hturn.steady hs).relocated crc hc).address_le s) (Nat.not_le.2 hlt)

theorem write_traced (hs : Steady w.fs) {name : BitVec 16} {ext : BitVec 8} {data : List Byte}
    {ans : Answers} (hslot : SlotFor w (.write name ext data ans))
    (hch : ∀ fs, (Call.write name ext data ans).chooses w = some fs → Candidate fs) {r : Int}
    (h : fsWrite crc ans n w.fresh name ext data = some (r, w')) :
    Traced ⟨w, .write name ext data ans, .wrote r, w'⟩ := by
  have hs₀ : Steady w.fresh.fs := hs
  rcases fsWrite_cases True (w := w.fresh) hs hch h with
    ⟨-, hr, -⟩ | ⟨v, hv, hlen, hr⟩
  · obtain rfl : w' = (w.fresh.returns r).2 := congrArg Prod.snd hr
    exact ⟨fun i fd hg => Or.inl hg, fun s hlt => absurd hlt (Nat.lt_irrefl _)⟩
  · obtain ⟨ht, hkeys, -⟩ := hv.turns hs₀ (Or.inl trivial)
    have hslot₀ : HasSlot w.fresh.fs (name, ext.setWidth 3) := hslot hlen hv.exists_room
    have hslotv : HasSlot v.fs (writeBuffer name ext data).header.key := hslot₀.congr hkeys
    obtain ⟨h0, hp⟩ := (ht.steady hs₀).tidy.append crc hslotv
    obtain rfl : w' = (appendBlock crc v (writeBuffer name ext data)).2 := congrArg Prod.snd hr
    obtain rfl : r = 0 := (congrArg Prod.fst hr).trans h0
    refine ⟨fun i fd hg => ?_, fun s hlt => hv.freed hs₀ (Nat.lt_of_le_of_lt (hp.address_le s) hlt)⟩
    by_cases hk : fd.header.key = (name, ext.setWidth 3)
    · exact Or.inr (Or.inr ⟨name, ext, data, ans, rfl, hk, rfl⟩)
    · rcases hv.slots hs₀ hg with hg | ⟨hc, hfull, hi⟩
      · exact Or.inl (hp.get_other hg hk)
      · exact Or.inr (Or.inl ⟨⟨hc, hlen, hfull, hv.exists_room⟩, hi⟩)

theorem Sure.traced {x : Taken} (h : Sure crc n x) : Traced x := by
  obtain ⟨w, c, r, w'⟩ := x
  obtain ⟨hi, hslot, he⟩ := h
  cases c with
  | write name ext data ans =>
    obtain ⟨q, hq, he⟩ := Option.map_eq_some_iff.1 he
    obtain ⟨rfl, rfl⟩ := Prod.mk.inj he
    exact write_traced hi.steady hslot (fun _ h => hi.chooses h) hq
  | read name ext len =>
    have hread : (Result.read (fsRead w.fresh name ext len), w.fresh) = (r, w') := Option.some.inj he
    obtain ⟨rfl, rfl⟩ := Prod.mk.inj hread
    exact ⟨fun i fd hg => Or.inl hg, fun s hlt => absurd hlt (Nat.lt_irrefl _)⟩
  | thread ans =>
    obtain ⟨q, hq, he⟩ := Option.map_eq_some_iff.1 he
    obtain ⟨rfl, rfl⟩ := Prod.mk.inj he
    exact thread_traced hi.steady (fun _ => hi.candidate) hq

variable {x : Taken}

theorem Took.copies_nil (h : Took crc x) (hl : ¬ x.Live) : x.copies = [] := by
  cases h with
  | idle _ hc => exact hc
  | stuck _ hc => exact hc
  | once e hl' => exact absurd hl' hl
  | twice hl' => exact absurd hl' hl

/-- A turn that is over stays over, and so does the one that the call takes. -/
theorem Took.beyond (h : Took crc x) (hj : ¬ x.Jams) {i : Nat}
    (hi : (x.Live ∧ i = x.slot) ∨ (Relocating x.before.fs ∧ Beyond i x.before.fs)) :
    Beyond i x.after.fs := by
  cases h with
  | idle hl _ _ hb =>
    rcases hi with ⟨hl', -⟩ | ⟨hr, hi⟩
    · exact absurd hl' hl
    · exact hb hr i hi
  | stuck _ _ hj' => exact absurd hj' hj
  | once e _ _ _ _ hb => exact hb i (hi.imp And.right And.right)
  | twice _ _ _ hb => exact hb i (hi.imp And.right And.right)

theorem Taken.Doubles.live (h : x.Doubles) : x.Live := by
  obtain ⟨⟨ans, he⟩, hd⟩ := h
  refine ⟨hd.1, ?_⟩
  rw [he]
  trivial

theorem Taken.Live.not_beyond (h : x.Live) : ¬ Beyond x.slot x.before.fs := by
  unfold Beyond
  rw [h.1.1]
  exact Nat.lt_irrefl _

end took

end Wormvars
