import Mathlib.Data.List.Nodup
import Mathlib.Data.List.Perm.Subperm
import Wormvars.Cells
import Wormvars.Thread

/-!
# The invariant of the store

`Inv crc fs f` ties the RAM state `fs` to the flash `f`:

* `Shape`: the append pointers fit the flash,
* `Indexed`: the descriptors are exactly the valid cells, one per key,
* `Suspended`, `Buffered`: what a suspended relocation relies on when it is resumed.

`contents fs f` is the map the store holds.  `Recoverable crc M f` says of a
flash alone that a boot will find the map `M` in it; it holds also in the middle
of an update, when a key has two copies.

`Good crc Ms e` is what is proved about each operation `e` that is issued:
whatever of it reaches the flash before a power cut leaves one of the maps `Ms`
recoverable, a program is legal on NOR flash, an erase hits no live data.
-/

namespace Wormvars

open NorFlash NewerLog

/-! ## Index -/

def keys (fs : Fs) : List Key := fs.fd.map fun fd => fd.header.key

/-- The descriptors are the valid cells of the flash. -/
structure Indexed (crc : Block → BitVec 32) (fs : Fs) (f : Mem) : Prop where
  len : fs.fd.length ≤ fdMax
  nodup : (keys fs).Nodup
  cell : ∀ fd ∈ fs.fd, IsCell fd.address
  sector : ∀ fd ∈ fs.fd, InSector fd.sector fd.address
  header : ∀ fd ∈ fs.fd, (flashRead f fd.address).header = fd.header
  accepted : ∀ fd ∈ fs.fd, Accepted crc (flashRead f fd.address)
  complete : ∀ a c, copies crc f a = some c → ∃ fd ∈ fs.fd, fd.address = a

/-- The map the store holds. -/
def contents (fs : Fs) (f : Mem) : Contents := fun k =>
  (fs.fd.find? fun fd => fd.header.key == k).map fun fd => (flashRead f fd.address).data

section index
variable {crc : Block → BitVec 32} {fs : Fs} {f : Mem}

theorem eq_of_key (h : (keys fs).Nodup) {fd fd' : FileDescriptor} (hm : fd ∈ fs.fd)
    (hm' : fd' ∈ fs.fd) (hk : fd.header.key = fd'.header.key) : fd = fd' :=
  List.inj_on_of_nodup_map h hm hm' hk

theorem contents_eq_some_iff (h : (keys fs).Nodup) {k : Key} {d : Payload} :
    contents fs f k = some d ↔
      ∃ fd ∈ fs.fd, fd.header.key = k ∧ (flashRead f fd.address).data = d := by
  unfold contents
  constructor
  · intro hc
    obtain ⟨fd, hfd, hd⟩ := Option.map_eq_some_iff.1 hc
    exact ⟨fd, List.mem_of_find?_eq_some hfd, by simpa using List.find?_some hfd, hd⟩
  · rintro ⟨fd, hm, hk, hd⟩
    cases hf : fs.fd.find? fun fd => fd.header.key == k with
    | none =>
      have := List.find?_eq_none.1 hf fd hm
      simp [hk] at this
    | some fd' =>
      have hk' : fd'.header.key = k := by simpa using List.find?_some hf
      obtain rfl := eq_of_key h (List.mem_of_find?_eq_some hf) hm (hk'.trans hk.symm)
      rw [Option.map_some, hd]

theorem contents_isSome_iff (k : Key) : (contents fs f k).isSome ↔ k ∈ keys fs := by
  unfold contents keys
  rw [Option.isSome_map, List.find?_isSome, List.mem_map]
  simp

theorem Indexed.copy (h : Indexed crc fs f) {fd : FileDescriptor} (hm : fd ∈ fs.fd) :
    copies crc f fd.address = some ⟨fd.header.key, fd.header.newer == fsBlockNewer,
      (flashRead f fd.address).data⟩ := by
  rw [copies_eq_some (h.cell fd hm) (h.accepted fd hm), h.header fd hm]

/-- A valid cell is the cell of the descriptor of its key. -/
theorem Indexed.copy_fd (h : Indexed crc fs f) {a : Nat} {c : Copy Key Payload}
    (hc : copies crc f a = some c) :
    ∃ fd ∈ fs.fd, fd.address = a ∧ fd.header.key = c.key ∧ (flashRead f a).data = c.val := by
  obtain ⟨fd, hm, rfl⟩ := h.complete a c hc
  have := (h.copy hm).symm.trans hc
  cases this
  exact ⟨fd, hm, rfl, rfl, rfl⟩

theorem Indexed.single (h : Indexed crc fs f) : Single (copies crc f) := by
  intro a b c d ha hb hk
  obtain ⟨fd, hm, rfl, hfk, -⟩ := h.copy_fd ha
  obtain ⟨fd', hm', rfl, hfk', -⟩ := h.copy_fd hb
  rw [eq_of_key h.nodup hm hm' (hfk.trans (hk.trans hfk'.symm))]

theorem Indexed.represents (h : Indexed crc fs f) : Represents (copies crc f) (contents fs f) where
  known := by
    intro a c hc
    obtain ⟨fd, hm, -, hk, -⟩ := h.copy_fd hc
    rw [contents_isSome_iff]
    exact List.mem_map.2 ⟨fd, hm, hk⟩
  won := by
    intro k v hk
    obtain ⟨fd, hm, rfl, rfl⟩ := (contents_eq_some_iff h.nodup).1 hk
    exact ⟨fd.address, _, h.single.wins (h.copy hm), rfl, rfl⟩

/-- Two descriptors at one address are one. -/
theorem Indexed.eq_of_address (h : Indexed crc fs f) {fd fd' : FileDescriptor} (hm : fd ∈ fs.fd)
    (hm' : fd' ∈ fs.fd) (ha : fd.address = fd'.address) : fd = fd' := by
  apply eq_of_key h.nodup hm hm'
  rw [← h.header fd hm, ← h.header fd' hm', ha]

end index

/-! ## Relocation -/

/-- The victim is a full sector that is not the current one. -/
structure Victim (fs : Fs) : Prop where
  full : fs.SectorIsFull fs.reloc.sector
  notCurrent : fs.reloc.sector ≠ fs.curr.sector

/-- The first `n` descriptors have left the victim. -/
def Moved (fs : Fs) (n : Nat) : Prop :=
  ∀ j fd, j < n → fs.fd[j]? = some fd → fd.sector ≠ fs.reloc.sector

/-- The descriptor picked by the loop, and where it was when it was picked. -/
structure Picked (fs : Fs) (fd : FileDescriptor) : Prop where
  get : fs.fd[fs.reloc.fdIndex]? = some fd
  key : fd.header.key = fs.reloc.fd.header.key
  inVictim : InSector fs.reloc.sector fs.reloc.fd.address
  stays : fd.address = fs.reloc.fd.address ∨ fd.sector ≠ fs.reloc.sector

/-- What the suspended thread relies on in the descriptor table and the append pointers. -/
def Suspended (fs : Fs) : Prop :=
  match fs.pt with
  | .null | .waitTimer | .yieldStart => True
  | .waitRead | .yieldRead => Victim fs ∧ Moved fs fs.reloc.fdIndex ∧ ∃ fd, Picked fs fd
  | .yieldRetry => Victim fs ∧ Moved fs fs.reloc.fdIndex ∧ (∀ s, fs.SectorIsFull s) ∧
      ∃ fd, Picked fs fd ∧ fd.address = fs.reloc.fd.address
  | .yieldNext => Victim fs ∧ Moved fs (fs.reloc.fdIndex + 1)
  | .waitErase => Victim fs ∧ ∀ fd ∈ fs.fd, fd.sector ≠ fs.reloc.sector

/-- The buffer holds the block of the picked descriptor for as long as that block is the one of
its key. -/
def Buffered (fs : Fs) (f : Mem) : Prop :=
  fs.pt = .yieldRead ∨ fs.pt = .yieldRetry → ∀ fd, fs.fd[fs.reloc.fdIndex]? = some fd →
    fd.address = fs.reloc.fd.address → fs.reloc.buffer.data = (flashRead f fd.address).data

structure Inv (crc : Block → BitVec 32) (fs : Fs) (f : Mem) : Prop where
  shape : Shape fs.curr f
  index : Indexed crc fs f
  thread : Suspended fs
  buffered : Buffered fs f

/-! ## Power cuts -/

/-- Few enough keys for the descriptor table. -/
def Fits (M : Contents) : Prop := ∃ l : List Key, l.length ≤ fdMax ∧ ∀ k, (M k).isSome → k ∈ l

/-- A boot finds `M` in the flash. -/
structure Recoverable (crc : Block → BitVec 32) (M : Contents) (f : Mem) : Prop where
  shape : ∃ curr, Shape curr f
  represents : Represents (copies crc f) M
  fits : Fits M

theorem Indexed.fits {crc : Block → BitVec 32} {fs : Fs} {f : Mem} (h : Indexed crc fs f) :
    Fits (contents fs f) :=
  ⟨keys fs, by unfold keys; rw [List.length_map]; exact h.len,
    fun k hk => (contents_isSome_iff k).1 hk⟩

theorem Inv.recoverable {crc : Block → BitVec 32} {fs : Fs} {f : Mem} (h : Inv crc fs f) :
    Recoverable crc (contents fs f) f :=
  ⟨⟨_, h.shape⟩, h.index.represents, h.index.fits⟩

/-- What an operation leaves on flash when it is done. -/
def Op.apply (f : Mem) : Op → Mem
  | .program a bs => NorFlash.program f a bs
  | .erase a => NorFlash.erase f a filesystemSectorSize
  | .returns _ => f

/-- The flash contents a power cut around `e` can leave.  A block that is cut short is assumed to
fail `checkBlock` unless nothing of it is missing. -/
inductive Cut (crc : Block → BitVec 32) (e : Event) : Mem → Prop
  | before : Cut crc e e.flash
  | after : Cut crc e (e.op.apply e.flash)
  | torn (a : Nat) (bs : List Byte) (k : Nat) : e.op = .program a bs → 0 < k → k < bs.length →
      (bs.length = fsBlockSize → Accepted crc (flashRead (program e.flash a (bs.take k)) a) →
        flashRead (program e.flash a (bs.take k)) a = flashRead (program e.flash a bs) a) →
      Cut crc e (program e.flash a (bs.take k))

/-- A program that write-once flash stores as requested. -/
structure LegalProgram (fs : Fs) (f : Mem) (a : Nat) (bs : List Byte) : Prop where
  cell : ∃ c, IsCell c ∧ c ≤ a ∧ a + bs.length ≤ c + fsBlockSize
  length : bs.length = fsBlockSize ∨ bs.length = 4 ∨ bs.length = 1
  block : bs.length = fsBlockSize →
    IsCell a ∧ InSector fs.curr.sector a ∧ Blank f a fsBlockSize
  header : bs.length ≠ fsBlockSize → IsCell a ∧ Submask f a bs ∧
    (flashRead (program f a bs) a =
      { flashRead f a with header := { (flashRead f a).header with newer := 0 } } ∨
     flashRead (program f a bs) a =
      { flashRead f a with header := { (flashRead f a).header with size := 0 } })

/-- An erase of a sector that holds nothing live. -/
def SafeErase (crc : Block → BitVec 32) (fs : Fs) (f : Mem) (a : Nat) : Prop :=
  ∃ s, a = sectorBase s ∧ s = fs.reloc.sector ∧ s ≠ fs.curr.sector ∧
    (∀ fd ∈ fs.fd, fd.sector ≠ s ∧ ¬ InSector s fd.address) ∧
    ∀ c, IsCell c → InSector s c → ¬ Accepted crc (flashRead f c)

structure Good (crc : Block → BitVec 32) (Ms : Contents → Prop) (e : Event) : Prop where
  cut : ∀ f, Cut crc e f → ∃ M, Ms M ∧ Recoverable crc M f
  legal : ∀ a bs, e.op = .program a bs → LegalProgram e.fs e.flash a bs
  erase : ∀ a, e.op = .erase a → SafeErase crc e.fs e.flash a

theorem Good.mono {crc : Block → BitVec 32} {Ms Ns : Contents → Prop} {e : Event}
    (h : Good crc Ms e) (hs : ∀ M, Ms M → Ns M) : Good crc Ns e where
  cut f hf := by
    obtain ⟨M, hM, hr⟩ := h.cut f hf
    exact ⟨M, hs M hM, hr⟩
  legal := h.legal
  erase := h.erase

/-- A `return` is no danger to a flash that is recoverable. -/
theorem Good.returns {crc : Block → BitVec 32} {Ms : Contents → Prop} {e : Event} {M : Contents} {r : Int}
    (hop : e.op = .returns r) (hM : Ms M) (h : Recoverable crc M e.flash) : Good crc Ms e where
  cut f hf := by
    cases hf with
    | before => exact ⟨M, hM, h⟩
    | after => exact ⟨M, hM, by rw [hop]; exact h⟩
    | torn a bs k hop' => rw [hop] at hop'; cases hop'
  legal a bs h := by rw [hop] at h; cases h
  erase a h := by rw [hop] at h; cases h

/-- The log of `w'` is the one of `w` with events added that satisfy `P`. -/
def Logged (P : Event → Prop) (w w' : World) : Prop :=
  ∃ l, w'.log = l ++ w.log ∧ ∀ e ∈ l, P e

section logged
variable {P Q : Event → Prop} {u v w : World}

theorem Logged.refl (P : Event → Prop) (w : World) : Logged P w w :=
  ⟨[], rfl, fun _ he => by cases he⟩

theorem Logged.of_log (h : v.log = u.log) : Logged P u v := ⟨[], h, fun _ he => by cases he⟩

theorem Logged.trans (h : Logged P u v) (h' : Logged P v w) : Logged P u w := by
  obtain ⟨l, hl, hP⟩ := h
  obtain ⟨l', hl', hP'⟩ := h'
  refine ⟨l' ++ l, by rw [hl', hl, List.append_assoc], fun e he => ?_⟩
  rcases List.mem_append.1 he with he | he
  · exact hP' e he
  · exact hP e he

theorem Logged.mono (h : Logged P u v) (hp : ∀ e, P e → Q e) : Logged Q u v := by
  obtain ⟨l, hl, hP⟩ := h
  exact ⟨l, hl, fun e he => hp e (hP e he)⟩

theorem Logged.cons {e : Event} (hl : v.log = e :: u.log) (he : P e) : Logged P u v :=
  ⟨[e], hl, fun x hx => by rwa [List.mem_singleton.1 hx]⟩

theorem Logged.mem (h : Logged P u v) {e : Event} (he : e ∈ v.log) : e ∈ u.log ∨ P e := by
  obtain ⟨l, hl, hP⟩ := h
  rw [hl, List.mem_append] at he
  exact he.symm.imp_right (hP e)

theorem Logged.subset (h : Logged P u v) {e : Event} (he : e ∈ u.log) : e ∈ v.log := by
  obtain ⟨l, hl, -⟩ := h
  rw [hl]
  exact List.mem_append_right _ he

end logged

/-! ## Header rewrites -/

section rewrite
variable {crc : Block → BitVec 32} {fs : Fs} {f : Mem} {a : Nat}

/-- A request that only clears bits of the stored header. -/
theorem submask_header {h : BlockHeader} (hh : (flashRead f a).header &&& h = h) :
    Submask f a h.toBytes := by
  have hb : (flashRead f a).header.toBytes = [f a, f (a + 1), f (a + 2), f (a + 3)] :=
    BlockHeader.toBytes_ofBytes _ _ _ _
  unfold BlockHeader.toBytes at hb
  simp only [List.cons.injEq, and_true] at hb
  obtain ⟨h₀, h₁, h₂, h₃⟩ := hb
  intro i hi
  obtain rfl | rfl | rfl | rfl : i = 0 ∨ i = 1 ∨ i = 2 ∨ i = 3 := by
    rw [BlockHeader.length_toBytes] at hi; omega
  · calc
      h.flags &&& f a = (flashRead f a).header.flags &&& h.flags := by rw [h₀, BitVec.and_comm]
      _ = ((flashRead f a).header &&& h).flags := (BlockHeader.flags_and _ _).symm
      _ = h.flags := by rw [hh]
  · show h.hash &&& f (a + 1) = h.hash
    rw [← h₁, BitVec.and_comm, ← BlockHeader.and_hash, hh]
  · show h.name.extractLsb' 0 8 &&& f (a + 2) = h.name.extractLsb' 0 8
    rw [← h₂, BitVec.and_comm, ← BitVec.extractLsb'_and, ← BlockHeader.and_name, hh]
  · show h.name.extractLsb' 8 8 &&& f (a + 3) = h.name.extractLsb' 8 8
    rw [← h₃, BitVec.and_comm, ← BitVec.extractLsb'_and, ← BlockHeader.and_name, hh]

/-- The requests the code makes of a stored header `g`, in four bytes or one. -/
structure Rewrite (g : BlockHeader) (h : BlockHeader) (bs : List Byte) : Prop where
  what : h = { g with newer := 0 } ∨ h = { g with size := 0 }
  bytes : bs = h.toBytes ∨ bs = h.toBytes.take 1

namespace Rewrite
variable {g h : BlockHeader} {bs : List Byte}

theorem hash (hr : Rewrite g h bs) : g.hash = h.hash := by
  rcases hr.what with rfl | rfl <;> rfl

theorem name (hr : Rewrite g h bs) : g.name = h.name := by
  rcases hr.what with rfl | rfl <;> rfl

theorem and (hr : Rewrite g h bs) : g &&& h = h := by
  rcases hr.what with rfl | rfl
  · exact and_clear_newer g
  · exact and_clear_size g

theorem length (hr : Rewrite g h bs) : bs.length = 4 ∨ bs.length = 1 := by
  rcases hr.bytes with rfl | rfl
  · exact Or.inl rfl
  · exact Or.inr rfl

/-- Four bytes or one: the flash is the same afterwards. -/
theorem program_eq (hr : Rewrite g h bs) (hg : (flashRead f a).header = g) :
    program f a bs = program f a h.toBytes := by
  rcases hr.bytes with rfl | rfl
  · rfl
  · exact program_header_take (hg ▸ hr.hash) (hg ▸ hr.name) (by omega)

theorem flashRead_program (hr : Rewrite g h bs) (hg : (flashRead f a).header = g) :
    flashRead (program f a bs) a = { flashRead f a with header := h } := by
  rw [hr.program_eq hg, flashRead_program_header, hg, hr.and]

theorem legal (hr : Rewrite g h bs) (hg : (flashRead f a).header = g) (ha : IsCell a) :
    LegalProgram fs f a bs where
  cell := ⟨a, ha, Nat.le_refl _, by
    have := hr.length
    unfold fsBlockSize
    omega⟩
  length := Or.inr hr.length
  block hl := by
    have := hr.length
    unfold fsBlockSize at hl
    omega
  header _ := by
    refine ⟨ha, ?_, ?_⟩
    · have hs := submask_header (f := f) (a := a) (by rw [hg]; exact hr.and)
      rcases hr.bytes with rfl | rfl
      · exact hs
      · exact hs.take 1
    · rw [hr.flashRead_program hg, hg]
      exact hr.what.imp (fun e => by rw [e]) (fun e => by rw [e])

/-- A header rewrite happens or does not: its first byte does all of it. -/
theorem cut (hr : Rewrite g h bs) (hg : (flashRead f a).header = g) {f' : Mem}
    (hc : Cut crc ⟨fs, f, .program a bs⟩ f') : f' = f ∨ f' = program f a bs := by
  cases hc with
  | before => exact Or.inl rfl
  | after => exact Or.inr rfl
  | torn a' bs' k hop hk hlt _ =>
    cases hop
    right
    rcases hr.bytes with rfl | rfl
    · exact program_header_take (hg ▸ hr.hash) (hg ▸ hr.name) hk
    · simp only [List.length_take, BlockHeader.length_toBytes] at hlt
      omega

theorem good {Ms : Contents → Prop} (hr : Rewrite g h bs) (hg : (flashRead f a).header = g)
    (ha : IsCell a) (hb : ∃ M, Ms M ∧ Recoverable crc M f)
    (hp : ∃ M, Ms M ∧ Recoverable crc M (program f a bs)) :
    Good crc Ms ⟨fs, f, .program a bs⟩ where
  cut f' hc := by
    rcases hr.cut hg hc with rfl | rfl
    · exact hb
    · exact hp
  legal a' bs' hop := by
    cases hop
    exact hr.legal hg ha
  erase a' hop := by cases hop

end Rewrite

end rewrite

end Wormvars
