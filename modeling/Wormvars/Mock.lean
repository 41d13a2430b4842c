import Mathlib.Data.List.Nodup
import Mathlib.Data.List.Perm.Subperm
import Mathlib.Logic.Function.Basic
import Wormvars.NorFlash

/-!
# The flash mock of the tests

`FlashMock` keeps, for each sector, a list of chunks: the bytes written at one
start address.  A second write at that address ANDs the bytes that are there and
appends the rest.

On reads and writes of at most 32 bytes that start at a multiple of 32, the mock
is the byte array of `NorFlash` (`mock_refines_array`): `Mirrors m f` says that
the chunks of `m` hold what the array `f` holds, each step keeps it.  A sector has
128 such start addresses, so the limit of 256 chunks is never met.
-/

namespace Wormvars

open NorFlash

def flashmockNumSectors : Nat := 8
def flashmockFirstSectorAddress : BitVec 32 := 0x0F4000
def flashmockSectorSize : BitVec 32 := 0x1000
def flashmockChunkMax : Nat := 256
def flashmockBufferChunkMax : Nat := 256

/-! ## The mock -/

/-- `struct flash_chunk`. -/
structure FlashChunk where
  address : BitVec 32
  buffer : List Byte

structure FlashMock where
  readCount : Nat
  writeCount : Nat
  eraseCount : Nat
  flash : Fin 8 → List FlashChunk

namespace FlashMock

def new : FlashMock := ⟨0, 0, 0, fun _ => []⟩

/-- `address_to_sector`; the subtraction wraps. -/
def addressToSector (address : BitVec 32) : Option (Fin 8) :=
  let lSector := ((address - flashmockFirstSectorAddress) / flashmockSectorSize).toNat
  if h : lSector < flashmockNumSectors then some ⟨lSector, h⟩ else none

/-- The loop of `write` over the bytes of a chunk: AND what is there, append the rest. -/
def mergeBuffer : List Byte → List Byte → List Byte
  | buffer, [] => buffer
  | [], byte :: bytes => byte :: mergeBuffer [] bytes
  | old :: buffer, byte :: bytes => (old &&& byte) :: mergeBuffer buffer bytes

/-- The first chunk at `address` takes the bytes, or else a new one at the end. -/
def writeChunk (address : BitVec 32) (bytes : List Byte) : List FlashChunk → List FlashChunk
  | [] => [⟨address, mergeBuffer [] bytes⟩]
  | chunk :: chunks =>
    if chunk.address = address then
      { chunk with buffer := mergeBuffer chunk.buffer bytes } :: chunks
    else chunk :: writeChunk address bytes chunks

/-- `none`: the buffer of the caller is left as it was. -/
def read (m : FlashMock) (address : BitVec 32) (size : Nat) : Option (List Byte) × FlashMock :=
  match addressToSector address with
  | none => (none, m)
  | some sector =>
    let m := { m with readCount := m.readCount + 1 }
    match (m.flash sector).find? fun chunk => chunk.address == address with
    | some chunk => (some ((List.range size).map fun i => chunk.buffer.getD i 0xFF), m)
    | none => (some (List.replicate size 0xFF), m)

def write (m : FlashMock) (address : BitVec 32) (bytes : List Byte) : FlashMock :=
  if bytes.length > flashmockBufferChunkMax then m
  else
    match addressToSector address with
    | none => m
    | some sector =>
      if (m.flash sector).length > flashmockChunkMax then m
      else
        { m with
          writeCount := m.writeCount + 1
          flash := Function.update m.flash sector (writeChunk address bytes (m.flash sector)) }

def erase (m : FlashMock) (sectorAddress : BitVec 32) : FlashMock :=
  match addressToSector sectorAddress with
  | none => m
  | some sector =>
    { m with
      flash := Function.update m.flash sector []
      eraseCount := m.eraseCount + 1 }

end FlashMock

/-! ## Sequences of calls -/

/-- A call of the interface of the mock. -/
inductive MockCall where
  | read (address : BitVec 32) (size : Nat)
  | write (address : BitVec 32) (bytes : List Byte)
  | erase (sectorAddress : BitVec 32)

namespace MockCall

def address : MockCall → BitVec 32
  | read address _ => address
  | write address _ => address
  | erase sectorAddress => sectorAddress

/-- How the file system accesses its flash. -/
def Aligned : MockCall → Prop
  | read address size => address.toNat % 32 = 0 ∧ size ≤ 32
  | write address bytes => address.toNat % 32 = 0 ∧ bytes.length ≤ 32
  | erase _ => True

/-- What a call of the mock reads, and the mock after it. -/
def exec (m : FlashMock) : MockCall → Option (List Byte) × FlashMock
  | read address size => m.read address size
  | write address bytes => (none, m.write address bytes)
  | erase sectorAddress => (none, m.erase sectorAddress)

end MockCall

/-- The reads of a sequence of calls, in order, and the mock after it. -/
def mockRun : FlashMock → List MockCall → List (Option (List Byte)) × FlashMock
  | m, [] => ([], m)
  | m, c :: cs =>
    let (r, m) := c.exec m
    let (rs, m) := mockRun m cs
    (r :: rs, m)

/-- The address is in one of the eight sectors. -/
def InFlash (address : BitVec 32) : Prop := 0xF4000 ≤ address.toNat ∧ address.toNat < 0xFC000

instance (address : BitVec 32) : Decidable (InFlash address) :=
  inferInstanceAs (Decidable (_ ∧ _))

/-- A call on a plain byte array. -/
def arrayExec (f : Mem) : MockCall → Option (List Byte) × Mem
  | .read address size =>
    if InFlash address then (some ((List.range size).map fun i => f (address.toNat + i)), f)
    else (none, f)
  | .write address bytes =>
    if InFlash address then (none, program f address.toNat bytes) else (none, f)
  | .erase sectorAddress =>
    if InFlash sectorAddress then
      (none, NorFlash.erase f (sectorAddress.toNat / 4096 * 4096) 4096)
    else (none, f)

theorem arrayExec_read (f : Mem) (a : BitVec 32) (size : Nat) : arrayExec f (.read a size) =
    if InFlash a then (some ((List.range size).map fun i => f (a.toNat + i)), f)
    else (none, f) := rfl

theorem arrayExec_write (f : Mem) (a : BitVec 32) (bytes : List Byte) :
    arrayExec f (.write a bytes) =
      if InFlash a then (none, program f a.toNat bytes) else (none, f) := rfl

theorem arrayExec_erase (f : Mem) (a : BitVec 32) : arrayExec f (.erase a) =
    if InFlash a then (none, NorFlash.erase f (a.toNat / 4096 * 4096) 4096) else (none, f) := rfl

def arrayRun : Mem → List MockCall → List (Option (List Byte)) × Mem
  | f, [] => ([], f)
  | f, c :: cs =>
    let (r, f) := arrayExec f c
    let (rs, f) := arrayRun f cs
    (r :: rs, f)

/-! ## Sectors of addresses -/

open FlashMock

theorem addressToSector_eq_some {a : BitVec 32} {s : Fin 8} : addressToSector a = some s ↔
    0xF4000 + 4096 * s.val ≤ a.toNat ∧ a.toNat < 0xF4000 + 4096 * s.val + 4096 := by
  have hq : ((a - flashmockFirstSectorAddress) / flashmockSectorSize).toNat =
      ((2 ^ 32 - 0xF4000 + a.toNat) % 2 ^ 32) / 4096 := by
    rw [BitVec.toNat_udiv, BitVec.toNat_sub]
    rfl
  have ha := a.isLt
  unfold addressToSector
  simp only [hq]
  unfold flashmockNumSectors
  split
  · next hlt =>
    rw [Option.some.injEq, Fin.ext_iff]
    simp only
    omega
  · next hge =>
    simp only [reduceCtorEq, false_iff]
    omega

theorem inFlash_iff {a : BitVec 32} : InFlash a ↔ ∃ s, addressToSector a = some s := by
  unfold InFlash
  simp only [addressToSector_eq_some]
  constructor
  · intro h
    exact ⟨⟨(a.toNat - 0xF4000) / 4096, by omega⟩, by simp only; omega, by simp only; omega⟩
  · rintro ⟨s, h₁, h₂⟩
    omega

theorem addressToSector_eq_none {a : BitVec 32} (h : ¬ InFlash a) : addressToSector a = none := by
  cases hs : addressToSector a with
  | none => rfl
  | some s => exact absurd (inFlash_iff.2 ⟨s, hs⟩) h

/-! ## Chunks -/

/-- The bytes stored at `address`. -/
def stored (chunks : List FlashChunk) (address : BitVec 32) : List Byte :=
  match chunks.find? fun chunk => chunk.address == address with
  | some chunk => chunk.buffer
  | none => []

theorem getD_mergeBuffer (bytes : List Byte) : ∀ (buffer : List Byte) (i : Nat),
    (mergeBuffer buffer bytes).getD i 0xFF = buffer.getD i 0xFF &&& bytes.getD i 0xFF := by
  induction bytes with
  | nil =>
    intro buffer i
    rw [List.getD_nil, and_ones]
    cases buffer <;> rfl
  | cons byte bytes ih =>
    intro buffer i
    cases buffer with
    | nil =>
      rw [List.getD_nil, ones_and]
      cases i with
      | zero => rfl
      | succ i =>
        have := ih [] i
        rw [List.getD_nil, ones_and] at this
        exact this
    | cons old buffer =>
      cases i with
      | zero => rfl
      | succ i => exact ih buffer i

theorem stored_writeChunk (a : BitVec 32) (bytes : List Byte) (b : BitVec 32)
    (chunks : List FlashChunk) : stored (writeChunk a bytes chunks) b =
      if b = a then mergeBuffer (stored chunks a) bytes else stored chunks b := by
  induction chunks with
  | nil =>
    by_cases hb : b = a
    · subst hb
      simp [stored, writeChunk]
    · simp [stored, writeChunk, hb, Ne.symm hb]
  | cons chunk chunks ih =>
    unfold stored at ih
    unfold writeChunk
    by_cases hc : chunk.address = a
    · rw [if_pos hc]
      by_cases hb : b = a
      · subst hb
        simp [stored, hc]
      · have hne : ¬ a = b := Ne.symm hb
        simp [stored, hc, hb, hne]
    · rw [if_neg hc]
      by_cases hcb : chunk.address = b
      · have hb : ¬ b = a := fun h => hc (hcb.trans h)
        simp [stored, hcb, hb]
      · simp only [stored, List.find?_cons_of_neg (p := fun c : FlashChunk => c.address == b)
          (a := chunk) (by simpa using hcb),
          List.find?_cons_of_neg (p := fun c : FlashChunk => c.address == a) (a := chunk)
          (by simpa using hc)]
        exact ih

theorem map_address_writeChunk (a : BitVec 32) (bytes : List Byte) (chunks : List FlashChunk) :
    (writeChunk a bytes chunks).map FlashChunk.address =
      if a ∈ chunks.map FlashChunk.address then chunks.map FlashChunk.address
      else chunks.map FlashChunk.address ++ [a] := by
  induction chunks with
  | nil => rfl
  | cons chunk chunks ih =>
    unfold writeChunk
    by_cases hc : chunk.address = a
    · rw [if_pos hc, if_pos (by simp [hc])]
      rfl
    · rw [if_neg hc, List.map_cons, ih, List.map_cons]
      have hne : ¬ a = chunk.address := Ne.symm hc
      by_cases hm : a ∈ chunks.map FlashChunk.address
      · rw [if_pos hm, if_pos (List.mem_cons_of_mem _ hm)]
      · rw [if_neg hm, if_neg (by simpa [hne] using hm)]
        rfl

/-! ## Simulation -/

/-- The chunks of `m` hold what the array `f` holds. -/
structure Mirrors (m : FlashMock) (f : Mem) : Prop where
  nodup : ∀ s, ((m.flash s).map FlashChunk.address).Nodup
  start : ∀ s, ∀ a ∈ (m.flash s).map FlashChunk.address,
    addressToSector a = some s ∧ a.toNat % 32 = 0
  bytes : ∀ a s, addressToSector a = some s → a.toNat % 32 = 0 → ∀ i, i < 32 →
    f (a.toNat + i) = (stored (m.flash s) a).getD i 0xFF

theorem mirrors_new : Mirrors .new fun _ => 0xFF where
  nodup _ := List.nodup_nil
  start _ _ ha := by cases ha
  bytes _ _ _ _ _ _ := rfl

namespace Mirrors
variable {m : FlashMock} {f : Mem}

/-- A sector has 128 start addresses. -/
theorem length_le (h : Mirrors m f) (s : Fin 8) : (m.flash s).length ≤ 128 := by
  have hsub : (m.flash s).map FlashChunk.address ⊆
      (List.range 128).map fun i => BitVec.ofNat 32 (0xF4000 + 4096 * s.val + 32 * i) := by
    intro a ha
    obtain ⟨hs, hal⟩ := h.start s a ha
    obtain ⟨h₁, h₂⟩ := addressToSector_eq_some.1 hs
    refine List.mem_map.2 ⟨(a.toNat - (0xF4000 + 4096 * s.val)) / 32,
      List.mem_range.2 (by omega), ?_⟩
    apply BitVec.eq_of_toNat_eq
    rw [BitVec.toNat_ofNat]
    omega
  have := ((h.nodup s).subperm hsub).length_le
  rwa [List.length_map, List.length_map, List.length_range] at this

/-- A read gives the stored bytes, and `0xFF` behind them. -/
theorem read_eq (m : FlashMock) {a : BitVec 32} {s : Fin 8} (hs : addressToSector a = some s)
    (size : Nat) : (m.read a size).1 =
      some ((List.range size).map fun i => (stored (m.flash s) a).getD i 0xFF) := by
  unfold FlashMock.read stored
  simp only [hs]
  cases (m.flash s).find? fun chunk => chunk.address == a with
  | some chunk => rfl
  | none => simp [List.map_const']

theorem read (h : Mirrors m f) {a : BitVec 32} {size : Nat} (hal : a.toNat % 32 = 0)
    (hsize : size ≤ 32) : (m.read a size).1 = (arrayExec f (.read a size)).1 := by
  rw [arrayExec_read]
  by_cases hin : InFlash a
  · obtain ⟨s, hs⟩ := inFlash_iff.1 hin
    rw [if_pos hin, read_eq m hs]
    simp only [Option.some.injEq]
    apply List.map_congr_left
    intro i hi
    rw [List.mem_range] at hi
    exact (h.bytes a s hs hal i (by omega)).symm
  · rw [if_neg hin]
    unfold FlashMock.read
    simp only [addressToSector_eq_none hin]

theorem read_flash (m : FlashMock) (a : BitVec 32) (size : Nat) :
    (m.read a size).2.flash = m.flash := by
  unfold FlashMock.read
  split
  · rfl
  · simp only
    split <;> rfl

/-- A write in range is carried out. -/
theorem write_eq (h : Mirrors m f) {a : BitVec 32} {s : Fin 8} (hs : addressToSector a = some s)
    {bytes : List Byte} (hlen : bytes.length ≤ 32) : m.write a bytes =
      { m with
        writeCount := m.writeCount + 1
        flash := Function.update m.flash s (writeChunk a bytes (m.flash s)) } := by
  have hl := h.length_le s
  unfold FlashMock.write
  rw [if_neg (by unfold flashmockBufferChunkMax; omega)]
  simp only [hs]
  rw [if_neg (by unfold flashmockChunkMax; omega)]

theorem write (h : Mirrors m f) {a : BitVec 32} {s : Fin 8} (hs : addressToSector a = some s)
    (hal : a.toNat % 32 = 0) {bytes : List Byte} (hlen : bytes.length ≤ 32) :
    Mirrors (m.write a bytes) (program f a.toNat bytes) := by
  rw [h.write_eq hs hlen]
  constructor
  · intro t
    by_cases ht : t = s
    · subst ht
      simp only [Function.update_self, map_address_writeChunk]
      split
      · exact h.nodup t
      · next hno =>
        refine List.nodup_append.2 ⟨h.nodup t, List.nodup_singleton a, ?_⟩
        intro x hx y hy
        rw [List.mem_singleton.1 hy]
        rintro rfl
        exact hno hx
    · simp only [Function.update_of_ne ht]
      exact h.nodup t
  · intro t x hx
    by_cases ht : t = s
    · subst ht
      simp only [Function.update_self, map_address_writeChunk] at hx
      split at hx
      · exact h.start t x hx
      · rcases List.mem_append.1 hx with hx | hx
        · exact h.start t x hx
        · rw [List.mem_singleton.1 hx]
          exact ⟨hs, hal⟩
    · simp only [Function.update_of_ne ht] at hx
      exact h.start t x hx
  · intro b t hb hbal i hi
    by_cases hab : b = a
    · subst hab
      obtain rfl : s = t := Option.some.inj (hs.symm.trans hb)
      simp only [Function.update_self, stored_writeChunk, if_pos, getD_mergeBuffer]
      rw [← h.bytes b s hb hbal i hi]
      unfold program
      rw [if_pos (by omega), Nat.add_sub_cancel_left]
    · -- another start address: 32 bytes away at least
      have hne : b.toNat ≠ a.toNat := fun he => hab (BitVec.eq_of_toNat_eq he)
      have hout : program f a.toNat bytes (b.toNat + i) = f (b.toNat + i) :=
        program_outside _ _ _ _ (by omega)
      rw [hout, h.bytes b t hb hbal i hi]
      by_cases ht : t = s
      · subst ht
        simp only [Function.update_self, stored_writeChunk, if_neg hab]
      · simp only [Function.update_of_ne ht]

theorem erase (h : Mirrors m f) {a : BitVec 32} {s : Fin 8} (hs : addressToSector a = some s) :
    Mirrors (m.erase a) (NorFlash.erase f (a.toNat / 4096 * 4096) 4096) := by
  have he : m.erase a = { m with
      flash := Function.update m.flash s []
      eraseCount := m.eraseCount + 1 } := by
    unfold FlashMock.erase
    simp only [hs]
  obtain ⟨h₁, h₂⟩ := addressToSector_eq_some.1 hs
  rw [he]
  constructor
  · intro t
    by_cases ht : t = s
    · subst ht
      simp
    · simp only [Function.update_of_ne ht]
      exact h.nodup t
  · intro t x hx
    by_cases ht : t = s
    · subst ht
      simp at hx
    · simp only [Function.update_of_ne ht] at hx
      exact h.start t x hx
  · intro b t hb hbal i hi
    obtain ⟨h₃, h₄⟩ := addressToSector_eq_some.1 hb
    by_cases ht : t = s
    · subst ht
      simp only [Function.update_self]
      exact erase_inside _ _ _ _ (by omega) (by omega)
    · have hv : t.val ≠ s.val := fun hv => ht (Fin.ext hv)
      simp only [Function.update_of_ne ht]
      rw [erase_outside _ _ _ _ (by omega)]
      exact h.bytes b t hb hbal i hi

theorem of_flash {m' : FlashMock} (h : Mirrors m f) (he : m'.flash = m.flash) : Mirrors m' f := by
  obtain ⟨h₁, h₂, h₃⟩ := h
  constructor
  · rwa [he]
  · rwa [he]
  · rwa [he]

/-- One call. -/
theorem step (h : Mirrors m f) {c : MockCall} (hc : c.Aligned) :
    (c.exec m).1 = (arrayExec f c).1 ∧ Mirrors (c.exec m).2 (arrayExec f c).2 := by
  cases c with
  | read a size =>
    refine ⟨h.read hc.1 hc.2, ?_⟩
    have hf : (arrayExec f (.read a size)).2 = f := by
      rw [arrayExec_read]
      split <;> rfl
    rw [hf]
    exact h.of_flash (read_flash m a size)
  | write a bytes =>
    rw [arrayExec_write]
    unfold MockCall.exec
    by_cases hin : InFlash a
    · obtain ⟨s, hs⟩ := inFlash_iff.1 hin
      rw [if_pos hin]
      exact ⟨rfl, h.write hs hc.1 hc.2⟩
    · rw [if_neg hin]
      refine ⟨rfl, h.of_flash ?_⟩
      unfold FlashMock.write
      simp only [addressToSector_eq_none hin]
      split <;> rfl
  | erase a =>
    rw [arrayExec_erase]
    unfold MockCall.exec
    by_cases hin : InFlash a
    · obtain ⟨s, hs⟩ := inFlash_iff.1 hin
      rw [if_pos hin]
      exact ⟨rfl, h.erase hs⟩
    · rw [if_neg hin]
      refine ⟨rfl, h.of_flash ?_⟩
      unfold FlashMock.erase
      simp only [addressToSector_eq_none hin]

/-- A sequence of calls. -/
theorem run (cs : List MockCall) (hcs : ∀ c ∈ cs, c.Aligned) : ∀ (m : FlashMock) (f : Mem),
    Mirrors m f → (mockRun m cs).1 = (arrayRun f cs).1 ∧
      Mirrors (mockRun m cs).2 (arrayRun f cs).2 := by
  induction cs with
  | nil =>
    intro m f h
    exact ⟨rfl, h⟩
  | cons c cs ih =>
    intro m f h
    obtain ⟨hr, hm⟩ := h.step (hcs c List.mem_cons_self)
    obtain ⟨hrs, hms⟩ := ih (fun d hd => hcs d (List.mem_cons_of_mem _ hd)) _ _ hm
    exact ⟨congrArg₂ List.cons hr hrs, hms⟩

end Mirrors

/-! ## The mock is a NOR flash -/

/-- A call that writes to one of the eight sectors. -/
def MockCall.WritesFlash : MockCall → Prop
  | .write address _ => InFlash address
  | _ => False

instance : DecidablePred MockCall.WritesFlash := fun c => by
  cases c with
  | read a size => exact isFalse id
  | write a bytes => exact inferInstanceAs (Decidable (InFlash a))
  | erase a => exact isFalse id

theorem Mirrors.step_writeCount {m : FlashMock} {f : Mem} (h : Mirrors m f) {c : MockCall}
    (hc : c.Aligned) :
    (c.exec m).2.writeCount = m.writeCount + if c.WritesFlash then 1 else 0 := by
  cases c with
  | read a size =>
    show (m.read a size).2.writeCount = m.writeCount
    unfold FlashMock.read
    split
    · rfl
    · simp only
      split <;> rfl
  | write a bytes =>
    show (m.write a bytes).writeCount = _
    by_cases hin : InFlash a
    · obtain ⟨s, hs⟩ := inFlash_iff.1 hin
      have hyes : (MockCall.write a bytes).WritesFlash ↔ True := iff_of_true hin trivial
      rw [h.write_eq hs hc.2]
      simp only [hyes, if_true]
    · have hno : (MockCall.write a bytes).WritesFlash ↔ False := iff_of_false hin id
      simp only [hno, if_false, Nat.add_zero]
      unfold FlashMock.write
      simp only [addressToSector_eq_none hin]
      split <;> rfl
  | erase a =>
    show (m.erase a).writeCount = m.writeCount
    unfold FlashMock.erase
    split <;> rfl

theorem Mirrors.run_writeCount (cs : List MockCall) (hcs : ∀ c ∈ cs, c.Aligned) :
    ∀ (m : FlashMock) (f : Mem), Mirrors m f →
      (mockRun m cs).2.writeCount = m.writeCount + cs.countP fun c => c.WritesFlash := by
  induction cs with
  | nil =>
    intro m f _
    rfl
  | cons c cs ih =>
    intro m f h
    have hc := hcs c List.mem_cons_self
    have hrest := ih (fun d hd => hcs d (List.mem_cons_of_mem _ hd)) _ _ (h.step hc).2
    have hone := h.step_writeCount hc
    show (mockRun (c.exec m).2 cs).2.writeCount = _
    rw [hrest, hone, List.countP_cons]
    simp only [decide_eq_true_eq]
    omega

/-- A call does nothing to what is read from another sector. -/
theorem read_exec_of_ne (m : FlashMock) (c : MockCall) {a : BitVec 32} (size : Nat)
    (hne : addressToSector c.address ≠ addressToSector a) :
    ((c.exec m).2.read a size).1 = (m.read a size).1 := by
  cases ha : addressToSector a with
  | none =>
    unfold FlashMock.read
    simp only [ha]
  | some s =>
    have hsame : (c.exec m).2.flash s = m.flash s := by
      cases c with
      | read b n => exact congrFun (Mirrors.read_flash m b n) s
      | write b bytes =>
        have hb : addressToSector b ≠ addressToSector a := hne
        show (m.write b bytes).flash s = _
        unfold FlashMock.write
        split
        · rfl
        · split
          · rfl
          · next t ht =>
            rw [ht, ha] at hb
            split
            · rfl
            · exact Function.update_of_ne (fun he => hb (congrArg some he.symm)) _ _
      | erase b =>
        have hb : addressToSector b ≠ addressToSector a := hne
        show (m.erase b).flash s = _
        unfold FlashMock.erase
        split
        · rfl
        · next t ht =>
          rw [ht, ha] at hb
          exact Function.update_of_ne (fun he => hb (congrArg some he.symm)) _ _
    rw [Mirrors.read_eq _ ha, Mirrors.read_eq _ ha, hsame]

/-- On the accesses of the file system the mock reads as a NOR flash does that was delivered
erased.  No write is dropped, and what is done in one sector is not seen in another. -/
theorem mock_refines_array (cs : List MockCall) (hcs : ∀ c ∈ cs, c.Aligned) :
    (mockRun .new cs).1 = (arrayRun (fun _ => 0xFF) cs).1 ∧
    (mockRun .new cs).2.writeCount = cs.countP (fun c => c.WritesFlash) ∧
    (∀ s, ((mockRun .new cs).2.flash s).length ≤ flashmockChunkMax) ∧
    ∀ (c : MockCall) (a : BitVec 32) (size : Nat),
      addressToSector c.address ≠ addressToSector a →
        ((c.exec (mockRun .new cs).2).2.read a size).1 = ((mockRun .new cs).2.read a size).1 := by
  obtain ⟨hr, hm⟩ := Mirrors.run cs hcs _ _ mirrors_new
  refine ⟨hr, ?_, fun s => Nat.le_trans (hm.length_le s) (by decide), ?_⟩
  · rw [Mirrors.run_writeCount cs hcs _ _ mirrors_new]
    exact Nat.zero_add _
  · intro c a size hne
    exact read_exec_of_ne _ c size hne

theorem mock_refines_array_three :
    (mockRun .new [.write 0xF5020 [0xF0, 0x0F], .write 0xF5020 [0x55, 0xAA, 0xBB],
      .read 0xF5020 4]).1 = (arrayRun (fun _ => 0xFF) [.write 0xF5020 [0xF0, 0x0F],
      .write 0xF5020 [0x55, 0xAA, 0xBB], .read 0xF5020 4]).1 :=
  (mock_refines_array [.write 0xF5020 [0xF0, 0x0F], .write 0xF5020 [0x55, 0xAA, 0xBB],
    .read 0xF5020 4] (by simp [MockCall.Aligned])).1

end Wormvars
