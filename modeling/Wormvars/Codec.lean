import Wormvars.Append

/-!
# The codec under header rewrites

A block is programmed once and its header is rewritten in place from then on:
newer is cleared, later the size is zeroed, each by a request of four bytes or of
the first byte alone.  `Request` lists what is asked for; the request that zeroes
the size carries the flag the descriptor had in RAM, whatever the cell holds.

After any requests the cell is the block that was written but for newer and size
(`Aged`, `Aged.program`), so `checkBlock` accepts it until the first request that
zeroes the size and takes it for invalid from there on (`block_survives_rewrites`).
-/

namespace Wormvars

open NorFlash

variable {crc : Block → BitVec 32}

/-! ## Requests -/

inductive Request where
  | clearNewer (whole : Bool)
  | clearSize (newer : BitVec 1) (whole : Bool)

namespace Request

/-- The header that is asked for, of a block written with the header `g`. -/
def header (g : BlockHeader) : Request → BlockHeader
  | clearNewer _ => { g with newer := fsBlockCurrent }
  | clearSize newer _ => { g with newer := newer, size := fsSizeInvalid }

/-- Four bytes or one. -/
def bytes (g : BlockHeader) : Request → List Byte
  | clearNewer true => (clearNewer true).header g |>.toBytes
  | clearNewer false => (clearNewer false).header g |>.toBytes.take 1
  | clearSize newer true => (clearSize newer true).header g |>.toBytes
  | clearSize newer false => (clearSize newer false).header g |>.toBytes.take 1

def zeroesSize : Request → Bool
  | clearNewer _ => false
  | clearSize _ _ => true

theorem bytes_cases (g : BlockHeader) (r : Request) :
    r.bytes g = (r.header g).toBytes ∨ r.bytes g = (r.header g).toBytes.take 1 := by
  cases r with
  | clearNewer whole =>
    cases whole
    · exact Or.inr rfl
    · exact Or.inl rfl
  | clearSize newer whole =>
    cases whole
    · exact Or.inr rfl
    · exact Or.inl rfl

theorem header_hash (g : BlockHeader) (r : Request) : (r.header g).hash = g.hash := by
  cases r <;> rfl

theorem header_name (g : BlockHeader) (r : Request) : (r.header g).name = g.name := by
  cases r <;> rfl

end Request

/-- The flash after the requests `l` have been programmed over the header `g` at `a`. -/
def rewrites (g : BlockHeader) (a : Nat) (f : Mem) (l : List Request) : Mem :=
  l.foldl (fun f r => program f a (r.bytes g)) f

/-! ## One request -/

/-- `b` is the block `c` but for newer, and its size is zeroed if `zeroed`. -/
structure Aged (c : Block) (zeroed : Bool) (b : Block) : Prop where
  header : ∃ n, b.header =
    { c.header with newer := n, size := if zeroed then fsSizeInvalid else c.header.size }
  data : ∀ i, b.data i = c.data i

theorem Aged.refl (c : Block) : Aged c false c := ⟨⟨c.header.newer, rfl⟩, fun _ => rfl⟩

theorem and_flags (g : BlockHeader) (n n' : BitVec 1) (s s' : BitVec 2) :
    ({ g with newer := n, size := s } &&& { g with newer := n', size := s' } : BlockHeader) =
      { g with newer := n &&& n', size := s &&& s' } := by
  show (⟨g.ver &&& g.ver, s &&& s', n &&& n', g.ext &&& g.ext, g.hash &&& g.hash,
    g.name &&& g.name⟩ : BlockHeader) = _
  simp only [BitVec.and_self]

theorem Aged.program {c : Block} {zeroed : Bool} {f : Mem} {a : Nat}
    (h : Aged c zeroed (flashRead f a)) (r : Request) :
    Aged c (zeroed || r.zeroesSize) (flashRead (program f a (r.bytes c.header)) a) := by
  obtain ⟨⟨n, hn⟩, hd⟩ := h
  -- one byte does the work of four
  have hwhole : NorFlash.program f a (r.bytes c.header) =
      NorFlash.program f a (r.header c.header).toBytes := by
    rcases r.bytes_cases c.header with hb | hb
    · rw [hb]
    · rw [hb]
      apply program_header_take _ _ (by omega)
      · rw [hn, r.header_hash]
      · rw [hn, r.header_name]
  rw [hwhole, flashRead_program_header, hn]
  refine ⟨?_, hd⟩
  cases r with
  | clearNewer whole =>
    refine ⟨n &&& 0, (and_flags c.header n 0 _ c.header.size).trans ?_⟩
    congr 1
    cases zeroed with
    | true => exact BitVec.zero_and
    | false => exact BitVec.and_self
  | clearSize newer whole =>
    refine ⟨n &&& newer, (and_flags c.header n newer _ 0).trans ?_⟩
    congr 1
    cases zeroed with
    | true => exact BitVec.and_zero
    | false => exact BitVec.and_zero

/-- What the requests leave of a block. -/
theorem Aged.rewrites {c : Block} {a : Nat} (l : List Request) :
    ∀ (f : Mem) (zeroed : Bool), Aged c zeroed (flashRead f a) →
      Aged c (zeroed || l.any Request.zeroesSize) (flashRead (rewrites c.header a f l) a) := by
  induction l with
  | nil =>
    intro f zeroed h
    simpa [Wormvars.rewrites] using h
  | cons r l ih =>
    intro f zeroed h
    have := ih _ _ (h.program r)
    rw [List.any_cons, ← Bool.or_assoc]
    exact this

theorem Aged.of_rewrites {c : Block} {f : Mem} {a : Nat} (hc : flashRead f a = c)
    (l : List Request) :
    Aged c (l.any Request.zeroesSize) (flashRead (Wormvars.rewrites c.header a f l) a) := by
  have := Aged.rewrites (c := c) (a := a) l f false (by rw [hc]; exact Aged.refl c)
  rwa [Bool.false_or] at this

/-- Every rewrite of what is stored of a block is one of the requests. -/
theorem Aged.request {c : Block} {zeroed : Bool} {b : Block} (h : Aged c zeroed b)
    {g : BlockHeader} {bs : List Byte} (hr : Rewrite b.header g bs) :
    ∃ r : Request, bs = r.bytes c.header := by
  obtain ⟨⟨n, hn⟩, -⟩ := h
  obtain ⟨hwhat, hbytes⟩ := hr
  have hg : ∃ r : Bool → Request, ∀ whole, bs = (r whole).bytes c.header ↔
      bs = if whole then g.toBytes else g.toBytes.take 1 := by
    rw [hn] at hwhat
    rcases hwhat with rfl | rfl
    · cases zeroed with
      | true => exact ⟨.clearSize 0, fun whole => by cases whole <;> exact Iff.rfl⟩
      | false => exact ⟨.clearNewer, fun whole => by cases whole <;> exact Iff.rfl⟩
    · exact ⟨.clearSize n, fun whole => by cases whole <;> exact Iff.rfl⟩
  obtain ⟨r, hr⟩ := hg
  rcases hbytes with hb | hb
  · exact ⟨r true, (hr true).2 hb⟩
  · exact ⟨r false, (hr false).2 hb⟩

/-! ## `checkBlock` -/

theorem checkBlock_invalid {b : Block} (h : b.header.size = fsSizeInvalid) :
    (checkBlock crc b).1 = blockIsInvalid := by
  have hb : b.header.toWord ≠ longBlankPattern := not_blankHeader (b := b) (by rw [h]; decide)
  unfold checkBlock
  rw [if_neg hb, if_pos h]

theorem Aged.checkBlock {c b : Block} {zeroed : Bool} (h : Aged c zeroed b)
    (hc : Accepted crc c) :
    (checkBlock crc b).1 = if zeroed then blockIsInvalid else 0 := by
  obtain ⟨⟨n, hn⟩, hd⟩ := h
  cases zeroed with
  | true => exact checkBlock_invalid (by rw [hn]; rfl)
  | false =>
    have hb : b = { c with header := { c.header with newer := n } } := Block.ext hn hd
    rw [hb]
    exact (accepted_newer crc c n).2 hc

/-- The bytes of a block read from flash. -/
theorem flashRead_toBytes (f : Mem) (a : Nat) :
    (flashRead f a).toBytes = List.ofFn fun i : Fin 32 => f (a + i) := by
  have hh : (flashRead f a).header.toBytes = [f a, f (a + 1), f (a + 2), f (a + 3)] :=
    BlockHeader.toBytes_ofBytes _ _ _ _
  show _ = List.ofFn fun i : Fin (4 + 28) => f (a + i)
  unfold Block.toBytes
  rw [hh, List.ofFn_add]
  have hd : (flashRead f a).data = fun i : Fin 28 => f (a + (Fin.natAdd 4 i)) := by
    funext i
    exact congrArg f (Nat.add_assoc a 4 i)
  rw [hd]
  rfl

/-! ## The whole life of a block -/

/-- A block written into an erased cell stays valid under any header rewrites until its size is
zeroed, is invalid from then on, and keeps its name, extension and payload throughout; `checkBlock`
gives every buffer back as it was. -/
theorem block_survives_rewrites (crc : Block → BitVec 32) (name : BitVec 16) (ext : BitVec 8)
    (data : List Byte) (hext : ext.toNat < 8) (hlen : data.length ≤ 28) (f : Mem) (a : Nat)
    (hblank : Blank f a 32) :
    let c := updateBlockHash crc (writeBuffer name ext data) fsSize32 fsBlockNewer
    (∀ l : List Request,
      let b := flashRead (rewrites c.header a (program f a c.toBytes) l) a
      (checkBlock crc b).1 = (if l.any Request.zeroesSize then blockIsInvalid else 0) ∧
        b.header.name = name ∧ b.header.ext.toNat = ext.toNat ∧
        (List.ofFn b.data).take data.length = data ∧
        ∀ i : Fin 28, data.length ≤ i.val → b.data i = 0) ∧
    ∀ (m : Mem) (x : Nat), (checkBlock crc (flashRead m x)).2.toBytes =
      List.ofFn fun i : Fin 32 => m (x + i) := by
  intro c
  refine ⟨fun l => ?_, fun m x => ?_⟩
  · intro b
    have hc : Accepted crc c := accepted_updateBlockHash crc _ _
    have haged : Aged c (l.any Request.zeroesSize) b :=
      Aged.of_rewrites (flashRead_program_blank hblank c) l
    obtain ⟨⟨n, hn⟩, hd⟩ := haged
    refine ⟨Aged.checkBlock ⟨⟨n, hn⟩, hd⟩ hc, ?_, ?_, ?_, ?_⟩
    · rw [hn]
      rfl
    · rw [hn]
      show (ext.setWidth 3).toNat = ext.toNat
      rw [BitVec.toNat_setWidth]
      omega
    · apply List.ext_getElem
      · rw [List.length_take, List.length_ofFn]
        omega
      · intro i h₁ h₂
        rw [List.getElem_take, List.getElem_ofFn, hd]
        exact List.getD_eq_getElem _ _ h₂
    · intro i hi
      rw [hd]
      exact List.getD_eq_default _ _ hi
  · rw [checkBlock_snd, flashRead_toBytes]

theorem block_survives_rewrites_one :
    (checkBlock (fun _ => 0) (flashRead (rewrites
      (updateBlockHash (fun _ => 0) (writeBuffer 7 1 [2]) fsSize32 fsBlockNewer).header 0xF4000
      (program (fun _ => 0xFF) 0xF4000
        (updateBlockHash (fun _ => 0) (writeBuffer 7 1 [2]) fsSize32 fsBlockNewer).toBytes)
      [.clearNewer false, .clearSize 1 true]) 0xF4000)).1 = blockIsInvalid :=
  ((block_survives_rewrites (fun _ => 0) 7 1 [2] (by decide) (by decide) (fun _ => 0xFF) 0xF4000
    (fun _ _ _ => rfl)).1 [.clearNewer false, .clearSize 1 true]).1

end Wormvars
