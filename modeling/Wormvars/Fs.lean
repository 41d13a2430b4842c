import Wormvars.Structs

/-!
# The file system state, `fs_write`, `fs_read`, `fs_init` and `findRelocSector`

`World` is everything the code acts on: the global `Fs`, the flash, and a log
(newest first) of the flash operations issued and of the values `fs_write`
returned, each with the state it happened in.  The log is not in the source; it
is what crash and safety statements speak about.

The descriptors below `fd_index` are the list `Fs.fd`, so `fd_index` is its
length.  Addresses are `Nat`, the sectors are `Fin 8`.  The busy waits
`while (flash_ready() != 1) timer_nopsleep(100)` are taken to exit.

`fs_write` calls `fs_thread(1)` through `updateSector`, and `fs_thread` calls
`fs_write`: here both take the other as an argument, the knot is tied in
`Thread.lean`.
-/

namespace Wormvars

open NorFlash

def fdMax : Nat := 300
def filesystemSectorSize : Nat := 4096
def fdsPerSector : Nat := filesystemSectorSize / fsBlockSize
def fsMinBlankSectors : Nat := 2

/-- `Sector_base`. -/
def sectorBase (sector : Fin 8) : Nat :=
  [0x0F4000, 0x0F5000, 0x0F6000, 0x0F7000, 0x0F8000, 0x0F9000, 0x0FA000, 0x0FB000].get sector

/-- The sector numbers, in the order the loops of the source visit them. -/
def sectors : List (Fin 8) := [0, 1, 2, 3, 4, 5, 6, 7]

/-! ## State -/

/-- `struct st_fileDescriptor`. -/
structure FileDescriptor where
  address : Nat
  header : BlockHeader
  sector : Fin 8
deriving DecidableEq

/-- Where `fs_thread` resumes: one label per `LC_SET` of its body. -/
inductive PtLabel where
  | null
  /-- `PT_WAIT_UNTIL(reloc_flag == 1 || timer_expired())` -/
  | waitTimer
  /-- the `PT_YIELD` before `findRelocSector` -/
  | yieldStart
  /-- `PT_WAIT_WHILE(flash_ready() != 1)` before the block is read -/
  | waitRead
  /-- the `PT_YIELD` after the block is read -/
  | yieldRead
  /-- the `PT_YIELD` in the loop that retries `fs_write` -/
  | yieldRetry
  /-- the `PT_YIELD` after a descriptor is done -/
  | yieldNext
  /-- `PT_WAIT_WHILE(flash_ready() != 1)` before the sector is erased -/
  | waitErase
deriving DecidableEq

structure Curr where
  address : Fin 8 → Nat
  sector : Fin 8

def Curr.setAddress (curr : Curr) (sector : Fin 8) (address : Nat) : Curr :=
  { curr with address := fun s => if s = sector then address else curr.address s }

structure Reloc where
  buffer : Block
  fd : FileDescriptor
  sector : Fin 8
  fdIndex : Nat

structure Fs where
  fd : List FileDescriptor
  curr : Curr
  reloc : Reloc
  pt : PtLabel

inductive Op where
  | program (address : Nat) (bytes : List Byte)
  | erase (address : Nat)
  | returns (r : Int)
deriving DecidableEq

/-- An operation with the state it was issued in. -/
structure Event where
  fs : Fs
  flash : Mem
  op : Op

structure World where
  fs : Fs
  flash : Mem
  log : List Event

def Fs.SectorIsFull (fs : Fs) (sector : Fin 8) : Prop :=
  sectorBase sector + filesystemSectorSize ≤ fs.curr.address sector

def Fs.SectorIsBlank (fs : Fs) (sector : Fin 8) : Prop :=
  fs.curr.address sector = sectorBase sector

instance (fs : Fs) (s : Fin 8) : Decidable (fs.SectorIsFull s) :=
  inferInstanceAs (Decidable (_ ≤ _))

instance (fs : Fs) (s : Fin 8) : Decidable (fs.SectorIsBlank s) :=
  inferInstanceAs (Decidable (_ = _))

/-- `Fs` with all bytes zero. -/
def Fs.zero : Fs where
  fd := []
  curr := ⟨fun _ => 0, 0⟩
  reloc := ⟨⟨.ofBytes 0 0 0 0, fun _ => 0⟩, ⟨0, .ofBytes 0 0 0 0, 0⟩, 0, 0⟩
  pt := .null

namespace World

def setFd (w : World) (i : Nat) (fd : FileDescriptor) : World :=
  { w with fs := { w.fs with fd := w.fs.fd.set i fd } }

/-- Fill the slot at `fd_index` and increment `fd_index`. -/
def pushFd (w : World) (fd : FileDescriptor) : World :=
  { w with fs := { w.fs with fd := w.fs.fd ++ [fd] } }

def setAddress (w : World) (sector : Fin 8) (address : Nat) : World :=
  { w with fs := { w.fs with curr := w.fs.curr.setAddress sector address } }

def setSector (w : World) (sector : Fin 8) : World :=
  { w with fs := { w.fs with curr := { w.fs.curr with sector := sector } } }

def setReloc (w : World) (reloc : Reloc) : World := { w with fs := { w.fs with reloc := reloc } }

def setPt (w : World) (pt : PtLabel) : World := { w with fs := { w.fs with pt := pt } }

/-- `flash_write`, with the busy wait before it. -/
def flashWrite (w : World) (address : Nat) (bytes : List Byte) : World :=
  { w with flash := program w.flash address bytes
           log := ⟨w.fs, w.flash, .program address bytes⟩ :: w.log }

def flashErase (w : World) (sectorAddress : Nat) : World :=
  { w with flash := erase w.flash sectorAddress filesystemSectorSize
           log := ⟨w.fs, w.flash, .erase sectorAddress⟩ :: w.log }

/-- `return r` of `fs_write`. -/
def returns (w : World) (r : Int) : Int × World :=
  (r, { w with log := ⟨w.fs, w.flash, .returns r⟩ :: w.log })

end World

/-! ## `updateSector` -/

/-- The `do … while` of `updateSector`; it visits at most eight sectors. -/
def nextNotFull (fs : Fs) : Nat → Fin 8 → Option (Fin 8)
  | 0, _ => none
  | n + 1, nextSector =>
    let nextSector := nextSector + 1
    if ¬ fs.SectorIsFull nextSector then some nextSector
    else if nextSector ≠ fs.curr.sector then nextNotFull fs n nextSector
    else none

def updateSectorWith (thread : World → Option World) (w : World) : Option (Int × World) :=
  if w.fs.SectorIsFull w.fs.curr.sector then
    match nextNotFull w.fs 8 w.fs.curr.sector with
    | some nextSector => (thread (w.setSector nextSector)).map fun w => (1, w)
    | none => some (-1, w)
  else some (0, w)

/-! ## `findRelocSector` -/

/-- The first loop: which sectors are full, or `none` once enough blank ones are seen. -/
def fullSectors (fs : Fs) : List (Fin 8) → Nat → (Fin 8 → Bool) → Option (Fin 8 → Bool)
  | [], _, full => some full
  | sector :: rest, blankSectors, full =>
    if sector = fs.curr.sector then fullSectors fs rest blankSectors full
    else if fs.SectorIsBlank sector then
      if blankSectors + 1 = fsMinBlankSectors then none
      else fullSectors fs rest (blankSectors + 1) full
    else if fs.SectorIsFull sector then
      fullSectors fs rest blankSectors fun s => if s = sector then true else full s
    else fullSectors fs rest blankSectors full

/-- The histogram of descriptors over the full sectors, in 8-bit counters. -/
def fdCounts (full : Fin 8 → Bool) (fd : List FileDescriptor) : Fin 8 → Nat :=
  fd.foldl (fun count fd =>
    if full fd.sector then
      fun s => if s = fd.sector then (count s + 1) % 256 else count s
    else count) fun _ => 0

/-- One turn of the last loop: `fd_min` and `reloc`. -/
def relocCandidate (curr : Fin 8) (full : Fin 8 → Bool) (count : Fin 8 → Nat)
    (best : Nat × Fin 8) (sector : Fin 8) : Nat × Fin 8 :=
  let newSector := curr + sector
  if full newSector ∧ count newSector < best.1 then (count newSector, newSector) else best

/-- The sector to relocate; `none` is the return value `-1`. -/
def findRelocSector (fs : Fs) : Option (Fin 8) :=
  match fullSectors fs sectors 0 fun _ => false with
  | none => none
  | some full =>
    some (sectors.foldl (relocCandidate fs.curr.sector full (fdCounts full fs.fd))
      (fdsPerSector, 0)).2

/-! ## `fs_write` -/

/-- The first descriptor with the name and extension of `h`, or `fd_index`. -/
def findFd (fd : List FileDescriptor) (h : BlockHeader) : Nat :=
  fd.findIdx fun fd => fd.header.name == h.name && fd.header.ext == h.ext

/-- `write_buffer`: `{0xFF}` sets the first byte and zeroes the others. -/
def writeBuffer (blockName : BitVec 16) (blockExt : BitVec 8) (blockData : List Byte) : Block where
  header := { BlockHeader.ofBytes 0xFF 0 0 0 with name := blockName, ext := blockExt.setWidth 3 }
  data i := blockData.getD i 0

/-- The previous block must be `fsBlockCurrent` prior to the write. -/
def clearNewer (w : World) (i : Nat) : World :=
  match w.fs.fd[i]? with
  | some fd =>
    if fd.header.newer = fsBlockNewer then
      let header := { fd.header with newer := fsBlockCurrent }
      (w.setFd i { fd with header := header }).flashWrite fd.address header.toBytes
    else w
  | none => w

/-- The previous block is invalidated once the new one is on flash. -/
def invalidatePrevious (w : World) (i : Nat) : World :=
  match w.fs.fd[i]? with
  | some fd =>
    let header := { fd.header with size := fsSizeInvalid }
    (w.setFd i { fd with header := header }).flashWrite fd.address (header.toBytes.take 1)
  | none => w

/-- Descriptor `i` takes the new block, whose newer flag is cleared. -/
def updateFd (w : World) (i : Nat) (h : BlockHeader) : World :=
  let fd : FileDescriptor := ⟨w.fs.curr.address w.fs.curr.sector,
    { h with newer := fsBlockCurrent }, w.fs.curr.sector⟩
  -- slot `fd_index` is outside the table until `fd_index++`
  let w := (w.setFd i fd).flashWrite fd.address (fd.header.toBytes.take 1)
  if i = w.fs.fd.length then w.pushFd fd else w

/-- `fs_write` from the point where the current sector is known to have room. -/
def appendBlock (crc : Block → BitVec 32) (w : World) (buffer : Block) : Int × World :=
  let i := findFd w.fs.fd buffer.header
  let w := clearNewer w i
  let block := updateBlockHash crc buffer fsSize32 fsBlockNewer
  let w := w.flashWrite (w.fs.curr.address w.fs.curr.sector) block.toBytes
  let w := invalidatePrevious w i
  if i < fdMax then
    let w := updateFd w i block.header
    let sector := w.fs.curr.sector
    (w.setAddress sector (w.fs.curr.address sector + fsBlockSize)).returns 0
  else w.returns (-1)

/-- `fs_write(blockName, blockExt, block_data, block_len)`; `block_len` is the length of the
list. -/
def fsWriteWith (crc : Block → BitVec 32) (thread : World → Option World) (w : World)
    (blockName : BitVec 16) (blockExt : BitVec 8) (blockData : List Byte) :
    Option (Int × World) :=
  if blockData.length > fsBlockSize - 4 then some (w.returns (-1))
  else
    match updateSectorWith thread w with
    | none => none
    | some (r, w) =>
      if r < 0 then some (w.returns (-2))
      else some (appendBlock crc w (writeBuffer blockName blockExt blockData))

/-! ## `fs_read` -/

inductive ReadResult where
  /-- `-1` -/
  | notFound
  /-- `0`, with the bytes copied -/
  | found (bytes : List Byte)
  /-- the copy runs past the end of `read_buffer` -/
  | overrun
deriving DecidableEq

def fsRead (w : World) (blockName : BitVec 16) (blockExt : BitVec 8) (blockLen : Nat) :
    ReadResult :=
  let i := w.fs.fd.findIdx fun fd =>
    fd.header.name == blockName && fd.header.ext.toNat == blockExt.toNat
  match w.fs.fd[i]? with
  | some fd =>
    let readBuffer := flashRead w.flash fd.address
    if blockLen ≤ fsBlockSize - 4 then .found ((List.ofFn readBuffer.data).take blockLen)
    else .overrun
  | none => .notFound

/-! ## `fs_init` -/

/-- A valid block at `address` that has the name and extension of descriptor `i`. -/
def resolveDuplicate (w : World) (i : Nat) (fd : FileDescriptor) (sector : Fin 8) (address : Nat)
    (h : BlockHeader) : World :=
  if fd.header.newer = fsBlockCurrent ∧ h.newer = fsBlockNewer then
    -- invalidate the former block, the descriptor takes the new one
    let header := { fd.header with size := fsSizeInvalid }
    ((w.setFd i { fd with header := header }).flashWrite fd.address header.toBytes).setFd i
      ⟨address, h, sector⟩
  else if fd.header.newer = fsBlockNewer ∧ h.newer = fsBlockCurrent then
    w.flashWrite address { h with size := fsSizeInvalid }.toBytes
  else
    -- unexpected: keep the first found
    w.flashWrite address { h with size := fsSizeInvalid }.toBytes

/-- The loop of `initFileDescriptors` over the `n` cells of `sector` from `address` on. -/
def scanCells (crc : Block → BitVec 32) (sector : Fin 8) : Nat → Nat → World → Int × World
  | 0, _, w => (2, w.setAddress sector (w.fs.curr.address sector + fsBlockSize))
  | n + 1, address, w =>
    let w := w.setAddress sector address
    let check := checkBlock crc (flashRead w.flash address)
    if check.1 = 0 then
      let header := check.2.header
      let i := findFd w.fs.fd header
      match w.fs.fd[i]? with
      | some fd =>
        scanCells crc sector n (address + fsBlockSize)
          (resolveDuplicate w i fd sector address header)
      | none =>
        if w.fs.fd.length < fdMax then
          scanCells crc sector n (address + fsBlockSize) (w.pushFd ⟨address, header, sector⟩)
        else (-1, w)
    else if check.1 = blockIsBlank then
      if address = sectorBase sector then (0, w) else (1, w)
    else scanCells crc sector n (address + fsBlockSize) w

def initFileDescriptors (crc : Block → BitVec 32) (sector : Fin 8) (w : World) : Int × World :=
  scanCells crc sector fdsPerSector (sectorBase sector) w

/-- One turn of the loop of `fs_init`: the world, `blankSector` and `sectorAssigned`. -/
def initSector (crc : Block → BitVec 32) (st : World × Fin 8 × Bool) (i : Fin 8) :
    World × Fin 8 × Bool :=
  let (w, blankSector, sectorAssigned) := st
  let (sectorSt, w) := initFileDescriptors crc i w
  if sectorSt < 0 then (w, blankSector, sectorAssigned)
  else if sectorSt = 0 then (w, i, sectorAssigned)
  else if sectorSt = 1 then (w.setSector i, blankSector, true)
  else (w, blankSector, sectorAssigned)

def fsInit (crc : Block → BitVec 32) (w : World) : World :=
  let (w, blankSector, sectorAssigned) := sectors.foldl (initSector crc) (w, 0, false)
  let w := if sectorAssigned then w else w.setSector blankSector
  w.setPt .null

/-- `fs_init` on a zeroed `Fs`. -/
def coldBoot (crc : Block → BitVec 32) (flash : Mem) : World := fsInit crc ⟨.zero, flash, []⟩

end Wormvars
