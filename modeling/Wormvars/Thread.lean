import Wormvars.Fs

/-!
# `fs_thread` and the recursion between it and `fs_write`

`fs_thread` is a protothread: each call runs from the label saved in `Fs.pt` to
the next wait or yield.  `Answers` holds what `timer_expired()` and
`flash_ready()` say to the waits of one call; one call passes at most one wait
of each kind.

`fsThread n` and `fsWrite n` are the two functions with the recursion
`fs_write → updateSector → fs_thread(1) → fs_write` cut at depth `n`; `none`
means that `n` was too small.
-/

namespace Wormvars

open NorFlash

/-! ## `fs_thread` -/

/-- What `timer_expired()` and `flash_ready()` answer to the waits of one call. -/
structure Answers where
  timerExpired : Bool
  flashReady : Bool

inductive PtCode where
  | waiting
  | yielded
  | ended
deriving DecidableEq

/-- From the end of the loop over the descriptors. -/
def relocErase (ans : Answers) (w : World) : PtCode × World :=
  let w := w.setPt .waitErase
  if ans.flashReady then
    let sector := w.fs.reloc.sector
    let w := w.flashErase (sectorBase sector)
    let w := w.setAddress sector (sectorBase sector)
    (.ended, w.setPt .null)
  else (.waiting, w)

/-- From the wait before `flash_read` to the yield after it. -/
def relocRead (ans : Answers) (w : World) : PtCode × World :=
  let w := w.setPt .waitRead
  if ans.flashReady then
    let w := w.setReloc { w.fs.reloc with buffer := flashRead w.flash w.fs.reloc.fd.address }
    (.yielded, w.setPt .yieldRead)
  else (.waiting, w)

/-- The `for` loop with `Fs.reloc.fd_index` at the first descriptor of the list. -/
def relocLoop (ans : Answers) : List FileDescriptor → World → PtCode × World
  | [], w => relocErase ans w
  | fd :: rest, w =>
    if fd.sector = w.fs.reloc.sector then
      relocRead ans (w.setReloc { w.fs.reloc with fd := fd })
    else
      relocLoop ans rest (w.setReloc { w.fs.reloc with fdIndex := w.fs.reloc.fdIndex + 1 })

/-- The increment of the `for` loop, and the loop from there. -/
def relocNext (ans : Answers) (w : World) : PtCode × World :=
  let w := w.setReloc { w.fs.reloc with fdIndex := w.fs.reloc.fdIndex + 1 }
  relocLoop ans (w.fs.fd.drop w.fs.reloc.fdIndex) w

/-- One evaluation of `while (fs_write(…) < 0)` and the yield it leads to. -/
def relocWrite (write : World → BitVec 16 → BitVec 8 → List Byte → Option (Int × World))
    (w : World) : Option (PtCode × World) :=
  let header := w.fs.reloc.fd.header
  match write w header.name (header.ext.setWidth 8) (List.ofFn w.fs.reloc.buffer.data) with
  | none => none
  | some (r, w) =>
    if r < 0 then some (.yielded, w.setPt .yieldRetry) else some (.yielded, w.setPt .yieldNext)

/-- One call of `fs_thread(reloc_flag)`. -/
def fsThreadWith (write : World → BitVec 16 → BitVec 8 → List Byte → Option (Int × World))
    (ans : Answers) (relocFlag : Bool) (w : World) : Option (PtCode × World) :=
  match w.fs.pt with
  | .null | .waitTimer =>
    let w := w.setPt .waitTimer
    if relocFlag ∨ ans.timerExpired then some (.yielded, w.setPt .yieldStart)
    else some (.waiting, w)
  | .yieldStart =>
    match findRelocSector w.fs with
    | none => some (.waiting, w.setPt .null)
    | some sector =>
      let w := w.setReloc { w.fs.reloc with sector := sector, fdIndex := 0 }
      some (relocLoop ans w.fs.fd w)
  | .waitRead => some (relocRead ans w)
  | .yieldRead =>
    match w.fs.fd[w.fs.reloc.fdIndex]? with
    | none => none
    | some fd =>
      if fd.address = w.fs.reloc.fd.address then relocWrite write w
      else some (.yielded, w.setPt .yieldNext)
  | .yieldRetry => relocWrite write w
  | .yieldNext => some (relocNext ans w)
  | .waitErase => some (relocErase ans w)

/-- `fs_thread`, with at most `n` nested activations. -/
def fsThread (crc : Block → BitVec 32) (ans : Answers) : Nat → Bool → World →
    Option (PtCode × World)
  | 0, _, _ => none
  | n + 1, relocFlag, w =>
    fsThreadWith (fsWriteWith crc fun w => (fsThread crc ans n true w).map Prod.snd)
      ans relocFlag w

/-- `fs_write`, with at most `n` nested activations of `fs_thread`. -/
def fsWrite (crc : Block → BitVec 32) (ans : Answers) (n : Nat) (w : World)
    (blockName : BitVec 16) (blockExt : BitVec 8) (blockData : List Byte) :
    Option (Int × World) :=
  fsWriteWith crc (fun w => (fsThread crc ans n true w).map Prod.snd) w blockName blockExt
    blockData

end Wormvars
