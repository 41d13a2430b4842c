import Mathlib.Data.List.Dedup
import Wormvars.Boot

/-!
# The store in operation

A system is on, with a world, or off, with what is on flash.  Its steps are the
calls of the interface, boots, and power cuts during either; a cut leaves on
flash what `Cut` allows around one of the operations that the call or boot
issues.  A boot is the zeroing of `Fs` and `fs_init`, from off or from on.

`Limits h` is what callers are expected to keep to: extensions that fit and no
more keys than descriptors.  What the proofs use of it is `SlotFree`, a condition
on the state before each step (`Guarded`).
-/

namespace Wormvars

open NorFlash NewerLog

/-! ## Steps -/

/-- A call of the interface, with the answers the waits in it get. -/
inductive Call where
  | write (blockName : BitVec 16) (blockExt : BitVec 8) (blockData : List Byte) (ans : Answers)
  | read (blockName : BitVec 16) (blockExt : BitVec 8) (blockLen : Nat)
  | thread (ans : Answers)

inductive Result where
  | wrote (r : Int)
  | read (r : ReadResult)
  | ran (c : PtCode)
deriving DecidableEq

def World.fresh (w : World) : World := { w with log := [] }

/-- `n` bounds the nested activations of `fs_thread`; `thread` is `fs_thread(0)`. -/
def Call.exec (crc : Block → BitVec 32) (n : Nat) (w : World) : Call → Option (Result × World)
  | .write name ext data ans => (fsWrite crc ans n w name ext data).map fun r => (.wrote r.1, r.2)
  | .read name ext len => some (.read (fsRead w name ext len), w)
  | .thread ans => (fsThread crc ans n false w).map fun r => (.ran r.1, r.2)

inductive Sys where
  | on (w : World)
  | off (f : Mem)

def Sys.flash : Sys → Mem
  | .on w => w.flash
  | .off f => f

/-- The flash as it is delivered. -/
def erased : Mem := fun _ => 0xFF

inductive Label where
  | call (c : Call) (r : Result)
  /-- power fails during the call -/
  | cut (c : Call)
  | boot
  /-- power fails during the boot -/
  | bootCut

/-- The operations that the step `l` issues if it is not cut. -/
def issued (crc : Block → BitVec 32) (n : Nat) : Sys → Label → List Event
  | .on w, .call c _ | .on w, .cut c =>
    match c.exec crc n w.fresh with
    | some (_, w') => w'.log
    | none => []
  | .off _, .call _ _ | .off _, .cut _ => []
  | s, .boot | s, .bootCut => (coldBoot crc s.flash).log

section issued
variable {crc : Block → BitVec 32} {n : Nat} {w w' : World} {c : Call} {r : Result}
  (he : c.exec crc n w.fresh = some (r, w'))
include he

theorem issued_call {r' : Result} : issued crc n (.on w) (.call c r') = w'.log := by
  unfold issued
  simp only [he]

theorem issued_cut : issued crc n (.on w) (.cut c) = w'.log := by
  unfold issued
  simp only [he]

end issued

inductive Step (crc : Block → BitVec 32) (n : Nat) : Sys → Label → Sys → Prop
  | call (w : World) (c : Call) (r : Result) (w' : World) :
      c.exec crc n w.fresh = some (r, w') → Step crc n (.on w) (.call c r) (.on w')
  | cut (w : World) (c : Call) (e : Event) (f : Mem) : e ∈ issued crc n (.on w) (.cut c) →
      Cut crc e f → Step crc n (.on w) (.cut c) (.off f)
  | boot (s : Sys) : Step crc n s .boot (.on (coldBoot crc s.flash))
  | bootCut (s : Sys) (e : Event) (f : Mem) : e ∈ issued crc n s .bootCut → Cut crc e f →
      Step crc n s .bootCut (.off f)

/-! ## Limits -/

/-- The names and extensions passed to `fs_write`. -/
def passed : List Label → List (BitVec 16 × BitVec 8)
  | [] => []
  | .call (.write name ext _ _) _ :: h | .cut (.write name ext _ _) :: h => (name, ext) :: passed h
  | _ :: h => passed h

/-- Extensions fit their bit-field, and there are no more keys than descriptors. -/
structure Limits (h : List Label) : Prop where
  ext : ∀ p ∈ passed h, p.2.toNat < 8
  keys : (passed h).dedup.length ≤ fdMax

/-- If `fs_write` gets so far as to look for a descriptor, it finds one. -/
def SlotFor (w : World) : Call → Prop
  | .write name ext data _ => data.length ≤ 28 → (∃ s, ¬ w.fs.SectorIsFull s) →
      HasSlot w.fs (name, ext.setWidth 3)
  | _ => True

def SlotFree : Sys → Label → Prop
  | .on w, .call c _ | .on w, .cut c => SlotFor w c
  | _, _ => True

/-- A step that stays within the limits. -/
structure Guarded (crc : Block → BitVec 32) (n : Nat) (s : Sys) (l : Label) (t : Sys) : Prop where
  step : Step crc n s l t
  ext : ∀ p ∈ passed [l], p.2.toNat < 8
  slot : SlotFree s l

theorem passed_cons (l : Label) (h : List Label) : passed (l :: h) = passed [l] ++ passed h := by
  cases l with
  | call c r => cases c <;> rfl
  | cut c => cases c <;> rfl
  | boot => rfl
  | bootCut => rfl

theorem Limits.tail {l : Label} {h : List Label} (hl : Limits (l :: h)) : Limits h where
  ext p hp := hl.ext p (by rw [passed_cons]; exact List.mem_append_right _ hp)
  keys := by
    have hsub : (passed h).dedup ⊆ (passed (l :: h)).dedup := by
      intro p hp
      rw [List.mem_dedup] at hp ⊢
      rw [passed_cons]
      exact List.mem_append_right _ hp
    exact ((List.nodup_dedup _).subperm hsub).length_le.trans hl.keys

theorem Limits.same {h : List Label} {name : BitVec 16} {ext : BitVec 8}
    (hp : ∀ p ∈ passed h, p = (name, ext)) (hext : ext.toNat < 8) : Limits h := by
  constructor
  · intro p hm
    rw [hp p hm]
    exact hext
  · have hsub : (passed h).dedup ⊆ [(name, ext)] := by
      intro p hm
      rw [hp p (List.mem_dedup.1 hm)]
      exact List.mem_singleton_self _
    refine ((List.nodup_dedup _).subperm hsub).length_le.trans ?_
    show 1 ≤ 300
    omega

theorem Limits.single {h : List Label} {name : BitVec 16} {ext : BitVec 8}
    (hp : passed h = [(name, ext)]) (hext : ext.toNat < 8) : Limits h :=
  .same (fun p hm => by rwa [hp, List.mem_singleton] at hm) hext

/-- What the limits say about the next step. -/
theorem Limits.head {l : Label} {h : List Label} (hl : Limits (l :: h)) :
    ∀ p ∈ passed [l], p.2.toNat < 8 := by
  intro p hp
  refine hl.ext p ?_
  rw [passed_cons]
  exact List.mem_append_left _ hp

/-! ## Calls and the functions they run -/

section exec
variable {crc : Block → BitVec 32} {n : Nat} {w w' : World} {ans : Answers}
  {name : BitVec 16} {ext : BitVec 8} {data : List Byte}

theorem exec_of_fsWrite {r : Int × World} (h : fsWrite crc ans n w name ext data = some r) :
    (Call.write name ext data ans).exec crc n w = some (.wrote r.1, r.2) := by
  unfold Call.exec
  simp [h]

theorem exec_of_fsThread {r : PtCode × World} (h : fsThread crc ans n false w = some r) :
    (Call.thread ans).exec crc n w = some (.ran r.1, r.2) := by
  unfold Call.exec
  simp [h]

/-- A call of `fs_thread` that has returned is a few moves. -/
theorem thread_moves (hi : Inv crc w.fs w.flash) {r : Result}
    (he : (Call.thread ans).exec crc (n + 2) w = some (r, w')) :
    ∃ k, k ≤ 2 ∧ Moves crc k w w' := by
  obtain ⟨c, v, hex, hv⟩ := fsThread_spec ans false hi n
  rw [exec_of_fsThread hex] at he
  cases he
  exact hv.moves hi

/-- A call of `fs_write` that has returned ends in one of four ways. -/
theorem write_ends (hi : Inv crc w.fs w.flash) (hslot : SlotFor w (.write name ext data ans))
    {r : Result} (he : (Call.write name ext data ans).exec crc (n + 2) w = some (r, w')) :
    ∃ i, r = .wrote i ∧ WriteEnds crc w name ext data (i, w') := by
  obtain ⟨⟨i, v⟩, hex, hends⟩ := fsWrite_spec hi ans (n + 1) hslot
  rw [exec_of_fsWrite hex] at he
  cases he
  exact ⟨i, rfl, hends⟩

end exec

/-! ## The flash as it is delivered -/

theorem shape_erased : Shape ⟨sectorBase, 0⟩ erased where
  lo _ := Nat.le_refl _
  hi _ := Nat.le_add_right _ _
  aligned := sectorBase_mod
  written _ _ h₁ h₂ := absurd h₂ (Nat.not_lt.2 h₁)
  blank _ _ _ _ := rfl
  others _ _ := Or.inl rfl

theorem recoverable_erased (crc : Block → BitVec 32) :
    Recoverable crc (fun _ => none) erased where
  shape := ⟨_, shape_erased⟩
  represents := by
    have hnone : ∀ a, copies crc erased a = none :=
      fun a => copies_eq_none (not_accepted_blank fun _ _ _ => rfl)
    constructor
    · intro a c hc
      rw [hnone] at hc
      cases hc
    · intro k v hv
      cases hv
  fits := ⟨[], Nat.zero_le _, fun k hk => by cases hk⟩

theorem booted_erased (crc : Block → BitVec 32) :
    Booted crc erased ⟨sectorBase, 0⟩ (fun _ => none) (coldBoot crc erased) :=
  coldBoot_spec shape_erased (recoverable_erased crc).represents (recoverable_erased crc).fits

theorem fd_nil_of_contents {fs : Fs} {f : Mem} (h : contents fs f = fun _ => none) : fs.fd = [] := by
  rw [List.eq_nil_iff_forall_not_mem]
  intro fd hm
  have hk : fd.header.key ∈ keys fs := List.mem_map.2 ⟨fd, hm, rfl⟩
  rw [← contents_isSome_iff (f := f), h] at hk
  cases hk

theorem coldBoot_erased_bare (crc : Block → BitVec 32) : (coldBoot crc erased).fs.fd = [] :=
  fd_nil_of_contents (booted_erased crc).contents

/-- A boot finds the map that is recoverable. -/
theorem Recoverable.booted {crc : Block → BitVec 32} {M : Contents} {f : Mem}
    (h : Recoverable crc M f) : ∃ curr, Shape curr f ∧ Booted crc f curr M (coldBoot crc f) := by
  obtain ⟨curr, hs⟩ := h.shape
  exact ⟨curr, hs, coldBoot_spec hs h.represents h.fits⟩

end Wormvars
