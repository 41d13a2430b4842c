import Wormvars.Runs
import Wormvars.System

/-!
# The system behaves like a store

`Store` is what the interface is for: a map from names and extensions to data.
`StoreStep` is its behaviour: a write that returns `0` sets its key, a write cut
short sets it or does not, nothing else changes the map.

`Sound crc S s` relates a store to a system: on, the contents are `S` and the
invariant holds; off, `S` is recoverable.  Every step within the limits is a step
of the store (`Sound.step`), so every run is (`simulates`), and `fs_read` reads
the store (`Sound.reads`).
-/

namespace Wormvars

open NorFlash NewerLog Runs

variable {crc : Block → BitVec 32}

abbrev Store := BitVec 16 → BitVec 8 → Option (List Byte)

def Store.empty : Store := fun _ _ => none

def Store.set (S : Store) (name : BitVec 16) (ext : BitVec 8) (data : List Byte) : Store :=
  fun n e => if n = name ∧ e = ext then some data else S n e

def StoreStep (S : Store) : Label → Store → Prop
  | .call (.write name ext data _) (.wrote r), S' => S' = if r = 0 then S.set name ext data else S
  | .cut (.write name ext data _), S' => S' = S ∨ S' = S.set name ext data
  | _, S' => S' = S

/-- Data of at most 28 bytes, padded with zeros. -/
def padded (data : List Byte) : List Byte := data ++ List.replicate (28 - data.length) 0

/-- `fs_read` reads `S`. -/
def Reads (w : World) (S : Store) : Prop := ∀ name ext len, len ≤ 28 →
  fsRead w name ext len =
    match S name ext with
    | none => .notFound
    | some data => .found ((padded data).take len)

/-- The data of the last write of a key that returned `0`. -/
def lastAcked : List Label → Store
  | [], _, _ => none
  | .call (.write name ext data _) (.wrote r) :: h, n, e =>
    if r = 0 ∧ n = name ∧ e = ext then some data else lastAcked h n e
  | _ :: h, n, e => lastAcked h n e

/-- The data of the writes of a key that were cut short since then. -/
def interrupted : List Label → BitVec 16 → BitVec 8 → List (List Byte)
  | [], _, _ => []
  | .call (.write name ext _ _) (.wrote r) :: h, n, e =>
    if r = 0 ∧ n = name ∧ e = ext then [] else interrupted h n e
  | .cut (.write name ext data _) :: h, n, e =>
    if n = name ∧ e = ext then data :: interrupted h n e else interrupted h n e
  | _ :: h, n, e => interrupted h n e

/-! ## Contents -/

/-- The map of cells that holds `S`. -/
def Store.toContents (S : Store) : Contents := fun k => (S k.1 (k.2.setWidth 8)).map pad

/-- What limits leave of a store. -/
structure Store.Fine (S : Store) : Prop where
  ext : ∀ n e, (S n e).isSome → e.toNat < 8
  short : ∀ n e d, S n e = some d → d.length ≤ 28

section store
variable {S : Store} {name : BitVec 16} {ext : BitVec 8} {data : List Byte}

theorem setWidth_ext (h : ext.toNat < 8) : (ext.setWidth 3).setWidth 8 = ext := by
  apply BitVec.eq_of_toNat_eq
  simp only [BitVec.toNat_setWidth]
  omega

theorem setWidth_key (k : BitVec 3) : (k.setWidth 8).setWidth 3 = k := by
  rw [BitVec.setWidth_setWidth_of_le _ (by omega), BitVec.setWidth_eq]

theorem Store.toContents_of_ext (h : ext.toNat < 8) :
    S.toContents (name, ext.setWidth 3) = (S name ext).map pad := by
  unfold toContents
  rw [setWidth_ext h]

theorem Store.toContents_set (h : ext.toNat < 8) :
    (S.set name ext data).toContents =
      Function.update S.toContents (name, ext.setWidth 3) (some (pad data)) := by
  funext k
  by_cases hk : k = (name, ext.setWidth 3)
  · subst hk
    rw [Function.update_self, toContents_of_ext h]
    simp [set]
  · rw [Function.update_of_ne hk]
    unfold toContents set
    rw [if_neg]
    rintro ⟨hn, he⟩
    refine hk (Prod.ext hn ?_)
    rw [← he, setWidth_key]

theorem Store.Fine.set (hS : S.Fine) (hext : ext.toNat < 8) (hlen : data.length ≤ 28) :
    (S.set name ext data).Fine := by
  constructor
  · intro n e hs
    unfold Store.set at hs
    split at hs
    · next h => rw [h.2]; exact hext
    · exact hS.ext n e hs
  · intro n e d hd
    unfold Store.set at hd
    split at hd
    · cases hd
      exact hlen
    · exact hS.short n e d hd

theorem fine_empty : Store.empty.Fine := by
  constructor
  · intro n e h
    cases h
  · intro n e d h
    cases h

theorem ofFn_pad (hlen : data.length ≤ 28) : List.ofFn (pad data) = padded data := by
  apply List.ext_getElem
  · unfold padded
    simp only [List.length_ofFn, List.length_append, List.length_replicate]
    omega
  · intro i h₁ h₂
    rw [List.getElem_ofFn]
    show data.getD i 0 = _
    simp only [padded]
    by_cases hi : i < data.length
    · rw [List.getElem_append_left hi, List.getD_eq_getElem _ _ hi]
    · rw [List.getElem_append_right (by omega), List.getElem_replicate,
        List.getD_eq_default _ _ (by omega)]

end store

/-! ## Simulation -/

/-- The system `s` holds `S`. -/
def Sound (crc : Block → BitVec 32) (S : Store) : Sys → Prop
  | .on w => S.Fine ∧ Inv crc w.fs w.flash ∧ contents w.fs w.flash = S.toContents
  | .off f => S.Fine ∧ Recoverable crc S.toContents f

theorem sound_erased (crc : Block → BitVec 32) : Sound crc .empty (.off erased) :=
  ⟨fine_empty, recoverable_erased crc⟩

section simulation
variable {S : Store} {s t : Sys} {l : Label} {n : Nat}

theorem Sound.recoverable (h : Sound crc S s) : S.Fine ∧ Recoverable crc S.toContents s.flash := by
  cases s with
  | on w =>
    obtain ⟨hS, hi, hc⟩ := h
    exact ⟨hS, hc ▸ hi.recoverable⟩
  | off f => exact h

/-- What `fs_read` looks for. -/
theorem fsRead_pred (name : BitVec 16) {ext : BitVec 8} (hext : ext.toNat < 8) :
    (fun fd : FileDescriptor => fd.header.name == name && fd.header.ext.toNat == ext.toNat) =
      fun fd => fd.header.key == (name, ext.setWidth 3) := by
  funext fd
  rw [Bool.eq_iff_iff]
  simp only [Bool.and_eq_true, beq_iff_eq, BlockHeader.key, Prod.mk.injEq]
  refine and_congr_right fun _ => ⟨fun he => ?_, fun he => ?_⟩
  · apply BitVec.eq_of_toNat_eq
    rw [he, BitVec.toNat_setWidth]
    omega
  · rw [he, BitVec.toNat_setWidth]
    omega

/-- `fs_read` with an extension that fits its bit-field. -/
theorem fsRead_of_ext (w : World) (name : BitVec 16) {ext : BitVec 8} (hext : ext.toNat < 8)
    (len : Nat) : fsRead w name ext len =
      match contents w.fs w.flash (name, ext.setWidth 3) with
      | none => .notFound
      | some d => if len ≤ fsBlockSize - 4 then .found ((List.ofFn d).take len) else .overrun := by
  unfold fsRead contents
  simp only
  rw [fsRead_pred name hext, ← List.find?_eq_getElem?_findIdx]
  cases w.fs.fd.find? fun fd => fd.header.key == (name, ext.setWidth 3) with
  | none => rfl
  | some fd => rfl

/-- No descriptor has an extension that does not fit. -/
theorem fsRead_of_large (w : World) (name : BitVec 16) {ext : BitVec 8} (hext : ¬ ext.toNat < 8)
    (len : Nat) : fsRead w name ext len = .notFound := by
  have hlast : w.fs.fd.findIdx (fun fd : FileDescriptor => fd.header.name == name &&
      fd.header.ext.toNat == ext.toNat) = w.fs.fd.length := by
    rw [List.findIdx_eq_length]
    intro fd _
    have := fd.header.ext.isLt
    simp
    omega
  unfold fsRead
  simp only
  rw [hlast, List.getElem?_eq_none (Nat.le_refl _)]

/-- `fs_read` reads the store. -/
theorem Sound.reads {w : World} (h : Sound crc S (.on w)) : Reads w S := by
  obtain ⟨hS, hi, hc⟩ := h
  intro name ext len hlen
  by_cases hext : ext.toNat < 8
  · rw [fsRead_of_ext w name hext, hc, Store.toContents_of_ext hext]
    cases hd : S name ext with
    | none => rfl
    | some d =>
      show (if len ≤ 28 then ReadResult.found ((List.ofFn (pad d)).take len) else .overrun) = _
      rw [if_pos hlen, ofFn_pad (hS.short _ _ _ hd)]
  · have hnone : S name ext = none := by
      cases hd : S name ext with
      | none => rfl
      | some d => exact absurd (hS.ext name ext (by rw [hd]; rfl)) hext
    rw [fsRead_of_large w name hext, hnone]

/-- The stores that a power cut during the step `l` may leave. -/
def Allowed (S : Store) (l : Label) (M : Contents) : Prop :=
  ∃ S', StoreStep S l S' ∧ S'.Fine ∧ M = S'.toContents

/-- A call returns, keeps the invariant, acts as the store does, and is safe to cut. -/
structure CallSpec (crc : Block → BitVec 32) (S : Store) (w : World) (c : Call) (r : Result)
    (w' : World) : Prop where
  store : ∃ S', StoreStep S (.call c r) S' ∧ Sound crc S' (.on w')
  spared : Spared w.fresh w'
  logged : ∀ e ∈ w'.log, Good crc (Allowed S (.cut c)) e

theorem Keeps.callSpec {w w' : World} (hS : S.Fine) (hi : Inv crc w'.fs w'.flash)
    (hc : Wormvars.contents w.fs w.flash = S.toContents) (hk : Keeps crc w.fresh w') (c : Call) (r : Result)
    (hs : StoreStep S (.call c r) S) (hcut : StoreStep S (.cut c) S) (hsp : Spared w.fresh w') :
    CallSpec crc S w c r w' where
  store := ⟨S, hs, hS, hi, hk.contents.trans hc⟩
  spared := hsp
  logged := by
    intro e he
    rcases hk.logged.mem he with he | he
    · cases he
    · exact he.mono fun M hM => ⟨S, hcut, hS, hM.trans hc⟩

theorem call_spec {w : World} (h : Sound crc S (.on w)) (n : Nat) (c : Call)
    (hext : ∀ p ∈ passed [.cut c], p.2.toNat < 8) (hslot : SlotFor w c) :
    ∃ r w', c.exec crc (n + 2) w.fresh = some (r, w') ∧ CallSpec crc S w c r w' := by
  obtain ⟨hS, hi, hc⟩ := h
  have hi : Inv crc w.fresh.fs w.fresh.flash := hi
  cases c with
  | read name ext len =>
    exact ⟨_, _, rfl, (Keeps.refl w.fresh).callSpec hS hi hc _ _ rfl rfl
      ⟨fun _ hm => Or.inl hm, fun h => Or.inl ⟨h, rfl⟩⟩⟩
  | thread ans =>
    obtain ⟨c, w', he, hw⟩ := fsThread_spec (w := w.fresh) ans false hi n
    obtain ⟨k, -, hm⟩ := hw.moves hi
    obtain ⟨hi', hk⟩ := hm.spec hi
    exact ⟨.ran c, w', exec_of_fsThread he, hk.callSpec hS hi' hc _ _ rfl rfl (hw.spared hi)⟩
  | write name ext data ans =>
    have hext' : ext.toNat < 8 := hext (name, ext) (by simp [passed])
    obtain ⟨⟨r, w'⟩, he, hw⟩ := fsWrite_spec (w := w.fresh) hi ans (n + 1) hslot
    refine ⟨.wrote r, w', exec_of_fsWrite he, ?_⟩
    have hsp := hw.spared hi
    rcases hw.cases hi with ⟨hr, rfl⟩ | ⟨rfl, hlen, -, hw⟩
    · -- refused: nothing but the return
      have hk : Keeps crc w.fresh (w.fresh.returns r).2 := ⟨rfl, rfl, Logged.cons rfl
        (Good.returns (e := ⟨w.fs, w.flash, .returns r⟩) rfl rfl hi.recoverable)⟩
      have hi' : Inv crc (w.fresh.returns r).2.fs (w.fresh.returns r).2.flash := hi
      have hr0 : r ≠ 0 := by omega
      exact hk.callSpec hS hi' hc _ _ (if_neg hr0).symm (Or.inl rfl) hsp
    · have hset : (S.set name ext data).toContents =
          Function.update S.toContents (name, ext.setWidth 3) (some (pad data)) :=
        Store.toContents_set hext'
      have hfine : (S.set name ext data).Fine := hS.set hext' hlen
      refine ⟨⟨S.set name ext data, (if_pos rfl).symm, hfine, hw.inv, ?_⟩, hsp, ?_⟩
      · rw [hset, ← hc]
        exact hw.contents
      · intro e he
        rcases hw.logged.mem he with he | he
        · cases he
        · refine he.mono fun M hM => ?_
          rcases hM with rfl | rfl
          · exact ⟨S, Or.inl rfl, hS, hc⟩
          · refine ⟨_, Or.inr rfl, hfine, ?_⟩
            rw [hset, ← hc]
            rfl

/-- The step `l` when power fails during it. -/
def Label.interrupt : Label → Label
  | .call c _ | .cut c => .cut c
  | .boot | .bootCut => .bootCut

/-- Each operation that a step issues is safe to cut. -/
theorem Sound.good (h : Sound crc S s) (hext : ∀ p ∈ passed [l], p.2.toNat < 8)
    (hslot : SlotFree s l) : ∀ e ∈ issued crc (n + 2) s l, Good crc (Allowed S l.interrupt) e := by
  have hcall : ∀ w c, Sound crc S (.on w) → (∀ p ∈ passed [.cut c], p.2.toNat < 8) →
      SlotFor w c → ∀ e ∈ issued crc (n + 2) (.on w) (.cut c), Good crc (Allowed S (.cut c)) e := by
    intro w c h hext hslot e he
    obtain ⟨r, w', hex, hspec⟩ := call_spec h n c hext hslot
    unfold issued at he
    simp only [hex] at he
    exact hspec.logged e he
  have hboot : ∀ e ∈ (coldBoot crc s.flash).log, Good crc (Allowed S .bootCut) e := by
    intro e he
    obtain ⟨hS, hrec⟩ := h.recoverable
    obtain ⟨curr, -, hb⟩ := hrec.booted
    exact (hb.logged e he).mono fun M hM => ⟨S, rfl, hS, hM⟩
  intro e he
  cases l with
  | call c r =>
    cases s with
    | on w => exact hcall w c h (fun p hp => hext p (by cases c <;> exact hp)) hslot e he
    | off f => cases he
  | cut c =>
    cases s with
    | on w => exact hcall w c h hext hslot e he
    | off f => cases he
  | boot => exact hboot e (by cases s <;> exact he)
  | bootCut => exact hboot e (by cases s <;> exact he)

/-- A step within the limits is a step of the store. -/
theorem Sound.step (h : Sound crc S s) (hg : Guarded crc (n + 2) s l t) :
    ∃ S', StoreStep S l S' ∧ Sound crc S' t := by
  obtain ⟨hst, hext, hslot⟩ := hg
  cases hst with
  | call w c r w' hex =>
    obtain ⟨r', v, hex', hspec⟩ := call_spec h n c (fun p hp => hext p (by cases c <;> exact hp)) hslot
    rw [hex] at hex'
    cases hex'
    exact hspec.store
  | cut w c e f he hcut =>
    obtain ⟨M, ⟨S', hs, hfine, rfl⟩, hrec⟩ := (h.good hext hslot e he).cut f hcut
    exact ⟨S', hs, hfine, hrec⟩
  | boot =>
    obtain ⟨hS, hrec⟩ := h.recoverable
    obtain ⟨curr, -, hb⟩ := hrec.booted
    exact ⟨S, rfl, hS, hb.inv, hb.contents⟩
  | bootCut _ e f he hcut =>
    obtain ⟨M, ⟨S', hs, hfine, rfl⟩, hrec⟩ := (h.good hext hslot e he).cut f hcut
    exact ⟨S', hs, hfine, hrec⟩

/-- A run within the limits is a run of the store. -/
theorem simulates {h : List Label} (hr : Run (Guarded crc (n + 2)) s h t) (h0 : Sound crc S s) :
    ∃ S', Run StoreStep S h S' ∧ Sound crc S' t := by
  refine hr.simulate (R := fun _ => fun s S => Sound crc S s)
    (show SuffixClosed fun _ => True from fun _ _ _ => trivial) trivial h0 ?_
  intro _ _ _ _ _ hS _ hst
  exact hS.step hst

end simulation

/-! ## Within the limits -/

section limits
variable {S S' : Store} {h h' : List Label} {l : Label} {n : Nat}

theorem StoreStep.passed (hs : StoreStep S l S') {name : BitVec 16} {ext : BitVec 8}
    (hsome : (S' name ext).isSome) : (S name ext).isSome ∨ (name, ext) ∈ Wormvars.passed [l] := by
  have hset : ∀ {nm ex d}, (S.set nm ex d name ext).isSome →
      (S name ext).isSome ∨ (name, ext) = (nm, ex) := by
    intro nm ex d hd
    unfold Store.set at hd
    split at hd
    · next he => exact Or.inr (Prod.ext he.1 he.2)
    · exact Or.inl hd
  cases l with
  | boot => exact Or.inl (hs ▸ hsome)
  | bootCut => exact Or.inl (hs ▸ hsome)
  | cut c =>
    cases c with
    | read => exact Or.inl (hs ▸ hsome)
    | thread => exact Or.inl (hs ▸ hsome)
    | write nm ex d ans =>
      rcases hs with rfl | rfl
      · exact Or.inl hsome
      · exact (hset hsome).imp_right fun he => List.mem_singleton.2 he
  | call c r =>
    cases c with
    | read => exact Or.inl (hs ▸ hsome)
    | thread => exact Or.inl (hs ▸ hsome)
    | write nm ex d ans =>
      cases r with
      | read => exact Or.inl (hs ▸ hsome)
      | ran => exact Or.inl (hs ▸ hsome)
      | wrote r =>
        have hs' : S' = if r = 0 then S.set nm ex d else S := hs
        split at hs'
        · rw [hs'] at hsome
          exact (hset hsome).imp_right fun he => List.mem_singleton.2 he
        · exact Or.inl (hs' ▸ hsome)

theorem empty_passed (k : List Label) (name : BitVec 16) (ext : BitVec 8)
    (hsome : (Store.empty name ext).isSome) : (name, ext) ∈ passed k := by cases hsome

/-- A key that counts towards the limits has a descriptor or finds one. -/
theorem Limits.hasSlot {w : World} {name : BitVec 16} {ext : BitVec 8} (hl : Limits h)
    (hm : (name, ext) ∈ passed h) (hs : Sound crc S (.on w))
    (hS : ∀ n e, (S n e).isSome → (n, e) ∈ passed h) : HasSlot w.fs (name, ext.setWidth 3) := by
  obtain ⟨hfine, hi, hc⟩ := hs
  by_cases hk : (name, ext.setWidth 3) ∈ Wormvars.keys w.fs
  · exact Or.inl hk
  · right
    have hsub : ((name, ext.setWidth 3) :: Wormvars.keys w.fs) ⊆
        (passed h).dedup.map fun p => (p.1, p.2.setWidth 3) := by
      intro k hk
      rw [List.mem_map]
      rcases List.mem_cons.1 hk with rfl | hk
      · exact ⟨(name, ext), List.mem_dedup.2 hm, rfl⟩
      · rw [← contents_isSome_iff (f := w.flash), hc] at hk
        refine ⟨(k.1, k.2.setWidth 8), List.mem_dedup.2 (hS _ _ ?_), ?_⟩
        · unfold Store.toContents at hk
          rwa [Option.isSome_map] at hk
        · exact Prod.ext rfl (setWidth_key k.2)
    have hle := ((hi.index.nodup.cons hk).subperm hsub).length_le
    have := hl.keys
    unfold Wormvars.keys at hle
    rw [List.length_cons, List.length_map, List.length_map] at hle
    omega

/-- Within the limits every step finds its descriptor. -/
theorem Limits.slotFree {s : Sys} (hl : Limits (l :: h)) (hs : Sound crc S s)
    (hS : ∀ n e, (S n e).isSome → (n, e) ∈ passed h) : SlotFree s l := by
  have hS' : ∀ n e, (S n e).isSome → (n, e) ∈ passed (l :: h) := by
    intro n e hd
    rw [passed_cons]
    exact List.mem_append_right _ (hS n e hd)
  have hcall : ∀ w c, (∀ name ext data ans, c = .write name ext data ans →
      (name, ext) ∈ passed (l :: h)) → Sound crc S (.on w) → SlotFor w c := by
    intro w c hm hs
    cases c with
    | read => trivial
    | thread => trivial
    | write name ext data ans => exact fun _ _ => hl.hasSlot (hm _ _ _ _ rfl) hs hS'
  cases s with
  | off f => cases l <;> trivial
  | on w =>
    cases l with
    | call c r => exact hcall w c (by rintro _ _ _ _ rfl; exact List.mem_cons_self) hs
    | cut c => exact hcall w c (by rintro _ _ _ _ rfl; exact List.mem_cons_self) hs
    | boot => trivial
    | bootCut => trivial

/-- A run within the limits, from a system that holds `S`. -/
theorem simulates_limits {s t : Sys} {k : List Label} (hr : Run (Step crc (n + 2)) s h t)
    (h0 : Sound crc S s) (hS : ∀ n e, (S n e).isSome → (n, e) ∈ passed k) (hl : Limits (h ++ k)) :
    Run (Guarded crc (n + 2)) s h t ∧ ∃ S', Run StoreStep S h S' ∧ Sound crc S' t ∧
      ∀ n e, (S' n e).isSome → (n, e) ∈ passed (h ++ k) := by
  induction hr with
  | refl => exact ⟨.refl, S, .refl, h0, hS⟩
  | @step h t l u _ hst ih =>
    obtain ⟨hg, T, hT, hsound, hpassed⟩ := ih hl.tail
    have hslot := hl.slotFree hsound hpassed
    have hguard : Guarded crc (n + 2) t l u := by
      refine ⟨hst, fun p hp => hl.ext p ?_, hslot⟩
      rw [List.cons_append, passed_cons]
      exact List.mem_append_left _ hp
    obtain ⟨T', hs, hsound'⟩ := hsound.step hguard
    refine ⟨hg.step hguard, T', hT.step hs, hsound', fun n e hsome => ?_⟩
    rw [List.cons_append, passed_cons, List.mem_append]
    rcases hs.passed hsome with h | h
    · exact Or.inr (hpassed n e h)
    · exact Or.inl h

theorem sound_boot {S : Store} {f : Mem} (h : Sound crc S (.off f)) :
    Sound crc S (.on (coldBoot crc f)) := by
  obtain ⟨hS, hrec⟩ := h
  obtain ⟨curr, -, hb⟩ := hrec.booted
  exact ⟨hS, hb.inv, hb.contents⟩

/-- A run within the limits, from a system that holds nothing. -/
theorem Limits.reaches {s t : Sys} (hl : Limits h) (hr : Run (Step crc (n + 2)) s h t)
    (h0 : Sound crc .empty s) :
    Run (Guarded crc (n + 2)) s h t ∧ ∃ S, Run StoreStep .empty h S ∧ Sound crc S t ∧
      ∀ n e, (S n e).isSome → (n, e) ∈ passed h := by
  have := simulates_limits hr h0 (empty_passed []) (by rwa [List.append_nil])
  rwa [List.append_nil] at this

/-- A call within the limits. -/
theorem Limits.call {w : World} {c : Call} {r : Result} (hl : Limits (.call c r :: h))
    (hs : Sound crc S (.on w)) (hS : ∀ n e, (S n e).isSome → (n, e) ∈ passed h) (n : Nat) :
    ∃ r w', c.exec crc (n + 2) w.fresh = some (r, w') ∧ CallSpec crc S w c r w' := by
  have hslot : SlotFor w c := hl.slotFree hs hS
  exact call_spec hs n c (fun p hp => hl.head p (by cases c <;> exact hp)) hslot

/-- A value in the store is the last one acknowledged, or one whose write was cut short since. -/
theorem stored_last (hr : Run StoreStep .empty h S) (name : BitVec 16) (ext : BitVec 8) :
    S name ext = lastAcked h name ext ∨ ∃ d ∈ interrupted h name ext, S name ext = some d := by
  induction hr with
  | refl => exact Or.inl rfl
  | @step h S l S' _ hs ih =>
    -- the step leaves the key alone
    have hkeep : S' name ext = S name ext → lastAcked (l :: h) name ext = lastAcked h name ext →
        interrupted h name ext ⊆ interrupted (l :: h) name ext →
        S' name ext = lastAcked (l :: h) name ext ∨
          ∃ d ∈ interrupted (l :: h) name ext, S' name ext = some d := by
      intro h₁ h₂ h₃
      rw [h₁, h₂]
      exact ih.imp_right fun ⟨d, hd, he⟩ => ⟨d, h₃ hd, he⟩
    have hsame : S' = S → lastAcked (l :: h) name ext = lastAcked h name ext →
        interrupted (l :: h) name ext = interrupted h name ext →
        S' name ext = lastAcked (l :: h) name ext ∨
          ∃ d ∈ interrupted (l :: h) name ext, S' name ext = some d :=
      fun h₁ h₂ h₃ => hkeep (by rw [h₁]) h₂ (by rw [h₃]; exact fun _ h => h)
    cases l with
    | boot => exact hsame hs rfl rfl
    | bootCut => exact hsame hs rfl rfl
    | cut c =>
      cases c with
      | read => exact hsame hs rfl rfl
      | thread => exact hsame hs rfl rfl
      | write nm ex d ans =>
        have hsub : interrupted h name ext ⊆ interrupted (.cut (.write nm ex d ans) :: h) name ext := by
          intro x hx
          simp only [interrupted]
          split
          · exact List.mem_cons_of_mem _ hx
          · exact hx
        rcases hs with rfl | rfl
        · exact hkeep rfl rfl hsub
        · by_cases hk : name = nm ∧ ext = ex
          · refine Or.inr ⟨d, ?_, if_pos hk⟩
            simp only [interrupted]
            rw [if_pos hk]
            exact List.mem_cons_self
          · exact hkeep (if_neg hk) rfl hsub
    | call c r =>
      cases c with
      | read => exact hsame hs rfl rfl
      | thread => exact hsame hs rfl rfl
      | write nm ex d ans =>
        cases r with
        | read => exact hsame hs rfl rfl
        | ran => exact hsame hs rfl rfl
        | wrote r =>
          have hs' : S' = if r = 0 then S.set nm ex d else S := hs
          by_cases hk : r = 0 ∧ name = nm ∧ ext = ex
          · left
            rw [hs', if_pos hk.1]
            exact (if_pos hk.2).trans (if_pos hk).symm
          · refine hkeep ?_ (if_neg hk) (by rw [interrupted, if_neg hk]; exact fun _ h => h)
            rw [hs']
            split
            · next h0 => exact if_neg fun h => hk ⟨h0, h⟩
            · rfl

end limits

end Wormvars
