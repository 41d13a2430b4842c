import Wormvars.Append

/-!
# The walk of `fs_init` over the cells

`initFileDescriptors` looks at one cell after the other and elects one copy per
key.  `Walk crc f₀ seen w`: started on the flash `f₀`, whatever it holds, the walk
has looked at the cells `seen` and left the world `w`: the descriptors are the
elected copies, the copies passed over are dropped, and the cells not seen are as
they were.  `Walk.invalid`, `Walk.found` and `Walk.push` are the three ways to look
at one more cell.
-/

namespace Wormvars

open NorFlash NewerLog

variable {crc : Block → BitVec 32}

/-! ## Two copies of one key -/

theorem newer_eq_false (n : BitVec 1) : (n == fsBlockNewer) = false ↔ n = fsBlockCurrent := by
  revert n
  decide

section resolve
variable {w : World} {i : Nat} {fd : FileDescriptor} {s : Fin 8} {a : Nat} {g : BlockHeader}

theorem resolveDuplicate_newer (hi : i < w.fs.fd.length)
    (hc : fd.header.newer = fsBlockCurrent ∧ g.newer = fsBlockNewer) :
    ∃ fs, resolveDuplicate w i fd s a g = ⟨{ w.fs with fd := putFd w.fs.fd i ⟨a, g, s⟩ },
      program w.flash fd.address { fd.header with size := fsSizeInvalid }.toBytes,
      ⟨fs, w.flash, .program fd.address { fd.header with size := fsSizeInvalid }.toBytes⟩ ::
        w.log⟩ := by
  refine ⟨(w.setFd i { fd with header := { fd.header with size := fsSizeInvalid } }).fs, ?_⟩
  unfold resolveDuplicate putFd
  rw [if_pos hc, if_neg (by omega)]
  simp only [World.setFd, World.flashWrite, List.set_set]

theorem resolveDuplicate_older
    (hc : ¬ (fd.header.newer = fsBlockCurrent ∧ g.newer = fsBlockNewer)) :
    resolveDuplicate w i fd s a g = w.flashWrite a { g with size := fsSizeInvalid }.toBytes := by
  unfold resolveDuplicate
  rw [if_neg hc]
  split <;> rfl

theorem resolveDuplicate_curr : (resolveDuplicate w i fd s a g).fs.curr = w.fs.curr := by
  unfold resolveDuplicate
  split
  · rfl
  · split <;> rfl

theorem resolveDuplicate_descriptors (w : World) (i : Nat) (fd : FileDescriptor) (s : Fin 8)
    (a : Nat) (h : BlockHeader) : (resolveDuplicate w i fd s a h).fs.fd.length = w.fs.fd.length := by
  unfold resolveDuplicate
  split
  · simp [World.setFd, World.flashWrite]
  · split <;> rfl

end resolve

/-! ## The walk -/

structure Walk (crc : Block → BitVec 32) (f₀ : Mem) (seen : List Nat) (w : World) : Prop where
  dropped : copies crc w.flash = survivors (copies crc f₀) seen
  unseen : ∀ a, IsCell a → a ∉ seen → flashRead w.flash a = flashRead f₀ a
  header : ∀ fd ∈ w.fs.fd, (flashRead w.flash fd.address).header = fd.header
  elected : ∀ fd ∈ w.fs.fd, elect (copies crc f₀) fd.header.key seen = some fd.address
  sector : ∀ fd ∈ w.fs.fd, InSector fd.sector fd.address
  complete : ∀ k a, elect (copies crc f₀) k seen = some a →
    ∃ fd ∈ w.fs.fd, fd.header.key = k
  nodup : (keys w.fs).Nodup

/-- The copy at `x` is invalidated: all that `w'` has on flash and log more than `w`, and what the
walk drops when it has seen `l`. -/
structure Dropped (crc : Block → BitVec 32) (f₀ : Mem) (l : List Nat) (x : Nat) (w w' : World) :
    Prop where
  copy : ∃ c, copies crc w.flash x = some c
  flash : w'.flash = program w.flash x
    { (flashRead w.flash x).header with size := fsSizeInvalid }.toBytes
  log : ∃ fs, w'.log = ⟨fs, w.flash, .program x
    { (flashRead w.flash x).header with size := fsSizeInvalid }.toBytes⟩ :: w.log
  survivors : survivors (copies crc f₀) l = Function.update (copies crc w.flash) x none

namespace Dropped
variable {f₀ : Mem} {l : List Nat} {x : Nat} {w w' : World}

theorem isCell (h : Dropped crc f₀ l x w w') : IsCell x := by
  obtain ⟨c, hc⟩ := h.copy
  exact (copies_some_iff.1 hc).1.1

theorem rewrite (w : World) (x : Nat) :
    Rewrite (flashRead w.flash x).header { (flashRead w.flash x).header with size := fsSizeInvalid }
      { (flashRead w.flash x).header with size := fsSizeInvalid }.toBytes :=
  ⟨Or.inr rfl, Or.inl rfl⟩

theorem other (h : Dropped crc f₀ l x w w') {b : Nat} (hb : IsCell b) (hne : b ≠ x) :
    flashRead w'.flash b = flashRead w.flash b := by
  rw [h.flash]
  exact ((rewrite w x).rewritten rfl h.isCell).other b hb hne

theorem copies (h : Dropped crc f₀ l x w w') :
    Wormvars.copies crc w'.flash = NewerLog.survivors (Wormvars.copies crc f₀) l := by
  rw [h.flash, copies_clear_size crc h.isCell rfl, h.survivors]

end Dropped

theorem not_seen {seen : List Nat} {a b : Nat} (hb : b ∉ seen ++ [a]) : b ∉ seen ∧ b ≠ a := by
  simpa only [List.mem_append, List.mem_singleton, not_or] using hb

namespace Walk
variable {f₀ : Mem} {seen : List Nat} {w : World}

theorem congr (h : Walk crc f₀ seen w) {w' : World} (hfd : w'.fs.fd = w.fs.fd)
    (hf : w'.flash = w.flash) : Walk crc f₀ seen w' := by
  obtain ⟨h₁, h₂, h₃, h₄, h₅, h₆, h₇⟩ := h
  unfold keys at h₇
  constructor
  · rwa [hf]
  · rwa [hf]
  · rwa [hfd, hf]
  · rwa [hfd]
  · rwa [hfd]
  · rwa [hfd]
  · unfold keys
    rwa [hfd]

theorem start (hfd : w.fs.fd = []) : Walk crc w.flash [] w := by
  have hno : ∀ fd, fd ∉ w.fs.fd := by simp [hfd]
  refine ⟨(survivors_nil _).symm, fun _ _ _ => rfl, ?_, ?_, ?_, ?_, ?_⟩
  · exact fun fd hm => absurd hm (hno fd)
  · exact fun fd hm => absurd hm (hno fd)
  · exact fun fd hm => absurd hm (hno fd)
  · intro k a ha
    cases ha
  · simp [keys, hfd]

/-- The copy behind a descriptor. -/
theorem copy (h : Walk crc f₀ seen w) {fd : FileDescriptor} (hm : fd ∈ w.fs.fd) :
    IsCell fd.address ∧ fd.address ∈ seen ∧
      copies crc w.flash fd.address = some ⟨fd.header.key, fd.header.newer == fsBlockNewer,
        (flashRead w.flash fd.address).data⟩ ∧
      copies crc f₀ fd.address = copies crc w.flash fd.address := by
  obtain ⟨hin, c, hc, hk⟩ := elect_some (h.elected fd hm)
  have hcw : copies crc w.flash fd.address = some c := by
    rw [h.dropped, survivors_some, hk]
    exact ⟨hc, fun _ => h.elected fd hm⟩
  obtain ⟨⟨hcell, hacc⟩, -⟩ := copies_some_iff.1 hcw
  refine ⟨hcell, hin, ?_, hc.trans hcw.symm⟩
  rw [copies_eq_some hcell hacc, h.header fd hm]

/-- A copy that has not been looked at is as it was. -/
theorem copy_unseen (h : Walk crc f₀ seen w) {a : Nat} (hc : IsCell a) (ha : a ∉ seen)
    (hacc : Accepted crc (flashRead w.flash a)) :
    copies crc f₀ a = some ⟨(flashRead w.flash a).header.key,
      (flashRead w.flash a).header.newer == fsBlockNewer, (flashRead w.flash a).data⟩ := by
  rw [copies_congr (h.unseen a hc ha).symm, copies_eq_some hc hacc]

/-- A cell that holds no copy. -/
theorem invalid (h : Walk crc f₀ seen w) {a : Nat} (hc : IsCell a) (ha : a ∉ seen)
    (hno : ¬ Accepted crc (flashRead w.flash a)) : Walk crc f₀ (seen ++ [a]) w := by
  rw [h.unseen a hc ha] at hno
  have hnone : copies crc f₀ a = none := copies_eq_none hno
  refine ⟨?_, ?_, h.header, ?_, h.sector, ?_, h.nodup⟩
  · rw [h.dropped, survivors_snoc_none hnone]
  · intro b hb hbs
    exact h.unseen b hb fun hm => hbs (List.mem_append_left _ hm)
  · intro fd hm
    rw [elect_snoc_none hnone]
    exact h.elected fd hm
  · intro k b hb
    rw [elect_snoc_none hnone] at hb
    exact h.complete k b hb

/-- The first copy of a key: nothing is elected for it yet. -/
theorem elect_none (h : Walk crc f₀ seen w) {k : Key}
    (hno : ∀ fd ∈ w.fs.fd, fd.header.key ≠ k) : elect (copies crc f₀) k seen = none := by
  cases he : elect (copies crc f₀) k seen with
  | none => rfl
  | some b =>
    obtain ⟨fd, hm, hk⟩ := h.complete _ b he
    exact absurd hk (hno fd hm)

theorem nodup_push (h : Walk crc f₀ seen w) {k : Key}
    (hno : ∀ fd ∈ w.fs.fd, fd.header.key ≠ k) : (keys w.fs ++ [k]).Nodup := by
  have hkey : k ∉ keys w.fs := by
    intro hm
    obtain ⟨fd, hm, hk⟩ := List.mem_map.1 hm
    exact hno fd hm hk
  refine List.nodup_append.2 ⟨h.nodup, List.nodup_singleton _, ?_⟩
  rintro x hx _ hx' rfl
  rw [List.mem_singleton] at hx'
  exact hkey (hx' ▸ hx)

/-- The first copy of a key takes a new descriptor. -/
theorem push (h : Walk crc f₀ seen w) {a : Nat} {s : Fin 8} (hs : InSector s a) (ha : a ∉ seen)
    (hc : IsCell a) (hacc : Accepted crc (flashRead w.flash a))
    (hno : ∀ fd ∈ w.fs.fd, fd.header.key ≠ (flashRead w.flash a).header.key) :
    Walk crc f₀ (seen ++ [a]) (w.pushFd ⟨a, (flashRead w.flash a).header, s⟩) := by
  have hcopy := h.copy_unseen hc ha hacc
  have hnone := h.elect_none hno
  have hfirst := elect_snoc_first hcopy hnone
  have hmem : ∀ fd, fd ∈ (w.pushFd ⟨a, (flashRead w.flash a).header, s⟩).fs.fd →
      fd ∈ w.fs.fd ∨ fd = ⟨a, (flashRead w.flash a).header, s⟩ := by
    intro fd hm
    rcases List.mem_append.1 hm with hm | hm
    · exact Or.inl hm
    · exact Or.inr (List.mem_singleton.1 hm)
  refine ⟨?_, ?_, ?_, ?_, ?_, ?_, ?_⟩
  · show copies crc w.flash = _
    rw [h.dropped, survivors_snoc_first hcopy hnone]
  · intro b hb hbs
    exact h.unseen b hb fun hm => hbs (List.mem_append_left _ hm)
  · intro fd hm
    rcases hmem fd hm with hm | rfl
    · exact h.header fd hm
    · rfl
  · intro fd hm
    rcases hmem fd hm with hm | rfl
    · rw [elect_snoc_ne hcopy (Ne.symm (hno fd hm))]
      exact h.elected fd hm
    · exact hfirst
  · intro fd hm
    rcases hmem fd hm with hm | rfl
    · exact h.sector fd hm
    · exact hs
  · intro k b hb
    by_cases hk : (flashRead w.flash a).header.key = k
    · exact ⟨⟨a, (flashRead w.flash a).header, s⟩, List.mem_append_right _ (by simp), hk⟩
    · rw [elect_snoc_ne hcopy hk] at hb
      obtain ⟨fd, hm, hkf⟩ := h.complete k b hb
      exact ⟨fd, List.mem_append_left _ hm, hkf⟩
  · show (List.map (fun fd : FileDescriptor => fd.header.key) (w.fs.fd ++ [_])).Nodup
    rw [List.map_append]
    exact h.nodup_push hno

/-- A cell of a key that has a descriptor holds the second copy of it. -/
theorem duplicate (h : Walk crc f₀ seen w) {a : Nat} (ha : a ∉ seen) (hc : IsCell a)
    (hacc : Accepted crc (flashRead w.flash a)) {fd : FileDescriptor} (hm : fd ∈ w.fs.fd)
    (hk : fd.header.key = (flashRead w.flash a).header.key) :
    fd.address ≠ a ∧ ¬ Single (copies crc f₀) ∧
      elect (copies crc f₀) (flashRead w.flash a).header.key seen = some fd.address := by
  obtain ⟨-, hin, hcw, hcf⟩ := h.copy hm
  have hne : fd.address ≠ a := fun he => ha (he ▸ hin)
  refine ⟨hne, fun hsingle => ?_, hk ▸ h.elected fd hm⟩
  exact hne (hsingle _ _ _ _ (hcf.trans hcw) (h.copy_unseen hc ha hacc) hk)

section found
variable {a : Nat} {s : Fin 8} {i : Nat} {fd : FileDescriptor}

/-- The new copy replaces the former one. -/
theorem found_newer (h : Walk crc f₀ seen w) (hs : InSector s a) (ha : a ∉ seen) (hc : IsCell a)
    (hacc : Accepted crc (flashRead w.flash a)) (hg : w.fs.fd[i]? = some fd)
    (hk : fd.header.key = (flashRead w.flash a).header.key)
    (hcase : fd.header.newer = fsBlockCurrent ∧
      (flashRead w.flash a).header.newer = fsBlockNewer) :
    Walk crc f₀ (seen ++ [a]) (resolveDuplicate w i fd s a (flashRead w.flash a).header) ∧
      Dropped crc f₀ (seen ++ [a]) fd.address w
        (resolveDuplicate w i fd s a (flashRead w.flash a).header) := by
  have hm := List.mem_of_getElem? hg
  obtain ⟨hne, -, helect⟩ := h.duplicate ha hc hacc hm hk
  have hcopy := h.copy_unseen hc ha hacc
  obtain ⟨hcell, hin, hcw, hcf⟩ := h.copy hm
  have hnext := elect_snoc_some hcopy helect (hcf.trans hcw)
  have hsurv := survivors_snoc_some hcopy ha helect (hcf.trans hcw)
  rw [← h.dropped] at hsurv
  rw [if_pos (by rw [newer_eq_false]; exact ⟨hcase.1, by rw [hcase.2]; rfl⟩)] at hnext hsurv
  obtain ⟨fs, he⟩ := resolveDuplicate_newer (s := s) (a := a)
    (List.getElem?_eq_some_iff.1 hg).1 hcase
  have hdrop : Dropped crc f₀ (seen ++ [a]) fd.address w
      (resolveDuplicate w i fd s a (flashRead w.flash a).header) := by
    rw [he]
    refine ⟨⟨_, hcw⟩, ?_, ⟨fs, ?_⟩, hsurv⟩
    · rw [h.header fd hm]
    · rw [h.header fd hm]
  have hslot : IsSlot w.fs.fd (flashRead w.flash a).header.key i := Or.inl ⟨fd, hg, hk⟩
  have hfd : (resolveDuplicate w i fd s a (flashRead w.flash a).header).fs.fd =
      putFd w.fs.fd i ⟨a, (flashRead w.flash a).header, s⟩ := by
    rw [he]
  have hmem : ∀ x, x ∈ (resolveDuplicate w i fd s a (flashRead w.flash a).header).fs.fd ↔
      x = ⟨a, (flashRead w.flash a).header, s⟩ ∨
        (x ∈ w.fs.fd ∧ x.header.key ≠ (flashRead w.flash a).header.key) :=
    fun x => by rw [hfd]; exact mem_putFd h.nodup hslot
  have hkeys : keys (resolveDuplicate w i fd s a (flashRead w.flash a).header).fs =
      keys w.fs := by
    have hslot' : IsSlot w.fs.fd
      (FileDescriptor.mk a (flashRead w.flash a).header s).header.key i := hslot
    unfold keys
    rw [hfd, map_key_putFd hslot']
    exact if_pos (List.mem_map.2 ⟨fd, hm, hk⟩)
  have hother : ∀ x ∈ w.fs.fd, x.header.key ≠ (flashRead w.flash a).header.key →
      x.address ≠ fd.address := by
    intro x hx hxk hxa
    have h₁ := (h.copy hx).2.2.1
    rw [hxa, hcw] at h₁
    exact hxk ((congrArg Copy.key (Option.some.inj h₁)).symm.trans hk)
  refine ⟨⟨hdrop.copies, ?_, ?_, ?_, ?_, ?_, ?_⟩, hdrop⟩
  · intro b hb hbs
    obtain ⟨h₁, -⟩ := not_seen hbs
    exact (hdrop.other hb fun he => h₁ (he ▸ hin)).trans (h.unseen b hb h₁)
  · intro x hx
    rcases (hmem x).1 hx with rfl | ⟨hx, hxk⟩
    · exact congrArg Block.header (hdrop.other hc (Ne.symm hne))
    · exact (congrArg Block.header (hdrop.other (h.copy hx).1 (hother x hx hxk))).trans
        (h.header x hx)
  · intro x hx
    rcases (hmem x).1 hx with rfl | ⟨hx, hxk⟩
    · exact hnext
    · rw [elect_snoc_ne hcopy (Ne.symm hxk)]
      exact h.elected x hx
  · intro x hx
    rcases (hmem x).1 hx with rfl | ⟨hx, -⟩
    · exact hs
    · exact h.sector x hx
  · intro k b hb
    by_cases hkk : (flashRead w.flash a).header.key = k
    · exact ⟨_, (hmem _).2 (Or.inl rfl), hkk⟩
    · rw [elect_snoc_ne hcopy hkk] at hb
      obtain ⟨x, hx, hxk⟩ := h.complete k b hb
      exact ⟨x, (hmem x).2 (Or.inr ⟨hx, fun h' => hkk (h'.symm.trans hxk)⟩), hxk⟩
  · rw [hkeys]
    exact h.nodup

/-- The copy just met is invalidated. -/
theorem found_older (h : Walk crc f₀ seen w) (ha : a ∉ seen) (hc : IsCell a)
    (hacc : Accepted crc (flashRead w.flash a)) (hm : fd ∈ w.fs.fd)
    (hk : fd.header.key = (flashRead w.flash a).header.key)
    (hcase : ¬ (fd.header.newer = fsBlockCurrent ∧
      (flashRead w.flash a).header.newer = fsBlockNewer)) :
    Walk crc f₀ (seen ++ [a]) (resolveDuplicate w i fd s a (flashRead w.flash a).header) ∧
      Dropped crc f₀ (seen ++ [a]) a w
        (resolveDuplicate w i fd s a (flashRead w.flash a).header) := by
  obtain ⟨hne, -, helect⟩ := h.duplicate ha hc hacc hm hk
  have hcopy := h.copy_unseen hc ha hacc
  obtain ⟨hcell, hin, hcw, hcf⟩ := h.copy hm
  have hnext := elect_snoc_some hcopy helect (hcf.trans hcw)
  have hsurv := survivors_snoc_some hcopy ha helect (hcf.trans hcw)
  rw [← h.dropped] at hsurv
  have hflag : ¬ ((fd.header.newer == fsBlockNewer) = false ∧
      ((flashRead w.flash a).header.newer == fsBlockNewer) = true) := by
    rw [newer_eq_false, beq_iff_eq]
    exact hcase
  rw [if_neg hflag] at hnext hsurv
  rw [resolveDuplicate_older hcase]
  have hdrop : Dropped crc f₀ (seen ++ [a]) a w
      (w.flashWrite a { (flashRead w.flash a).header with size := fsSizeInvalid }.toBytes) :=
    ⟨⟨_, copies_eq_some hc hacc⟩, rfl, ⟨w.fs, rfl⟩, hsurv⟩
  refine ⟨⟨hdrop.copies, ?_, ?_, ?_, h.sector, ?_, h.nodup⟩, hdrop⟩
  · intro b hb hbs
    obtain ⟨h₁, h₂⟩ := not_seen hbs
    exact (hdrop.other hb h₂).trans (h.unseen b hb h₁)
  · intro x hx
    have hxa : x.address ≠ a := fun he => ha (he ▸ (h.copy hx).2.1)
    exact (congrArg Block.header (hdrop.other (h.copy hx).1 hxa)).trans (h.header x hx)
  · intro x hx
    by_cases hxk : (flashRead w.flash a).header.key = x.header.key
    · have hxe : x = fd := eq_of_key h.nodup hx hm (hxk.symm.trans hk.symm)
      subst hxe
      rw [← hxk]
      exact hnext
    · rw [elect_snoc_ne hcopy hxk]
      exact h.elected x hx
  · intro k b hb
    by_cases hkk : (flashRead w.flash a).header.key = k
    · exact ⟨fd, hm, hk.trans hkk⟩
    · rw [elect_snoc_ne hcopy hkk] at hb
      exact h.complete k b hb

/-- A copy of a key that has a descriptor: one of the two is dropped. -/
theorem found (h : Walk crc f₀ seen w) (hs : InSector s a) (ha : a ∉ seen) (hc : IsCell a)
    (hacc : Accepted crc (flashRead w.flash a)) (hg : w.fs.fd[i]? = some fd)
    (hk : fd.header.key = (flashRead w.flash a).header.key) :
    Walk crc f₀ (seen ++ [a]) (resolveDuplicate w i fd s a (flashRead w.flash a).header) ∧
      ∃ x, Dropped crc f₀ (seen ++ [a]) x w
        (resolveDuplicate w i fd s a (flashRead w.flash a).header) := by
  by_cases hcase : fd.header.newer = fsBlockCurrent ∧
      (flashRead w.flash a).header.newer = fsBlockNewer
  · obtain ⟨h₁, h₂⟩ := h.found_newer hs ha hc hacc hg hk hcase
    exact ⟨h₁, _, h₂⟩
  · obtain ⟨h₁, h₂⟩ := h.found_older (i := i) (s := s) ha hc hacc (List.mem_of_getElem? hg) hk hcase
    exact ⟨h₁, _, h₂⟩

end found

end Walk

end Wormvars
