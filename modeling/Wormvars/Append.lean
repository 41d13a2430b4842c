import Wormvars.Invariant

/-!
# Appending a block

`appendBlock` is `fs_write` from the point where the current sector is known to
have room.  Its flash operations are, in terms of the log of copies: clear the
flag of the old copy (`clearNewer_spec`), put a flagged copy at the append
pointer (`good_programBlock`), drop the old copy, clear the flag of the new one.

`appendBlock_spec` says what a whole call does: the invariant is kept, the
contents change at the key that is written and nowhere else, and every operation
on the way is `Good` for the map before and the map after.
-/

namespace Wormvars

open NorFlash NewerLog

variable {crc : Block → BitVec 32}

/-! ## The descriptor table -/

/-- Slot `i` of the table, or the slot behind its end, is set to `fd`. -/
def putFd (l : List FileDescriptor) (i : Nat) (fd : FileDescriptor) : List FileDescriptor :=
  if i = l.length then l ++ [fd] else l.set i fd

theorem getElem?_putFd {l : List FileDescriptor} {i : Nat} (hi : i ≤ l.length)
    (fd : FileDescriptor) (j : Nat) :
    (putFd l i fd)[j]? = if j = i then some fd else l[j]? := by
  unfold putFd
  split
  · next h =>
    subst h
    split
    · next h => subst h; simp
    · next h =>
      rcases Nat.lt_or_ge j l.length with hj | hj
      · rw [List.getElem?_append_left hj]
      · rw [List.getElem?_eq_none (by simp; omega), List.getElem?_eq_none hj]
  · next h =>
    rw [List.getElem?_set]
    split
    · next h' => subst h'; rw [if_pos (by omega), if_pos rfl]
    · next h' => rw [if_neg (Ne.symm h')]

/-- `i` is the slot of key `k`: the one that has it, or else the free one. -/
def IsSlot (l : List FileDescriptor) (k : Key) (i : Nat) : Prop :=
  (∃ fd, l[i]? = some fd ∧ fd.header.key = k) ∨ (i = l.length ∧ ∀ fd ∈ l, fd.header.key ≠ k)

theorem isSlot_findFd (l : List FileDescriptor) (h : BlockHeader) :
    IsSlot l h.key (findFd l h) := by
  have hp : ∀ fd : FileDescriptor,
      (fd.header.name == h.name && fd.header.ext == h.ext) = true ↔ fd.header.key = h.key := by
    intro fd
    simp [BlockHeader.key]
  unfold findFd
  rcases Nat.lt_or_ge (l.findIdx fun fd => fd.header.name == h.name && fd.header.ext == h.ext)
    l.length with hlt | hge
  · left
    exact ⟨_, List.getElem?_eq_getElem hlt, (hp _).1 (List.findIdx_getElem (w := hlt))⟩
  · right
    have he := Nat.le_antisymm List.findIdx_le_length hge
    refine ⟨he, fun fd hm hk => ?_⟩
    have := List.findIdx_eq_length.1 he fd hm
    rw [(hp fd).2 hk] at this
    cases this

theorem IsSlot.le {l : List FileDescriptor} {k : Key} {i : Nat} (h : IsSlot l k i) :
    i ≤ l.length := by
  rcases h with ⟨fd, hg, -⟩ | ⟨rfl, -⟩
  · exact Nat.le_of_lt (List.getElem?_eq_some_iff.1 hg).1
  · exact Nat.le_refl _

/-- The keys after slot `i` has taken a descriptor of key `k`. -/
theorem map_key_putFd {l : List FileDescriptor} {new : FileDescriptor} {i : Nat}
    (h : IsSlot l new.header.key i) :
    (putFd l i new).map (fun fd => fd.header.key) =
      if new.header.key ∈ l.map (fun fd => fd.header.key) then l.map fun fd => fd.header.key
      else l.map (fun fd => fd.header.key) ++ [new.header.key] := by
  rcases h with ⟨fd, hg, hk⟩ | ⟨rfl, hno⟩
  · obtain ⟨hlt, rfl⟩ := List.getElem?_eq_some_iff.1 hg
    rw [if_pos (List.mem_map.2 ⟨_, List.getElem_mem hlt, hk⟩)]
    unfold putFd
    rw [if_neg (by omega), List.map_set, ← hk]
    apply List.ext_getElem? fun j => ?_
    rw [List.getElem?_set]
    split
    · next hj =>
      subst hj
      rw [List.length_map, if_pos hlt, List.getElem?_map, hg]
      rfl
    · rfl
  · rw [if_neg]
    · unfold putFd
      rw [if_pos rfl, List.map_append]
      rfl
    · intro hm
      obtain ⟨fd, hm, hk⟩ := List.mem_map.1 hm
      exact hno fd hm hk

theorem mem_putFd {l : List FileDescriptor} {new fd : FileDescriptor} {i : Nat}
    (hnd : (l.map fun fd => fd.header.key).Nodup) (h : IsSlot l new.header.key i) :
    fd ∈ putFd l i new ↔ fd = new ∨ (fd ∈ l ∧ fd.header.key ≠ new.header.key) := by
  rw [List.mem_iff_getElem?]
  constructor
  · rintro ⟨j, hj⟩
    rw [getElem?_putFd h.le] at hj
    split at hj
    · exact Or.inl (Option.some.inj hj).symm
    · next hji =>
      right
      have hm := List.mem_of_getElem? hj
      refine ⟨hm, fun hk => ?_⟩
      rcases h with ⟨old, hg, hk'⟩ | ⟨rfl, hno⟩
      · obtain ⟨h₁, e₁⟩ := List.getElem?_eq_some_iff.1 hj
        obtain ⟨h₂, e₂⟩ := List.getElem?_eq_some_iff.1 hg
        have h₃ : j < (l.map fun fd => fd.header.key).length := by rwa [List.length_map]
        have h₄ : i < (l.map fun fd => fd.header.key).length := by rwa [List.length_map]
        have he : (l.map fun fd => fd.header.key)[j] = (l.map fun fd => fd.header.key)[i] := by
          rw [List.getElem_map, List.getElem_map, e₁, e₂, hk, hk']
        exact hji (hnd.getElem_inj_iff.1 he)
      · exact hno fd hm hk
  · rintro (rfl | ⟨hm, hk⟩)
    · exact ⟨i, by rw [getElem?_putFd h.le, if_pos rfl]⟩
    · obtain ⟨j, hj⟩ := List.mem_iff_getElem?.1 hm
      refine ⟨j, ?_⟩
      rw [getElem?_putFd h.le, if_neg, hj]
      rintro rfl
      rcases h with ⟨old, hg, hk'⟩ | ⟨rfl, hno⟩
      · rw [hj] at hg
        cases hg
        exact hk hk'
      · rw [List.getElem?_eq_none (Nat.le_refl _)] at hj
        cases hj

/-- The index after slot `i` has taken the descriptor of a new valid cell and the old cell of
the key, if any, has been dropped. -/
theorem Indexed.put {fs fs' : Fs} {f f' : Mem} {i : Nat} {new : FileDescriptor}
    (hx : Indexed crc fs f) (hslot : IsSlot fs.fd new.header.key i) (hi : i < fdMax)
    (hfd : fs'.fd = putFd fs.fd i new) (hc : IsCell new.address)
    (hs : InSector new.sector new.address) (hh : (flashRead f' new.address).header = new.header)
    (ha : Accepted crc (flashRead f' new.address))
    (hsame : ∀ fd ∈ fs.fd, fd.header.key ≠ new.header.key →
      flashRead f' fd.address = flashRead f fd.address)
    (hcopies : ∀ a c, copies crc f' a = some c → a ≠ new.address →
      copies crc f a = some c ∧ c.key ≠ new.header.key) :
    Indexed crc fs' f' := by
  have hmem : ∀ fd, fd ∈ fs'.fd ↔ fd = new ∨ (fd ∈ fs.fd ∧ fd.header.key ≠ new.header.key) :=
    fun fd => by rw [hfd]; exact mem_putFd hx.nodup hslot
  have hkeys := map_key_putFd hslot
  rw [← hfd] at hkeys
  constructor
  · have hl := congrArg List.length hkeys
    rw [List.length_map] at hl
    have := hx.len
    split at hl
    · rw [List.length_map] at hl; omega
    · rw [List.length_append, List.length_map] at hl
      rcases hslot with ⟨fd, hg, hk⟩ | ⟨rfl, -⟩
      · next hno =>
        exact absurd (List.mem_map.2 ⟨fd, List.mem_of_getElem? hg, hk⟩) hno
      · simp only [List.length_singleton] at hl; omega
  · show (fs'.fd.map fun fd => fd.header.key).Nodup
    rw [hkeys]
    split
    · exact hx.nodup
    · next hno => exact List.nodup_append.2 ⟨hx.nodup, List.nodup_singleton _, by
        rintro k hk _ hk' rfl
        rw [List.mem_singleton] at hk'
        exact hno (hk' ▸ hk)⟩
  · intro fd hm
    rcases (hmem fd).1 hm with rfl | ⟨hm, -⟩
    · exact hc
    · exact hx.cell fd hm
  · intro fd hm
    rcases (hmem fd).1 hm with rfl | ⟨hm, -⟩
    · exact hs
    · exact hx.sector fd hm
  · intro fd hm
    rcases (hmem fd).1 hm with rfl | ⟨hm, hk⟩
    · exact hh
    · rw [hsame fd hm hk]; exact hx.header fd hm
  · intro fd hm
    rcases (hmem fd).1 hm with rfl | ⟨hm, hk⟩
    · exact ha
    · rw [hsame fd hm hk]; exact hx.accepted fd hm
  · intro a c hac
    by_cases hn : a = new.address
    · exact ⟨new, (hmem new).2 (Or.inl rfl), hn.symm⟩
    · obtain ⟨hac, hk⟩ := hcopies a c hac hn
      obtain ⟨fd, hm, hfa, hfk, -⟩ := hx.copy_fd hac
      exact ⟨fd, (hmem fd).2 (Or.inr ⟨hm, hfk ▸ hk⟩), hfa⟩

/-! ## What a write does to the RAM state -/

/-- `fs'` is `fs` but for what slot `i` holds. -/
structure SameButSlot (i : Nat) (fs fs' : Fs) : Prop where
  fd : ∀ new, putFd fs'.fd i new = putFd fs.fd i new
  len : fs'.fd.length = fs.fd.length
  curr : fs'.curr = fs.curr
  reloc : fs'.reloc = fs.reloc
  pt : fs'.pt = fs.pt

theorem putFd_set {l : List FileDescriptor} {i : Nat} (hi : i < l.length)
    (old new : FileDescriptor) : putFd (l.set i old) i new = putFd l i new := by
  unfold putFd
  rw [List.length_set, if_neg (by omega), if_neg (by omega), List.set_set]

theorem sameButSlot_setFd {w : World} {i : Nat} (hi : i < w.fs.fd.length) (fd : FileDescriptor) :
    SameButSlot i w.fs (w.setFd i fd).fs :=
  ⟨putFd_set hi fd, by simp [World.setFd], rfl, rfl, rfl⟩

theorem SameButSlot.refl (i : Nat) (fs : Fs) : SameButSlot i fs fs :=
  ⟨fun _ => rfl, rfl, rfl, rfl, rfl⟩

theorem SameButSlot.trans {i : Nat} {fs fs' fs'' : Fs} (h : SameButSlot i fs fs')
    (h' : SameButSlot i fs' fs'') : SameButSlot i fs fs'' :=
  ⟨fun new => (h'.fd new).trans (h.fd new), h'.len.trans h.len, h'.curr.trans h.curr,
    h'.reloc.trans h.reloc, h'.pt.trans h.pt⟩

/-- An operation that is no failing `return`. -/
def Event.Succeeds (e : Event) : Prop := ∀ r, e.op = .returns r → 0 ≤ r

theorem Event.succeeds_program (fs : Fs) (f : Mem) (a : Nat) (bs : List Byte) :
    Event.Succeeds ⟨fs, f, .program a bs⟩ := fun _ h => by cases h

theorem clearNewer_fs (w : World) (i : Nat) :
    SameButSlot i w.fs (clearNewer w i).fs ∧ Logged Event.Succeeds w (clearNewer w i) := by
  unfold clearNewer
  split
  · next fd hg =>
    split
    · exact ⟨sameButSlot_setFd (List.getElem?_eq_some_iff.1 hg).1 _,
        Logged.cons rfl (Event.succeeds_program _ _ _ _)⟩
    · exact ⟨SameButSlot.refl i _, Logged.refl _ _⟩
  · exact ⟨SameButSlot.refl i _, Logged.refl _ _⟩

theorem invalidatePrevious_fs (w : World) (i : Nat) :
    SameButSlot i w.fs (invalidatePrevious w i).fs ∧
      Logged Event.Succeeds w (invalidatePrevious w i) := by
  unfold invalidatePrevious
  split
  · next fd hg =>
    exact ⟨sameButSlot_setFd (List.getElem?_eq_some_iff.1 hg).1 _,
      Logged.cons rfl (Event.succeeds_program _ _ _ _)⟩
  · exact ⟨SameButSlot.refl i _, Logged.refl _ _⟩

/-- What `updateFd` puts in its slot. -/
def freshFd (curr : Curr) (h : BlockHeader) : FileDescriptor :=
  ⟨curr.address curr.sector, { h with newer := fsBlockCurrent }, curr.sector⟩

theorem updateFd_eq (w : World) {i : Nat} (hi : i ≤ w.fs.fd.length) (h : BlockHeader) :
    ∃ e, e.flash = w.flash ∧ e.op = .program (w.fs.curr.address w.fs.curr.sector)
        ((freshFd w.fs.curr h).header.toBytes.take 1) ∧
      updateFd w i h = ⟨{ w.fs with fd := putFd w.fs.fd i (freshFd w.fs.curr h) },
        e.op.apply w.flash, e :: w.log⟩ := by
  unfold updateFd
  by_cases hl : i = w.fs.fd.length
  · subst hl
    refine ⟨⟨(w.setFd w.fs.fd.length (freshFd w.fs.curr h)).fs, w.flash, _⟩, rfl, rfl, ?_⟩
    have hset (x : FileDescriptor) : w.fs.fd.set w.fs.fd.length x = w.fs.fd :=
      List.set_eq_of_length_le (Nat.le_refl _)
    simp only [World.setFd, World.flashWrite, World.pushFd, hset, if_true, putFd, freshFd,
      Op.apply]
  · refine ⟨⟨(w.setFd i (freshFd w.fs.curr h)).fs, w.flash, _⟩, rfl, rfl, ?_⟩
    simp only [World.setFd, World.flashWrite, List.length_set, if_neg hl, putFd, freshFd,
      Op.apply]

/-- The slot of `k` takes the cell at the append pointer, which moves on: `fs'` is `fs` but for
that. -/
structure Placed (k : Key) (fs fs' : Fs) : Prop where
  curr : fs'.curr = fs.curr.setAddress fs.curr.sector (fs.curr.address fs.curr.sector + 32)
  reloc : fs'.reloc = fs.reloc
  pt : fs'.pt = fs.pt
  fd : ∃ i new, IsSlot fs.fd k i ∧ fs'.fd = putFd fs.fd i new ∧ new.header.key = k ∧
    new.sector = fs.curr.sector ∧ new.address = fs.curr.address fs.curr.sector ∧
    new.header.newer = fsBlockCurrent

namespace Placed
variable {k : Key} {fs fs' : Fs}

/-- What a slot holds afterwards. -/
theorem get (h : Placed k fs fs') {j : Nat} {x : FileDescriptor} (hj : fs'.fd[j]? = some x) :
    fs.fd[j]? = some x ∨ (IsSlot fs.fd k j ∧ x.header.key = k ∧ x.sector = fs.curr.sector ∧
      x.address = fs.curr.address fs.curr.sector) := by
  obtain ⟨i, new, hs, hfd, hk, hsec, hadr, -⟩ := h.fd
  rw [hfd, getElem?_putFd hs.le] at hj
  split at hj
  · next hji =>
    obtain rfl := Option.some.inj hj
    exact Or.inr ⟨hji ▸ hs, hk, hsec, hadr⟩
  · exact Or.inl hj

/-- A descriptor stays in its slot or, if it is the one of `k`, is replaced there. -/
theorem get_of (h : Placed k fs fs') {j : Nat} {y : FileDescriptor} (hj : fs.fd[j]? = some y) :
    ∃ x, fs'.fd[j]? = some x ∧ x.header.key = y.header.key ∧ (x = y ∨
      (x.sector = fs.curr.sector ∧ x.address = fs.curr.address fs.curr.sector)) := by
  obtain ⟨i, new, hs, hfd, hk, hsec, hadr, -⟩ := h.fd
  rw [hfd, getElem?_putFd hs.le]
  by_cases hji : j = i
  · subst hji
    rw [if_pos rfl]
    refine ⟨new, rfl, ?_, Or.inr ⟨hsec, hadr⟩⟩
    rcases hs with ⟨fd, hg, hk'⟩ | ⟨rfl, -⟩
    · rw [hj] at hg
      cases hg
      rw [hk, hk']
    · rw [List.getElem?_eq_none (Nat.le_refl _)] at hj
      cases hj
  · rw [if_neg hji]
    exact ⟨y, hj, rfl, Or.inl rfl⟩

/-- The slots of the other keys stay as they are. -/
theorem get_other (h : Placed k fs fs') {j : Nat} {y : FileDescriptor} (hj : fs.fd[j]? = some y)
    (hk : y.header.key ≠ k) : fs'.fd[j]? = some y := by
  obtain ⟨i, new, hs, hfd, -⟩ := h.fd
  rw [hfd, getElem?_putFd hs.le, if_neg, hj]
  rintro rfl
  rcases hs with ⟨fd, hg, hk'⟩ | ⟨rfl, -⟩
  · obtain rfl := Option.some.inj (hg.symm.trans hj)
    exact hk hk'
  · rw [List.getElem?_eq_none (Nat.le_refl _)] at hj
    cases hj

theorem mem (h : Placed k fs fs') (hnd : (keys fs).Nodup) {x : FileDescriptor}
    (hx : x ∈ fs'.fd) : (x ∈ fs.fd ∧ x.header.key ≠ k) ∨ (x.header.key = k ∧
      x.sector = fs.curr.sector ∧ x.address = fs.curr.address fs.curr.sector) := by
  obtain ⟨i, new, hs, hfd, rfl, hsec, hadr, -⟩ := h.fd
  rw [hfd, mem_putFd hnd hs] at hx
  rcases hx with rfl | hx
  · exact Or.inr ⟨rfl, hsec, hadr⟩
  · exact Or.inl hx

/-- The keys of the table: `k` is appended if it is new. -/
theorem keys (h : Placed k fs fs') :
    Wormvars.keys fs' = if k ∈ Wormvars.keys fs then Wormvars.keys fs
      else Wormvars.keys fs ++ [k] := by
  obtain ⟨i, new, hs, hfd, rfl, -⟩ := h.fd
  unfold Wormvars.keys
  rw [hfd]
  exact map_key_putFd hs

theorem sector (h : Placed k fs fs') : fs'.curr.sector = fs.curr.sector := by
  rw [h.curr]
  rfl

theorem address_ne (h : Placed k fs fs') {s : Fin 8} (hs : s ≠ fs.curr.sector) :
    fs'.curr.address s = fs.curr.address s := by
  rw [h.curr, Curr.setAddress_ne _ _ hs]

theorem address_self (h : Placed k fs fs') :
    fs'.curr.address fs.curr.sector = fs.curr.address fs.curr.sector + 32 := by
  rw [h.curr, Curr.setAddress_self]

theorem address_le (h : Placed k fs fs') (s : Fin 8) :
    fs.curr.address s ≤ fs'.curr.address s := by
  by_cases hs : s = fs.curr.sector
  · subst hs
    rw [h.address_self]
    omega
  · exact Nat.le_of_eq (h.address_ne hs).symm

end Placed

/-- There is a free slot for `k`, or `k` has one. -/
def HasSlot (fs : Fs) (k : Key) : Prop := k ∈ keys fs ∨ fs.fd.length < fdMax

theorem IsSlot.lt {fs : Fs} {k : Key} {i : Nat} (h : IsSlot fs.fd k i)
    (hl : fs.fd.length ≤ fdMax) : i < fdMax ↔ HasSlot fs k := by
  unfold HasSlot keys
  rcases h with ⟨fd, hg, hk⟩ | ⟨rfl, hno⟩
  · have := (List.getElem?_eq_some_iff.1 hg).1
    exact ⟨fun _ => Or.inl (List.mem_map.2 ⟨fd, List.mem_of_getElem? hg, hk⟩), fun _ => by omega⟩
  · refine ⟨Or.inr, ?_⟩
    rintro (hm | hlt)
    · obtain ⟨fd, hm, hk⟩ := List.mem_map.1 hm
      exact absurd hk (hno fd hm)
    · exact hlt

/-- The world before the descriptor takes the new block. -/
def stageBlock (crc : Block → BitVec 32) (w : World) (buffer : Block) : World :=
  let i := findFd w.fs.fd buffer.header
  invalidatePrevious ((clearNewer w i).flashWrite (w.fs.curr.address w.fs.curr.sector)
    (updateBlockHash crc buffer fsSize32 fsBlockNewer).toBytes) i

theorem stageBlock_fs (crc : Block → BitVec 32) (w : World) (buffer : Block) :
    SameButSlot (findFd w.fs.fd buffer.header) w.fs (stageBlock crc w buffer).fs ∧
      Logged Event.Succeeds w (stageBlock crc w buffer) := by
  unfold stageBlock
  obtain ⟨h₁, l₁⟩ := clearNewer_fs w (findFd w.fs.fd buffer.header)
  obtain ⟨h₂, l₂⟩ := invalidatePrevious_fs ((clearNewer w (findFd w.fs.fd buffer.header)).flashWrite
    (w.fs.curr.address w.fs.curr.sector)
    (updateBlockHash crc buffer fsSize32 fsBlockNewer).toBytes) (findFd w.fs.fd buffer.header)
  exact ⟨h₁.trans h₂,
    l₁.trans (Logged.trans (Logged.cons rfl (Event.succeeds_program _ _ _ _)) l₂)⟩

/-- The RAM state after a write: `fs` is the one of the staged world. -/
def Fs.finish (fs : Fs) (i : Nat) (curr : Curr) (h : BlockHeader) : Fs :=
  { fs with
    fd := putFd fs.fd i (freshFd curr h)
    curr := curr.setAddress curr.sector (curr.address curr.sector + fsBlockSize) }

/-- The request that clears the flag of the block at the append pointer. -/
def finishBytes (curr : Curr) (h : BlockHeader) : List Byte :=
  (freshFd curr h).header.toBytes.take 1

/-- A write that finds a slot: the block is staged, its flag is cleared, `0` is returned. -/
theorem appendBlock_eq (crc : Block → BitVec 32) (w : World) (buffer : Block) (hi : findFd w.fs.fd buffer.header < fdMax) :
    ∃ e r : Event, e.flash = (stageBlock crc w buffer).flash ∧
      e.op = .program (w.fs.curr.address w.fs.curr.sector)
        (finishBytes w.fs.curr (updateBlockHash crc buffer fsSize32 fsBlockNewer).header) ∧
      r.flash = e.op.apply e.flash ∧ r.op = .returns 0 ∧
      appendBlock crc w buffer = (0, ⟨(stageBlock crc w buffer).fs.finish
        (findFd w.fs.fd buffer.header) w.fs.curr
        (updateBlockHash crc buffer fsSize32 fsBlockNewer).header, e.op.apply e.flash,
        r :: e :: (stageBlock crc w buffer).log⟩) := by
  have hc : (clearNewer w (findFd w.fs.fd buffer.header)).fs.curr = w.fs.curr :=
    (clearNewer_fs w _).1.curr
  have hs := (stageBlock_fs crc w buffer).1
  obtain ⟨e, hef, hop, he⟩ := updateFd_eq (stageBlock crc w buffer)
    (hs.len ▸ (isSlot_findFd w.fs.fd buffer.header).le)
    (updateBlockHash crc buffer fsSize32 fsBlockNewer).header
  have hstage : appendBlock crc w buffer =
      let v := updateFd (stageBlock crc w buffer) (findFd w.fs.fd buffer.header)
        (updateBlockHash crc buffer fsSize32 fsBlockNewer).header
      (v.setAddress v.fs.curr.sector (v.fs.curr.address v.fs.curr.sector + fsBlockSize)).returns
        0 := by
    unfold appendBlock stageBlock
    simp only [hc, if_pos hi]
  rw [hs.curr] at hop he
  rw [hstage, he]
  refine ⟨e, ⟨(stageBlock crc w buffer).fs.finish (findFd w.fs.fd buffer.header) w.fs.curr
    (updateBlockHash crc buffer fsSize32 fsBlockNewer).header, e.op.apply e.flash, .returns 0⟩,
    hef, hop, rfl, rfl, ?_⟩
  rw [hef]
  unfold World.returns World.setAddress Fs.finish
  simp only [hs.curr]

theorem appendBlock_placed (crc : Block → BitVec 32) (w : World) (buffer : Block)
    (hi : findFd w.fs.fd buffer.header < fdMax) :
    (appendBlock crc w buffer).1 = 0 ∧
      Placed buffer.header.key w.fs (appendBlock crc w buffer).2.fs ∧
      Logged Event.Succeeds w (appendBlock crc w buffer).2 := by
  obtain ⟨hs, hl⟩ := stageBlock_fs crc w buffer
  obtain ⟨e, r, -, hop, -, hret, he⟩ := appendBlock_eq crc w buffer hi
  rw [he]
  refine ⟨rfl, ⟨rfl, hs.reloc, hs.pt, ⟨_, _, isSlot_findFd w.fs.fd buffer.header, hs.fd _, rfl,
    rfl, rfl, rfl⟩⟩, ?_⟩
  refine hl.trans (Logged.trans
    (v := ⟨(stageBlock crc w buffer).fs, e.op.apply e.flash, e :: (stageBlock crc w buffer).log⟩)
    (Logged.cons rfl ?_) (Logged.cons rfl ?_))
  · intro r hr
    rw [hop] at hr
    cases hr
  · intro r' hr
    rw [hret] at hr
    cases hr
    exact Int.le_refl 0

/-- Without a descriptor the block is programmed and nothing else is done. -/
theorem appendBlock_noSlot (crc : Block → BitVec 32) {w : World} {buffer : Block}
    (hi : findFd w.fs.fd buffer.header = w.fs.fd.length) (hmax : fdMax ≤ w.fs.fd.length) :
    appendBlock crc w buffer = World.returns (w.flashWrite (w.fs.curr.address w.fs.curr.sector)
      (updateBlockHash crc buffer fsSize32 fsBlockNewer).toBytes) (-1) := by
  have hnone : w.fs.fd[w.fs.fd.length]? = none := List.getElem?_eq_none (Nat.le_refl _)
  have hclear : clearNewer w w.fs.fd.length = w := by
    unfold clearNewer
    simp only [hnone]
  unfold appendBlock
  simp only [hi, hclear]
  have hinv : ∀ bs, invalidatePrevious (w.flashWrite (w.fs.curr.address w.fs.curr.sector) bs)
      w.fs.fd.length = w.flashWrite (w.fs.curr.address w.fs.curr.sector) bs := by
    intro bs
    unfold invalidatePrevious
    rw [show (w.flashWrite (w.fs.curr.address w.fs.curr.sector) bs).fs.fd[w.fs.fd.length]? = none
      from hnone]
  rw [hinv, if_neg (Nat.not_lt.2 hmax)]

/-! ## The flash operations -/

section next
variable {curr : Curr} {f : Mem}

theorem Shape.next_inSector (h : Shape curr f)
    (hroom : curr.address curr.sector < sectorBase curr.sector + 4096) :
    InSector curr.sector (curr.address curr.sector) := ⟨h.lo _, hroom⟩

theorem Shape.next_isCell (h : Shape curr f)
    (hroom : curr.address curr.sector < sectorBase curr.sector + 4096) :
    IsCell (curr.address curr.sector) := (h.next_inSector hroom).isCell (h.aligned _)

theorem Shape.next_blank (h : Shape curr f)
    (hroom : curr.address curr.sector < sectorBase curr.sector + 4096) :
    Blank f (curr.address curr.sector) 32 := by
  intro x h₁ h₂
  have h₃ := h.aligned curr.sector
  have h₄ := sectorBase_mod curr.sector
  exact h.blank _ x h₁ (by omega)

end next

/-- A block with a legal size does not start with `0xFF`. -/
theorem flags_ne_blank {h : BlockHeader} (hs : h.size = fsSize32) : h.flags ≠ 0xFF := by
  intro hf
  have := h.flags_size
  rw [hf, hs] at this
  revert this
  decide

theorem good_programBlock {fs : Fs} {f : Mem} {M N : Contents} {b : Block} (hs : Shape fs.curr f)
    (hroom : fs.curr.address fs.curr.sector < sectorBase fs.curr.sector + 4096)
    (hb : Accepted crc b) (hM : Recoverable crc M f)
    (hN : Represents (copies crc (program f (fs.curr.address fs.curr.sector) b.toBytes)) N)
    (hfit : Fits N) :
    Good crc (fun L => L = M ∨ L = N)
      ⟨fs, f, .program (fs.curr.address fs.curr.sector) b.toBytes⟩ := by
  have hblank := hs.next_blank hroom
  have hcell := hs.next_isCell hroom
  have hl := b.length_toBytes
  constructor
  · intro f' hc
    cases hc with
    | before => exact ⟨M, Or.inl rfl, hM⟩
    | after =>
      exact ⟨N, Or.inr rfl, ⟨_, hs.program_next hroom _ (by omega) (by omega)
        (flags_ne_blank hb.size)⟩, hN, hfit⟩
    | torn a bs k hop h0 hk htorn =>
      cases hop
      have hlen : (b.toBytes.take k).length = k := by rw [List.length_take]; omega
      have hshape := hs.program_next hroom (b.toBytes.take k) (by omega) (by omega) (by
        rw [List.getElem_take]; exact flags_ne_blank hb.size)
      by_cases hacc : Accepted crc
          (flashRead (program f (fs.curr.address fs.curr.sector) (b.toBytes.take k))
            (fs.curr.address fs.curr.sector))
      · -- nothing of the block is missing
        refine ⟨N, Or.inr rfl, ⟨_, hshape⟩, ?_, hfit⟩
        have he := htorn hl hacc
        rw [copies_program crc f _ _ hcell (by omega), copies_congr he,
          ← copies_program crc f _ _ hcell (by omega)]
        exact hN
      · refine ⟨M, Or.inl rfl, ⟨_, hshape⟩, ?_, hM.fits⟩
        rw [copies_program crc f _ _ hcell (by omega), copies_eq_none hacc,
          ← copies_eq_none (not_accepted_blank hblank), Function.update_eq_self]
        exact hM.represents
  · intro a bs hop
    cases hop
    exact {
      cell := ⟨_, hcell, Nat.le_refl _, by unfold fsBlockSize; omega⟩
      length := Or.inl hl
      block := fun _ => ⟨hcell, hs.next_inSector hroom, hblank⟩
      header := fun h => absurd hl h }
  · intro a hop
    cases hop

/-- Cell `a` of `f` has its header replaced by `h` in `f'`. -/
structure Rewritten (f f' : Mem) (a : Nat) (h : BlockHeader) : Prop where
  self : flashRead f' a = { flashRead f a with header := h }
  other : ∀ b, IsCell b → b ≠ a → flashRead f' b = flashRead f b

theorem Rewrite.rewritten {f : Mem} {a : Nat} {g h : BlockHeader} {bs : List Byte}
    (hr : Rewrite g h bs) (hg : (flashRead f a).header = g) (ha : IsCell a) :
    Rewritten f (program f a bs) a h where
  self := hr.flashRead_program hg
  other b hb hne := by
    apply flashRead_program_outside
    have := hr.length
    unfold IsCell at ha hb
    omega

/-- The descriptor once the newer flag of its block is cleared. -/
def FileDescriptor.aged (fd : FileDescriptor) : FileDescriptor :=
  { fd with header := { fd.header with newer := fsBlockCurrent } }

theorem clearNewer_spec {w : World} (hs : Shape w.fs.curr w.flash)
    (hx : Indexed crc w.fs w.flash) {i : Nat} {fd : FileDescriptor}
    (hg : w.fs.fd[i]? = some fd) :
    ∃ f l, clearNewer w i = ⟨{ w.fs with fd := w.fs.fd.set i fd.aged }, f, l⟩ ∧
      Rewritten w.flash f fd.address fd.aged.header ∧
      copies crc f = Function.update (copies crc w.flash) fd.address
        (some ⟨fd.header.key, false, (flashRead w.flash fd.address).data⟩) ∧
      Shape w.fs.curr f ∧
      Logged (Good crc fun M => M = contents w.fs w.flash) w (clearNewer w i) := by
  have hm := List.mem_of_getElem? hg
  have hcell := hx.cell fd hm
  have hhead := hx.header fd hm
  have hcopy := hx.copy hm
  unfold clearNewer
  simp only [hg]
  split
  · next hn =>
    have hr : Rewrite fd.header fd.aged.header fd.aged.header.toBytes := ⟨Or.inl rfl, Or.inl rfl⟩
    have hcop := copies_clear_newer hcopy hhead
    have hshape : Shape w.fs.curr (program w.flash fd.address fd.aged.header.toBytes) :=
      hs.program_below (hx.sector fd hm).1 (hs.below_of_copy (hx.sector fd hm) hcopy) hcell.2.2 _
        (by simp)
    have hrep := hx.represents.age hcopy fun b d hb hk => hx.single b _ d _ hb hcopy hk
    rw [← hcop] at hrep
    refine ⟨_, _, rfl, hr.rewritten hhead hcell, hcop, hshape, Logged.cons rfl ?_⟩
    exact hr.good hhead hcell ⟨_, rfl, ⟨_, hs⟩, hx.represents, hx.fits⟩
      ⟨_, rfl, ⟨_, hshape⟩, hrep, hx.fits⟩
  · next hn =>
    have hz : fd.header.newer = fsBlockCurrent := by
      revert hn
      generalize fd.header.newer = n
      revert n
      decide
    have hfd : fd.aged = fd := by unfold FileDescriptor.aged; rw [← hz]
    have hset : w.fs.fd.set i fd = w.fs.fd := by
      obtain ⟨hi, rfl⟩ := List.getElem?_eq_some_iff.1 hg
      exact List.set_getElem_self hi
    refine ⟨w.flash, w.log, ?_, ⟨?_, fun _ _ _ => rfl⟩, ?_, hs, Logged.refl _ w⟩
    · rw [hfd, hset]
    · rw [hfd, ← hhead]
    · have hcopy' := hcopy
      rw [hz] at hcopy'
      rw [show (some ⟨fd.header.key, false, (flashRead w.flash fd.address).data⟩ :
        Option (Copy Key Payload)) = copies crc w.flash fd.address from hcopy'.symm,
        Function.update_eq_self]

theorem invalidatePrevious_of_get {w : World} {i : Nat} {fd : FileDescriptor}
    (hg : w.fs.fd[i]? = some fd) :
    invalidatePrevious w i =
      (w.setFd i { fd with header := { fd.header with size := fsSizeInvalid } }).flashWrite
        fd.address ({ fd.header with size := fsSizeInvalid }.toBytes.take 1) := by
  unfold invalidatePrevious
  rw [hg]

theorem Indexed.fits_put {fs : Fs} {f : Mem} (hx : Indexed crc fs f) {k : Key} {i : Nat}
    (hslot : IsSlot fs.fd k i) (hi : i < fdMax) (d : Payload) :
    Fits (Function.update (contents fs f) k (some d)) := by
  have hin : ∀ l : List Key, k ∈ l → (∀ k' ∈ keys fs, k' ∈ l) →
      ∀ k', (Function.update (contents fs f) k (some d) k').isSome → k' ∈ l := by
    intro l hk hl k' hk'
    by_cases he : k' = k
    · exact he ▸ hk
    · rw [Function.update_of_ne he, contents_isSome_iff] at hk'
      exact hl k' hk'
  have hlen : (keys fs).length = fs.fd.length := List.length_map _
  rcases hslot with ⟨fd, hg, rfl⟩ | ⟨rfl, -⟩
  · refine ⟨keys fs, hlen ▸ hx.len, hin _ ?_ fun _ h => h⟩
    exact List.mem_map.2 ⟨fd, List.mem_of_getElem? hg, rfl⟩
  · refine ⟨keys fs ++ [k], ?_, hin _ (by simp) fun _ h => List.mem_append_left _ h⟩
    rw [List.length_append, hlen]
    exact hi

/-- The new block is on flash and the old copy is dropped: `w'` is `w` but for that. -/
structure Staged (crc : Block → BitVec 32) (w w' : World) (b : Block) : Prop where
  block : flashRead w'.flash (w.fs.curr.address w.fs.curr.sector) = b
  represents : Represents (copies crc w'.flash)
    (Function.update (contents w.fs w.flash) b.header.key (some b.data))
  others : ∀ a c, copies crc w'.flash a = some c → a ≠ w.fs.curr.address w.fs.curr.sector →
    copies crc w.flash a = some c ∧ c.key ≠ b.header.key
  same : ∀ fd ∈ w.fs.fd, fd.header.key ≠ b.header.key →
    flashRead w'.flash fd.address = flashRead w.flash fd.address
  shape : Shape (w.fs.curr.setAddress w.fs.curr.sector
    (w.fs.curr.address w.fs.curr.sector + 32)) w'.flash
  logged : Logged (Good crc fun M => M = contents w.fs w.flash ∨
    M = Function.update (contents w.fs w.flash) b.header.key (some b.data)) w w'

section stages
variable {w : World} {i : Nat} {b : Block} (hs : Shape w.fs.curr w.flash)
  (hx : Indexed crc w.fs w.flash)
  (hroom : w.fs.curr.address w.fs.curr.sector < sectorBase w.fs.curr.sector + 4096)
  (hb : Accepted crc b) (hn : b.header.newer = fsBlockNewer)

include hs hx hroom

/-- A cell of the table is not the one at the append pointer. -/
theorem Indexed.address_ne {fd : FileDescriptor} (hm : fd ∈ w.fs.fd) :
    fd.address ≠ w.fs.curr.address w.fs.curr.sector := by
  intro he
  have h : copies crc w.flash fd.address = none :=
    copies_eq_none (by rw [he]; exact not_accepted_blank (hs.next_blank hroom))
  rw [hx.copy hm] at h
  cases h

include hb hn

/-- A key that is not on flash yet. -/
theorem staged_new (hno : ∀ fd ∈ w.fs.fd, fd.header.key ≠ b.header.key)
    (hi : w.fs.fd.length < fdMax) :
    Staged crc w (invalidatePrevious ((clearNewer w w.fs.fd.length).flashWrite
      (w.fs.curr.address w.fs.curr.sector) b.toBytes) w.fs.fd.length) b := by
  have hget : w.fs.fd[w.fs.fd.length]? = none := List.getElem?_eq_none (Nat.le_refl _)
  have hclear : clearNewer w w.fs.fd.length = w := by
    unfold clearNewer
    rw [hget]
  have hinv : ∀ bs, invalidatePrevious (w.flashWrite (w.fs.curr.address w.fs.curr.sector) bs)
      w.fs.fd.length = w.flashWrite (w.fs.curr.address w.fs.curr.sector) bs := by
    intro bs
    unfold invalidatePrevious
    rw [show (w.flashWrite (w.fs.curr.address w.fs.curr.sector) bs).fs.fd[w.fs.fd.length]? = none
      from hget]
  rw [hclear, hinv]
  have hblank := hs.next_blank hroom
  have hcell := hs.next_isCell hroom
  have hfree : copies crc w.flash (w.fs.curr.address w.fs.curr.sector) = none :=
    copies_eq_none (not_accepted_blank hblank)
  have hcop := copies_program_block hcell hblank hb
  have hnewer : (b.header.newer == fsBlockNewer) = true := by rw [hn]; rfl
  have hcopyKey : ∀ a c, copies crc w.flash a = some c → c.key ≠ b.header.key := by
    intro a c hc hk
    obtain ⟨fd, hm, -, hfk, -⟩ := hx.copy_fd hc
    exact hno fd hm (hfk.trans hk)
  have hrep := hx.represents.put hfree (c := ⟨b.header.key, _, b.data⟩) hnewer
    fun a c hc hk => absurd hk (hcopyKey a c hc)
  rw [← hcop] at hrep
  have hl := b.length_toBytes
  refine ⟨flashRead_program_blank hblank b, hrep, ?_, ?_, ?_, ?_⟩
  · intro a c hc hne
    have hc' : copies crc (program w.flash (w.fs.curr.address w.fs.curr.sector) b.toBytes) a =
      some c := hc
    rw [hcop, Function.update_of_ne hne] at hc'
    exact ⟨hc', hcopyKey a c hc'⟩
  · intro fd hm _
    have hne := hx.address_ne hs hroom hm
    have hc := hx.cell fd hm
    apply flashRead_program_outside
    unfold IsCell at hc hcell
    omega
  · exact hs.program_next hroom _ (by omega) (by omega) (flags_ne_blank hb.size)
  · exact Logged.cons rfl (good_programBlock hs hroom hb ⟨⟨_, hs⟩, hx.represents, hx.fits⟩ hrep
      (hx.fits_put (Or.inr ⟨rfl, hno⟩) hi b.data))

/-- The new block is at the append pointer, beside the old copy of `fd`, whose flag is cleared. -/
structure Doubled (crc : Block → BitVec 32) (w : World) (fd : FileDescriptor) (b : Block) (f : Mem) :
    Prop where
  image : copies crc f = Function.update (Function.update (copies crc w.flash) fd.address
      (some ⟨fd.header.key, false, (flashRead w.flash fd.address).data⟩))
    (w.fs.curr.address w.fs.curr.sector) (some ⟨b.header.key, true, b.data⟩)
  represents : Represents (copies crc f)
    (Function.update (contents w.fs w.flash) b.header.key (some b.data))
  wins : Wins (copies crc f) (w.fs.curr.address w.fs.curr.sector) ⟨b.header.key, true, b.data⟩
  block : flashRead f (w.fs.curr.address w.fs.curr.sector) = b
  old : (flashRead f fd.address).header = fd.aged.header
  other : ∀ a, IsCell a → a ≠ fd.address → a ≠ w.fs.curr.address w.fs.curr.sector →
    flashRead f a = flashRead w.flash a
  shape : Shape (w.fs.curr.setAddress w.fs.curr.sector
    (w.fs.curr.address w.fs.curr.sector + 32)) f

theorem doubled {fd : FileDescriptor} {f : Mem} (hm : fd ∈ w.fs.fd)
    (hk : fd.header.key = b.header.key) (hf : Rewritten w.flash f fd.address fd.aged.header)
    (hcop : copies crc f = Function.update (copies crc w.flash) fd.address
      (some ⟨fd.header.key, false, (flashRead w.flash fd.address).data⟩))
    (hs₁ : Shape w.fs.curr f) :
    Doubled crc w fd b (program f (w.fs.curr.address w.fs.curr.sector) b.toBytes) := by
  have hcopy := hx.copy hm
  have hcell := hx.cell fd hm
  have hpcell := hs.next_isCell hroom
  have hne := hx.address_ne hs hroom hm
  have hblank := hs₁.next_blank hroom
  have hl := b.length_toBytes
  have hnewer : (b.header.newer == fsBlockNewer) = true := by rw [hn]; rfl
  have hfree : copies crc f (w.fs.curr.address w.fs.curr.sector) = none :=
    copies_eq_none (not_accepted_blank hblank)
  have hcop' := copies_program_block hpcell hblank hb
  rw [hnewer] at hcop'
  -- no copy of the key has its flag set but the new one
  have hrep := hx.represents.age hcopy fun a c hc hck => hx.single a _ c _ hc hcopy hck
  rw [← hcop] at hrep
  have hold : ∀ a c, copies crc f a = some c → c.key = b.header.key → c.newer = false := by
    intro a c hc hck
    rw [hcop] at hc
    by_cases ha : a = fd.address
    · subst ha
      rw [Function.update_self] at hc
      cases hc
      rfl
    · rw [Function.update_of_ne ha] at hc
      exact absurd (hx.single a _ c _ hc hcopy (hck.trans hk.symm)) ha
  have hrep' := hrep.put hfree (c := ⟨b.header.key, true, b.data⟩) rfl hold
  have hwin : Wins (Function.update (copies crc f) (w.fs.curr.address w.fs.curr.sector)
      (some ⟨b.header.key, true, b.data⟩)) (w.fs.curr.address w.fs.curr.sector)
      ⟨b.header.key, true, b.data⟩ := by
    refine ⟨Function.update_self .., fun a c hc hck hap => ⟨rfl, ?_⟩⟩
    rw [Function.update_of_ne hap] at hc
    exact hold a c hc hck
  rw [← hcop'] at hrep' hwin
  refine ⟨hcop'.trans (by rw [hcop]), hrep', hwin, flashRead_program_blank hblank b, ?_, ?_,
    hs₁.program_next hroom b.toBytes (by omega) (by omega) (flags_ne_blank hb.size)⟩
  · rw [flashRead_program_outside, hf.self]
    unfold IsCell at hcell hpcell
    omega
  · intro a ha h₁ h₂
    rw [flashRead_program_outside, hf.other a ha h₁]
    unfold IsCell at ha hpcell
    omega

omit hb hn in
/-- Only the new block is a copy of its key once the old one has lost its size. -/
theorem Doubled.drop {fd : FileDescriptor} {f : Mem} (hd : Doubled crc w fd b f)
    (hm : fd ∈ w.fs.fd) (hk : fd.header.key = b.header.key) {bs : List Byte}
    (hr : Rewrite fd.aged.header { fd.aged.header with size := fsSizeInvalid } bs) :
    Represents (copies crc (program f fd.address bs))
      (Function.update (contents w.fs w.flash) b.header.key (some b.data)) ∧
    ∀ a c, copies crc (program f fd.address bs) a = some c →
      a ≠ w.fs.curr.address w.fs.curr.sector →
      copies crc w.flash a = some c ∧ c.key ≠ b.header.key := by
  have hcopy := hx.copy hm
  have hne := hx.address_ne hs hroom hm
  have hcop := copies_clear_size crc (hx.cell fd hm) hd.old
  rw [← hr.program_eq hd.old] at hcop
  have hold : copies crc f fd.address =
      some ⟨fd.header.key, false, (flashRead w.flash fd.address).data⟩ := by
    rw [hd.image, Function.update_of_ne hne, Function.update_self]
  constructor
  · rw [hcop]
    exact hd.represents.drop hd.wins hold hk hne
  · intro a c hc hap
    have hao : a ≠ fd.address := by
      rintro rfl
      rw [hcop, Function.update_self] at hc
      cases hc
    rw [hcop, Function.update_of_ne hao, hd.image, Function.update_of_ne hap,
      Function.update_of_ne hao] at hc
    exact ⟨hc, fun hck => hao (hx.single a _ c _ hc hcopy (hck.trans hk.symm))⟩

/-- A key that has a copy already. -/
theorem staged_old {fd : FileDescriptor} (hg : w.fs.fd[i]? = some fd)
    (hk : fd.header.key = b.header.key) (hi : i < fdMax) :
    Staged crc w (invalidatePrevious ((clearNewer w i).flashWrite
      (w.fs.curr.address w.fs.curr.sector) b.toBytes) i) b := by
  have hm := List.mem_of_getElem? hg
  have hilt := (List.getElem?_eq_some_iff.1 hg).1
  have hcell := hx.cell fd hm
  have hpcell := hs.next_isCell hroom
  have hne := hx.address_ne hs hroom hm
  have hfit := hx.fits_put (Or.inl ⟨fd, hg, hk⟩) hi b.data
  obtain ⟨f₁, l₁, hclear, hrw₁, hcop₁, hs₁, hlog₁⟩ := clearNewer_spec hs hx hg
  have hrep₁ : Represents (copies crc f₁) (contents w.fs w.flash) := by
    rw [hcop₁]
    exact hx.represents.age (hx.copy hm) fun a c hc hck => hx.single a _ c _ hc (hx.copy hm) hck
  have hd := doubled hs hx hroom hb hn hm hk hrw₁ hcop₁ hs₁
  -- the old copy is dropped
  have hr : Rewrite fd.aged.header { fd.aged.header with size := fsSizeInvalid }
      ({ fd.aged.header with size := fsSizeInvalid }.toBytes.take 1) := ⟨Or.inr rfl, Or.inr rfl⟩
  obtain ⟨hrep₃, hothers⟩ := hd.drop hs hx hroom hm hk hr
  have hrw₃ := hr.rewritten hd.old hcell
  have hbelow : fd.address < (w.fs.curr.setAddress w.fs.curr.sector
      (w.fs.curr.address w.fs.curr.sector + 32)).address fd.sector :=
    hd.shape.below_of_copy (hx.sector fd hm)
      (by rw [hd.image, Function.update_of_ne hne, Function.update_self])
  have hs₃ := hd.shape.program_below (hx.sector fd hm).1 hbelow hcell.2.2
    ({ fd.aged.header with size := fsSizeInvalid }.toBytes.take 1) (by simp)
  have hget : ((clearNewer w i).flashWrite (w.fs.curr.address w.fs.curr.sector)
      b.toBytes).fs.fd[i]? = some fd.aged := by
    rw [hclear]
    show (w.fs.fd.set i fd.aged)[i]? = _
    rw [List.getElem?_set_self hilt]
  rw [invalidatePrevious_of_get hget, hclear]
  refine ⟨(hrw₃.other _ hpcell (Ne.symm hne)).trans hd.block, hrep₃, hothers, ?_, hs₃, ?_⟩
  · intro fd' hm' hk'
    have hao : fd'.address ≠ fd.address := fun he =>
      hk' (by rw [hx.eq_of_address hm' hm he, hk])
    exact (hrw₃.other _ (hx.cell fd' hm') hao).trans
      (hd.other _ (hx.cell fd' hm') hao (hx.address_ne hs hroom hm'))
  · refine Logged.trans (v := ⟨{ w.fs with fd := w.fs.fd.set i fd.aged }, f₁, l₁⟩) ?_ <|
      Logged.trans (v := World.flashWrite ⟨{ w.fs with fd := w.fs.fd.set i fd.aged }, f₁, l₁⟩
        (w.fs.curr.address w.fs.curr.sector) b.toBytes) (Logged.cons rfl ?_) (Logged.cons rfl ?_)
    · rw [hclear] at hlog₁
      exact hlog₁.mono fun e he => he.mono fun M hM => Or.inl hM
    · exact good_programBlock hs₁ hroom hb ⟨⟨_, hs₁⟩, hrep₁, hx.fits⟩ hd.represents hfit
    · exact hr.good hd.old hcell ⟨_, Or.inr rfl, ⟨_, hd.shape⟩, hd.represents, hfit⟩
        ⟨_, Or.inr rfl, ⟨_, hs₃⟩, hrep₃, hfit⟩

end stages

/-! ## The whole of `appendBlock` -/

/-- What a write of `d` under the key `k` does to index, flash and log. -/
structure Appended (crc : Block → BitVec 32) (k : Key) (d : Payload) (w w' : World) : Prop where
  shape : Shape w'.fs.curr w'.flash
  index : Indexed crc w'.fs w'.flash
  contents : contents w'.fs w'.flash = Function.update (contents w.fs w.flash) k (some d)
  same : ∀ fd ∈ w.fs.fd, fd.header.key ≠ k →
    flashRead w'.flash fd.address = flashRead w.flash fd.address
  logged : Logged (Good crc fun M => M = Wormvars.contents w.fs w.flash ∨
    M = Function.update (Wormvars.contents w.fs w.flash) k (some d)) w w'

section whole
variable {w : World} {buffer : Block} (hs : Shape w.fs.curr w.flash)
  (hx : Indexed crc w.fs w.flash)
  (hroom : w.fs.curr.address w.fs.curr.sector < sectorBase w.fs.curr.sector + 4096)

include hs hx hroom

theorem stageBlock_staged (hslot : HasSlot w.fs buffer.header.key) :
    Staged crc w (stageBlock crc w buffer) (updateBlockHash crc buffer fsSize32 fsBlockNewer) := by
  have hb := accepted_updateBlockHash crc buffer fsBlockNewer
  have hi := ((isSlot_findFd w.fs.fd buffer.header).lt hx.len).2 hslot
  unfold stageBlock
  rcases isSlot_findFd w.fs.fd buffer.header with ⟨fd, hg, hk⟩ | ⟨he, hno⟩
  · exact staged_old hs hx hroom hb rfl hg hk hi
  · simp only [he] at hi ⊢
    exact staged_new hs hx hroom hb rfl hno hi

/-- The flag of the staged block is cleared and slot `i` takes it. -/
structure Finished (crc : Block → BitVec 32) (w v : World) (i : Nat) (b : Block) (f : Mem) :
    Prop where
  shape : Shape (w.fs.curr.setAddress w.fs.curr.sector
    (w.fs.curr.address w.fs.curr.sector + 32)) f
  index : ∀ fs : Fs, fs.fd = putFd w.fs.fd i (freshFd w.fs.curr b.header) → Indexed crc fs f
  represents : Represents (copies crc f)
    (Function.update (contents w.fs w.flash) b.header.key (some b.data))
  same : ∀ fd ∈ w.fs.fd, fd.header.key ≠ b.header.key →
    flashRead f fd.address = flashRead w.flash fd.address
  good : ∀ fs, Good crc (fun M => M = contents w.fs w.flash ∨
    M = Function.update (contents w.fs w.flash) b.header.key (some b.data))
    ⟨fs, v.flash, .program (w.fs.curr.address w.fs.curr.sector) (finishBytes w.fs.curr b.header)⟩
  done : Recoverable crc (Function.update (contents w.fs w.flash) b.header.key (some b.data)) f

theorem Staged.finished {v : World} {i : Nat} {b : Block} (hst : Staged crc w v b)
    (hb : Accepted crc b) (hslot : IsSlot w.fs.fd b.header.key i) (hi : i < fdMax) :
    Finished crc w v i b (program v.flash (w.fs.curr.address w.fs.curr.sector)
      (finishBytes w.fs.curr b.header)) := by
  have hcell := hs.next_isCell hroom
  have hr : Rewrite b.header (freshFd w.fs.curr b.header).header
      (finishBytes w.fs.curr b.header) := ⟨Or.inl rfl, Or.inr rfl⟩
  have hhead := congrArg Block.header hst.block
  have hcopy : copies crc v.flash (w.fs.curr.address w.fs.curr.sector) =
      some ⟨b.header.key, b.header.newer == fsBlockNewer, b.data⟩ := by
    rw [copies_eq_some hcell (by rw [hst.block]; exact hb), hst.block]
  have hrw := hr.rewritten hhead hcell
  have hself := hrw.self
  rw [hst.block] at hself
  have hcop := copies_clear_newer hcopy hhead
  have hrep := hst.represents.age hcopy fun a c hc hk => by
    by_contra hne
    exact (hst.others a c hc hne).2 hk
  have hprog : program v.flash (w.fs.curr.address w.fs.curr.sector)
      (finishBytes w.fs.curr b.header) = program v.flash (w.fs.curr.address w.fs.curr.sector)
        { b.header with newer := fsBlockCurrent }.toBytes := hr.program_eq hhead
  rw [← hcop, ← hprog] at hrep
  rw [← hprog] at hcop
  have hshape := hst.shape.program_below (s := w.fs.curr.sector) (hs.lo _)
    (by rw [Curr.setAddress_self]; omega) hcell.2.2 (finishBytes w.fs.curr b.header)
    (by simp [finishBytes])
  have hsame : ∀ fd ∈ w.fs.fd, fd.header.key ≠ b.header.key →
      flashRead (program v.flash (w.fs.curr.address w.fs.curr.sector)
        (finishBytes w.fs.curr b.header)) fd.address = flashRead w.flash fd.address := by
    intro fd hm hk
    rw [hrw.other _ (hx.cell fd hm) (hx.address_ne hs hroom hm)]
    exact hst.same fd hm hk
  have hfit := hx.fits_put hslot hi b.data
  constructor
  · exact hshape
  · intro fs hfd
    refine hx.put hslot hi hfd hcell (hs.next_inSector hroom) (congrArg Block.header hself) ?_
      hsame ?_
    · show Accepted crc (flashRead _ (w.fs.curr.address w.fs.curr.sector))
      rw [hself]
      exact (accepted_newer crc b _).2 hb
    · intro a c hc (hne : a ≠ w.fs.curr.address w.fs.curr.sector)
      rw [hcop, Function.update_of_ne hne] at hc
      exact hst.others a c hc hne
  · exact hrep
  · exact hsame
  · intro fs
    exact hr.good hhead hcell ⟨_, Or.inr rfl, ⟨_, hst.shape⟩, hst.represents, hfit⟩
      ⟨_, Or.inr rfl, ⟨_, hshape⟩, hrep, hfit⟩
  · exact ⟨⟨_, hshape⟩, hrep, hfit⟩

theorem appendBlock_spec (hslot : HasSlot w.fs buffer.header.key) :
    Appended crc buffer.header.key buffer.data w (appendBlock crc w buffer).2 := by
  have hfind := isSlot_findFd w.fs.fd buffer.header
  have hi := (hfind.lt hx.len).2 hslot
  have hst := stageBlock_staged hs hx hroom hslot
  have hbut := (stageBlock_fs crc w buffer).1
  have hfin := hst.finished hs hx hroom (accepted_updateBlockHash crc buffer fsBlockNewer) hfind hi
  obtain ⟨e, r, hef, hop, hrf, hret, he⟩ := appendBlock_eq crc w buffer hi
  rw [he]
  have happ : e.op.apply e.flash = program (stageBlock crc w buffer).flash
      (w.fs.curr.address w.fs.curr.sector)
      (finishBytes w.fs.curr (updateBlockHash crc buffer fsSize32 fsBlockNewer).header) := by
    rw [hop, hef]
    rfl
  rw [happ] at hrf ⊢
  have hindex := hfin.index ((stageBlock crc w buffer).fs.finish (findFd w.fs.fd buffer.header)
    w.fs.curr (updateBlockHash crc buffer fsSize32 fsBlockNewer).header) (hbut.fd _)
  refine ⟨hfin.shape, hindex, hindex.represents.unique hfin.represents, hfin.same, ?_⟩
  refine hst.logged.trans (Logged.trans
    (v := ⟨(stageBlock crc w buffer).fs, e.op.apply e.flash, e :: (stageBlock crc w buffer).log⟩)
    (Logged.cons rfl ?_) (Logged.cons rfl ?_))
  · obtain ⟨fs, f, op⟩ := e
    obtain rfl : f = _ := hef
    obtain rfl : op = _ := hop
    exact hfin.good fs
  · exact Good.returns hret (Or.inr rfl) (hrf ▸ hfin.done)

end whole

end Wormvars
