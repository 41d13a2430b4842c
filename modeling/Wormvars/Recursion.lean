import Wormvars.Calls

/-!
# The recursion between `fs_write` and `fs_thread`

`fs_write` calls `fs_thread(1)` through `updateSector`, and `fs_thread` calls
`fs_write`, at most once and as the last thing before it yields
(`fsThreadWith_callsOnce`).  `updateSector` has just left a full sector for one
that is not full, and nothing before the inner `fs_write` changes that
(`nested_callsOnce`): the inner one writes without another call of `fs_thread`.

So both functions return from every state whose loop index is in the table, and
no more than two activations of `fs_write` are ever nested (`recursion_ends`).
The argument rests on no invariant of the store.
-/

namespace Wormvars

open NorFlash

variable {crc : Block → BitVec 32} {w : World}

/-- While the loop over the descriptors is suspended its index is in the table. -/
def InLoop (fs : Fs) : Prop :=
  match fs.pt with
  | .waitRead | .yieldRead | .yieldRetry | .yieldNext => fs.reloc.fdIndex < fs.fd.length
  | _ => True

/-- `fs_write` in which the `fs_write` called by its `fs_thread(1)` would call `thread`. -/
def nestedWrite (crc : Block → BitVec 32) (ans : Answers) (thread : World → Option World) :
    World → BitVec 16 → BitVec 8 → List Byte → Option (Int × World) :=
  fsWriteWith crc fun w => (fsThreadWith (fsWriteWith crc thread) ans true w).map Prod.snd

/-- `F` has no use for `fs_write`, or calls it once, in a world that satisfies `P`, and yields with
what it returned. -/
def CallsOnce (P : World → Prop)
    (F : (World → BitVec 16 → BitVec 8 → List Byte → Option (Int × World)) →
      Option (PtCode × World)) : Prop :=
  (∃ r, ∀ write, F write = r) ∨
    ∃ v name ext data k, P v ∧ (∀ r, PtCode.yielded = (k r).1) ∧
      ∀ write, F write = (write v name ext data).map k

theorem CallsOnce.mono {P Q : World → Prop}
    {F : (World → BitVec 16 → BitVec 8 → List Byte → Option (Int × World)) →
      Option (PtCode × World)} (h : CallsOnce P F) (hpq : ∀ v, P v → Q v) : CallsOnce Q F := by
  rcases h with h | ⟨v, name, ext, data, k, hv, h⟩
  · exact Or.inl h
  · exact Or.inr ⟨v, name, ext, data, k, hpq v hv, h⟩

/-! ## `fs_thread` -/

section thread
variable (ans : Answers) (flag : Bool)

theorem relocWrite_callsOnce (w : World) :
    CallsOnce (fun v => v = w) fun write => relocWrite write w := by
  refine Or.inr ⟨w, w.fs.reloc.fd.header.name, w.fs.reloc.fd.header.ext.setWidth 8,
    List.ofFn w.fs.reloc.buffer.data, fun r => if r.1 < 0 then (.yielded, r.2.setPt .yieldRetry)
      else (.yielded, r.2.setPt .yieldNext), rfl, fun r => ?_, fun write => ?_⟩
  · simp only
    split <;> rfl
  · unfold relocWrite
    simp only
    cases write w w.fs.reloc.fd.header.name (w.fs.reloc.fd.header.ext.setWidth 8)
      (List.ofFn w.fs.reloc.buffer.data) with
    | none => rfl
    | some r =>
      obtain ⟨r, v⟩ := r
      simp only [Option.map_some]
      split <;> rfl

/-- One activation calls `fs_write` in the world it was entered in, if at all. -/
theorem fsThreadWith_callsOnce (w : World) :
    CallsOnce (fun v => v = w) fun write => fsThreadWith write ans flag w := by
  unfold fsThreadWith
  cases hpt : w.fs.pt with
  | null => exact Or.inl ⟨_, fun _ => rfl⟩
  | waitTimer => exact Or.inl ⟨_, fun _ => rfl⟩
  | yieldStart => exact Or.inl ⟨_, fun _ => rfl⟩
  | waitRead => exact Or.inl ⟨_, fun _ => rfl⟩
  | yieldRead =>
    simp only
    cases w.fs.fd[w.fs.reloc.fdIndex]? with
    | none => exact Or.inl ⟨none, fun _ => rfl⟩
    | some fd =>
      by_cases ha : fd.address = w.fs.reloc.fd.address
      · simp only [if_pos ha]
        exact relocWrite_callsOnce w
      · simp only [if_neg ha]
        exact Or.inl ⟨_, fun _ => rfl⟩
  | yieldRetry => exact relocWrite_callsOnce w
  | yieldNext => exact Or.inl ⟨_, fun _ => rfl⟩
  | waitErase => exact Or.inl ⟨_, fun _ => rfl⟩

/-- `fs_thread` returns if the `fs_write` it may call does. -/
theorem fsThreadWith_returns (hi : InLoop w.fs) :
    ∃ write r, fsThreadWith write ans flag w = some r := by
  refine ⟨fun w _ _ _ => some (0, w), ?_⟩
  unfold InLoop at hi
  unfold fsThreadWith
  cases hpt : w.fs.pt with
  | null =>
    simp only
    split <;> exact ⟨_, rfl⟩
  | waitTimer =>
    simp only
    split <;> exact ⟨_, rfl⟩
  | yieldStart =>
    simp only
    split <;> exact ⟨_, rfl⟩
  | waitRead => exact ⟨_, rfl⟩
  | yieldRead =>
    rw [hpt] at hi
    simp only [List.getElem?_eq_getElem hi]
    split <;> exact ⟨_, rfl⟩
  | yieldRetry => exact ⟨_, rfl⟩
  | yieldNext => exact ⟨_, rfl⟩
  | waitErase => exact ⟨_, rfl⟩

/-- All functions that return alike in the world of the call lead to the same end. -/
theorem fsThreadWith_of_write (hi : InLoop w.fs)
    {write : World → BitVec 16 → BitVec 8 → List Byte → Option (Int × World)}
    (hw : ∀ name ext data, ∃ r, write w name ext data = some r) :
    ∃ r, fsThreadWith write ans flag w = some r ∧ ∀ write',
      (∀ name ext data, write' w name ext data = write w name ext data) →
        fsThreadWith write' ans flag w = some r := by
  rcases fsThreadWith_callsOnce ans flag w with ⟨r, hr⟩ | ⟨v, name, ext, data, k, rfl, -, hk⟩
  · obtain ⟨write', r', h'⟩ := fsThreadWith_returns ans flag hi
    rw [show r = some r' from (hr write').symm.trans h'] at hr
    exact ⟨r', hr write, fun write'' _ => hr write''⟩
  · obtain ⟨r, hr⟩ := hw name ext data
    refine ⟨k r, ?_, fun write' h => ?_⟩
    · have := hk write
      rw [hr] at this
      exact this
    · have := hk write'
      rw [h, hr] at this
      exact this

end thread

/-! ## `fs_write` -/

section write
variable {thread : World → Option World} {name : BitVec 16} {ext : BitVec 8} {data : List Byte}

/-- With room in the current sector `fs_write` returns and `fs_thread` plays no part in it. -/
theorem fsWriteWith_of_room (crc : Block → BitVec 32) (name : BitVec 16) (ext : BitVec 8)
    (data : List Byte) (hroom : ¬ w.fs.SectorIsFull w.fs.curr.sector) :
    ∃ r, ∀ thread, fsWriteWith crc thread w name ext data = some r := by
  by_cases hlen : data.length ≤ 28
  · exact ⟨_, fun _ => fsWriteWith_room hlen hroom⟩
  · exact ⟨_, fun _ => fsWriteWith_tooLong (by omega)⟩

/-- The sector that `updateSector` turns to, and what is left to do in it. -/
theorem fsWriteWith_next (hlen : data.length ≤ 28)
    (hfull : w.fs.SectorIsFull w.fs.curr.sector) {s : Fin 8}
    (hs : nextNotFull w.fs 8 w.fs.curr.sector = some s) {v : World}
    (hv : thread (w.setSector s) = some v) : fsWriteWith crc thread w name ext data =
      some (appendBlock crc v (writeBuffer name ext data)) := by
  unfold fsWriteWith updateSectorWith
  rw [if_neg (by unfold fsBlockSize; omega), if_pos hfull, hs]
  simp [hv]

end write

/-- The `fs_thread(1)` of `updateSector` calls `fs_write` with room in the current sector. -/
theorem nested_callsOnce (ans : Answers) {s : Fin 8}
    (hs : nextNotFull w.fs 8 w.fs.curr.sector = some s) :
    CallsOnce (fun v => ¬ v.fs.SectorIsFull v.fs.curr.sector)
      fun write => fsThreadWith write ans true (w.setSector s) := by
  refine (fsThreadWith_callsOnce ans true (w.setSector s)).mono ?_
  rintro v rfl
  have hroom : ¬ w.fs.SectorIsFull s := nextNotFull_some hs
  exact hroom

/-- That `fs_thread(1)` returns, whatever the inner `fs_write` would call. -/
theorem nested_returns (crc : Block → BitVec 32) (ans : Answers) (hi : InLoop w.fs) {s : Fin 8}
    (hs : nextNotFull w.fs 8 w.fs.curr.sector = some s) : ∃ r, ∀ thread,
      fsThreadWith (fsWriteWith crc thread) ans true (w.setSector s) = some r := by
  have hs' : ¬ w.fs.SectorIsFull s := nextNotFull_some hs
  have hroom : ¬ (w.setSector s).fs.SectorIsFull (w.setSector s).fs.curr.sector := hs'
  have hwrite : ∀ name ext data, ∃ r,
      fsWriteWith crc (fun _ => none) (w.setSector s) name ext data = some r := by
    intro name ext data
    obtain ⟨r, hr⟩ := fsWriteWith_of_room crc name ext data hroom
    exact ⟨r, hr _⟩
  obtain ⟨r, -, hr⟩ := fsThreadWith_of_write (w := w.setSector s) ans true hi hwrite
  refine ⟨r, fun thread => hr _ fun name ext data => ?_⟩
  obtain ⟨r', hr'⟩ := fsWriteWith_of_room crc name ext data hroom
  rw [hr', hr']

/-- `fs_write` returns, with two activations of it nested at most. -/
theorem nestedWrite_returns (crc : Block → BitVec 32) (ans : Answers) (hi : InLoop w.fs)
    (name : BitVec 16) (ext : BitVec 8) (data : List Byte) :
    ∃ r, ∀ thread, nestedWrite crc ans thread w name ext data = some r := by
  unfold nestedWrite
  by_cases hlen : data.length ≤ 28
  · by_cases hfull : w.fs.SectorIsFull w.fs.curr.sector
    · cases hs : nextNotFull w.fs 8 w.fs.curr.sector with
      | none =>
        have hall := all_full_of_none hs
        exact ⟨_, fun _ => fsWriteWith_allFull hlen hall⟩
      | some s =>
        obtain ⟨⟨c, v⟩, hr⟩ := nested_returns crc ans hi hs
        refine ⟨_, fun thread => fsWriteWith_next (v := v) hlen hfull hs ?_⟩
        rw [hr]
        rfl
    · obtain ⟨r, hr⟩ := fsWriteWith_of_room crc name ext data hfull
      exact ⟨r, fun thread => hr _⟩
  · exact ⟨_, fun _ => fsWriteWith_tooLong (by omega)⟩

/-! ## Every call returns -/

/-- Every call of `fs_write` and of `fs_thread` returns, with no more than two activations of
`fs_write` nested; `fs_thread` calls `fs_write` once before it yields, if at all, and the one that
`updateSector` has called does so with room in the current sector. -/
theorem recursion_ends (crc : Block → BitVec 32) (w : World) (hi : InLoop w.fs) (ans : Answers) :
    (∀ name ext data, ∃ r, (∀ thread, nestedWrite crc ans thread w name ext data = some r) ∧
      ∀ n, fsWrite crc ans (n + 1) w name ext data = some r) ∧
    (∀ flag, ∃ r, (∀ thread, fsThreadWith (nestedWrite crc ans thread) ans flag w = some r) ∧
      ∀ n, fsThread crc ans (n + 2) flag w = some r) ∧
    (∀ s, w.fs.SectorIsFull w.fs.curr.sector → nextNotFull w.fs 8 w.fs.curr.sector = some s →
      CallsOnce (fun v => ¬ v.fs.SectorIsFull v.fs.curr.sector)
        fun write => fsThreadWith write ans true (w.setSector s)) ∧
    ∀ flag, CallsOnce (fun _ => True) fun write => fsThreadWith write ans flag w := by
  have hwrite := fun name ext data => nestedWrite_returns crc ans hi name ext data
  refine ⟨fun name ext data => ?_, fun flag => ?_, fun s _ hs => nested_callsOnce ans hs,
    fun flag => (fsThreadWith_callsOnce ans flag w).mono fun _ _ => trivial⟩
  · obtain ⟨r, hr⟩ := hwrite name ext data
    exact ⟨r, hr, fun n => hr _⟩
  · have hnone : ∀ name ext data, ∃ r,
        nestedWrite crc ans (fun _ => none) w name ext data = some r := by
      intro name ext data
      obtain ⟨r, hr⟩ := hwrite name ext data
      exact ⟨r, hr _⟩
    obtain ⟨r, -, hr⟩ := fsThreadWith_of_write ans flag hi hnone
    have hall : ∀ thread, fsThreadWith (nestedWrite crc ans thread) ans flag w = some r := by
      intro thread
      refine hr _ fun name ext data => ?_
      obtain ⟨r', hr'⟩ := hwrite name ext data
      rw [hr', hr']
    exact ⟨r, hall, fun n => hall _⟩

/-- The thread holds a block, and the current sector is full: its append pointer is anywhere. -/
theorem recursion_ends_one : ∃ r, ∀ n, fsThread (fun _ => 0) ⟨true, true⟩ (n + 2) false
    ⟨{ Fs.zero with fd := [⟨0, .ofBytes 0 0 0 0, 3⟩],
                    curr := ⟨fun s => if s = 0 then 0xFFFFFFFF else 0, 0⟩,
                    pt := .yieldRead }, fun _ => 0, []⟩ = some r := by
  obtain ⟨-, hthread, -⟩ := recursion_ends (fun _ => 0)
    ⟨{ Fs.zero with fd := [⟨0, .ofBytes 0 0 0 0, 3⟩],
                    curr := ⟨fun s => if s = 0 then 0xFFFFFFFF else 0, 0⟩,
                    pt := .yieldRead }, fun _ => 0, []⟩ (Nat.zero_lt_one) ⟨true, true⟩
  obtain ⟨r, -, hr⟩ := hthread false
  exact ⟨r, hr⟩

end Wormvars
