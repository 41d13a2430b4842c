import Wormvars.Protothread
import Wormvars.Thread

/-!
# `fs_thread` as it is written

`Thread.lean` has `fs_thread` as a function that branches on the label in `Fs.pt`.  Here it is
the text of the source: a `for` loop with a `while` loop in it, with waits and yields, that
the macros turn into a `switch` into the middle of these loops (`fsThreadBody`).  The two
agree for every label and every `fs_write` (`fsThreadWith_iff_calls`), so `fs_thread` is
the thread that its text says (`fs_thread_refines_thread`).
-/

namespace Wormvars

open NorFlash Protothread Runs

/-! ## The text -/

/-- The argument of a call, and what its waits are told. -/
structure ThreadArgs where
  relocFlag : Bool
  ans : Answers

/-- `Fs.pt`. -/
def ptOfFs : Pt World PtLabel where
  lc w := w.fs.pt
  setLc l w := w.setPt l
  null := .null
  lc_setLc _ _ := rfl
  setLc_lc _ := rfl

def PtCode.code : PtCode → Code
  | .waiting => .waiting
  | .yielded => .yielded
  | .ended => .ended

section body
variable (write : World → BitVec 16 → BitVec 8 → List Byte → Option (Int × World))

/-- A test of `Fs.fd[Fs.reloc.fd_index]`, which has to be there. -/
def testFd (c : Fs → FileDescriptor → Bool) (_ : ThreadArgs) (w : World) : Option (Bool × World) :=
  (w.fs.fd[w.fs.reloc.fdIndex]?).map fun fd => (c w.fs fd, w)

def nop : Thread World ThreadArgs PtLabel := .act fun _ w => some w

/-- `while (fs_write(…) < 0) { PT_YIELD(&Fs.pt); }` -/
def retryLoop : Thread World ThreadArgs PtLabel :=
  .loop
    (fun _ w =>
      let header := w.fs.reloc.fd.header
      (write w header.name (header.ext.setWidth 8) (List.ofFn w.fs.reloc.buffer.data)).map
        fun r => (decide (r.1 < 0), r.2))
    (.yield .yieldRetry)

/-- From the comparison of the addresses to the end of the loop body. -/
def fdWrite : Thread World ThreadArgs PtLabel :=
  .seq (.ite (testFd fun fs fd => fd.address = fs.reloc.fd.address) (retryLoop write) nop)
    (.yield .yieldNext)

/-- From the wait before `flash_read`. -/
def fdRead : Thread World ThreadArgs PtLabel :=
  .seq (.waitUntil .waitRead fun a _ => a.ans.flashReady) <|
  .seq (.act fun _ w => some (w.setReloc
    { w.fs.reloc with buffer := flashRead w.flash w.fs.reloc.fd.address })) <|
  .seq (.yield .yieldRead) (fdWrite write)

/-- `memcpy(&Fs.reloc.fd, &Fs.fd[Fs.reloc.fd_index], …)` -/
def fdCopy : Thread World ThreadArgs PtLabel :=
  .act fun _ w => (w.fs.fd[w.fs.reloc.fdIndex]?).map fun fd =>
    w.setReloc { w.fs.reloc with fd := fd }

/-- `Fs.reloc.fd_index++` -/
def fdNext : Thread World ThreadArgs PtLabel :=
  .act fun _ w => some (w.setReloc { w.fs.reloc with fdIndex := w.fs.reloc.fdIndex + 1 })

def forLoop : Thread World ThreadArgs PtLabel :=
  .loop (fun _ w => some (decide (w.fs.reloc.fdIndex < w.fs.fd.length), w))
    (.seq
      (.ite (testFd fun fs fd => fd.sector = fs.reloc.sector) (.seq fdCopy (fdRead write)) nop)
      fdNext)

/-- From the end of the loop. -/
def eraseTail : Thread World ThreadArgs PtLabel :=
  .seq (.waitUntil .waitErase fun a _ => a.ans.flashReady) <|
  .seq (.act fun _ w => some (w.flashErase (sectorBase w.fs.reloc.sector)))
    (.act fun _ w => some (w.setAddress w.fs.reloc.sector (sectorBase w.fs.reloc.sector)))

/-- `findRelocSector(&Fs.reloc.sector) < 0` -/
def noVictim (_ : ThreadArgs) (w : World) : Option (Bool × World) :=
  match findRelocSector w.fs with
  | none => some (true, w)
  | some sector => some (false, w.setReloc { w.fs.reloc with sector := sector })

/-- From the search for a sector. -/
def startTail : Thread World ThreadArgs PtLabel :=
  .seq (.ite noVictim .restart nop) <|
  .seq (.act fun _ w => some (w.setReloc { w.fs.reloc with fdIndex := 0 })) <|
  .seq (forLoop write) eraseTail

def fsThreadBody : Thread World ThreadArgs PtLabel :=
  .seq (.waitUntil .waitTimer fun a _ => a.relocFlag || a.ans.timerExpired) <|
  .seq (.yield .yieldStart) (startTail write)

def fsThreadProgram : Program World ThreadArgs PtLabel where
  pt := ptOfFs
  body := fsThreadBody write
  nodup := by
    show [PtLabel.waitTimer, .yieldStart, .waitRead, .yieldRead, .yieldRetry, .yieldNext,
      .waitErase].Nodup
    decide
  null_notMem := by
    show PtLabel.null ∉ [PtLabel.waitTimer, .yieldStart, .waitRead, .yieldRead, .yieldRetry,
      .yieldNext, .waitErase]
    decide

/-- What is left to do at each label. -/
def leftAt : PtLabel → List (Thread World ThreadArgs PtLabel)
  | .null => [fsThreadBody write]
  | .waitTimer => [.waitUntil .waitTimer fun a _ => a.relocFlag || a.ans.timerExpired,
      .seq (.yield .yieldStart) (startTail write)]
  | .yieldStart => [startTail write]
  | .waitRead => [.waitUntil .waitRead fun a _ => a.ans.flashReady,
      .seq (.act fun _ w => some (w.setReloc
        { w.fs.reloc with buffer := flashRead w.flash w.fs.reloc.fd.address }))
        (.seq (.yield .yieldRead) (fdWrite write)), fdNext, forLoop write, eraseTail]
  | .yieldRead => [fdWrite write, fdNext, forLoop write, eraseTail]
  | .yieldRetry => [retryLoop write, .yield .yieldNext, fdNext, forLoop write, eraseTail]
  | .yieldNext => [fdNext, forLoop write, eraseTail]
  | .waitErase => [.waitUntil .waitErase fun a _ => a.ans.flashReady,
      .seq (.act fun _ w => some (w.flashErase (sectorBase w.fs.reloc.sector)))
        (.act fun _ w => some (w.setAddress w.fs.reloc.sector (sectorBase w.fs.reloc.sector)))]

theorem left_fsThread (l : PtLabel) : (fsThreadProgram write).left l = some (leftAt write l) := by
  cases l <;> rfl

/-! ## The parts of a call -/

/-- With `k` left to do a call does `r`, or what it does has no value. -/
def Agrees (a : ThreadArgs) (k : List (Thread World ThreadArgs PtLabel)) (w : World)
    (r : Option (PtCode × World)) : Prop :=
  ∀ c u, Stops (fsThreadProgram write) a k w c u ↔ ∃ q, r = some q ∧ q.1.code = c ∧ q.2 = u

variable {write} {a : ThreadArgs} {w v : World} {k : List (Thread World ThreadArgs PtLabel)}
  {x y : Thread World ThreadArgs PtLabel} {r : Option (PtCode × World)}

theorem returned (code : PtCode) (c : Code) (u : World) :
    c = code.code ∧ u = v ↔ ∃ q, some (code, v) = some q ∧ q.1.code = c ∧ q.2 = u := by
  constructor
  · rintro ⟨rfl, rfl⟩
    exact ⟨_, rfl, rfl, rfl⟩
  · rintro ⟨q, hq, rfl, rfl⟩
    cases hq
    exact ⟨rfl, rfl⟩

theorem agrees_seq (h : Agrees write a (x :: y :: k) w r) : Agrees write a (.seq x y :: k) w r :=
  fun c u => stops_seq.trans (h c u)

theorem agrees_of_seq (h : Agrees write a (.seq x y :: k) w r) : Agrees write a (x :: y :: k) w r :=
  fun c u => stops_seq.symm.trans (h c u)

theorem agrees_act {f : ThreadArgs → World → Option World} (hf : f a w = some v)
    (h : Agrees write a k v r) : Agrees write a (.act f :: k) w r := by
  intro c u
  rw [stops_act, hf, ← h c u]
  simp

theorem agrees_ite {e : ThreadArgs → World → Option (Bool × World)} {b : Bool}
    (he : e a w = some (b, v)) (h : Agrees write a ((if b then x else y) :: k) v r) :
    Agrees write a (.ite e x y :: k) w r := by
  intro c u
  rw [stops_ite, he, ← h c u]
  simp

theorem agrees_ite_none {e : ThreadArgs → World → Option (Bool × World)} (he : e a w = none) :
    Agrees write a (.ite e x y :: k) w none := by
  intro c u
  rw [stops_ite, he]
  simp

theorem agrees_loop {e : ThreadArgs → World → Option (Bool × World)} {b : Bool}
    (he : e a w = some (b, v)) (h : Agrees write a (if b then x :: .loop e x :: k else k) v r) :
    Agrees write a (.loop e x :: k) w r := by
  intro c u
  rw [stops_loop, he, ← h c u]
  simp

theorem agrees_loop_none {e : ThreadArgs → World → Option (Bool × World)} (he : e a w = none) :
    Agrees write a (.loop e x :: k) w none := by
  intro c u
  rw [stops_loop, he]
  simp

theorem agrees_pass {l : PtLabel} {c : ThreadArgs → World → Bool} (hc : c a (w.setPt l) = true)
    (h : Agrees write a k (w.setPt l) r) : Agrees write a (.waitUntil l c :: k) w r :=
  fun d u => (stops_waitUntil l c).trans ((iff_of_eq (if_pos hc)).trans (h d u))

theorem agrees_wait {l : PtLabel} {c : ThreadArgs → World → Bool}
    (hc : c a (w.setPt l) = false) :
    Agrees write a (.waitUntil l c :: k) w (some (.waiting, w.setPt l)) :=
  fun d u => (stops_waitUntil l c).trans
    ((iff_of_eq (if_neg (Bool.eq_false_iff.1 hc))).trans (returned .waiting d u))

theorem agrees_yield (l : PtLabel) :
    Agrees write a (.yield l :: k) w (some (.yielded, w.setPt l)) :=
  fun c u => (stops_yield l).trans (returned .yielded c u)

theorem agrees_restart : Agrees write a (.restart :: k) w (some (.waiting, w.setPt .null)) :=
  fun c u => stops_restart.trans (returned .waiting c u)

theorem agrees_ended : Agrees write a [] w (some (.ended, w.setPt .null)) :=
  fun c u => stops_nil.trans (returned .ended c u)

theorem agrees_eraseTail : Agrees write a [eraseTail] w (some (relocErase a.ans w)) := by
  refine agrees_seq ?_
  unfold relocErase
  cases hr : a.ans.flashReady with
  | true => exact agrees_pass hr (agrees_seq (agrees_act rfl (agrees_act rfl agrees_ended)))
  | false => exact agrees_wait hr

theorem agrees_fdRead : Agrees write a (fdRead write :: k) w (some (relocRead a.ans w)) := by
  refine agrees_seq ?_
  unfold relocRead
  cases hr : a.ans.flashReady with
  | true => exact agrees_pass hr (agrees_seq (agrees_act rfl (agrees_seq (agrees_yield _))))
  | false => exact agrees_wait hr

/-- By induction on the descriptors that the loop has before it. -/
theorem agrees_forLoop (fds : List FileDescriptor) {w : World}
    (hfds : w.fs.fd.drop w.fs.reloc.fdIndex = fds) :
    Agrees write a [forLoop write, eraseTail] w (some (relocLoop a.ans fds w)) := by
  induction fds generalizing w with
  | nil =>
    have hlen : ¬ w.fs.reloc.fdIndex < w.fs.fd.length := by
      have := List.drop_eq_nil_iff.1 hfds
      omega
    exact agrees_loop (b := false) (by rw [decide_eq_false hlen]) agrees_eraseTail
  | cons fd rest ih =>
    have hlen : w.fs.reloc.fdIndex < w.fs.fd.length := by
      have := congrArg List.length hfds
      rw [List.length_drop, List.length_cons] at this
      omega
    have hfd : w.fs.fd[w.fs.reloc.fdIndex]? = some fd := by
      have := congrArg (fun l => l[0]?) hfds
      simpa using this
    have hrest : w.fs.fd.drop (w.fs.reloc.fdIndex + 1) = rest := by
      rw [← List.tail_drop, hfds, List.tail_cons]
    refine agrees_loop (b := true) (by rw [decide_eq_true hlen]) (agrees_seq ?_)
    unfold relocLoop
    by_cases hs : fd.sector = w.fs.reloc.sector
    · rw [if_pos hs]
      refine agrees_ite (b := true) (v := w) ?_ (agrees_seq (agrees_act (v := w.setReloc
        { w.fs.reloc with fd := fd }) ?_ agrees_fdRead))
      · simp [testFd, hfd, hs]
      · simp [hfd]
    · rw [if_neg hs]
      refine agrees_ite (b := false) (v := w) ?_ (agrees_act rfl (agrees_act rfl (ih hrest)))
      simp [testFd, hfd, hs]

theorem agrees_fdNext :
    Agrees write a [fdNext, forLoop write, eraseTail] w (some (relocNext a.ans w)) :=
  agrees_act rfl (agrees_forLoop _ rfl)

theorem agrees_retryLoop :
    Agrees write a (retryLoop write :: .yield .yieldNext :: k) w (relocWrite write w) := by
  unfold relocWrite
  dsimp only
  split
  · next hw => exact agrees_loop_none (by simp only [hw, Option.map_none])
  · next r v hw =>
    by_cases hr : r < 0
    · rw [if_pos hr]
      refine agrees_loop (b := true) (v := v) ?_ (agrees_yield _)
      simp only [hw, Option.map_some, decide_eq_true hr]
    · rw [if_neg hr]
      refine agrees_loop (b := false) (v := v) ?_ (agrees_yield _)
      simp only [hw, Option.map_some, decide_eq_false hr]

theorem agrees_start : Agrees write a (leftAt write .waitTimer) w
    (if a.relocFlag ∨ a.ans.timerExpired then
      some (.yielded, (w.setPt .waitTimer).setPt .yieldStart)
    else some (.waiting, w.setPt .waitTimer)) := by
  split
  · next ht => exact agrees_pass (by simpa using ht) (agrees_seq (agrees_yield _))
  · next ht => exact agrees_wait (by simpa using ht)

/-- One call of `fs_thread`, wherever it goes on. -/
theorem agrees_fsThread :
    Agrees write a (leftAt write w.fs.pt) w (fsThreadWith write a.ans a.relocFlag w) := by
  unfold fsThreadWith
  cases hpt : w.fs.pt with
  | null => exact agrees_seq agrees_start
  | waitTimer => exact agrees_start
  | yieldStart =>
    refine agrees_seq ?_
    dsimp only
    split
    · next hnone =>
      exact agrees_ite (b := true) (v := w) (by rw [noVictim, hnone]) agrees_restart
    · next sector hsome =>
      exact agrees_ite (b := false) (by rw [noVictim, hsome]) (agrees_act rfl
        (agrees_seq (agrees_act rfl (agrees_seq (agrees_forLoop w.fs.fd List.drop_zero)))))
  | waitRead => exact agrees_of_seq agrees_fdRead
  | yieldRead =>
    refine agrees_seq ?_
    dsimp only
    split
    · next hnone => exact agrees_ite_none (by simp [testFd, hnone])
    · next fd hsome =>
      split
      · next hsame =>
        exact agrees_ite (b := true) (v := w) (by simp [testFd, hsome, hsame]) agrees_retryLoop
      · next hmoved =>
        exact agrees_ite (b := false) (v := w) (by simp [testFd, hsome, hmoved])
          (agrees_act rfl (agrees_yield _))
  | yieldRetry => exact agrees_retryLoop
  | yieldNext => exact agrees_fdNext
  | waitErase => exact agrees_of_seq agrees_eraseTail

/-- `fs_thread` as it is modelled is the function that the macros make of its text. -/
theorem fsThreadWith_iff_calls (relocFlag : Bool) (ans : Answers) (c : Code) (v : World) :
    Calls ptOfFs (fsThreadBody write) ⟨relocFlag, ans⟩ w c v ↔
      ∃ q, fsThreadWith write ans relocFlag w = some q ∧ q.1.code = c ∧ q.2 = v :=
  (calls_iff_stops (P := fsThreadProgram write) (left_fsThread write w.fs.pt)).trans
    (agrees_fsThread c v)

/-- Calls of `fs_thread` with the arguments and the results in the history, and other changes of
the globals between them, which leave `Fs.pt` alone. -/
inductive ThreadStep (write : World → BitVec 16 → BitVec 8 → List Byte → Option (Int × World))
    (R : World → World → Prop) : World → Protothread.Event ThreadArgs → World → Prop
  | call {a : ThreadArgs} {q : PtCode × World} {w : World} :
      fsThreadWith write a.ans a.relocFlag w = some q →
      ThreadStep write R w (.call a q.1.code) q.2
  | other {w v : World} : R w v → v.fs.pt = w.fs.pt → ThreadStep write R w .other v

theorem threadStep_iff {R : World → World → Prop} {e : Protothread.Event ThreadArgs} :
    ThreadStep write R w e v ↔ StepC (fsThreadProgram write) R w e v := by
  have hleft := left_fsThread write w.fs.pt
  constructor
  · rintro (h | ⟨hR, hpt⟩)
    · have hstops := (agrees_fsThread _ _).2 ⟨_, h, rfl, rfl⟩
      exact .call ((calls_iff_stops hleft).2 hstops)
    · exact .other hR hpt
  · rintro (h | ⟨hR, hpt⟩)
    · obtain ⟨q, hq, rfl, rfl⟩ := (agrees_fsThread _ _).1 ((calls_iff_stops hleft).1 h)
      exact .call hq
    · exact .other hR hpt

/-- Over any run `fs_thread` returns and does what the thread of its text does, which remembers
what it has left to do and never looks at `Fs.pt`.  At the start of the thread that is all of
the text (`leftAt write .null`). -/
theorem fs_thread_refines_thread {R : World → World → Prop}
    {h : List (Protothread.Event ThreadArgs)} :
    Run (ThreadStep write R) w h v ↔
      Run (StepT (fsThreadProgram write) R) (leftAt write w.fs.pt, w) h
        (leftAt write v.fs.pt, v) := by
  have hstep : Run (ThreadStep write R) w h v ↔ Run (StepC (fsThreadProgram write) R) w h v :=
    ⟨fun hr => hr.mono fun _ _ _ => threadStep_iff.1,
      fun hr => hr.mono fun _ _ _ => threadStep_iff.2⟩
  rw [hstep, run_iff (left_fsThread write w.fs.pt)]
  constructor
  · rintro ⟨k, hk, hr⟩
    cases (left_fsThread write v.fs.pt).symm.trans hk
    exact hr
  · intro hr
    exact ⟨_, left_fsThread write v.fs.pt, hr⟩

end body

end Wormvars
