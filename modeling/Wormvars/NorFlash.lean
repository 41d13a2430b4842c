import Mathlib.Data.List.GetD
import Mathlib.Tactic.Common

/-!
# NOR flash memory

A byte-addressed memory with the two things a NOR device can do to it:

* `program m a bs` writes the bytes `bs` from address `a` on.  Programming only
  clears bits: what is stored afterwards is the bitwise AND of the old content
  and the request (`program_at`).
* `erase m a n` sets the `n` bytes from `a` on to `0xFF`.

A request that is a submask of what is stored is stored as it is
(`program_of_submask`); programming a blank range stores the request
(`program_of_blank`).  A program that lost power after `k` bytes is
`program m a (bs.take k)` (`program_take`).
-/

namespace NorFlash

abbrev Byte := BitVec 8

/-- Content of every address. -/
abbrev Mem := Nat → Byte

def program (m : Mem) (a : Nat) (bs : List Byte) : Mem :=
  fun x => if a ≤ x then m x &&& bs.getD (x - a) 0xFF else m x

def erase (m : Mem) (a n : Nat) : Mem :=
  fun x => if a ≤ x ∧ x < a + n then 0xFF else m x

/-- The `n` bytes from `a` on are erased. -/
def Blank (m : Mem) (a n : Nat) : Prop := ∀ x, a ≤ x → x < a + n → m x = 0xFF

/-- `bs` asks for no bit to be set that is clear in `m` at `a`. -/
def Submask (m : Mem) (a : Nat) (bs : List Byte) : Prop :=
  ∀ i (h : i < bs.length), bs[i] &&& m (a + i) = bs[i]

theorem and_ones (b : Byte) : b &&& 0xFF = b := BitVec.and_allOnes (x := b)

theorem ones_and (b : Byte) : 0xFF &&& b = b := BitVec.allOnes_and (x := b)

theorem of_and_eq_ones {x y : Byte} (h : x &&& y = 0xFF) : y = 0xFF := by
  have : x &&& y &&& y = x &&& y := by rw [BitVec.and_assoc, BitVec.and_self]
  rwa [h, ones_and] at this

/-! ## Program -/

theorem program_outside (m : Mem) (a : Nat) (bs : List Byte) (x : Nat)
    (h : x < a ∨ a + bs.length ≤ x) : program m a bs x = m x := by
  unfold program
  split
  · rw [List.getD_eq_default _ _ (by omega), and_ones]
  · rfl

theorem program_at (m : Mem) (a : Nat) (bs : List Byte) (i : Nat) (h : i < bs.length) :
    program m a bs (a + i) = m (a + i) &&& bs[i] := by
  unfold program
  rw [if_pos (by omega), Nat.add_sub_cancel_left, List.getD_eq_getElem _ _ h]

/-- Programming never sets a bit. -/
theorem program_and_self (m : Mem) (a : Nat) (bs : List Byte) (x : Nat) :
    program m a bs x &&& m x = program m a bs x := by
  unfold program
  split
  · rw [BitVec.and_assoc, BitVec.and_comm (bs.getD _ _), ← BitVec.and_assoc, BitVec.and_self]
  · exact BitVec.and_self

theorem program_of_submask (m : Mem) (a : Nat) (bs : List Byte) (hs : Submask m a bs) (i : Nat)
    (h : i < bs.length) : program m a bs (a + i) = bs[i] := by
  rw [program_at _ _ _ _ h, BitVec.and_comm, hs i h]

theorem program_of_blank (m : Mem) (a : Nat) (bs : List Byte) (hb : Blank m a bs.length) (i : Nat)
    (h : i < bs.length) : program m a bs (a + i) = bs[i] := by
  rw [program_at _ _ _ _ h, hb _ (by omega) (by omega), ones_and]

theorem Submask.take {m : Mem} {a : Nat} {bs : List Byte} (h : Submask m a bs) (k : Nat) :
    Submask m a (bs.take k) := by
  intro i hi
  rw [List.length_take] at hi
  rw [List.getElem_take]
  exact h i (by omega)

/-- A program cut after `k` bytes has done its work below `a + k` and nothing above. -/
theorem program_take (m : Mem) (a : Nat) (bs : List Byte) (k x : Nat) :
    program m a (bs.take k) x = if x < a + k then program m a bs x else m x := by
  unfold program
  by_cases hx : a ≤ x
  · rw [if_pos hx, if_pos hx]
    split
    · rw [List.getD_eq_getElem?_getD, List.getElem?_take_of_lt (by omega), List.getD_eq_getElem?_getD]
    · rw [List.getD_eq_default _ _ (by rw [List.length_take]; omega), and_ones]
  · rw [if_neg hx, if_neg hx, ite_self]

/-! ## Erase -/

theorem erase_inside (m : Mem) (a n x : Nat) (h₁ : a ≤ x) (h₂ : x < a + n) :
    erase m a n x = 0xFF := if_pos ⟨h₁, h₂⟩

theorem erase_outside (m : Mem) (a n x : Nat) (h : x < a ∨ a + n ≤ x) : erase m a n x = m x :=
  if_neg (by omega)

end NorFlash
