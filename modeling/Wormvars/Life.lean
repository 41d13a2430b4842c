import Wormvars.Codec
import Wormvars.Harness
import Wormvars.Torn

/-!
# The life of a cell

`Codec` says what requests make of a block, and here they are the requests of the code.  A
legal program that is not a whole block is a rewrite of the header stored there
(`LegalProgram.rewrite`), and every rewrite of what is left of a block is one of the requests
(`Aged.request`).  So in a run without power cuts, from the program of a block to the erase of
its sector, the cell holds that block under requests (`block_life`).
-/

namespace Wormvars

open NorFlash Runs

variable {crc : Block → BitVec 32} {n : Nat}

/-! ## Legal programs -/

/-- A legal program of less than a block is one of the rewrites. -/
theorem LegalProgram.rewrite {fs : Fs} {f : Mem} {a : Nat} {bs : List Byte}
    (h : LegalProgram fs f a bs) (hl : bs.length ≠ fsBlockSize) :
    ∃ g, Rewrite (flashRead f a).header g bs := by
  obtain ⟨-, hsub, hwhat⟩ := h.header hl
  have hstored := program_of_submask f a bs hsub
  have hbytes : (flashRead (program f a bs) a).header.toBytes = [program f a bs a,
      program f a bs (a + 1), program f a bs (a + 2), program f a bs (a + 3)] :=
    BlockHeader.toBytes_ofBytes _ _ _ _
  refine ⟨(flashRead (program f a bs) a).header, ?_, ?_⟩
  · exact hwhat.imp (fun e => by rw [e]) (fun e => by rw [e])
  · rw [hbytes]
    rcases h.length with h32 | h4 | h1
    · exact absurd h32 hl
    · left
      refine List.ext_getElem h4 fun i hi hi' => ?_
      rw [← hstored i hi]
      obtain rfl | rfl | rfl | rfl : i = 0 ∨ i = 1 ∨ i = 2 ∨ i = 3 := by omega
      · rfl
      · rfl
      · rfl
      · rfl
    · right
      refine List.ext_getElem h1 fun i hi hi' => ?_
      rw [← hstored i hi]
      obtain rfl : i = 0 := by omega
      rfl

/-! ## The cell -/

/-- What a program leaves of a cell depends on that cell only. -/
theorem flashRead_program_congr {f g : Mem} {a : Nat} (h : flashRead f a = flashRead g a)
    (bs : List Byte) : flashRead (program f a bs) a = flashRead (program g a bs) a := by
  have hbytes : (List.ofFn fun i : Fin 32 => f (a + i)) =
      List.ofFn fun i : Fin 32 => g (a + i) := by
    rw [← flashRead_toBytes, ← flashRead_toBytes, h]
  have hcell := congrFun (List.ofFn_injective hbytes)
  refine flashRead_congr fun x h₁ h₂ => ?_
  have hx : f x = g x := by
    have := hcell ⟨x - a, by omega⟩
    rwa [show a + (⟨x - a, by omega⟩ : Fin 32).val = x from Nat.add_sub_cancel' h₁] at this
  unfold program
  rw [hx]

theorem rewrites_append (g : BlockHeader) (a : Nat) (f : Mem) (l : List Request) (r : Request) :
    rewrites g a f (l ++ [r]) = program (rewrites g a f l) a (r.bytes g) := by
  unfold rewrites
  rw [List.foldl_append]
  rfl

/-- The cell at `a` of `g` reads as that of `f` after requests over the block `c`. -/
def Requested (c : Block) (a : Nat) (f g : Mem) : Prop :=
  ∃ l : List Request, flashRead g a = flashRead (rewrites c.header a f l) a

section cell
variable {c : Block} {a : Nat} {f g : Mem}

theorem Requested.refl (c : Block) (a : Nat) (f : Mem) : Requested c a f f := ⟨[], rfl⟩

/-- What does not touch the cell. -/
theorem Requested.congr {g' : Mem} (h : Requested c a f g)
    (hg : flashRead g' a = flashRead g a) : Requested c a f g' := by
  obtain ⟨l, hl⟩ := h
  exact ⟨l, hg.trans hl⟩

theorem Requested.aged (h : Requested c a f g) (hc : flashRead f a = c) :
    ∃ zeroed, Aged c zeroed (flashRead g a) := by
  obtain ⟨l, hl⟩ := h
  rw [hl]
  exact ⟨_, Aged.of_rewrites hc l⟩

/-- A legal program of the cell is a request. -/
theorem Requested.program {fs : Fs} {bs : List Byte} (h : Requested c a f g)
    (hc : flashRead f a = c) (hacc : Accepted crc c) (hlegal : LegalProgram fs g a bs) :
    Requested c a f (program g a bs) := by
  obtain ⟨zeroed, haged⟩ := h.aged hc
  -- the cell is in use, so that no block is programmed there
  have hl : bs.length ≠ fsBlockSize := by
    intro hl
    obtain ⟨-, -, hblank⟩ := hlegal.block hl
    have hcheck := haged.checkBlock hacc
    rw [(checkBlock_blank_iff crc _).2 (header_of_blank hblank)] at hcheck
    revert hcheck
    cases zeroed
    · decide
    · decide
  obtain ⟨g', hr⟩ := hlegal.rewrite hl
  obtain ⟨r, rfl⟩ := haged.request hr
  obtain ⟨l, hl⟩ := h
  refine ⟨l ++ [r], ?_⟩
  rw [rewrites_append]
  exact flashRead_program_congr hl _

/-- From the program of a block on, as long as its sector is not erased. -/
theorem Chain.requested {k : List Event} {s : Fin 8} (h : Chain f k g)
    (hc : flashRead f a = c) (hacc : Accepted crc c) (ha : IsCell a) (hs : InSector s a)
    (hgood : ∀ e ∈ k, ∃ Ms, Good crc Ms e)
    (hno : ∀ e ∈ k, e.op ≠ .erase (sectorBase s)) :
    Requested c a f g := by
  induction h with
  | nil => exact .refl c a f
  | @cons l e h _ ih =>
    have hl := ih (fun x hx => hgood x (List.mem_cons_of_mem _ hx))
      fun x hx => hno x (List.mem_cons_of_mem _ hx)
    obtain ⟨Ms, hg⟩ := hgood e List.mem_cons_self
    have hne := hno e List.mem_cons_self
    have hon := hg.onCells
    obtain ⟨fs, g, op⟩ := e
    cases op with
    | program b bs =>
      by_cases hb : b = a
      · subst hb
        exact hl.program hc hacc (hg.legal b bs rfl)
      · obtain ⟨hcell, hlen⟩ := hon
        unfold IsCell at ha hcell
        exact hl.congr (flashRead_program_outside g b bs a (by omega))
    | erase b =>
      obtain ⟨t, rfl⟩ := hon
      have hts : t ≠ s := fun ht => hne (by rw [ht])
      refine hl.congr (flashRead_congr fun x h₁ h₂ => erase_outside _ _ _ _ ?_)
      have hbase := sectorBase_eq s
      have hbase' := sectorBase_eq t
      have hval : t.val ≠ s.val := fun h => hts (Fin.ext h)
      unfold IsCell at ha
      unfold InSector at hs
      unfold filesystemSectorSize
      omega
    | returns r => exact hl

end cell

/-! ## Runs -/

/-- In a run without power cuts, from the program of a block to the erase of its sector: the cell
holds the block under some of the requests, so that it is valid until its size is zeroed and
invalid from then on, with the key and the payload that were programmed. -/
theorem block_life {h : List Label} {w : World} {p l : List Event} {e : Event} {a : Nat}
    {bs : List Byte} {s : Fin 8}
    (he : Emits (Step crc (n + 2)) (issued crc (n + 2)) (.on (coldBoot crc erased)) h (.on w)
      (p ++ e :: l)) (hu : Undisturbed h)
    (hop : e.op = .program a bs) (hlen : bs.length = fsBlockSize) (hs : InSector s a)
    (hno : ∀ x ∈ p, x.op ≠ .erase (sectorBase s)) :
    ∃ (c : Block) (reqs : List Request), bs = c.toBytes ∧ Accepted crc c ∧
      flashRead w.flash a = flashRead (rewrites c.header a (program e.flash a bs) reqs) a ∧
      (checkBlock crc (flashRead w.flash a)).1 =
        (if reqs.any Request.zeroesSize then blockIsInvalid else 0) ∧
      (flashRead w.flash a).header.key = c.header.key ∧ (flashRead w.flash a).data = c.data := by
  have hgood := hu.logged he fun hi hslot hex => hi.exec_good hslot hex
  have hblock := hu.logged he (P := fun e => ∃ M Q, e.Tears crc M Q) fun hi hslot hex e hm =>
    ⟨_, _, hi.exec_tears hslot hex e hm⟩
  have hmem : e ∈ p ++ e :: l := List.mem_append_right _ List.mem_cons_self
  obtain ⟨Ms, hg⟩ := hgood e hmem
  obtain ⟨M, Q, ht⟩ := hblock e hmem
  obtain ⟨c, rfl, hacc, -⟩ := ht a bs hop hlen
  obtain ⟨hcell, -, hblank⟩ := (hg.legal a _ hop).block hlen
  obtain ⟨-, -, hchain⟩ := (hu.chain he).split
  rw [hop] at hchain
  have hc : flashRead (program e.flash a c.toBytes) a = c := flashRead_program_blank hblank c
  obtain ⟨reqs, hreqs⟩ := hchain.requested hc hacc hcell hs
    (fun x hx => hgood x (List.mem_append_left _ hx)) hno
  have haged : Aged c (reqs.any Request.zeroesSize) (flashRead w.flash a) := by
    rw [hreqs]
    exact Aged.of_rewrites hc reqs
  refine ⟨c, reqs, rfl, hacc, hreqs, haged.checkBlock hacc, ?_, funext haged.data⟩
  obtain ⟨m, hm⟩ := haged.header
  rw [hm]
  rfl

end Wormvars
