/-
Dan64/DasmListing.lean

The listing loop of the standalone disassembler.

Two 16-bit counters go forward together, and the loop ends when the address is `$ffff`
or the length 0: it looks for exact values.  From the load address on the input is cut
into instructions (`Cut`), the lines tile it (`Tiles`), and everything depends on the
instruction that the last byte of the input is in: the loop does not stop if that one is
longer than the input, and it stops in front of it if it begins at `$ffff`
(`listing_iff`).
-/
import Dan64.DasmRound

namespace Dan64

open BlockMem AddrEnum

/-- What is printed for an instruction, as far as it matters here: the address, and the
length that `dasm_das` returns. -/
structure ListLine where
  addr : Word
  opLen : ℕ
  deriving DecidableEq

variable (past : OpRow) (ram : Word → Byte)

/-- `dasm_ram_read` and `dasm_das` -/
def opLenAt (addr : Word) : ℕ := (dasmDas past addr (ram addr) (ram (addr + 1)) (ram (addr + 2))).2

/-- The loop, for at most as many lines as `fuel`. -/
def listing : ℕ → Word → Word → Option (List ListLine)
  | 0, _, _ => none
  | fuel + 1, addr, len =>
    let opLen := opLenAt past ram addr
    let line : ListLine := ⟨addr, opLen⟩
    let addr := addr + BitVec.ofNat 16 opLen
    let len := len - BitVec.ofNat 16 opLen
    if addr < 0xffff#16 ∧ len > 0#16 then (listing fuel addr len).map (line :: ·)
    else some [line]

/-- `ram` behind `fread`. -/
def loaded (load : Word) (file : List Byte) : Word → Byte :=
  writeBlock (fun _ => 0) load (file.take (0x10000 - load.toNat))

/-- `main` with `-d`: what is read, and listed. -/
def disassemble (load : Word) (file : List Byte) (fuel : ℕ) : Option (List ListLine) :=
  let len := BitVec.ofNat 16 (file.take (0x10000 - load.toNat)).length
  listing past (loaded load file) fuel load len

/-! ### What a listing should be -/

/-- The address is one of the bytes of the line. -/
def ListLine.Covers (a : Word) (line : ListLine) : Prop := (a - line.addr).toNat < line.opLen

instance (a : Word) : DecidablePred (ListLine.Covers a) :=
  fun line => inferInstanceAs (Decidable (_ < line.opLen))

/-- The lines start at the load address, one behind the other, inside the input, and every
byte of the input is in one of them. -/
structure Lists (load : Word) (n : ℕ) (lines : List ListLine) : Prop where
  first : ∀ line ∈ lines.head?, line.addr = load
  next : lines.IsChain fun line line' => line'.addr = line.addr + BitVec.ofNat 16 line.opLen
  inside : ∀ line ∈ lines, (line.addr - load).toNat < n
  once : ∀ i < n, lines.countP (fun line => decide (line.Covers (load + BitVec.ofNat 16 i))) = 1

/-- The loop ends, and lists the input. -/
def ListsInput (load : Word) (file : List Byte) : Prop :=
  ∃ fuel lines, disassemble past load file fuel = some lines ∧ Lists load file.length lines

/-- The length of the instruction at a position. -/
def lenAt (p : ℕ) : ℕ := opLenAt past ram (BitVec.ofNat 16 p)

/-- From one position to another, instruction by instruction. -/
inductive Cut : ℕ → ℕ → Prop
  | refl (p : ℕ) : Cut p p
  | step {p s : ℕ} : Cut (p + lenAt past ram p) s → Cut p s

/-- There is an input, and the instruction that its last byte is in ends with it or in
front of `$ffff`, and does not begin at `$ffff` but for the load address. -/
def Aligned (load : Word) (file : List Byte) : Prop :=
  file ≠ [] ∧ ∀ s, Cut past (loaded load file) load.toNat s → s < load.toNat + file.length →
    load.toNat + file.length ≤ s + lenAt past (loaded load file) s →
      (s + lenAt past (loaded load file) s = load.toNat + file.length ∨
        s + lenAt past (loaded load file) s = 0xffff) ∧ (s = 0xffff → s = load.toNat)

/-! ### Lengths -/

theorem opLenAt_bounds (addr : Word) : 1 ≤ opLenAt past ram addr ∧ opLenAt past ram addr ≤ 3 := by
  have hmode : ∀ mode : AddrEnum, 1 ≤ mode.length ∧ mode.length ≤ 3 := by
    intro mode
    cases mode <;> decide
  rw [opLenAt, dasmDas]
  split
  · decide
  · split
    · exact ⟨le_rfl, Nat.le_add_left 1 2⟩
    · rw [(length_dasOperand _ _ _ _).2]
      exact hmode _
    · exact ⟨le_rfl, Nat.le_add_left 1 2⟩

/-- The line of the instruction at a position. -/
def lineAt (p : ℕ) : ListLine := ⟨BitVec.ofNat 16 p, lenAt past ram p⟩

variable {past ram}

theorem lenAt_pos (p : ℕ) : 1 ≤ lenAt past ram p := (opLenAt_bounds past ram _).1

theorem lenAt_le (p : ℕ) : lenAt past ram p ≤ 3 := (opLenAt_bounds past ram _).2

theorem Cut.le {p s : ℕ} (h : Cut past ram p s) : p ≤ s := by
  induction h with
  | refl p => exact le_rfl
  | step _ ih => exact (Nat.le_add_right _ _).trans ih

/-- Some instruction reaches the end of the input. -/
theorem exists_last {p e : ℕ} (hlt : p < e) :
    ∃ s, Cut past ram p s ∧ s < e ∧ e ≤ s + lenAt past ram s := by
  obtain ⟨d, hd⟩ := Nat.exists_eq_add_of_lt hlt
  induction d using Nat.strong_induction_on generalizing p with
  | _ d ih =>
    by_cases hend : e ≤ p + lenAt past ram p
    · exact ⟨p, .refl p, hlt, hend⟩
    · have hpos := @lenAt_pos past ram p
      obtain ⟨s, hcut, hs⟩ := @ih (d - lenAt past ram p) (by omega) (p + lenAt past ram p)
        (by omega) (by omega)
      exact ⟨s, .step hcut, hs⟩

/-! ### The loop along the instructions -/

/-- The loop from a position in an input that ends at `e`: it ends with some lines. -/
def Prints (past : OpRow) (ram : Word → Byte) (e p : ℕ) (lines : List ListLine) : Prop :=
  ∃ fuel, listing past ram fuel (BitVec.ofNat 16 p) (BitVec.ofNat 16 e - BitVec.ofNat 16 p)
    = some lines

/-- One line: the loop stops behind an instruction that ends with the input or in front of
`$ffff`. -/
theorem listing_succ {e p : ℕ} (hp : p < e) (he : e ≤ 65536) (fuel : ℕ) :
    listing past ram (fuel + 1) (BitVec.ofNat 16 p) (BitVec.ofNat 16 e - BitVec.ofNat 16 p) =
      if p + lenAt past ram p = e ∨ p + lenAt past ram p = 0xffff then some [lineAt past ram p]
      else (listing past ram fuel (BitVec.ofNat 16 (p + lenAt past ram p))
        (BitVec.ofNat 16 e - BitVec.ofNat 16 (p + lenAt past ram p))).map
          (lineAt past ram p :: ·) := by
  have hpos := @lenAt_pos past ram p
  have hle := @lenAt_le past ram p
  have haddr : BitVec.ofNat 16 p + BitVec.ofNat 16 (lenAt past ram p)
      = BitVec.ofNat 16 (p + lenAt past ram p) := (BitVec.ofNat_add _ _).symm
  have hlen : BitVec.ofNat 16 e - BitVec.ofNat 16 p - BitVec.ofNat 16 (lenAt past ram p)
      = BitVec.ofNat 16 e - BitVec.ofNat 16 (p + lenAt past ram p) := by
    rw [← haddr]
    exact sub_sub _ _ _
  have hstop : ¬ (BitVec.ofNat 16 (p + lenAt past ram p) < 0xffff#16 ∧
      BitVec.ofNat 16 e - BitVec.ofNat 16 (p + lenAt past ram p) > 0#16) ↔
      p + lenAt past ram p = e ∨ p + lenAt past ram p = 0xffff := by
    bv_omega
  have hunfold : listing past ram (fuel + 1) (BitVec.ofNat 16 p)
      (BitVec.ofNat 16 e - BitVec.ofNat 16 p) =
        if BitVec.ofNat 16 p + BitVec.ofNat 16 (lenAt past ram p) < 0xffff#16 ∧
            BitVec.ofNat 16 e - BitVec.ofNat 16 p - BitVec.ofNat 16 (lenAt past ram p) > 0#16 then
          (listing past ram fuel (BitVec.ofNat 16 p + BitVec.ofNat 16 (lenAt past ram p))
            (BitVec.ofNat 16 e - BitVec.ofNat 16 p - BitVec.ofNat 16 (lenAt past ram p))).map
              (lineAt past ram p :: ·)
        else some [lineAt past ram p] := rfl
  rw [hunfold, haddr, hlen]
  by_cases hend : p + lenAt past ram p = e ∨ p + lenAt past ram p = 0xffff
  · rw [if_pos hend, if_neg (hstop.mpr hend)]
  · rw [if_neg hend, if_pos (not_not.mp fun h => hend (hstop.mp h))]

theorem prints_iff {e p : ℕ} (hp : p < e) (he : e ≤ 65536) (lines : List ListLine) :
    Prints past ram e p lines ↔
      if p + lenAt past ram p = e ∨ p + lenAt past ram p = 0xffff then
        lines = [lineAt past ram p]
      else ∃ ls, lines = lineAt past ram p :: ls ∧ Prints past ram e (p + lenAt past ram p) ls := by
  have hsucc := @listing_succ past ram e p hp he
  by_cases hend : p + lenAt past ram p = e ∨ p + lenAt past ram p = 0xffff
  · simp only [if_pos hend] at hsucc
    rw [if_pos hend]
    constructor
    · rintro ⟨- | fuel, hprint⟩
      · cases hprint
      · rw [hsucc] at hprint
        exact (Option.some.inj hprint).symm
    · rintro rfl
      exact ⟨1, hsucc 0⟩
  · simp only [if_neg hend] at hsucc
    rw [if_neg hend]
    constructor
    · rintro ⟨- | fuel, hprint⟩
      · cases hprint
      · rw [hsucc] at hprint
        obtain ⟨ls, hls, rfl⟩ := Option.map_eq_some_iff.mp hprint
        exact ⟨ls, rfl, fuel, hls⟩
    · rintro ⟨ls, rfl, fuel, hls⟩
      refine ⟨fuel + 1, ?_⟩
      rw [hsucc, hls]
      rfl

/-- Lines one behind the other, from one position to another. -/
inductive Tiles (past : OpRow) (ram : Word → Byte) : ℕ → List ListLine → ℕ → Prop
  | nil (p : ℕ) : Tiles past ram p [] p
  | cons {p e : ℕ} {ls : List ListLine} :
      Tiles past ram (p + lenAt past ram p) ls e → Tiles past ram p (lineAt past ram p :: ls) e

theorem Tiles.le {p e : ℕ} {ls : List ListLine} (h : Tiles past ram p ls e) : p ≤ e := by
  induction h with
  | nil p => exact le_rfl
  | cons _ ih => exact (Nat.le_add_right _ _).trans ih

theorem Tiles.eq_nil {p : ℕ} {ls : List ListLine} (h : Tiles past ram p ls p) : ls = [] := by
  cases h with
  | nil => rfl
  | cons hrest =>
    have hpos := @lenAt_pos past ram p
    have hle := hrest.le
    omega

theorem Tiles.append {p q e : ℕ} {ls ls' : List ListLine} (h : Tiles past ram p ls q)
    (h' : Tiles past ram q ls' e) : Tiles past ram p (ls ++ ls') e := by
  induction h with
  | nil p => exact h'
  | cons _ ih => exact .cons (ih h')

theorem Tiles.one (p : ℕ) : Tiles past ram p [lineAt past ram p] (p + lenAt past ram p) :=
  .cons (.nil _)

/-- **Along the instructions** in front of the last the loop goes on, unless it comes to
`$ffff`. -/
theorem prints_cut {e p s : ℕ} (hcut : Cut past ram p s) (hs : s < e) (he : e ≤ 65536)
    (hffff : s = 0xffff → s = p) (lines : List ListLine) :
    Prints past ram e p lines ↔
      ∃ ls ls', lines = ls ++ ls' ∧ Tiles past ram p ls s ∧ Prints past ram e s ls' := by
  induction hcut generalizing lines with
  | refl p =>
    constructor
    · exact fun h => ⟨[], lines, rfl, .nil p, h⟩
    · rintro ⟨ls, ls', rfl, htiles, h⟩
      rwa [htiles.eq_nil]
  | @step p s hcut ih =>
    have hpos := @lenAt_pos past ram p
    have hle : p + lenAt past ram p ≤ s := hcut.le
    have hgoes : ¬ (p + lenAt past ram p = e ∨ p + lenAt past ram p = 0xffff) := by omega
    rw [prints_iff (by omega) he, if_neg hgoes]
    constructor
    · rintro ⟨rest, rfl, hrest⟩
      obtain ⟨ls, ls', rfl, htiles, h⟩ := (ih hs (by omega) rest).mp hrest
      exact ⟨lineAt past ram p :: ls, ls', rfl, .cons htiles, h⟩
    · rintro ⟨ls, ls', rfl, htiles, h⟩
      cases htiles with
      | nil => omega
      | cons htiles => exact ⟨_, rfl, (ih hs (by omega) _).mpr ⟨_, ls', rfl, htiles, h⟩⟩

/-- The first line is printed in any case. -/
theorem Prints.eq_cons {e p : ℕ} {lines : List ListLine} (h : Prints past ram e p lines) :
    ∃ ls, lines = lineAt past ram p :: ls := by
  obtain ⟨- | fuel, hprint⟩ := h
  · cases hprint
  · rw [listing] at hprint
    split at hprint
    · obtain ⟨ls, -, rfl⟩ := Option.map_eq_some_iff.mp hprint
      exact ⟨ls, rfl⟩
    · exact ⟨[], (Option.some.inj hprint).symm⟩

/-- The instruction in front. -/
theorem Cut.prev {p s : ℕ} (h : Cut past ram p s) (hne : p ≠ s) :
    ∃ q, Cut past ram p q ∧ q + lenAt past ram q = s := by
  induction h with
  | refl p => exact absurd rfl hne
  | @step p s hcut ih =>
    by_cases hlast : p + lenAt past ram p = s
    · exact ⟨p, .refl p, hlast⟩
    · obtain ⟨q, hcut, hq⟩ := ih hlast
      exact ⟨q, .step hcut, hq⟩

theorem Cut.tiles {p s : ℕ} (h : Cut past ram p s) : ∃ ls, Tiles past ram p ls s := by
  induction h with
  | refl p => exact ⟨[], .nil p⟩
  | step _ ih =>
    obtain ⟨ls, htiles⟩ := ih
    exact ⟨_, .cons htiles⟩

/-! ### Tilings -/

/-- The bytes of a line. -/
theorem covers_lineAt {p i : ℕ} (hp : p + lenAt past ram p ≤ 65536) (hi : i < 65536) :
    (lineAt past ram p).Covers (BitVec.ofNat 16 i) ↔ p ≤ i ∧ i < p + lenAt past ram p := by
  have hlen := @lenAt_le past ram p
  show (BitVec.ofNat 16 i - BitVec.ofNat 16 p).toNat < lenAt past ram p ↔ _
  rw [BitVec.toNat_sub, BitVec.toNat_ofNat, BitVec.toNat_ofNat]
  omega

/-- Every byte between the ends of a tiling is in one line of it, and no other. -/
theorem Tiles.countP {p e : ℕ} {ls : List ListLine} (h : Tiles past ram p ls e) (he : e ≤ 65536)
    {i : ℕ} (hi : i < 65536) :
    ls.countP (fun line => decide (line.Covers (BitVec.ofNat 16 i)))
      = if p ≤ i ∧ i < e then 1 else 0 := by
  induction h with
  | nil p => exact (if_neg (by omega)).symm
  | @cons p e ls hrest ih =>
    have hle := hrest.le
    have hcovers := @covers_lineAt past ram p i (by omega) hi
    rw [List.countP_cons, ih he]
    simp only [decide_eq_true_eq, hcovers]
    split_ifs <;> omega

/-- Also behind the end of the memory, a tiling leaves no byte out. -/
theorem Tiles.one_le_countP {p e : ℕ} {ls : List ListLine} (h : Tiles past ram p ls e) {i : ℕ}
    (hpi : p ≤ i) (hi : i < e) :
    1 ≤ ls.countP (fun line => decide (line.Covers (BitVec.ofNat 16 i))) := by
  induction h with
  | nil p => omega
  | @cons p e ls hrest ih =>
    rw [List.countP_cons]
    by_cases hin : i < p + lenAt past ram p
    · have hlen := @lenAt_le past ram p
      have hcovers : (lineAt past ram p).Covers (BitVec.ofNat 16 i) := by
        show (BitVec.ofNat 16 i - BitVec.ofNat 16 p).toNat < lenAt past ram p
        rw [BitVec.toNat_sub, BitVec.toNat_ofNat, BitVec.toNat_ofNat]
        omega
      rw [if_pos (decide_eq_true hcovers)]
      omega
    · have hrest := ih (by omega) hi
      omega

/-- The lines of a tiling follow each other. -/
theorem Tiles.next {p e : ℕ} {ls : List ListLine} (h : Tiles past ram p ls e) :
    (∀ line ∈ ls.head?, line.addr = BitVec.ofNat 16 p) ∧
      ls.IsChain fun line line' => line'.addr = line.addr + BitVec.ofNat 16 line.opLen := by
  induction h with
  | nil p => exact ⟨nofun, .nil⟩
  | @cons p e ls hrest ih =>
    refine ⟨?_, ?_⟩
    · rintro _ ⟨⟩
      rfl
    · rw [List.isChain_cons]
      refine ⟨fun line hline => ?_, ih.2⟩
      rw [ih.1 line hline]
      exact BitVec.ofNat_add _ _

/-- They start between the ends. -/
theorem Tiles.starts {p e : ℕ} {ls : List ListLine} (h : Tiles past ram p ls e) :
    ∀ line ∈ ls, ∃ q, p ≤ q ∧ q < e ∧ line = lineAt past ram q := by
  induction h with
  | nil p => exact nofun
  | @cons p e ls hrest ih =>
    have hpos := @lenAt_pos past ram p
    have hle := hrest.le
    rintro line (_ | ⟨_, hline⟩)
    · exact ⟨p, le_rfl, by omega, rfl⟩
    · obtain ⟨q, hq, hqe, rfl⟩ := ih line hline
      exact ⟨q, by omega, hqe, rfl⟩

/-! ### The listing of an input -/

/-- Addresses behind the load address. -/
theorem add_ofNat (load : Word) (i : ℕ) :
    load + BitVec.ofNat 16 i = BitVec.ofNat 16 (load.toNat + i) := by
  rw [BitVec.ofNat_add, BitVec.ofNat_toNat, BitVec.setWidth_eq]

section Input

variable {load : Word} {n s : ℕ} (hfits : load.toNat + n ≤ 65536)
  (hcut : Cut past ram load.toNat s) (hs : s < load.toNat + n)
include hfits hcut hs

/-- The loop stops behind the last instruction. -/
theorem lists_of_stop (hend : load.toNat + n ≤ s + lenAt past ram s)
    (hstop : s + lenAt past ram s = load.toNat + n ∨ s + lenAt past ram s = 0xffff)
    (hffff : s = 0xffff → s = load.toNat) :
    ∃ lines, Prints past ram (load.toNat + n) load.toNat lines ∧ Lists load n lines := by
  obtain ⟨ls, htiles⟩ := hcut.tiles
  have hlast : Prints past ram (load.toNat + n) s [lineAt past ram s] := by
    rw [prints_iff hs hfits, if_pos hstop]
  refine ⟨ls ++ [lineAt past ram s],
    (prints_cut hcut hs hfits hffff _).mpr ⟨ls, _, rfl, htiles, hlast⟩, ?_⟩
  have hall := htiles.append (Tiles.one s)
  have hle := hcut.le
  obtain ⟨hfirst, hnext⟩ := hall.next
  rw [BitVec.ofNat_toNat, BitVec.setWidth_eq] at hfirst
  refine ⟨hfirst, hnext, fun line hline => ?_, fun i hi => ?_⟩
  · obtain ⟨q, hq, hqe, rfl⟩ : ∃ q, load.toNat ≤ q ∧ q < load.toNat + n ∧
        line = lineAt past ram q := by
      rcases List.mem_append.mp hline with hline | hline
      · obtain ⟨q, hq, hqs, rfl⟩ := htiles.starts line hline
        exact ⟨q, hq, by omega, rfl⟩
      · exact ⟨s, hle, hs, List.mem_singleton.mp hline⟩
    show (BitVec.ofNat 16 q - load).toNat < n
    rw [BitVec.toNat_sub, BitVec.toNat_ofNat]
    omega
  · rw [add_ofNat, hall.countP (by omega) (by omega), if_pos (by omega)]

/-- If it does not stop there, it goes on behind the input or lists a byte twice. -/
theorem stop_of_lists (hend : load.toNat + n ≤ s + lenAt past ram s)
    (hffff : s = 0xffff → s = load.toNat) {lines : List ListLine}
    (hprint : Prints past ram (load.toNat + n) load.toNat lines) (hlists : Lists load n lines) :
    s + lenAt past ram s = load.toNat + n ∨ s + lenAt past ram s = 0xffff := by
  by_contra hgoes
  obtain ⟨ls, ls', rfl, htiles, hlast⟩ := (prints_cut hcut hs hfits hffff _).mp hprint
  rw [prints_iff hs hfits, if_neg hgoes] at hlast
  obtain ⟨rest, rfl, hrest⟩ := hlast
  obtain ⟨rest, rfl⟩ := hrest.eq_cons
  -- the byte at which it goes on is in two lines
  have hin := hlists.inside (lineAt past ram (s + lenAt past ram s)) (by simp)
  have hin : (BitVec.ofNat 16 (s + lenAt past ram s) - load).toNat < n := hin
  have honce := hlists.once _ hin
  have haddr : load + BitVec.ofNat 16 (BitVec.ofNat 16 (s + lenAt past ram s) - load).toNat
      = BitVec.ofNat 16 (s + lenAt past ram s) := by
    rw [BitVec.ofNat_toNat, BitVec.setWidth_eq]
    exact add_sub_cancel load _
  have hagain : (lineAt past ram (s + lenAt past ram s)).Covers
      (BitVec.ofNat 16 (s + lenAt past ram s)) := by
    have hpos := @lenAt_pos past ram (s + lenAt past ram s)
    show (BitVec.ofNat 16 _ - BitVec.ofNat 16 _).toNat < _
    rw [BitVec.sub_self]
    exact hpos
  have htwice := (htiles.append (Tiles.one s)).one_le_countP (Nat.le_add_right load.toNat _)
    (show load.toNat + (BitVec.ofNat 16 (s + lenAt past ram s) - load).toNat
      < s + lenAt past ram s by omega)
  rw [← add_ofNat, haddr] at htwice
  have hsplit : ls ++ lineAt past ram s :: lineAt past ram (s + lenAt past ram s) :: rest
      = (ls ++ [lineAt past ram s]) ++ lineAt past ram (s + lenAt past ram s) :: rest := by simp
  rw [haddr, hsplit, List.countP_append, List.countP_cons, if_pos (decide_eq_true hagain)] at honce
  omega

/-- In front of an instruction at `$ffff` it stops too early. -/
theorem ne_ffff_of_lists {lines : List ListLine}
    (hprint : Prints past ram (load.toNat + n) load.toNat lines) (hlists : Lists load n lines) :
    s = 0xffff → s = load.toNat := by
  intro hffff
  by_contra hne
  obtain ⟨q, hcutq, hq⟩ := hcut.prev (Ne.symm hne)
  have hpos := @lenAt_pos past ram q
  obtain ⟨ls, ls', rfl, htiles, hlast⟩ :=
    (prints_cut hcutq (by omega) hfits (by omega) _).mp hprint
  rw [prints_iff (by omega) hfits, if_pos (.inr (hq.trans hffff))] at hlast
  subst hlast
  have hall := htiles.append (Tiles.one q)
  rw [hq] at hall
  have hle := hcut.le
  -- no line has the byte at `$ffff`
  have honce := hlists.once (s - load.toNat) (by omega)
  rw [add_ofNat, Nat.add_sub_cancel' hle, hall.countP (by omega) (by omega),
    if_neg (by omega)] at honce
  cases honce

end Input

theorem listsInput_iff_prints (past : OpRow) {load : Word} {file : List Byte}
    (hfits : load.toNat + file.length ≤ 65536) :
    ListsInput past load file ↔ ∃ lines,
      Prints past (loaded load file) (load.toNat + file.length) load.toNat lines ∧
        Lists load file.length lines := by
  have htake : file.take (0x10000 - load.toNat) = file := List.take_of_length_le (by omega)
  have hload : BitVec.ofNat 16 load.toNat = load := by
    rw [BitVec.ofNat_toNat, BitVec.setWidth_eq]
  have hlen : BitVec.ofNat 16 (load.toNat + file.length) - load = BitVec.ofNat 16 file.length := by
    rw [BitVec.ofNat_add, hload]
    exact add_sub_cancel_left load _
  simp only [ListsInput, disassemble, Prints, htake, hload, hlen]
  rw [exists_comm]
  simp only [exists_and_right]

/-- A line is printed without any input. -/
theorem not_listsInput_nil (past : OpRow) (load : Word) : ¬ ListsInput past load [] := by
  rw [@listsInput_iff_prints past load [] load.isLt.le]
  rintro ⟨lines, hprint, hlists⟩
  obtain ⟨ls, rfl⟩ := hprint.eq_cons
  exact absurd (hlists.inside _ List.mem_cons_self) (Nat.not_lt_zero _)

/-- **The listing loop lists the input and stops** exactly if there is one and its last
instruction fits. -/
theorem listing_iff (past : OpRow) {load : Word} {file : List Byte}
    (hfits : load.toNat + file.length ≤ 65536) :
    ListsInput past load file ↔ Aligned past load file := by
  by_cases hne : file = []
  · subst hne
    exact iff_of_false (not_listsInput_nil past load) fun h => h.1 rfl
  rw [listsInput_iff_prints past hfits]
  constructor
  · rintro ⟨lines, hprint, hlists⟩
    refine ⟨hne, fun s hcut hs hend => ?_⟩
    have hffff := ne_ffff_of_lists hfits hcut hs hprint hlists
    exact ⟨stop_of_lists hfits hcut hs hend hffff hprint hlists, hffff⟩
  · intro haligned
    have hpos := List.length_pos_iff.mpr hne
    obtain ⟨s, hcut, hs, hend⟩ := @exists_last past (loaded load file) load.toNat
      (load.toNat + file.length) (by omega)
    obtain ⟨hstop, hffff⟩ := haligned.2 s hcut hs hend
    exact lists_of_stop hfits hcut hs hend hstop hffff

/-- `NOP`, `LDA #$01` and `STA $2000`. -/
theorem listing_iff_three :
    let file : List Byte := [0xea, 0xa9, 0x01, 0x8d, 0x00, 0x20]
    ListsInput zeroRow 0x1a00 file ∧ Aligned zeroRow 0x1a00 file := by
  intro file
  have hlines : disassemble zeroRow 0x1a00 file 3
      = some [⟨0x1a00, 1⟩, ⟨0x1a01, 2⟩, ⟨0x1a03, 3⟩] := by
    decide +kernel
  have hlists : ListsInput zeroRow 0x1a00 file :=
    ⟨3, _, hlines, by decide, by decide, by decide, by decide⟩
  exact ⟨hlists, (listing_iff zeroRow (by decide)).mp hlists⟩

/-- No input gives a line; a `LDA nnnn` without its operand is not the last line; and two
`NOP` up to `$ffff` are one line. -/
theorem not_listed :
    ¬ ListsInput zeroRow 0x1a00 [] ∧ ¬ ListsInput zeroRow 0x1a00 [0xad] ∧
      ¬ ListsInput zeroRow 0xfffe [0xea, 0xea] ∧
      disassemble zeroRow 0xfffe [0xea, 0xea] 9 = some [⟨0xfffe, 1⟩] := by
  have hlda : lenAt zeroRow (loaded 0x1a00 [0xad]) (0x1a00 : Word).toNat = 3 := by decide +kernel
  have hnop : lenAt zeroRow (loaded 0xfffe [0xea, 0xea]) (0xfffe : Word).toNat = 1 := by
    decide +kernel
  refine ⟨not_listsInput_nil _ _, ?_, ?_, by decide +kernel⟩
  · rw [listsInput_iff_prints _ (by decide)]
    rintro ⟨lines, hprint, hlists⟩
    have hstop := stop_of_lists (by decide) (.refl _) (by decide) (by rw [hlda]; decide)
      (fun h => absurd h (by decide)) hprint hlists
    rw [hlda] at hstop
    exact absurd hstop (by decide)
  · rw [listsInput_iff_prints _ (by decide)]
    rintro ⟨lines, hprint, hlists⟩
    have hcut : Cut zeroRow (loaded 0xfffe [0xea, 0xea]) (0xfffe : Word).toNat 0xffff := by
      apply Cut.step
      rw [hnop]
      exact .refl _
    exact absurd (ne_ffff_of_lists (by decide) hcut (by decide) hprint hlists rfl) (by decide)

end Dan64
