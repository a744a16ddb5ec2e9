/-
Dan64/DasmBranch.lean

Branches: the displacement in the assembler, the disassembler and the virtual
machine.

The three pieces of code disagree on the base of a displacement.  `dasm_as` emits
`t - a - 1` cut to a byte (the cast comes before the range test, so no target is
refused), `dasm_das` prints `a + 1` plus the byte, and `vm_exec` adds the byte to
`a + 2`.  So the printer undoes the assembler where the byte is the whole
displacement (`relative_lands`), and a taken branch never arrives at its target
(`relative_misses`).
-/
import Dan64.DasmRound
import Dan64.DasmVm

namespace Dan64

open CText BlockMem AddrEnum
open Mos6502 (Mnemonic Mode opcode exec)

/-! ### Displacements -/

/-- A word is the sign extension of its low byte when it is a signed byte. -/
theorem signExtend_setWidth_eq_iff (w : Word) :
    (w.setWidth 8).signExtend 16 = w ↔ -128 ≤ w.toInt ∧ w.toInt ≤ 127 := by
  have hlt := w.isLt
  rw [← BitVec.toInt_inj, BitVec.toInt_signExtend_of_le (by decide), BitVec.toInt_setWidth,
    Int.bmod_eq_iff (by decide), BitVec.toInt_eq_toNat_cond]
  split <;> omega

/-- The signed displacement from the end of a branch. -/
def displacement (a t : Word) : ℤ := (t - (a + 2)).toInt

/-- Where the emitted byte leads from `a + 1`: to the target, for a displacement
in the range of a signed byte shifted by one. -/
theorem relative_lands (a t : Word) :
    a + 1 + ((t - a - 1).setWidth 8).signExtend 16 = t ↔
      -129 ≤ displacement a t ∧ displacement a t ≤ 126 := by
  have hsub : t - a - 1 = t - (a + 2) + 1 := by bv_omega
  have hiff : a + 1 + ((t - a - 1).setWidth 8).signExtend 16 = t ↔
      ((t - a - 1).setWidth 8).signExtend 16 = t - a - 1 := by
    rw [eq_comm, ← sub_eq_iff_eq_add', sub_sub, eq_comm, ← sub_sub]
  have hlt := (t - (a + 2)).isLt
  rw [hiff, signExtend_setWidth_eq_iff, hsub, displacement, BitVec.toInt_eq_toNat_cond,
    BitVec.toInt_eq_toNat_cond, BitVec.toNat_add]
  have h1 : (1 : Word).toNat = 1 := rfl
  rw [h1]
  split <;> split <;> omega

/-- Where it leads from `a + 2`: never to the target. -/
theorem relative_misses (a t : Word) :
    a + 2 + ((t - a - 1).setWidth 8).signExtend 16 ≠ t := by
  intro h
  have hbyte : ((t - a - 1).setWidth 8).signExtend 16 = t - (a + 2) := eq_sub_of_add_eq' h
  -- the byte would be its own predecessor
  have hlow := congrArg (BitVec.setWidth 8) hbyte
  rw [setWidth_signExtend] at hlow
  bv_omega

/-! ### The three pieces of code -/

section Branch

variable {past : OpRow} (hpast : PastTable past) {mn : Mnemonic} {op : Byte}
  (hop : opcode mn .relative = some op) (a t : Word)

/-- The bytes of a branch. -/
def branchBytes (op : Byte) (a t : Word) : List Byte := [op, (t - a - 1).setWidth 8]

include hop

theorem branch_tabled : Tabled mn .relative ∧ tblOp (mneText mn) AT_RELATIVE = some op := by
  have ht : Tabled mn .relative := tabled mn .relative (by rw [Mnemonic.has, hop]; rfl)
  refine ⟨ht, ?_⟩
  rw [← hop]
  refine ht.row.trans (if_neg ?_)
  rintro (⟨-, h | h⟩ | ⟨-, h⟩) <;> cases h

/-- The documented branch goes from the end of the instruction. -/
theorem exec_branch_pc (v : Word) (s : Mos6502.State) :
    (exec mn .relative v s).pc =
      if mn.taken s.flags then s.pc + 2 + (v.setWidth 8).signExtend 16 else s.pc + 2 := by
  cases mn
  case bcc | bcs | beq | bmi | bne | bpl | bvc | bvs =>
    show (if _ then _ else _ : Mos6502.State).pc = _
    rw [apply_ite Mos6502.State.pc]
    rfl
  all_goals cases hop

include hpast

/-- **Every target is accepted.** -/
theorem dasmAs_branch {line : Text} (hline : Writes (mneText mn) .direct t.toNat line)
    (hlen : line.length < 256) : dasmAs past a line = ⟨.ok 2, branchBytes op a t⟩ := by
  obtain ⟨ht, hrow⟩ := branch_tabled hop
  have hne := hpast.ne ht.known
  have hres := @result_mode past (mneText mn) AT_RELATIVE t a hne (fun _ h => absurd rfl h)
    (fun _ => nofun) (fun _ => by rw [hrow]; rfl) nofun (fun _ => ht.relative rfl)
  have hbyte : (((t - a - 1).setWidth 8).setWidth 16).setWidth 8 = (t - a - 1).setWidth 8 :=
    setWidth_word _
  rw [dasmAs_line a ht.isMne ht.known hne hline ((length_skipWhitespace _).trans_lt hlen),
    BitVec.ofNat_toNat, BitVec.setWidth_eq]
  refine (congrArg (asEmit past (mneText mn)) hres).trans ?_
  rw [asEmit_ok hne, hrow]
  show AsResult.mk (.ok 2) [op, (((t - a - 1).setWidth 8).setWidth 16).setWidth 8] = _
  rw [hbyte]
  rfl

omit hpast

/-- What is printed for a branch. -/
theorem das_branch (b b' : Byte) :
    dasmDas past a op b b' =
      (mneText mn ++ [' '] ++ ('$' :: sprintfHex 4 (a + 1 + b.signExtend 16).toNat), 2) := by
  obtain ⟨-, hrow⟩ := branch_tabled hop
  obtain ⟨r, hr, hrop⟩ := Option.map_eq_some_iff.mp hrow
  have hfor := List.find?_some hr
  rw [OpRow.isFor, Bool.and_eq_true, beq_iff_eq, Option.all_some, beq_iff_eq] at hfor
  have hmode : AddrEnum.ofByte r.mode = some AT_RELATIVE := by
    rw [hfor.2]
    rfl
  rw [← hrop, dasmDas, find_op (List.mem_of_find?_eq_some hr)]
  simp only [hmode, hfor.1]
  rfl

/-- Where the virtual machine goes. -/
theorem vmExec_branch (sys : Byte → FlatVm → FlatVm) {s : FlatVm} (hpc : s.rPc = a)
    (hplaced : Placed (branchBytes op a t) s) :
    ∃ u, vmExec sys s = some u ∧ u.rPc =
      if mn.taken s.abs.flags then a + 2 + ((t - a - 1).setWidth 8).signExtend 16
      else a + 2 := by
  have hram : s.ram s.rPc = op := List.head_eq_of_cons_eq hplaced
  have hbyte : s.ram (s.rPc + 1) = (t - a - 1).setWidth 8 :=
    List.head_eq_of_cons_eq (List.tail_eq_of_cons_eq hplaced)
  -- a branch neither touches the stack nor follows a pointer
  have hfits : StackFits mn s.rSp := by
    cases mn <;> trivial
  obtain ⟨u, hu, hexec⟩ :=
    vmExec_instr sys (hop.trans (congrArg some hram.symm)) (show none ≠ some _ from nofun) hfits
  have hd : ¬ (s.abs.flags.d = true ∧ (mn = .adc ∨ mn = .sbc)) := by
    rintro ⟨-, rfl | rfl⟩ <;> cases hop
  rw [Mos6502.Executes, if_neg hd] at hexec
  have hupc : u.rPc = u.abs.pc := rfl
  have hoperand : (s.abs.operand .relative).setWidth 8 = (t - a - 1).setWidth 8 := by
    rw [← hbyte]
    exact setWidth_word _
  refine ⟨u, hu, ?_⟩
  rw [hupc, hexec, exec_branch_pc hop, hoperand]
  show (if _ then s.rPc + 2 + _ else s.rPc + 2) = _
  rw [hpc]

end Branch

/-! ### Agreement -/

/-- The state with bytes loaded at an address and the program counter on them. -/
def load (a : Word) (bs : List Byte) (s : FlatVm) : FlatVm :=
  { s with rPc := a, ram := writeBlock s.ram a bs }

/-- The line was accepted. -/
def AsResult.Accepts (r : AsResult) : Prop := ∃ n, r.ret = .ok n

/-- Assembler, virtual machine and disassembler agree on a branch: it is accepted
exactly for a displacement that fits a signed byte, and then executing it leads
to the target or to its end, and printing it shows the target. -/
def BranchAgrees (past : OpRow) (sys : Byte → FlatVm → FlatVm) (mn : Mnemonic) (a t : Word)
    (line : Text) (s : FlatVm) : Prop :=
  let r := dasmAs past a line
  let s' := load a r.out s
  (r.Accepts ↔ -128 ≤ displacement a t ∧ displacement a t ≤ 127) ∧
    (r.Accepts →
      (∃ u, vmExec sys s' = some u ∧ u.rPc = if mn.taken s.abs.flags then t else a + 2) ∧
      (dasmDas past a (s'.ram a) (s'.ram (a + 1)) (s'.ram (a + 2))).1
        = mneText mn ++ [' '] ++ ('$' :: sprintfHex 4 t.toNat))

theorem sprintfHex_word_inj {x y : Word} (h : sprintfHex 4 x.toNat = sprintfHex 4 y.toNat) :
    x = y := by
  have hnum := congrArg (numeral 16) h
  rw [numeral_sprintfHex, numeral_sprintfHex] at hnum
  exact BitVec.eq_of_toNat_eq hnum

/-- **Branches agree** exactly when they are not taken and the displacement is a
signed byte other than 127. -/
theorem branchAgrees_iff {past : OpRow} (hpast : PastTable past)
    (sys : Byte → FlatVm → FlatVm) {mn : Mnemonic} (hmn : mn.has .relative = true)
    (a t : Word) {line : Text} (hline : Writes (mneText mn) .direct t.toNat line)
    (hlen : line.length < 256) (s : FlatVm) :
    BranchAgrees past sys mn a t line s ↔
      (-128 ≤ displacement a t ∧ displacement a t ≤ 126) ∧ mn.taken s.abs.flags = false := by
  obtain ⟨op, hop⟩ := Option.isSome_iff_exists.mp hmn
  have has := dasmAs_branch hpast hop a t hline hlen
  have hacc : (dasmAs past a line).Accepts := ⟨2, by rw [has]⟩
  have hplaced : Placed (branchBytes op a t) (load a (branchBytes op a t) s) :=
    readBlock_writeBlock (show 2 ≤ 2 ^ 16 by decide)
  have hram : (load a (branchBytes op a t) s).ram a = op := List.head_eq_of_cons_eq hplaced
  have hbyte : (load a (branchBytes op a t) s).ram (a + 1) = (t - a - 1).setWidth 8 :=
    List.head_eq_of_cons_eq (List.tail_eq_of_cons_eq hplaced)
  have hdas := @das_branch past mn op hop a ((t - a - 1).setWidth 8)
    ((load a (branchBytes op a t) s).ram (a + 2))
  obtain ⟨u, hu, hpc⟩ := vmExec_branch hop a t sys rfl hplaced
  have hflags : (load a (branchBytes op a t) s).abs.flags = s.abs.flags := rfl
  rw [hflags] at hpc
  simp only [BranchAgrees, has, hram, hbyte, hdas]
  rw [has] at hacc
  constructor
  · rintro ⟨hreach, hagree⟩
    obtain ⟨hlow, -⟩ := hreach.mp hacc
    obtain ⟨⟨u', hu', hpc'⟩, htext⟩ := hagree hacc
    obtain rfl : u = u' := Option.some.inj (hu.symm.trans hu')
    -- the printed target is the target, so the displacement is not 127
    have hprint := sprintfHex_word_inj (List.cons.inj (List.append_cancel_left htext)).2
    refine ⟨⟨hlow, ((relative_lands a t).mp hprint).2⟩, ?_⟩
    -- taken, the machine lands one byte behind the target
    by_contra htaken
    rw [Bool.not_eq_false] at htaken
    rw [hpc, if_pos htaken, if_pos htaken] at hpc'
    exact relative_misses a t hpc'
  · rintro ⟨⟨hlow, hhigh⟩, htaken⟩
    refine ⟨iff_of_true hacc ⟨hlow, by omega⟩, fun _ => ⟨⟨u, hu, ?_⟩, ?_⟩⟩
    · rw [hpc, if_neg (ne_true_of_eq_false htaken), if_neg (ne_true_of_eq_false htaken)]
    · rw [(relative_lands a t).mpr ⟨by omega, hhigh⟩]

/-- `beq $1a10` at `$1a00`, with Z clear. -/
theorem branchAgrees_beq :
    let s : FlatVm := ⟨0, 0, 0, 0xff, 0, 0, fun _ => 0⟩
    BranchAgrees zeroRow (fun _ => id) .beq 0x1a00 0x1a10 "beq $1a10".toList s ↔
      (-128 ≤ displacement 0x1a00 0x1a10 ∧ displacement 0x1a00 0x1a10 ≤ 126) ∧
        Mnemonic.beq.taken s.abs.flags = false :=
  branchAgrees_iff pastTable_zeroRow (fun _ => id) rfl 0x1a00 0x1a10
    ⟨[], [' '], "$1A10".toList, .none, .nil, .space,
      @Literal.hex "1A10".toList (by decide) (List.all_eq_true.mp rfl), by decide⟩ (by decide) _

/-- `BNE $1A10` at `$1a00` goes to `$1a11`, and `BNE $8000` is accepted. -/
theorem bne_overshoots :
    (dasmAs zeroRow 0x1a00 "BNE $1A10".toList).out = [0xd0, 0x0f] ∧
      displacement 0x1a00 0x1a10 = 14 ∧
      (vmExec (fun _ => id) (load 0x1a00 [0xd0, 0x0f] ⟨0, 0, 0, 0xff, 0, 0, fun _ => 0⟩)).map
        Vm.rPc = some 0x1a11 ∧
      (dasmAs zeroRow 0x1a00 "BNE $8000".toList).out = [0xd0, 0xff] ∧
      displacement 0x1a00 0x8000 = 26110 := by
  decide +kernel

end Dan64
