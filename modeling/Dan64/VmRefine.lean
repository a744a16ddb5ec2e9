/-
Dan64/VmRefine.lean

Over the flat memory, one `vm_exec` is the documented instruction.

`Vm.abs` forgets the two unused bits of `r_s`; `Case.instr` reads a case of
the `switch` as a mnemonic and a mode.  The argument has three layers: the bit
tricks on `r_s` are updates of named flags (`ofByte_setNZ` and its relatives),
the address computations are the effective addresses of the modes
(`Addressing.addr_flat`), and every case is the instruction it is named after
(`Case.run_abs`).  `vmSwitch_opcode` connects the opcode matrix to the switch.
-/
import Dan64.VmAlu

namespace Dan64

open BlockMem
open Mos6502 (Flags State Mnemonic Mode opcode exec stackAddr Executes)

/-! ### The flat memory -/

abbrev FlatVm := Vm (Word → Byte)

@[simp] theorem vmRamRead_flat (s : FlatVm) (a : Word) (n : ℕ) :
    s.vmRamRead a n = (readBlock s.ram a n, s) := rfl

@[simp] theorem vmRamWrite_flat (s : FlatVm) (a : Word) (bs : List Byte) :
    s.vmRamWrite a bs = { s with ram := writeBlock s.ram a bs } := rfl

@[simp] theorem at_readBlock (m : Word → Byte) (a : Word) {n i : ℕ} (h : i < n) :
    at_ (readBlock m a n) i = m (a + BitVec.ofNat 16 i) := by
  simp [at_, readBlock_eq_map, h]

/-- The prefetched bytes. -/
def FlatVm.cache (s : FlatVm) : OpCache :=
  ⟨s.ram s.rPc, s.ram (s.rPc + 1), s.ram (s.rPc + 2)⟩

theorem fetch_flat (s : FlatVm) : s.fetch = (FlatVm.cache s, s) := by
  simp [Vm.fetch, FlatVm.cache]

/-- The documented state a virtual machine over the flat memory stands for. -/
@[simps] def Vm.abs (s : FlatVm) : State where
  a := s.rA
  x := s.rX
  y := s.rY
  sp := s.rSp
  pc := s.rPc
  flags := .ofByte s.rS
  mem := s.ram

/-! ### Status updates of the abstract state -/

@[simp] theorem abs_next (s : FlatVm) (n : ℕ) :
    (s.next n).abs = { s.abs with pc := s.abs.pc + BitVec.ofNat 16 n } := rfl

@[simp] theorem abs_setNZ (s : FlatVm) (v : Byte) : (s.setNZ v).abs = s.abs.setNZ v := by
  simp only [Vm.abs, Vm.setNZ, State.setNZ, ofByte_setNZ]
  rfl

theorem abs_setNZC (s : FlatVm) (v : Byte) (q : Prop) [Decidable q] :
    (s.setNZC v (if q then sbit Cf else 0#8)).abs
      = { s.abs.setNZ v with flags := { (s.abs.setNZ v).flags with c := decide q } } := by
  simp only [Vm.abs, Vm.setNZC, State.setNZ, ofByte_setNZC]
  rfl

theorem abs_compare (s : FlatVm) (r t : Byte) :
    (s.compare r t).abs = s.abs.compare r t := by
  rw [Vm.compare, abs_setNZC]
  rfl

theorem abs_bit (s : FlatVm) (t : Byte) :
    (s.bit t).abs = { s.abs with flags := { s.abs.flags with
      n := t.getLsbD 7, v := t.getLsbD 6, z := s.rA &&& t == 0#8 } } := by
  simp [Vm.abs, Vm.bit, Flags.ofByte, getLsbD_sbit, getLsbD_testZ, testN, testV,
    BitVec.and_comm, -BitVec.getLsbD_eq_getElem]

theorem abs_branch (s : FlatVm) (c : OpCache) (b : Bool) :
    (s.branch b c).abs =
      if b then { s.abs with pc := s.rPc + 2#16 + c.b1.signExtend 16 }
      else { s.abs with pc := s.rPc + 2#16 } := by
  rcases b with - | -
  · simp [Vm.branch, Vm.next, Vm.abs, BitVec.add_assoc]
  · simp [Vm.branch, Vm.next, Vm.abs, BitVec.add_assoc, BitVec.add_comm 2#16]

theorem abs_adcBinary (s : FlatVm) (t : Byte) : (s.adcBinary t).abs = s.abs.addBinary t := by
  have hflags := adcBinary_flags t s
  have hrA := adcBinary_rA t s
  rw [hrA] at hflags
  simp only [Vm.abs, hflags, hrA]
  rfl

theorem abs_sbcBinary (s : FlatVm) (t : Byte) : (s.sbcBinary t).abs = s.abs.subBinary t := by
  have hflags := sbcBinary_flags t s
  have hrA := sbcBinary_rA t s
  rw [hrA] at hflags
  simp only [Vm.abs, hflags, hrA]
  rfl

/-! ### Operands -/

def Addressing.mode : Addressing → Mode
  | .zp => .zeroPage
  | .zpX => .zeroPageX
  | .zpY => .zeroPageY
  | .abs => .absolute
  | .absX => .absoluteX
  | .absY => .absoluteY
  | .indX => .indexedIndirect
  | .indY => .indirectIndexed

def Src.mode : Src → Mode
  | .imm => .immediate
  | .at m => m.mode

def Tgt.mode : Tgt → Mode
  | .acc => .accumulator
  | .at m => m.mode

@[simp] theorem Addressing.length_mode (m : Addressing) : m.mode.length = m.pt := by
  cases m <;> rfl

@[simp] theorem Src.length_mode (o : Src) : o.mode.length = o.pt := by
  rcases o with - | m
  · rfl
  · exact m.length_mode

@[simp] theorem Tgt.length_mode (o : Tgt) : o.mode.length = o.pt := by
  rcases o with - | m
  · rfl
  · exact m.length_mode

/-- The operand bytes that follow an opcode, as the mode reads them. -/
def OpCache.operand (c : OpCache) (m : Mode) : Word :=
  match m.length with
  | 2 => word c.b1
  | 3 => c.b2 ++ c.b1
  | _ => 0

/-- The zero-page pointer of the mode is not the last byte of page zero. -/
def PointerFits (m : Mode) (v : Word) (s : State) : Prop :=
  m.pointer v s ≠ some 0xff

theorem Addressing.addr_flat (m : Addressing) (c : OpCache) (s : FlatVm)
    (h : PointerFits m.mode (c.operand m.mode) s.abs) :
    m.addr c s = (m.mode.addr (c.operand m.mode) s.abs, s) := by
  cases m with
  | zp =>
    simp only [addr, mode, OpCache.operand, Mode.length, Mode.addr, setWidth_word]
    rfl
  | zpX | zpY =>
    simp only [addr, mode, OpCache.operand, Mode.length, Mode.addr, word_add_and,
      setWidth_word]
    rfl
  | abs =>
    simp only [addr, mode, OpCache.operand, Mode.length, Mode.addr, addr16_word]
  | absX | absY =>
    simp only [addr, mode, OpCache.operand, Mode.length, Mode.addr, addr16_word]
    rfl
  -- the pointer is two consecutive bytes, which does not wrap in page zero
  | indX =>
    have hp : c.b1 + s.rX ≠ 0xff#8 := by
      simpa [PointerFits, mode, OpCache.operand, Mode.length, Mode.pointer,
        setWidth_word] using h
    simp only [addr, mode, OpCache.operand, Mode.length, Mode.addr, addr16_word,
      word_add_and, setWidth_word, vmRamRead_flat, Nat.reduceLT, at_readBlock,
      BitVec.ofNat_eq_ofNat, BitVec.add_zero]
    rw [word_succ hp]
    rfl
  | indY =>
    have hp : c.b1 ≠ 0xff#8 := by
      simpa [PointerFits, mode, OpCache.operand, Mode.length, Mode.pointer,
        setWidth_word] using h
    simp only [addr, mode, OpCache.operand, Mode.length, Mode.addr, addr16_word,
      setWidth_word, vmRamRead_flat, Nat.reduceLT, at_readBlock,
      BitVec.ofNat_eq_ofNat, BitVec.add_zero]
    rw [word_succ hp]
    rfl

theorem Src.value_flat (o : Src) (c : OpCache) (s : FlatVm)
    (h : PointerFits o.mode (c.operand o.mode) s.abs) :
    o.value c s = (o.mode.value (c.operand o.mode) s.abs, s) := by
  rcases o with - | m
  · simp [Src.value, Src.mode, Mode.value, OpCache.operand, Mode.length, setWidth_word]
  · simp only [Src.value, m.addr_flat c s h, vmRamRead_flat, Nat.reduceLT, at_readBlock,
      BitVec.add_zero]
    cases m <;> rfl

/-- A read-modify-write stores `f` of the operand where the mode found it, and
leaves everything but its target alone. -/
theorem Tgt.modify_flat (o : Tgt) (f : Byte → Byte) (c : OpCache) (s : FlatVm)
    (h : PointerFits o.mode (c.operand o.mode) s.abs) :
    (o.modify f c s).1 = (o.mode.value (c.operand o.mode) s.abs,
        f (o.mode.value (c.operand o.mode) s.abs)) ∧
      (o.modify f c s).2.abs = o.mode.store (c.operand o.mode)
        (f (o.mode.value (c.operand o.mode) s.abs)) s.abs := by
  rcases o with - | m
  · exact ⟨rfl, rfl⟩
  · simp only [Tgt.modify, m.addr_flat c s h, vmRamRead_flat, Nat.reduceLT, at_readBlock,
      BitVec.add_zero]
    refine ⟨?_, ?_⟩ <;> cases m <;> rfl

/-! ### The stack -/

theorem addr16_push (sp : Byte) : addr16 (word sp) 1 = stackAddr sp :=
  addr16_word sp 1

theorem addr16_pull : ∀ sp : Byte, addr16 (word sp + 1) 1 = stackAddr (sp + 1) := by
  decide +kernel

/-- The two-byte push starts in page one, unless `r_sp - 1` is negative. -/
theorem addr16_push_two :
    ∀ sp : Byte, sp ≠ 0 → addr16 (word sp - 1) 1 = stackAddr (sp - 1) := by
  decide +kernel

/-- The three-byte push starts in page one, unless `r_sp - 2` is negative. -/
theorem addr16_push_three :
    ∀ sp : Byte, 2 ≤ sp.toNat → addr16 (word sp - 2) 1 = stackAddr (sp - 2) := by
  decide +kernel

-- from `$00` the three bytes are pushed across the ends of the memory
example : addr16 (word 0 - 2) 1 = 0xfffe := by decide +kernel

theorem stackAddr_injective : Function.Injective stackAddr := by
  intro p q h
  have hlow := congrArg (BitVec.extractLsb' 0 8) h
  simpa only [stackAddr, BitVec.extractLsb'_append_eq_right] using hlow

theorem toNat_stackAddr (p : Byte) : (stackAddr p).toNat = 256 + p.toNat := by
  rw [stackAddr, BitVec.toNat_append, ← Nat.shiftLeft_add_eq_or_of_lt p.isLt]
  rfl

theorem stackAddr_add {p q : Byte} {k : ℕ} (h : p.toNat + k < 256) (hq : p + BitVec.ofNat 8 k = q) :
    stackAddr p + BitVec.ofNat 16 k = stackAddr q := by
  subst hq
  apply BitVec.eq_of_toNat_eq
  rw [BitVec.toNat_add, toNat_stackAddr, toNat_stackAddr, BitVec.toNat_add, BitVec.toNat_ofNat,
    BitVec.toNat_ofNat]
  omega

/-- A block of two bytes written upwards is two pushes. -/
theorem writeBlock_push_two (m : Word → Byte) {sp : Byte} (b₀ b₁ : Byte) (h : sp ≠ 0) :
    writeBlock m (stackAddr (sp - 1)) [b₀, b₁]
      = Function.update (Function.update m (stackAddr sp) b₁) (stackAddr (sp - 1)) b₀ := by
  have hne : stackAddr sp ≠ stackAddr (sp - 1) := stackAddr_injective.ne (by bv_omega)
  have hsucc : stackAddr (sp - 1) + 1 = stackAddr sp :=
    stackAddr_add (by bv_omega) (by bv_omega)
  rw [writeBlock_cons, writeBlock_cons, writeBlock_nil, hsucc, Function.update_comm hne]

/-- A block of three bytes written upwards is three pushes. -/
theorem writeBlock_push_three (m : Word → Byte) {sp : Byte} (b₀ b₁ b₂ : Byte)
    (h : 2 ≤ sp.toNat) :
    writeBlock m (stackAddr (sp - 2)) [b₀, b₁, b₂]
      = Function.update (Function.update (Function.update m (stackAddr sp) b₂)
          (stackAddr (sp - 1)) b₁) (stackAddr (sp - 2)) b₀ := by
  have hsucc : stackAddr (sp - 2) + 1 = stackAddr (sp - 1) :=
    stackAddr_add (by bv_omega) (by bv_omega)
  have hne : stackAddr sp ≠ stackAddr (sp - 2) := stackAddr_injective.ne (by bv_omega)
  have hne' : stackAddr (sp - 1) ≠ stackAddr (sp - 2) := stackAddr_injective.ne (by bv_omega)
  rw [writeBlock_cons, hsucc, Function.update_comm hne', Function.update_comm hne,
    ← writeBlock_push_two _ _ _ (by bv_omega)]

/-- The blocks that the multi-byte pushes and pulls access do not leave page
one. -/
def StackFits (mn : Mnemonic) (sp : Byte) : Prop :=
  match mn with
  | .jsr => sp ≠ 0
  | .brk => 2 ≤ sp.toNat
  | .rts => sp ≠ 0xfe
  | .rti => sp ≠ 0xfd ∧ sp ≠ 0xfe
  | _ => True

/-! ### Cases and instructions -/

/-- The instruction a case implements; `SYS` is not one of the 6502's. -/
def Case.instr : Case → Option (Mnemonic × Mode)
  | .sys => none
  | .dex => some (.dex, .implied)
  | .dey => some (.dey, .implied)
  | .inx => some (.inx, .implied)
  | .iny => some (.iny, .implied)
  | .tax => some (.tax, .implied)
  | .tay => some (.tay, .implied)
  | .txa => some (.txa, .implied)
  | .tya => some (.tya, .implied)
  | .tsx => some (.tsx, .implied)
  | .txs => some (.txs, .implied)
  | .bpl => some (.bpl, .relative)
  | .bmi => some (.bmi, .relative)
  | .bvc => some (.bvc, .relative)
  | .bvs => some (.bvs, .relative)
  | .bcc => some (.bcc, .relative)
  | .bcs => some (.bcs, .relative)
  | .bne => some (.bne, .relative)
  | .beq => some (.beq, .relative)
  | .sed => some (.sed, .implied)
  | .cld => some (.cld, .implied)
  | .sei => some (.sei, .implied)
  | .cli => some (.cli, .implied)
  | .sec => some (.sec, .implied)
  | .clc => some (.clc, .implied)
  | .clv => some (.clv, .implied)
  | .nop => some (.nop, .implied)
  | .cpx o => some (.cpx, o.mode)
  | .cpy o => some (.cpy, o.mode)
  | .cmp o => some (.cmp, o.mode)
  | .eor o => some (.eor, o.mode)
  | .and o => some (.and, o.mode)
  | .ora o => some (.ora, o.mode)
  | .lda o => some (.lda, o.mode)
  | .ldx o => some (.ldx, o.mode)
  | .ldy o => some (.ldy, o.mode)
  | .adc o => some (.adc, o.mode)
  | .sbc o => some (.sbc, o.mode)
  | .bit m => some (.bit, m.mode)
  | .sta m => some (.sta, m.mode)
  | .stx m => some (.stx, m.mode)
  | .sty m => some (.sty, m.mode)
  | .inc m => some (.inc, m.mode)
  | .dec m => some (.dec, m.mode)
  | .rol o => some (.rol, o.mode)
  | .ror o => some (.ror, o.mode)
  | .asl o => some (.asl, o.mode)
  | .lsr o => some (.lsr, o.mode)
  | .jmp => some (.jmp, .absolute)
  | .jmpInd => some (.jmp, .indirect)
  | .jsr => some (.jsr, .absolute)
  | .rts => some (.rts, .implied)
  | .rti => some (.rti, .implied)
  | .brk => some (.brk, .implied)
  | .pha => some (.pha, .implied)
  | .php => some (.php, .implied)
  | .pla => some (.pla, .implied)
  | .plp => some (.plp, .implied)

/-! ### Shifts, increments and decrements -/

theorem Tgt.store_next (o : Tgt) (v : Word) (b : Byte) (pc : Word) (s : State) :
    o.mode.store v b { s with pc := pc } = { o.mode.store v b s with pc := pc } := by
  rcases o with - | m
  · rfl
  · cases m <;> rfl

theorem Tgt.pc_store (o : Tgt) (v : Word) (b : Byte) (s : State) :
    (o.mode.store v b s).pc = s.pc := by
  rcases o with - | m
  · rfl
  · cases m <;> rfl

/-- A shift or rotate: `f` computes the result and `g` the carry. -/
theorem abs_shift (mn : Mnemonic) (f g : Byte → Byte) (o : Tgt) (c : OpCache) (s : FlatVm)
    (h : PointerFits o.mode (c.operand o.mode) s.abs)
    (hf : ∀ b, f b = (mn.shift s.abs.flags.c b).1)
    (hg : ∀ b, g b = if (mn.shift s.abs.flags.c b).2 then sbit Cf else 0#8)
    (hmn : mn = .asl ∨ mn = .lsr ∨ mn = .rol ∨ mn = .ror) :
    (((o.modify f c s).2.setNZC (o.modify f c s).1.2 (g (o.modify f c s).1.1)).next
        o.pt).abs = exec mn o.mode (c.operand o.mode) s.abs := by
  obtain ⟨hval, hmem⟩ := o.modify_flat f c s h
  rw [abs_next, hg, abs_setNZC, hval, hmem, hf]
  rcases hmn with rfl | rfl | rfl | rfl <;>
    simp only [exec, Tgt.length_mode, Tgt.store_next, Bool.decide_eq_true, State.setNZ,
      Tgt.pc_store]

/-- Increments and decrements, `f` being the operation on the byte. -/
theorem abs_incDec (f : Byte → Byte) (m : Addressing) (c : OpCache) (s : FlatVm)
    (h : PointerFits m.mode (c.operand m.mode) s.abs) :
    ((((Tgt.at m).modify f c s).2.setNZ ((Tgt.at m).modify f c s).1.2).next m.pt).abs
      = (m.mode.store (c.operand m.mode) (f (m.mode.value (c.operand m.mode) s.abs))
          { s.abs with pc := s.abs.pc + BitVec.ofNat 16 m.pt }).setNZ
          (f (m.mode.value (c.operand m.mode) s.abs)) := by
  obtain ⟨hval, hmem⟩ := (Tgt.at m).modify_flat f c s h
  rw [abs_next, abs_setNZ, hval, hmem]
  cases m <;> rfl

/-- `LSR` leaves `testN` out; bit 7 of its result is clear. -/
theorem setNZC_of_lsr (s : FlatVm) (t c : Byte) :
    s.setNZC (t >>> 1 &&& 0x7f) c = { s with
      rS := s.rS &&& ~~~(sbit Nf ||| sbit Zf ||| sbit Cf) |||
        (testZ (t >>> 1 &&& 0x7f) ||| c) } := by
  have hN : ∀ t : Byte, testN (t >>> 1 &&& 0x7f) = 0#8 := by decide +kernel
  rw [Vm.setNZC, hN, BitVec.zero_or]

section Shifts

variable (sys : Byte → FlatVm → FlatVm) (o : Tgt) (c : OpCache) (s : FlatVm)
  (h : PointerFits o.mode (c.operand o.mode) s.abs)
include h

theorem Case.run_rol :
    ((Case.rol o).run sys c s).abs = exec .rol o.mode (c.operand o.mode) s.abs := by
  rw [← abs_shift .rol (fun t => (t <<< 1 &&& 0xfe) ||| testC s.rS)
    (fun t => if testN t ≠ 0#8 then sbit Cf else 0#8) o c s h (fun b => rol_carry b s.rS)
    (fun b => by simp only [testN_ne_zero]; rfl) (by decide)]
  rfl

theorem Case.run_ror :
    ((Case.ror o).run sys c s).abs = exec .ror o.mode (c.operand o.mode) s.abs := by
  rw [← abs_shift .ror
    (fun t => (t >>> 1 &&& 0x7f) ||| (if testC s.rS ≠ 0#8 then 0x80#8 else 0#8)) testC o c s h
    (fun b => ror_carry b s.rS) testC_eq_sbit (by decide)]
  rfl

theorem Case.run_asl :
    ((Case.asl o).run sys c s).abs = exec .asl o.mode (c.operand o.mode) s.abs := by
  rw [← abs_shift .asl (fun t => t <<< 1 &&& 0xfe)
    (fun t => if testN t ≠ 0#8 then sbit Cf else 0#8) o c s h asl_mask
    (fun b => by simp only [testN_ne_zero]; rfl) (by decide)]
  rfl

theorem Case.run_lsr :
    ((Case.lsr o).run sys c s).abs = exec .lsr o.mode (c.operand o.mode) s.abs := by
  rw [← abs_shift .lsr (fun t => t >>> 1 &&& 0x7f) testC o c s h lsr_mask testC_eq_sbit
    (by decide), (o.modify_flat _ c s h).1, setNZC_of_lsr]
  simp only [Case.run, (o.modify_flat _ c s h).1]

end Shifts

/-! ### Multi-byte pushes and pulls -/

theorem Case.run_jsr (sys : Byte → FlatVm → FlatVm) (c : OpCache) (s : FlatVm)
    (h : s.rSp ≠ 0) :
    (Case.jsr.run sys c s).abs = exec .jsr .absolute (c.operand .absolute) s.abs := by
  have hpc : s.rPc + 2 = s.rPc + 3#16 - 1 := by bv_omega
  have hsp : s.rSp - 2 = s.rSp - 1 - 1 := by bv_omega
  simp only [Case.run, exec, vmRamWrite_flat, addr16_push_two s.rSp h,
    writeBlock_push_two _ _ _ h, hpc, hsp, addr16_word]
  rfl

theorem Case.run_brk (sys : Byte → FlatVm → FlatVm) (c : OpCache) (s : FlatVm)
    (h : 2 ≤ s.rSp.toNat) :
    (Case.brk.run sys c s).abs = exec .brk .implied (c.operand .implied) s.abs := by
  have hpc : s.rPc + 2 = s.rPc + 1#16 + 1 := by bv_omega
  have hsp : s.rSp - 2 = s.rSp - 1 - 1 := by bv_omega
  have hs : s.rS ||| sbit 5 ||| sbit Bf = (Flags.ofByte s.rS).toByte := by
    rw [Flags.toByte_ofByte, BitVec.or_assoc]
    rfl
  -- what the block write leaves is what the three pushes leave
  have hmem := writeBlock_push_three s.ram ((Flags.ofByte s.rS).toByte)
    ((s.rPc + 1#16 + 1).setWidth 8) (((s.rPc + 1#16 + 1) >>> 8).setWidth 8) h
  rw [hsp] at hmem
  refine State.ext rfl rfl rfl ?_ ?_ ?_ ?_
  · show s.rSp - 3 = s.rSp - 1 - 1 - 1
    bv_omega
  · simp only [Case.run, vmRamRead_flat, vmRamWrite_flat, addr16_push_three s.rSp h, Vm.abs_pc,
      hpc, hsp, hs, hmem, addr16_word, Nat.reduceLT, at_readBlock]
    rfl
  · show Flags.ofByte (s.rS ||| sbit If) = { Flags.ofByte s.rS with i := true }
    simp [ofByte_or_sbit]
  · simp only [Case.run, vmRamRead_flat, vmRamWrite_flat, addr16_push_three s.rSp h,
      hpc, hsp, hs, hmem]
    rfl

theorem Case.run_rts (sys : Byte → FlatVm → FlatVm) (c : OpCache) (s : FlatVm)
    (h : s.rSp ≠ 0xfe) :
    (Case.rts.run sys c s).abs = exec .rts .implied (c.operand .implied) s.abs := by
  have hadd : stackAddr (s.rSp + 1) + 1#16 = stackAddr (s.rSp + 2) :=
    stackAddr_add (by bv_omega) (by bv_omega)
  simp only [Case.run, exec, vmRamRead_flat, addr16_pull s.rSp, Nat.reduceLT, at_readBlock,
    addr16_word, BitVec.add_zero, hadd]
  rfl

theorem Case.run_rti (sys : Byte → FlatVm → FlatVm) (c : OpCache) (s : FlatVm)
    (h : s.rSp ≠ 0xfd ∧ s.rSp ≠ 0xfe) :
    (Case.rti.run sys c s).abs = exec .rti .implied (c.operand .implied) s.abs := by
  obtain ⟨h₁, h₂⟩ := h
  have hadd : stackAddr (s.rSp + 1) + 1#16 = stackAddr (s.rSp + 2) :=
    stackAddr_add (by bv_omega) (by bv_omega)
  have hadd' : stackAddr (s.rSp + 1) + 2#16 = stackAddr (s.rSp + 3) :=
    stackAddr_add (by bv_omega) (by bv_omega)
  simp only [Case.run, exec, vmRamRead_flat, addr16_pull s.rSp, Nat.reduceLT, at_readBlock,
    addr16_word, BitVec.add_zero, hadd, hadd']
  rfl

/-! ### One step -/

/-- **Every case is the instruction it is named after**, outside decimal mode. -/
theorem Case.run_abs (sys : Byte → FlatVm → FlatVm) {k : Case} {mn : Mnemonic} {m : Mode}
    (hk : k.instr = some (mn, m)) (c : OpCache) (s : FlatVm)
    (hp : PointerFits m (c.operand m) s.abs) (hs : StackFits mn s.rSp)
    (hd : ¬ (s.abs.flags.d ∧ (mn = .adc ∨ mn = .sbc))) :
    (k.run sys c s).abs = exec mn m (c.operand m) s.abs := by
  cases k <;> simp only [Case.instr, Option.some.injEq, Prod.mk.injEq, reduceCtorEq] at hk <;>
    obtain ⟨rfl, rfl⟩ := hk
  case dex | dey | inx | iny | tax | tay | txa | tya | tsx =>
    simp only [Case.run, abs_next, abs_setNZ]
    rfl
  case txs | nop => rfl
  case sed | sei | sec =>
    simp [Case.run, exec, Vm.abs, ofByte_or_sbit, Mode.length, Vm.next]
  case cld | cli | clc | clv =>
    simp [Case.run, exec, Vm.abs, ofByte_and_not_sbit, Mode.length, Vm.next]
  case bpl | bmi =>
    simp only [Case.run, abs_branch, exec, testN, and_sbit_beq_zero (show Nf < 8 by decide),
      and_sbit_bne_zero (show Nf < 8 by decide), OpCache.operand, Mode.length, setWidth_word]
    rfl
  case bvc | bvs =>
    simp only [Case.run, abs_branch, exec, and_sbit_beq_zero (show Vf < 8 by decide),
      and_sbit_bne_zero (show Vf < 8 by decide), OpCache.operand, Mode.length, setWidth_word]
    rfl
  case bcc | bcs =>
    simp only [Case.run, abs_branch, exec, and_sbit_beq_zero (show Cf < 8 by decide),
      and_sbit_bne_zero (show Cf < 8 by decide), OpCache.operand, Mode.length, setWidth_word]
    rfl
  case bne | beq =>
    simp only [Case.run, abs_branch, exec, and_sbit_beq_zero (show Zf < 8 by decide),
      and_sbit_bne_zero (show Zf < 8 by decide), OpCache.operand, Mode.length, setWidth_word]
    rfl
  case cpx o | cpy o | cmp o =>
    simp only [Case.run, abs_next, o.value_flat c s hp, abs_compare, exec, Src.length_mode]
    rfl
  case eor o | and o | ora o | lda o | ldx o | ldy o =>
    simp only [Case.run, abs_next, o.value_flat c s hp, abs_setNZ, exec, Src.length_mode]
    rfl
  -- decimal mode is excluded
  case adc o =>
    have hd' : ¬ testD s.rS ≠ 0#8 := fun h => hd ⟨(testD_ne_zero _).mp h, .inl rfl⟩
    simp only [Case.run, abs_next, o.value_flat c s hp, Vm.adc, if_neg hd', abs_adcBinary, exec,
      Src.length_mode]
    rfl
  case sbc o =>
    have hd' : ¬ testD s.rS ≠ 0#8 := fun h => hd ⟨(testD_ne_zero _).mp h, .inr rfl⟩
    simp only [Case.run, abs_next, o.value_flat c s hp, Vm.sbc, if_neg hd', abs_sbcBinary, exec,
      Src.length_mode]
    rfl
  case bit m =>
    simp only [Case.run, abs_next, (Src.at m).value_flat c s hp, abs_bit, exec,
      Addressing.length_mode]
    rfl
  case sta m | stx m | sty m =>
    simp only [Case.run, abs_next, m.addr_flat c s hp, exec, Addressing.length_mode]
    cases m <;> rfl
  case inc m =>
    rw [Case.run, abs_incDec (· + 1) m c s hp, ← Addressing.length_mode]
    rfl
  case dec m =>
    rw [Case.run, abs_incDec (· - 1) m c s hp, ← Addressing.length_mode]
    rfl
  case rol o => exact Case.run_rol sys o c s hp
  case ror o => exact Case.run_ror sys o c s hp
  case asl o => exact Case.run_asl sys o c s hp
  case lsr o => exact Case.run_lsr sys o c s hp
  case jmp =>
    simp only [Case.run, addr16_word]
    rfl
  case jmpInd =>
    simp only [Case.run, addr16_word, vmRamRead_flat, Nat.reduceLT, at_readBlock, BitVec.add_zero]
    rfl
  case jsr => exact Case.run_jsr sys c s hs
  case rts => exact Case.run_rts sys c s hs
  case rti => exact Case.run_rti sys c s hs
  case brk => exact Case.run_brk sys c s hs
  case pha =>
    simp only [Case.run, vmRamWrite_flat, addr16_push]
    rfl
  case php =>
    -- bits 4 and 5 of the pushed status
    have hs : s.rS ||| sbit 5 ||| sbit Bf = (Flags.ofByte s.rS).toByte := by
      rw [Flags.toByte_ofByte, BitVec.or_assoc]
      rfl
    simp only [Case.run, vmRamWrite_flat, addr16_push, hs]
    rfl
  case pla =>
    simp only [Case.run, vmRamRead_flat, addr16_push, Nat.reduceLT, at_readBlock, BitVec.add_zero,
      abs_next, abs_setNZ]
    rfl
  case plp =>
    simp only [Case.run, vmRamRead_flat, addr16_push, Nat.reduceLT, at_readBlock, BitVec.add_zero,
      abs_next]
    rfl

/-! ### The opcode matrix and the switch -/

theorem vmSwitch_opcode_aux : ∀ (mn : Mnemonic) (m : Mode),
    (opcode mn m).elim true
      (fun op => (vmSwitch op).bind Case.instr == some (mn, m)) = true :=
  Mos6502.forall_instr (by decide +kernel)

/-- The opcode matrix and the switch agree. -/
theorem vmSwitch_opcode {mn : Mnemonic} {m : Mode} {op : Byte} (h : opcode mn m = some op) :
    ∃ k, vmSwitch op = some k ∧ k.instr = some (mn, m) := by
  have haux := vmSwitch_opcode_aux mn m
  rw [h] at haux
  exact Option.bind_eq_some_iff.mp (by simpa using haux)

/-- An opcode determines its mnemonic and mode. -/
theorem opcode_injective {mn mn' : Mnemonic} {m m' : Mode} {op : Byte}
    (h : opcode mn m = some op) (h' : opcode mn' m' = some op) : mn = mn' ∧ m = m' := by
  obtain ⟨k, hk, hinstr⟩ := vmSwitch_opcode h
  obtain ⟨k', hk', hinstr'⟩ := vmSwitch_opcode h'
  obtain rfl : k = k' := Option.some.inj (hk.symm.trans hk')
  exact Prod.mk.inj (Option.some.inj (hinstr.symm.trans hinstr'))

theorem vmExec_flat (sys : Byte → FlatVm → FlatVm) (s : FlatVm) :
    vmExec sys s = (vmSwitch (s.ram s.rPc)).map fun k => k.run sys (FlatVm.cache s) s := by
  rw [vmExec, fetch_flat]
  rfl

/-- One `vm_exec` on an opcode of the matrix runs the case of its instruction. -/
theorem vmExec_opcode {M : Type} [BlockMem 16 Byte M] (sys : Byte → Vm M → Vm M) {s : Vm M}
    {mn : Mnemonic} {m : Mode} (hop : opcode mn m = some s.fetch.1.op) :
    ∃ k, vmSwitch s.fetch.1.op = some k ∧ k.instr = some (mn, m) ∧
      vmExec sys s = some (k.run sys s.fetch.1 s.fetch.2) := by
  obtain ⟨k, hk, hinstr⟩ := vmSwitch_opcode hop
  refine ⟨k, hk, hinstr, ?_⟩
  rw [vmExec, hk]
  rfl

theorem vmExec_opcode_flat (sys : Byte → FlatVm → FlatVm) {s : FlatVm} {mn : Mnemonic} {m : Mode}
    (hop : opcode mn m = some (s.ram s.rPc)) :
    ∃ k : Case, k.instr = some (mn, m) ∧ vmExec sys s = some (k.run sys (FlatVm.cache s) s) := by
  obtain ⟨k, hk, hinstr⟩ := vmSwitch_opcode hop
  refine ⟨k, hinstr, ?_⟩
  rw [vmExec_flat, hk]
  rfl

theorem operand_cache (s : FlatVm) (m : Mode) :
    (FlatVm.cache s).operand m = s.abs.operand m := by
  cases m <;> rfl

/-! ### Decimal mode -/

theorem Case.run_adc_decimal (sys : Byte → FlatVm → FlatVm) (o : Src) (c : OpCache)
    (s : FlatVm) (hp : PointerFits o.mode (c.operand o.mode) s.abs)
    (hd : s.abs.flags.d = true) :
    Executes .adc o.mode (c.operand o.mode) s.abs ((Case.adc o).run sys c s).abs := by
  have hd' : testD s.rS ≠ 0#8 := (testD_ne_zero _).mpr hd
  rw [Executes, if_pos ⟨hd, .inl rfl⟩]
  simp only [Case.run, o.value_flat c s hp, Vm.adc, if_pos hd', abs_next]
  refine ⟨_, _, congrArg (fun n => State.mk _ _ _ _ (s.rPc + BitVec.ofNat 16 n) _ _)
    o.length_mode.symm, ?_, ?_, fun ha hb => ?_⟩
  · exact (adcDecimal_frame _ s).1
  · exact (adcDecimal_frame _ s).2
  · obtain ⟨hbcd, hsum⟩ := adcDecimal_spec ha hb
    exact ⟨hbcd, by exact_mod_cast hsum⟩

theorem Case.run_sbc_decimal (sys : Byte → FlatVm → FlatVm) (o : Src) (c : OpCache)
    (s : FlatVm) (hp : PointerFits o.mode (c.operand o.mode) s.abs)
    (hd : s.abs.flags.d = true) :
    Executes .sbc o.mode (c.operand o.mode) s.abs ((Case.sbc o).run sys c s).abs := by
  have hd' : testD s.rS ≠ 0#8 := (testD_ne_zero _).mpr hd
  rw [Executes, if_pos ⟨hd, .inr rfl⟩]
  simp only [Case.run, o.value_flat c s hp, Vm.sbc, if_pos hd', abs_next]
  refine ⟨_, _, congrArg (fun n => State.mk _ _ _ _ (s.rPc + BitVec.ofNat 16 n) _ _)
    o.length_mode.symm, ?_, ?_, fun ha hb => ?_⟩
  · exact (sbcDecimal_frame _ s).1
  · exact (sbcDecimal_frame _ s).2
  · exact sbcDecimal_spec ha hb

/-- **Every case executes the instruction it is named after**, in every mode. -/
theorem Case.run_executes (sys : Byte → FlatVm → FlatVm) {k : Case} {mn : Mnemonic}
    {m : Mode} (hk : k.instr = some (mn, m)) (c : OpCache) (s : FlatVm)
    (hp : PointerFits m (c.operand m) s.abs) (hs : StackFits mn s.rSp) :
    Executes mn m (c.operand m) s.abs (k.run sys c s).abs := by
  by_cases hd : s.abs.flags.d ∧ (mn = .adc ∨ mn = .sbc)
  · obtain ⟨hd, rfl | rfl⟩ := hd
    · cases k <;> simp only [Case.instr, Option.some.injEq, Prod.mk.injEq, reduceCtorEq,
        false_and, true_and] at hk
      case adc o =>
        subst hk
        exact Case.run_adc_decimal sys o c s hp hd
    · cases k <;> simp only [Case.instr, Option.some.injEq, Prod.mk.injEq, reduceCtorEq,
        false_and, true_and] at hk
      case sbc o =>
        subst hk
        exact Case.run_sbc_decimal sys o c s hp hd
  · rw [Executes, if_neg hd]
    exact Case.run_abs sys hk c s hp hs hd

/-! ### Documented opcodes -/

/-- The instructions that use the stack. -/
def StackInstr (mn : Mnemonic) : Prop :=
  mn ∈ [.pha, .php, .pla, .plp, .jsr, .rts, .brk, .rti]

instance (mn : Mnemonic) : Decidable (StackInstr mn) :=
  inferInstanceAs (Decidable (mn ∈ _))

instance (m : Mode) (v : Word) (s : State) : Decidable (PointerFits m v s) :=
  inferInstanceAs (Decidable (_ ≠ _))

theorem StackFits.of_not_stackInstr {mn : Mnemonic} (h : ¬ StackInstr mn) (sp : Byte) :
    StackFits mn sp := by
  cases mn
  case jsr | brk | rts | rti => exact absurd (by decide) h
  all_goals trivial

/-- **One `vm_exec` is the documented instruction.**  Registers, flags, program
counter and the whole memory are those of `exec`; nothing else is affected. -/
theorem vmExec_documented (sys : Byte → FlatVm → FlatVm) (s : FlatVm) (mn : Mnemonic)
    (m : Mode) (hop : opcode mn m = some (s.ram s.rPc)) (hmn : ¬ StackInstr mn)
    (hd : ¬ (s.abs.flags.d ∧ (mn = .adc ∨ mn = .sbc)))
    (hp : PointerFits m (s.abs.operand m) s.abs) :
    ∃ t, vmExec sys s = some t ∧ t.abs = exec mn m (s.abs.operand m) s.abs := by
  obtain ⟨k, hinstr, hexec⟩ := vmExec_opcode_flat sys hop
  refine ⟨_, hexec, ?_⟩
  rw [← operand_cache] at hp ⊢
  exact Case.run_abs sys hinstr _ s hp (.of_not_stackInstr hmn _) hd

/-- `ADC ($71),Y` out of a memory full of `$71`. -/
theorem vmExec_documented_adc_indY :
    let s : FlatVm := ⟨0x12, 0, 0xf0, 0xff, 0x41, 0x1a00, fun _ => 0x71⟩
    ∃ t, vmExec (fun _ => id) s = some t ∧
      t.abs = exec .adc .indirectIndexed 0x71 s.abs :=
  vmExec_documented _ ⟨0x12, 0, 0xf0, 0xff, 0x41, 0x1a00, fun _ => 0x71⟩ .adc .indirectIndexed
    rfl (by decide) (by decide) (by decide)

end Dan64
