/-
Dan64/Vm.lean

The 6502 virtual machine of `vm/vm.c`, over any memory that `vm_ram_read` and
`vm_ram_write` may be linked with (`BlockMem`) and any `vm_syscall`.

`vmExec` follows `vm_exec`.  Its `switch` is the table `vmSwitch`: a case of
the source computes an address (`Addressing`) and jumps to the label of an
operation, so that an opcode stands for a pair of these, a `Case`.  What the
cases do is `Case.run`, one arm per label.  The two ends of a case are
explicit: `next` is the common exit `r_pc += pt - _op_cache`, and the cases
that `return 1` set `rPc` themselves.

`addr16(*pt++, *pt++)` reads its operands from left to right, as compiled; the
temporaries `op`, `addr`, `r_t`, `r_ts` and `r_t16` are written before they
are read in every case and are local here.
-/
import Dan64.BlockMem

namespace Dan64

abbrev Byte := BitVec 8
abbrev Word := BitVec 16

/-! ### Flags and addresses (`vm.h`) -/

abbrev Cf := 0
abbrev Zf := 1
abbrev If := 2
abbrev Df := 3
abbrev Bf := 4
abbrev Vf := 6
abbrev Nf := 7

def PROG_START : Word := 0x1a00

def addr16 (x y : Word) : Word := x ||| y <<< 8

def sbit (f : ℕ) : Byte := 1#8 <<< f

def testZ (x : Byte) : Byte := if x ≠ 0#8 then 0#8 else sbit Zf

def testN (x : Byte) : Byte := x &&& sbit Nf

def testC (x : Byte) : Byte := x &&& sbit Cf

def testV (x : Byte) : Byte := x &&& sbit Vf

def testD (x : Byte) : Byte := x &&& sbit Df

/-- A byte promoted to `int`. -/
def word (b : Byte) : Word := b.setWidth 16

/-! ### State -/

/-- The registers, and the memory behind `vm_ram_read` and `vm_ram_write`. -/
structure Vm (M : Type) where
  rA : Byte
  rX : Byte
  rY : Byte
  rSp : Byte
  rS : Byte
  rPc : Word
  ram : M

variable {M : Type}

def vmInit (s : Vm M) : Vm M :=
  { s with rA := 0, rX := 0, rY := 0, rS := 0, rSp := 0xff, rPc := PROG_START }

/-- The exit of the cases that `break`: `pt` has moved `n` bytes. -/
def Vm.next (n : ℕ) (s : Vm M) : Vm M := { s with rPc := s.rPc + BitVec.ofNat 16 n }

/-- `r_s &= ~(sbit(Nf) | sbit(Zf)); r_s |= testN(v) | testZ(v);` -/
def Vm.setNZ (v : Byte) (s : Vm M) : Vm M :=
  { s with rS := s.rS &&& ~~~(sbit Nf ||| sbit Zf) ||| (testN v ||| testZ v) }

/-- `r_s &= ~(sbit(Nf) | sbit(Zf) | sbit(Cf)); r_s |= testN(v) | testZ(v) | c;` -/
def Vm.setNZC (v c : Byte) (s : Vm M) : Vm M :=
  { s with
    rS := s.rS &&& ~~~(sbit Nf ||| sbit Zf ||| sbit Cf) ||| (testN v ||| testZ v ||| c) }

variable [BlockMem 16 Byte M]

def Vm.vmRamRead (addr : Word) (size : ℕ) (s : Vm M) : List Byte × Vm M :=
  let r := BlockMem.read s.ram addr size
  (r.1, { s with ram := r.2 })

def Vm.vmRamWrite (addr : Word) (src : List Byte) (s : Vm M) : Vm M :=
  { s with ram := BlockMem.write s.ram addr src }

/-- `pt[i]` of a block just read. -/
def at_ (pt : List Byte) (i : ℕ) : Byte := pt.getD i 0

/-- The three bytes prefetched into `_op_cache`. -/
structure OpCache where
  op : Byte
  b1 : Byte
  b2 : Byte

/-- `vm_ram_read(r_pc, pt, 3)` -/
def Vm.fetch (s : Vm M) : OpCache × Vm M :=
  let r := s.vmRamRead s.rPc 3
  (⟨at_ r.1 0, at_ r.1 1, at_ r.1 2⟩, r.2)

/-! ### Operands -/

/-- The ways a case of the `switch` computes `addr`. -/
inductive Addressing
  | zp | zpX | zpY | abs | absX | absY | indX | indY
  deriving DecidableEq

/-- How far `pt` has moved once `addr` is computed. -/
def Addressing.pt : Addressing → ℕ
  | .zp | .zpX | .zpY | .indX | .indY => 2
  | .abs | .absX | .absY => 3

def Addressing.addr (m : Addressing) (c : OpCache) (s : Vm M) : Word × Vm M :=
  match m with
  | .zp => (word c.b1, s)
  | .zpX => ((word c.b1 + word s.rX) &&& 0xff#16, s)
  | .zpY => ((word c.b1 + word s.rY) &&& 0xff#16, s)
  | .abs => (addr16 (word c.b1) (word c.b2), s)
  | .absX => (addr16 (word c.b1) (word c.b2) + word s.rX, s)
  | .absY => (addr16 (word c.b1) (word c.b2) + word s.rY, s)
  | .indX =>
    let r := s.vmRamRead ((word c.b1 + word s.rX) &&& 0xff#16) 2
    (addr16 (word (at_ r.1 0)) (word (at_ r.1 1)), r.2)
  | .indY =>
    let r := s.vmRamRead (word c.b1) 2
    (addr16 (word (at_ r.1 0)) (word (at_ r.1 1)) + word s.rY, r.2)

/-- Where an operation finds its operand: after the opcode, or in memory. -/
inductive Src
  | imm
  | at (m : Addressing)
  deriving DecidableEq

def Src.pt : Src → ℕ
  | .imm => 2
  | .at m => m.pt

/-- The operand: `*pt++`, or `vm_ram_read(addr, &r_t, 1)`. -/
def Src.value (o : Src) (c : OpCache) (s : Vm M) : Byte × Vm M :=
  match o with
  | .imm => (c.b1, s)
  | .at m =>
    let a := m.addr c s
    let r := a.2.vmRamRead a.1 1
    (at_ r.1 0, r.2)

/-- What a shift works on: the accumulator, or memory. -/
inductive Tgt
  | acc
  | at (m : Addressing)
  deriving DecidableEq

def Tgt.pt : Tgt → ℕ
  | .acc => 1
  | .at m => m.pt

/-- Read a target, store `f` of it back, and return the two values. -/
def Tgt.modify (o : Tgt) (f : Byte → Byte) (c : OpCache) (s : Vm M) :
    (Byte × Byte) × Vm M :=
  match o with
  | .acc => ((s.rA, f s.rA), { s with rA := f s.rA })
  | .at m =>
    let a := m.addr c s
    let r := a.2.vmRamRead a.1 1
    ((at_ r.1 0, f (at_ r.1 0)), r.2.vmRamWrite a.1 [f (at_ r.1 0)])

/-! ### Operations -/

/-- `cmp_im`, `cpx_im` and `cpy_im`: compare a register with the operand. -/
def Vm.compare (r t : Byte) (s : Vm M) : Vm M :=
  s.setNZC (r - t) (if t ≤ r then sbit Cf else 0#8)

/-- `sbit(Vf) | sbit(Nf) | sbit(Zf) | sbit(Cf)` -/
def vnzc : Byte := sbit Vf ||| sbit Nf ||| sbit Zf ||| sbit Cf

/-- The decimal branch of `adc_im_d`. -/
def Vm.adcDecimal (rt : Byte) (s : Vm M) : Vm M :=
  let t16 := (word s.rA &&& 0xf#16) + (word rt &&& 0xf#16) + word (testC s.rS)
  let t16 := if t16 > 9#16 then t16 + 6#16 else t16
  let t := (word s.rA >>> 4) + (word rt >>> 4) + (if t16 > 15#16 then 1#16 else 0#16)
  let t := if t > 9#16 then t + 6#16 else t
  let a := ((t16 &&& 0xf#16) ||| t <<< 4).setWidth 8
  { s with
    rA := a
    rS := s.rS &&& ~~~vnzc ||| ((if t > 15#16 then sbit Cf else 0#8) ||| testZ a) }

/-- `adc_im`.  Only bit 7 of the overflow term is looked at, so it is computed
on bytes. -/
def Vm.adcBinary (rt : Byte) (s : Vm M) : Vm M :=
  let t16 := word s.rA + word rt + word (testC s.rS)
  let a := t16.setWidth 8
  { s with
    rA := a
    rS := s.rS &&& ~~~vnzc |||
      ((if testN (~~~(s.rA ^^^ rt) &&& (s.rA ^^^ a)) ≠ 0#8 then sbit Vf else 0#8) |||
        (if t16 &&& 0xff00#16 ≠ 0#16 then sbit Cf else 0#8) ||| testN a ||| testZ a) }

/-- `adc_im_d`: the operand has been read. -/
def Vm.adc (rt : Byte) (s : Vm M) : Vm M :=
  if testD s.rS ≠ 0#8 then s.adcDecimal rt else s.adcBinary rt

/-- `!testC(r_s)` -/
def notC (s : Byte) : Word := if testC s = 0#8 then 1#16 else 0#16

/-- The decimal branch of `sbc_im_d`. -/
def Vm.sbcDecimal (rt : Byte) (s : Vm M) : Vm M :=
  let t16 := (word s.rA &&& 0xf#16) - (word rt &&& 0xf#16) - notC s.rS
  let t16 := if t16 &&& 0x10#16 ≠ 0#16 then t16 - 6#16 else t16
  let t := (word s.rA >>> 4) - (word rt >>> 4) - ((t16 &&& 0x10#16) >>> 4)
  let t := if t &&& 0x10#16 ≠ 0#16 then t - 6#16 else t
  let a := ((t16 &&& 0xf#16) ||| t <<< 4).setWidth 8
  { s with
    rA := a
    rS := s.rS &&& ~~~vnzc ||| ((if t > 15#16 then 0#8 else sbit Cf) ||| testZ a) }

/-- `sbc_im` -/
def Vm.sbcBinary (rt : Byte) (s : Vm M) : Vm M :=
  let t16 := word s.rA - word rt - notC s.rS
  let a := t16.setWidth 8
  { s with
    rA := a
    rS := s.rS &&& ~~~vnzc |||
      ((if testN ((s.rA ^^^ rt) &&& (s.rA ^^^ a)) ≠ 0#8 then sbit Vf else 0#8) |||
        (if t16 &&& 0xff00#16 ≠ 0#16 then 0#8 else sbit Cf) ||| testN a ||| testZ a) }

/-- `sbc_im_d`: the operand has been read. -/
def Vm.sbc (rt : Byte) (s : Vm M) : Vm M :=
  if testD s.rS ≠ 0#8 then s.sbcDecimal rt else s.sbcBinary rt

/-- The flag update of `0x24` and `0x2c`. -/
def Vm.bit (t : Byte) (s : Vm M) : Vm M :=
  { s with
    rS := s.rS &&& ~~~(sbit Nf ||| sbit Vf ||| sbit Zf) |||
      (testN t ||| testV t ||| testZ (t &&& s.rA)) }

/-- A branch: `r_pc += (int8_t)*pt++` or `r_pc++`, and the common exit. -/
def Vm.branch (taken : Bool) (c : OpCache) (s : Vm M) : Vm M :=
  if taken then { s with rPc := s.rPc + c.b1.signExtend 16 }.next 2
  else { s with rPc := s.rPc + 1 }.next 1

/-! ### The switch -/

/-- The cases of the `switch`, up to the address computation. -/
inductive Case
  | sys
  | dex | dey | inx | iny
  | tax | tay | txa | tya | tsx | txs
  | bpl | bmi | bvc | bvs | bcc | bcs | bne | beq
  | sed | cld | sei | cli | sec | clc | clv
  | nop
  | cpx (o : Src) | cpy (o : Src) | cmp (o : Src)
  | eor (o : Src) | and (o : Src) | ora (o : Src)
  | lda (o : Src) | ldx (o : Src) | ldy (o : Src)
  | adc (o : Src) | sbc (o : Src)
  | bit (m : Addressing)
  | sta (m : Addressing) | stx (m : Addressing) | sty (m : Addressing)
  | inc (m : Addressing) | dec (m : Addressing)
  | rol (o : Tgt) | ror (o : Tgt) | asl (o : Tgt) | lsr (o : Tgt)
  | jmp | jmpInd | jsr | rts | rti | brk
  | pha | php | pla | plp
  deriving DecidableEq

/-- The `switch` of `vm_exec`; no case is the default, which halts. -/
def vmSwitch : Byte → Option Case
  | 0x02 => some .sys
  | 0xca => some .dex
  | 0x88 => some .dey
  | 0xaa => some .tax
  | 0x10 => some .bpl
  | 0x90 => some .bcc
  | 0xe0 => some (.cpx .imm)
  | 0xe4 => some (.cpx (.at .zp))
  | 0xec => some (.cpx (.at .abs))
  | 0x41 => some (.eor (.at .indX))
  | 0x45 => some (.eor (.at .zp))
  | 0x49 => some (.eor .imm)
  | 0x4d => some (.eor (.at .abs))
  | 0x51 => some (.eor (.at .indY))
  | 0x55 => some (.eor (.at .zpX))
  | 0x59 => some (.eor (.at .absY))
  | 0x5d => some (.eor (.at .absX))
  | 0xba => some .tsx
  | 0xc6 => some (.dec .zp)
  | 0xce => some (.dec .abs)
  | 0xd6 => some (.dec .zpX)
  | 0xde => some (.dec .absX)
  | 0x81 => some (.sta .indX)
  | 0x85 => some (.sta .zp)
  | 0x8d => some (.sta .abs)
  | 0x91 => some (.sta .indY)
  | 0x95 => some (.sta .zpX)
  | 0x99 => some (.sta .absY)
  | 0x9d => some (.sta .absX)
  | 0xa1 => some (.lda (.at .indX))
  | 0xa5 => some (.lda (.at .zp))
  | 0xa9 => some (.lda .imm)
  | 0xad => some (.lda (.at .abs))
  | 0xb1 => some (.lda (.at .indY))
  | 0xb5 => some (.lda (.at .zpX))
  | 0xb9 => some (.lda (.at .absY))
  | 0xbd => some (.lda (.at .absX))
  | 0xf0 => some .beq
  | 0x26 => some (.rol (.at .zp))
  | 0x2a => some (.rol .acc)
  | 0x2e => some (.rol (.at .abs))
  | 0x36 => some (.rol (.at .zpX))
  | 0x3e => some (.rol (.at .absX))
  | 0x84 => some (.sty .zp)
  | 0x8c => some (.sty .abs)
  | 0x94 => some (.sty .zpX)
  | 0x4c => some .jmp
  | 0x6c => some .jmpInd
  | 0x30 => some .bmi
  | 0x40 => some .rti
  | 0xa8 => some .tay
  | 0x8a => some .txa
  | 0x60 => some .rts
  | 0xf8 => some .sed
  | 0x46 => some (.lsr (.at .zp))
  | 0x4a => some (.lsr .acc)
  | 0x4e => some (.lsr (.at .abs))
  | 0x56 => some (.lsr (.at .zpX))
  | 0x5e => some (.lsr (.at .absX))
  | 0x20 => some .jsr
  | 0xa0 => some (.ldy .imm)
  | 0xa4 => some (.ldy (.at .zp))
  | 0xac => some (.ldy (.at .abs))
  | 0xb4 => some (.ldy (.at .zpX))
  | 0xbc => some (.ldy (.at .absX))
  | 0x38 => some .sec
  | 0x24 => some (.bit .zp)
  | 0x2c => some (.bit .abs)
  | 0xa2 => some (.ldx .imm)
  | 0xa6 => some (.ldx (.at .zp))
  | 0xae => some (.ldx (.at .abs))
  | 0xb6 => some (.ldx (.at .zpY))
  | 0xbe => some (.ldx (.at .absY))
  | 0x9a => some .txs
  | 0x78 => some .sei
  | 0x06 => some (.asl (.at .zp))
  | 0x0a => some (.asl .acc)
  | 0x0e => some (.asl (.at .abs))
  | 0x16 => some (.asl (.at .zpX))
  | 0x1e => some (.asl (.at .absX))
  | 0x70 => some .bvs
  | 0xc0 => some (.cpy .imm)
  | 0xc4 => some (.cpy (.at .zp))
  | 0xcc => some (.cpy (.at .abs))
  | 0x58 => some .cli
  | 0xd8 => some .cld
  | 0x18 => some .clc
  | 0xb0 => some .bcs
  | 0x61 => some (.adc (.at .indX))
  | 0x65 => some (.adc (.at .zp))
  | 0x69 => some (.adc .imm)
  | 0x6d => some (.adc (.at .abs))
  | 0x71 => some (.adc (.at .indY))
  | 0x75 => some (.adc (.at .zpX))
  | 0x79 => some (.adc (.at .absY))
  | 0x7d => some (.adc (.at .absX))
  | 0xb8 => some .clv
  | 0x86 => some (.stx .zp)
  | 0x8e => some (.stx .abs)
  | 0x96 => some (.stx .zpY)
  | 0x66 => some (.ror (.at .zp))
  | 0x6a => some (.ror .acc)
  | 0x6e => some (.ror (.at .abs))
  | 0x76 => some (.ror (.at .zpX))
  | 0x7e => some (.ror (.at .absX))
  | 0xd0 => some .bne
  | 0x21 => some (.and (.at .indX))
  | 0x25 => some (.and (.at .zp))
  | 0x29 => some (.and .imm)
  | 0x2d => some (.and (.at .abs))
  | 0x31 => some (.and (.at .indY))
  | 0x35 => some (.and (.at .zpX))
  | 0x39 => some (.and (.at .absY))
  | 0x3d => some (.and (.at .absX))
  | 0xe8 => some .inx
  | 0xc8 => some .iny
  | 0x28 => some .plp
  | 0x48 => some .pha
  | 0xc1 => some (.cmp (.at .indX))
  | 0xc5 => some (.cmp (.at .zp))
  | 0xc9 => some (.cmp .imm)
  | 0xcd => some (.cmp (.at .abs))
  | 0xd1 => some (.cmp (.at .indY))
  | 0xd5 => some (.cmp (.at .zpX))
  | 0xd9 => some (.cmp (.at .absY))
  | 0xdd => some (.cmp (.at .absX))
  | 0x98 => some .tya
  | 0x50 => some .bvc
  | 0xe1 => some (.sbc (.at .indX))
  | 0xe5 => some (.sbc (.at .zp))
  | 0xe9 => some (.sbc .imm)
  | 0xed => some (.sbc (.at .abs))
  | 0xf1 => some (.sbc (.at .indY))
  | 0xf5 => some (.sbc (.at .zpX))
  | 0xf9 => some (.sbc (.at .absY))
  | 0xfd => some (.sbc (.at .absX))
  | 0x00 => some .brk
  | 0x68 => some .pla
  | 0x08 => some .php
  | 0xea => some .nop
  | 0xe6 => some (.inc .zp)
  | 0xee => some (.inc .abs)
  | 0xf6 => some (.inc .zpX)
  | 0xfe => some (.inc .absX)
  | 0x01 => some (.ora (.at .indX))
  | 0x05 => some (.ora (.at .zp))
  | 0x09 => some (.ora .imm)
  | 0x0d => some (.ora (.at .abs))
  | 0x11 => some (.ora (.at .indY))
  | 0x15 => some (.ora (.at .zpX))
  | 0x19 => some (.ora (.at .absY))
  | 0x1d => some (.ora (.at .absX))
  | _ => none

/-- What a case does, from the prefetched bytes on. -/
def Case.run (vmSyscall : Byte → Vm M → Vm M) (k : Case) (c : OpCache) (s : Vm M) :
    Vm M :=
  match k with
  | .sys => (vmSyscall s.rA s).next 1
  | .dex => ({ s with rX := s.rX - 1 }.setNZ (s.rX - 1)).next 1
  | .dey => ({ s with rY := s.rY - 1 }.setNZ (s.rY - 1)).next 1
  | .inx => ({ s with rX := s.rX + 1 }.setNZ (s.rX + 1)).next 1
  | .iny => ({ s with rY := s.rY + 1 }.setNZ (s.rY + 1)).next 1
  | .tax => ({ s with rX := s.rA }.setNZ s.rA).next 1
  | .tay => ({ s with rY := s.rA }.setNZ s.rA).next 1
  | .txa => ({ s with rA := s.rX }.setNZ s.rX).next 1
  | .tya => ({ s with rA := s.rY }.setNZ s.rY).next 1
  | .tsx => ({ s with rX := s.rSp }.setNZ s.rSp).next 1
  | .txs => { s with rSp := s.rX }.next 1
  | .bpl => s.branch (testN s.rS == 0#8) c
  | .bmi => s.branch (s.rS &&& sbit Nf != 0#8) c
  | .bvc => s.branch (s.rS &&& sbit Vf == 0#8) c
  | .bvs => s.branch (s.rS &&& sbit Vf != 0#8) c
  | .bcc => s.branch (s.rS &&& sbit Cf == 0#8) c
  | .bcs => s.branch (s.rS &&& sbit Cf != 0#8) c
  | .bne => s.branch (s.rS &&& sbit Zf == 0#8) c
  | .beq => s.branch (s.rS &&& sbit Zf != 0#8) c
  | .sed => { s with rS := s.rS ||| sbit Df }.next 1
  | .cld => { s with rS := s.rS &&& ~~~(sbit Df) }.next 1
  | .sei => { s with rS := s.rS ||| sbit If }.next 1
  | .cli => { s with rS := s.rS &&& ~~~(sbit If) }.next 1
  | .sec => { s with rS := s.rS ||| sbit Cf }.next 1
  | .clc => { s with rS := s.rS &&& ~~~(sbit Cf) }.next 1
  | .clv => { s with rS := s.rS &&& ~~~(sbit Vf) }.next 1
  | .nop => s.next 1
  | .cpx o => let t := o.value c s; (t.2.compare t.2.rX t.1).next o.pt
  | .cpy o => let t := o.value c s; (t.2.compare t.2.rY t.1).next o.pt
  | .cmp o => let t := o.value c s; (t.2.compare t.2.rA t.1).next o.pt
  | .eor o =>
    let t := o.value c s
    ({ t.2 with rA := t.2.rA ^^^ t.1 }.setNZ (t.2.rA ^^^ t.1)).next o.pt
  | .and o =>
    let t := o.value c s
    ({ t.2 with rA := t.2.rA &&& t.1 }.setNZ (t.2.rA &&& t.1)).next o.pt
  | .ora o =>
    let t := o.value c s
    ({ t.2 with rA := t.2.rA ||| t.1 }.setNZ (t.2.rA ||| t.1)).next o.pt
  | .lda o => let t := o.value c s; ({ t.2 with rA := t.1 }.setNZ t.1).next o.pt
  | .ldx o => let t := o.value c s; ({ t.2 with rX := t.1 }.setNZ t.1).next o.pt
  | .ldy o => let t := o.value c s; ({ t.2 with rY := t.1 }.setNZ t.1).next o.pt
  | .adc o => let t := o.value c s; (t.2.adc t.1).next o.pt
  | .sbc o => let t := o.value c s; (t.2.sbc t.1).next o.pt
  | .bit m => let t := (Src.at m).value c s; (t.2.bit t.1).next m.pt
  | .sta m => let a := m.addr c s; (a.2.vmRamWrite a.1 [a.2.rA]).next m.pt
  | .stx m => let a := m.addr c s; (a.2.vmRamWrite a.1 [a.2.rX]).next m.pt
  | .sty m => let a := m.addr c s; (a.2.vmRamWrite a.1 [a.2.rY]).next m.pt
  | .inc m => let t := (Tgt.at m).modify (· + 1) c s; (t.2.setNZ t.1.2).next m.pt
  | .dec m => let t := (Tgt.at m).modify (· - 1) c s; (t.2.setNZ t.1.2).next m.pt
  | .rol o =>
    let t := o.modify (fun t => (t <<< 1 &&& 0xfe) ||| testC s.rS) c s
    (t.2.setNZC t.1.2 (if testN t.1.1 ≠ 0#8 then sbit Cf else 0#8)).next o.pt
  | .ror o =>
    let t := o.modify
      (fun t => (t >>> 1 &&& 0x7f) ||| (if testC s.rS ≠ 0#8 then 0x80#8 else 0#8)) c s
    (t.2.setNZC t.1.2 (testC t.1.1)).next o.pt
  | .asl o =>
    let t := o.modify (fun t => t <<< 1 &&& 0xfe) c s
    (t.2.setNZC t.1.2 (if testN t.1.1 ≠ 0#8 then sbit Cf else 0#8)).next o.pt
  | .lsr o =>
    -- the source leaves `testN(r_t)` out: bit 7 of the result is clear
    let t := o.modify (fun t => t >>> 1 &&& 0x7f) c s
    { t.2 with
      rS := t.2.rS &&& ~~~(sbit Nf ||| sbit Zf ||| sbit Cf) |||
        (testZ t.1.2 ||| testC t.1.1) }.next o.pt
  | .jmp => { s with rPc := addr16 (word c.b1) (word c.b2) }
  | .jmpInd =>
    let r := s.vmRamRead (addr16 (word c.b1) (word c.b2)) 2
    { r.2 with rPc := addr16 (word (at_ r.1 0)) (word (at_ r.1 1)) }
  | .jsr =>
    let addr := s.rPc + 2
    let s := { s with rPc := addr16 (word c.b1) (word c.b2) }
    let s := s.vmRamWrite (addr16 (word s.rSp - 1) 1)
      [addr.setWidth 8, (addr >>> 8).setWidth 8]
    { s with rSp := s.rSp - 2 }
  | .rts =>
    let r := s.vmRamRead (addr16 (word s.rSp + 1) 1) 2
    { r.2 with
      rPc := addr16 (word (at_ r.1 0)) (word (at_ r.1 1)) + 1
      rSp := r.2.rSp + 2 }
  | .rti =>
    let r := s.vmRamRead (addr16 (word s.rSp + 1) 1) 3
    { r.2 with
      rS := at_ r.1 0
      rPc := addr16 (word (at_ r.1 1)) (word (at_ r.1 2))
      rSp := r.2.rSp + 3 }
  | .brk =>
    let s := { s with rPc := s.rPc + 2 }
    let s := s.vmRamWrite (addr16 (word s.rSp - 2) 1)
      [s.rS ||| sbit 5 ||| sbit Bf, s.rPc.setWidth 8, (s.rPc >>> 8).setWidth 8]
    let r := { s with rSp := s.rSp - 3 }.vmRamRead 0xfffe 2
    { r.2 with
      rPc := addr16 (word (at_ r.1 0)) (word (at_ r.1 1))
      rS := r.2.rS ||| sbit If }
  | .pha =>
    let s := s.vmRamWrite (addr16 (word s.rSp) 1) [s.rA]
    { s with rSp := s.rSp - 1 }.next 1
  | .php =>
    let s := s.vmRamWrite (addr16 (word s.rSp) 1) [s.rS ||| sbit 5 ||| sbit Bf]
    { s with rSp := s.rSp - 1 }.next 1
  | .pla =>
    let r := { s with rSp := s.rSp + 1 }.vmRamRead (addr16 (word (s.rSp + 1)) 1) 1
    ({ r.2 with rA := at_ r.1 0 }.setNZ (at_ r.1 0)).next 1
  | .plp =>
    let r := { s with rSp := s.rSp + 1 }.vmRamRead (addr16 (word (s.rSp + 1)) 1) 1
    { r.2 with rS := at_ r.1 0 }.next 1

/-- One instruction; `none` is the default of the `switch`, which returns 0. -/
def vmExec (vmSyscall : Byte → Vm M → Vm M) (s : Vm M) : Option (Vm M) :=
  let f := s.fetch
  (vmSwitch f.1.op).map fun k => k.run vmSyscall f.1 f.2

/-- A run of `while (vm_exec())`: the state before, the states in which the
instructions are executed, and the state after. -/
inductive Run (vmSyscall : Byte → Vm M → Vm M) : Vm M → List (Vm M) → Vm M → Prop
  | nil (s : Vm M) : Run vmSyscall s [] s
  | cons {s t v : Vm M} {us : List (Vm M)} :
      vmExec vmSyscall s = some t → Run vmSyscall t us v → Run vmSyscall s (s :: us) v

end Dan64
