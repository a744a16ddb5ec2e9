/-
Dan64/Mos6502.lean

The documented 6502: mnemonics, addressing modes and the opcode matrix, the
programmer's state, and what one instruction does to it.

The instruction semantics is stated per mnemonic and per mode and never looks
at an opcode: `Mode.addr` is the effective address, `Mode.value` the operand
byte, `exec` the instruction.  Carry and overflow are stated on integers, as
the documentation does, and not by bit tricks.

What the documentation leaves open stays open here.  With the decimal flag
set, `ADC` and `SBC` document the accumulator and the carry for operands that
are valid binary coded decimals and nothing about N, V and Z; `Executes` is
therefore a relation, which agrees with `exec` outside decimal mode.
-/
import Mathlib.Data.BitVec
import Mathlib.Logic.Function.Basic

namespace Mos6502

abbrev Byte := BitVec 8
abbrev Word := BitVec 16

/-! ### Instruction set -/

inductive Mnemonic
  | adc | and | asl | bcc | bcs | beq | bit | bmi | bne | bpl | brk | bvc | bvs
  | clc | cld | cli | clv | cmp | cpx | cpy | dec | dex | dey | eor | inc | inx
  | iny | jmp | jsr | lda | ldx | ldy | lsr | nop | ora | pha | php | pla | plp
  | rol | ror | rti | rts | sbc | sec | sed | sei | sta | stx | sty | tax | tay
  | tsx | txa | txs | tya
  deriving DecidableEq

inductive Mode
  | implied | accumulator | immediate | zeroPage | zeroPageX | zeroPageY
  | absolute | absoluteX | absoluteY | indirect | indexedIndirect
  | indirectIndexed | relative
  deriving DecidableEq

def Mnemonic.all : List Mnemonic :=
  [.adc, .and, .asl, .bcc, .bcs, .beq, .bit, .bmi, .bne, .bpl, .brk, .bvc, .bvs, .clc, .cld,
    .cli, .clv, .cmp, .cpx, .cpy, .dec, .dex, .dey, .eor, .inc, .inx, .iny, .jmp, .jsr, .lda,
    .ldx, .ldy, .lsr, .nop, .ora, .pha, .php, .pla, .plp, .rol, .ror, .rti, .rts, .sbc, .sec,
    .sed, .sei, .sta, .stx, .sty, .tax, .tay, .tsx, .txa, .txs, .tya]

def Mode.all : List Mode :=
  [.implied, .accumulator, .immediate, .zeroPage, .zeroPageX, .zeroPageY, .absolute, .absoluteX,
    .absoluteY, .indirect, .indexedIndirect, .indirectIndexed, .relative]

theorem Mnemonic.mem_all (mn : Mnemonic) : mn ∈ Mnemonic.all := by
  cases mn <;> decide

theorem Mode.mem_all (m : Mode) : m ∈ Mode.all := by
  cases m <;> decide

/-- A decidable property of the instructions is checked one by one. -/
theorem forall_instr {P : Mnemonic → Mode → Prop}
    (h : ∀ mn ∈ Mnemonic.all, ∀ m ∈ Mode.all, P mn m) (mn : Mnemonic) (m : Mode) : P mn m :=
  h mn mn.mem_all m m.mem_all

/-- The documented opcode of a mnemonic in a mode. -/
def opcode : Mnemonic → Mode → Option Byte
  | .adc, .immediate => some 0x69
  | .adc, .zeroPage => some 0x65
  | .adc, .zeroPageX => some 0x75
  | .adc, .absolute => some 0x6d
  | .adc, .absoluteX => some 0x7d
  | .adc, .absoluteY => some 0x79
  | .adc, .indexedIndirect => some 0x61
  | .adc, .indirectIndexed => some 0x71
  | .and, .immediate => some 0x29
  | .and, .zeroPage => some 0x25
  | .and, .zeroPageX => some 0x35
  | .and, .absolute => some 0x2d
  | .and, .absoluteX => some 0x3d
  | .and, .absoluteY => some 0x39
  | .and, .indexedIndirect => some 0x21
  | .and, .indirectIndexed => some 0x31
  | .asl, .accumulator => some 0x0a
  | .asl, .zeroPage => some 0x06
  | .asl, .zeroPageX => some 0x16
  | .asl, .absolute => some 0x0e
  | .asl, .absoluteX => some 0x1e
  | .bcc, .relative => some 0x90
  | .bcs, .relative => some 0xb0
  | .beq, .relative => some 0xf0
  | .bit, .zeroPage => some 0x24
  | .bit, .absolute => some 0x2c
  | .bmi, .relative => some 0x30
  | .bne, .relative => some 0xd0
  | .bpl, .relative => some 0x10
  | .brk, .implied => some 0x00
  | .bvc, .relative => some 0x50
  | .bvs, .relative => some 0x70
  | .clc, .implied => some 0x18
  | .cld, .implied => some 0xd8
  | .cli, .implied => some 0x58
  | .clv, .implied => some 0xb8
  | .cmp, .immediate => some 0xc9
  | .cmp, .zeroPage => some 0xc5
  | .cmp, .zeroPageX => some 0xd5
  | .cmp, .absolute => some 0xcd
  | .cmp, .absoluteX => some 0xdd
  | .cmp, .absoluteY => some 0xd9
  | .cmp, .indexedIndirect => some 0xc1
  | .cmp, .indirectIndexed => some 0xd1
  | .cpx, .immediate => some 0xe0
  | .cpx, .zeroPage => some 0xe4
  | .cpx, .absolute => some 0xec
  | .cpy, .immediate => some 0xc0
  | .cpy, .zeroPage => some 0xc4
  | .cpy, .absolute => some 0xcc
  | .dec, .zeroPage => some 0xc6
  | .dec, .zeroPageX => some 0xd6
  | .dec, .absolute => some 0xce
  | .dec, .absoluteX => some 0xde
  | .dex, .implied => some 0xca
  | .dey, .implied => some 0x88
  | .eor, .immediate => some 0x49
  | .eor, .zeroPage => some 0x45
  | .eor, .zeroPageX => some 0x55
  | .eor, .absolute => some 0x4d
  | .eor, .absoluteX => some 0x5d
  | .eor, .absoluteY => some 0x59
  | .eor, .indexedIndirect => some 0x41
  | .eor, .indirectIndexed => some 0x51
  | .inc, .zeroPage => some 0xe6
  | .inc, .zeroPageX => some 0xf6
  | .inc, .absolute => some 0xee
  | .inc, .absoluteX => some 0xfe
  | .inx, .implied => some 0xe8
  | .iny, .implied => some 0xc8
  | .jmp, .absolute => some 0x4c
  | .jmp, .indirect => some 0x6c
  | .jsr, .absolute => some 0x20
  | .lda, .immediate => some 0xa9
  | .lda, .zeroPage => some 0xa5
  | .lda, .zeroPageX => some 0xb5
  | .lda, .absolute => some 0xad
  | .lda, .absoluteX => some 0xbd
  | .lda, .absoluteY => some 0xb9
  | .lda, .indexedIndirect => some 0xa1
  | .lda, .indirectIndexed => some 0xb1
  | .ldx, .immediate => some 0xa2
  | .ldx, .zeroPage => some 0xa6
  | .ldx, .zeroPageY => some 0xb6
  | .ldx, .absolute => some 0xae
  | .ldx, .absoluteY => some 0xbe
  | .ldy, .immediate => some 0xa0
  | .ldy, .zeroPage => some 0xa4
  | .ldy, .zeroPageX => some 0xb4
  | .ldy, .absolute => some 0xac
  | .ldy, .absoluteX => some 0xbc
  | .lsr, .accumulator => some 0x4a
  | .lsr, .zeroPage => some 0x46
  | .lsr, .zeroPageX => some 0x56
  | .lsr, .absolute => some 0x4e
  | .lsr, .absoluteX => some 0x5e
  | .nop, .implied => some 0xea
  | .ora, .immediate => some 0x09
  | .ora, .zeroPage => some 0x05
  | .ora, .zeroPageX => some 0x15
  | .ora, .absolute => some 0x0d
  | .ora, .absoluteX => some 0x1d
  | .ora, .absoluteY => some 0x19
  | .ora, .indexedIndirect => some 0x01
  | .ora, .indirectIndexed => some 0x11
  | .pha, .implied => some 0x48
  | .php, .implied => some 0x08
  | .pla, .implied => some 0x68
  | .plp, .implied => some 0x28
  | .rol, .accumulator => some 0x2a
  | .rol, .zeroPage => some 0x26
  | .rol, .zeroPageX => some 0x36
  | .rol, .absolute => some 0x2e
  | .rol, .absoluteX => some 0x3e
  | .ror, .accumulator => some 0x6a
  | .ror, .zeroPage => some 0x66
  | .ror, .zeroPageX => some 0x76
  | .ror, .absolute => some 0x6e
  | .ror, .absoluteX => some 0x7e
  | .rti, .implied => some 0x40
  | .rts, .implied => some 0x60
  | .sbc, .immediate => some 0xe9
  | .sbc, .zeroPage => some 0xe5
  | .sbc, .zeroPageX => some 0xf5
  | .sbc, .absolute => some 0xed
  | .sbc, .absoluteX => some 0xfd
  | .sbc, .absoluteY => some 0xf9
  | .sbc, .indexedIndirect => some 0xe1
  | .sbc, .indirectIndexed => some 0xf1
  | .sec, .implied => some 0x38
  | .sed, .implied => some 0xf8
  | .sei, .implied => some 0x78
  | .sta, .zeroPage => some 0x85
  | .sta, .zeroPageX => some 0x95
  | .sta, .absolute => some 0x8d
  | .sta, .absoluteX => some 0x9d
  | .sta, .absoluteY => some 0x99
  | .sta, .indexedIndirect => some 0x81
  | .sta, .indirectIndexed => some 0x91
  | .stx, .zeroPage => some 0x86
  | .stx, .zeroPageY => some 0x96
  | .stx, .absolute => some 0x8e
  | .sty, .zeroPage => some 0x84
  | .sty, .zeroPageX => some 0x94
  | .sty, .absolute => some 0x8c
  | .tax, .implied => some 0xaa
  | .tay, .implied => some 0xa8
  | .tsx, .implied => some 0xba
  | .txa, .implied => some 0x8a
  | .txs, .implied => some 0x9a
  | .tya, .implied => some 0x98
  | _, _ => none

/-- Whether a mnemonic has a mode. -/
def Mnemonic.has (mn : Mnemonic) (m : Mode) : Bool := (opcode mn m).isSome

/-- Bytes of an instruction in a mode, opcode included. -/
def Mode.length : Mode → ℕ
  | .implied | .accumulator => 1
  | .immediate | .zeroPage | .zeroPageX | .zeroPageY => 2
  | .indexedIndirect | .indirectIndexed | .relative => 2
  | .absolute | .absoluteX | .absoluteY | .indirect => 3

/-- The largest operand a mode can encode, plus one. -/
def Mode.range : Mode → ℕ
  | .implied | .accumulator => 1
  | .immediate | .zeroPage | .zeroPageX | .zeroPageY => 2 ^ 8
  | .indexedIndirect | .indirectIndexed | .relative => 2 ^ 8
  | .absolute | .absoluteX | .absoluteY | .indirect => 2 ^ 16

/-! ### State -/

/-- The flags of the status register. -/
@[ext] structure Flags where
  n : Bool
  v : Bool
  d : Bool
  i : Bool
  z : Bool
  c : Bool
  deriving DecidableEq

/-- The programmer's state. -/
@[ext] structure State where
  a : Byte
  x : Byte
  y : Byte
  sp : Byte
  pc : Word
  flags : Flags
  mem : Word → Byte

/-- The flags held in a status byte. -/
def Flags.ofByte (p : Byte) : Flags where
  n := p.getLsbD 7
  v := p.getLsbD 6
  d := p.getLsbD 3
  i := p.getLsbD 2
  z := p.getLsbD 1
  c := p.getLsbD 0

/-- The status byte that `PHP` and `BRK` push: bits 4 and 5 are set. -/
def Flags.toByte (f : Flags) : Byte :=
  BitVec.ofBoolListBE [f.n, f.v, true, true, f.d, f.i, f.z, f.c]

@[simp] theorem Flags.ofByte_toByte (f : Flags) : Flags.ofByte f.toByte = f := by
  rcases f with ⟨⟨⟩, ⟨⟩, ⟨⟩, ⟨⟩, ⟨⟩, ⟨⟩⟩ <;> rfl

theorem Flags.toByte_ofByte (p : Byte) : (Flags.ofByte p).toByte = p ||| 0x30 := by
  revert p
  decide +kernel

/-- Set N and Z from a result byte. -/
def State.setNZ (b : Byte) (s : State) : State :=
  { s with flags := { s.flags with n := b.msb, z := b == 0 } }

/-- The word stored low byte first at two addresses. -/
def wordAt (mem : Word → Byte) (lo hi : Word) : Word := mem hi ++ mem lo

/-! ### Operands -/

/-- The operand encoded after the opcode. -/
def State.operand (m : Mode) (s : State) : Word :=
  match m.length with
  | 2 => (s.mem (s.pc + 1)).setWidth 16
  | 3 => wordAt s.mem (s.pc + 1) (s.pc + 2)
  | _ => 0

/-- The effective address of an operand.  Zero-page indexing and the fetch of
a zero-page pointer stay within page zero.  The pointer of an indirect jump is
two consecutive bytes; the early 6502's deviation for pointers that end in
`$ff` is not part of it. -/
def Mode.addr (m : Mode) (v : Word) (s : State) : Word :=
  let zp (p : Byte) : Word := p.setWidth 16
  let b : Byte := v.setWidth 8
  match m with
  | .zeroPage => zp b
  | .zeroPageX => zp (b + s.x)
  | .zeroPageY => zp (b + s.y)
  | .absolute => v
  | .absoluteX => v + s.x.setWidth 16
  | .absoluteY => v + s.y.setWidth 16
  | .indirect => wordAt s.mem v (v + 1)
  | .indexedIndirect => wordAt s.mem (zp (b + s.x)) (zp (b + s.x + 1))
  | .indirectIndexed => wordAt s.mem (zp b) (zp (b + 1)) + s.y.setWidth 16
  | .implied | .accumulator | .immediate | .relative => 0

/-- The operand byte. -/
def Mode.value (m : Mode) (v : Word) (s : State) : Byte :=
  match m with
  | .accumulator => s.a
  | .immediate => v.setWidth 8
  | _ => s.mem (m.addr v s)

/-- Store a result where the operand came from. -/
def Mode.store (m : Mode) (v : Word) (b : Byte) (s : State) : State :=
  match m with
  | .accumulator => { s with a := b }
  | _ => { s with mem := Function.update s.mem (m.addr v s) b }

/-- The zero-page pointer an indirect mode goes through. -/
def Mode.pointer (m : Mode) (v : Word) (s : State) : Option Byte :=
  match m with
  | .indexedIndirect => some (v.setWidth 8 + s.x)
  | .indirectIndexed => some (v.setWidth 8)
  | _ => none

/-! ### The stack -/

/-- The stack is page one. -/
def stackAddr (sp : Byte) : Word := 0x01#8 ++ sp

def State.push (b : Byte) (s : State) : State :=
  { s with mem := Function.update s.mem (stackAddr s.sp) b, sp := s.sp - 1 }

/-- The byte `k` pulls away. -/
def State.peek (k : Byte) (s : State) : Byte := s.mem (stackAddr (s.sp + k))

def State.pull (k : Byte) (s : State) : State := { s with sp := s.sp + k }

/-- Push a word, high byte first. -/
def State.pushWord (w : Word) (s : State) : State :=
  (s.push (w.extractLsb' 8 8)).push (w.setWidth 8)

/-! ### Arithmetic -/

/-- Binary addition with carry. -/
def State.addBinary (m : Byte) (s : State) : State :=
  let sum := s.a.toNat + m.toNat + s.flags.c.toNat
  let signed := s.a.toInt + m.toInt + s.flags.c.toNat
  let r := BitVec.ofNat 8 sum
  ({ s with
    a := r
    flags := { s.flags with
      v := decide (signed < -128 ∨ 127 < signed)
      c := decide (256 ≤ sum) } }).setNZ r

/-- Binary subtraction; a clear carry is a borrow. -/
def State.subBinary (m : Byte) (s : State) : State :=
  let borrow := (!s.flags.c).toNat
  let diff := (s.a.toNat : ℤ) - m.toNat - borrow
  let signed := s.a.toInt - m.toInt - borrow
  let r := BitVec.ofInt 8 diff
  ({ s with
    a := r
    flags := { s.flags with
      v := decide (signed < -128 ∨ 127 < signed)
      c := decide (0 ≤ diff) } }).setNZ r

/-- Both nibbles are decimal digits. -/
def Bcd (b : Byte) : Prop := b.toNat % 16 ≤ 9 ∧ b.toNat / 16 ≤ 9

instance (b : Byte) : Decidable (Bcd b) := inferInstanceAs (Decidable (_ ∧ _))

/-- The number two decimal digits denote. -/
def bcdVal (b : Byte) : ℕ := 10 * (b.toNat / 16) + b.toNat % 16

/-- Compare a register with the operand. -/
def State.compare (r m : Byte) (s : State) : State :=
  ({ s with flags := { s.flags with c := decide (m.toNat ≤ r.toNat) } }).setNZ (r - m)

/-! ### Instructions -/

/-- The condition of a branch. -/
def Mnemonic.taken (mn : Mnemonic) (f : Flags) : Bool :=
  match mn with
  | .bcc => !f.c
  | .bcs => f.c
  | .bne => !f.z
  | .beq => f.z
  | .bpl => !f.n
  | .bmi => f.n
  | .bvc => !f.v
  | .bvs => f.v
  | _ => false

/-- Shifts and rotates: the result and the bit shifted out. -/
def Mnemonic.shift (mn : Mnemonic) (c : Bool) (b : Byte) : Byte × Bool :=
  match mn with
  | .asl => (b <<< 1, b.msb)
  | .lsr => (b >>> 1, b.getLsbD 0)
  | .rol => (b <<< 1 ||| (BitVec.ofBool c).setWidth 8, b.msb)
  | .ror => (b >>> 1 ||| (BitVec.ofBool c).setWidth 8 <<< 7, b.getLsbD 0)
  | _ => (b, c)

/-- One instruction, outside decimal mode: the mnemonic, the mode and the
operand it was written with, from the state before. -/
def exec (mn : Mnemonic) (m : Mode) (v : Word) (s₀ : State) : State :=
  let b := m.value v s₀
  let s := { s₀ with pc := s₀.pc + BitVec.ofNat 16 m.length }
  let shifted := mn.shift s.flags.c b
  match mn with
  | .lda => ({ s with a := b }).setNZ b
  | .ldx => ({ s with x := b }).setNZ b
  | .ldy => ({ s with y := b }).setNZ b
  | .sta => m.store v s.a s
  | .stx => m.store v s.x s
  | .sty => m.store v s.y s
  | .tax => ({ s with x := s.a }).setNZ s.a
  | .tay => ({ s with y := s.a }).setNZ s.a
  | .txa => ({ s with a := s.x }).setNZ s.x
  | .tya => ({ s with a := s.y }).setNZ s.y
  | .tsx => ({ s with x := s.sp }).setNZ s.sp
  | .txs => { s with sp := s.x }
  | .adc => s.addBinary b
  | .sbc => s.subBinary b
  | .and => ({ s with a := s.a &&& b }).setNZ (s.a &&& b)
  | .ora => ({ s with a := s.a ||| b }).setNZ (s.a ||| b)
  | .eor => ({ s with a := s.a ^^^ b }).setNZ (s.a ^^^ b)
  | .cmp => s.compare s.a b
  | .cpx => s.compare s.x b
  | .cpy => s.compare s.y b
  | .bit =>
    { s with flags := { s.flags with
        n := b.getLsbD 7, v := b.getLsbD 6, z := s.a &&& b == 0 } }
  | .inc => (m.store v (b + 1) s).setNZ (b + 1)
  | .dec => (m.store v (b - 1) s).setNZ (b - 1)
  | .inx => ({ s with x := s.x + 1 }).setNZ (s.x + 1)
  | .iny => ({ s with y := s.y + 1 }).setNZ (s.y + 1)
  | .dex => ({ s with x := s.x - 1 }).setNZ (s.x - 1)
  | .dey => ({ s with y := s.y - 1 }).setNZ (s.y - 1)
  | .asl | .lsr | .rol | .ror =>
    let s := (m.store v shifted.1 s).setNZ shifted.1
    { s with flags := { s.flags with c := shifted.2 } }
  | .bcc | .bcs | .beq | .bmi | .bne | .bpl | .bvc | .bvs =>
    if mn.taken s.flags then { s with pc := s.pc + (v.setWidth 8).signExtend 16 } else s
  | .clc => { s with flags := { s.flags with c := false } }
  | .sec => { s with flags := { s.flags with c := true } }
  | .cld => { s with flags := { s.flags with d := false } }
  | .sed => { s with flags := { s.flags with d := true } }
  | .cli => { s with flags := { s.flags with i := false } }
  | .sei => { s with flags := { s.flags with i := true } }
  | .clv => { s with flags := { s.flags with v := false } }
  | .nop => s
  | .jmp => { s with pc := m.addr v s }
  | .jsr => { s.pushWord (s.pc - 1) with pc := v }
  | .rts => { s.pull 2 with pc := (s.peek 2 ++ s.peek 1) + 1 }
  | .pha => s.push s.a
  | .php => s.push s.flags.toByte
  | .pla => ({ s.pull 1 with a := s.peek 1 }).setNZ (s.peek 1)
  | .plp => { s.pull 1 with flags := .ofByte (s.peek 1) }
  | .brk =>
    let s := (s.pushWord (s.pc + 1)).push s.flags.toByte
    { s with flags := { s.flags with i := true }, pc := wordAt s.mem 0xfffe 0xffff }
  | .rti =>
    { s.pull 3 with flags := .ofByte (s.peek 1), pc := s.peek 3 ++ s.peek 2 }

/-- The documented outcome of decimal `ADC` and `SBC`: accumulator and carry,
for decimal operands. -/
def DecimalResult (mn : Mnemonic) (s : State) (b a : Byte) (c : Bool) : Prop :=
  Bcd s.a → Bcd b → Bcd a ∧
    match mn with
    | .adc => (bcdVal a : ℤ) + 100 * c.toNat = bcdVal s.a + bcdVal b + s.flags.c.toNat
    | _ => (bcdVal a : ℤ) - 100 * (!c).toNat = bcdVal s.a - bcdVal b - (!s.flags.c).toNat

/-- **The documented instruction**, as a relation between the states before
and after. -/
def Executes (mn : Mnemonic) (m : Mode) (v : Word) (s t : State) : Prop :=
  if s.flags.d ∧ (mn = .adc ∨ mn = .sbc) then
    ∃ a f, t = { s with a := a, flags := f, pc := s.pc + BitVec.ofNat 16 m.length } ∧
      f.d = s.flags.d ∧ f.i = s.flags.i ∧ DecimalResult mn s (m.value v s) a f.c
  else t = exec mn m v s

end Mos6502
