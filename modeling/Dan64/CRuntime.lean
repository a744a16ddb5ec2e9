/-
Dan64/CRuntime.lean

The system interface of C programs, `cc65/lib/system.s`, against the decoders of
`vm_syscall`.

A wrapper pushes its arguments, executes `SYS` and takes them from the stack again.
A `Frame` is what it has pushed, as a list, with the registers that it pushes from;
running the wrapper on frames is a computation, and the machine follows it as long
as there is room (`toSys_tracks`).  What a decoder reads is then the list, last byte
first (`Stacked.read`), and the `inx` of the macro count the list (`atRts_cleanup`).

Fifteen of the sixteen wrappers agree with their decoder.  `_sys_save` uses a macro
that pushes one byte of the size, and the decoder reads two (`wrapper_agrees_iff`).
-/
import Dan64.VmNesting

namespace Dan64

open BlockMem

namespace CRuntime

/-! ### The wrappers -/

/-- The instructions of the wrappers; `popa` and `popax` are called. -/
inductive Insn
  | pha
  | txa
  | tsx
  | inx
  | txs
  | lda (n : Byte)
  | ldx (n : Byte)
  | sys
  | jsrPopa
  | jsrPopax
  | rts
  /-- `jmp *` -/
  | jmpSelf

/-- The macro `sys`. -/
def sys (func : Byte) : List Insn := [.lda func, .sys]

/-- The macro `sys_1`. -/
def sys1 (func : Byte) : List Insn := [.pha] ++ sys func ++ [.tsx, .inx, .txs]

/-- The macro `sys_2`. -/
def sys2 (func : Byte) : List Insn :=
  [.pha, .jsrPopa, .pha] ++ sys func ++ [.tsx, .inx, .inx, .txs]

/-- The macro `sys_pt`. -/
def sysPt (func : Byte) : List Insn :=
  [.pha, .txa, .pha] ++ sys func ++ [.tsx, .inx, .inx, .txs]

/-- The macro `sys_pt_1`. -/
def sysPt1 (func : Byte) : List Insn :=
  [.pha, .jsrPopax, .pha, .txa, .pha] ++ sys func ++ [.tsx, .inx, .inx, .inx, .txs]

/-- The macro `sys_1_pt_pt`. -/
def sys1PtPt (func : Byte) : List Insn :=
  [.pha, .txa, .pha, .jsrPopax, .pha, .txa, .pha, .jsrPopax, .pha, .txa, .pha] ++ sys func ++
    [.tsx, .inx, .inx, .inx, .inx, .inx, .inx, .txs]

/-- The procedures of `system.s` that issue `SYS`; `_clrscr` is a jump to `_fillscr`. -/
inductive Wrapper
  | sysExit | sysLoad | sysSave | putch | cputs | gotoxy | fillscr | write | getch | cgets
  | read | putt | rand | waitVsync | srand | sysVer
  deriving DecidableEq

namespace Wrapper

/-- The number in `A` when `SYS` is executed. -/
def func : Wrapper → Byte
  | sysExit => 0x00
  | sysLoad => 0x01
  | sysSave => 0x02
  | putch => 0x10
  | cputs => 0x11
  | gotoxy => 0x12
  | fillscr => 0x13
  | write => 0x14
  | getch => 0x20
  | cgets => 0x21
  | read => 0x22
  | putt => 0x30
  | rand => 0xa0
  | waitVsync => 0xa1
  | srand => 0xa2
  | sysVer => 0xf0

/-- The bodies, from `system.s`. -/
def code : Wrapper → List Insn
  | sysExit => [.pha] ++ sys 0x00 ++ [.jmpSelf]
  | sysLoad => sysPt 0x01 ++ [.rts]
  | sysSave => sysPt1 0x02 ++ [.rts]
  | putch => sys1 0x10 ++ [.rts]
  | cputs => sysPt 0x11 ++ [.rts]
  | gotoxy => sys2 0x12 ++ [.rts]
  | fillscr => sys1 0x13 ++ [.rts]
  | write => sys1PtPt 0x14 ++ [.ldx 0x00, .rts]
  | getch => sys 0x20 ++ [.rts]
  | cgets => sysPt1 0x21 ++ [.rts]
  | read => sys1PtPt 0x22 ++ [.ldx 0x00, .rts]
  | putt => sysPt 0x30 ++ [.rts]
  | rand => sys 0xa0 ++ [.rts]
  | waitVsync => sys 0xa1 ++ [.rts]
  | srand => sysPt 0xa2 ++ [.rts]
  | sysVer => sys 0xf0 ++ [.rts]

end Wrapper

/-! ### Arguments -/

/-- An argument of a C function. -/
inductive CArg
  | byte (v : Byte)
  | word (v : Word)
  deriving DecidableEq

inductive Kind
  | byte
  | word
  deriving DecidableEq

def CArg.kind : CArg → Kind
  | .byte _ => .byte
  | .word _ => .word

/-- The declarations of `d64.h`, and those of `write` and `read`. -/
def Wrapper.signature : Wrapper → List Kind
  | sysExit => [.byte]
  | sysLoad => [.word]
  | sysSave => [.word, .word]
  | putch => [.byte]
  | cputs => [.word]
  | gotoxy => [.byte, .byte]
  | fillscr => [.byte]
  | write => [.word, .word, .word]
  | getch => []
  | cgets => [.word, .byte]
  | read => [.word, .word, .word]
  | putt => [.word]
  | rand => []
  | waitVsync => []
  | srand => [.word]
  | sysVer => []

/-- The parameters that `vm_syscall` decodes. -/
def sysParams (func : Byte) (s : FlatVm) : List CArg :=
  let v (n i : ℕ) : Byte := at_ (readBlock s.ram (addr16 (word s.rSp + 1) 1) n) i
  match func with
  | 0x00 | 0x10 | 0x13 => [.byte (v 1 0)]
  | 0x01 | 0x11 | 0x30 | 0xa2 => [.word (addr16 (word (v 2 1)) (word (v 2 0)))]
  | 0x02 =>
    [.word (addr16 (word (v 4 1)) (word (v 4 0))), .word (addr16 (word (v 4 3)) (word (v 4 2)))]
  | 0x12 => [.byte (v 2 0), .byte (v 2 1)]
  | 0x14 | 0x22 =>
    [.word (addr16 (word (v 6 1)) (word (v 6 0))), .word (addr16 (word (v 6 3)) (word (v 6 2))),
      .word (addr16 (word (v 6 5)) (word (v 6 4)))]
  | 0x21 => [.word (addr16 (word (v 3 1)) (word (v 3 0))), .byte (v 3 2)]
  | _ => []

/-- `vm_syscall`: the call is handled with the parameters decoded for it.  Of the
registers the handlers assign `r_a` only, and they may write the memory. -/
def vmSyscall (handle : Byte → List CArg → FlatVm → Byte × (Word → Byte)) (func : Byte)
    (s : FlatVm) : FlatVm :=
  let r := handle func (sysParams func s) s
  { s with rA := r.1, ram := r.2 }

/-! ### Running a wrapper -/

/-- What a subroutine may do with room for its return address: change what is on the
stack below, and nothing above. -/
structure Balanced (s s' : FlatVm) : Prop where
  rSp : s'.rSp = s.rSp
  above : ∀ a : Word, 256 + s.rSp.toNat < a.toNat → s'.ram a = s.ram a

/-- `popa` and `popax` of the runtime library, called with the next argument on the C
stack: they return it in `A` or in `A` and `X`. -/
structure Pop where
  popa : Byte → FlatVm → FlatVm
  popax : Word → FlatVm → FlatVm
  popa_rA : ∀ v s, (popa v s).rA = v
  popa_balanced : ∀ v s, 1 ≤ s.rSp.toNat → Balanced s (popa v s)
  popax_rA : ∀ v s, (popax v s).rA = v.setWidth 8
  popax_rX : ∀ v s, (popax v s).rX = (v >>> 8).setWidth 8
  popax_balanced : ∀ v s, 1 ≤ s.rSp.toNat → Balanced s (popax v s)

/-- The machine, and the arguments on the C stack, the next one first. -/
structure Call where
  vm : FlatVm
  args : List CArg

variable (pop : Pop) (vmSys : Byte → FlatVm → FlatVm)

/-- An instruction that goes on to the next one. -/
def step (i : Insn) (c : Call) : Option Call :=
  let plain (k : Case) (cache : OpCache) : Option Call :=
    some { c with vm := k.run vmSys cache c.vm }
  match i, c.args with
  | .pha, _ => plain .pha ⟨0x48, 0, 0⟩
  | .txa, _ => plain .txa ⟨0x8a, 0, 0⟩
  | .tsx, _ => plain .tsx ⟨0xba, 0, 0⟩
  | .inx, _ => plain .inx ⟨0xe8, 0, 0⟩
  | .txs, _ => plain .txs ⟨0x9a, 0, 0⟩
  | .lda n, _ => plain (.lda .imm) ⟨0xa9, n, 0⟩
  | .ldx n, _ => plain (.ldx .imm) ⟨0xa2, n, 0⟩
  | .sys, _ => plain .sys ⟨0x02, 0, 0⟩
  | .jsrPopa, .byte v :: args => some ⟨pop.popa v c.vm, args⟩
  | .jsrPopax, .word v :: args => some ⟨pop.popax v c.vm, args⟩
  | _, _ => none

/-- To the first `SYS`: the state in which it is executed, and the rest of the body. -/
def toSys : List Insn → Call → Option (Call × List Insn)
  | [], _ => none
  | .sys :: is, c => some (c, is)
  | i :: is, c => (step pop vmSys i c).bind (toSys is)

/-- To the first `RTS`: the state in which it is executed. -/
def atRts : List Insn → Call → Option FlatVm
  | [], _ => none
  | .rts :: _, c => some c.vm
  | i :: is, c => (step pop vmSys i c).bind (atRts is)

/-- A `__fastcall__` function gets its last argument in `A`, or in `A` and `X`, and the
others on the C stack. -/
def Passed (args : List CArg) (c : Call) : Prop :=
  match args.reverse with
  | [] => c.args = []
  | .byte v :: rest => c.vm.rA = v ∧ c.args = rest
  | .word v :: rest => c.vm.rA = v.setWidth 8 ∧ c.vm.rX = (v >>> 8).setWidth 8 ∧ c.args = rest

/-- How many bytes of the stack a wrapper uses at most, with the return address of
`popa` and `popax`. -/
def Wrapper.room : Wrapper → ℕ
  | getch | rand | waitVsync | sysVer => 0
  | sysExit | putch | fillscr => 1
  | sysLoad | cputs | putt | srand => 2
  | gotoxy | sysSave | cgets => 3
  | write | read => 6

/-- **A wrapper and its decoder agree**: `SYS` is executed with the number of the call,
what `vm_syscall` decodes are the arguments, and the wrapper returns with the result of
the handler in `A` and with the stack pointer it was entered with.  `_sys_exit` does
not return. -/
def Agrees (handle : Byte → List CArg → FlatVm → Byte × (Word → Byte)) (w : Wrapper)
    (args : List CArg) (c : Call) : Prop :=
  ∃ d rest, toSys pop (vmSyscall handle) w.code c = some (d, rest) ∧ d.vm.rA = w.func ∧
    sysParams w.func d.vm = args ∧
    (w ≠ .sysExit → ∃ c' t, step pop (vmSyscall handle) .sys d = some c' ∧
      atRts pop (vmSyscall handle) rest c' = some t ∧ t.rSp = c.vm.rSp ∧
      t.rA = (handle w.func args d.vm).1)

/-! ### The block on top of the stack -/

/-- `bs` is on top of the stack of `v`, the last byte pushed first, and what was above
`r_sp` in `s` is still there. -/
structure Stacked (s v : FlatVm) (bs : List Byte) : Prop where
  rSp : v.rSp = s.rSp - BitVec.ofNat 8 bs.length
  block : readBlock v.ram (slot (s.rSp.toNat + 1 - bs.length)) bs.length = bs
  above : ∀ a : Word, 256 + s.rSp.toNat < a.toNat → v.ram a = s.ram a

theorem Stacked.nil (s : FlatVm) : Stacked s s [] := ⟨by simp, rfl, fun _ _ => rfl⟩

/-- Only `r_sp` and the memory matter. -/
theorem Stacked.congr {s v v' : FlatVm} {bs : List Byte} (h : Stacked s v bs)
    (hsp : v'.rSp = v.rSp) (hram : v'.ram = v.ram) : Stacked s v' bs where
  rSp := hsp.trans h.rSp
  block := hram ▸ h.block
  above := hram ▸ h.above

theorem Stacked.toNat_rSp {s v : FlatVm} {bs : List Byte} (h : Stacked s v bs)
    (hroom : bs.length ≤ s.rSp.toNat) : v.rSp.toNat = s.rSp.toNat - bs.length := by
  rw [h.rSp, toNat_below _ (by omega), if_pos hroom]

/-- A push puts `A` in front. -/
theorem Stacked.push {s v : FlatVm} {bs : List Byte} (h : Stacked s v bs)
    (hroom : bs.length + 1 ≤ s.rSp.toNat + 1) (cache : OpCache) :
    Stacked s (Case.pha.run vmSys cache v) (v.rA :: bs) := by
  have hsp := h.toNat_rSp (Nat.le_of_succ_le_succ hroom)
  have hlt := s.rSp.isLt
  have hram : (Case.pha.run vmSys cache v).ram
      = writeBlock v.ram (slot (s.rSp.toNat - bs.length)) [v.rA] := by
    rw [← hsp]
    exact congrArg (writeBlock v.ram · [v.rA]) (push_slot v.rSp).1
  -- the cells above the one that is written
  have hframe : ∀ a : Word, 256 + (s.rSp.toNat - bs.length) < a.toNat →
      (Case.pha.run vmSys cache v).ram a = v.ram a := by
    intro a ha
    rw [hram]
    apply Function.update_of_ne
    rintro rfl
    rw [toNat_slot (by omega)] at ha
    exact Nat.lt_irrefl _ ha
  refine ⟨?_, ?_, ?_⟩
  · show v.rSp - 1 = _
    rw [h.rSp, List.length_cons, BitVec.ofNat_add, sub_add_eq_sub_sub]
    rfl
  · have hslot : slot (s.rSp.toNat - bs.length) + 1 = slot (s.rSp.toNat + 1 - bs.length) := by
      rw [Nat.sub_add_comm (Nat.le_of_succ_le_succ hroom)]
      exact slot_add _ 1
    rw [List.length_cons, Nat.add_sub_add_right, readBlock_succ, hslot]
    congr 1
    · rw [hram]
      exact Function.update_self _ _ _
    · refine Eq.trans ?_ h.block
      rw [readBlock_eq_iff]
      intro k hk
      apply hframe
      rw [slot_add, toNat_slot (by omega)]
      omega
  · intro a ha
    rw [hframe a (by omega), h.above a ha]

/-- A subroutine leaves the block alone. -/
theorem Stacked.balanced {s v v' : FlatVm} {bs : List Byte} (h : Stacked s v bs)
    (hroom : bs.length ≤ s.rSp.toNat) (hbal : Balanced v v') : Stacked s v' bs := by
  have hsp := h.toNat_rSp hroom
  have hlt := s.rSp.isLt
  refine ⟨hbal.rSp.trans h.rSp, ?_, ?_⟩
  · refine Eq.trans ?_ h.block
    rw [readBlock_eq_iff]
    intro k hk
    apply hbal.above
    rw [slot_add, toNat_slot (by omega)]
    omega
  · intro a ha
    rw [hbal.above a (by omega), h.above a ha]

/-- The address that the decoders read from, for a stack with `n` bytes on it. -/
theorem read_slot (sp : Byte) {n : ℕ} (hpos : 1 ≤ n) (hn : n ≤ sp.toNat + 1) :
    addr16 (word (sp - BitVec.ofNat 8 n) + 1) 1 = slot (sp.toNat + 1 - n) := by
  have haddr : ∀ v : Byte, addr16 (word v + 1) 1 = Mos6502.stackAddr (v + 1) := addr16_pull
  have hlt := sp.isLt
  rw [haddr]
  apply BitVec.eq_of_toNat_eq
  rw [toNat_stackAddr, toNat_slot (by omega), BitVec.toNat_add, toNat_below sp hn]
  split
  · show 256 + (_ + 1) % 256 = _
    omega
  · show 256 + (255 + 1) % 256 = _
    omega

/-- A decoder reads the block, and what is above it. -/
theorem Stacked.read {s v : FlatVm} {bs : List Byte} (h : Stacked s v bs) (hpos : 1 ≤ bs.length)
    (hroom : bs.length ≤ s.rSp.toNat + 1) :
    readBlock v.ram (addr16 (word v.rSp + 1) 1) bs.length = bs := by
  rw [h.rSp, read_slot _ hpos hroom]
  exact h.block

theorem Stacked.read_succ {s v : FlatVm} {bs : List Byte} (h : Stacked s v bs)
    (hpos : 1 ≤ bs.length) (hroom : bs.length ≤ s.rSp.toNat + 1) :
    readBlock v.ram (addr16 (word v.rSp + 1) 1) (bs.length + 1)
      = bs ++ [s.ram (slot (s.rSp.toNat + 1))] := by
  have hlt := s.rSp.isLt
  rw [readBlock_add, h.read hpos hroom, h.rSp, read_slot _ hpos hroom, slot_add,
    Nat.sub_add_cancel hroom, readBlock_succ, readBlock_zero, h.above]
  rw [slot]
  bv_omega

/-! ### Frames -/

/-- What is known of a wrapper before `SYS`. -/
structure Frame where
  rA : Byte
  /-- `none` behind `popa` -/
  rX : Option Byte
  pushed : List Byte
  args : List CArg

/-- An instruction before `SYS`, with room for `n` bytes. -/
def Frame.step (n : ℕ) : Insn → Frame → Option Frame
  | .pha, f => if f.pushed.length + 1 ≤ n then some { f with pushed := f.rA :: f.pushed } else none
  | .txa, f => f.rX.map fun x => { f with rA := x }
  | .lda v, f => some { f with rA := v }
  | .jsrPopa, ⟨_, _, bs, .byte v :: args⟩ =>
    if bs.length + 2 ≤ n then some ⟨v, none, bs, args⟩ else none
  | .jsrPopax, ⟨_, _, bs, .word v :: args⟩ =>
    if bs.length + 2 ≤ n then some ⟨v.setWidth 8, some ((v >>> 8).setWidth 8), bs, args⟩ else none
  | _, _ => none

def Frame.toSys (n : ℕ) : List Insn → Frame → Option (Frame × List Insn)
  | [], _ => none
  | .sys :: is, f => some (f, is)
  | i :: is, f => (Frame.step n i f).bind (Frame.toSys n is)

/-- The machine is as the frame says. -/
structure Tracks (s : FlatVm) (f : Frame) (c : Call) : Prop where
  rA : c.vm.rA = f.rA
  rX : ∀ x ∈ f.rX, c.vm.rX = x
  args : c.args = f.args
  stacked : Stacked s c.vm f.pushed

/-- One instruction. -/
theorem step_tracks {n : ℕ} {i : Insn} {s : FlatVm} {f f' : Frame} {c : Call}
    (hroom : n ≤ s.rSp.toNat + 1) (h : Tracks s f c) (hstep : Frame.step n i f = some f') :
    ∃ c', step pop vmSys i c = some c' ∧ Tracks s f' c' := by
  obtain ⟨a, x, bs, args⟩ := f
  obtain ⟨vm, cargs⟩ := c
  obtain ⟨hA, hX, hargs, hst⟩ := h
  obtain rfl : cargs = args := hargs
  replace hst : Stacked s vm bs := hst
  cases i
  case pha =>
    simp only [Frame.step, Option.ite_none_right_eq_some, Option.some.injEq] at hstep
    obtain ⟨hle, rfl⟩ := hstep
    refine ⟨_, rfl, hA, hX, rfl, ?_⟩
    -- what is pushed is what the frame says is in `A`
    have hpush := hst.push vmSys (hle.trans hroom) ⟨0x48, 0, 0⟩
    rw [show vm.rA = a from hA] at hpush
    exact hpush
  case txa =>
    obtain ⟨x', hx', rfl⟩ := Option.map_eq_some_iff.mp hstep
    exact ⟨_, rfl, hX x' hx', hX, rfl, hst.congr rfl rfl⟩
  case lda v =>
    obtain rfl := Option.some.inj hstep
    exact ⟨_, rfl, rfl, hX, rfl, hst.congr rfl rfl⟩
  case jsrPopa =>
    rcases cargs with - | ⟨v | v, rest⟩
    · cases hstep
    · simp only [Frame.step, Option.ite_none_right_eq_some, Option.some.injEq] at hstep
      obtain ⟨hle, rfl⟩ := hstep
      -- the room includes the return address
      have hbs : bs.length + 1 ≤ s.rSp.toNat := Nat.le_of_succ_le_succ (hle.trans hroom)
      have hsp := hst.toNat_rSp (Nat.le_of_succ_le hbs)
      exact ⟨_, rfl, pop.popa_rA v vm, nofun, rfl,
        hst.balanced (Nat.le_of_succ_le hbs) (pop.popa_balanced v vm (by omega))⟩
    · cases hstep
  case jsrPopax =>
    rcases cargs with - | ⟨v | v, rest⟩
    · cases hstep
    · cases hstep
    · simp only [Frame.step, Option.ite_none_right_eq_some, Option.some.injEq] at hstep
      obtain ⟨hle, rfl⟩ := hstep
      have hbs : bs.length + 1 ≤ s.rSp.toNat := Nat.le_of_succ_le_succ (hle.trans hroom)
      have hsp := hst.toNat_rSp (Nat.le_of_succ_le hbs)
      refine ⟨_, rfl, pop.popax_rA v vm, ?_, rfl,
        hst.balanced (Nat.le_of_succ_le hbs) (pop.popax_balanced v vm (by omega))⟩
      rintro x ⟨⟩
      exact pop.popax_rX v vm
  all_goals cases hstep

/-- **The machine follows the frames to `SYS`.** -/
theorem toSys_tracks {n : ℕ} {s : FlatVm} (hroom : n ≤ s.rSp.toNat + 1) {is rest : List Insn}
    {f f' : Frame} {c : Call} (h : Tracks s f c) (hrun : Frame.toSys n is f = some (f', rest)) :
    ∃ d, toSys pop vmSys is c = some (d, rest) ∧ Tracks s f' d := by
  induction is generalizing f c with
  | nil => cases hrun
  | cons i is ih =>
    by_cases hsys : i = .sys
    · obtain rfl := hsys
      obtain ⟨rfl, rfl⟩ := Prod.mk.inj (Option.some.inj hrun)
      exact ⟨c, rfl, h⟩
    · -- any other instruction is a step on both sides
      rw [Frame.toSys] at hrun
      · obtain ⟨f₁, hstep, hrun⟩ := Option.bind_eq_some_iff.mp hrun
        obtain ⟨c₁, hstep', h₁⟩ := step_tracks pop vmSys hroom h hstep
        obtain ⟨d, hd, hd'⟩ := ih h₁ hrun
        refine ⟨d, ?_, hd'⟩
        rw [toSys]
        · rw [hstep']
          exact hd
        · exact hsys
      · exact hsys

/-! ### Behind `SYS` -/

theorem atRts_inx (n : ℕ) (is : List Insn) (c : Call) :
    ∃ c', atRts pop vmSys (List.replicate n .inx ++ is) c = atRts pop vmSys is c' ∧
      c'.vm.rX = c.vm.rX + BitVec.ofNat 8 n ∧ c'.vm.rA = c.vm.rA := by
  induction n generalizing c with
  | zero => exact ⟨c, rfl, by simp, rfl⟩
  | succ n ih =>
    obtain ⟨c', hrun, hX, hA⟩ := ih ⟨Case.inx.run vmSys ⟨0xe8, 0, 0⟩ c.vm, c.args⟩
    refine ⟨c', hrun, ?_, hA⟩
    rw [hX, Nat.add_comm n 1, BitVec.ofNat_add, ← BitVec.add_assoc]
    rfl

/-- A macro takes from the stack what it counts with `inx`, whether or not the
procedure sets `X` behind it. -/
theorem atRts_cleanup (n : ℕ) {is : List Insn} (his : is = [.rts] ∨ is = [.ldx 0x00, .rts])
    (c : Call) :
    ∃ t, atRts pop vmSys (.tsx :: (List.replicate n .inx ++ .txs :: is)) c = some t ∧
      t.rSp = c.vm.rSp + BitVec.ofNat 8 n ∧ t.rA = c.vm.rA := by
  obtain ⟨c', hrun, hX, hA⟩ :=
    atRts_inx pop vmSys n (.txs :: is) ⟨Case.tsx.run vmSys ⟨0xba, 0, 0⟩ c.vm, c.args⟩
  rcases his with rfl | rfl
  · exact ⟨_, hrun, hX, hA⟩
  · exact ⟨_, hrun, hX, hA⟩

/-! ### Agreement -/

/-- What follows `SYS` in a wrapper with `n` bytes on the stack. -/
def Returns (n : ℕ) (rest : List Insn) : Prop :=
  n = 0 ∧ rest = [.rts] ∨
    ∃ is, (is = [.rts] ∨ is = [.ldx 0x00, .rts]) ∧
      rest = .tsx :: (List.replicate n .inx ++ .txs :: is)

variable {pop}

/-- The call, as it is when the wrapper is entered. -/
def Call.frame (c : Call) : Frame := ⟨c.vm.rA, some c.vm.rX, [], c.args⟩

theorem Call.tracks_frame (c : Call) : Tracks c.vm c.frame c where
  rA := rfl
  rX := by
    rintro x ⟨⟩
    rfl
  args := rfl
  stacked := .nil c.vm

/-- A wrapper that reaches `SYS` with a frame agrees with its decoder if that decodes the
arguments from the frame. -/
theorem agrees_of_frame {handle : Byte → List CArg → FlatVm → Byte × (Word → Byte)}
    {w : Wrapper} {args : List CArg} {c : Call} {f : Frame} {rest : List Insn}
    (hroom : w.room ≤ c.vm.rSp.toNat + 1)
    (hrun : Frame.toSys w.room w.code c.frame = some (f, rest)) (hfunc : f.rA = w.func)
    (hret : w ≠ .sysExit → Returns f.pushed.length rest) :
    ∃ v, Stacked c.vm v f.pushed ∧
      (Agrees pop handle w args c ↔ sysParams w.func v = args) := by
  obtain ⟨d, hd, htracks⟩ :=
    toSys_tracks pop (vmSyscall handle) hroom c.tracks_frame hrun
  refine ⟨d.vm, htracks.stacked, ?_, ?_⟩
  · -- the run to `SYS` is determined
    rintro ⟨d', rest', hd', -, hparams, -⟩
    obtain ⟨rfl, -⟩ := Prod.mk.inj (Option.some.inj (hd.symm.trans hd'))
    exact hparams
  · intro hparams
    have hA : d.vm.rA = w.func := htracks.rA.trans hfunc
    refine ⟨d, rest, hd, hA, hparams, ?_⟩
    intro hw
    -- behind `SYS` only `A` and the stack pointer are left to compare
    have hres : (vmSyscall handle d.vm.rA d.vm).rA = (handle w.func args d.vm).1 := by
      rw [← hparams, ← hA]
      rfl
    have hsp : d.vm.rSp + BitVec.ofNat 8 f.pushed.length = c.vm.rSp := by
      rw [htracks.stacked.rSp, BitVec.sub_add_cancel]
    refine ⟨⟨Case.sys.run (vmSyscall handle) ⟨0x02, 0, 0⟩ d.vm, d.args⟩, ?_⟩
    rcases hret hw with ⟨hn, rfl⟩ | ⟨is, his, rfl⟩
    · refine ⟨_, rfl, rfl, ?_, hres⟩
      rw [hn] at hsp
      rw [← hsp]
      exact (BitVec.add_zero _).symm
    · obtain ⟨t, ht, htsp, htA⟩ := atRts_cleanup pop (vmSyscall handle) f.pushed.length his
        ⟨Case.sys.run (vmSyscall handle) ⟨0x02, 0, 0⟩ d.vm, d.args⟩
      exact ⟨t, rfl, ht, htsp.trans hsp, htA.trans hres⟩

theorem CArg.kind_eq_byte {x : CArg} : x.kind = .byte ↔ ∃ v, x = .byte v := by
  cases x <;> simp [CArg.kind]

theorem CArg.kind_eq_word {x : CArg} : x.kind = .word ↔ ∃ v, x = .word v := by
  cases x <;> simp [CArg.kind]

/-- The order of the bytes: the high one is pushed last. -/
theorem addr16_pushed (v : Word) :
    addr16 (word (v.setWidth 8)) (word ((v >>> 8).setWidth 8)) = v := by
  rw [addr16_word, append_bytes]

section Agrees

variable {handle : Byte → List CArg → FlatVm → Byte × (Word → Byte)} {w : Wrapper}
  {args : List CArg} {c : Call}

/-- No arguments. -/
theorem agrees_of_nil (hw : w.signature = []) (hargs : args.map CArg.kind = w.signature)
    (hroom : w.room ≤ c.vm.rSp.toNat + 1) : Agrees pop handle w args c := by
  rw [hw, List.map_eq_nil_iff] at hargs
  subst hargs
  cases w
  case getch | rand | waitVsync | sysVer =>
    obtain ⟨v, -, hiff⟩ :=
      @agrees_of_frame pop handle _ [] c _ _ hroom rfl rfl fun _ => .inl ⟨rfl, rfl⟩
    exact hiff.mpr rfl
  all_goals cases hw

/-- `sys_1`, and `_sys_exit`. -/
theorem agrees_of_byte (hw : w.signature = [.byte]) (hargs : args.map CArg.kind = w.signature)
    (hpass : Passed args c) (hroom : w.room ≤ c.vm.rSp.toNat + 1) :
    Agrees pop handle w args c := by
  simp only [hw, List.map_eq_cons_iff, List.map_eq_nil_iff, CArg.kind_eq_byte] at hargs
  obtain ⟨_, _, rfl, ⟨x, rfl⟩, rfl⟩ := hargs
  obtain ⟨hA, hcargs⟩ := hpass
  -- the three decoders read the same byte
  have hdecode : ∀ v, Stacked c.vm v [c.vm.rA] → 1 ≤ c.vm.rSp.toNat + 1 →
      [CArg.byte (at_ (readBlock v.ram (addr16 (word v.rSp + 1) 1) 1) 0)] = [.byte x] := by
    intro v hst hroom
    rw [show readBlock v.ram (addr16 (word v.rSp + 1) 1) 1 = [c.vm.rA] from
      hst.read (Nat.le_refl 1) hroom, hA]
    rfl
  cases w
  case sysExit =>
    obtain ⟨v, hst, hiff⟩ :=
      @agrees_of_frame pop handle .sysExit [.byte x] c _ _ hroom rfl rfl fun h => (h rfl).elim
    exact hiff.mpr (hdecode v hst hroom)
  case putch | fillscr =>
    obtain ⟨v, hst, hiff⟩ :=
      @agrees_of_frame pop handle _ [.byte x] c _ _ hroom rfl rfl
        fun _ => .inr ⟨_, .inl rfl, rfl⟩
    exact hiff.mpr (hdecode v hst hroom)
  all_goals cases hw

/-- `sys_pt`. -/
theorem agrees_of_word (hw : w.signature = [.word]) (hargs : args.map CArg.kind = w.signature)
    (hpass : Passed args c) (hroom : w.room ≤ c.vm.rSp.toNat + 1) :
    Agrees pop handle w args c := by
  simp only [hw, List.map_eq_cons_iff, List.map_eq_nil_iff, CArg.kind_eq_word] at hargs
  obtain ⟨_, _, rfl, ⟨x, rfl⟩, rfl⟩ := hargs
  obtain ⟨hA, hX, hcargs⟩ := hpass
  cases w
  case sysLoad | cputs | putt | srand =>
    obtain ⟨v, hst, hiff⟩ :=
      @agrees_of_frame pop handle _ [.word x] c _ _ hroom rfl rfl
        fun _ => .inr ⟨_, .inl rfl, rfl⟩
    have hread : readBlock v.ram (addr16 (word v.rSp + 1) 1) 2 = [c.vm.rX, c.vm.rA] :=
      hst.read (Nat.le_succ 1) hroom
    apply hiff.mpr
    show [CArg.word (addr16 (word (at_ (readBlock v.ram _ 2) 1))
      (word (at_ (readBlock v.ram _ 2) 0)))] = _
    rw [hread, hA, hX]
    exact congrArg (fun y => [CArg.word y]) (addr16_pushed x)
  all_goals cases hw

/-- `sys_2`. -/
theorem agrees_gotoxy (hargs : args.map CArg.kind = Wrapper.gotoxy.signature)
    (hpass : Passed args c) (hroom : Wrapper.gotoxy.room ≤ c.vm.rSp.toNat + 1) :
    Agrees pop handle .gotoxy args c := by
  simp only [Wrapper.signature, List.map_eq_cons_iff, List.map_eq_nil_iff, CArg.kind_eq_byte]
    at hargs
  obtain ⟨_, _, rfl, ⟨x, rfl⟩, _, _, rfl, ⟨y, rfl⟩, rfl⟩ := hargs
  obtain ⟨hA, hcargs⟩ := hpass
  have hrun : Frame.toSys Wrapper.gotoxy.room Wrapper.gotoxy.code c.frame
      = some (⟨0x12, none, [x, c.vm.rA], []⟩, [.tsx, .inx, .inx, .txs, .rts]) := by
    rw [Call.frame, hcargs]
    rfl
  obtain ⟨v, hst, hiff⟩ :=
    @agrees_of_frame pop handle _ [.byte x, .byte y] c _ _ hroom hrun rfl
      fun _ => .inr ⟨_, .inl rfl, rfl⟩
  have hread : readBlock v.ram (addr16 (word v.rSp + 1) 1) 2 = [x, c.vm.rA] :=
    hst.read (Nat.le_succ 1) ((Nat.le_succ 2).trans hroom)
  apply hiff.mpr
  show [CArg.byte (at_ (readBlock v.ram _ 2) 0), .byte (at_ (readBlock v.ram _ 2) 1)] = _
  rw [hread, hA]
  rfl

/-- `sys_pt_1`, with the parameters that it is made for. -/
theorem agrees_cgets (hargs : args.map CArg.kind = Wrapper.cgets.signature)
    (hpass : Passed args c) (hroom : Wrapper.cgets.room ≤ c.vm.rSp.toNat + 1) :
    Agrees pop handle .cgets args c := by
  simp only [Wrapper.signature, List.map_eq_cons_iff, List.map_eq_nil_iff, CArg.kind_eq_byte,
    CArg.kind_eq_word] at hargs
  obtain ⟨_, _, rfl, ⟨x, rfl⟩, _, _, rfl, ⟨y, rfl⟩, rfl⟩ := hargs
  obtain ⟨hA, hcargs⟩ := hpass
  have hrun : Frame.toSys Wrapper.cgets.room Wrapper.cgets.code c.frame
      = some (⟨0x21, some ((x >>> 8).setWidth 8), [(x >>> 8).setWidth 8, x.setWidth 8, c.vm.rA],
        []⟩, [.tsx, .inx, .inx, .inx, .txs, .rts]) := by
    rw [Call.frame, hcargs]
    rfl
  obtain ⟨v, hst, hiff⟩ :=
    @agrees_of_frame pop handle _ [.word x, .byte y] c _ _ hroom hrun rfl
      fun _ => .inr ⟨_, .inl rfl, rfl⟩
  have hread : readBlock v.ram (addr16 (word v.rSp + 1) 1) 3
      = [(x >>> 8).setWidth 8, x.setWidth 8, c.vm.rA] := hst.read (Nat.succ_pos _) hroom
  apply hiff.mpr
  show [CArg.word (addr16 (word (at_ (readBlock v.ram _ 3) 1))
    (word (at_ (readBlock v.ram _ 3) 0))), .byte (at_ (readBlock v.ram _ 3) 2)] = _
  rw [hread, hA]
  exact congrArg (fun z => [CArg.word z, .byte y]) (addr16_pushed x)

/-- `sys_1_pt_pt`. -/
theorem agrees_of_words (hw : w.signature = [.word, .word, .word])
    (hargs : args.map CArg.kind = w.signature) (hpass : Passed args c)
    (hroom : w.room ≤ c.vm.rSp.toNat + 1) : Agrees pop handle w args c := by
  simp only [hw, List.map_eq_cons_iff, List.map_eq_nil_iff, CArg.kind_eq_word] at hargs
  obtain ⟨_, _, rfl, ⟨x, rfl⟩, _, _, rfl, ⟨y, rfl⟩, _, _, rfl, ⟨z, rfl⟩, rfl⟩ := hargs
  obtain ⟨hA, hX, hcargs⟩ := hpass
  cases w
  case write | read =>
    obtain ⟨v, hst, hiff⟩ := @agrees_of_frame pop handle _ [.word x, .word y, .word z] c
      ⟨_, some ((x >>> 8).setWidth 8), [(x >>> 8).setWidth 8, x.setWidth 8, (y >>> 8).setWidth 8,
        y.setWidth 8, c.vm.rX, c.vm.rA], []⟩ _ hroom
      (by rw [Call.frame, hcargs]; rfl) rfl fun _ => .inr ⟨_, .inr rfl, rfl⟩
    have hread : readBlock v.ram (addr16 (word v.rSp + 1) 1) 6
        = [(x >>> 8).setWidth 8, x.setWidth 8, (y >>> 8).setWidth 8, y.setWidth 8, c.vm.rX,
          c.vm.rA] := hst.read (Nat.succ_pos _) hroom
    apply hiff.mpr
    show [CArg.word (addr16 (word (at_ (readBlock v.ram _ 6) 1))
        (word (at_ (readBlock v.ram _ 6) 0))),
      .word (addr16 (word (at_ (readBlock v.ram _ 6) 3)) (word (at_ (readBlock v.ram _ 6) 2))),
      .word (addr16 (word (at_ (readBlock v.ram _ 6) 5)) (word (at_ (readBlock v.ram _ 6) 4)))] = _
    simp only [hread, hA, hX, at_, List.getD_cons_succ, List.getD_cons_zero, addr16_pushed]
  all_goals cases hw

/-- The byte above the stack that a wrapper is entered with: the low byte of the address
that it returns to. -/
def Call.top (c : Call) : Byte := c.vm.ram (slot (c.vm.rSp.toNat + 1))

theorem append_top_iff {top : Byte} {y : Word} :
    addr16 (word top) (word (y.setWidth 8)) = y ↔ y = addr16 (word top) (word top) := by
  rw [addr16_word, addr16_word]
  constructor
  · intro h
    have hlow : y.setWidth 8 = top := by
      rw [← h]
      exact BitVec.setWidth_append_eq_right
    rw [hlow] at h
    exact h.symm
  · intro h
    have hlow : y.setWidth 8 = top := by
      rw [h]
      exact BitVec.setWidth_append_eq_right
    rw [hlow]
    exact h.symm

/-- `sys_pt_1`, where the decoder reads two words. -/
theorem agrees_sysSave_iff (hargs : args.map CArg.kind = Wrapper.sysSave.signature)
    (hpass : Passed args c) (hroom : Wrapper.sysSave.room ≤ c.vm.rSp.toNat + 1) :
    Agrees pop handle .sysSave args c ↔
      args[1]? = some (.word (addr16 (word c.top) (word c.top))) := by
  simp only [Wrapper.signature, List.map_eq_cons_iff, List.map_eq_nil_iff, CArg.kind_eq_word]
    at hargs
  obtain ⟨_, _, rfl, ⟨x, rfl⟩, _, _, rfl, ⟨y, rfl⟩, rfl⟩ := hargs
  obtain ⟨hA, hX, hcargs⟩ := hpass
  obtain ⟨v, hst, hiff⟩ := @agrees_of_frame pop handle .sysSave [.word x, .word y] c
    ⟨0x02, some ((x >>> 8).setWidth 8), [(x >>> 8).setWidth 8, x.setWidth 8, c.vm.rA], []⟩
    [.tsx, .inx, .inx, .inx, .txs, .rts] hroom
    (by rw [Call.frame, hcargs]; rfl) rfl fun _ => .inr ⟨_, .inl rfl, rfl⟩
  have hread : readBlock v.ram (addr16 (word v.rSp + 1) 1) 4
      = [(x >>> 8).setWidth 8, x.setWidth 8, c.vm.rA, c.top] :=
    hst.read_succ (Nat.succ_pos _) hroom
  rw [hiff]
  show [CArg.word (addr16 (word (at_ (readBlock v.ram _ 4) 1))
      (word (at_ (readBlock v.ram _ 4) 0))),
    .word (addr16 (word (at_ (readBlock v.ram _ 4) 3))
      (word (at_ (readBlock v.ram _ 4) 2)))] = _ ↔ _
  simp only [hread, hA, at_, List.getD_cons_succ, List.getD_cons_zero, addr16_pushed]
  simp [append_top_iff]

end Agrees

/-- **The calling convention**: of the sixteen wrappers fifteen agree with their decoder,
for all arguments and every stack pointer that leaves room.  `_sys_save` does for the
sizes whose two bytes are the low byte of its return address. -/
theorem wrapper_agrees_iff (pop : Pop) (handle : Byte → List CArg → FlatVm → Byte × (Word → Byte))
    (w : Wrapper) (args : List CArg) (c : Call) (hargs : args.map CArg.kind = w.signature)
    (hpass : Passed args c) (hroom : w.room ≤ c.vm.rSp.toNat + 1) :
    Agrees pop handle w args c ↔
      (w = .sysSave → args[1]? = some (.word (addr16 (word c.top) (word c.top)))) := by
  cases w
  case sysSave =>
    rw [agrees_sysSave_iff hargs hpass hroom]
    exact ⟨fun h _ => h, fun h => h rfl⟩
  case gotoxy => exact iff_of_true (agrees_gotoxy hargs hpass hroom) nofun
  case cgets => exact iff_of_true (agrees_cgets hargs hpass hroom) nofun
  case getch | rand | waitVsync | sysVer =>
    exact iff_of_true (agrees_of_nil rfl hargs hroom) nofun
  case sysExit | putch | fillscr =>
    exact iff_of_true (agrees_of_byte rfl hargs hpass hroom) nofun
  case sysLoad | cputs | putt | srand =>
    exact iff_of_true (agrees_of_word rfl hargs hpass hroom) nofun
  case write | read => exact iff_of_true (agrees_of_words rfl hargs hpass hroom) nofun

/-- `popa` and `popax` that change nothing but `A` and `X`. -/
def popRegisters : Pop where
  popa v s := { s with rA := v }
  popax v s := { s with rA := v.setWidth 8, rX := (v >>> 8).setWidth 8 }
  popa_rA _ _ := rfl
  popa_balanced _ _ _ := ⟨rfl, fun _ _ => rfl⟩
  popax_rA _ _ := rfl
  popax_rX _ _ := rfl
  popax_balanced _ _ _ := ⟨rfl, fun _ _ => rfl⟩

/-- A C program calls with the return address `$1a34` on the stack. -/
def called (a x : Byte) (args : List CArg) : Call :=
  ⟨⟨a, x, 0, 0xfd, 0, 0x1b00, fun i => if i = 0x01fe then 0x34 else if i = 0x01ff then 0x1a else 0⟩,
    args⟩

/-- `write(1, $2000, 5)` -/
theorem wrapper_agrees_iff_write :
    Agrees popRegisters (fun _ _ s => (5, s.ram)) .write [.word 1, .word 0x2000, .word 5]
      (called 5 0 [.word 0x2000, .word 1]) :=
  (wrapper_agrees_iff popRegisters _ .write [.word 1, .word 0x2000, .word 5]
    (called 5 0 [.word 0x2000, .word 1]) rfl ⟨rfl, rfl, rfl⟩ (by decide)).mpr nofun

/-- `sys_save($2000, $0010)` saves `$1034` bytes. -/
theorem sysSave_not_agrees :
    let c := called 0x10 0x00 [.word 0x2000]
    Passed [.word 0x2000, .word 0x0010] c ∧
      (∃ d rest, toSys popRegisters (vmSyscall fun _ _ s => (0, s.ram)) Wrapper.sysSave.code c
        = some (d, rest) ∧ sysParams 0x02 d.vm = [.word 0x2000, .word 0x1034]) ∧
      ¬ Agrees popRegisters (fun _ _ s => (0, s.ram)) .sysSave [.word 0x2000, .word 0x0010] c := by
  intro c
  have hparams : ∃ d rest, toSys popRegisters (vmSyscall fun _ _ s => (0, s.ram))
      Wrapper.sysSave.code c = some (d, rest) ∧
        sysParams 0x02 d.vm = [.word 0x2000, .word 0x1034] := by
    refine ⟨_, _, rfl, ?_⟩
    decide +kernel
  refine ⟨⟨rfl, rfl, rfl⟩, hparams, ?_⟩
  rintro ⟨d', rest', hd', -, hparams', -⟩
  obtain ⟨d, rest, hd, hparams⟩ := hparams
  obtain ⟨rfl, -⟩ := Prod.mk.inj (Option.some.inj (hd.symm.trans hd'))
  have hne := hparams.symm.trans hparams'
  exact absurd hne (by decide)

end CRuntime

end Dan64
