/-
Dan64/DasmStep.lean

The disassembler in step with the virtual machine.

The virtual machine finds the next instruction by how often a case has moved `pt`
(`Case.rPc_run`), over any memory and any system calls that keep the program counter;
the disassembler by the mode in the row of the opcode.  The table and the `switch` have the
same opcodes (`hasRow_iff`) and each the same length (`tbl_cases`), also where the
mnemonic or the mode of a row is not that of its case.
-/
import Dan64.DasmForm
import Dan64.DasmRound

namespace Dan64

open CText AddrEnum
open Mos6502 (Mnemonic Mode Flags)

variable {M : Type}

/-! ### Lengths in the virtual machine -/

@[simp] theorem rPc_next (s : Vm M) (n : ℕ) : (s.next n).rPc = s.rPc + BitVec.ofNat 16 n := rfl

@[simp] theorem rPc_setNZ (s : Vm M) (v : Byte) : (s.setNZ v).rPc = s.rPc := rfl

@[simp] theorem rPc_setNZC (s : Vm M) (v c : Byte) : (s.setNZC v c).rPc = s.rPc := rfl

@[simp] theorem rPc_compare (s : Vm M) (r t : Byte) : (s.compare r t).rPc = s.rPc := rfl

@[simp] theorem rPc_bit (s : Vm M) (t : Byte) : (s.bit t).rPc = s.rPc := rfl

@[simp] theorem rPc_adc (s : Vm M) (t : Byte) : (s.adc t).rPc = s.rPc := by
  rw [Vm.adc]
  split <;> rfl

@[simp] theorem rPc_sbc (s : Vm M) (t : Byte) : (s.sbc t).rPc = s.rPc := by
  rw [Vm.sbc]
  split <;> rfl

/-- A branch that is not taken. -/
theorem rPc_branch {taken : Bool} (h : taken = false) (c : OpCache) (s : Vm M) :
    (s.branch taken c).rPc = s.rPc + 2#16 := by
  rw [h]
  exact BitVec.add_assoc _ _ _

variable [BlockMem 16 Byte M]

@[simp] theorem rPc_vmRamRead (s : Vm M) (a : Word) (n : ℕ) : (s.vmRamRead a n).2.rPc = s.rPc := rfl

@[simp] theorem rPc_vmRamWrite (s : Vm M) (a : Word) (bs : List Byte) :
    (s.vmRamWrite a bs).rPc = s.rPc := rfl

@[simp] theorem Addressing.rPc_addr (m : Addressing) (c : OpCache) (s : Vm M) :
    (m.addr c s).2.rPc = s.rPc := by
  cases m <;> rfl

@[simp] theorem Src.rPc_value (o : Src) (c : OpCache) (s : Vm M) :
    (o.value c s).2.rPc = s.rPc := by
  cases o with
  | imm => rfl
  | «at» m => exact m.rPc_addr c s

@[simp] theorem Tgt.rPc_modify (o : Tgt) (f : Byte → Byte) (c : OpCache) (s : Vm M) :
    (o.modify f c s).2.rPc = s.rPc := by
  cases o with
  | acc => rfl
  | «at» m => exact m.rPc_addr c s

/-- The mnemonics that set the program counter. -/
def jumps : List Mnemonic := [.brk, .jmp, .jsr, .rts, .rti]

/-- **A case moves the program counter by its length**, unless it sets it. -/
theorem Case.rPc_run (sys : Byte → Vm M → Vm M) {k : Case} {mn : Mnemonic} {m : Mode}
    (hk : k.instr = some (mn, m)) (hjump : mn ∉ jumps) (c : OpCache) {s : Vm M}
    (htaken : mn.taken (Flags.ofByte s.rS) = false) :
    (k.run sys c s).rPc = s.rPc + BitVec.ofNat 16 m.length := by
  cases k <;> simp only [Case.instr, Option.some.injEq, Prod.mk.injEq, reduceCtorEq] at hk <;>
    obtain ⟨rfl, rfl⟩ := hk
  case brk | jmp | jmpInd | jsr | rts | rti => exact absurd (by decide) hjump
  case bpl | bmi =>
    refine rPc_branch (Eq.trans ?_ htaken) c s
    simp only [testN, and_sbit_beq_zero (show Nf < 8 by decide),
      and_sbit_bne_zero (show Nf < 8 by decide)]
    rfl
  case bvc | bvs =>
    refine rPc_branch (Eq.trans ?_ htaken) c s
    simp only [and_sbit_beq_zero (show Vf < 8 by decide), and_sbit_bne_zero (show Vf < 8 by decide)]
    rfl
  case bcc | bcs =>
    refine rPc_branch (Eq.trans ?_ htaken) c s
    simp only [and_sbit_beq_zero (show Cf < 8 by decide), and_sbit_bne_zero (show Cf < 8 by decide)]
    rfl
  case bne | beq =>
    refine rPc_branch (Eq.trans ?_ htaken) c s
    simp only [and_sbit_beq_zero (show Zf < 8 by decide), and_sbit_bne_zero (show Zf < 8 by decide)]
    rfl
  case cpx o | cpy o | cmp o | eor o | and o | ora o | lda o | ldx o | ldy o | adc o | sbc o =>
    simp [Case.run]
  case bit m | sta m | stx m | sty m | inc m | dec m => simp [Case.run]
  case rol o | ror o | asl o | lsr o => simp [Case.run]
  all_goals simp [Case.run, Mode.length]

/-! ### Lengths in the table -/

/-- The table lists the opcodes of the `switch`. -/
theorem ops_eq : (List.range 256).filter (fun n => (vmSwitch (BitVec.ofNat 8 n)).isSome)
    = vmOpTbl.map fun r => r.op.toNat := by
  decide +kernel

theorem hasRow_iff (op : Byte) : (∃ r ∈ vmOpTbl, r.op = op) ↔ (vmSwitch op).isSome = true := by
  have hmem : op.toNat ∈ (List.range 256).filter (fun n => (vmSwitch (BitVec.ofNat 8 n)).isSome) ↔
      (vmSwitch op).isSome = true := by
    rw [List.mem_filter, List.mem_range, BitVec.ofNat_toNat, BitVec.setWidth_eq,
      and_iff_right op.isLt]
  rw [← hmem, ops_eq, List.mem_map]
  simp only [BitVec.toNat_inj]

/-- The row of an instruction: the length is that of the case, and jumps and branches have
their names. -/
def Alike (r : OpRow) (mode : AddrEnum) : Option (Mnemonic × Mode) → Prop
  | none => r.mne = ['S', 'Y', 'S'] ∧ mode.length = 1
  | some (mn, m) =>
    mode.length = m.length ∧ (mn ∈ jumps ∨ m = .relative → r.mne = mneText mn)

instance (r : OpRow) (mode : AddrEnum) : ∀ i, Decidable (Alike r mode i)
  | none => inferInstanceAs (Decidable (_ ∧ _))
  | some (_, _) => inferInstanceAs (Decidable (_ ∧ (_ → _)))

theorem tbl_cases : ∀ r ∈ vmOpTbl, ∃ k ∈ vmSwitch r.op, ∃ mode ∈ AddrEnum.ofByte r.mode,
    IsMne r.mne ∧ Alike r mode k.instr := by
  decide +kernel

/-- `SYS` is the only case that is no instruction of the 6502. -/
theorem Case.eq_sys {k : Case} (h : k.instr = none) : k = .sys := by
  cases k <;> first | rfl | cases h

theorem taken_of_ne_relative {k : Case} {mn : Mnemonic} {m : Mode}
    (hk : k.instr = some (mn, m)) (hm : m ≠ .relative) (f : Flags) : mn.taken f = false := by
  cases k <;> simp only [Case.instr, Option.some.injEq, Prod.mk.injEq, reduceCtorEq] at hk <;>
    obtain ⟨rfl, rfl⟩ := hk
  case bpl | bmi | bvc | bvs | bcc | bcs | bne | beq => exact absurd rfl hm
  all_goals rfl

/-! ### In step -/

/-- The row of an instruction that goes on behind itself: not one of those that set the
program counter, not a branch that is taken, and if it is `SYS` the system call keeps the
program counter. -/
structure GoesOn (sys : Byte → Vm M → Vm M) (s : Vm M) (r : OpRow) : Prop where
  jump : ∀ mn ∈ jumps, r.mne ≠ mneText mn
  branch : ∀ mn, r.mne = mneText mn → mn.taken (Flags.ofByte s.rS) = false
  sys : r.mne = ['S', 'Y', 'S'] → (sys s.rA s.fetch.2).rPc = s.rPc

/-- **The disassembler stays in step with the virtual machine**: the opcodes with a row are
those that do not halt it, and an instruction that goes on behind itself goes as far as
the length that is printed. -/
theorem das_in_step (past : OpRow) (sys : Byte → Vm M → Vm M) (s : Vm M) :
    ((∃ r ∈ vmOpTbl, r.op = s.fetch.1.op) ↔ vmExec sys s ≠ none) ∧
      ∀ r ∈ vmOpTbl, r.op = s.fetch.1.op → GoesOn sys s r →
        ∃ t, vmExec sys s = some t ∧
          t.rPc = s.rPc + BitVec.ofNat 16
            (dasmDas past s.rPc s.fetch.1.op s.fetch.1.b1 s.fetch.1.b2).2 := by
  refine ⟨?_, fun r hr hop hgo => ?_⟩
  · rw [hasRow_iff, Option.isSome_iff_ne_none, vmExec, Ne, Ne, Option.map_eq_none_iff]
  · obtain ⟨k, hk, mode, hmode, hmne, halike⟩ := tbl_cases r hr
    obtain ⟨-, -, hlen⟩ := @das_writes past r mode hr hmode hmne s.rPc s.fetch.1.b1 s.fetch.1.b2
    rw [hop] at hk hlen
    have hexec : vmExec sys s = some (k.run sys s.fetch.1 s.fetch.2) := by
      rw [vmExec, Option.mem_def.mp hk]
      rfl
    refine ⟨_, hexec, ?_⟩
    rw [hlen]
    rcases hinstr : k.instr with - | ⟨mn, m⟩
    · rw [hinstr] at halike
      obtain ⟨hsys, hone⟩ := halike
      rw [Case.eq_sys hinstr, hone]
      exact congrArg (· + 1#16) (hgo.sys hsys)
    · rw [hinstr] at halike
      obtain ⟨heq, hname⟩ := halike
      have hjump : mn ∉ jumps := fun hmem => hgo.jump mn hmem (hname (.inl hmem))
      have htaken : mn.taken (Flags.ofByte s.fetch.2.rS) = false := by
        by_cases hm : m = .relative
        · exact hgo.branch mn (hname (.inr hm))
        · exact taken_of_ne_relative hinstr hm _
      rw [heq]
      exact Case.rPc_run sys hinstr hjump s.fetch.1 htaken

/-- A branch that is not taken. -/
theorem das_in_step_beq :
    let s : FlatVm := ⟨0, 0, 0, 0xff, 0, 0x1a00, fun _ => 0xf0⟩
    GoesOn (fun _ => id) s ⟨0xf0, 'B', 'E', 'Q', AT_RELATIVE⟩ ∧
      ∃ t, vmExec (fun _ => id) s = some t ∧ t.rPc = 0x1a02 := by
  intro s
  have hgo : GoesOn (fun _ => id) s ⟨0xf0, 'B', 'E', 'Q', AT_RELATIVE⟩ := by
    refine ⟨by decide, fun mn => ?_, nofun⟩
    cases mn <;> decide
  exact ⟨hgo, (das_in_step zeroRow (fun _ => id) s).2 _ (by decide) rfl hgo⟩

end Dan64
