/-
Dan64/CmdRun.lean

A program on the board: `cmd_run` of `init/main.c`.

A pass of its loop is one `vm_exec`, with a system call if the instruction is `SYS`;
what arrives from outside differs from call to call.  Seen by the program this is the
documented processor with one more instruction (`Serves`): every run of the loop is a
run of that machine (`cmdRun_refines`), as long as the program stays off the few
places where the virtual machine and the processor part (`Plain`).  All of these can be
seen on the documented machine.

A call of "get input" with size 0 puts no bound on the line.  The buffer of the kernel
has 128 bytes, and a longer line with its zero runs over what is behind it, which is not
modelled: nothing is said about the source in such a run.
-/
import Dan64.VmMap
import Dan64.WriteRead

namespace Dan64

open BlockMem
open Mos6502 (Flags State Mnemonic Mode opcode exec Executes)

variable {R : Type}

/-! ### The loop -/

/-- A pass of `while (!prog_exit && vm_exec())`. -/
inductive Pass (font : ℕ → Byte) (rng : Random R) : Vm (Kernel R) → Vm (Kernel R) → Prop
  | exec {s t : Vm (Kernel R)} : s.ram.progExit = false → s.fetch.1.op ≠ 0x02 →
      vmExec (fun _ s => s) s = some t → Pass font rng s t
  | sys {s t : Vm (Kernel R)} (fuel : ℕ) (dev : Devices) : s.ram.progExit = false →
      s.fetch.1.op = 0x02 → vmExecSys font rng fuel dev s = some t → Pass font rng s t

/-- `vm_init(); prog_exit = 0;` -/
def cmdRunStart (s : Vm (Kernel R)) : Vm (Kernel R) :=
  vmInit { s with ram := { s.ram with progExit := false } }

/-! ### The documented machine -/

/-- An instruction of the processor. -/
def Instruction (s t : State) : Prop :=
  ∃ mn m, opcode mn m = some (s.mem s.pc) ∧ Executes mn m (s.operand m) s t

/-- `SYS`, as far as every service keeps it: `X`, `Y`, the stack pointer and the flags stay,
and the next instruction is the one behind it. -/
structure Serves (s t : State) : Prop where
  op : s.mem s.pc = 0x02
  x : t.x = s.x
  y : t.y = s.y
  sp : t.sp = s.sp
  flags : t.flags = s.flags
  pc : t.pc = s.pc + 1

/-- What a program is run by. -/
def Machine (s t : State) : Prop := Instruction s t ∨ Serves s t

/-- Where the virtual machine and the processor do the same: no instruction at the end of
the memory, no pointer or stack block that leaves its page. -/
structure Plain (s : State) : Prop where
  fetch : s.pc.toNat ≤ 0xfffd
  instr {mn : Mnemonic} {m : Mode} : opcode mn m = some (s.mem s.pc) →
    PointerFits m (s.operand m) s ∧ StackFits mn s.sp
  jump : s.mem s.pc = 0x6c → s.operand .indirect ≠ 0xffff

/-! ### One pass -/

/-- The memory a program sees is carried to the flat memory. -/
theorem carries_kernel : Carries (fun k : Kernel R => k.fw.flat) InRange where
  read h := Prod.ext (sim_inRange h _).1.symm rfl
  write h := (sim_inRange (o := .write _ _) h _).2.symm

/-- The opcodes of the switch are `SYS` and those of the processor. -/
theorem vmSwitch_cases : ∀ op : Byte, (vmSwitch op).elim true (fun k =>
    k == .sys && op == 0x02 || k.instr.elim false fun p => opcode p.1 p.2 == some op) = true := by
  decide +kernel

theorem opcode_of_vmSwitch {op : Byte} {k : Case} (h : vmSwitch op = some k) (hop : op ≠ 0x02) :
    ∃ mn m, k.instr = some (mn, m) ∧ opcode mn m = some op := by
  have hcases := vmSwitch_cases op
  rw [h] at hcases
  rcases hk : k.instr with - | ⟨mn, m⟩
  · simp only [hk, Option.elim_some, Option.elim_none, Bool.or_false, Bool.and_eq_true,
      beq_iff_eq] at hcases
    exact absurd hcases.2 hop
  · simp only [hk, Option.elim_some, Bool.or_eq_true, Bool.and_eq_true, beq_iff_eq, hop, and_false,
      false_or] at hcases
    exact ⟨mn, m, rfl, hcases⟩

section Pass

variable {font : ℕ → Byte} {rng : Random R} {s t : Vm (Kernel R)}

/-- The accesses of a plain state fit. -/
theorem Plain.fits (h : Plain s.toFlat.abs) : s.toFlat.Fits := by
  refine ⟨h.fetch, fun k hk => ?_⟩
  rw [fetch_flat] at hk ⊢
  by_cases hop : s.toFlat.ram s.rPc = 0x02
  · have hsys : vmSwitch (s.toFlat.ram s.rPc) = some .sys := by rw [hop]; rfl
    obtain rfl := Option.some.inj (hsys.symm.trans hk)
    trivial
  obtain ⟨mn, m, hinstr, hopcode⟩ := opcode_of_vmSwitch hk hop
  have hfits := h.instr hopcode
  cases k
  case jmpInd =>
    obtain ⟨rfl, rfl⟩ := Prod.mk.inj (Option.some.inj hinstr)
    have hne := h.jump (Option.some.inj hopcode).symm
    rw [← operand_cache] at hne
    show addr16 (word _) (word _) ≠ 0xffff
    rwa [addr16_word]
  case jsr | brk =>
    obtain ⟨rfl, rfl⟩ := Prod.mk.inj (Option.some.inj hinstr)
    exact hfits.2
  all_goals trivial

theorem Plain.vmExec (h : Plain s.toFlat.abs) :
    vmExec (fun _ u => u) s.toFlat = (Dan64.vmExec (fun _ u => u) s).map Vm.toFlat :=
  map_vmExec carries_kernel rfl ((map_fits carries_kernel).mp h.fits)

/-- The opcode is the byte that the machine finds. -/
theorem Plain.op (h : Plain s.toFlat.abs) : s.fetch.1.op = s.toFlat.ram s.rPc := by
  have hfetch : s.toFlat.fetch = _ := map_fetch carries_kernel (s := s) h.fetch
  rw [fetch_flat] at hfetch
  exact (congrArg (fun r => r.1.op) hfetch).symm

/-- **Step.**  A pass is an instruction or a system call. -/
theorem Pass.machine (h : Pass font rng s t) (hs : Plain s.toFlat.abs) :
    Machine s.toFlat.abs t.toFlat.abs := by
  cases h with
  | exec _ hop hexec =>
    left
    have hflat : Dan64.vmExec (fun _ u => u) s.toFlat = some t.toFlat := by
      rw [hs.vmExec, hexec]
      rfl
    rw [vmExec_flat] at hflat
    obtain ⟨k, hk, hrun⟩ := Option.map_eq_some_iff.mp hflat
    rw [hs.op] at hop
    obtain ⟨mn, m, hinstr, hopcode⟩ := opcode_of_vmSwitch hk hop
    obtain ⟨hp, hstack⟩ := hs.instr hopcode
    refine ⟨mn, m, hopcode, ?_⟩
    rw [← operand_cache] at hp ⊢
    rw [← hrun]
    exact Case.run_executes _ hinstr _ _ hp hstack
  | sys fuel dev _ hop hexec =>
    right
    obtain ⟨u, hu, rfl⟩ := (vmExecSys_eq_some hop).mp hexec
    obtain ⟨hkeep, hpc⟩ := vmSyscall_kept hu
    exact ⟨hs.op.symm.trans hop, hkeep.rX, hkeep.rY, hkeep.rSp, congrArg Flags.ofByte hkeep.rS,
      congrArg (· + 1) hpc⟩

/-- A program is not stuck on an instruction of the processor, nor on a call that returns. -/
theorem exists_pass_iff (hs : Plain s.toFlat.abs) (hexit : s.ram.progExit = false) :
    (∃ t, Pass font rng s t) ↔ (∃ mn m, opcode mn m = some (s.toFlat.ram s.rPc)) ∨
      s.toFlat.ram s.rPc = 0x02 ∧
        ∃ fuel dev u, vmSyscall font rng fuel dev s.rA s = some u := by
  constructor
  · rintro ⟨t, h⟩
    cases h with
    | exec _ hop hexec =>
      left
      obtain ⟨k, hk, -⟩ := Option.map_eq_some_iff.mp hexec
      rw [hs.op] at hop hk
      obtain ⟨mn, m, -, hopcode⟩ := opcode_of_vmSwitch hk hop
      exact ⟨mn, m, hopcode⟩
    | sys fuel dev _ hop hexec =>
      right
      obtain ⟨u, hu, -⟩ := (vmExecSys_eq_some hop).mp hexec
      exact ⟨hs.op.symm.trans hop, fuel, dev, u, hu⟩
  · rintro (⟨mn, m, hopcode⟩ | ⟨hop, fuel, dev, u, hu⟩)
    · have hne : s.fetch.1.op ≠ 0x02 := by
        intro hop
        rw [← hs.op, hop] at hopcode
        obtain ⟨k, hk, hinstr⟩ := vmSwitch_opcode hopcode
        obtain rfl : k = .sys := (Option.some.inj hk).symm
        cases hinstr
      rw [← hs.op] at hopcode
      obtain ⟨k, -, -, hexec⟩ := vmExec_opcode (fun _ u => u) hopcode
      exact ⟨_, .exec hexit hne hexec⟩
    · have hop' := hs.op.trans hop
      exact ⟨_, .sys fuel dev hexit hop' ((vmExecSys_eq_some hop').mpr ⟨u, hu, rfl⟩)⟩

end Pass

/-! ### The run -/

/-- **A program on the board is run by the documented processor with `SYS`**: whatever
arrives during its calls, and for as long as it stays plain.  It stops only where it has
asked to, at an opcode that is not one, or in a call that does not return.  (No line runs over
the buffer of the kernel.) -/
theorem cmdRun_refines (font : ℕ → Byte) (rng : Random R) {s t : Vm (Kernel R)}
    {us : List (Vm (Kernel R))} (h : Steps (Pass font rng) (cmdRunStart s) us t)
    (hplain : ∀ u ∈ us, Plain u.toFlat.abs) :
    Steps Machine (cmdRunStart s).toFlat.abs (us.map fun u => u.toFlat.abs) t.toFlat.abs ∧
      (Plain t.toFlat.abs → ((¬ ∃ v, Pass font rng t v) ↔
        t.ram.progExit = true ∨
        (∀ mn m, opcode mn m ≠ some (t.toFlat.ram t.rPc)) ∧
          (t.toFlat.ram t.rPc = 0x02 →
            ∀ fuel dev, vmSyscall font rng fuel dev t.rA t = none))) := by
  refine ⟨h.map (fun u v hu huv => huv.machine hu) hplain, fun ht => ?_⟩
  by_cases hexit : t.ram.progExit = true
  · refine iff_of_true ?_ (.inl hexit)
    rintro ⟨v, hv⟩
    cases hv with
    | exec hrunning | sys _ _ hrunning => exact absurd (hexit.symm.trans hrunning) (by decide)
  · have hrunning : t.ram.progExit = false := by simpa using hexit
    rw [exists_pass_iff ht hrunning]
    simp [hexit, Option.eq_none_iff_forall_ne_some]

/-- One `NOP`, out of a memory full of them. -/
theorem cmdRun_refines_nop :
    let s : Vm (Kernel Unit) := ⟨0, 0, 0, 0, 0, 0,
      ⟨fun _ => 0xea, ⟨0, 0, false, fun _ => 0xea, []⟩, fun _ => 0, true, ()⟩⟩
    let rng : Random Unit := ⟨fun _ => (0, ()), fun _ => ()⟩
    let t := (cmdRunStart s).next 1
    Steps Machine (cmdRunStart s).toFlat.abs [(cmdRunStart s).toFlat.abs] t.toFlat.abs ∧
      (Plain t.toFlat.abs → ((¬ ∃ v, Pass (fun _ => 0) rng t v) ↔
        t.ram.progExit = true ∨
        (∀ mn m, opcode mn m ≠ some (t.toFlat.ram t.rPc)) ∧
          (t.toFlat.ram t.rPc = 0x02 →
            ∀ fuel dev, vmSyscall (fun _ => 0) rng fuel dev t.rA t = none))) :=
  let s : Vm (Kernel Unit) := ⟨0, 0, 0, 0, 0, 0,
    ⟨fun _ => 0xea, ⟨0, 0, false, fun _ => 0xea, []⟩, fun _ => 0, true, ()⟩⟩
  cmdRun_refines (fun _ => 0) ⟨fun _ => (0, ()), fun _ => ()⟩
    (s := s) (.one (.exec rfl (by decide) rfl))
    (by
      intro u hu
      obtain rfl := List.mem_singleton.mp hu
      refine ⟨by decide, fun {mn m} hop => ?_, fun hop => absurd hop (by decide)⟩
      obtain ⟨rfl, rfl⟩ := opcode_injective (show opcode .nop .implied = some 0xea from rfl) hop
      exact ⟨by decide, trivial⟩)

end Dan64
