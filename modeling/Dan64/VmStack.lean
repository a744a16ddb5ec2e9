/-
Dan64/VmStack.lean

Where the stack instructions access memory.

A traced memory records the accesses of one `vm_exec`.  The multi-byte pushes
and pulls of the source are single block accesses at `addr16(r_sp - k, 1)`,
computed in `int`: the block is the documented one unless `r_sp - k` is
negative or the block runs over the end of page one.  `StackFits` is exactly
the condition that neither happens (`confined_iff`).  Over a run whose pushes
all fit, bytes outside page one are changed by other instructions only
(`run_frame`).
-/
import Dan64.VmRefine

namespace Dan64

open BlockMem
open Mos6502 (Flags State Mnemonic Mode opcode exec stackAddr Executes)

/-- Page one. -/
def InStackPage (a : Word) : Prop := 0x0100 ≤ a.toNat ∧ a.toNat ≤ 0x01ff

instance (a : Word) : Decidable (InStackPage a) := inferInstanceAs (Decidable (_ ∧ _))

theorem inStackPage_stackAddr (p : Byte) : InStackPage (stackAddr p) := by
  have hp := p.isLt
  rw [InStackPage, toNat_stackAddr]
  omega

/-! ### What the stack instructions should access -/

section Traced

variable {M : Type}

/-- The bytes an instruction pushes, in the order in which it pushes them. -/
def pushed (mn : Mnemonic) (s : Vm M) : List Byte :=
  let ret := s.rPc + 2
  match mn with
  | .pha => [s.rA]
  | .php => [s.rS ||| 0x30]
  | .jsr => [(ret >>> 8).setWidth 8, ret.setWidth 8]
  | .brk => [(ret >>> 8).setWidth 8, ret.setWidth 8, s.rS ||| 0x30]
  | _ => []

/-- How many bytes an instruction pulls. -/
def pulled : Mnemonic → ℕ
  | .pla | .plp => 1
  | .rts => 2
  | .rti => 3
  | _ => 0

/-- The addresses of `n` pushes: each one byte lower, wrapping in page one. -/
def pushCells (sp : Byte) (n : ℕ) : List Word :=
  (List.range n).map fun i => stackAddr (sp - BitVec.ofNat 8 i)

/-- The addresses of `n` pulls. -/
def pullCells (sp : Byte) (n : ℕ) : List Word :=
  (List.range n).map fun i => stackAddr (sp + 1 + BitVec.ofNat 8 i)

/-- The instructions that push. -/
def Pushes (mn : Mnemonic) : Prop := mn ∈ [.pha, .php, .jsr, .brk]

instance (mn : Mnemonic) : Decidable (Pushes mn) := inferInstanceAs (Decidable (mn ∈ _))

/-- The accesses between two states of a traced machine. -/
def accesses (s t : Vm (Traced 16 Byte M)) : List (Access 16 Byte) :=
  t.ram.trace.drop s.ram.trace.length

/-- **Stack confinement** of one instruction.  A push stores its bytes one
after the other at descending addresses of page one (a block write stores them
from the last one up); a pull reads page one upwards.  The first access of an
instruction is its fetch. -/
def Confined (mn : Mnemonic) (s t : Vm (Traced 16 Byte M)) : Prop :=
  if Pushes mn then
    ((accesses s t).flatMap Access.stores).reverse
      = (pushCells s.rSp (pushed mn s).length).zip (pushed mn s)
  else (accesses s t).tail.flatMap Access.cellsRead = pullCells s.rSp (pulled mn)

/-- Storing a reversed list upwards is storing the list downwards. -/
theorem reverse_zip_eq_iff {α β : Type} {as cs : List α} {bs : List β}
    (has : as.length = bs.length) (hcs : cs.length = bs.length) :
    (as.zip bs.reverse).reverse = cs.zip bs ↔ as.reverse = cs := by
  have hrev : (as.zip bs.reverse).reverse = as.reverse.zip bs := by
    rw [List.zip, List.reverse_zipWith (by simpa using has), List.reverse_reverse]
  rw [hrev]
  refine ⟨fun h => ?_, fun h => by rw [h]⟩
  have hfst := congrArg (List.map Prod.fst) h
  rwa [List.map_fst_zip (by simp [has]), List.map_fst_zip hcs.le] at hfst

/-- A push of the bytes `bs` by one block write. -/
theorem confined_push {mn : Mnemonic} {s t : Vm (Traced 16 Byte M)} {a a' : Word} {n : ℕ}
    {rest : List (Access 16 Byte)} (hmn : Pushes mn)
    (hacc : accesses s t = .read a' n :: .write a (pushed mn s).reverse :: rest)
    (hrest : rest.flatMap Access.stores = []) :
    Confined mn s t ↔
      (blockCells a (pushed mn s).length).reverse = pushCells s.rSp (pushed mn s).length := by
  rw [Confined, if_pos hmn, hacc, List.flatMap_cons, List.flatMap_cons, hrest,
    List.append_nil]
  show ((blockCells a (pushed mn s).reverse.length).zip (pushed mn s).reverse).reverse = _ ↔ _
  rw [List.length_reverse]
  exact reverse_zip_eq_iff (by simp) (by simp [pushCells])

theorem confined_pull {mn : Mnemonic} {s t : Vm (Traced 16 Byte M)} {a a' : Word} {n n' : ℕ}
    (hmn : ¬ Pushes mn) (hacc : accesses s t = [.read a' n', .read a n]) :
    Confined mn s t ↔ blockCells a n = pullCells s.rSp (pulled mn) := by
  rw [Confined, if_neg hmn, hacc]
  show List.flatMap _ [_] = _ ↔ _
  rw [List.flatMap_singleton]
  rfl

/-! ### What they do access -/

/-- The block accesses of the stack cases, after the fetch. -/
def Case.stackAccesses (k : Case) (s : Vm M) : List (Access 16 Byte) :=
  match k with
  | .pha => [.write (addr16 (word s.rSp) 1) (pushed .pha s).reverse]
  | .php => [.write (addr16 (word s.rSp) 1) (pushed .php s).reverse]
  | .jsr => [.write (addr16 (word s.rSp - 1) 1) (pushed .jsr s).reverse]
  | .brk => [.write (addr16 (word s.rSp - 2) 1) (pushed .brk s).reverse, .read 0xfffe 2]
  | .pla | .plp => [.read (addr16 (word (s.rSp + 1)) 1) 1]
  | .rts => [.read (addr16 (word s.rSp + 1) 1) 2]
  | .rti => [.read (addr16 (word s.rSp + 1) 1) 3]
  | _ => []

theorem or_break_bits (p : Byte) : p ||| sbit 5 ||| sbit Bf = p ||| 0x30#8 := by
  rw [BitVec.or_assoc]
  rfl

variable [BlockMem 16 Byte M]

theorem accesses_run (sys : Byte → Vm (Traced 16 Byte M) → Vm (Traced 16 Byte M)) {k : Case}
    {mn : Mnemonic} {m : Mode} (hk : k.instr = some (mn, m)) (hmn : StackInstr mn)
    (s : Vm (Traced 16 Byte M)) :
    accesses s (k.run sys s.fetch.1 s.fetch.2) = .read s.rPc 3 :: k.stackAccesses s := by
  cases k <;> simp only [Case.instr, Option.some.injEq, Prod.mk.injEq, reduceCtorEq] at hk <;>
    obtain ⟨rfl, rfl⟩ := hk
  case pha | php | pla | plp =>
    simp [accesses, Case.run, Case.stackAccesses, Vm.fetch, Vm.vmRamRead, Vm.vmRamWrite,
      Vm.next, Vm.setNZ, pushed, or_break_bits]
  case jsr | brk | rts | rti =>
    simp [accesses, Case.run, Case.stackAccesses, Vm.fetch, Vm.vmRamRead, Vm.vmRamWrite,
      pushed, or_break_bits]
  all_goals exact absurd hmn (by decide)

/-! ### The two agree exactly when the block fits -/

theorem push_one (sp : Byte) :
    (blockCells (addr16 (word sp) 1) 1).reverse = pushCells sp 1 := by
  rw [addr16_push]
  simp [blockCells, pushCells]

theorem pull_one (sp : Byte) : blockCells (addr16 (word (sp + 1)) 1) 1 = pullCells sp 1 := by
  rw [addr16_push]
  simp [blockCells, pullCells]

theorem push_two_iff : ∀ sp : Byte,
    (blockCells (addr16 (word sp - 1) 1) 2).reverse = pushCells sp 2 ↔ sp ≠ 0 := by
  decide +kernel

theorem push_three_iff : ∀ sp : Byte,
    (blockCells (addr16 (word sp - 2) 1) 3).reverse = pushCells sp 3 ↔ 2 ≤ sp.toNat := by
  decide +kernel

theorem pull_two_iff : ∀ sp : Byte,
    blockCells (addr16 (word sp + 1) 1) 2 = pullCells sp 2 ↔ sp ≠ 0xfe := by
  decide +kernel

theorem pull_three_iff : ∀ sp : Byte,
    blockCells (addr16 (word sp + 1) 1) 3 = pullCells sp 3 ↔ sp ≠ 0xfd ∧ sp ≠ 0xfe := by
  decide +kernel

-- with `r_sp` at `$fe` the second byte is pulled from page two
example : blockCells (addr16 (word 0xfe + 1) 1) 2 = [0x01ff, 0x0200] := by decide +kernel

/-- A stack instruction is confined exactly when its block fits in page one. -/
theorem confined_iff (sys : Byte → Vm (Traced 16 Byte M) → Vm (Traced 16 Byte M))
    {s t : Vm (Traced 16 Byte M)} {mn : Mnemonic} {m : Mode} (hmn : StackInstr mn)
    (hop : opcode mn m = some s.fetch.1.op) (ht : vmExec sys s = some t) :
    Confined mn s t ↔ StackFits mn s.rSp := by
  obtain ⟨k, -, hinstr, hexec⟩ := vmExec_opcode sys hop
  have hrun : t = k.run sys s.fetch.1 s.fetch.2 := Option.some.inj (ht.symm.trans hexec)
  have hacc := accesses_run sys hinstr hmn s
  rw [← hrun] at hacc
  cases k <;> simp only [Case.instr, Option.some.injEq, Prod.mk.injEq, reduceCtorEq]
    at hinstr <;> obtain ⟨rfl, rfl⟩ := hinstr
  case pha | php =>
    exact (confined_push (by decide) hacc rfl).trans (iff_of_true (push_one _) trivial)
  case jsr => exact (confined_push (by decide) hacc rfl).trans (push_two_iff _)
  case brk => exact (confined_push (by decide) hacc rfl).trans (push_three_iff _)
  case pla | plp =>
    exact (confined_pull (by decide) hacc).trans (iff_of_true (pull_one _) trivial)
  case rts => exact (confined_pull (by decide) hacc).trans (pull_two_iff _)
  case rti => exact (confined_pull (by decide) hacc).trans (pull_three_iff _)
  all_goals exact absurd hmn (by decide)

end Traced

/-! ### Runs -/

theorem push_mem (b : Byte) (s : State) {a : Word} (ha : ¬ InStackPage a) :
    (s.push b).mem a = s.mem a := by
  refine Function.update_of_ne ?_ _ _
  rintro rfl
  exact ha (inStackPage_stackAddr _)

theorem exec_push_mem {mn : Mnemonic} (hmn : Pushes mn) (m : Mode) (v : Word) (s : State)
    {a : Word} (ha : ¬ InStackPage a) : (exec mn m v s).mem a = s.mem a := by
  cases mn
  case pha | php => exact push_mem _ _ ha
  case jsr => exact (push_mem _ _ ha).trans (push_mem _ _ ha)
  case brk => exact (push_mem _ _ ha).trans ((push_mem _ _ ha).trans (push_mem _ _ ha))
  all_goals exact absurd hmn (by decide)

/-- The instruction about to be executed is a push. -/
def PushAt (s : FlatVm) : Prop :=
  ∃ mn m, opcode mn m = some (s.ram s.rPc) ∧ Pushes mn

/-- If the instruction about to be executed is a push, its block fits. -/
def PushFits (s : FlatVm) : Prop :=
  ∀ mn m, opcode mn m = some (s.ram s.rPc) → Pushes mn → StackFits mn s.rSp

theorem pushes_mode {mn : Mnemonic} {m : Mode} {op : Byte} (hop : opcode mn m = some op)
    (hmn : Pushes mn) : m.pointer = fun _ _ => none := by
  cases mn <;> cases m <;> first | rfl | exact absurd hmn (by decide) | cases hop

/-- A push that fits leaves everything outside page one alone. -/
theorem push_frame (sys : Byte → FlatVm → FlatVm) {s t : FlatVm} (hpush : PushAt s)
    (hfits : PushFits s) (ht : vmExec sys s = some t) {a : Word} (ha : ¬ InStackPage a) :
    t.ram a = s.ram a := by
  obtain ⟨mn, m, hop, hmn⟩ := hpush
  obtain ⟨k, hinstr, hexec⟩ := vmExec_opcode_flat sys hop
  have hrun : k.run sys (FlatVm.cache s) s = t := Option.some.inj (hexec.symm.trans ht)
  have hp : PointerFits m ((FlatVm.cache s).operand m) s.abs := by
    rw [PointerFits, pushes_mode hop hmn]
    exact (Option.some_ne_none _).symm
  have hd : ¬ (s.abs.flags.d ∧ (mn = .adc ∨ mn = .sbc)) := by
    rintro ⟨-, rfl | rfl⟩ <;> exact absurd hmn (by decide)
  have habs := Case.run_abs sys hinstr _ s hp (hfits mn m hop hmn) hd
  rw [hrun] at habs
  show t.abs.mem a = s.abs.mem a
  rw [habs, exec_push_mem hmn m _ _ ha]

/-- **Frame over a run.**  When every push of a run fits, a byte outside page
one is changed by other instructions only. -/
theorem run_frame (sys : Byte → FlatVm → FlatVm) {s t : FlatVm} {us : List FlatVm}
    (h : Run sys s us t) (hfits : ∀ u ∈ us, PushFits u) {a : Word} (ha : ¬ InStackPage a)
    (hother : ∀ u ∈ us, ¬ PushAt u → ∀ v, vmExec sys u = some v → v.ram a = u.ram a) :
    t.ram a = s.ram a := by
  induction h with
  | nil => rfl
  | @cons s s' t us hstep _ ih =>
    have hs' : s'.ram a = s.ram a := by
      by_cases hpush : PushAt s
      · exact push_frame sys hpush (hfits s (by simp)) hstep ha
      · exact hother s (by simp) hpush s' hstep
    rw [← hs']
    exact ih (fun u hu => hfits u (by simp [hu])) fun u hu => hother u (by simp [hu])

/-! ### Confinement -/

/-- **Stack confinement.**  One stack instruction, from any state and over any
memory, is confined exactly when its block fits in page one; and over a run
whose pushes all fit, no push changes a byte outside page one. -/
theorem stack_confinement (M : Type) [BlockMem 16 Byte M]
    (sys : Byte → Vm (Traced 16 Byte M) → Vm (Traced 16 Byte M))
    (sys' : Byte → FlatVm → FlatVm) :
    (∀ (s : Vm (Traced 16 Byte M)) (mn : Mnemonic) (m : Mode), StackInstr mn →
      opcode mn m = some s.fetch.1.op →
      ∃ t, vmExec sys s = some t ∧ (Confined mn s t ↔ StackFits mn s.rSp)) ∧
    (∀ (s t : FlatVm) (us : List FlatVm), Run sys' s us t → (∀ u ∈ us, PushFits u) →
      ∀ a, ¬ InStackPage a →
        (∀ u ∈ us, ¬ PushAt u → ∀ v, vmExec sys' u = some v → v.ram a = u.ram a) →
        t.ram a = s.ram a) := by
  refine ⟨fun s mn m hmn hop => ?_, fun s t us h hfits a ha hother => ?_⟩
  · obtain ⟨k, hk, -⟩ := vmSwitch_opcode hop
    have ht : vmExec sys s = some (k.run sys s.fetch.1 s.fetch.2) := by
      rw [vmExec, hk]
      rfl
    exact ⟨_, ht, confined_iff sys hmn hop ht⟩
  · exact run_frame sys' h hfits ha hother

/-- Two `PHA` with `r_sp = 0`, out of a memory full of `$48`: the second wraps to
`$01ff`, and the program stays what it was. -/
theorem stack_confinement_pha :
    let s : Vm (Traced 16 Byte (Word → Byte)) := ⟨7, 0, 0, 0, 0, 0x1a00, ⟨fun _ => 0x48, []⟩⟩
    let s' : FlatVm := ⟨7, 0, 0, 0, 0, 0x1a00, fun _ => 0x48⟩
    (∃ t, vmExec (fun _ => id) s = some t ∧ (Confined .pha s t ↔ StackFits .pha 0)) ∧
      ∃ t, vmExec (fun _ => id) s' = some t ∧ ∃ t', vmExec (fun _ => id) t = some t' ∧
        t'.ram 0x1a00 = 0x48 := by
  -- PHA fits at every stack pointer
  have hpha : ∀ u : FlatVm, u.ram u.rPc = 0x48 → PushAt u ∧ PushFits u := by
    intro u hu
    have hop : opcode .pha .implied = some (u.ram u.rPc) := by rw [hu]; rfl
    refine ⟨⟨.pha, .implied, hop, by decide⟩, fun mn m hop' _ => ?_⟩
    obtain ⟨rfl, rfl⟩ := opcode_injective hop hop'
    trivial
  have hconf := stack_confinement (Word → Byte) (fun _ => id) (fun _ => id)
  have ht : vmExec (fun _ => id) (⟨7, 0, 0, 0, 0, 0x1a00, fun _ => 0x48⟩ : FlatVm)
      = some ⟨7, 0, 0, 0xff, 0, 0x1a01, writeBlock (fun _ => 0x48) 0x0100 [7]⟩ := rfl
  have ht' : vmExec (fun _ => id)
      (⟨7, 0, 0, 0xff, 0, 0x1a01, writeBlock (fun _ => 0x48) 0x0100 [7]⟩ : FlatVm)
      = some ⟨7, 0, 0, 0xfe, 0, 0x1a02,
          writeBlock (writeBlock (fun _ => 0x48) 0x0100 [7]) 0x01ff [7]⟩ := rfl
  have hrun := Run.cons ht (.cons ht' (.nil _))
  refine ⟨hconf.1 _ .pha .implied (by decide) rfl, _, ht, _, ht', ?_⟩
  refine hconf.2 _ _ _ hrun ?_ 0x1a00 (by decide) ?_
  · simp only [List.mem_cons, List.not_mem_nil, or_false]
    rintro u (rfl | rfl)
    · exact (hpha _ rfl).2
    · exact (hpha _ rfl).2
  · simp only [List.mem_cons, List.not_mem_nil, or_false]
    rintro u (rfl | rfl) hu
    · exact absurd (hpha _ rfl).1 hu
    · exact absurd (hpha _ rfl).1 hu

/-- `JSR $2020` with `r_sp = 0`, out of a memory full of `$20`, stores the return
address at `$ffff` and `$0000`. -/
theorem jsr_not_confined :
    let s : Vm (Traced 16 Byte (Word → Byte)) :=
      ⟨0, 0, 0, 0, 0, 0x1a00, ⟨fun _ => 0x20, []⟩⟩
    ∃ t, vmExec (fun _ => id) s = some t ∧ ¬ Confined .jsr s t ∧
      t.ram.mem 0xffff = 0x02 ∧ t.ram.mem 0x0000 = 0x1a := by
  refine ⟨_, rfl, ?_, rfl, rfl⟩
  rw [confined_iff (fun _ => id) (by decide) (show opcode .jsr .absolute = _ from rfl) rfl]
  exact fun h => h rfl

end Dan64
