/-
Dan64/VmPointer.lean

The pointers of the modes (zp,X) and (zp),Y.

The source masks the address of a pointer to a byte and then reads both bytes
of it as one block, so that the second byte of a pointer at $ff is the one at
$0100.  A traced memory tells the two apart whatever the bytes are
(`pointerInPageZero_iff`).
-/
import Dan64.VmStack

namespace Dan64

open BlockMem
open Mos6502 (State Mnemonic Mode opcode)

/-- A flat memory with a record of its accesses. -/
abbrev TracedVm := Vm (Traced 16 Byte (Word → Byte))

/-- The machine without the record. -/
def TracedVm.untraced (s : TracedVm) : FlatVm :=
  ⟨s.rA, s.rX, s.rY, s.rSp, s.rS, s.rPc, s.ram.mem⟩

/-- The modes with a pointer in page zero. -/
def Indirect (m : Mode) : Prop := m = .indexedIndirect ∨ m = .indirectIndexed

/-- What an instruction does with its data: a store, or one byte read. -/
def dataAccess (mn : Mnemonic) (a : Word) (rA : Byte) : Access 16 Byte :=
  if mn = .sta then .write a [rA] else .read a 1

/-- **Zero-page pointers.**  Between the fetch and the access to the data at the
documented address, the two bytes of the pointer are read, both from page zero. -/
def PointerInPageZero (mn : Mnemonic) (m : Mode) (s t : TracedVm) : Prop :=
  let u := s.untraced.abs
  ∃ p ptr, m.pointer (u.operand m) u = some p ∧
    accesses s t = [.read s.rPc 3, ptr, dataAccess mn (m.addr (u.operand m) u) s.rA] ∧
    ptr.cellsRead = [p.setWidth 16, (p + 1).setWidth 16]

/-! ### What the cases access -/

/-- A fetch over the recorded memory. -/
theorem fetch_traced (s : TracedVm) :
    s.fetch = (FlatVm.cache s.untraced,
      { s with ram := ⟨s.ram.mem, s.ram.trace ++ [.read s.rPc 3]⟩ }) := by
  simp [Vm.fetch, Vm.vmRamRead, FlatVm.cache, TracedVm.untraced]

/-- The pointer is fetched as one block. -/
theorem addr_traced {a : Addressing} (ha : Indirect a.mode) (c : OpCache) (s : TracedVm) :
    ∃ p, a.mode.pointer (c.operand a.mode) s.untraced.abs = some p ∧
      a.addr c s = ((a.addr c s.untraced).1,
        { s with ram := ⟨s.ram.mem, s.ram.trace ++ [.read (word p) 2]⟩ }) := by
  cases a with
  | indX =>
    refine ⟨c.b1 + s.rX, ?_, ?_⟩
    · simp [Addressing.mode, OpCache.operand, Mode.length, Mode.pointer, setWidth_word,
        TracedVm.untraced]
    · simp [Addressing.addr, word_add_and, Vm.vmRamRead, TracedVm.untraced]
  | indY =>
    refine ⟨c.b1, ?_, ?_⟩
    · simp [Addressing.mode, OpCache.operand, Mode.length, Mode.pointer, setWidth_word]
    · simp [Addressing.addr, Vm.vmRamRead, TracedVm.untraced]
  | zp | zpX | zpY | abs | absX | absY => rcases ha with h | h <;> cases h

/-- Read one byte through a pointer. -/
theorem value_traced {a : Addressing} (ha : Indirect a.mode) (c : OpCache) (s : TracedVm) :
    ∃ p, a.mode.pointer (c.operand a.mode) s.untraced.abs = some p ∧
      ((Src.at a).value c s).2 = { s with
        ram := ⟨s.ram.mem,
          s.ram.trace ++ [.read (word p) 2, .read (a.addr c s.untraced).1 1]⟩ } := by
  obtain ⟨p, hp, haddr⟩ := addr_traced ha c s
  refine ⟨p, hp, ?_⟩
  simp [Src.value, haddr, Vm.vmRamRead]

theorem ram_adc (s : TracedVm) (t : Byte) : (s.adc t).ram = s.ram := by
  rw [Vm.adc]
  split
  · rfl
  · rfl

theorem ram_sbc (s : TracedVm) (t : Byte) : (s.sbc t).ram = s.ram := by
  rw [Vm.sbc]
  split
  · rfl
  · rfl

/-- The accesses of the sixteen opcodes. -/
theorem accesses_indirect (sys : Byte → TracedVm → TracedVm) {k : Case} {mn : Mnemonic}
    {m : Mode} {op : Byte} (hk : k.instr = some (mn, m)) (hop : opcode mn m = some op)
    (hm : Indirect m) (s : TracedVm) :
    ∃ (a : Addressing) (p : Byte), a.mode = m ∧
      m.pointer (s.untraced.abs.operand m) s.untraced.abs = some p ∧
      accesses s (k.run sys s.fetch.1 s.fetch.2) = [.read s.rPc 3, .read (word p) 2,
        dataAccess mn (a.addr (FlatVm.cache s.untraced) s.untraced).1 s.rA] := by
  rw [fetch_traced, ← operand_cache]
  cases k
  case cmp o | eor o | and o | ora o | lda o | adc o | sbc o =>
    obtain ⟨rfl, rfl⟩ := Prod.mk.inj (Option.some.inj hk)
    rcases o with - | a
    · rcases hm with h | h <;> cases h
    · obtain ⟨p, hp, hvalue⟩ := value_traced hm (FlatVm.cache s.untraced)
        { s with ram := ⟨s.ram.mem, s.ram.trace ++ [.read s.rPc 3]⟩ }
      refine ⟨a, p, rfl, hp, ?_⟩
      simp only [accesses, Case.run, Vm.next, Vm.setNZ, Vm.compare, Vm.setNZC, ram_adc, ram_sbc,
        hvalue]
      simp [dataAccess, TracedVm.untraced]
  case sta a =>
    obtain ⟨rfl, rfl⟩ := Prod.mk.inj (Option.some.inj hk)
    obtain ⟨p, hp, haddr⟩ := addr_traced hm (FlatVm.cache s.untraced)
      { s with ram := ⟨s.ram.mem, s.ram.trace ++ [.read s.rPc 3]⟩ }
    refine ⟨a, p, rfl, hp, ?_⟩
    simp only [accesses, Case.run, Vm.next, haddr, Vm.vmRamWrite]
    simp [dataAccess, TracedVm.untraced]
  -- the other mnemonics have no such mode
  all_goals
    rcases hm with rfl | rfl <;>
      simp only [Case.instr, Option.some.injEq, Prod.mk.injEq, reduceCtorEq, and_false] at hk <;>
      (obtain ⟨rfl, -⟩ := hk; cases hop)

/-! ### The pointer stays in page zero -/

/-- Two bytes of page zero one after the other, unless the first is the last. -/
theorem cells_pointer_iff (p : Byte) :
    blockCells (word p) 2 = [p.setWidth 16, (p + 1).setWidth 16] ↔ p ≠ 0xff := by
  revert p
  decide +kernel

/-- **Zero-page pointers stay in page zero** exactly if the pointer is not at $ff. -/
theorem pointerInPageZero_iff (sys : Byte → TracedVm → TracedVm) (s : TracedVm) (mn : Mnemonic)
    (m : Mode) (hm : Indirect m) (hop : opcode mn m = some (s.ram.mem s.rPc)) :
    ∃ t, vmExec sys s = some t ∧
      (PointerInPageZero mn m s t ↔
        m.pointer (s.untraced.abs.operand m) s.untraced.abs ≠ some 0xff) := by
  have hcode : s.fetch.1.op = s.ram.mem s.rPc := by
    rw [fetch_traced]
    rfl
  obtain ⟨k, -, hinstr, hexec⟩ := vmExec_opcode sys (hcode ▸ hop)
  obtain ⟨a, p, rfl, hp, hacc⟩ := accesses_indirect sys hinstr hop hm s
  refine ⟨_, hexec, ?_⟩
  constructor
  · rintro ⟨p', ptr, hp', hacc', hcells⟩ hff
    obtain rfl := Option.some.inj (hp'.symm.trans hff)
    obtain rfl := Option.some.inj (hp'.symm.trans hp)
    rw [hacc] at hacc'
    obtain rfl : Access.read (word 0xff) 2 = ptr := by
      injection hacc' with _ htail
      injection htail
    exact (cells_pointer_iff 0xff).mp hcells rfl
  · intro hff
    refine ⟨p, .read (word p) 2, hp, ?_, ?_⟩
    · rw [hacc, Addressing.addr_flat]
      · rw [operand_cache]
      · rw [operand_cache]
        exact hff
    · refine (cells_pointer_iff p).mpr fun h => hff ?_
      rw [hp, h]

/-- `LDA ($72,X)` with X = $f0, out of a memory full of $72: a pointer at $62. -/
theorem pointerInPageZero_iff_lda :
    let s : TracedVm := ⟨0, 0xf0, 0, 0xff, 0, 0x1a00,
      ⟨Function.update (fun _ => 0x72) 0x1a00 0xa1, []⟩⟩
    ∃ t, vmExec (fun _ => id) s = some t ∧ PointerInPageZero .lda .indexedIndirect s t := by
  intro s
  obtain ⟨t, ht, hiff⟩ := pointerInPageZero_iff (fun _ => id) s .lda .indexedIndirect (.inl rfl)
    (by decide)
  exact ⟨t, ht, hiff.mpr (by decide)⟩

/-- `LDA ($ff),Y` takes the second byte of its pointer from $0100, the bottom of the
stack, and reads $6000 instead of $5000. -/
theorem pointer_not_inPageZero :
    let mem : Word → Byte := fun a =>
      if a = 0x1a00 then 0xb1 else if a = 0x1a01 then 0xff
      else if a = 0x0000 then 0x50 else if a = 0x0100 then 0x60
      else if a = 0x5000 then 1 else if a = 0x6000 then 2 else 0
    let s : TracedVm := ⟨0, 0, 0, 0xff, 0, 0x1a00, ⟨mem, []⟩⟩
    s.untraced.abs.operand .indirectIndexed = 0xff ∧
      Mode.addr .indirectIndexed 0xff s.untraced.abs = 0x5000 ∧
      ∃ t, vmExec (fun _ => id) s = some t ∧ t.rA = 2 ∧
        ¬ PointerInPageZero .lda .indirectIndexed s t := by
  intro mem s
  obtain ⟨t, ht, hiff⟩ := pointerInPageZero_iff (fun _ => id) s .lda .indirectIndexed (.inr rfl)
    (by decide)
  have hA : (vmExec (fun _ => id) s).map Vm.rA = some 2 := by decide
  rw [ht] at hA
  exact ⟨by decide, by decide, t, ht, Option.some.inj hA, fun h => hiff.mp h (by decide)⟩

end Dan64
