/-
Dan64/DasmVm.lean

What the assembler emits, executed by the virtual machine.

A line of a form assembles to an opcode and the operand (`dasmAs_form`), and
`vm_exec` executes the instruction of that opcode (`Case.run_executes`).  So a
form performs what it denotes as soon as its row has its opcode and its block
stays in page one.  Each of the other forms has a state that tells the two
instructions apart: `zpXState` makes `nn,X` and `(nn,X)` read different bytes,
`stackState` keeps what the pushes and pulls outside page one miss from being
there by accident.
-/
import Dan64.DasmForm
import Dan64.VmStack

namespace Dan64

open BlockMem AddrEnum
open Mos6502 (Flags State Mnemonic Mode opcode exec stackAddr Executes)

/-! ### Performing a form -/

/-- The bytes are in memory where the program counter is. -/
def Placed (bs : List Byte) (s : FlatVm) : Prop := readBlock s.ram s.rPc bs.length = bs

def Form.PointerFits (f : Form) (v : Word) (s : FlatVm) : Prop :=
  match f with
  | .instr _ m => Dan64.PointerFits m v s.abs
  | .sys => True

def Form.StackFits (f : Form) (sp : Byte) : Prop :=
  match f with
  | .instr mn _ => Dan64.StackFits mn sp
  | .sys => True

/-- What a form does: the documented instruction, or the system call. -/
def Form.Executes (sys : Byte → FlatVm → FlatVm) (f : Form) (v : Word) (s t : FlatVm) : Prop :=
  match f with
  | .instr mn m => Mos6502.Executes mn m v s.abs t.abs
  | .sys => t = (sys s.rA s).next 1

/-- A line performs a form: it is accepted, and its bytes, executed at their
address in any state, do what the form does. -/
def Performs (past : OpRow) (sys : Byte → FlatVm → FlatVm) (f : Form) (v : ℕ) (addr : Word)
    (sp : Byte) (line : Text) : Prop :=
  ∃ n bs, dasmAs past addr line = ⟨.ok n, bs⟩ ∧
    ∀ s : FlatVm, s.rPc = addr → s.rSp = sp → Placed bs s →
      f.PointerFits (BitVec.ofNat 16 v) s →
      ∃ t, vmExec sys s = some t ∧ f.Executes sys (BitVec.ofNat 16 v) s t

/-! ### Executing the emitted bytes -/

/-- The emitted bytes of a mode hold its opcode and operand. -/
theorem Placed.operand {s : FlatVm} {op : Byte} {m : Mode} {v : ℕ} (hv : v < m.range)
    (h : Placed (op :: operandBytes (addrEnum m) (BitVec.ofNat 16 v)) s) :
    s.ram s.rPc = op ∧ s.abs.operand m = BitVec.ofNat 16 v := by
  have hbyte (hv : v < 256) (b : Byte) (hb : b = (BitVec.ofNat 16 v).setWidth 8) :
      b.setWidth 16 = BitVec.ofNat 16 v := by
    bv_omega
  refine ⟨List.head_eq_of_cons_eq h, ?_⟩
  cases m
  case implied | accumulator =>
    obtain rfl : v = 0 := Nat.lt_one_iff.mp hv
    rfl
  case immediate | zeroPage | zeroPageX | zeroPageY | indexedIndirect | indirectIndexed |
      relative =>
    have hb := List.head_eq_of_cons_eq (List.tail_eq_of_cons_eq h)
    exact hbyte hv _ hb
  case absolute | absoluteX | absoluteY | indirect =>
    have ht := List.tail_eq_of_cons_eq h
    have hb1 := List.head_eq_of_cons_eq ht
    have hb2 := List.head_eq_of_cons_eq (List.tail_eq_of_cons_eq ht)
    have hpc : s.rPc + 1 + 1 = s.rPc + 2 := by bv_omega
    show s.ram (s.rPc + 2) ++ s.ram (s.rPc + 1) = BitVec.ofNat 16 v
    rw [← hpc, hb1, hb2, append_bytes]

theorem vmExec_instr (sys : Byte → FlatVm → FlatVm) {s : FlatVm} {mn : Mnemonic} {m : Mode}
    (hop : opcode mn m = some (s.ram s.rPc)) (hp : PointerFits m (s.abs.operand m) s.abs)
    (hs : StackFits mn s.rSp) :
    ∃ t, vmExec sys s = some t ∧ Executes mn m (s.abs.operand m) s.abs t.abs := by
  obtain ⟨k, hinstr, hexec⟩ := vmExec_opcode_flat sys hop
  refine ⟨_, hexec, ?_⟩
  rw [← operand_cache] at hp ⊢
  exact Case.run_executes sys hinstr _ s hp hs

/-- A form whose row has its opcode performs what it denotes. -/
theorem performs_of_row {past : OpRow} (hpast : PastTable past)
    (sys : Byte → FlatVm → FlatVm) {f : Form} {v : ℕ} (hf : f.Denotes v) (addr : Word)
    {sp : Byte} {line : Text} (hline : Writes f.mne f.mode.format v line)
    (hlen : (skipWhitespace line).length < 256) (hmis : ¬ f.Misrowed) (hs : f.StackFits sp) :
    Performs past sys f v addr sp line := by
  have has := dasmAs_form hpast hf addr hline hlen
  cases f with
  | sys =>
    refine ⟨_, _, has, fun s _ _ hplaced _ => ⟨_, ?_, rfl⟩⟩
    have hop : s.ram s.rPc = 0x02#8 := List.head_eq_of_cons_eq hplaced
    rw [vmExec_flat, hop]
    rfl
  | instr mn m =>
    obtain ⟨hhas, -, hv, -⟩ := hf
    obtain ⟨op, hop⟩ := Option.isSome_iff_exists.mp hhas
    -- the row that is found is the one of the instruction
    have hrow : (Form.instr mn m).row = some op := (if_neg hmis).trans hop
    rw [hrow] at has
    refine ⟨_, _, has, fun s hpc hsp hplaced hp => ?_⟩
    obtain ⟨hram, hoperand⟩ := Placed.operand hv hplaced
    subst hsp
    have hp' : PointerFits m (s.abs.operand m) s.abs := by
      rw [hoperand]
      exact hp
    obtain ⟨t, ht, hexec⟩ := vmExec_instr sys (hop.trans (congrArg some hram.symm)) hp' hs
    rw [hoperand] at hexec
    exact ⟨t, ht, hexec⟩

/-! ### States that tell instructions apart -/

/-- A state about to execute bytes, over a memory. -/
def stateAt (addr : Word) (bs : List Byte) (a x sp : Byte) (m : Word → Byte) : FlatVm :=
  ⟨a, x, 0, sp, 0, addr, writeBlock m addr bs⟩

theorem placed_stateAt (addr : Word) {bs : List Byte} (h : bs.length ≤ 3) (a x sp : Byte)
    (m : Word → Byte) : Placed bs (stateAt addr bs a x sp m) :=
  readBlock_writeBlock (h.trans (by decide))

/-- Outside the bytes the memory is what it was. -/
theorem ram_stateAt {addr w : Word} {bs : List Byte} {a x sp : Byte} {m : Word → Byte}
    (h : ∀ i < bs.length, w ≠ addr + BitVec.ofNat 16 i) :
    (stateAt addr bs a x sp m).ram w = m w :=
  writeBlock_of_forall_ne h

/-- The misrowed instructions tell the operands 1 and 2 apart, with 1 in the
accumulator and the carry clear. -/
theorem exec_ne {mn : Mnemonic} (hmn : mn ∈ misrowed) {m m' : Mode} {v : Word} {s : State}
    (ha : s.a = 1) (hf : s.flags = .ofByte 0) (hb : m.value v s = 1) (hb' : m'.value v s = 2) :
    exec mn m v s ≠ exec mn m' v s := by
  intro h
  have hz := congrArg (fun t : State => (t.a, t.flags.z)) h
  simp only [misrowed, List.mem_cons, List.not_mem_nil, or_false] at hmn
  rcases hmn with rfl | rfl | rfl | rfl | rfl | rfl <;>
    simp [exec, hb, hb', ha, hf, State.setNZ, State.addBinary, State.subBinary, State.compare,
      Flags.ofByte] at hz

/-- Page-zero cells and a target that two bytes of program do not overlap. -/
theorem exists_apart (addr : Word) : ∃ p hi : Byte, p ≠ 0xff ∧ hi ≠ 0 ∧
    ∀ w ∈ [p.setWidth 16, (p + 1).setWidth 16, hi ++ 0x01#8],
      ∀ i < 2, w ≠ addr + BitVec.ofNat 16 i := by
  -- the cells are far from the program, on the other side of $80
  obtain ⟨p, hp, hpa⟩ : ∃ p : Byte, p ≠ 0xff ∧ ∀ w ∈ [p.setWidth 16, (p + 1).setWidth 16],
      w ≠ addr ∧ w ≠ addr + 1#16 := by
    by_cases h : addr.toNat < 0x80
    · refine ⟨0xa0, by decide, ?_⟩
      simp only [List.mem_cons, List.not_mem_nil, or_false, forall_eq_or_imp, forall_eq]
      bv_omega
    · refine ⟨0x10, by decide, ?_⟩
      simp only [List.mem_cons, List.not_mem_nil, or_false, forall_eq_or_imp, forall_eq]
      bv_omega
  obtain ⟨hi, hne, hhi⟩ :
      ∃ hi : Byte, hi ≠ 0 ∧ hi ++ 0x01#8 ≠ addr ∧ hi ++ 0x01#8 ≠ addr + 1#16 := by
    by_cases h : addr.toNat < 0x8000
    · refine ⟨0xaa, by decide, ?_⟩
      show (0xaa01#16 : Word) ≠ addr ∧ (0xaa01#16 : Word) ≠ addr + 1#16
      bv_omega
    · refine ⟨0x55, by decide, ?_⟩
      show (0x5501#16 : Word) ≠ addr ∧ (0x5501#16 : Word) ≠ addr + 1#16
      bv_omega
  refine ⟨p, hi, hp, hne, fun w hw i hilt => ?_⟩
  have hw' : w ≠ addr ∧ w ≠ addr + 1#16 := by
    simp only [List.mem_cons, List.not_mem_nil, or_false] at hw hpa
    rcases hw with rfl | rfl | rfl
    · exact hpa _ (.inl rfl)
    · exact hpa _ (.inr rfl)
    · exact hhi
  rcases i with - | - | i
  · simpa using hw'.1
  · exact hw'.2
  · omega

/-- A state about to execute two bytes in which `nn,X` is 1 and `(nn,X)` is 2. -/
theorem exists_zpX_state (addr v : Word) (sp : Byte) {bs : List Byte} (hbs : bs.length = 2) :
    ∃ s : FlatVm, s.rPc = addr ∧ s.rSp = sp ∧ Placed bs s ∧ s.abs.a = 1 ∧
      s.abs.flags = .ofByte 0 ∧ Mode.zeroPageX.value v s.abs = 1 ∧
      Mode.indexedIndirect.value v s.abs = 2 ∧ PointerFits .indexedIndirect v s.abs := by
  obtain ⟨p, hi, hp, hne, hapart⟩ := exists_apart addr
  simp only [List.mem_cons, List.not_mem_nil, or_false, forall_eq_or_imp, forall_eq, ← hbs]
    at hapart
  obtain ⟨hp₀, hp₁, ht⟩ := hapart
  -- the pointer is at `p` and goes to a cell outside page zero
  let m : Word → Byte := fun w =>
    if w = p.setWidth 16 then 1 else if w = (p + 1).setWidth 16 then hi else 2
  let s := stateAt addr bs 1 (p - v.setWidth 8) sp m
  have hx : v.setWidth 8 + s.abs.x = p := by
    show v.setWidth 8 + (p - v.setWidth 8) = p
    ring
  have hptr : s.ram (p.setWidth 16) = 1 := by
    rw [ram_stateAt hp₀]
    exact if_pos rfl
  have hptr' : s.ram ((p + 1).setWidth 16) = hi := by
    rw [ram_stateAt hp₁]
    refine (if_neg ?_).trans (if_pos rfl)
    bv_omega
  have htarget : s.ram (hi ++ 0x01#8) = 2 := by
    have hfar (q : Byte) : hi ++ 0x01#8 ≠ q.setWidth 16 := by
      intro heq
      have h := congrArg BitVec.toNat heq
      rw [toNat_append_byte, BitVec.toNat_setWidth_of_le (by decide)] at h
      bv_omega
    rw [ram_stateAt ht]
    exact (if_neg (hfar _)).trans (if_neg (hfar _))
  refine ⟨s, rfl, rfl, placed_stateAt addr (hbs.trans_le (by decide)) _ _ _ _, rfl, rfl,
    ?_, ?_, ?_⟩
  · show s.ram ((v.setWidth 8 + s.abs.x).setWidth 16) = 1
    rw [hx, hptr]
  · show s.ram (s.ram ((v.setWidth 8 + s.abs.x + 1).setWidth 16) ++
      s.ram ((v.setWidth 8 + s.abs.x).setWidth 16)) = 2
    rw [hx, hptr, hptr']
    exact htarget
  · show some (v.setWidth 8 + s.abs.x) ≠ some 0xff
    rw [hx]
    exact fun h => hp (Option.some.inj h)

/-- **`nn,X` under the opcode of `(nn,X)`** is not performed. -/
theorem not_performs_zpX {past : OpRow} (hpast : PastTable past)
    (sys : Byte → FlatVm → FlatVm) {mn : Mnemonic} {v : ℕ} (hmn : mn ∈ misrowed)
    (hf : (Form.instr mn .zeroPageX).Denotes v) (addr : Word) (sp : Byte) {line : Text}
    (hline : Writes (mneText mn) .directX v line) (hlen : (skipWhitespace line).length < 256) :
    ¬ Performs past sys (.instr mn .zeroPageX) v addr sp line := by
  rintro ⟨n, bs, has, hrun⟩
  have hmn' := hmn
  simp only [misrowed, List.mem_cons, List.not_mem_nil, or_false] at hmn'
  obtain ⟨op, hop⟩ : ∃ op, opcode mn .indexedIndirect = some op := by
    rcases hmn' with rfl | rfl | rfl | rfl | rfl | rfl <;> exact ⟨_, rfl⟩
  have hstack (sp : Byte) : StackFits mn sp := by
    rcases hmn' with rfl | rfl | rfl | rfl | rfl | rfl <;> trivial
  have hrow : (Form.instr mn .zeroPageX).row = some op :=
    (if_pos (.inl ⟨hmn, .inl rfl⟩)).trans hop
  have has' := dasmAs_form hpast hf addr hline hlen
  rw [has, hrow] at has'
  obtain rfl : bs = op :: operandBytes AT_INDEX_IND (BitVec.ofNat 16 v) :=
    congrArg AsResult.out has'
  obtain ⟨s, hpc, hsp, hplaced, ha, hflags, hb, hb', hpointer⟩ :=
    @exists_zpX_state addr (BitVec.ofNat 16 v) sp (op :: operandBytes AT_INDEX_IND _) rfl
  obtain ⟨hram, hoperand⟩ := @Placed.operand s op .indexedIndirect v hf.2.2.1 hplaced
  rw [← hoperand] at hpointer
  obtain ⟨t, ht, hexec⟩ :=
    vmExec_instr sys (hop.trans (congrArg some hram.symm)) hpointer (hstack _)
  obtain ⟨t', ht', hexec'⟩ := hrun s hpc hsp hplaced nofun
  obtain rfl : t = t' := Option.some.inj (ht.symm.trans ht')
  -- the decimal flag is clear, so both are `exec`
  have hd : ¬ (s.abs.flags.d = true ∧ (mn = .adc ∨ mn = .sbc)) := by
    rintro ⟨h, -⟩
    rw [hflags] at h
    exact absurd h (by decide)
  rw [hoperand, Mos6502.Executes, if_neg hd] at hexec
  rw [Form.Executes, Mos6502.Executes, if_neg hd] at hexec'
  exact exec_ne hmn ha hflags hb hb' (hexec'.symm.trans hexec)

/-! ### Stack instructions whose block leaves page one -/

theorem pushWord_mem (w : Word) (s : State) :
    (s.pushWord w).mem (stackAddr s.sp) = w.extractLsb' 8 8 ∧
      (s.pushWord w).mem (stackAddr (s.sp - 1)) = w.setWidth 8 := by
  have hne : stackAddr s.sp ≠ stackAddr (s.sp - 1) := stackAddr_injective.ne (by bv_omega)
  refine ⟨?_, Function.update_self _ _ _⟩
  exact (Function.update_of_ne hne _ _).trans (Function.update_self _ _ _)

/-- The documented `JSR` and `BRK` push a word first, whatever the memory is. -/
theorem exec_pushes {mn : Mnemonic} (hmn : mn = .jsr ∨ mn = .brk) (m : Mode) (v : Word)
    (s : State) : ∃ w : Word, ∀ mem : Word → Byte,
      (exec mn m v { s with mem := mem }).mem (stackAddr s.sp) = w.extractLsb' 8 8 ∧
        (exec mn m v { s with mem := mem }).mem (stackAddr (s.sp - 1)) = w.setWidth 8 := by
  let s' (mem : Word → Byte) : State :=
    { s with mem := mem, pc := s.pc + BitVec.ofNat 16 m.length }
  rcases hmn with rfl | rfl
  · refine ⟨s.pc + BitVec.ofNat 16 m.length - 1, fun mem => ?_⟩
    have hexec : (exec .jsr m v { s with mem := mem }).mem
        = ((s' mem).pushWord (s.pc + BitVec.ofNat 16 m.length - 1)).mem := rfl
    rw [hexec]
    exact pushWord_mem _ (s' mem)
  · refine ⟨s.pc + BitVec.ofNat 16 m.length + 1, fun mem => ?_⟩
    have hexec : (exec .brk m v { s with mem := mem }).mem
        = Function.update ((s' mem).pushWord (s.pc + BitVec.ofNat 16 m.length + 1)).mem
          (stackAddr (s.sp - 1 - 1)) s.flags.toByte := rfl
    -- the status goes below the word
    have hne : stackAddr s.sp ≠ stackAddr (s.sp - 1 - 1) := stackAddr_injective.ne (by bv_omega)
    have hne' : stackAddr (s.sp - 1) ≠ stackAddr (s.sp - 1 - 1) :=
      stackAddr_injective.ne (by bv_omega)
    rw [hexec, Function.update_of_ne hne, Function.update_of_ne hne']
    exact pushWord_mem _ (s' mem)

theorem exists_ne_ne (x y : Byte) : ∃ b : Byte, b ≠ x ∧ b ≠ y := by
  by_cases h₀ : x ≠ 0 ∧ y ≠ 0
  · exact ⟨0, h₀.1.symm, h₀.2.symm⟩
  · by_cases h₁ : x ≠ 1 ∧ y ≠ 1
    · exact ⟨1, h₁.1.symm, h₁.2.symm⟩
    · refine ⟨2, ?_⟩
      bv_omega

section Stack

variable {past : OpRow} (hpast : PastTable past) (sys : Byte → FlatVm → FlatVm)
  {mn : Mnemonic} {m : Mode} {v : ℕ} (hf : (Form.instr mn m).Denotes v) {addr : Word}
  {sp : Byte} {line : Text} (hline : Writes (mneText mn) (addrEnum m).format v line)
  (hlen : (skipWhitespace line).length < 256)
  (hperf : Performs past sys (.instr mn m) v addr sp line)
include hpast hf hline hlen hperf

/-- What a performed stack instruction says about every memory. -/
theorem Performs.run (hmn : StackInstr mn) {op : Byte} (hop : opcode mn m = some op) {k : Case}
    (hk : vmSwitch op = some k) (mem : Word → Byte) :
    let s := stateAt addr (op :: operandBytes (addrEnum m) (BitVec.ofNat 16 v)) 0 0 sp mem
    (k.run sys (FlatVm.cache s) s).abs = exec mn m (BitVec.ofNat 16 v) s.abs := by
  obtain ⟨n, bs, has, hrun⟩ := hperf
  -- the stack instructions have the right rows
  have hmis : ¬ (Form.instr mn m).Misrowed := by
    rintro (⟨h, -⟩ | ⟨rfl, -⟩)
    · simp only [misrowed, List.mem_cons, List.not_mem_nil, or_false] at h
      rcases h with rfl | rfl | rfl | rfl | rfl | rfl <;> exact absurd hmn (by decide)
    · exact absurd hmn (by decide)
  have hrow : (Form.instr mn m).row = some op := (if_neg hmis).trans hop
  have has' := dasmAs_form hpast hf addr hline hlen
  rw [has, hrow] at has'
  obtain rfl : bs = op :: operandBytes (addrEnum m) (BitVec.ofNat 16 v) :=
    congrArg AsResult.out has'
  intro s
  have hplaced : Placed (op :: operandBytes (addrEnum m) (BitVec.ofNat 16 v)) s := by
    apply placed_stateAt
    rw [List.length_cons, length_operandBytes, length_addrEnum]
    cases m <;> decide
  obtain ⟨hram, -⟩ := Placed.operand hf.2.2.1 hplaced
  -- no stack instruction goes through a pointer
  have hpointer : PointerFits m (BitVec.ofNat 16 v) s.abs := by
    have hnone : m.pointer = fun _ _ => none := by
      cases mn <;> cases m <;> first | rfl | exact absurd hmn (by decide) | cases hop
    rw [PointerFits, hnone]
    exact (Option.some_ne_none _).symm
  obtain ⟨t, ht, hexec⟩ := hrun s rfl rfl hplaced hpointer
  rw [vmExec_flat, hram, hk] at ht
  obtain rfl : k.run sys (FlatVm.cache s) s = t := Option.some.inj ht
  have hd : ¬ (s.abs.flags.d = true ∧ (mn = .adc ∨ mn = .sbc)) := by
    rintro ⟨-, rfl | rfl⟩ <;> exact absurd hmn (by decide)
  rwa [Form.Executes, Mos6502.Executes, if_neg hd] at hexec

/-- A push that leaves page one alone is not the documented one. -/
theorem Performs.push (hmn : mn = .jsr ∨ mn = .brk) {op : Byte} (hop : opcode mn m = some op)
    {k : Case} (hk : vmSwitch op = some k)
    (hpage : ∀ (c : OpCache) (s : FlatVm), s.rSp = sp → ∀ w, InStackPage w →
      (k.run sys c s).ram w = s.ram w)
    (hapart : ∃ w ∈ [stackAddr sp, stackAddr (sp - 1)],
      ∀ i < m.length, w ≠ addr + BitVec.ofNat 16 i) : False := by
  have hstack : StackInstr mn := by
    rcases hmn with rfl | rfl <;> decide
  let bs := op :: operandBytes (addrEnum m) (BitVec.ofNat 16 v)
  -- a byte that is not pushed, everywhere but in the program
  obtain ⟨ret, hpush⟩ := exec_pushes hmn m (BitVec.ofNat 16 v)
    (stateAt addr bs 0 0 sp fun _ => 0).abs
  obtain ⟨b, hb₁, hb₀⟩ := exists_ne_ne (ret.extractLsb' 8 8) (ret.setWidth 8)
  have hrun := Performs.run hpast sys hf hline hlen hperf hstack hop hk fun _ => b
  obtain ⟨w, hw, hfree⟩ := hapart
  have hkeep : (exec mn m (BitVec.ofNat 16 v) (stateAt addr bs 0 0 sp fun _ => b).abs).mem w
      = b := by
    rw [← hrun]
    refine (hpage _ _ rfl w ?_).trans (ram_stateAt ?_)
    · simp only [List.mem_cons, List.not_mem_nil, or_false] at hw
      rcases hw with rfl | rfl
      · exact inStackPage_stackAddr _
      · exact inStackPage_stackAddr _
    · intro i hi
      rw [List.length_cons, length_operandBytes, length_addrEnum] at hi
      exact hfree i hi
  obtain ⟨h₁, h₀⟩ := hpush (stateAt addr bs 0 0 sp fun _ => b).abs.mem
  simp only [List.mem_cons, List.not_mem_nil, or_false] at hw
  rcases hw with rfl | rfl
  · exact hb₁ (hkeep.symm.trans h₁)
  · exact hb₀ (hkeep.symm.trans h₀)

end Stack

/-- A memory that is 1 at `$0100` and 2 elsewhere tells page one from page two,
also with a return instruction somewhere in it. -/
theorem ram_pages (addr : Word) {op : Byte} (h : op ≠ 1 ∧ op ≠ 2) (a x sp : Byte) :
    let s := stateAt addr [op] a x sp fun w => if w = 0x0100 then 1 else 2
    s.ram 0x0100 ≠ s.ram 0x0200 := by
  intro s
  have hram (w : Word) : s.ram w = if w = addr then op else if w = 0x0100 then 1 else 2 := by
    show Function.update (fun w => if w = 0x0100 then (1 : Byte) else 2) addr op w = _
    rw [Function.update_apply]
  rw [hram, hram]
  by_cases h₁ : (0x0100 : Word) = addr
  · subst h₁
    exact h.2
  · rw [if_neg h₁]
    by_cases h₂ : (0x0200 : Word) = addr
    · rw [if_pos h₂]
      exact h.1.symm
    · rw [if_neg h₂]
      exact (by decide : (1 : Byte) ≠ 2)

theorem append_inj {a a' b b' : Byte} (h : a ++ b = a' ++ b') : a = a' ∧ b = b' := by
  have hhi := congrArg (BitVec.extractLsb' 8 8) h
  have hlo := congrArg (BitVec.setWidth 8) h
  rw [BitVec.extractLsb'_append_eq_left, BitVec.extractLsb'_append_eq_left] at hhi
  rw [BitVec.setWidth_append_eq_right, BitVec.setWidth_append_eq_right] at hlo
  exact ⟨hhi, hlo⟩

/-- `RTS` and `RTI` from the end of page one take a byte of the program counter
from page two. -/
theorem run_pull (sys : Byte → FlatVm → FlatVm) (c : OpCache) {s : FlatVm} {mn : Mnemonic}
    {k : Case} (hk : k.instr = some (mn, .implied)) (hmn : mn = .rts ∨ mn = .rti)
    (hfits : ¬ StackFits mn s.rSp)
    (h : (k.run sys c s).abs = exec mn .implied 0 s.abs) : s.ram 0x0100 = s.ram 0x0200 := by
  have hpc := congrArg State.pc h
  have hpeek (i : Byte) : s.abs.peek i = s.ram (stackAddr (s.rSp + i)) := rfl
  rcases hmn with rfl | rfl
  · cases k <;> simp only [Case.instr, Option.some.injEq, Prod.mk.injEq, reduceCtorEq,
      false_and] at hk
    have hsp : s.rSp = 0xfe := not_ne_iff.mp hfits
    -- the machine reads one block across the end of the page
    have hvm : (Case.rts.run sys c s).abs.pc
        = (s.ram (stackAddr (s.rSp + 1) + 1) ++ s.ram (stackAddr (s.rSp + 1)) : Word) + 1 := by
      simp only [Case.run, vmRamRead_flat, addr16_pull s.rSp, addr16_word, Vm.abs_pc,
        Nat.reduceLT, at_readBlock, BitVec.add_zero]
      rfl
    -- the 6502 wraps
    have hdoc : (exec .rts .implied 0 s.abs).pc
        = (s.abs.peek 2 ++ s.abs.peek 1 : Word) + 1 := rfl
    rw [hvm, hdoc, hpeek, hpeek, hsp, BitVec.add_left_inj] at hpc
    exact (append_inj hpc).1.symm
  · cases k <;> simp only [Case.instr, Option.some.injEq, Prod.mk.injEq, reduceCtorEq,
      false_and] at hk
    have hvm : (Case.rti.run sys c s).abs.pc
        = s.ram (stackAddr (s.rSp + 1) + 2) ++ s.ram (stackAddr (s.rSp + 1) + 1) := by
      simp only [Case.run, vmRamRead_flat, addr16_pull s.rSp, addr16_word, Vm.abs_pc,
        Nat.reduceLT, at_readBlock]
      rfl
    have hdoc : (exec .rti .implied 0 s.abs).pc = s.abs.peek 3 ++ s.abs.peek 2 := rfl
    rw [hvm, hdoc, hpeek, hpeek] at hpc
    obtain ⟨hhi, hlo⟩ := append_inj hpc
    by_cases hsp : s.rSp = 0xfd
    · rw [hsp] at hhi
      exact hhi.symm
    · have hsp' : s.rSp = 0xfe := by
        by_contra hne
        exact hfits ⟨hsp, hne⟩
      rw [hsp'] at hlo
      exact hlo.symm

theorem InStackPage.ne {w a : Word} {n : ℕ} (hw : InStackPage w)
    (h : ∀ i < n, ¬ InStackPage (a + BitVec.ofNat 16 i)) : ∀ i < n, w ≠ a + BitVec.ofNat 16 i := by
  rintro i hi rfl
  exact h i hi hw

/-- `JSR` from `$00` pushes outside page one. -/
theorem run_jsr_page (sys : Byte → FlatVm → FlatVm) (c : OpCache) (s : FlatVm)
    (hsp : s.rSp = 0) (w : Word) (hw : InStackPage w) :
    (Case.jsr.run sys c s).ram w = s.ram w := by
  have hout : ∀ i < 2, ¬ InStackPage (addr16 (word 0 - 1) 1 + BitVec.ofNat 16 i) := by
    decide
  show writeBlock s.ram (addr16 (word s.rSp - 1) 1) [_, _] w = s.ram w
  rw [hsp]
  exact writeBlock_of_forall_ne (hw.ne hout)

/-- `BRK` from `$00` and `$01` pushes outside page one. -/
theorem run_brk_page (sys : Byte → FlatVm → FlatVm) (c : OpCache) (s : FlatVm)
    (hsp : ¬ 2 ≤ s.rSp.toNat) (w : Word) (hw : InStackPage w) :
    (Case.brk.run sys c s).ram w = s.ram w := by
  have hout : ∀ sp : Byte, ¬ 2 ≤ sp.toNat →
      ∀ i < 3, ¬ InStackPage (addr16 (word sp - 2) 1 + BitVec.ofNat 16 i) := by
    decide +kernel
  show writeBlock s.ram (addr16 (word s.rSp - 2) 1) [_, _, _] w = s.ram w
  exact writeBlock_of_forall_ne (hw.ne (hout s.rSp hsp))

/-- **A performed stack instruction fits.** -/
theorem Performs.stackFits {past : OpRow} (hpast : PastTable past)
    (sys : Byte → FlatVm → FlatVm) {mn : Mnemonic} {m : Mode} {v : ℕ}
    (hf : (Form.instr mn m).Denotes v) {addr : Word} {sp : Byte} {line : Text}
    (hline : Writes (mneText mn) (addrEnum m).format v line)
    (hlen : (skipWhitespace line).length < 256)
    (hperf : Performs past sys (.instr mn m) v addr sp line) : StackFits mn sp := by
  obtain ⟨op, hop⟩ := Option.isSome_iff_exists.mp hf.1
  by_contra hfits
  cases mn
  case jsr =>
    have hsp : sp = 0 := not_ne_iff.mp hfits
    obtain rfl : m = .absolute := by cases m <;> first | rfl | cases hop
    refine Performs.push hpast sys hf hline hlen hperf (.inl rfl) rfl rfl
      (fun c s hs => run_jsr_page sys c s (hs.trans hsp)) ?_
    subst hsp
    -- the two bytes are too far apart to be both in the program
    by_cases haddr : addr.toNat < 0x180
    · refine ⟨stackAddr (0 - 1), by simp, fun i hi heq => ?_⟩
      have h := congrArg BitVec.toNat heq
      rw [toNat_stackAddr, BitVec.toNat_add, BitVec.toNat_ofNat] at h
      have hi' : i < 3 := hi
      have hlast : (0 - 1 : Byte).toNat = 255 := rfl
      omega
    · refine ⟨stackAddr 0, by simp, fun i hi heq => ?_⟩
      have h := congrArg BitVec.toNat heq
      rw [toNat_stackAddr, BitVec.toNat_add, BitVec.toNat_ofNat] at h
      have hi' : i < 3 := hi
      have haddr' := addr.isLt
      have hfirst : (0 : Byte).toNat = 0 := rfl
      omega
  case brk =>
    obtain rfl : m = .implied := by cases m <;> first | rfl | cases hop
    refine Performs.push hpast sys hf hline hlen hperf (.inr rfl) rfl rfl
      (fun c s hs => run_brk_page sys c s (by rw [hs]; exact hfits)) ?_
    have hone (w : Word) (hw : w ≠ addr) : ∀ i < Mode.implied.length,
        w ≠ addr + BitVec.ofNat 16 i := by
      intro i hi
      obtain rfl : i = 0 := Nat.lt_one_iff.mp hi
      simpa using hw
    by_cases haddr : stackAddr sp = addr
    · refine ⟨stackAddr (sp - 1), by simp, hone _ ?_⟩
      rw [← haddr]
      exact stackAddr_injective.ne (by bv_omega)
    · exact ⟨stackAddr sp, by simp, hone _ haddr⟩
  case rts | rti =>
    obtain rfl : m = .implied := by cases m <;> first | rfl | cases hop
    obtain rfl : v = 0 := Nat.lt_one_iff.mp hf.2.2.1
    have hrun := Performs.run hpast sys hf hline hlen hperf (by decide) rfl rfl
      fun w => if w = 0x0100 then 1 else 2
    refine ram_pages addr ?_ 0 0 sp (run_pull sys _ rfl (by decide) hfits hrun)
    decide
  all_goals exact hfits trivial

/-! ### Every form -/

/-- **A line performs the form it is written in** exactly when the table has the
right row for the form and, if it uses the stack, its block stays in page one;
the line must be short enough for the parser's counter. -/
theorem performs_iff {past : OpRow} (hpast : PastTable past) (sys : Byte → FlatVm → FlatVm)
    {f : Form} {v : ℕ} (hf : f.Denotes v) (addr : Word) (sp : Byte) {line : Text}
    (hline : Writes f.mne f.mode.format v line) :
    Performs past sys f v addr sp line ↔
      (skipWhitespace line).length < 256 ∧ ¬ f.Misrowed ∧ f.StackFits sp := by
  constructor
  · intro hperf
    have hlen : (skipWhitespace line).length < 256 := by
      by_contra hlong
      obtain ⟨n, bs, has, -⟩ := hperf
      rw [dasmAs_long past addr (f.tabled hf).1 hline (not_lt.mp hlong)] at has
      cases has
    refine ⟨hlen, fun hmis => ?_, ?_⟩
    · cases f with
      | sys => exact hmis
      | instr mn m =>
        by_cases hm : m = .zeroPageX
        · subst hm
          rcases hmis with ⟨hmn, -⟩ | ⟨-, habs⟩
          · exact not_performs_zpX hpast sys hmn hf addr sp hline hlen hperf
          · cases habs
        · -- no row at all
          obtain ⟨n, bs, has, -⟩ := hperf
          have hrow : (Form.instr mn m).row = none := (if_pos hmis).trans (if_neg hm)
          rw [dasmAs_form hpast hf addr hline hlen, hrow] at has
          cases has
    · cases f with
      | sys => trivial
      | instr mn m =>
        exact Performs.stackFits hpast sys hf hline hlen hperf
  · rintro ⟨hlen, hmis, hs⟩
    exact performs_of_row hpast sys hf addr hline hlen hmis hs

theorem writes_eor : Writes (mneText .eor) .direct 0x1234 "eor $1234".toList :=
  ⟨[], [' '], "$1234".toList, .none, .nil, .space,
    @Literal.hex "1234".toList (by decide) (List.all_eq_true.mp rfl), by decide⟩

theorem denotes_eor : (Form.instr .eor .absolute).Denotes 0x1234 :=
  ⟨rfl, by decide, by decide, fun h => absurd h (by decide)⟩

/-- `eor $1234`, with `r_sp = $ff`. -/
theorem performs_iff_eor :
    Performs zeroRow (fun _ => id) (.instr .eor .absolute) 0x1234 0x1a00 0xff
        "eor $1234".toList ↔
      (skipWhitespace "eor $1234".toList).length < 256 ∧
        ¬ (Form.instr .eor .absolute).Misrowed ∧ (Form.instr .eor .absolute).StackFits 0xff :=
  performs_iff pastTable_zeroRow (fun _ => id) denotes_eor 0x1a00 0xff writes_eor

/-- `LDA $10,X` assembles to `LDA ($10,X)`. -/
theorem lda_zpX_not_performed :
    (dasmAs zeroRow 0x1a00 "LDA $10,X".toList).out = [0xa1, 0x10] ∧
      ¬ Performs zeroRow (fun _ => id) (.instr .lda .zeroPageX) 0x10 0x1a00 0xff
        "LDA $10,X".toList := by
  have hline : Writes (mneText .lda) .directX 0x10 "LDA $10,X".toList :=
    ⟨[], [' '], "$10".toList, .none, .nil, .space,
      @Literal.hex "10".toList (by decide) (List.all_eq_true.mp rfl), by decide⟩
  have hf : (Form.instr .lda .zeroPageX).Denotes 0x10 :=
    ⟨rfl, by decide, by decide, fun _ _ hz => absurd hz (Option.not_mem_none _)⟩
  exact ⟨by decide +kernel, not_performs_zpX pastTable_zeroRow (fun _ => id) (by decide) hf 0x1a00
    0xff hline (by decide)⟩

end Dan64
