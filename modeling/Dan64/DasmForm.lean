/-
Dan64/DasmForm.lean

The instruction forms of the manual, and the bytes their lines assemble to.

A form is a mnemonic with one of the modes the 6502 has for it, or `SYS`.  Up to
the last table search a well-formed line is always parsed as the form it is
written in (`result_mode`); the search then finds the row of `tblOp`.  The table
has that row for every form but the ones in `Misrowed`: six rows that should be
`(nn,X)` are marked `nn,X` and come before the real one, and `AND nnnn,X` has the
mnemonic of `ORA`.
-/
import Dan64.DasmLine
import Dan64.VmRefine

namespace Dan64

open CText AddrEnum
open Mos6502 (Mnemonic Mode)

/-! ### Forms -/

/-- A mnemonic as it is written. -/
def mneText : Mnemonic → Text
  | .adc => ['A', 'D', 'C']
  | .and => ['A', 'N', 'D']
  | .asl => ['A', 'S', 'L']
  | .bcc => ['B', 'C', 'C']
  | .bcs => ['B', 'C', 'S']
  | .beq => ['B', 'E', 'Q']
  | .bit => ['B', 'I', 'T']
  | .bmi => ['B', 'M', 'I']
  | .bne => ['B', 'N', 'E']
  | .bpl => ['B', 'P', 'L']
  | .brk => ['B', 'R', 'K']
  | .bvc => ['B', 'V', 'C']
  | .bvs => ['B', 'V', 'S']
  | .clc => ['C', 'L', 'C']
  | .cld => ['C', 'L', 'D']
  | .cli => ['C', 'L', 'I']
  | .clv => ['C', 'L', 'V']
  | .cmp => ['C', 'M', 'P']
  | .cpx => ['C', 'P', 'X']
  | .cpy => ['C', 'P', 'Y']
  | .dec => ['D', 'E', 'C']
  | .dex => ['D', 'E', 'X']
  | .dey => ['D', 'E', 'Y']
  | .eor => ['E', 'O', 'R']
  | .inc => ['I', 'N', 'C']
  | .inx => ['I', 'N', 'X']
  | .iny => ['I', 'N', 'Y']
  | .jmp => ['J', 'M', 'P']
  | .jsr => ['J', 'S', 'R']
  | .lda => ['L', 'D', 'A']
  | .ldx => ['L', 'D', 'X']
  | .ldy => ['L', 'D', 'Y']
  | .lsr => ['L', 'S', 'R']
  | .nop => ['N', 'O', 'P']
  | .ora => ['O', 'R', 'A']
  | .pha => ['P', 'H', 'A']
  | .php => ['P', 'H', 'P']
  | .pla => ['P', 'L', 'A']
  | .plp => ['P', 'L', 'P']
  | .rol => ['R', 'O', 'L']
  | .ror => ['R', 'O', 'R']
  | .rti => ['R', 'T', 'I']
  | .rts => ['R', 'T', 'S']
  | .sbc => ['S', 'B', 'C']
  | .sec => ['S', 'E', 'C']
  | .sed => ['S', 'E', 'D']
  | .sei => ['S', 'E', 'I']
  | .sta => ['S', 'T', 'A']
  | .stx => ['S', 'T', 'X']
  | .sty => ['S', 'T', 'Y']
  | .tax => ['T', 'A', 'X']
  | .tay => ['T', 'A', 'Y']
  | .tsx => ['T', 'S', 'X']
  | .txa => ['T', 'X', 'A']
  | .txs => ['T', 'X', 'S']
  | .tya => ['T', 'Y', 'A']

/-- The enumerator of a mode. -/
def addrEnum : Mode → AddrEnum
  | .implied => AT_IMPLIED
  | .accumulator => AT_ACCUMULATOR
  | .immediate => AT_IMMEDIATE
  | .zeroPage => AT_ZEROP
  | .zeroPageX => AT_ZP_INDEX_X
  | .zeroPageY => AT_ZP_INDEX_Y
  | .absolute => AT_ABSOLUTE
  | .absoluteX => AT_ABS_INDEX_X
  | .absoluteY => AT_ABS_INDEX_Y
  | .indirect => AT_IND_ABS
  | .indexedIndirect => AT_INDEX_IND
  | .indirectIndexed => AT_IND_INDEX
  | .relative => AT_RELATIVE

@[simp] theorem length_addrEnum (m : Mode) : (addrEnum m).length = m.length := by
  cases m <;> rfl

/-- A row of the manual's table: an instruction of the 6502 in a mode, or `SYS`. -/
inductive Form
  | instr (mn : Mnemonic) (m : Mode)
  | sys

def Form.mne : Form → Text
  | .instr mn _ => mneText mn
  | .sys => ['S', 'Y', 'S']

def Form.mode : Form → AddrEnum
  | .instr _ m => addrEnum m
  | .sys => AT_IMPLIED

def Form.opcode : Form → Option Byte
  | .instr mn m => Mos6502.opcode mn m
  | .sys => some 0x02

/-- The zero-page form of an absolute one. -/
def shortMode : Mode → Option Mode
  | .absolute => some .zeroPage
  | .absoluteX => some .zeroPageX
  | .absoluteY => some .zeroPageY
  | _ => none

/-- An operand in the format of a form denotes the form: the mnemonic has the
mode, which is not relative, the operand is in the mode's range, and below 256 it
would not denote the zero-page form. -/
def Form.Denotes (f : Form) (v : ℕ) : Prop :=
  match f with
  | .instr mn m =>
    mn.has m ∧ m ≠ .relative ∧ v < m.range ∧ (v < 256 → ∀ z ∈ shortMode m, ¬ mn.has z)
  | .sys => True

/-! ### The table -/

/-- The mnemonics whose `(nn,X)` row is marked `nn,X`. -/
def misrowed : List Mnemonic := [.ora, .and, .adc, .lda, .cmp, .sbc]

/-- The forms for which the table has a wrong row. -/
def Form.Misrowed : Form → Prop
  | .instr mn m =>
    (mn ∈ misrowed ∧ (m = .zeroPageX ∨ m = .indexedIndirect)) ∨ (mn = .and ∧ m = .absoluteX)
  | .sys => False

instance : (f : Form) → Decidable f.Misrowed
  | .instr _ _ => inferInstanceAs (Decidable (_ ∨ _))
  | .sys => inferInstanceAs (Decidable False)

/-- The row the last search returns, by its opcode. -/
def Form.row : Form → Option Byte
  | .instr mn m =>
    if (Form.instr mn m).Misrowed then
      if m = .zeroPageX then Mos6502.opcode mn .indexedIndirect else none
    else Mos6502.opcode mn m
  | .sys => some 0x02

/-- What the table says about a mnemonic. -/
structure Tabled (mn : Mnemonic) (m : Mode) : Prop where
  isMne : IsMne (mneText mn)
  known : (vmOpTbl.find? (OpRow.isFor (mneText mn) none)).isSome = true
  row : tblOp (mneText mn) (addrEnum m) = (Form.instr mn m).row
  searched : (addrEnum m).Searched → (Form.instr mn m).row.isSome = true
  short : ∀ z ∈ shortMode m, ¬ mn.has z → tblOp (mneText mn) (addrEnum z) = none
  absolute : m = .absolute → tblOp (mneText mn) AT_RELATIVE = none
  relative : m = .relative → tblOp (mneText mn) AT_ZEROP = none

/-- The rows of a mnemonic. -/
def rowsOf (mne : Text) : List OpRow := vmOpTbl.filter fun r => r.mne == mne

/-- The table is searched for the mnemonic first. -/
theorem find_rowsOf (mne : Text) (a : Option AddrEnum) :
    vmOpTbl.find? (OpRow.isFor mne a)
      = (rowsOf mne).find? fun r => a.all fun m => r.mode == m.toByte := by
  rw [rowsOf, List.find?_filter]
  refine congrArg (List.find? · _) (funext fun r => ?_)
  rw [OpRow.isFor, Bool.decide_and, Bool.decide_eq_true, Bool.decide_eq_true]

/-- The opcode of the first of some rows with a mode. -/
def opIn (rows : List OpRow) (a : AddrEnum) : Option Byte :=
  (rows.find? fun r => r.mode == a.toByte).map OpRow.op

theorem tblOp_rowsOf (mne : Text) (a : AddrEnum) : tblOp mne a = opIn (rowsOf mne) a := by
  rw [tblOp, find_rowsOf]
  rfl

theorem tabled (mn : Mnemonic) (m : Mode) (h : mn.has m = true) : Tabled mn m := by
  have hmne : ∀ mn ∈ Mnemonic.all, IsMne (mneText mn) ∧
      (vmOpTbl.find? (OpRow.isFor (mneText mn) none)).isSome = true := by
    decide +kernel
  have hmode : ∀ mn m, mn.has m = true →
      opIn (rowsOf (mneText mn)) (addrEnum m) = (Form.instr mn m).row ∧
        ((addrEnum m).Searched → (Form.instr mn m).row.isSome = true) ∧
        (∀ z ∈ shortMode m, ¬ mn.has z → opIn (rowsOf (mneText mn)) (addrEnum z) = none) ∧
        (m = .absolute → opIn (rowsOf (mneText mn)) AT_RELATIVE = none) ∧
        (m = .relative → opIn (rowsOf (mneText mn)) AT_ZEROP = none) :=
    Mos6502.forall_instr (by decide +kernel)
  simp only [← tblOp_rowsOf] at hmode
  obtain ⟨hisMne, hknown⟩ := hmne mn mn.mem_all
  obtain ⟨hrow, hsearched, hshort, habsolute, hrelative⟩ := hmode mn m h
  exact ⟨hisMne, hknown, hrow, hsearched, hshort, habsolute, hrelative⟩

-- `ORA nn,X` has the row of `ORA (nn,X)`
example : tblOp (mneText .ora) (addrEnum .zeroPageX)
    = Mos6502.opcode .ora .indexedIndirect := by decide +kernel

/-- What the table says about a form. -/
theorem Form.tabled {f : Form} {v : ℕ} (h : f.Denotes v) :
    IsMne f.mne ∧ (vmOpTbl.find? (OpRow.isFor f.mne none)).isSome = true ∧
      tblOp f.mne f.mode = f.row := by
  cases f with
  | instr mn m =>
    have ht := Dan64.tabled mn m h.1
    exact ⟨ht.isMne, ht.known, ht.row⟩
  | sys => decide +kernel

theorem PastTable.ne {past : OpRow} (h : PastTable past) {mne : Text}
    (hmne : (vmOpTbl.find? (OpRow.isFor mne none)).isSome = true) : past.mne ≠ mne := by
  rw [List.find?_isSome] at hmne
  obtain ⟨r, hr, hfor⟩ := hmne
  rw [OpRow.isFor, Option.all_none, Bool.and_true, beq_iff_eq] at hfor
  rw [← hfor]
  exact (h r hr).symm

/-! ### Lines of a form -/

/-- The operand bytes of a mode. -/
def operandBytes (mode : AddrEnum) (val : Word) : List Byte :=
  (if mode.length > 1 then [val.setWidth 8] else []) ++
    (if mode.length > 2 then [(val >>> 8).setWidth 8] else [])

theorem length_operandBytes (mode : AddrEnum) (val : Word) :
    (operandBytes mode val).length + 1 = mode.length := by
  cases mode <;> rfl

theorem short_iff {v : ℕ} (h : v < 2 ^ 16) : BitVec.ofNat 16 v ≤ 0xff#16 ↔ v < 256 := by
  rw [BitVec.le_def, BitVec.toNat_ofNat, Nat.mod_eq_of_lt h]
  exact Nat.lt_succ_iff.symm

theorem Mode.range_le (m : Mode) : m.range ≤ 2 ^ 16 := by
  cases m <;> decide

theorem shortForm_addrEnum (m : Mode) : (addrEnum m).shortForm = (shortMode m).map addrEnum := by
  cases m <;> rfl

/-- **A line of a form is parsed as the form.** -/
theorem Form.result {past : OpRow} {f : Form} {v : ℕ} (hf : f.Denotes v)
    (hpast : past.mne ≠ f.mne) (addr : Word) :
    f.mode.format.result past f.mne addr (BitVec.ofNat 16 v)
      = .ok (f.mode, f.mode.length, f.mode.emitted addr (BitVec.ofNat 16 v)) := by
  cases f with
  | sys => rfl
  | instr mn m =>
    obtain ⟨hhas, hrel, hv, hz⟩ := hf
    have ht := Dan64.tabled mn m hhas
    -- an operand below 256 is tried with the zero-page form first
    have hshort := short_iff (hv.trans_le (Mode.range_le m))
    refine result_mode addr hpast (fun hlen _ => hshort.mpr ?_) (fun hle z hmem => ?_) ?_ ?_ ?_
    · cases m <;> first | exact hv | cases hlen
    · have hmem' : z ∈ (shortMode m).map addrEnum := by
        rw [← shortForm_addrEnum]
        exact hmem
      obtain ⟨m', hm', rfl⟩ := Option.mem_map.mp hmem'
      exact ht.short m' hm' (hz (hshort.mp hle) m' hm')
    · intro hs
      show (tblOp (mneText mn) (addrEnum m)).isSome = true
      rw [ht.row]
      exact ht.searched hs
    · intro habs
      refine ht.absolute ?_
      cases m <;> first | rfl | cases habs
    · intro hr
      refine absurd ?_ hrel
      cases m <;> first | rfl | cases hr

/-- **What a line of a form assembles to**: the opcode of the row that the table
search returns, and the operand. -/
theorem dasmAs_form {past : OpRow} (hpast : PastTable past) {f : Form} {v : ℕ}
    (hf : f.Denotes v) (addr : Word) {line : Text} (hline : Writes f.mne f.mode.format v line)
    (hlen : (skipWhitespace line).length < 256) :
    dasmAs past addr line = match f.row with
      | none => .fail .refused
      | some op => ⟨.ok f.mode.length, op :: operandBytes f.mode (BitVec.ofNat 16 v)⟩ := by
  obtain ⟨hmne, hknown, hrow⟩ := f.tabled hf
  have hne := hpast.ne hknown
  rw [dasmAs_line addr hmne hknown hne hline hlen, Form.result hf hne, asEmit_ok hne, hrow]
  rcases f.row with - | op
  · rfl
  · refine congrArg (AsResult.mk _) ?_
    show [op] ++ _ ++ _ = _
    rw [List.append_assoc, List.singleton_append, operandBytes]
    refine congrArg (op :: ·) ?_
    -- what is emitted for a mode with an operand is the operand
    cases f with
    | sys => rfl
    | instr mn m =>
      obtain ⟨-, hrel, -⟩ := hf
      cases m
      case relative => exact absurd rfl hrel
      all_goals rfl

end Dan64
