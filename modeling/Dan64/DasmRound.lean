/-
Dan64/DasmRound.lean

Assembling what the disassembler printed.

A row of the table prints as a line in the format of its mode (`das_writes`),
and the assembler reads mode, length and operand back (`result_mode`), unless a
short operand makes it choose the zero-page form (`Shortened`).  What is left
is the last table search: it returns the row itself exactly when no earlier row
has the same mnemonic and mode.  `tbl_sound` checks what the argument needs of
each row; the rows that are shadowed are `shadowedOps`.
-/
import Dan64.DasmLine
import Dan64.VmBits

namespace Dan64

open CText AddrEnum

/-! ### Printed operands are operands -/

/-- The value a mode prints. -/
def dasValue (mode : AddrEnum) (addr : Word) (b1 b2 : Byte) : Word :=
  match mode with
  | AT_ABSOLUTE | AT_IND_ABS | AT_ABS_INDEX_X | AT_ABS_INDEX_Y => b2 ++ b1
  | AT_RELATIVE => addr + 1 + b1.signExtend 16
  | AT_IMPLIED | AT_ACCUMULATOR => 0
  | _ => b1.setWidth 16

/-- The literal the printer writes, in upper case. -/
def hexLit (w n : ℕ) : Text := '$' :: (sprintfHex w n).map toupper

theorem literal_hexLit {w n : ℕ} (hw : 0 < w) (hn : n < 16 ^ w) : Literal (hexLit w n) n := by
  have hx : ∀ c ∈ (sprintfHex w n).map toupper, isxdigit c = true := by
    intro c hc
    obtain ⟨d, hd, rfl⟩ := List.mem_map.mp hc
    rw [isxdigit_toupper]
    exact isxdigit_sprintfHex w n d hd
  have hne : (sprintfHex w n).map toupper ≠ [] := by
    rw [← List.length_pos_iff, List.length_map, length_sprintfHex hn]
    exact hw
  have h := Literal.hex hne hx
  rwa [numeral_map_toupper (isxdigit_sprintfHex w n), numeral_sprintfHex] at h

/-- A printed operand is an operand in the format of its mode. -/
theorem das_operand (mode : AddrEnum) (addr : Word) (b1 b2 : Byte) :
    ∃ lit, Literal lit (dasValue mode addr b1 b2).toNat ∧
      (dasOperand mode addr b1 b2).1.map toupper = mode.format.text lit .none := by
  have hbyte : Literal (hexLit 2 b1.toNat) (b1.setWidth 16).toNat := by
    rw [BitVec.toNat_setWidth_of_le (by decide)]
    exact literal_hexLit (by decide) b1.isLt
  have hword (w : Word) : Literal (hexLit 4 w.toNat) w.toNat := literal_hexLit (by decide) w.isLt
  have hnil (t : Text) : t ++ [] = t := List.append_nil t
  cases mode with
  | AT_IMPLIED | AT_ACCUMULATOR => exact ⟨_, hword 0, rfl⟩
  -- the target is printed, not the displacement
  | AT_RELATIVE =>
    refine ⟨_, hword _, ?_⟩
    simp only [AddrEnum.format, Format.text, Spaces.none, hnil]
    rfl
  | AT_ABSOLUTE =>
    refine ⟨_, hword _, ?_⟩
    simp only [dasOperand, addr16_word, AddrEnum.format, Format.text, Spaces.none, hnil]
    rfl
  | AT_IND_ABS | AT_ABS_INDEX_X | AT_ABS_INDEX_Y =>
    refine ⟨_, hword _, ?_⟩
    simp only [dasOperand, addr16_word, List.map_append]
    rfl
  | AT_ZEROP | AT_IMMEDIATE =>
    refine ⟨_, hbyte, ?_⟩
    simp only [AddrEnum.format, Format.text, Spaces.none, hnil]
    rfl
  | AT_ZP_INDEX_X | AT_ZP_INDEX_Y | AT_INDEX_IND | AT_IND_INDEX =>
    refine ⟨_, hbyte, ?_⟩
    simp only [dasOperand, List.map_append]
    rfl

/-! ### What the assembler reads back -/

/-- An absolute or absolute indexed encoding whose operand is below 256 and whose
mnemonic has the zero-page form too. -/
def Shortened (mne : Text) (mode : AddrEnum) (b2 : Byte) : Prop :=
  b2 = 0#8 ∧ ∃ a ∈ mode.shortForm, (tblOp mne a).isSome = true

theorem shiftRight_append (b1 b2 : Byte) : ((b2 ++ b1) >>> 8).setWidth 8 = b2 := by
  rw [BitVec.setWidth_ushiftRight_eq_extractLsb, BitVec.extractLsb'_append_eq_left]

/-- `dasm_as` undoes the displacement that `dasm_das` added. -/
theorem relative_undo (addr : Word) (b : Byte) :
    (addr + 1 + b.signExtend 16 - addr - 1).setWidth 8 = b := by
  have hsub : addr + 1 + b.signExtend 16 - addr - 1 = b.signExtend 16 := by ring
  rw [hsub, setWidth_signExtend]

/-- The emitted bytes are the encoding. -/
theorem emit_das (op b1 b2 : Byte) (mode : AddrEnum) (addr : Word) :
    let val := mode.emitted addr (dasValue mode addr b1 b2)
    [op] ++ (if mode.length > 1 then [val.setWidth 8] else []) ++
        (if mode.length > 2 then [(val >>> 8).setWidth 8] else [])
      = [op, b1, b2].take mode.length := by
  have h1 : (b1.setWidth 16).setWidth 8 = b1 := setWidth_word b1
  have h2 : (b2 ++ b1).setWidth 8 = b1 := BitVec.setWidth_append_eq_right
  have h3 := shiftRight_append b1 b2
  have h4 : (addr + 1#16 + b1.signExtend 16 - addr - 1#16).setWidth 8 = b1 :=
    relative_undo addr b1
  cases mode <;> simp [AddrEnum.length, AddrEnum.emitted, dasValue, h1, h2, h3, h4]

/-- A byte operand. -/
theorem byte_le (b : Byte) : b.setWidth 16 ≤ 0xff#16 := by
  rw [BitVec.le_def, BitVec.toNat_setWidth_of_le (by decide)]
  exact Nat.le_of_lt_succ b.isLt

/-- A short word operand. -/
theorem word_le_iff (b1 b2 : Byte) : b2 ++ b1 ≤ 0xff#16 ↔ b2 = 0#8 := by
  have h1 := b1.isLt
  rw [BitVec.le_def, toNat_append_byte, ← BitVec.toNat_inj]
  simp only [BitVec.toNat_ofNat]
  omega

theorem dasValue_le {mode : AddrEnum} (addr : Word) (b1 b2 : Byte) (h : mode.length = 2)
    (h' : mode ≠ AT_RELATIVE) : dasValue mode addr b1 b2 ≤ 0xff#16 := by
  cases mode
  case AT_RELATIVE => exact absurd rfl h'
  case AT_IMMEDIATE | AT_ZEROP | AT_ZP_INDEX_X | AT_ZP_INDEX_Y | AT_INDEX_IND | AT_IND_INDEX =>
    exact byte_le b1
  all_goals cases h

/-- What is short is short for its second operand byte. -/
theorem shortForm_none {mne : Text} {mode : AddrEnum} {addr : Word} {b1 b2 : Byte}
    (h : ¬ Shortened mne mode b2) (hle : dasValue mode addr b1 b2 ≤ 0xff#16) :
    ∀ z ∈ mode.shortForm, tblOp mne z = none := by
  intro z hz
  have hb2 : b2 = 0#8 := by
    cases mode
    case AT_ABSOLUTE | AT_ABS_INDEX_X | AT_ABS_INDEX_Y => exact (word_le_iff b1 b2).mp hle
    all_goals cases hz
  rcases ht : tblOp mne z with - | op
  · rfl
  · refine absurd ⟨hb2, z, hz, ?_⟩ h
    rw [ht]
    rfl

/-! ### The rows of the table -/

/-- The opcodes of the rows that come after another with their mnemonic and mode:
`nn,X` after a row that should be `(nn,X)`, and `AND nnnn,X` under the mnemonic
of `ORA nnnn,X`. -/
def shadowedOps : List Byte := [0x15, 0x35, 0x75, 0xb5, 0xd5, 0xf5, 0x3d]

/-- What the round trip needs of a row. -/
structure OpRow.Sound (r : OpRow) (mode : AddrEnum) : Prop where
  isMne : IsMne r.mne
  found : ∃ op ∈ tblOp r.mne mode, op = r.op ↔ r.op ∉ shadowedOps
  absolute : mode = AT_ABSOLUTE → tblOp r.mne AT_RELATIVE = none
  relative : mode = AT_RELATIVE → tblOp r.mne AT_ZEROP = none

theorem tbl_sound : ∀ r ∈ vmOpTbl, ∃ mode ∈ AddrEnum.ofByte r.mode, r.Sound mode := by
  -- stated so that the table is searched once for each row
  have hrows : ∀ r ∈ vmOpTbl, ∃ mode ∈ AddrEnum.ofByte r.mode, IsMne r.mne ∧
      (tblOp r.mne mode).isSome ∧ (tblOp r.mne mode = some r.op ↔ r.op ∉ shadowedOps) ∧
      (mode = AT_ABSOLUTE → tblOp r.mne AT_RELATIVE = none) ∧
      (mode = AT_RELATIVE → tblOp r.mne AT_ZEROP = none) := by
    decide +kernel
  intro r hr
  obtain ⟨mode, hmode, hmne, hsome, hshadowed, habsolute, hrelative⟩ := hrows r hr
  obtain ⟨op, hop⟩ := Option.isSome_iff_exists.mp hsome
  refine ⟨mode, hmode, hmne, ⟨op, hop, ?_⟩, habsolute, hrelative⟩
  rw [← hshadowed, hop, Option.some.injEq]

/-- The opcodes of the table increase. -/
theorem tbl_sorted : vmOpTbl.Pairwise fun r r' => r.op < r'.op := by
  rw [← List.isChain_iff_pairwise]
  decide +kernel

/-- A row is found under its opcode. -/
theorem find_op {r : OpRow} (h : r ∈ vmOpTbl) (past : OpRow) :
    (vmOpTbl ++ [past]).find? (fun r' => r'.op == r.op) = some r := by
  have hsome : (vmOpTbl.find? fun r' => r'.op == r.op).isSome := by
    rw [List.find?_isSome]
    exact ⟨r, h, beq_self_eq_true _⟩
  obtain ⟨r', hr'⟩ := Option.isSome_iff_exists.mp hsome
  have hop : r'.op = r.op := by
    have hp := List.find?_some hr'
    exact beq_iff_eq.mp hp
  have hnodup : (vmOpTbl.map OpRow.op).Nodup :=
    List.Pairwise.map _ (fun _ _ hlt => BitVec.ne_of_lt hlt) tbl_sorted
  have heq : r' = r := List.inj_on_of_nodup_map hnodup (List.mem_of_find?_eq_some hr') h hop
  rw [List.find?_append, hr', heq]
  rfl

/-! ### The round trip -/

theorem toupper_of_capital {c : Char} (h : 'A'.toNat ≤ c.toNat ∧ c.toNat ≤ 'Z'.toNat) :
    toupper c = c := by
  have h₁ : c.toNat ≤ 90 := h.2
  exact if_neg fun hc => by omega

theorem IsMne.map_toupper {mne : Text} (h : IsMne mne) : mne.map toupper = mne := by
  refine (List.map_congr_left fun c hc => ?_).trans (List.map_id mne)
  exact toupper_of_capital (h.2 c hc)

theorem length_dasOperand (mode : AddrEnum) (addr : Word) (b1 b2 : Byte) :
    (dasOperand mode addr b1 b2).1.length ≤ 8 ∧ (dasOperand mode addr b1 b2).2 = mode.length := by
  have hbyte : (sprintfHex 2 b1.toNat).length = 2 := length_sprintfHex b1.isLt
  have hword (w : Word) : (sprintfHex 4 w.toNat).length = 4 := length_sprintfHex w.isLt
  cases mode <;>
    simp only [dasOperand, AddrEnum.length, List.length_append, List.length_cons,
      List.length_nil, hbyte, addr16_word, hword, and_true] <;>
    omega

/-- **What is printed** for a row: its mnemonic and the operand, in the format of
the mode. -/
theorem das_writes {past r : OpRow} {mode : AddrEnum} (hr : r ∈ vmOpTbl)
    (hmode : AddrEnum.ofByte r.mode = some mode) (hmne : IsMne r.mne) (addr : Word)
    (b1 b2 : Byte) :
    let d := dasmDas past addr r.op b1 b2
    Writes r.mne mode.format (dasValue mode addr b1 b2).toNat d.1 ∧ d.1.length < 256 ∧
      d.2 = mode.length := by
  have hd : dasmDas past addr r.op b1 b2 =
      if mode = AT_IMPLIED then (r.mne, 1)
      else (r.mne ++ [' '] ++ (dasOperand mode addr b1 b2).1, (dasOperand mode addr b1 b2).2) := by
    rw [dasmDas, find_op hr]
    simp only [hmode]
    cases mode <;> rfl
  obtain ⟨lit, hlit, hop⟩ := das_operand mode addr b1 b2
  obtain ⟨hlen, hlen'⟩ := length_dasOperand mode addr b1 b2
  have hmne3 := hmne.1
  intro d
  -- an implied instruction is printed without a blank behind the mnemonic
  by_cases himp : mode = AT_IMPLIED
  · subst himp
    rw [if_pos rfl] at hd
    refine ⟨⟨[], [], lit, .none, .nil, .nil, hlit, ?_⟩, ?_, ?_⟩
    · rw [show d = _ from hd, hmne.map_toupper]
      exact (List.append_nil _).symm
    · rw [show d = _ from hd]
      show r.mne.length < 256
      omega
    · rw [show d = _ from hd]
      rfl
  · rw [if_neg himp] at hd
    refine ⟨⟨[], [' '], lit, .none, .nil, .space, hlit, ?_⟩, ?_, ?_⟩
    · rw [show d = _ from hd, List.map_append, List.map_append, hmne.map_toupper, hop,
        List.append_assoc]
      rfl
    · rw [show d = _ from hd, List.length_append, List.length_append, hmne3]
      show 3 + 1 + _ < 256
      omega
    · rw [show d = _ from hd]
      exact hlen'

/-- **Assembling undoes disassembling** for the rows that are not shadowed, and
for no other. -/
theorem dasmAs_dasmDas {past : OpRow} (hpast : PastTable past) (addr : Word) {r : OpRow}
    (hr : r ∈ vmOpTbl) {mode : AddrEnum} (hmode : AddrEnum.ofByte r.mode = some mode)
    (b1 b2 : Byte) (hshort : ¬ Shortened r.mne mode b2) :
    let d := dasmDas past addr r.op b1 b2
    dasmAs past addr d.1 = ⟨.ok d.2, [r.op, b1, b2].take d.2⟩ ↔ r.op ∉ shadowedOps := by
  obtain ⟨mode', hmode', hs⟩ := tbl_sound r hr
  obtain rfl : mode = mode' := Option.some.inj (hmode.symm.trans hmode')
  obtain ⟨op, hop, hshadow⟩ := hs.found
  have hne : past.mne ≠ r.mne := (hpast r hr).symm
  have hrow : (vmOpTbl.find? (OpRow.isFor r.mne none)).isSome = true := by
    rw [List.find?_isSome]
    exact ⟨r, hr, by simp [OpRow.isFor]⟩
  intro d
  obtain ⟨hw, hlen, hd⟩ := @das_writes past r mode hr hmode hs.isMne addr b1 b2
  -- the operand is read back in its mode
  have hres := result_mode addr hne (dasValue_le addr b1 b2) (shortForm_none hshort)
    (fun _ => by rw [Option.mem_def.mp hop]; rfl) hs.absolute hs.relative
  have has : dasmAs past addr d.1 = ⟨.ok mode.length, [op, b1, b2].take mode.length⟩ := by
    rw [dasmAs_line addr hs.isMne hrow hne hw ((length_skipWhitespace _).trans_lt hlen),
    BitVec.ofNat_toNat, BitVec.setWidth_eq, hres,
      asEmit_ok hne, Option.mem_def.mp hop, ← emit_das]
  rw [has, show d.2 = mode.length from hd, ← hshadow]
  constructor
  · intro h
    -- the opcode is the first byte that is emitted
    have hhead := congrArg (fun x => x.out.head?) h
    have hpos : mode.length ≠ 0 := by cases mode <;> decide
    obtain ⟨n, hn⟩ := Nat.exists_eq_succ_of_ne_zero hpos
    rw [hn] at hhead
    exact Option.some.inj hhead
  · rintro rfl
    rfl

/-- `LSR $1234` is read back. -/
theorem dasmAs_dasmDas_lsr :
    let d := dasmDas zeroRow 0x1a00 0x4e 0x34 0x12
    dasmAs zeroRow 0x1a00 d.1 = ⟨.ok d.2, [0x4e, 0x34, 0x12].take d.2⟩ ↔
      (0x4e : Byte) ∉ shadowedOps :=
  @dasmAs_dasmDas zeroRow pastTable_zeroRow 0x1a00 ⟨0x4e, 'L', 'S', 'R', AT_ABSOLUTE⟩
    (by decide +kernel) AT_ABSOLUTE rfl 0x34 0x12 (fun h => absurd h.1 (by decide))

/-- `$15 $10` prints as `ORA $10,X`, which assembles to `$01 $10`. -/
theorem ora_zpX_not_undone :
    let d := dasmDas zeroRow 0x1a00 0x15 0x10 0x00
    d = ("ORA $10,X".toList, 2) ∧ (dasmAs zeroRow 0x1a00 d.1).out = [0x01, 0x10] ∧
      [0x15, 0x10, 0x00].take d.2 = ([0x15, 0x10] : List Byte) ∧
      ([0x01, 0x10] : List Byte) ≠ [0x15, 0x10] := by
  decide +kernel

end Dan64
