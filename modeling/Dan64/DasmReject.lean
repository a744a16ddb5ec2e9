/-
Dan64/DasmReject.lean

Which lines `dasm_as` refuses.

A line is well formed when it is written in the format of a documented form, with
a value in the form's range (`WellFormed`).  The operand parser only gets through
on an operand in one of the formats, or on one that opens a parenthesis and does
not close it: the inner switch of that arm has no default, so that `mode` and
`len` are still 0 (`asOperand_ok`).  What is accepted is therefore well formed,
or it is one of three slips: such an operand, behind a mnemonic with an implied
form; a branch that is too far; or a mnemonic and mode that the bytes behind the
table spell (`Slips`).  The slips are all accepted, so that they are what a
malformed line must not be (`refuses_iff`).
-/
import Dan64.DasmNumber
import Dan64.DasmBranch

namespace Dan64

open CText AddrEnum
open Mos6502 (Mnemonic Mode)

/-! ### Well-formed lines -/

/-- The values of a mode at an address: those that it encodes, and for a branch
those that a signed byte reaches from behind it. -/
def OperandFits (addr : Word) (v : ℕ) : Mode → Prop
  | .relative => v < 2 ^ 16 ∧ -128 ≤ displacement addr (BitVec.ofNat 16 v) ∧
      displacement addr (BitVec.ofNat 16 v) ≤ 127
  | m => v < m.range

/-- A form of the manual with a value in its range. -/
def Form.Allows (addr : Word) (v : ℕ) : Form → Prop
  | .instr mn m => mn.has m ∧ OperandFits addr v m
  | .sys => True

theorem Form.Allows.isMne {addr : Word} {v : ℕ} {f : Form} (h : f.Allows addr v) :
    IsMne f.mne := by
  cases f with
  | instr mn m => exact (Dan64.tabled mn m h.1).isMne
  | sys => decide

/-- A line of a form of the manual. -/
def WellFormed (addr : Word) (line : Text) : Prop :=
  ∃ (f : Form) (v : ℕ), f.Allows addr v ∧ Writes f.mne f.mode.format v line

/-! ### Slips -/

/-- The line in upper case, behind its white space. -/
def upperLine (line : Text) : Text := (skipWhitespace line).map toupper

/-- `mne` -/
def mneOf (line : Text) : Text := (upperLine line).take 3

/-- What the operand is parsed from. -/
def operandOf (line : Text) : Text := skipWhitespace ((upperLine line).drop 3)

/-- An operand that opens a parenthesis before a number and goes on neither with
`)` nor with a comma. -/
def Unclosed (operand : Text) : Prop :=
  ∃ s n v, operand = '(' :: s ∧ getValue s = .ok (n, v) ∧
    ∀ c ∈ (skipWhitespace (s.drop n)).head?, c ≠ ')' ∧ c ≠ ','

/-- A branch to a target that it does not reach. -/
def FarBranch (addr : Word) (line : Text) : Prop :=
  ∃ (mn : Mnemonic) (v : ℕ), mn.has .relative ∧ ¬ OperandFits addr v .relative ∧
    Writes (mneText mn) .direct v line

/-- The mnemonic and the mode that the bytes behind the table spell, with a value
that the mode has room for. -/
def Behind (past : OpRow) (line : Text) : Prop :=
  mneOf line = past.mne ∧ ∃ (mode : AddrEnum) (lit : Text) (v : ℕ) (sp : Spaces),
    past.mode = mode.toByte ∧ Literal lit v ∧ operandOf line = mode.format.text lit sp ∧
    (mode.length = 2 → mode ≠ AT_RELATIVE → BitVec.ofNat 16 v ≤ 0xff#16)

/-- What is accepted though it is not well formed. -/
def Slips (past : OpRow) (addr : Word) (line : Text) : Prop :=
  (findMne past (mneOf line) AT_IMPLIED ≠ OPCODES ∧ Unclosed (operandOf line)) ∨
    FarBranch addr line ∨ Behind past line

/-! ### The table and the bytes behind it -/

theorem findMne_ne_OPCODES_iff {past : OpRow} {mne : Text} {a : Option AddrEnum} :
    findMne past mne a ≠ OPCODES ↔ ∃ r ∈ vmOpTbl ++ [past], OpRow.isFor mne a r = true := by
  have hlen : (vmOpTbl ++ [past]).length = OPCODES := rfl
  rw [ne_eq, findMne, ← hlen, ← List.findIdx_lt_length]
  have hle := @List.findIdx_le_length _ (OpRow.isFor mne a) (vmOpTbl ++ [past])
  omega

/-- A mnemonic that is found has three characters. -/
theorem length_of_found {past : OpRow} {mne : Text} {a : Option AddrEnum}
    (h : findMne past mne a ≠ OPCODES) : mne.length = 3 := by
  obtain ⟨r, -, hr⟩ := findMne_ne_OPCODES_iff.mp h
  rw [OpRow.isFor, Bool.and_eq_true, beq_iff_eq] at hr
  rw [← hr.1]
  rfl

theorem found_of_tblOp {past : OpRow} {mne : Text} {a : AddrEnum}
    (h : (tblOp mne a).isSome = true) : findMne past mne a ≠ OPCODES := by
  rw [tblOp, Option.isSome_map] at h
  obtain ⟨r, hr⟩ := Option.isSome_iff_exists.mp h
  exact findMne_ne_OPCODES_iff.mpr
    ⟨r, List.mem_append_left _ (List.mem_of_find?_eq_some hr), List.find?_some hr⟩

/-- A mnemonic found in a mode is found in any. -/
theorem found_any {past : OpRow} {mne : Text} {a : AddrEnum}
    (h : findMne past mne a ≠ OPCODES) : findMne past mne none ≠ OPCODES := by
  obtain ⟨r, hmem, hr⟩ := findMne_ne_OPCODES_iff.mp h
  rw [OpRow.isFor, Bool.and_eq_true] at hr
  refine findMne_ne_OPCODES_iff.mpr ⟨r, hmem, ?_⟩
  rw [OpRow.isFor, hr.1]
  rfl

/-- Every row of the table reads as a form of the manual. -/
theorem tbl_form : ∀ r ∈ vmOpTbl, ∃ f : Form, f.mne = r.mne ∧ f.mode.toByte = r.mode ∧
    f.opcode.isSome = true := by
  have hrows : ∀ r ∈ vmOpTbl,
      (Form.sys.mne == r.mne && Form.sys.mode.toByte == r.mode ||
        Mnemonic.all.any fun mn => mneText mn == r.mne &&
          Mode.all.any fun m => (addrEnum m).toByte == r.mode && mn.has m) = true := by
    decide +kernel
  simp only [Bool.or_eq_true, Bool.and_eq_true, beq_iff_eq, List.any_eq_true] at hrows
  intro r hr
  rcases hrows r hr with ⟨hmne, hmode⟩ | ⟨mn, -, hmne, m, -, hmode, hhas⟩
  · exact ⟨.sys, hmne, hmode, rfl⟩
  · exact ⟨.instr mn m, hmne, hmode, hhas⟩

/-! ### The operand -/

/-- White space is split off. -/
theorem exists_blank (s : Text) : ∃ ws, Blank ws ∧ s = ws ++ skipWhitespace s :=
  ⟨_, blank_takeWhile s, (takeWhile_append_skipWhitespace s).symm⟩

theorem blank_of_skipWhitespace {s : Text} (h : skipWhitespace s = []) : Blank s :=
  List.dropWhile_eq_nil_iff.mp h

/-- A number before the end, a comma or a parenthesis is a literal. -/
theorem literal_of_follows {p : Text} {n : ℕ} {v : Word} (hlen : p.length < 256)
    (h : getValue p = .ok (n, v))
    (hnext : ∀ c ∈ (skipWhitespace (p.drop n)).head?, c = ',' ∨ c = ')') :
    ∃ lit x ws, Literal lit x ∧ Blank ws ∧ p = lit ++ (ws ++ skipWhitespace (p.drop n)) := by
  rcases literal_or_signed hlen h with ⟨lit, x, hlit, hp⟩ | ⟨c, hc, hsigned⟩
  · obtain ⟨ws, hws, hdrop⟩ := exists_blank (p.drop n)
    exact ⟨lit, x, ws, hlit, hws, by rw [← hdrop]; exact hp⟩
  · rcases hnext c hc with rfl | rfl
    · exact absurd hsigned (by decide)
    · exact absurd hsigned (by decide)

theorem literal_zero : Literal ['0'] 0 :=
  .dec (List.cons_ne_nil _ _) (List.forall_mem_singleton.mpr rfl)

/-- An operand is written in a format. -/
def InFormat (p : Text) : Prop :=
  ∃ (f : Format) (lit : Text) (v : ℕ) (sp : Spaces), Literal lit v ∧ p = f.text lit sp

/-- The operand behind `(`. -/
theorem asIndirect_ok {s : Text} {r : AddrEnum × ℕ × Word} (hlen : s.length < 256)
    (hok : asIndirect s = .ok r) : InFormat ('(' :: s) ∨ Unclosed ('(' :: s) := by
  obtain ⟨⟨n, v⟩, hv, h⟩ := bind_ok hok
  dsimp only at h
  have hlit {c : Char} {p : Text} (hp : skipWhitespace (s.drop n) = c :: p)
      (hc : c = ',' ∨ c = ')') :
      ∃ lit x ws, Literal lit x ∧ Blank ws ∧ s = lit ++ (ws ++ c :: p) := by
    rw [← hp]
    refine literal_of_follows hlen hv fun d hd => ?_
    rw [hp] at hd
    exact Option.some.inj hd ▸ hc
  split at h
  · next p hp =>
    obtain ⟨lit, x, s1, hx, h1, rfl⟩ := hlit hp (.inr rfl)
    obtain ⟨s2, h2, hs2⟩ := exists_blank p
    split at h
    · next hend =>
      exact .inl ⟨.indirect, lit, x, ⟨s1, p, [], [], h1, blank_of_skipWhitespace hend, .nil,
        .nil⟩, hx, rfl⟩
    · next p' hy =>
      split at h
      · next hend =>
        rw [hy] at hs2
        refine .inl ⟨.indirectIndexed, lit, x, ⟨s1, s2, p', [], h1, h2,
          blank_of_skipWhitespace hend.1, .nil⟩, hx, ?_⟩
        rw [hs2]
        rfl
      · cases h
    · cases h
  · next p hp =>
    obtain ⟨lit, x, s1, hx, h1, rfl⟩ := hlit hp (.inl rfl)
    obtain ⟨s2, h2, hs2⟩ := exists_blank p
    split at h
    · next p' hxp =>
      obtain ⟨s3, h3, hs3⟩ := exists_blank p'
      split at h
      · next p'' hparen =>
        split at h
        · next hend =>
          rw [hxp] at hs2
          rw [hparen] at hs3
          refine .inl ⟨.indexedIndirect, lit, x, ⟨s1, s2, s3, p'', h1, h2, h3,
            blank_of_skipWhitespace hend.1⟩, hx, ?_⟩
          rw [hs2, hs3]
          rfl
        · cases h
      · cases h
    · cases h
  -- neither: the switch falls through
  · next hclose hcomma =>
    refine .inr ⟨s, n, v, rfl, hv, fun c hc => ?_⟩
    obtain ⟨p, hp⟩ := List.head?_eq_some_iff.mp hc
    exact ⟨fun hc' => hclose p (hc' ▸ hp), fun hc' => hcomma p (hc' ▸ hp)⟩

/-- The operand that starts with a number. -/
theorem asDirect_ok {past : OpRow} {mne : Text} {addr : Word} {p : Text}
    {r : AddrEnum × ℕ × Word} (hlen : p.length < 256) (hok : asDirect past mne addr p = .ok r) :
    InFormat p := by
  obtain ⟨⟨n, v⟩, hv, h⟩ := bind_ok hok
  dsimp only at h
  split at h
  · next hend =>
    obtain ⟨lit, x, s1, hx, h1, hp⟩ := literal_of_follows hlen hv (by simp [hend])
    rw [hend, List.append_nil] at hp
    exact ⟨.direct, lit, x, ⟨s1, [], [], [], h1, .nil, .nil, .nil⟩, hx, hp⟩
  · next q hq =>
    obtain ⟨lit, x, s1, hx, h1, hp⟩ := literal_of_follows hlen hv (by
      rw [hq]
      exact fun c hc => .inl (Option.some.inj hc).symm)
    obtain ⟨s2, h2, hs2⟩ := exists_blank q
    rw [hq, hs2] at hp
    split at h
    -- the index register
    · next q' hxq =>
      rw [hxq] at hp
      split at h
      · cases h
      · next hend =>
        exact ⟨.directX, lit, x, ⟨s1, s2, q', [], h1, h2,
          blank_of_skipWhitespace (not_not.mp hend), .nil⟩, hx, hp⟩
    · next q' hyq =>
      rw [hyq] at hp
      split at h
      · cases h
      · next hend =>
        exact ⟨.directY, lit, x, ⟨s1, s2, q', [], h1, h2,
          blank_of_skipWhitespace (not_not.mp hend), .nil⟩, hx, hp⟩
    · cases h
  · cases h

/-- **What gets through**: an operand in a format, or one that does not close its
parenthesis. -/
theorem asOperand_ok {past : OpRow} {mne : Text} {addr : Word} {p : Text}
    {r : AddrEnum × ℕ × Word} (hlen : p.length < 256) (h : asOperand past mne addr p = .ok r) :
    InFormat p ∨ Unclosed p := by
  rw [asOperand.eq_def] at h
  split at h
  · exact .inl ⟨.implied, _, _, .none, literal_zero, rfl⟩
  · next s =>
    split at h
    · next hend =>
      exact .inl ⟨.accumulator, _, _, ⟨s, [], [], [], blank_of_skipWhitespace hend, .nil, .nil,
        .nil⟩, literal_zero, rfl⟩
    · cases h
  · next s =>
    obtain ⟨⟨n, v⟩, hv, h⟩ := bind_ok h
    dsimp only at h
    split at h
    · next hend =>
      rw [List.length_cons] at hlen
      obtain ⟨lit, x, s1, hx, h1, hs⟩ := literal_of_follows (by omega) hv
        (by simp [hend.1])
      rw [hend.1, List.append_nil] at hs
      rw [hs]
      exact .inl ⟨.immediate, lit, x, ⟨s1, [], [], [], h1, .nil, .nil, .nil⟩, hx, rfl⟩
    · cases h
  · rw [List.length_cons] at hlen
    exact asIndirect_ok (by omega) h
  · split at h
    · exact .inl (asDirect_ok hlen h)
    · cases h

/-- An operand that is not closed reads as an implied one, with no length. -/
theorem asOperand_unclosed {past : OpRow} {mne p : Text} {addr : Word} (h : Unclosed p) :
    ∃ v, asOperand past mne addr p = .ok (AT_IMPLIED, 0, v) := by
  obtain ⟨s, n, v, rfl, hv, hnext⟩ := h
  refine ⟨v, ?_⟩
  rw [asOperand, asIndirect, hv]
  simp only [bind, Except.bind]
  split
  · next p hp => exact absurd rfl (hnext ')' (by rw [hp]; rfl)).1
  · next p hp => exact absurd rfl (hnext ',' (by rw [hp]; rfl)).2
  · rfl

/-- The mode that is settled on is written in the format, has the length that is
returned, and has room for the value. -/
theorem result_ok {past : OpRow} {mne : Text} {addr val : Word} {f : Format}
    {r : AddrEnum × ℕ × Word} (h : f.result past mne addr val = .ok r) :
    r.1.format = f ∧ r.2.1 = r.1.length ∧
      (r.1.length = 2 → r.1 ≠ AT_RELATIVE → val ≤ 0xff#16) := by
  cases f with
  | implied | accumulator | indirect =>
    cases h
    exact ⟨rfl, rfl, nofun⟩
  | immediate | indexedIndirect | indirectIndexed =>
    simp only [Format.result, byteOnly] at h
    split at h
    · next hval =>
      cases h
      exact ⟨rfl, rfl, fun _ _ => hval⟩
    · cases h
  | direct =>
    simp only [Format.result] at h
    split at h
    · next hval =>
      cases h
      exact ⟨rfl, rfl, fun _ _ => hval.1⟩
    · split at h
      · cases h
        exact ⟨rfl, rfl, fun _ hne => absurd rfl hne⟩
      · cases h
        exact ⟨rfl, rfl, nofun⟩
  | directX | directY =>
    simp only [Format.result] at h
    split at h
    · next hval =>
      cases h
      exact ⟨rfl, rfl, fun _ _ => hval.1⟩
    · cases h
      exact ⟨rfl, rfl, nofun⟩

/-- What does not close its parenthesis is in no format. -/
theorem Unclosed.not_inFormat {p : Text} (h : Unclosed p) (hlen : p.length < 256) :
    ¬ InFormat p := by
  rintro ⟨f, lit, v, sp, hlit, rfl⟩
  obtain ⟨w, hw⟩ := @asOperand_unclosed zeroRow [] _ 0 h
  rw [asOperand_text zeroRow [] 0 sp f hlit hlen] at hw
  obtain ⟨-, hzero, -⟩ := result_ok hw
  cases hzero

/-- A value that a mode of the mnemonic has room for is accepted in the mode's
format, be it as another mode. -/
theorem asEmit_result {past : OpRow} {mne : Text} {addr val : Word} {mode : AddrEnum}
    (hfound : findMne past mne mode ≠ OPCODES)
    (hbyte : mode.length = 2 → mode ≠ AT_RELATIVE → val ≤ 0xff#16) :
    ∃ n, (asEmit past mne (mode.format.result past mne addr val)).ret = .ok n := by
  have hemit {a : AddrEnum} (len : ℕ) (v : Word) (h : findMne past mne a ≠ OPCODES) :
      ∃ n, (asEmit past mne (.ok (a, len, v))).ret = .ok n := by
    refine ⟨len, ?_⟩
    rw [asEmit]
    exact congrArg AsResult.ret (if_neg h)
  cases mode with
  | AT_IMPLIED | AT_ACCUMULATOR | AT_IND_ABS => exact hemit _ _ hfound
  | AT_IMMEDIATE | AT_INDEX_IND | AT_IND_INDEX =>
    rw [AddrEnum.format, Format.result, byteOnly, if_pos (hbyte rfl (by decide))]
    exact hemit _ _ hfound
  -- a shorter mode, or a branch, may be found first
  | AT_ABSOLUTE =>
    simp only [AddrEnum.format, Format.result]
    split
    · next hz => exact hemit _ _ hz.2
    · split
      · next hrel => exact hemit _ _ hrel
      · exact hemit _ _ hfound
  | AT_RELATIVE =>
    simp only [AddrEnum.format, Format.result]
    split
    · next hz => exact hemit _ _ hz.2
    · exact hemit _ _ hfound
  | AT_ZEROP =>
    rw [AddrEnum.format, Format.result, if_pos ⟨hbyte rfl (by decide), hfound⟩]
    exact hemit _ _ hfound
  | AT_ABS_INDEX_X | AT_ABS_INDEX_Y =>
    simp only [AddrEnum.format, Format.result]
    split
    · next hz => exact hemit _ _ hz.2
    · exact hemit _ _ hfound
  | AT_ZP_INDEX_X | AT_ZP_INDEX_Y =>
    rw [AddrEnum.format, Format.result, if_pos ⟨hbyte rfl (by decide), hfound⟩]
    exact hemit _ _ hfound

theorem asIndirect_error {s : Text} {e : Fault} (hlen : s.length < 256)
    (h : asIndirect s = .error e) : e = .refused := by
  rcases bind_error h with hv | ⟨⟨n, v⟩, -, h⟩
  · exact getValue_error hlen hv
  · dsimp only at h
    repeat' split at h
    all_goals
      cases h
      try rfl

theorem asDirect_error {past : OpRow} {mne : Text} {addr : Word} {p : Text} {e : Fault}
    (hlen : p.length < 256) (h : asDirect past mne addr p = .error e) : e = .refused := by
  rcases bind_error h with hv | ⟨⟨n, v⟩, -, h⟩
  · exact getValue_error hlen hv
  · dsimp only at h
    repeat' split at h
    all_goals
      cases h
      try rfl

/-- An operand is refused, never read for ever. -/
theorem asOperand_error {past : OpRow} {mne : Text} {addr : Word} {p : Text} {e : Fault}
    (hlen : p.length < 256) (h : asOperand past mne addr p = .error e) : e = .refused := by
  rw [asOperand.eq_def] at h
  split at h
  · cases h
  · split at h
    · cases h
    · cases h
      rfl
  · next s =>
    rw [List.length_cons] at hlen
    rcases bind_error h with hv | ⟨⟨n, v⟩, -, h⟩
    · exact getValue_error (by omega) hv
    · dsimp only at h
      split at h
      · cases h
      · cases h
        rfl
  · rw [List.length_cons] at hlen
    exact asIndirect_error (by omega) h
  · split at h
    · exact asDirect_error hlen h
    · cases h
      rfl

/-! ### The line -/

theorem length_upperLine (line : Text) : (upperLine line).length ≤ line.length := by
  rw [upperLine, List.length_map]
  exact length_skipWhitespace line

theorem length_operandOf (line : Text) : (operandOf line).length ≤ line.length := by
  have hle := length_skipWhitespace ((upperLine line).drop 3)
  rw [List.length_drop] at hle
  have hupper := length_upperLine line
  rw [operandOf]
  omega

/-- A line that is no `.` line is its mnemonic and its operand. -/
theorem dasmAs_eq {past : OpRow} {addr : Word} {line : Text}
    (hdot : (skipWhitespace line).head? ≠ some '.') (hlen : line.length < 256) :
    dasmAs past addr line = if findMne past (mneOf line) none = OPCODES then .fail .refused
      else asEmit past (mneOf line) (asOperand past (mneOf line) addr (operandOf line)) := by
  have hupper := length_upperLine line
  have hshort (h : (upperLine line).length < 3) : findMne past (mneOf line) none = OPCODES := by
    by_contra hfound
    have h3 := length_of_found hfound
    rw [mneOf, List.length_take] at h3
    omega
  have hlen' := length_skipWhitespace line
  rcases hs : skipWhitespace line with - | ⟨c, t⟩
  · rw [if_pos (hshort (by rw [upperLine, hs]; decide)), dasmAs, hs]
  · have hc : c ≠ '.' := fun h => hdot (by rw [hs, h]; rfl)
    by_cases h3 : 3 ≤ (c :: t).length
    · rw [hs] at hlen'
      rw [dasmAs_of_skip addr hs hc h3, if_neg (by omega), asMnemonic, ← hs]
      rfl
    · rw [if_pos (hshort (by rw [upperLine, hs, List.length_map]; omega)), dasmAs, hs]
      split
      · rfl
      · next heq => exact absurd (List.cons.inj heq).1 hc
      · exact if_pos (by omega)

/-- The mnemonic and the operand, with the white space between them. -/
theorem upperLine_eq (line : Text) :
    ∃ gap, Blank gap ∧ upperLine line = mneOf line ++ (gap ++ operandOf line) := by
  obtain ⟨gap, hgap, hdrop⟩ := exists_blank ((upperLine line).drop 3)
  refine ⟨gap, hgap, ?_⟩
  rw [operandOf, ← hdrop, mneOf, List.take_append_drop]

/-- An operand in a format behind a mnemonic makes a line. -/
theorem writes_of_operand {line lit : Text} {f : Format} {v : ℕ} {sp : Spaces}
    (hlit : Literal lit v) (hp : operandOf line = f.text lit sp) :
    Writes (mneOf line) f v line := by
  obtain ⟨lead, hlead, hline⟩ := exists_blank line
  obtain ⟨gap, hgap, hupper⟩ := upperLine_eq line
  refine ⟨lead.map toupper, gap, lit, sp, ?_, hgap, hlit, ?_⟩
  · intro c hc
    obtain ⟨d, hd, rfl⟩ := List.mem_map.mp hc
    rw [isspace_toupper]
    exact hlead d hd
  · rw [← hp, ← hupper, upperLine, ← List.map_append, ← hline]

/-- The literal of an operand behind a mnemonic of letters fits when the line's do. -/
theorem operand_fits {line lit : Text} {f : Format} {v : ℕ} {sp : Spaces}
    (hfits : LiteralsFit line) (hmne : IsMne (mneOf line)) (hlit : Literal lit v)
    (hp : operandOf line = f.text lit sp) (hf : f ≠ .implied) (hf' : f ≠ .accumulator) :
    v < 2 ^ 16 := by
  obtain ⟨gap, hgap, hupper⟩ := upperLine_eq line
  have hmem := mem_literals_text hlit hf hf' sp
  rw [← hp, ← literals_blank hgap, ← literals_mne hmne, ← hupper, upperLine,
    literals_toupper] at hmem
  exact Nat.lt_succ_of_le (hfits.skipWhitespace v hmem)

theorem toByte_injective {a b : AddrEnum} (h : a.toByte = b.toByte) : a = b := by
  have hof (a : AddrEnum) : AddrEnum.ofByte a.toByte = some a := by
    cases a <;> rfl
  have heq := congrArg AddrEnum.ofByte h
  rw [hof, hof] at heq
  exact Option.some.inj heq

/-- An instruction in a mode that has room for the operand makes the line well
formed, or it is a branch that is too far. -/
theorem wellFormed_of_instr {mn : Mnemonic} {m : Mode} {addr : Word} {line lit : Text} {v : ℕ}
    {sp : Spaces} (hhas : mn.has m = true) (hmne : mneText mn = mneOf line)
    (hfits : LiteralsFit line) (hlit : Literal lit v)
    (hp : operandOf line = (addrEnum m).format.text lit sp)
    (hbyte : (addrEnum m).length = 2 → addrEnum m ≠ AT_RELATIVE →
      BitVec.ofNat 16 v ≤ 0xff#16) :
    WellFormed addr line ∨ FarBranch addr line := by
  have hwrites := writes_of_operand hlit hp
  have hismne : IsMne (mneOf line) := hmne ▸ (tabled mn m hhas).isMne
  have hlt := operand_fits hfits hismne hlit hp
  rw [← hmne] at hwrites
  cases m with
  -- the literal is not written
  | implied =>
    have hzero := @writes_of_operand line ['0'] .implied 0 sp literal_zero hp
    rw [← hmne] at hzero
    exact .inl ⟨.instr mn .implied, 0, ⟨hhas, Nat.one_pos⟩, hzero⟩
  | accumulator =>
    have hzero := @writes_of_operand line ['0'] .accumulator 0 sp literal_zero hp
    rw [← hmne] at hzero
    exact .inl ⟨.instr mn .accumulator, 0, ⟨hhas, Nat.one_pos⟩, hzero⟩
  | relative =>
    by_cases hfit : OperandFits addr v .relative
    · exact .inl ⟨.instr mn .relative, v, ⟨hhas, hfit⟩, hwrites⟩
    · exact .inr ⟨mn, v, hhas, hfit, hwrites⟩
  | absolute | absoluteX | absoluteY | indirect =>
    exact .inl ⟨.instr mn _, v, ⟨hhas, hlt nofun nofun⟩, hwrites⟩
  | immediate | zeroPage | zeroPageX | zeroPageY | indexedIndirect | indirectIndexed =>
    have hshort := (short_iff (hlt nofun nofun)).mp (hbyte rfl nofun)
    exact .inl ⟨.instr mn _, v, ⟨hhas, hshort⟩, hwrites⟩

/-- So does a row of the table. -/
theorem wellFormed_of_row {r : OpRow} {mode : AddrEnum} {addr : Word} {line lit : Text} {v : ℕ}
    {sp : Spaces} (hr : r ∈ vmOpTbl) (hfor : OpRow.isFor (mneOf line) (some mode) r = true)
    (hfits : LiteralsFit line) (hlit : Literal lit v)
    (hp : operandOf line = mode.format.text lit sp)
    (hbyte : mode.length = 2 → mode ≠ AT_RELATIVE → BitVec.ofNat 16 v ≤ 0xff#16) :
    WellFormed addr line ∨ FarBranch addr line := by
  rw [OpRow.isFor, Bool.and_eq_true, beq_iff_eq, Option.all_some, beq_iff_eq] at hfor
  obtain ⟨f, hmne, hmode, hop⟩ := tbl_form r hr
  rw [hfor.1] at hmne
  obtain rfl : f.mode = mode := toByte_injective (hmode.trans hfor.2)
  cases f with
  | sys => exact .inl ⟨.sys, v, trivial, hmne ▸ writes_of_operand hlit hp⟩
  | instr mn m => exact wellFormed_of_instr hop hmne hfits hlit hp hbyte

/-- **What is accepted** is well formed, or slips through. -/
theorem accepted {past : OpRow} {addr : Word} {line : Text} {n : ℕ}
    (hdot : (skipWhitespace line).head? ≠ some '.') (hlen : line.length < 256)
    (hfits : LiteralsFit line) (h : (dasmAs past addr line).ret = .ok n) :
    WellFormed addr line ∨ Slips past addr line := by
  rw [dasmAs_eq hdot hlen] at h
  split at h
  · cases h
  rcases hop : asOperand past (mneOf line) addr (operandOf line) with e | r
  · rw [hop] at h
    cases h
  have hfound : findMne past (mneOf line) r.1 ≠ OPCODES := by
    intro heq
    rw [hop, asEmit, if_pos heq] at h
    cases h
  have hoplen := (length_operandOf line).trans_lt hlen
  rcases asOperand_ok hoplen hop with ⟨f, lit, v, sp, hlit, hp⟩ | hunclosed
  · rw [hp] at hoplen hop
    rw [asOperand_text past _ addr sp f hlit hoplen] at hop
    obtain ⟨rfl, -, hbyte⟩ := result_ok hop
    obtain ⟨r', hr', hfor⟩ := findMne_ne_OPCODES_iff.mp hfound
    rcases List.mem_append.mp hr' with hr' | hr'
    · rcases wellFormed_of_row hr' hfor hfits hlit hp hbyte with hwf | hfar
      · exact .inl hwf
      · exact .inr (.inr (.inl hfar))
    · obtain rfl := List.mem_singleton.mp hr'
      rw [OpRow.isFor, Bool.and_eq_true, beq_iff_eq, Option.all_some, beq_iff_eq] at hfor
      exact .inr (.inr (.inr ⟨hfor.1.symm, r.1, lit, v, sp, hfor.2, hlit, hp, hbyte⟩))
  · obtain ⟨v, hv⟩ := @asOperand_unclosed past (mneOf line) _ addr hunclosed
    rw [hop] at hv
    obtain rfl := Except.ok.inj hv
    exact .inr (.inl ⟨hfound, hunclosed⟩)

/-- An operand in the format of a mode that is found is accepted. -/
theorem accepted_of_text {past : OpRow} {mode : AddrEnum} {addr : Word} {line lit : Text} {v : ℕ}
    {sp : Spaces} (hdot : (skipWhitespace line).head? ≠ some '.') (hlen : line.length < 256)
    (hfound : findMne past (mneOf line) mode ≠ OPCODES) (hlit : Literal lit v)
    (hp : operandOf line = mode.format.text lit sp)
    (hbyte : mode.length = 2 → mode ≠ AT_RELATIVE → BitVec.ofNat 16 v ≤ 0xff#16) :
    ∃ n, (dasmAs past addr line).ret = .ok n := by
  have hoplen := (length_operandOf line).trans_lt hlen
  rw [hp] at hoplen
  rw [dasmAs_eq hdot hlen, if_neg (found_any hfound), hp,
    asOperand_text past _ addr sp mode.format hlit hoplen]
  exact asEmit_result hfound hbyte

/-- The mnemonic and the operand of a line that is written. -/
theorem Writes.parts {mne line : Text} {f : Format} {v : ℕ} (hmne : IsMne mne)
    (h : Writes mne f v line) :
    mneOf line = mne ∧ ∃ lit sp, Literal lit v ∧ operandOf line = f.text lit sp := by
  obtain ⟨c, t, gap, lit, sp, hskip, -, -, hgap, hlit, hmap⟩ := h.skip hmne
  have hupper : upperLine line = mne ++ (gap ++ f.text lit sp) := by
    rw [upperLine, hskip, hmap]
  constructor
  · rw [mneOf, hupper, ← hmne.1, List.take_left]
  · refine ⟨lit, sp, hlit, ?_⟩
    rw [operandOf, hupper, ← hmne.1, List.drop_left, skipWhitespace_blank_append hgap,
      skipWhitespace_text f hlit]

/-- **What slips through is accepted.** -/
theorem Slips.accepted {past : OpRow} {addr : Word} {line : Text}
    (hdot : (skipWhitespace line).head? ≠ some '.') (hlen : line.length < 256)
    (h : Slips past addr line) : ∃ n, (dasmAs past addr line).ret = .ok n := by
  rcases h with ⟨hfound, hunclosed⟩ | ⟨mn, v, hhas, -, hwrites⟩ |
    ⟨hmne, mode, lit, v, sp, hmode, hlit, hp, hbyte⟩
  · obtain ⟨v, hv⟩ := @asOperand_unclosed past (mneOf line) _ addr hunclosed
    rw [dasmAs_eq hdot hlen, if_neg (found_any hfound), hv, asEmit, if_neg hfound]
    exact ⟨0, rfl⟩
  · have ht := tabled mn .relative hhas
    obtain ⟨hmne, lit, sp, hlit, hp⟩ := hwrites.parts ht.isMne
    have hrow : (tblOp (mneText mn) (addrEnum .relative)).isSome = true := by
      rw [ht.row]
      exact ht.searched (by decide)
    have hfound : findMne past (mneOf line) AT_RELATIVE ≠ OPCODES := found_of_tblOp (hmne ▸ hrow)
    exact accepted_of_text hdot hlen hfound hlit hp fun _ hne => absurd rfl hne
  · have hfound : findMne past (mneOf line) mode ≠ OPCODES := by
      refine findMne_ne_OPCODES_iff.mpr ⟨past, by simp, ?_⟩
      rw [OpRow.isFor, hmne, hmode]
      simp
    exact accepted_of_text hdot hlen hfound hlit hp hbyte

/-- What is not accepted is refused. -/
theorem refused_of_error {past : OpRow} {addr : Word} {line : Text} {e : Fault}
    (hdot : (skipWhitespace line).head? ≠ some '.') (hlen : line.length < 256)
    (h : (dasmAs past addr line).ret = .error e) : e = .refused := by
  rw [dasmAs_eq hdot hlen] at h
  split at h
  · cases h
    rfl
  rcases hop : asOperand past (mneOf line) addr (operandOf line) with e' | r
  · rw [hop] at h
    cases h
    exact asOperand_error ((length_operandOf line).trans_lt hlen) hop
  · rw [hop, asEmit] at h
    split at h
    · cases h
      rfl
    · cases h

/-- A line whose operand does not close its parenthesis is malformed. -/
theorem Unclosed.malformed {line : Text} (addr : Word) (h : Unclosed (operandOf line))
    (hlen : line.length < 256) : ¬ WellFormed addr line := by
  rintro ⟨f, v, hallows, hwrites⟩
  obtain ⟨-, lit, sp, hlit, hp⟩ := hwrites.parts hallows.isMne
  exact h.not_inFormat ((length_operandOf line).trans_lt hlen) ⟨_, lit, v, sp, hlit, hp⟩

/-- **A malformed line is refused** exactly when it is none of the slips. -/
theorem refuses_iff {past : OpRow} {addr : Word} {line : Text}
    (hdot : (skipWhitespace line).head? ≠ some '.') (hlen : line.length < 256)
    (hfits : LiteralsFit line) (hmal : ¬ WellFormed addr line) :
    (dasmAs past addr line).ret = .error .refused ↔ ¬ Slips past addr line := by
  constructor
  · intro h hslips
    obtain ⟨n, hn⟩ := hslips.accepted hdot hlen
    rw [h] at hn
    cases hn
  · intro hslips
    rcases hret : (dasmAs past addr line).ret with e | n
    · rw [refused_of_error hdot hlen hret]
    · exact absurd (accepted hdot hlen hfits hret) (not_or.mpr ⟨hmal, hslips⟩)

/-- An operand that is not closed. -/
theorem unclosed_five {line : Text} (h : operandOf line = "(5".toList) :
    Unclosed (operandOf line) :=
  h ▸ ⟨['5'], 1, 5, rfl, by decide, nofun⟩

/-- `LDA (5`. -/
theorem refuses_iff_lda :
    (dasmAs zeroRow 0x1a00 "LDA (5".toList).ret = .error .refused ↔
      ¬ Slips zeroRow 0x1a00 "LDA (5".toList :=
  refuses_iff (by decide) (by decide) (by decide +kernel)
    ((unclosed_five (by decide)).malformed 0x1a00 (by decide))

/-- `RTS (5` returns 0. -/
theorem rts_unclosed :
    let line := "RTS (5".toList
    (dasmAs zeroRow 0x1a00 line).ret = .ok 0 ∧ LiteralsFit line ∧ ¬ WellFormed 0x1a00 line :=
  ⟨by decide +kernel, by decide +kernel,
    (unclosed_five (by decide)).malformed 0x1a00 (by decide)⟩

end Dan64
