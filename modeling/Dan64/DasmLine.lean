/-
Dan64/DasmLine.lean

What `dasm_as` makes of a well-formed line.

A line is well formed when, in upper case, it is a mnemonic followed by an
operand in one of the formats of the manual, with white space where the parser
skips it (`Line`).  `asOperand_text` says, per format, what the operand parser
returns; `dasmAs_line` puts the mnemonic and the table search around it.  The
argument is the same everywhere: a literal is read exactly because nothing that
may follow it continues it, and white space is skipped because what follows it
is not white space.
-/
import Dan64.Dasm

namespace Dan64

open CText AddrEnum

/-! ### White space -/

/-- White space only. -/
def Blank (ws : Text) : Prop := ∀ c ∈ ws, isspace c = true

theorem Blank.nil : Blank [] := List.forall_mem_nil _

theorem Blank.space : Blank [' '] := by
  intro c hc
  rw [List.mem_singleton.mp hc]
  rfl

theorem skipWhitespace_blank_append {ws : Text} (h : Blank ws) (s : Text) :
    skipWhitespace (ws ++ s) = skipWhitespace s :=
  List.dropWhile_append_of_pos h

theorem skipWhitespace_blank {ws : Text} (h : Blank ws) : skipWhitespace ws = [] :=
  List.dropWhile_eq_nil_iff.mpr h

theorem skipWhitespace_cons {c : Char} (h : isspace c = false) (s : Text) :
    skipWhitespace (c :: s) = c :: s :=
  List.dropWhile_cons_of_neg (by simp [h])

/-- White space is skipped up to a character that is not. -/
theorem skipWhitespace_blank_cons {ws : Text} (h : Blank ws) {c : Char}
    (hc : isspace c = false) (s : Text) : skipWhitespace (ws ++ c :: s) = c :: s := by
  rw [skipWhitespace_blank_append h, skipWhitespace_cons hc]

theorem skipWhitespace_map_toupper (s : Text) :
    skipWhitespace (s.map toupper) = (skipWhitespace s).map toupper := by
  rw [skipWhitespace, List.dropWhile_map]
  refine congrArg _ (congrArg (List.dropWhile · s) ?_)
  funext c
  exact isspace_toupper c

/-! ### Literals -/

/-- A literal of a value: `$` and hexadecimal digits, or decimal digits. -/
inductive Literal : Text → ℕ → Prop
  | hex {ds : Text} : ds ≠ [] → (∀ c ∈ ds, isxdigit c = true) →
      Literal ('$' :: ds) (numeral 16 ds)
  | dec {ds : Text} : ds ≠ [] → (∀ c ∈ ds, isdigit c = true) → Literal ds (numeral 10 ds)

/-- What may follow a literal: the end, white space, a comma or a parenthesis. -/
def Follows (rest : Text) : Prop :=
  ∀ c ∈ rest.head?, isspace c = true ∨ c = ',' ∨ c = ')'

theorem Follows.not_isxdigit {rest : Text} (h : Follows rest) : Stops isxdigit rest := by
  intro c hc
  rcases h c hc with hsp | rfl | rfl
  · exact not_isxdigit_of_isspace hsp
  · rfl
  · rfl

theorem Follows.not_isdigit {rest : Text} (h : Follows rest) : Stops isdigit rest := by
  intro c hc
  have hx := h.not_isxdigit c hc
  rw [isxdigit, Bool.or_eq_false_iff, Bool.or_eq_false_iff] at hx
  exact hx.1.1

theorem Follows.not_x {rest : Text} (h : Follows rest) :
    ∀ c ∈ rest.head?, c ≠ 'x' ∧ c ≠ 'X' := by
  intro c hc
  rcases h c hc with hsp | rfl | rfl
  · exact ⟨ne_of_class hsp rfl, ne_of_class hsp rfl⟩
  · decide
  · decide

theorem Follows.of_blank {ws : Text} (h : Blank ws) : Follows ws := by
  intro c hc
  exact .inl (h c (List.mem_of_mem_head? hc))

theorem Follows.blank_append {ws rest : Text} (h : Blank ws) (hrest : Follows rest) :
    Follows (ws ++ rest) := by
  rcases ws with - | ⟨c, ws⟩
  · exact hrest
  · intro d hd
    obtain rfl : c = d := by simpa using hd
    exact .inl (h c (by simp))

theorem Follows.comma (rest : Text) : Follows (',' :: rest) := by
  intro c hc
  exact .inr (.inl (by simpa [eq_comm] using hc))

theorem Follows.paren (rest : Text) : Follows (')' :: rest) := by
  intro c hc
  exact .inr (.inr (by simpa [eq_comm] using hc))

/-- The first character of a literal is one that starts a literal. -/
theorem Literal.head {s : Text} {v : ℕ} (h : Literal s v) :
    ∃ c t, s = c :: t ∧ (isdigit c || c == '$') = true := by
  rcases h with @⟨ds, -, -⟩ | @⟨ds, hne, hds⟩
  · exact ⟨'$', ds, rfl, rfl⟩
  · obtain ⟨d, ds, rfl⟩ := List.exists_cons_of_ne_nil hne
    exact ⟨d, ds, rfl, by rw [hds d (by simp), Bool.true_or]⟩

theorem starts_not_isspace {c : Char} (h : (isdigit c || c == '$') = true) :
    isspace c = false := by
  rw [Bool.or_eq_true, beq_iff_eq] at h
  rcases h with h | rfl
  · refine Bool.eq_false_iff.mpr fun hsp => ?_
    have hx := isxdigit_of_isdigit h
    rw [not_isxdigit_of_isspace hsp] at hx
    exact Bool.false_ne_true hx
  · rfl

/-- **A literal is read exactly**, whatever may follow it. -/
theorem getValue_literal {s rest : Text} {v : ℕ} (h : Literal s v) (hlen : s.length < 256)
    (hrest : Follows rest) :
    getValue (s ++ rest) = .ok (s.length, BitVec.ofNat 16 v) := by
  rcases h with @⟨ds, hne, hds⟩ | @⟨ds, hne, hds⟩
  · have hlt : ds.length < 255 := by
      rw [List.length_cons] at hlen
      omega
    rw [List.cons_append, getValue, sscanfHex_append hne hds hrest.not_isxdigit hrest.not_x,
      takeWhile_append_stops hds hrest.not_isxdigit]
    simp [hlt, Nat.add_comm]
  · obtain ⟨d, ds, rfl⟩ := List.exists_cons_of_ne_nil hne
    have hd : d ≠ '$' := ne_of_class (hds d (by simp)) rfl
    rw [getValue]
    · rw [sscanfDec_append hne hds hrest.not_isdigit,
        takeWhile_append_stops hds hrest.not_isdigit, if_neg (by omega)]
      simp
    · simp
    · intro t ht
      exact hd (List.cons.inj ht).1

/-! ### Operands -/

/-- The white space of an operand. -/
structure Spaces where
  s1 : Text
  s2 : Text
  s3 : Text
  s4 : Text
  blank1 : Blank s1
  blank2 : Blank s2
  blank3 : Blank s3
  blank4 : Blank s4

/-- No white space. -/
def Spaces.none : Spaces := ⟨[], [], [], [], nofun, nofun, nofun, nofun⟩

/-- The formats of the manual. -/
inductive Format
  | implied | accumulator | immediate | direct | directX | directY
  | indirect | indexedIndirect | indirectIndexed
  deriving DecidableEq

/-- An operand in a format, from its literal and its white space. -/
def Format.text (lit : Text) (sp : Spaces) : Format → Text
  | .implied => []
  | .accumulator => 'A' :: sp.s1
  | .immediate => '#' :: (lit ++ sp.s1)
  | .direct => lit ++ sp.s1
  | .directX => lit ++ (sp.s1 ++ ',' :: (sp.s2 ++ 'X' :: sp.s3))
  | .directY => lit ++ (sp.s1 ++ ',' :: (sp.s2 ++ 'Y' :: sp.s3))
  | .indirect => '(' :: (lit ++ (sp.s1 ++ ')' :: sp.s2))
  | .indexedIndirect => '(' :: (lit ++ (sp.s1 ++ ',' :: (sp.s2 ++ 'X' :: (sp.s3 ++ ')' :: sp.s4))))
  | .indirectIndexed => '(' :: (lit ++ (sp.s1 ++ ')' :: (sp.s2 ++ ',' :: 'Y' :: sp.s3)))

/-- The value fits in a byte, or the operand is refused. -/
def byteOnly (val : Word) (r : AddrEnum × ℕ × Word) : Except Fault (AddrEnum × ℕ × Word) :=
  if val ≤ 0xff#16 then .ok r else .error .refused

/-- The mode, the length and the value that the operand parser settles on. -/
def Format.result (past : OpRow) (mne : Text) (addr val : Word) :
    Format → Except Fault (AddrEnum × ℕ × Word)
  | .implied => .ok (AT_IMPLIED, 1, 0)
  | .accumulator => .ok (AT_ACCUMULATOR, 1, 0)
  | .immediate => byteOnly val (AT_IMMEDIATE, 2, val)
  | .direct =>
    if val ≤ 0xff#16 ∧ findMne past mne AT_ZEROP ≠ OPCODES then .ok (AT_ZEROP, 2, val)
    else if findMne past mne AT_RELATIVE ≠ OPCODES then
      .ok (AT_RELATIVE, 2, ((val - addr - 1).setWidth 8).setWidth 16)
    else .ok (AT_ABSOLUTE, 3, val)
  | .directX =>
    if val ≤ 0xff#16 ∧ findMne past mne AT_ZP_INDEX_X ≠ OPCODES then
      .ok (AT_ZP_INDEX_X, 2, val)
    else .ok (AT_ABS_INDEX_X, 3, val)
  | .directY =>
    if val ≤ 0xff#16 ∧ findMne past mne AT_ZP_INDEX_Y ≠ OPCODES then
      .ok (AT_ZP_INDEX_Y, 2, val)
    else .ok (AT_ABS_INDEX_Y, 3, val)
  | .indirect => .ok (AT_IND_ABS, 3, val)
  | .indexedIndirect => byteOnly val (AT_INDEX_IND, 2, val)
  | .indirectIndexed => byteOnly val (AT_IND_INDEX, 2, val)

section Operand

variable (past : OpRow) (mne : Text) (addr : Word) {lit : Text} {v : ℕ} (sp : Spaces)

/-- An operand that starts with a literal is `asDirect`. -/
theorem asOperand_literal (h : Literal lit v) (rest : Text) :
    asOperand past mne addr (lit ++ rest) = asDirect past mne addr (lit ++ rest) := by
  obtain ⟨c, t, rfl, hc⟩ := h.head
  rw [List.cons_append, asOperand, if_pos hc]
  · rintro rfl
    exact absurd hc (by decide)
  · rintro rfl
    exact absurd hc (by decide)
  · rintro rfl
    exact absurd hc (by decide)

theorem drop_literal (lit rest : Text) : (lit ++ rest).drop lit.length = rest :=
  List.drop_left

theorem length_lit_le (f : Format) (lit : Text) (hf : f ≠ .implied)
    (hf' : f ≠ .accumulator) : lit.length ≤ (f.text lit sp).length := by
  cases f
  case implied => exact absurd rfl hf
  case accumulator => exact absurd rfl hf'
  all_goals
    simp only [Format.text, List.length_append, List.length_cons]
    omega

/-- **What the operand parser returns**, per format. -/
theorem asOperand_text (f : Format) (h : Literal lit v) (hlen : (f.text lit sp).length < 256) :
    asOperand past mne addr (f.text lit sp) = f.result past mne addr (BitVec.ofNat 16 v) := by
  -- the literal is a part of the text
  have hlit (hf : f ≠ .implied) (hf' : f ≠ .accumulator) : lit.length < 256 :=
    (length_lit_le sp f lit hf hf').trans_lt hlen
  obtain ⟨s1, s2, s3, s4, h1, h2, h3, h4⟩ := sp
  cases f with
  | implied => rfl
  | accumulator =>
    show (if skipWhitespace s1 = [] then _ else _) = _
    rw [if_pos (skipWhitespace_blank h1)]
    rfl
  | immediate =>
    show (getValue (lit ++ s1) >>= fun _ => _) = _
    rw [getValue_literal h (hlit nofun nofun) (.of_blank h1)]
    show (if skipWhitespace ((lit ++ s1).drop lit.length) = [] ∧ _ then _ else _) = _
    rw [drop_literal, skipWhitespace_blank h1]
    simp only [true_and]
    rfl
  | direct =>
    rw [Format.text, asOperand_literal past mne addr h, asDirect,
      getValue_literal h (hlit nofun nofun) (.of_blank h1)]
    simp only [bind, Except.bind, drop_literal, skipWhitespace_blank h1]
    rfl
  -- the blanks before and behind the comma are skipped
  | directX | directY =>
    rw [Format.text, asOperand_literal past mne addr h, asDirect,
      getValue_literal h (hlit nofun nofun) (.blank_append h1 (.comma _))]
    simp only [bind, Except.bind, drop_literal, skipWhitespace_blank h3,
      skipWhitespace_blank_cons h1 (show isspace ',' = false by decide),
      skipWhitespace_blank_cons h2 (show isspace 'X' = false by decide),
      skipWhitespace_blank_cons h2 (show isspace 'Y' = false by decide)]
    rfl
  | indirect =>
    rw [Format.text, asOperand, asIndirect,
      getValue_literal h (hlit nofun nofun) (.blank_append h1 (.paren _))]
    simp only [bind, Except.bind, drop_literal, skipWhitespace_blank h2,
      skipWhitespace_blank_cons h1 (show isspace ')' = false by decide)]
    rfl
  | indexedIndirect =>
    rw [Format.text, asOperand, asIndirect,
      getValue_literal h (hlit nofun nofun) (.blank_append h1 (.comma _))]
    simp only [bind, Except.bind, drop_literal, skipWhitespace_blank h4,
      skipWhitespace_blank_cons h1 (show isspace ',' = false by decide),
      skipWhitespace_blank_cons h2 (show isspace 'X' = false by decide),
      skipWhitespace_blank_cons h3 (show isspace ')' = false by decide), true_and]
    rfl
  | indirectIndexed =>
    rw [Format.text, asOperand, asIndirect,
      getValue_literal h (hlit nofun nofun) (.blank_append h1 (.paren _))]
    simp only [bind, Except.bind, drop_literal, skipWhitespace_blank h3,
      skipWhitespace_blank_cons h1 (show isspace ')' = false by decide),
      skipWhitespace_blank_cons h2 (show isspace ',' = false by decide), true_and]
    rfl

end Operand

/-! ### Table searches -/

/-- The bytes after the table do not read as the mnemonic of one of its rows. -/
def PastTable (past : OpRow) : Prop := ∀ r ∈ vmOpTbl, r.mne ≠ past.mne

/-- Zeros after the table. -/
def zeroRow : OpRow := ⟨0, '\x00', '\x00', '\x00', 0⟩

theorem pastTable_zeroRow : PastTable zeroRow := by
  show ∀ r ∈ vmOpTbl, r.mne ≠ zeroRow.mne
  decide +kernel

/-- The opcode of the first row for a mnemonic and a mode. -/
def tblOp (mne : Text) (a : AddrEnum) : Option Byte :=
  (vmOpTbl.find? (OpRow.isFor mne (some a))).map OpRow.op

theorem find_past {past : OpRow} {mne : Text} (h : past.mne ≠ mne) (a : Option AddrEnum) :
    (vmOpTbl ++ [past]).find? (OpRow.isFor mne a) = vmOpTbl.find? (OpRow.isFor mne a) := by
  have hpast : OpRow.isFor mne a past = false := by
    rw [OpRow.isFor, beq_false_of_ne h, Bool.false_and]
  rw [List.find?_append, List.find?_singleton, hpast]
  exact Option.or_none

theorem findMne_eq_OPCODES {past : OpRow} {mne : Text} (h : past.mne ≠ mne)
    (a : Option AddrEnum) :
    findMne past mne a = OPCODES ↔ vmOpTbl.find? (OpRow.isFor mne a) = none := by
  rw [← find_past h, List.find?_eq_getElem?_findIdx, List.getElem?_eq_none_iff]
  have hle := @List.findIdx_le_length _ (OpRow.isFor mne a) (vmOpTbl ++ [past])
  exact ⟨fun heq => heq.ge, fun hge => le_antisymm hle hge⟩

theorem findMne_ne_OPCODES {past : OpRow} {mne : Text} (h : past.mne ≠ mne) (a : AddrEnum) :
    findMne past mne a ≠ OPCODES ↔ (tblOp mne a).isSome = true := by
  rw [ne_eq, findMne_eq_OPCODES h, tblOp, Option.isSome_map, ← ne_eq,
    Option.ne_none_iff_isSome]

/-- What is emitted for a mnemonic and a mode. -/
theorem asEmit_ok {past : OpRow} {mne : Text} (h : past.mne ≠ mne) (a : AddrEnum) (len : ℕ)
    (val : Word) :
    asEmit past mne (.ok (a, len, val)) =
      match tblOp mne a with
      | none => .fail .refused
      | some op => ⟨.ok len, [op] ++ (if len > 1 then [val.setWidth 8] else []) ++
          (if len > 2 then [(val >>> 8).setWidth 8] else [])⟩ := by
  rw [asEmit, tblOp]
  rcases hr : vmOpTbl.find? (OpRow.isFor mne (some a)) with - | r
  · rw [if_pos ((findMne_eq_OPCODES h _).mpr hr)]
    rfl
  · have hne : findMne past mne a ≠ OPCODES := fun heq => by
      rw [(findMne_eq_OPCODES h _).mp heq] at hr
      cases hr
    have hrow : opRow past (findMne past mne a) = r := by
      rw [← find_past h, List.find?_eq_getElem?_findIdx] at hr
      rw [opRow, List.getD_eq_getElem?_getD]
      exact congrArg (Option.getD · past) hr
    rw [if_neg hne, emitOp, hrow]
    rfl

/-! ### Lines -/

/-- A line: in upper case, the mnemonic and the operand. -/
def Writes (mne : Text) (f : Format) (v : ℕ) (line : Text) : Prop :=
  ∃ lead gap lit sp, Blank lead ∧ Blank gap ∧ Literal lit v ∧
    line.map toupper = lead ++ (mne ++ (gap ++ f.text lit sp))

/-- Three capital letters. -/
def IsMne (mne : Text) : Prop :=
  mne.length = 3 ∧ ∀ c ∈ mne, 'A'.toNat ≤ c.toNat ∧ c.toNat ≤ 'Z'.toNat

instance (mne : Text) : Decidable (IsMne mne) :=
  @instDecidableAnd _ _ (Nat.decEq _ _) (List.decidableBAll _ mne)

theorem not_isspace_of_capital {c : Char} (h : 'A'.toNat ≤ c.toNat ∧ c.toNat ≤ 'Z'.toNat) :
    isspace c = false := by
  have h₁ : 65 ≤ c.toNat := h.1
  refine Bool.eq_false_iff.mpr fun hsp => ?_
  rw [isspace_iff] at hsp
  omega

/-- The operand does not start with white space. -/
theorem skipWhitespace_text (f : Format) {lit : Text} {v : ℕ} (h : Literal lit v)
    (sp : Spaces) : skipWhitespace (f.text lit sp) = f.text lit sp := by
  obtain ⟨c, t, rfl, hc⟩ := h.head
  cases f
  case implied => rfl
  case accumulator => exact skipWhitespace_cons rfl _
  case immediate => exact skipWhitespace_cons rfl _
  case direct | directX | directY => exact skipWhitespace_cons (starts_not_isspace hc) _
  case indirect | indexedIndirect | indirectIndexed => exact skipWhitespace_cons rfl _

/-- The line from its first character that is not white space on: not a `.` line,
and in upper case the mnemonic and the operand. -/
theorem Writes.skip {mne line : Text} {f : Format} {v : ℕ} (hmne : IsMne mne)
    (hline : Writes mne f v line) :
    ∃ c t gap lit sp, skipWhitespace line = c :: t ∧ c ≠ '.' ∧ 3 ≤ (c :: t).length ∧
      Blank gap ∧ Literal lit v ∧ (c :: t).map toupper = mne ++ (gap ++ f.text lit sp) := by
  obtain ⟨lead, gap, lit, sp, hlead, hgap, hlit, hmap⟩ := hline
  obtain ⟨hmne3, hcap⟩ := hmne
  obtain ⟨m, ms, rfl⟩ := List.exists_cons_of_length_pos (show 0 < mne.length by omega)
  have hm := hcap m (by simp)
  -- skipping the white space leaves the mnemonic in front
  have hskip : (skipWhitespace line).map toupper = m :: ms ++ (gap ++ f.text lit sp) := by
    rw [← skipWhitespace_map_toupper, hmap, List.cons_append,
      skipWhitespace_blank_cons hlead (not_isspace_of_capital hm)]
  have hlenq := congrArg List.length hskip
  rw [List.length_map, List.length_append, hmne3] at hlenq
  obtain ⟨c, t, hct⟩ := List.exists_cons_of_length_pos (show 0 < (skipWhitespace line).length by
    omega)
  rw [hct] at hskip hlenq
  refine ⟨c, t, gap, lit, sp, hct, ?_, by omega, hgap, hlit, hskip⟩
  rintro rfl
  rw [List.map_cons, List.cons_append] at hskip
  rw [← (List.cons.inj hskip).1] at hm
  exact absurd hm (by decide)

theorem dasmAs_of_skip {past : OpRow} {line t : Text} {c : Char} (addr : Word)
    (h : skipWhitespace line = c :: t) (hc : c ≠ '.') (h3 : 3 ≤ (c :: t).length) :
    dasmAs past addr line = if 256 ≤ (c :: t).length then .fail .hang
      else asMnemonic past addr ((c :: t).map toupper) := by
  rw [dasmAs, h]
  split
  · next heq => cases heq
  · next heq => exact absurd (List.cons.inj heq).1 hc
  · rw [if_neg (by omega)]

/-- **What `dasm_as` makes of a line**: the operand parser's result is looked up
and emitted. -/
theorem dasmAs_line {past : OpRow} {mne line : Text} {f : Format} {v : ℕ} (addr : Word)
    (hmne : IsMne mne) (hrow : (vmOpTbl.find? (OpRow.isFor mne none)).isSome = true)
    (hpast : past.mne ≠ mne) (hline : Writes mne f v line)
    (hlen : (skipWhitespace line).length < 256) :
    dasmAs past addr line
      = asEmit past mne (f.result past mne addr (BitVec.ofNat 16 v)) := by
  obtain ⟨c, t, gap, lit, sp, hct, hc, h3, hgap, hlit, hmap⟩ := hline.skip hmne
  rw [hct] at hlen
  have hlenq := congrArg List.length hmap
  rw [List.length_map, List.length_append, List.length_append, hmne.1] at hlenq
  have htake : (mne ++ (gap ++ f.text lit sp)).take 3 = mne := by
    rw [← hmne.1, List.take_left]
  have hdrop : (mne ++ (gap ++ f.text lit sp)).drop 3 = gap ++ f.text lit sp := by
    rw [← hmne.1, List.drop_left]
  have hne : findMne past mne none ≠ OPCODES := fun heq => by
    rw [(findMne_eq_OPCODES hpast none).mp heq] at hrow
    cases hrow
  rw [dasmAs_of_skip addr hct hc h3, if_neg (by omega), asMnemonic, hmap, htake, hdrop,
    if_neg hne, skipWhitespace_blank_append hgap, skipWhitespace_text f hlit,
    asOperand_text past _ addr sp f hlit (by omega)]

/-- A line that is too long is never finished. -/
theorem dasmAs_long (past : OpRow) {mne line : Text} {f : Format} {v : ℕ} (addr : Word)
    (hmne : IsMne mne) (hline : Writes mne f v line)
    (hlen : 256 ≤ (skipWhitespace line).length) : dasmAs past addr line = .fail .hang := by
  obtain ⟨c, t, -, -, -, hct, hc, h3, -⟩ := hline.skip hmne
  rw [hct] at hlen
  rw [dasmAs_of_skip addr hct hc h3, if_pos hlen]

/-! ### Modes -/

/-- The format a mode is written in. -/
def AddrEnum.format : AddrEnum → Format
  | AT_IMPLIED => .implied
  | AT_ABSOLUTE | AT_ZEROP | AT_RELATIVE => .direct
  | AT_IMMEDIATE => .immediate
  | AT_IND_ABS => .indirect
  | AT_ABS_INDEX_X | AT_ZP_INDEX_X => .directX
  | AT_ABS_INDEX_Y | AT_ZP_INDEX_Y => .directY
  | AT_INDEX_IND => .indexedIndirect
  | AT_IND_INDEX => .indirectIndexed
  | AT_ACCUMULATOR => .accumulator

/-- The length of an instruction. -/
def AddrEnum.length : AddrEnum → ℕ
  | AT_IMPLIED | AT_ACCUMULATOR => 1
  | AT_ABSOLUTE | AT_IND_ABS | AT_ABS_INDEX_X | AT_ABS_INDEX_Y => 3
  | _ => 2

/-- The zero-page form of an absolute mode. -/
def AddrEnum.shortForm : AddrEnum → Option AddrEnum
  | AT_ABSOLUTE => some AT_ZEROP
  | AT_ABS_INDEX_X => some AT_ZP_INDEX_X
  | AT_ABS_INDEX_Y => some AT_ZP_INDEX_Y
  | _ => none

/-- The modes that are looked up while the operand is parsed. -/
def AddrEnum.Searched (mode : AddrEnum) : Prop :=
  mode ∈ [AT_ZEROP, AT_ZP_INDEX_X, AT_ZP_INDEX_Y, AT_RELATIVE]

instance (mode : AddrEnum) : Decidable mode.Searched := inferInstanceAs (Decidable (_ ∈ _))

/-- The value that is emitted for a written one. -/
def AddrEnum.emitted (mode : AddrEnum) (addr val : Word) : Word :=
  match mode with
  | AT_IMPLIED | AT_ACCUMULATOR => 0
  | AT_RELATIVE => ((val - addr - 1).setWidth 8).setWidth 16
  | _ => val

/-- **Reading back a mode**: what is written in the format of a mode is parsed as
that mode, unless it is short and the mnemonic has the zero-page form, or the
mnemonic is also a branch. -/
theorem result_mode {past : OpRow} {mne : Text} {mode : AddrEnum} {val : Word} (addr : Word)
    (hpast : past.mne ≠ mne)
    (hbyte : mode.length = 2 → mode ≠ AT_RELATIVE → val ≤ 0xff#16)
    (hshort : val ≤ 0xff#16 → ∀ z ∈ mode.shortForm, tblOp mne z = none)
    (hrow : mode.Searched → (tblOp mne mode).isSome = true)
    (habs : mode = AT_ABSOLUTE → tblOp mne AT_RELATIVE = none)
    (hrel : mode = AT_RELATIVE → tblOp mne AT_ZEROP = none) :
    mode.format.result past mne addr val = .ok (mode, mode.length, mode.emitted addr val) := by
  have hfound {a : AddrEnum} (h : (tblOp mne a).isSome = true) : findMne past mne a ≠ OPCODES :=
    (findMne_ne_OPCODES hpast a).mpr h
  have hnone {a : AddrEnum} (h : tblOp mne a = none) : ¬ findMne past mne a ≠ OPCODES := by
    rw [findMne_ne_OPCODES hpast, h]
    exact Bool.false_ne_true
  -- the zero-page form needs a short operand and a row of its own
  have hlong {a : AddrEnum} (h : a ∈ mode.shortForm) :
      ¬ (val ≤ 0xff#16 ∧ findMne past mne a ≠ OPCODES) := by
    rintro ⟨hval, hz⟩
    exact hnone (hshort hval a h) hz
  cases mode with
  | AT_IMPLIED | AT_ACCUMULATOR | AT_IND_ABS => rfl
  | AT_IMMEDIATE | AT_INDEX_IND | AT_IND_INDEX => exact if_pos (hbyte rfl nofun)
  | AT_ZEROP | AT_ZP_INDEX_X | AT_ZP_INDEX_Y =>
    exact if_pos ⟨hbyte rfl nofun, hfound (hrow (by simp [AddrEnum.Searched]))⟩
  | AT_ABSOLUTE => exact (if_neg (hlong rfl)).trans (if_neg (hnone (habs rfl)))
  | AT_ABS_INDEX_X | AT_ABS_INDEX_Y => exact if_neg (hlong rfl)
  -- zero page is tried before a branch
  | AT_RELATIVE =>
    refine (if_neg ?_).trans (if_pos (hfound (hrow (by simp [AddrEnum.Searched]))))
    rintro ⟨-, hz⟩
    exact hnone (hrel rfl) hz

end Dan64
