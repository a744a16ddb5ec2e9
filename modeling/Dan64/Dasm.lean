/-
Dan64/Dasm.lean

The assembler and the disassembler of `dasm/dasm.c`.

Text is a list of characters without its terminator.  `dasmAs` follows
`dasm_as`: the operand is parsed by one function per arm of its outer switch,
each returning the addressing mode, the length and the value that `emit_op`
is called with.  A line is refused (`refused`, the source's -1) or, where a
`uint8_t` counter can never reach the end of an overlong line, the loop does
not end (`hang`).  `out` is what has been stored through `output`, also when
the line is refused.

`OPCODES` is one more than the table has rows, so a search that finds nothing
looks at the five bytes that follow the table in memory: they are the
parameter `past`.
-/
import Dan64.CText
import Dan64.Vm

namespace Dan64

open CText

abbrev Text := List Char

/-! ### The table -/

/-- `enum addr_enum` -/
inductive AddrEnum
  | AT_IMPLIED
  | AT_ABSOLUTE
  | AT_IMMEDIATE
  | AT_ZEROP
  | AT_IND_ABS
  | AT_ABS_INDEX_X
  | AT_ABS_INDEX_Y
  | AT_ZP_INDEX_X
  | AT_ZP_INDEX_Y
  | AT_INDEX_IND
  | AT_IND_INDEX
  | AT_RELATIVE
  | AT_ACCUMULATOR
  deriving DecidableEq

open AddrEnum

/-- The enumerators in order. -/
def AddrEnum.all : List AddrEnum :=
  [AT_IMPLIED, AT_ABSOLUTE, AT_IMMEDIATE, AT_ZEROP, AT_IND_ABS, AT_ABS_INDEX_X,
    AT_ABS_INDEX_Y, AT_ZP_INDEX_X, AT_ZP_INDEX_Y, AT_INDEX_IND, AT_IND_INDEX,
    AT_RELATIVE, AT_ACCUMULATOR]

/-- The byte an enumerator is stored as. -/
def AddrEnum.toByte (a : AddrEnum) : Byte := BitVec.ofNat 8 (AddrEnum.all.idxOf a)

instance : Coe AddrEnum Byte := ⟨AddrEnum.toByte⟩

/-- The enumerator a byte stands for, if any. -/
def AddrEnum.ofByte (b : Byte) : Option AddrEnum := AddrEnum.all[b.toNat]?

/-- Five bytes of the table. -/
structure OpRow where
  op : Byte
  c0 : Char
  c1 : Char
  c2 : Char
  mode : Byte
  deriving DecidableEq

def OpRow.mne (r : OpRow) : Text := [r.c0, r.c1, r.c2]

def OPCODES : ℕ := 153

def vmOpTbl : List OpRow :=
  [
    ⟨0x00, 'B', 'R', 'K', AT_IMPLIED⟩, ⟨0x01, 'O', 'R', 'A', AT_ZP_INDEX_X⟩,
    ⟨0x02, 'S', 'Y', 'S', AT_IMPLIED⟩, ⟨0x05, 'O', 'R', 'A', AT_ZEROP⟩,
    ⟨0x06, 'A', 'S', 'L', AT_ZEROP⟩, ⟨0x08, 'P', 'H', 'P', AT_IMPLIED⟩,
    ⟨0x09, 'O', 'R', 'A', AT_IMMEDIATE⟩, ⟨0x0a, 'A', 'S', 'L', AT_ACCUMULATOR⟩,
    ⟨0x0d, 'O', 'R', 'A', AT_ABSOLUTE⟩, ⟨0x0e, 'A', 'S', 'L', AT_ABSOLUTE⟩,
    ⟨0x10, 'B', 'P', 'L', AT_RELATIVE⟩, ⟨0x11, 'O', 'R', 'A', AT_IND_INDEX⟩,
    ⟨0x15, 'O', 'R', 'A', AT_ZP_INDEX_X⟩, ⟨0x16, 'A', 'S', 'L', AT_ZP_INDEX_X⟩,
    ⟨0x18, 'C', 'L', 'C', AT_IMPLIED⟩, ⟨0x19, 'O', 'R', 'A', AT_ABS_INDEX_Y⟩,
    ⟨0x1d, 'O', 'R', 'A', AT_ABS_INDEX_X⟩, ⟨0x1e, 'A', 'S', 'L', AT_ABS_INDEX_X⟩,
    ⟨0x20, 'J', 'S', 'R', AT_ABSOLUTE⟩, ⟨0x21, 'A', 'N', 'D', AT_ZP_INDEX_X⟩,
    ⟨0x24, 'B', 'I', 'T', AT_ZEROP⟩, ⟨0x25, 'A', 'N', 'D', AT_ZEROP⟩,
    ⟨0x26, 'R', 'O', 'L', AT_ZEROP⟩, ⟨0x28, 'P', 'L', 'P', AT_IMPLIED⟩,
    ⟨0x29, 'A', 'N', 'D', AT_IMMEDIATE⟩, ⟨0x2a, 'R', 'O', 'L', AT_ACCUMULATOR⟩,
    ⟨0x2c, 'B', 'I', 'T', AT_ABSOLUTE⟩, ⟨0x2d, 'A', 'N', 'D', AT_ABSOLUTE⟩,
    ⟨0x2e, 'R', 'O', 'L', AT_ABSOLUTE⟩, ⟨0x30, 'B', 'M', 'I', AT_RELATIVE⟩,
    ⟨0x31, 'A', 'N', 'D', AT_IND_INDEX⟩, ⟨0x35, 'A', 'N', 'D', AT_ZP_INDEX_X⟩,
    ⟨0x36, 'R', 'O', 'L', AT_ZP_INDEX_X⟩, ⟨0x38, 'S', 'E', 'C', AT_IMPLIED⟩,
    ⟨0x39, 'A', 'N', 'D', AT_ABS_INDEX_Y⟩, ⟨0x3d, 'O', 'R', 'A', AT_ABS_INDEX_X⟩,
    ⟨0x3e, 'R', 'O', 'L', AT_ABS_INDEX_X⟩, ⟨0x40, 'R', 'T', 'I', AT_IMPLIED⟩,
    ⟨0x41, 'E', 'O', 'R', AT_INDEX_IND⟩, ⟨0x45, 'E', 'O', 'R', AT_ZEROP⟩,
    ⟨0x46, 'L', 'S', 'R', AT_ZEROP⟩, ⟨0x48, 'P', 'H', 'A', AT_IMPLIED⟩,
    ⟨0x49, 'E', 'O', 'R', AT_IMMEDIATE⟩, ⟨0x4a, 'L', 'S', 'R', AT_ACCUMULATOR⟩,
    ⟨0x4c, 'J', 'M', 'P', AT_ABSOLUTE⟩, ⟨0x4d, 'E', 'O', 'R', AT_ABSOLUTE⟩,
    ⟨0x4e, 'L', 'S', 'R', AT_ABSOLUTE⟩, ⟨0x50, 'B', 'V', 'C', AT_RELATIVE⟩,
    ⟨0x51, 'E', 'O', 'R', AT_IND_INDEX⟩, ⟨0x55, 'E', 'O', 'R', AT_ZP_INDEX_X⟩,
    ⟨0x56, 'L', 'S', 'R', AT_ZP_INDEX_X⟩, ⟨0x58, 'C', 'L', 'I', AT_IMPLIED⟩,
    ⟨0x59, 'E', 'O', 'R', AT_ABS_INDEX_Y⟩, ⟨0x5d, 'E', 'O', 'R', AT_ABS_INDEX_X⟩,
    ⟨0x5e, 'L', 'S', 'R', AT_ABS_INDEX_X⟩, ⟨0x60, 'R', 'T', 'S', AT_IMPLIED⟩,
    ⟨0x61, 'A', 'D', 'C', AT_ZP_INDEX_X⟩, ⟨0x65, 'A', 'D', 'C', AT_ZEROP⟩,
    ⟨0x66, 'R', 'O', 'R', AT_ZEROP⟩, ⟨0x68, 'P', 'L', 'A', AT_IMPLIED⟩,
    ⟨0x69, 'A', 'D', 'C', AT_IMMEDIATE⟩, ⟨0x6a, 'R', 'O', 'R', AT_ACCUMULATOR⟩,
    ⟨0x6c, 'J', 'M', 'P', AT_IND_ABS⟩, ⟨0x6d, 'A', 'D', 'C', AT_ABSOLUTE⟩,
    ⟨0x6e, 'R', 'O', 'R', AT_ABSOLUTE⟩, ⟨0x70, 'B', 'V', 'S', AT_RELATIVE⟩,
    ⟨0x71, 'A', 'D', 'C', AT_IND_INDEX⟩, ⟨0x75, 'A', 'D', 'C', AT_ZP_INDEX_X⟩,
    ⟨0x76, 'R', 'O', 'R', AT_ZP_INDEX_X⟩, ⟨0x78, 'S', 'E', 'I', AT_IMPLIED⟩,
    ⟨0x79, 'A', 'D', 'C', AT_ABS_INDEX_Y⟩, ⟨0x7d, 'A', 'D', 'C', AT_ABS_INDEX_X⟩,
    ⟨0x7e, 'R', 'O', 'R', AT_ABS_INDEX_X⟩, ⟨0x81, 'S', 'T', 'A', AT_INDEX_IND⟩,
    ⟨0x84, 'S', 'T', 'Y', AT_ZEROP⟩, ⟨0x85, 'S', 'T', 'A', AT_ZEROP⟩,
    ⟨0x86, 'S', 'T', 'X', AT_ZEROP⟩, ⟨0x88, 'D', 'E', 'Y', AT_IMPLIED⟩,
    ⟨0x8a, 'T', 'X', 'A', AT_IMPLIED⟩, ⟨0x8c, 'S', 'T', 'Y', AT_ABSOLUTE⟩,
    ⟨0x8d, 'S', 'T', 'A', AT_ABSOLUTE⟩, ⟨0x8e, 'S', 'T', 'X', AT_ABSOLUTE⟩,
    ⟨0x90, 'B', 'C', 'C', AT_RELATIVE⟩, ⟨0x91, 'S', 'T', 'A', AT_IND_INDEX⟩,
    ⟨0x94, 'S', 'T', 'Y', AT_ZP_INDEX_X⟩, ⟨0x95, 'S', 'T', 'A', AT_ZP_INDEX_X⟩,
    ⟨0x96, 'S', 'T', 'X', AT_ZP_INDEX_Y⟩, ⟨0x98, 'T', 'Y', 'A', AT_IMPLIED⟩,
    ⟨0x99, 'S', 'T', 'A', AT_ABS_INDEX_Y⟩, ⟨0x9a, 'T', 'X', 'S', AT_IMPLIED⟩,
    ⟨0x9d, 'S', 'T', 'A', AT_ABS_INDEX_X⟩, ⟨0xa0, 'L', 'D', 'Y', AT_IMMEDIATE⟩,
    ⟨0xa1, 'L', 'D', 'A', AT_ZP_INDEX_X⟩, ⟨0xa2, 'L', 'D', 'X', AT_IMMEDIATE⟩,
    ⟨0xa4, 'L', 'D', 'Y', AT_ZEROP⟩, ⟨0xa5, 'L', 'D', 'A', AT_ZEROP⟩,
    ⟨0xa6, 'L', 'D', 'X', AT_ZEROP⟩, ⟨0xa8, 'T', 'A', 'Y', AT_IMPLIED⟩,
    ⟨0xa9, 'L', 'D', 'A', AT_IMMEDIATE⟩, ⟨0xaa, 'T', 'A', 'X', AT_IMPLIED⟩,
    ⟨0xac, 'L', 'D', 'Y', AT_ABSOLUTE⟩, ⟨0xad, 'L', 'D', 'A', AT_ABSOLUTE⟩,
    ⟨0xae, 'L', 'D', 'X', AT_ABSOLUTE⟩, ⟨0xb0, 'B', 'C', 'S', AT_RELATIVE⟩,
    ⟨0xb1, 'L', 'D', 'A', AT_IND_INDEX⟩, ⟨0xb4, 'L', 'D', 'Y', AT_ZP_INDEX_X⟩,
    ⟨0xb5, 'L', 'D', 'A', AT_ZP_INDEX_X⟩, ⟨0xb6, 'L', 'D', 'X', AT_ZP_INDEX_Y⟩,
    ⟨0xb8, 'C', 'L', 'V', AT_IMPLIED⟩, ⟨0xb9, 'L', 'D', 'A', AT_ABS_INDEX_Y⟩,
    ⟨0xba, 'T', 'S', 'X', AT_IMPLIED⟩, ⟨0xbc, 'L', 'D', 'Y', AT_ABS_INDEX_X⟩,
    ⟨0xbd, 'L', 'D', 'A', AT_ABS_INDEX_X⟩, ⟨0xbe, 'L', 'D', 'X', AT_ABS_INDEX_Y⟩,
    ⟨0xc0, 'C', 'P', 'Y', AT_IMMEDIATE⟩, ⟨0xc1, 'C', 'M', 'P', AT_ZP_INDEX_X⟩,
    ⟨0xc4, 'C', 'P', 'Y', AT_ZEROP⟩, ⟨0xc5, 'C', 'M', 'P', AT_ZEROP⟩,
    ⟨0xc6, 'D', 'E', 'C', AT_ZEROP⟩, ⟨0xc8, 'I', 'N', 'Y', AT_IMPLIED⟩,
    ⟨0xc9, 'C', 'M', 'P', AT_IMMEDIATE⟩, ⟨0xca, 'D', 'E', 'X', AT_IMPLIED⟩,
    ⟨0xcc, 'C', 'P', 'Y', AT_ABSOLUTE⟩, ⟨0xcd, 'C', 'M', 'P', AT_ABSOLUTE⟩,
    ⟨0xce, 'D', 'E', 'C', AT_ABSOLUTE⟩, ⟨0xd0, 'B', 'N', 'E', AT_RELATIVE⟩,
    ⟨0xd1, 'C', 'M', 'P', AT_IND_INDEX⟩, ⟨0xd5, 'C', 'M', 'P', AT_ZP_INDEX_X⟩,
    ⟨0xd6, 'D', 'E', 'C', AT_ZP_INDEX_X⟩, ⟨0xd8, 'C', 'L', 'D', AT_IMPLIED⟩,
    ⟨0xd9, 'C', 'M', 'P', AT_ABS_INDEX_Y⟩, ⟨0xdd, 'C', 'M', 'P', AT_ABS_INDEX_X⟩,
    ⟨0xde, 'D', 'E', 'C', AT_ABS_INDEX_X⟩, ⟨0xe0, 'C', 'P', 'X', AT_IMMEDIATE⟩,
    ⟨0xe1, 'S', 'B', 'C', AT_ZP_INDEX_X⟩, ⟨0xe4, 'C', 'P', 'X', AT_ZEROP⟩,
    ⟨0xe5, 'S', 'B', 'C', AT_ZEROP⟩, ⟨0xe6, 'I', 'N', 'C', AT_ZEROP⟩,
    ⟨0xe8, 'I', 'N', 'X', AT_IMPLIED⟩, ⟨0xe9, 'S', 'B', 'C', AT_IMMEDIATE⟩,
    ⟨0xea, 'N', 'O', 'P', AT_IMPLIED⟩, ⟨0xec, 'C', 'P', 'X', AT_ABSOLUTE⟩,
    ⟨0xed, 'S', 'B', 'C', AT_ABSOLUTE⟩, ⟨0xee, 'I', 'N', 'C', AT_ABSOLUTE⟩,
    ⟨0xf0, 'B', 'E', 'Q', AT_RELATIVE⟩, ⟨0xf1, 'S', 'B', 'C', AT_IND_INDEX⟩,
    ⟨0xf5, 'S', 'B', 'C', AT_ZP_INDEX_X⟩, ⟨0xf6, 'I', 'N', 'C', AT_ZP_INDEX_X⟩,
    ⟨0xf8, 'S', 'E', 'D', AT_IMPLIED⟩, ⟨0xf9, 'S', 'B', 'C', AT_ABS_INDEX_Y⟩,
    ⟨0xfd, 'S', 'B', 'C', AT_ABS_INDEX_X⟩, ⟨0xfe, 'I', 'N', 'C', AT_ABS_INDEX_X⟩]

/-- `vm_op_tbl[index * 5 ..]` -/
def opRow (past : OpRow) (index : ℕ) : OpRow := (vmOpTbl ++ [past]).getD index past

/-- A row is for a mnemonic and, unless it is negative, a mode. -/
def OpRow.isFor (mne : Text) (addrMode : Option AddrEnum) (r : OpRow) : Bool :=
  r.mne == mne && addrMode.all fun a => r.mode == a.toByte

/-- `find_mne`: the first row, or `OPCODES`. -/
def findMne (past : OpRow) (mne : Text) (addrMode : Option AddrEnum) : ℕ :=
  (vmOpTbl ++ [past]).findIdx (OpRow.isFor mne addrMode)

/-! ### Assembling -/

inductive Fault
  | refused
  | hang
  deriving DecidableEq

/-- The return value, and the bytes stored through `output`. -/
structure AsResult where
  ret : Except Fault ℕ
  out : List Byte

def AsResult.fail (e : Fault) : AsResult := ⟨.error e, []⟩

/-- The character as it is stored. -/
def toByte (c : Char) : Byte := BitVec.ofNat 8 c.toNat

def skipWhitespace (p : Text) : Text := p.dropWhile isspace

def emitOp (past : OpRow) (index : ℕ) (val : Word) (len : ℕ) : List Byte :=
  [(opRow past index).op] ++ (if len > 1 then [val.setWidth 8] else []) ++
    (if len > 2 then [(val >>> 8).setWidth 8] else [])

/-- `get_value`: the length of the literal and the value.  The length is counted
in a `uint8_t`: after 255 hexadecimal digits it is back at the `$` and stops
there, after 256 decimal digits it starts over. -/
def getValue (input : Text) : Except Fault (ℕ × Word) :=
  match input with
  | [] => .error .refused
  | '$' :: s =>
    let n := (s.takeWhile isxdigit).length
    match sscanfHex s with
    | none => .error .refused
    | some v => .ok (if n < 255 then 1 + n else 0, BitVec.ofInt 16 v)
  | input =>
    let n := (input.takeWhile isdigit).length
    if 256 ≤ n then .error .hang
    else match sscanfDec input with
      | none => .error .refused
      | some v => .ok (n, BitVec.ofInt 16 v)

/-- The characters of a string item, up to the closing quote or the end. -/
def asString : Text → List Byte × Text
  | [] => ([], [])
  | '"' :: s => ([], '"' :: s)
  | '\\' :: '"' :: s => let r := asString s; (toByte '"' :: r.1, r.2)
  | c :: s => let r := asString s; (toByte c :: r.1, r.2)

theorem length_asString (s : Text) : (asString s).2.length ≤ s.length := by
  fun_induction asString s with
  | case1 => exact le_rfl
  | case2 s => exact le_rfl
  | case3 s r ih => exact ih.trans (by simp only [List.length_cons]; omega)
  | case4 c s _ _ r ih => exact ih.trans (by simp)

theorem length_skipWhitespace (s : Text) : (skipWhitespace s).length ≤ s.length :=
  (List.dropWhile_suffix _).length_le

/-- The items of a `.` line. -/
def asData (p : Text) : Except Fault Unit × List Byte :=
  match p with
  | [] => (.ok (), [])
  | '"' :: s =>
    let r := asString s
    -- the string is not closed
    if r.2 = [] then (.error .refused, r.1)
    else let t := asData (skipWhitespace r.2.tail); (t.1, r.1 ++ t.2)
  | ',' :: s => asData (skipWhitespace s)
  | c :: s =>
    if isdigit c || c == '$' then
      match getValue (c :: s) with
      | .error e => (.error e, [])
      | .ok (n, v) =>
        if v > 0xff#16 then (.error .refused, [])
        -- a length of 0 reads the same literal again
        else if n = 0 then (.error .hang, [v.setWidth 8])
        else let t := asData (skipWhitespace ((c :: s).drop n)); (t.1, v.setWidth 8 :: t.2)
    else (.error .refused, [])
termination_by p.length
decreasing_by
  · have h₁ := length_asString s
    have h₂ := length_skipWhitespace (asString s).2.tail
    rw [List.length_tail] at h₂
    rw [List.length_cons]
    omega
  · have h₁ := length_skipWhitespace s
    rw [List.length_cons]
    omega
  · have h₁ := length_skipWhitespace ((c :: s).drop n)
    simp only [List.length_drop, List.length_cons] at h₁ ⊢
    omega

/-- The operand in `(`..: mode, length and value. -/
def asIndirect (s : Text) : Except Fault (AddrEnum × ℕ × Word) := do
  let (n, val) ← getValue s
  match skipWhitespace (s.drop n) with
  | ')' :: p =>
    match skipWhitespace p with
    | [] => .ok (AT_IND_ABS, 3, val)
    | ',' :: 'Y' :: p =>
      if skipWhitespace p = [] ∧ val ≤ 0xff#16 then .ok (AT_IND_INDEX, 2, val)
      else .error .refused
    | _ => .error .refused
  | ',' :: p =>
    match skipWhitespace p with
    | 'X' :: p =>
      match skipWhitespace p with
      | ')' :: p =>
        if skipWhitespace p = [] ∧ val ≤ 0xff#16 then .ok (AT_INDEX_IND, 2, val)
        else .error .refused
      | _ => .error .refused
    | _ => .error .refused
  -- the switch has no default: `mode` and `len` keep their initial 0
  | _ => .ok (AT_IMPLIED, 0, val)

/-- The operand that starts with a literal. -/
def asDirect (past : OpRow) (mne : Text) (addr : Word) (p : Text) :
    Except Fault (AddrEnum × ℕ × Word) := do
  let (n, val) ← getValue p
  let isByte := val ≤ 0xff#16
  match skipWhitespace (p.drop n) with
  | [] =>
    if isByte ∧ findMne past mne AT_ZEROP ≠ OPCODES then .ok (AT_ZEROP, 2, val)
    else if findMne past mne AT_RELATIVE ≠ OPCODES then
      -- the cast comes before the test for `val > 0xff`, which never holds
      .ok (AT_RELATIVE, 2, ((val - addr - 1).setWidth 8).setWidth 16)
    else .ok (AT_ABSOLUTE, 3, val)
  | ',' :: p =>
    match skipWhitespace p with
    | 'X' :: p =>
      if skipWhitespace p ≠ [] then .error .refused
      else if isByte ∧ findMne past mne AT_ZP_INDEX_X ≠ OPCODES then
        .ok (AT_ZP_INDEX_X, 2, val)
      else .ok (AT_ABS_INDEX_X, 3, val)
    | 'Y' :: p =>
      if skipWhitespace p ≠ [] then .error .refused
      else if isByte ∧ findMne past mne AT_ZP_INDEX_Y ≠ OPCODES then
        .ok (AT_ZP_INDEX_Y, 2, val)
      else .ok (AT_ABS_INDEX_Y, 3, val)
    | _ => .error .refused
  | _ => .error .refused

/-- The switch on the character after the mnemonic.  Modes without an operand
leave `val` unset; it is not emitted then. -/
def asOperand (past : OpRow) (mne : Text) (addr : Word) (p : Text) :
    Except Fault (AddrEnum × ℕ × Word) :=
  match p with
  | [] => .ok (AT_IMPLIED, 1, 0)
  | 'A' :: s =>
    if skipWhitespace s = [] then .ok (AT_ACCUMULATOR, 1, 0) else .error .refused
  | '#' :: s => do
    let (n, val) ← getValue s
    if skipWhitespace (s.drop n) = [] ∧ val ≤ 0xff#16 then .ok (AT_IMMEDIATE, 2, val)
    else .error .refused
  | '(' :: s => asIndirect s
  | c :: s =>
    if isdigit c || c == '$' then asDirect past mne addr (c :: s) else .error .refused

/-- The last search of the table, for the mnemonic and the mode, and `emit_op`. -/
def asEmit (past : OpRow) (mne : Text) : Except Fault (AddrEnum × ℕ × Word) → AsResult
  | .error e => .fail e
  | .ok (mode, len, val) =>
    let index := findMne past mne mode
    if index = OPCODES then .fail .refused else ⟨.ok len, emitOp past index val len⟩

/-- The line from its first character that is not white space on, in upper
case. -/
def asMnemonic (past : OpRow) (addr : Word) (p : Text) : AsResult :=
  let mne := p.take 3
  if findMne past mne none = OPCODES then .fail .refused
  else asEmit past mne (asOperand past mne addr (skipWhitespace (p.drop 3)))

/-- `dasm_as` -/
def dasmAs (past : OpRow) (addr : Word) (input : Text) : AsResult :=
  match skipWhitespace input with
  | [] => .fail .refused
  | '.' :: s =>
    if s = [] then .fail .refused
    else let t := asData s; ⟨t.1.map fun _ => t.2.length % 256, t.2⟩
  | p =>
    if p.length < 3 then .fail .refused
    -- the `uint8_t` index of the upper case loop never reaches the end
    else if 256 ≤ p.length then .fail .hang
    else asMnemonic past addr (p.map toupper)

/-! ### Disassembling -/

/-- The operand of a row, and the length of the instruction. -/
def dasOperand (mode : AddrEnum) (addr : Word) (b1 b2 : Byte) : Text × ℕ :=
  let byte := sprintfHex 2 b1.toNat
  let word := sprintfHex 4 (addr16 (word b1) (word b2)).toNat
  match mode with
  | AT_IMPLIED => ([], 1)
  | AT_ABSOLUTE => (['$'] ++ word, 3)
  | AT_IMMEDIATE => (['#', '$'] ++ byte, 2)
  | AT_ZEROP => (['$'] ++ byte, 2)
  | AT_IND_ABS => (['(', '$'] ++ word ++ [')'], 3)
  | AT_ABS_INDEX_X => (['$'] ++ word ++ [',', 'X'], 3)
  | AT_ABS_INDEX_Y => (['$'] ++ word ++ [',', 'Y'], 3)
  | AT_ZP_INDEX_X => (['$'] ++ byte ++ [',', 'X'], 2)
  | AT_ZP_INDEX_Y => (['$'] ++ byte ++ [',', 'Y'], 2)
  | AT_INDEX_IND => (['(', '$'] ++ byte ++ [',', 'X', ')'], 2)
  | AT_IND_INDEX => (['(', '$'] ++ byte ++ [')', ',', 'Y'], 2)
  | AT_RELATIVE => (['$'] ++ sprintfHex 4 (addr + 1 + b1.signExtend 16).toNat, 2)
  | AT_ACCUMULATOR => (['A'], 1)

/-- `dasm_das`, with a 16-bit `int`: the text and the length. -/
def dasmDas (past : OpRow) (addr : Word) (op b1 b2 : Byte) : Text × ℕ :=
  match (vmOpTbl ++ [past]).find? fun r => r.op == op with
  | none => (['?', '?', '?'], 1)
  | some ent =>
    match AddrEnum.ofByte ent.mode with
    | some AT_IMPLIED => (ent.mne, 1)
    | some mode =>
      let t := dasOperand mode addr b1 b2
      (ent.mne ++ [' '] ++ t.1, t.2)
    | none => (ent.mne ++ [' '], 1)

end Dan64
