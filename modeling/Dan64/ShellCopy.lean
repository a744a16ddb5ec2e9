/-
Dan64/ShellCopy.lean

Copying a memory through the screen: what one shell prints, typed into another.

Every line of `list` says where an instruction is and what it is, in the language of `as`;
a line of `peek` says where six bytes are and which, in the language of `poke`.  Bytes
typed back are always those that were printed (`peek_poke`).  Instructions are exactly if
each of them is kept (`list_as_iff`): the table has a row for it that no other shadows,
and its operand is not shortened.
-/
import Mathlib.Data.List.Iterate
import Dan64.DasmListing
import Dan64.Shell

namespace Dan64

open BlockMem CText AddrEnum

/-! ### A line of the disassembler, assembled -/

/-- The zero-page form has another opcode. -/
theorem tblOp_shortForm : ∀ r ∈ vmOpTbl, (AddrEnum.ofByte r.mode).all (fun mode =>
    mode.shortForm.all fun z => tblOp r.mne z != some r.op) = true := by
  decide +kernel

/-- A short operand is parsed in the zero-page form if there is one. -/
theorem result_short {past : OpRow} {mne : Text} {mode z : AddrEnum} {val : Word} (addr : Word)
    (hpast : past.mne ≠ mne) (hz : z ∈ mode.shortForm) (hrow : (tblOp mne z).isSome = true)
    (hval : val ≤ 0xff#16) : mode.format.result past mne addr val = .ok (z, 2, val) := by
  have hfound := (findMne_ne_OPCODES hpast z).mpr hrow
  cases mode with
  | AT_ABSOLUTE | AT_ABS_INDEX_X | AT_ABS_INDEX_Y =>
    obtain rfl := Option.some.inj hz
    exact if_pos ⟨hval, hfound⟩
  | _ => cases hz

/-- The instruction at an address is kept when it is printed and assembled again. -/
def Kept (ram : Word → Byte) (addr : Word) : Prop :=
  ∃ r ∈ vmOpTbl, r.op = ram addr ∧ r.op ∉ shadowedOps ∧
    ∀ mode ∈ AddrEnum.ofByte r.mode, ¬ Shortened r.mne mode (ram (addr + 2))

/-- What is stored for a line. -/
def stored (past : OpRow) (addr : Word) (line : Text) : List Byte :=
  match (dasmAs past addr line).ret with
  | .ok opLen => (dasmAs past addr line).out.take opLen
  | .error _ => []

section Row

variable {past r : OpRow} {mode : AddrEnum} (hpast : PastTable past) (hr : r ∈ vmOpTbl)
  (hmode : AddrEnum.ofByte r.mode = some mode) (hs : r.Sound mode) (addr : Word) (b1 b2 : Byte)
include hpast hr hmode hs

/-- A printed row is parsed in the format of its mode. -/
theorem dasmAs_row : dasmAs past addr (dasmDas past addr r.op b1 b2).1
    = asEmit past r.mne (mode.format.result past r.mne addr (dasValue mode addr b1 b2)) := by
  have hrow : (vmOpTbl.find? (OpRow.isFor r.mne none)).isSome = true := by
    rw [List.find?_isSome]
    exact ⟨r, hr, by simp [OpRow.isFor]⟩
  obtain ⟨hw, hlen, -⟩ := @das_writes past r mode hr hmode hs.isMne addr b1 b2
  have has := dasmAs_line addr hs.isMne hrow (hpast r hr).symm hw
    ((length_skipWhitespace _).trans_lt hlen)
  rwa [BitVec.ofNat_toNat, BitVec.setWidth_eq] at has

/-- Unless it is short, it is assembled to the same bytes behind the opcode. -/
theorem dasmAs_row_long {op : Byte} (hop : op ∈ tblOp r.mne mode)
    (hlong : ¬ Shortened r.mne mode b2) : dasmAs past addr (dasmDas past addr r.op b1 b2).1
      = ⟨.ok mode.length, [op, b1, b2].take mode.length⟩ := by
  have hne : past.mne ≠ r.mne := (hpast r hr).symm
  have hres := result_mode addr hne (dasValue_le addr b1 b2) (shortForm_none hlong)
    (fun _ => by rw [Option.mem_def.mp hop]; rfl) hs.absolute hs.relative
  rw [dasmAs_row hpast hr hmode hs, hres, asEmit_ok hne, Option.mem_def.mp hop, ← emit_das]

/-- A short one is assembled to two bytes, with another opcode. -/
theorem dasmAs_row_short (hshort : Shortened r.mne mode b2) :
    ∃ op, op ≠ r.op ∧ mode.length = 3 ∧
      dasmAs past addr (dasmDas past addr r.op b1 b2).1 = ⟨.ok 2, [op, b1]⟩ := by
  obtain ⟨hb2, z, hz, hsome⟩ := hshort
  obtain ⟨op, hop⟩ := Option.isSome_iff_exists.mp hsome
  have hne : past.mne ≠ r.mne := (hpast r hr).symm
  have hother : op ≠ r.op := by
    have hall := tblOp_shortForm r hr
    rw [hmode, Option.all_some, Option.mem_def.mp hz, Option.all_some, hop] at hall
    rintro rfl
    simp at hall
  have hval : dasValue mode addr b1 b2 = b2 ++ b1 ∧ mode.length = 3 := by
    cases mode <;> first | exact ⟨rfl, rfl⟩ | cases hz
  have hbyte : (b2 ++ b1).setWidth 8 = b1 := BitVec.setWidth_append_eq_right
  refine ⟨op, hother, hval.2, ?_⟩
  rw [dasmAs_row hpast hr hmode hs, hval.1,
    result_short addr hne hz hsome ((word_le_iff b1 b2).mpr hb2), asEmit_ok hne, hop]
  simp [hbyte]

end Row

/-- What is printed for an opcode without a row is refused, or the bytes behind the table are
taken for its row. -/
theorem dasmAs_unknown (past : OpRow) (addr : Word) :
    (dasmAs past addr ['?', '?', '?']).ret = .error .refused ∨
      dasmAs past addr ['?', '?', '?'] = ⟨.ok 1, [past.op]⟩ := by
  have hnone : ∀ mode, vmOpTbl.findIdx (OpRow.isFor ['?', '?', '?'] mode) = vmOpTbl.length := by
    intro mode
    have hrows : ∀ r ∈ vmOpTbl, (r.mne == ['?', '?', '?']) = false := by decide +kernel
    rw [List.findIdx_eq_length]
    intro r hr
    rw [OpRow.isFor, hrows r hr, Bool.false_and]
  have has : dasmAs past addr ['?', '?', '?'] =
      if findMne past ['?', '?', '?'] none = OPCODES then .fail .refused
      else asEmit past ['?', '?', '?'] (.ok (AT_IMPLIED, 1, 0)) := rfl
  rw [has]
  split
  · exact .inl rfl
  · rw [asEmit]
    split
    · exact .inl rfl
    · next hfound =>
      -- no row of the table is found
      right
      have hidx : findMne past ['?', '?', '?'] (some AT_IMPLIED) = vmOpTbl.length := by
        rw [findMne, List.findIdx_append, hnone, if_neg (lt_irrefl _)] at hfound ⊢
        rw [List.findIdx_singleton] at hfound ⊢
        split at hfound
        · next hrow => rw [if_pos hrow, Nat.zero_add]
        · have hlen : 1 + vmOpTbl.length = OPCODES := by decide +kernel
          exact absurd hlen hfound
      have hrow : opRow past vmOpTbl.length = past := by
        rw [opRow, List.getD_eq_getElem?_getD, List.getElem?_append_right le_rfl, Nat.sub_self]
        rfl
      rw [hidx, emitOp, hrow]
      rfl

/-- What a printed instruction is stored as: no more bytes than it has; all of them if it is
kept, and otherwise nothing or another opcode. -/
structure StoredAs (past : OpRow) (m : Word → Byte) (a : Word) (bytes : List Byte) : Prop where
  length : bytes.length ≤ opLenAt past m a
  kept : Kept m a → bytes = [m a, m (a + 1), m (a + 2)].take (opLenAt past m a)
  lost : ¬ Kept m a → m a ∉ bytes.head?

/-- The text of the instruction at an address. -/
def dasText (past : OpRow) (m : Word → Byte) (a : Word) : Text :=
  (dasmDas past a (m a) (m (a + 1)) (m (a + 2))).1

/-- An instruction with a row is kept as its row is. -/
theorem kept_iff {r : OpRow} {mode : AddrEnum} (hr : r ∈ vmOpTbl)
    (hmode : AddrEnum.ofByte r.mode = some mode) {m : Word → Byte} {a : Word} (hra : r.op = m a) :
    Kept m a ↔ r.op ∉ shadowedOps ∧ ¬ Shortened r.mne mode (m (a + 2)) := by
  constructor
  · rintro ⟨r', hr', hra', hnot, hlong⟩
    have hfind := find_op hr' zeroRow
    rw [hra', ← hra, find_op hr zeroRow] at hfind
    obtain rfl := Option.some.inj hfind
    exact ⟨hnot, hlong mode hmode⟩
  · rintro ⟨hnot, hlong⟩
    refine ⟨r, hr, hra, hnot, fun mode' hmode' => ?_⟩
    obtain rfl := Option.some.inj (hmode.symm.trans hmode')
    exact hlong

theorem storedAs_row {past r : OpRow} (hpast : PastTable past) (hr : r ∈ vmOpTbl)
    {m : Word → Byte} {a : Word} (hra : r.op = m a) :
    StoredAs past m a (stored past a (dasText past m a)) := by
  obtain ⟨mode, hmode, hs⟩ := tbl_sound r hr
  obtain ⟨op, hop, hshadow⟩ := hs.found
  have hkept := kept_iff hr hmode hra
  have hlen : opLenAt past m a = mode.length := by
    rw [opLenAt, ← hra]
    exact (@das_writes past r mode hr hmode hs.isMne a (m (a + 1)) (m (a + 2))).2.2
  rw [dasText, stored, ← hra]
  by_cases hshort : Shortened r.mne mode (m (a + 2))
  · obtain ⟨op', hother, hthree, has⟩ := dasmAs_row_short hpast hr hmode hs a (m (a + 1)) _ hshort
    rw [has]
    refine ⟨?_, fun h => absurd hshort (hkept.mp h).2, fun _ hhead => hother ?_⟩
    · rw [hlen, hthree]
      exact Nat.le_succ 2
    · exact (Option.some.inj hhead).trans hra.symm
  · rw [dasmAs_row_long hpast hr hmode hs a (m (a + 1)) _ hop hshort, ← hlen]
    dsimp only
    rw [List.take_take, min_self]
    refine ⟨?_, fun h => ?_, fun h hhead => ?_⟩
    · rw [List.length_take]
      exact min_le_left _ _
    · rw [hshadow.mpr (hkept.mp h).1, hra]
    · obtain ⟨n, hn⟩ := Nat.exists_eq_add_of_le' (opLenAt_bounds past m a).1
      rw [hn, List.take_succ_cons] at hhead
      have hopa : op = m a := Option.some.inj hhead
      exact h (hkept.mpr ⟨hshadow.mp (hopa.trans hra.symm), hshort⟩)

theorem dasmDas_unknown {past : OpRow} (hop : ∃ r ∈ vmOpTbl, r.op = past.op) {op : Byte}
    (hrow : ∀ r ∈ vmOpTbl, r.op ≠ op) (addr : Word) (b1 b2 : Byte) :
    dasmDas past addr op b1 b2 = (['?', '?', '?'], 1) := by
  have hnone : (vmOpTbl ++ [past]).find? (fun r => r.op == op) = none := by
    rw [List.find?_eq_none]
    intro r hr
    rw [beq_iff_eq]
    rcases List.mem_append.mp hr with hr | hr
    · exact hrow r hr
    · obtain ⟨r', hr', heq⟩ := hop
      rw [List.mem_singleton.mp hr, ← heq]
      exact hrow r' hr'
  rw [dasmDas, hnone]

theorem storedAs_unknown {past : OpRow} (hop : ∃ r ∈ vmOpTbl, r.op = past.op) {m : Word → Byte}
    {a : Word} (hrow : ∀ r ∈ vmOpTbl, r.op ≠ m a) :
    StoredAs past m a (stored past a (dasText past m a)) := by
  have hdas := dasmDas_unknown hop hrow a (m (a + 1)) (m (a + 2))
  have hnot : ¬ Kept m a := by
    rintro ⟨r, hr, hra, -⟩
    exact hrow r hr hra
  have hlen : opLenAt past m a = 1 := by rw [opLenAt, hdas]
  rw [dasText, hdas, stored]
  rcases dasmAs_unknown past a with h | h
  · rw [h]
    exact ⟨Nat.zero_le _, fun hkept => absurd hkept hnot, fun _ hhead => by cases hhead⟩
  · rw [h]
    refine ⟨hlen.ge, fun hkept => absurd hkept hnot, fun _ hhead => ?_⟩
    obtain ⟨r, hr, heq⟩ := hop
    exact hrow r hr (heq.trans (Option.some.inj hhead))

/-- What the instruction at an address is stored as, printed and assembled. -/
def reassembled (past : OpRow) (m : Word → Byte) (a : Word) : List Byte :=
  stored past a (dasText past m a)

theorem storedAs {past : OpRow} (hpast : PastTable past) (hop : ∃ r ∈ vmOpTbl, r.op = past.op)
    (m : Word → Byte) (a : Word) : StoredAs past m a (reassembled past m a) := by
  by_cases hrow : ∃ r ∈ vmOpTbl, r.op = m a
  · obtain ⟨r, hr, hra⟩ := hrow
    exact storedAs_row hpast hr hra
  · exact storedAs_unknown hop fun r hr hra => hrow ⟨r, hr, hra⟩

/-! ### The memory behind the lines -/

theorem readBlock_three (m : Word → Byte) (a : Word) :
    readBlock m a 3 = [m a, m (a + 1), m (a + 2)] := by
  rw [readBlock_succ, readBlock_succ, readBlock_succ, readBlock_zero, BitVec.add_assoc]
  rfl

/-- The printed instructions, stored one after the other. -/
def restore (past : OpRow) (m M : Word → Byte) (addrs : List Word) : Word → Byte :=
  addrs.foldl (fun M b => writeBlock M b (reassembled past m b)) M

theorem restore_cons (past : OpRow) (m M : Word → Byte) (b : Word) (addrs : List Word) :
    restore past m M (b :: addrs)
      = restore past m (writeBlock M b (reassembled past m b)) addrs := rfl

theorem restore_congr {past : OpRow} {m M M' : Word → Byte} {x : Word} (h : M x = M' x)
    (addrs : List Word) : restore past m M addrs x = restore past m M' addrs x := by
  induction addrs generalizing M M' with
  | nil => exact h
  | cons b addrs ih => exact ih (writeBlock_congr h b _)

section Restore

variable {past : OpRow} {m : Word → Byte} {p e : ℕ} {lines : List ListLine}

/-- A block that ends in front of a position, or begins behind it. -/
theorem writeBlock_ofNat {M : Word → Byte} {bytes : List Byte} {i : ℕ}
    (hfit : p + bytes.length ≤ 65536) (hi : i < 65536) (hout : i < p ∨ p + bytes.length ≤ i) :
    writeBlock M (BitVec.ofNat 16 p) bytes (BitVec.ofNat 16 i) = M (BitVec.ofNat 16 i) := by
  refine writeBlock_of_forall_ne fun j hj heq => ?_
  rw [← BitVec.ofNat_add] at heq
  have hnat := congrArg BitVec.toNat heq
  rw [BitVec.toNat_ofNat, BitVec.toNat_ofNat] at hnat
  omega

variable (hpast : PastTable past) (hop : ∃ r ∈ vmOpTbl, r.op = past.op)
include hpast hop

theorem length_reassembled (p : ℕ) :
    (reassembled past m (BitVec.ofNat 16 p)).length ≤ lenAt past m p :=
  (storedAs hpast hop m _).length

/-- Outside the lines nothing is stored. -/
theorem restore_outside (htiles : Tiles past m p lines e) (he : e ≤ 65536) (M : Word → Byte) {i : ℕ}
    (hout : i < p ∨ e ≤ i) (hi : i < 65536) :
    restore past m M (lines.map ListLine.addr) (BitVec.ofNat 16 i) = M (BitVec.ofNat 16 i) := by
  induction htiles generalizing M with
  | nil p => rfl
  | @cons p e ls hrest ih =>
    have hle := hrest.le
    have hlen := @length_reassembled past m hpast hop p
    rw [List.map_cons, restore_cons, ih he _ (by omega)]
    show writeBlock M (BitVec.ofNat 16 p) (reassembled past m (BitVec.ofNat 16 p)) _ = _
    exact writeBlock_ofNat (by omega) hi (by omega)

/-- A kept instruction is stored as it was. -/
theorem writeBlock_reassembled (hkept : Kept m (BitVec.ofNat 16 p)) (M : Word → Byte) {i : ℕ}
    (hp : p ≤ i) (hi : i < p + lenAt past m p) :
    writeBlock M (BitVec.ofNat 16 p) (reassembled past m (BitVec.ofNat 16 p)) (BitVec.ofNat 16 i)
      = m (BitVec.ofNat 16 i) := by
  have hle := @lenAt_le past m p
  have hbytes := (storedAs hpast hop m (BitVec.ofNat 16 p)).kept hkept
  rw [← readBlock_three] at hbytes
  obtain ⟨j, rfl⟩ := Nat.exists_eq_add_of_le hp
  have hj : j < (reassembled past m (BitVec.ofNat 16 p)).length := by
    rw [hbytes, List.length_take, length_readBlock]
    show j < min (lenAt past m p) 3
    omega
  have hmax := @length_reassembled past m hpast hop p
  rw [BitVec.ofNat_add, writeBlock_apply_add (by omega) hj]
  simp only [hbytes, List.getElem_take, readBlock_eq_map, List.getElem_map,
    List.getElem_range]

/-- If its first byte is right whatever was there, it is kept. -/
theorem kept_of_first {b : Word} (h : ∀ M, writeBlock M b (reassembled past m b) b = m b) :
    Kept m b := by
  have hstored := storedAs hpast hop m b
  have hmax := hstored.length.trans (opLenAt_bounds past m b).2
  by_contra hnot
  have hlost := hstored.lost hnot
  -- over another byte
  have hfirst := h fun _ => m b + 1
  rcases hb : reassembled past m b with - | ⟨c, bytes⟩
  · rw [hb, writeBlock_nil] at hfirst
    bv_omega
  · rw [hb] at hfirst hlost hmax
    have hhead := @writeBlock_apply_add 16 Byte (fun _ => m b + 1) b (c :: bytes) (by omega) 0
      (Nat.succ_pos _)
    rw [BitVec.add_zero, hfirst] at hhead
    exact hlost (congrArg some hhead.symm)

/-- **The printed instructions restore the memory**, whatever was there, exactly if each of
them is kept. -/
theorem restore_iff (htiles : Tiles past m p lines e) (he : e ≤ 65536) :
    (∀ M i, p ≤ i → i < e →
      restore past m M (lines.map ListLine.addr) (BitVec.ofNat 16 i) = m (BitVec.ofNat 16 i)) ↔
    ∀ line ∈ lines, Kept m line.addr := by
  induction htiles with
  | nil p => exact iff_of_true (fun _ i hp hi => absurd hp (by omega)) nofun
  | @cons p e ls hrest ih =>
    have hle := hrest.le
    have hpos := @lenAt_pos past m p
    have hlen := @length_reassembled past m hpast hop p
    have hfront : ∀ M i, i < p + lenAt past m p →
        restore past m M ((lineAt past m p :: ls).map ListLine.addr) (BitVec.ofNat 16 i)
          = writeBlock M (BitVec.ofNat 16 p) (reassembled past m (BitVec.ofNat 16 p))
            (BitVec.ofNat 16 i) :=
      fun M i hi => restore_outside hpast hop hrest he _ (.inl hi) (by omega)
    rw [List.forall_mem_cons, ← ih he]
    constructor
    · intro h
      refine ⟨kept_of_first hpast hop fun M => ?_, fun M i hp hi => ?_⟩
      · exact (hfront M p (by omega)).symm.trans (h M p le_rfl (by omega))
      · have hframe : writeBlock M (BitVec.ofNat 16 p) (reassembled past m (BitVec.ofNat 16 p))
            (BitVec.ofNat 16 i) = M (BitVec.ofNat 16 i) :=
          writeBlock_ofNat (by omega) (by omega) (by omega)
        exact (restore_congr hframe _).symm.trans (h M i (by omega) hi)
    · rintro ⟨hkept, hrestored⟩ M i hp hi
      by_cases hin : i < p + lenAt past m p
      · exact (hfront M i hin).trans (writeBlock_reassembled hpast hop hkept M hp hin)
      · exact hrestored _ i (by omega) hi

end Restore

/-! ### What `list` prints is typed into `as` -/

namespace Shell

/-- A line of `list`, as it is typed back: the address, and the instruction. -/
def retype (row : Text) : List Text :=
  ["as".toList ++ ' ' :: (row.drop 1).take 4, (row.drop 16).takeWhile (· ≠ '\n')]

theorem typable_operand (mode : AddrEnum) (addr : Word) (b1 b2 : Byte) :
    Typable (dasOperand mode addr b1 b2).1 := by
  cases mode <;> simp [dasOperand, typable_hex]

/-- What `dasm_das` prints can be typed. -/
theorem typable_das {past : OpRow} (hop : ∃ r ∈ vmOpTbl, r.op = past.op) (addr : Word)
    (op b1 b2 : Byte) :
    let text := (dasmDas past addr op b1 b2).1
    Typable text ∧ text ≠ [] ∧ text.length < 32 := by
  by_cases hrow : ∃ r ∈ vmOpTbl, r.op = op
  · obtain ⟨r, hr, rfl⟩ := hrow
    have hmne : ∀ r ∈ vmOpTbl, Typable r.mne := by decide +kernel
    obtain ⟨mode, hmode, -⟩ := tbl_sound r hr
    have hoperand := typable_operand mode addr b1 b2
    have hlen := (length_dasOperand mode addr b1 b2).1
    rw [dasmDas, find_op hr]
    simp only [Option.mem_def.mp hmode]
    have himplied : Typable r.mne ∧ r.mne ≠ [] ∧ r.mne.length < 32 :=
      ⟨hmne r hr, List.cons_ne_nil _ _, show 3 < 32 by decide⟩
    have hother : Typable (r.mne ++ [' '] ++ (dasOperand mode addr b1 b2).1) ∧
        r.mne ++ [' '] ++ (dasOperand mode addr b1 b2).1 ≠ [] ∧
        (r.mne ++ [' '] ++ (dasOperand mode addr b1 b2).1).length < 32 := by
      refine ⟨?_, by simp, ?_⟩
      · simp [hmne r hr, hoperand]
      · rw [List.length_append, List.length_append]
        show 3 + 1 + _ < 32
        omega
    cases mode <;> first | exact himplied | exact hother
  · rw [dasmDas_unknown hop (fun r hr hra => hrow ⟨r, hr, hra⟩)]
    exact ⟨by decide, by decide, by decide⟩

theorem length_byteColumns (op : List Byte) (opLen : ℕ) : (byteColumns op opLen).length = 6 := by
  have hbyte (b : Byte) : (sprintfHex 2 b.toNat).length = 2 := length_sprintfHex b.isLt
  have hcol (i : ℕ) :
      (if i < opLen then sprintfHex 2 (op.getD i 0).toNat else [' ', ' ']).length = 2 := by
    split
    · exact hbyte _
    · rfl
  simp only [byteColumns, List.length_flatMap, hcol]
  rfl

/-- The address and the instruction are read off a line. -/
theorem retype_listText {past : OpRow} (hop : ∃ r ∈ vmOpTbl, r.op = past.op) (m : Word → Byte)
    (a : Word) : retype (listText past a (readBlock m a 3))
      = ["as".toList ++ hexArg a, dasText past m a] := by
  have hhex : (sprintfHex 4 a.toNat).length = 4 := length_sprintfHex a.isLt
  obtain ⟨htext, -, -⟩ := typable_das hop a (m a) (m (a + 1)) (m (a + 2))
  have hplain : ∀ c ∈ dasText past m a, decide (c ≠ '\n') = true := by
    intro c hc
    refine decide_eq_true fun hnew => ?_
    have hle := (htext c hc).1
    rw [hnew] at hle
    exact absurd hle (by decide)
  -- what stands in front of the instruction
  have hrow : listText past a (readBlock m a 3) = (addrText a ++
      (byteColumns (readBlock m a 3) (opLenAt past m a) ++ [' ', ' ', ' '])) ++
        (dasText past m a ++ ['\n']) := by
    rw [readBlock_three]
    simp only [List.append_assoc]
    rfl
  have hfront : (addrText a ++ (byteColumns (readBlock m a 3) (opLenAt past m a) ++
      [' ', ' ', ' '])).length = 16 := by
    simp [addrText, hhex, length_byteColumns]
  have haddr : ((listText past a (readBlock m a 3)).drop 1).take 4 = sprintfHex 4 a.toNat := by
    rw [hrow, addrText]
    simp only [List.append_assoc, List.cons_append, List.drop_succ_cons, List.drop_zero]
    exact List.take_left' hhex
  rw [retype, haddr, hrow, List.drop_left' hfront, List.takeWhile_append_of_pos hplain]
  simp [hexArg]

/-- What a line is assembled to is stored. -/
theorem asDone_memory (past : OpRow) (statics : Statics) (M : Word → Byte) (line : Text) :
    (asDone past statics M line).2.2 = writeBlock M statics.as (stored past statics.as line) := by
  rw [asDone, stored]
  rcases dasmAs past statics.as line with ⟨e | opLen, out⟩
  · rfl
  · dsimp only
    split
    · rfl
    · next hzero =>
      obtain rfl : opLen = 0 := Nat.eq_zero_of_not_pos hzero
      rfl

section Dialogs

variable (R : Type) (font : ℕ → Byte) {past : OpRow} (hop : ∃ r ∈ vmOpTbl, r.op = past.op)
  (m M : Word → Byte) (statics : Statics)

include hop in
/-- **A line of `list`, typed into `as`**, stores the instruction as it is assembled. -/
theorem dialog_retype (a : Word) :
    ∃ text statics', Dialog R font past (statics, M)
      ((retype (listText past a (readBlock m a 3))).flatMap typed) text
      (statics', writeBlock M a (reassembled past m a)) := by
  obtain ⟨htext, hne, hlen⟩ := typable_das hop a (m a) (m (a + 1)) (m (a + 2))
  let done := asDone past { statics with as := a } M (dasText past m a)
  have hdialog : Dialog R font past (statics, M)
      (typed ("as".toList ++ hexArg a) ++ typed (dasText past m a)) (addrText a ++ done.1) done.2 :=
    dialog_as (.hex a statics.as) hne htext hlen
  have hmemory : done.2 = (done.2.1, writeBlock M a (reassembled past m a)) :=
    Prod.ext rfl (asDone_memory past { statics with as := a } M (dasText past m a))
  rw [hmemory] at hdialog
  rw [retype_listText hop, List.flatMap_cons, List.flatMap_singleton]
  exact ⟨_, _, hdialog⟩

include hop in
/-- All lines of a listing. -/
theorem dialog_retyped (addrs : List Word) :
    ∃ text statics', Dialog R font past (statics, M)
      ((addrs.map fun b => listText past b (readBlock m b 3)).flatMap fun row =>
        (retype row).flatMap typed) text
      (statics', restore past m M addrs) := by
  induction addrs generalizing M statics with
  | nil => exact ⟨[], statics, .nil⟩
  | cons a addrs ih =>
    obtain ⟨text, statics₁, hfirst⟩ := dialog_retype R font hop m M statics a
    obtain ⟨text', statics₂, hrest⟩ := ih (writeBlock M a (reassembled past m a)) statics₁
    rw [List.map_cons, List.flatMap_cons]
    exact ⟨_, _, hfirst.append hrest⟩

end Dialogs

/-! ### Commands that go on -/

/-- A command with an address, and again without, so many times. -/
def repeatKeys (name : Text) (a : Word) : ℕ → List Byte
  | 0 => []
  | n + 1 => typed (name ++ hexArg a) ++ (List.replicate n (typed name)).flatten

section Repeat

variable {R : Type} {font : ℕ → Byte} {past : OpRow} {m : Word → Byte} {name : Text} {c : ℕ}
  {next : Word → Word} {text : Word → Text} {P : Word → Prop} {get : Statics → Word}
  {set : Statics → Word → Statics} (hget : ∀ statics a, get (set statics a) = a)
  (h : ∀ statics arg a, Arg arg (get statics) a → (∀ b ∈ List.iterate next a c, P b) →
    Dialog R font past (statics, m) (typed (name ++ arg)) ((List.iterate next a c).flatMap text)
      (set statics (next^[c] a), m))
include hget h

/-- A command that prints `c` lines and keeps where it stopped prints, again and again, all the
lines. -/
theorem dialog_replicate (n : ℕ) (statics : Statics)
    (hread : ∀ b ∈ List.iterate next (get statics) (c * n), P b) :
    ∃ statics', Dialog R font past (statics, m) (List.replicate n (typed name)).flatten
      ((List.iterate next (get statics) (c * n)).flatMap text) (statics', m) := by
  induction n generalizing statics with
  | zero => exact ⟨_, .nil⟩
  | succ n ih =>
    have hmul : c * (n + 1) = c + c * n := by ring
    rw [hmul, List.iterate_add, List.forall_mem_append] at hread
    have hfirst := h statics [] _ (.none _) hread.1
    rw [List.append_nil] at hfirst
    have hrest := ih (set statics (next^[c] (get statics)))
    rw [hget] at hrest
    obtain ⟨statics', hrest⟩ := hrest hread.2
    rw [hmul, List.iterate_add, List.flatMap_append, List.replicate_succ, List.flatten_cons]
    exact ⟨statics', hfirst.append hrest⟩

theorem dialog_repeatKeys (n : ℕ) (statics : Statics) (a : Word)
    (hread : ∀ b ∈ List.iterate next a (c * n), P b) :
    ∃ statics', Dialog R font past (statics, m) (repeatKeys name a n)
      ((List.iterate next a (c * n)).flatMap text) (statics', m) := by
  cases n with
  | zero => exact ⟨_, .nil⟩
  | succ n =>
    have hmul : c * (n + 1) = c + c * n := by ring
    rw [hmul, List.iterate_add, List.forall_mem_append] at hread
    have hfirst := h statics _ a (.hex a _) hread.1
    have hrest := dialog_replicate hget h n (set statics (next^[c] a))
    rw [hget] at hrest
    obtain ⟨statics', hrest⟩ := hrest hread.2
    rw [hmul, List.iterate_add, List.flatMap_append]
    exact ⟨statics', hfirst.append hrest⟩

end Repeat

/-! ### Copies -/

/-- The serial memory. -/
def sram {R : Type} : Shell R → Word → Byte
  | .waits _ _ _ e => e.term.sram
  | .calls _ _ k => k.term.sram

/-- The shell waits for a command, with its screen in order. -/
def Ready {R : Type} (sh : Shell R) : Prop := ∃ statics m, Holds statics m sh

section Copy

variable {R : Type} {sh : Shell R} {statics : Statics} {m : Word → Byte}

theorem Holds.sram (h : Holds statics m sh) {x : Word} (hx : PROG_START ≤ x) : sh.sram x = m x := by
  obtain ⟨k, hk, rfl⟩ := h
  exact hk.sram x hx

/-- A shell that is ready holds its memory, and any other that is the same behind the screen. -/
theorem Ready.holds (h : Ready sh) (hm : ∀ x, PROG_START ≤ x → sh.sram x = m x) :
    ∃ statics, Holds statics m sh := by
  obtain ⟨statics, m', k, hk, rfl⟩ := h
  exact ⟨statics, k, ⟨hk.onScreen, hm⟩, rfl⟩

/-- Any memory is that of a shell. -/
theorem exists_ready [Inhabited R] (m : Word → Byte) : ∃ sh : Shell R, Ready sh ∧ sh.sram = m := by
  let t : Terminal := ⟨0, 0, false, m, []⟩
  let k : Kernel R := ⟨fun _ => 0, t, fun _ => 0, false, default⟩
  have ht : t.OnScreen := ⟨Nat.zero_le _, Nat.zero_le _, nofun⟩
  exact ⟨ask .command ⟨0, 0, 0, 0⟩ k, ⟨_, m, k, ⟨ht, fun _ _ => rfl⟩, rfl⟩, rfl⟩

end Copy

theorem nextRow_list (past : OpRow) (m : Word → Byte) (a : Word) :
    nextRow m 3 (listLen past) a = a + BitVec.ofNat 16 (opLenAt past m a) := by
  rw [nextRow, readBlock_three]
  rfl

/-- The lines of a listing are instructions one behind the other. -/
theorem tiles_list (past : OpRow) (m : Word → Byte) {p n : ℕ} (hfit : p + 3 * n ≤ 65536) :
    let addrs := List.iterate (nextRow m 3 (listLen past)) (BitVec.ofNat 16 p) n
    let len := (addrs.map (opLenAt past m)).sum
    Tiles past m p (addrs.map fun b => ⟨b, opLenAt past m b⟩) (p + len) ∧ len ≤ 3 * n ∧
      ∀ b ∈ addrs, p ≤ b.toNat ∧ b.toNat + 3 ≤ 65536 := by
  induction n generalizing p with
  | zero => exact ⟨.nil p, le_rfl, nofun⟩
  | succ n ih =>
    have hlen := @lenAt_le past m p
    have hnext : nextRow m 3 (listLen past) (BitVec.ofNat 16 p)
        = BitVec.ofNat 16 (p + lenAt past m p) := by
      rw [nextRow_list, BitVec.ofNat_add]
      rfl
    obtain ⟨htiles, hsum, hreads⟩ := @ih (p + lenAt past m p) (by omega)
    simp only [List.iterate, hnext, List.map_cons, List.sum_cons]
    refine ⟨?_, ?_, ?_⟩
    · rw [← Nat.add_assoc]
      exact .cons htiles
    · show lenAt past m p + _ ≤ _
      omega
    · rw [List.forall_mem_cons]
      refine ⟨?_, fun b hb => ?_⟩
      · rw [BitVec.toNat_ofNat]
        omega
      · have hb := hreads b hb
        omega

/-- **Copying a program through the screen.**  What `list` prints of a memory, typed into any
other shell, stores nothing outside the listed instructions, and restores them exactly if
each of them is kept. -/
theorem list_as_iff (R : Type) [Inhabited R] (font : ℕ → Byte) {past : OpRow}
    (hpast : PastTable past) (hop : ∃ r ∈ vmOpTbl, r.op = past.op) (m : Word → Byte) {a : Word}
    {n : ℕ} (ha : PROG_START ≤ a) (hfit : a.toNat + 36 * n ≤ 65536) :
    let addrs := List.iterate (nextRow m 3 (listLen past)) a (12 * n)
    let rows := listRows past m a (12 * n)
    let len := (addrs.map (opLenAt past m)).sum
    let keys := rows.flatMap fun row => (retype row).flatMap typed
    (∀ sh : Shell R, Ready sh → (∀ x, PROG_START ≤ x → sh.sram x = m x) →
      (Mealy.feed (key font past) sh (repeatKeys "list".toList a n)).1.flatten = rows.flatten) ∧
    (∀ sh : Shell R, Ready sh → ∀ x, PROG_START ≤ x → len ≤ (x - a).toNat →
      (Mealy.feed (key font past) sh keys).2.sram x = sh.sram x) ∧
    ((∀ sh : Shell R, Ready sh → ∀ i < len,
      (Mealy.feed (key font past) sh keys).2.sram (a + BitVec.ofNat 16 i)
        = m (a + BitVec.ofNat 16 i)) ↔ ∀ b ∈ addrs, Kept m b) := by
  intro addrs rows len keys
  have hload : BitVec.ofNat 16 a.toNat = a := by rw [BitVec.ofNat_toNat, BitVec.setWidth_eq]
  have hlist := @tiles_list past m a.toNat (12 * n) (by omega)
  rw [hload] at hlist
  obtain ⟨htiles, hlen, hreads⟩ := hlist
  have hend : a.toNat + len ≤ 65536 := by
    have hlen : len ≤ 3 * (12 * n) := hlen
    omega
  have haddrs : (addrs.map fun b => (⟨b, opLenAt past m b⟩ : ListLine)).map ListLine.addr
      = addrs := by
    rw [List.map_map]
    exact List.map_id addrs
  -- what is typed restores the instructions over the memory of the shell
  have htyped : ∀ sh : Shell R, Ready sh → ∀ x, PROG_START ≤ x →
      (Mealy.feed (key font past) sh keys).2.sram x = restore past m sh.sram addrs x := by
    intro sh hsh x hx
    obtain ⟨statics, hholds⟩ := hsh.holds fun _ _ => rfl
    obtain ⟨text, statics', hdialog⟩ := dialog_retyped R font hop m sh.sram statics addrs
    exact (hdialog sh hholds).2.sram hx
  have hbehind : ∀ i < len, PROG_START ≤ a + BitVec.ofNat 16 i := by
    intro i hi
    rw [add_ofNat]
    have ha : 0x1a00 ≤ a.toNat := ha
    show 0x1a00 ≤ (BitVec.ofNat 16 (a.toNat + i)).toNat
    rw [BitVec.toNat_ofNat]
    omega
  refine ⟨fun sh hsh hm => ?_, fun sh hsh x hx hout => ?_, ?_⟩
  · obtain ⟨statics, hholds⟩ := hsh.holds hm
    have hread : ∀ b ∈ addrs, PROG_START ≤ b ∧ b.toNat + 3 ≤ 65536 := by
      intro b hb
      obtain ⟨hle, hmax⟩ := hreads b hb
      exact ⟨ha.trans hle, hmax⟩
    obtain ⟨statics', hdialog⟩ := @dialog_repeatKeys R font past m "list".toList 12
      (nextRow m 3 (listLen past)) (fun b => listText past b (readBlock m b 3)) _ Statics.list
      (fun statics b => { statics with list := b }) (fun _ _ => rfl)
      (fun _ _ _ harg hread => dialog_list harg hread) n statics a hread
    exact (hdialog sh hholds).1
  · have hx' : x = BitVec.ofNat 16 x.toNat := by rw [BitVec.ofNat_toNat, BitVec.setWidth_eq]
    rw [htyped sh hsh x hx, ← haddrs, hx']
    refine restore_outside hpast hop htiles hend _ ?_ x.isLt
    rw [BitVec.toNat_sub] at hout
    have hxlt := x.isLt
    have halt := a.isLt
    show x.toNat < a.toNat ∨ a.toNat + len ≤ x.toNat
    omega
  · have hkept : (∀ b ∈ addrs, Kept m b) ↔
        ∀ line ∈ addrs.map fun b => (⟨b, opLenAt past m b⟩ : ListLine), Kept m line.addr := by
      rw [List.forall_mem_map]
    rw [hkept, ← restore_iff hpast hop htiles hend, haddrs]
    constructor
    · intro h M i hp hi
      obtain ⟨sh, hsh, rfl⟩ := @exists_ready R _ M
      obtain ⟨j, rfl⟩ := Nat.exists_eq_add_of_le hp
      have hj : j < len := Nat.lt_of_add_lt_add_left hi
      have hsame := h sh hsh j hj
      rwa [htyped sh hsh _ (hbehind j hj), add_ofNat] at hsame
    · intro h sh hsh i hi
      rw [htyped sh hsh _ (hbehind i hi), add_ofNat]
      exact h sh.sram _ (Nat.le_add_right _ _) (Nat.add_lt_add_left hi _)

/-- One listing, of `NOP`. -/
theorem list_as_iff_nop :
    let m : Word → Byte := fun _ => 0xea
    let addrs := List.iterate (nextRow m 3 (listLen zeroRow)) 0x1a00 12
    let keys := (listRows zeroRow m 0x1a00 12).flatMap fun row => (retype row).flatMap typed
    (∀ sh : Shell Unit, Ready sh → ∀ i < (addrs.map (opLenAt zeroRow m)).sum,
      (Mealy.feed (key (fun _ => 0) zeroRow) sh keys).2.sram (0x1a00 + BitVec.ofNat 16 i) = 0xea) ↔
    ∀ b ∈ addrs, Kept m b :=
  (@list_as_iff Unit _ (fun _ => 0) zeroRow pastTable_zeroRow ⟨_, List.mem_cons_self, rfl⟩
    (fun _ => 0xea) 0x1a00 1 (by decide) (by decide)).2.2

/-! ### What `peek` prints is typed into `poke` -/

/-- A line of `peek`, as it is typed back: the address, and six bytes. -/
def retypeBytes (row : Text) : List Text :=
  ("poke".toList ++ ' ' :: (row.drop 1).take 4) :: (row.drop 7).take 2 ::
    (List.range' 1 5).flatMap fun i => ["poke".toList, (row.drop (7 + 3 * i)).take 2]

theorem retypeBytes_peekText (a : Word) (b0 b1 b2 b3 b4 b5 : Byte) :
    retypeBytes (peekText a [b0, b1, b2, b3, b4, b5])
      = ("poke".toList ++ hexArg a) :: sprintfHex 2 b0.toNat ::
        [b1, b2, b3, b4, b5].flatMap fun b => ["poke".toList, sprintfHex 2 b.toNat] := by
  have hbyte (b : Byte) : ∃ c d, sprintfHex 2 b.toNat = [c, d] :=
    List.length_eq_two.mp (length_sprintfHex b.isLt)
  have hword : ∃ c d e f, sprintfHex 4 a.toNat = [c, d, e, f] := by
    have hlen : (sprintfHex 4 a.toNat).length = 4 := length_sprintfHex a.isLt
    rcases hs : sprintfHex 4 a.toNat with - | ⟨c, - | ⟨d, - | ⟨e, - | ⟨f, - | ⟨g, s⟩⟩⟩⟩⟩
    case cons.cons.cons.cons.nil => exact ⟨c, d, e, f, rfl⟩
    all_goals
      rw [hs] at hlen
      simp at hlen
  obtain ⟨w, x, y, z, hword⟩ := hword
  obtain ⟨c0, d0, h0⟩ := hbyte b0
  obtain ⟨c1, d1, h1⟩ := hbyte b1
  obtain ⟨c2, d2, h2⟩ := hbyte b2
  obtain ⟨c3, d3, h3⟩ := hbyte b3
  obtain ⟨c4, d4, h4⟩ := hbyte b4
  obtain ⟨c5, d5, h5⟩ := hbyte b5
  simp only [retypeBytes, peekText, hexArg, List.flatMap_cons, List.flatMap_nil, hword, h0, h1, h2,
    h3, h4, h5]
  rfl

section Poke

variable (R : Type) (font : ℕ → Byte) (past : OpRow) (M : Word → Byte) (statics : Statics)

/-- A byte in two digits. -/
theorem dialog_poke_byte {arg : Text} {a : Word} (harg : Arg arg statics.poke a) (b : Byte) :
    Dialog R font past (statics, M) (typed ("poke".toList ++ arg) ++ typed (sprintfHex 2 b.toNat))
      (addrText a ++ []) ({ statics with poke := a + 1 }, writeBlock M a [b]) := by
  have hlen : (sprintfHex 2 b.toNat).length = 2 := length_sprintfHex b.isLt
  have hne : sprintfHex 2 b.toNat ≠ [] := by
    rw [← List.length_pos_iff, hlen]
    decide
  have hv : sscanfHex (sprintfHex 2 b.toNat) = some (b.toNat : ℤ) := by
    have hscan := sscanfHex_digits hne (isxdigit_sprintfHex 2 _) (.nil) (fun _ => nofun)
    rwa [List.append_nil, numeral_sprintfHex] at hscan
  have hbyte : (BitVec.ofInt 16 (b.toNat : ℤ)).setWidth 8 = b := by
    rw [BitVec.ofInt_natCast, BitVec.setWidth_ofNat_of_le (by decide), BitVec.ofNat_toNat,
      BitVec.setWidth_eq]
  have hpoke := @dialog_poke R font past M statics _ _ a harg (typable_hex 2 _) (by omega) _ hv
  rwa [hbyte] at hpoke

/-- `poke` goes on. -/
theorem dialog_pokes (bytes : List Byte) (a : Word) :
    ∃ text, Dialog R font past ({ statics with poke := a }, M)
      ((bytes.flatMap fun b => ["poke".toList, sprintfHex 2 b.toNat]).flatMap typed) text
      ({ statics with poke := a + BitVec.ofNat 16 bytes.length }, writeBlock M a bytes) := by
  induction bytes generalizing M a with
  | nil =>
    rw [List.length_nil, BitVec.add_zero]
    exact ⟨_, .nil⟩
  | cons b bytes ih =>
    obtain ⟨text, hrest⟩ := ih (writeBlock M a [b]) (a + 1)
    have hfirst := dialog_poke_byte R font past M { statics with poke := a } (.none a) b
    rw [add_one_add_ofNat] at hrest
    exact ⟨_, hfirst.append hrest⟩

/-- **A line of `peek`, typed into `poke`**, stores its bytes. -/
theorem dialog_retypeBytes (m : Word → Byte) (a : Word) :
    ∃ text statics', Dialog R font past (statics, M)
      ((retypeBytes (peekText a (readBlock m a 6))).flatMap typed) text
      (statics', writeBlock M a (readBlock m a 6)) := by
  obtain ⟨b0, b1, b2, b3, b4, b5, hdata⟩ : ∃ b0 b1 b2 b3 b4 b5,
      readBlock m a 6 = [b0, b1, b2, b3, b4, b5] := ⟨_, _, _, _, _, _, rfl⟩
  have hfirst := dialog_poke_byte R font past M statics (.hex a _) b0
  obtain ⟨text, hrest⟩ := dialog_pokes R font past (writeBlock M a [b0]) statics
    [b1, b2, b3, b4, b5] (a + 1)
  have hkeys := hfirst.append hrest
  have hsplit : writeBlock (writeBlock M a [b0]) (a + 1) [b1, b2, b3, b4, b5]
      = writeBlock M a [b0, b1, b2, b3, b4, b5] := rfl
  rw [List.append_assoc, ← List.flatMap_cons, ← List.flatMap_cons, ← retypeBytes_peekText,
    hsplit, ← hdata] at hkeys
  exact ⟨_, _, hkeys⟩

/-- The lines of a dump, stored one after the other. -/
def refill (m M : Word → Byte) (addrs : List Word) : Word → Byte :=
  addrs.foldl (fun M b => writeBlock M b (readBlock m b 6)) M

theorem dialog_dump (m : Word → Byte) (addrs : List Word) :
    ∃ text statics', Dialog R font past (statics, M)
      ((addrs.map fun b => peekText b (readBlock m b 6)).flatMap fun row =>
        (retypeBytes row).flatMap typed) text
      (statics', refill m M addrs) := by
  induction addrs generalizing M statics with
  | nil => exact ⟨[], statics, .nil⟩
  | cons a addrs ih =>
    obtain ⟨text, statics₁, hfirst⟩ := dialog_retypeBytes R font past M statics m a
    obtain ⟨text', statics₂, hrest⟩ := ih (writeBlock M a (readBlock m a 6)) statics₁
    rw [List.map_cons, List.flatMap_cons]
    exact ⟨_, _, hfirst.append hrest⟩

end Poke

theorem nextRow_peek (m : Word → Byte) (p : ℕ) :
    nextRow m 6 (fun _ _ => 6) (BitVec.ofNat 16 p) = BitVec.ofNat 16 (p + 6) := by
  rw [nextRow, BitVec.ofNat_add]
  rfl

/-- The lines of a dump are six bytes each, one behind the other. -/
theorem reads_peek (m : Word → Byte) {p n : ℕ} (hfit : p + 6 * n ≤ 65536) :
    ∀ b ∈ List.iterate (nextRow m 6 fun _ _ => 6) (BitVec.ofNat 16 p) n,
      p ≤ b.toNat ∧ b.toNat + 6 ≤ 65536 := by
  induction n generalizing p with
  | zero => exact nofun
  | succ n ih =>
    rw [List.iterate, nextRow_peek, List.forall_mem_cons, BitVec.toNat_ofNat]
    refine ⟨by omega, fun b hb => ?_⟩
    have hb := @ih (p + 6) (by omega) b hb
    omega

theorem refill_apply (m : Word → Byte) {p n : ℕ} (hfit : p + 6 * n ≤ 65536) (M : Word → Byte)
    {i : ℕ} (hi : i < 65536) :
    refill m M (List.iterate (nextRow m 6 fun _ _ => 6) (BitVec.ofNat 16 p) n) (BitVec.ofNat 16 i)
      = if p ≤ i ∧ i < p + 6 * n then m (BitVec.ofNat 16 i) else M (BitVec.ofNat 16 i) := by
  induction n generalizing p M with
  | zero => exact (if_neg (by omega)).symm
  | succ n ih =>
    rw [List.iterate, nextRow_peek]
    refine (ih (by omega) (writeBlock M _ (readBlock m _ 6))).trans ?_
    by_cases hrow : p ≤ i ∧ i < p + 6
    · obtain ⟨j, rfl⟩ := Nat.exists_eq_add_of_le hrow.1
      rw [if_neg (by omega), if_pos (by omega), BitVec.ofNat_add,
        writeBlock_apply_add (by simp) (by simp; omega)]
      simp only [readBlock_eq_map, List.getElem_map, List.getElem_range]
    · rw [writeBlock_ofNat (by simp; omega) hi (by simp; omega)]
      exact if_congr (by omega) rfl rfl

/-- **Copying a memory through the screen.**  What `peek` prints, typed into any other shell,
copies the bytes that are shown, and no other behind the screen changes. -/
theorem peek_poke (R : Type) (font : ℕ → Byte) (past : OpRow) (m : Word → Byte) {a : Word} {n : ℕ}
    (ha : PROG_START ≤ a) (hfit : a.toNat + 48 * n ≤ 65536) :
    let rows := peekRows m a (8 * n)
    let keys := rows.flatMap fun row => (retypeBytes row).flatMap typed
    (∀ sh : Shell R, Ready sh → (∀ x, PROG_START ≤ x → sh.sram x = m x) →
      (Mealy.feed (key font past) sh (repeatKeys "peek".toList a n)).1.flatten = rows.flatten) ∧
    (∀ sh : Shell R, Ready sh → ∀ x, PROG_START ≤ x →
      (Mealy.feed (key font past) sh keys).2.sram x
        = if (x - a).toNat < 48 * n then m x else sh.sram x) := by
  intro rows keys
  have hload : BitVec.ofNat 16 a.toNat = a := by rw [BitVec.ofNat_toNat, BitVec.setWidth_eq]
  have halt := a.isLt
  refine ⟨fun sh hsh hm => ?_, fun sh hsh x hx => ?_⟩
  · have hread : ∀ b ∈ List.iterate (nextRow m 6 fun _ _ => 6) a (8 * n),
        PROG_START ≤ b ∧ b.toNat + 6 ≤ 65536 := by
      intro b hb
      rw [← hload] at hb
      obtain ⟨hle, hmax⟩ := @reads_peek m a.toNat (8 * n) (by omega) b hb
      exact ⟨ha.trans hle, hmax⟩
    obtain ⟨statics, hholds⟩ := hsh.holds hm
    obtain ⟨statics', hdialog⟩ := @dialog_repeatKeys R font past m "peek".toList 8
      (nextRow m 6 fun _ _ => 6) (fun b => peekText b (readBlock m b 6)) _ Statics.peek
      (fun statics b => { statics with peek := b }) (fun _ _ => rfl)
      (fun _ _ _ harg hread => dialog_peek harg hread) n statics a hread
    exact (hdialog sh hholds).1
  · obtain ⟨statics, hholds⟩ := hsh.holds fun _ _ => rfl
    obtain ⟨text, statics', hdialog⟩ := dialog_dump R font past sh.sram statics m
      (List.iterate (nextRow m 6 fun _ _ => 6) a (8 * n))
    have hsram := (hdialog sh hholds).2.sram hx
    have hx' : x = BitVec.ofNat 16 x.toNat := by rw [BitVec.ofNat_toNat, BitVec.setWidth_eq]
    have hrefill := @refill_apply m a.toNat (8 * n) (by omega) sh.sram x.toNat x.isLt
    rw [hload, ← hx'] at hrefill
    refine hsram.trans (hrefill.trans (if_congr ?_ rfl rfl))
    have hxlt := x.isLt
    rw [BitVec.toNat_sub]
    omega

/-- A dump of zeros clears forty-eight bytes. -/
theorem peek_poke_zeros :
    let keys := (peekRows (fun _ => 0) 0x1a00 8).flatMap fun row => (retypeBytes row).flatMap typed
    ∀ sh : Shell Unit, Ready sh → ∀ x, PROG_START ≤ x →
      (Mealy.feed (key (fun _ => 0) zeroRow) sh keys).2.sram x
        = if (x - 0x1a00).toNat < 48 * 1 then 0 else sh.sram x :=
  (@peek_poke Unit (fun _ => 0) zeroRow (fun _ => 0) 0x1a00 1 (by decide) (by decide)).2

end Shell

end Dan64
