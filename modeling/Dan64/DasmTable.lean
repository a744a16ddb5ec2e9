/-
Dan64/DasmTable.lean

The reads of `vm_op_tbl`.

Both search loops run while the index is below `OPCODES`, which is one more than
the table has rows, so that a search reads behind the table exactly when it finds
nothing in it (`within_rows_iff`).  `dasm_as` searches for the mnemonic, for the
modes that the operand may be short for, and for the mode it has settled on.  As
long as the searches find something there is only one mode, the first
(`Leads.all_iff`), so a line stays inside the table exactly when its mnemonic has
a row and has one for that mode (`within_asReads_iff`).
-/
import Dan64.DasmReject

namespace Dan64

open CText AddrEnum

/-! ### Reads -/

/-- The offsets that a search loop reads, row by row up to the one it stops at. -/
def rowReads (past : OpRow) (found : OpRow → Bool) (offsets : ℕ → List ℕ) : List ℕ :=
  (List.range (min ((vmOpTbl ++ [past]).findIdx found + 1) OPCODES)).flatMap offsets

/-- `find_mne`: the mnemonic of each row and, where it is the one and a mode is
given, the mode. -/
def findMneReads (past : OpRow) (mne : Text) (addrMode : Option AddrEnum) : List ℕ :=
  rowReads past (OpRow.isFor mne addrMode) fun i =>
    [i * 5 + 1, i * 5 + 2, i * 5 + 3] ++
      if (opRow past i).mne = mne ∧ addrMode.isSome = true then [i * 5 + 4] else []

/-- `dasm_das` copies each row. -/
def dasReads (past : OpRow) (op : Byte) : List ℕ :=
  rowReads past (fun r => r.op == op) fun i => (List.range 5).map fun k => i * 5 + k

/-- The modes looked up while an operand that starts with a number is parsed. -/
def directSearches (past : OpRow) (mne : Text) (p : Text) : List AddrEnum :=
  match getValue p with
  | .error _ => []
  | .ok (n, val) =>
    match skipWhitespace (p.drop n) with
    | [] =>
      if val ≤ 0xff#16 then
        AT_ZEROP :: if findMne past mne AT_ZEROP ≠ OPCODES then [] else [AT_RELATIVE]
      else [AT_RELATIVE]
    | ',' :: q =>
      -- what is behind the register is looked at after the search
      match skipWhitespace q with
      | 'X' :: _ => if val ≤ 0xff#16 then [AT_ZP_INDEX_X] else []
      | 'Y' :: _ => if val ≤ 0xff#16 then [AT_ZP_INDEX_Y] else []
      | _ => []
    | _ => []

/-- The mode of the last search. -/
def lastSearch : Except Fault (AddrEnum × ℕ × Word) → List AddrEnum
  | .error _ => []
  | .ok (mode, _, _) => [mode]

/-- The modes looked up for an operand. -/
def operandSearches (past : OpRow) (mne : Text) (addr : Word) (p : Text) : List AddrEnum :=
  (if p.head?.any fun c => isdigit c || c == '$' then directSearches past mne p else []) ++
    lastSearch (asOperand past mne addr p)

/-- `dasm_as` does not get to a search: the line is blank, a `.` line, too short, or
too long for the upper case loop to end. -/
def Quiet (line : Text) : Prop :=
  (skipWhitespace line).head? = some '.' ∨ (skipWhitespace line).length < 3 ∨
    256 ≤ (skipWhitespace line).length

instance (line : Text) : Decidable (Quiet line) := inferInstanceAs (Decidable (_ ∨ _))

/-- What `emit_op` reads: the opcode of the row that the last search has found. -/
def emitReads (past : OpRow) (mne : Text) : Except Fault (AddrEnum × ℕ × Word) → List ℕ
  | .error _ => []
  | .ok (mode, _, _) =>
    let index := findMne past mne mode
    if index = OPCODES then [] else [index * 5]

/-- `dasm_as` -/
def asReads (past : OpRow) (addr : Word) (line : Text) : List ℕ :=
  let mne := mneOf line
  let p := operandOf line
  if Quiet line then []
  else findMneReads past mne none ++
    if findMne past mne none = OPCODES then []
    else (operandSearches past mne addr p).flatMap (fun m => findMneReads past mne (some m)) ++
      emitReads past mne (asOperand past mne addr p)

/-- Every read is inside the table. -/
def Within (reads : List ℕ) : Prop := ∀ a ∈ reads, a < vmOpTbl.length * 5

/-! ### A search stays inside when it finds something -/

/-- The table has a row for a mnemonic and, if one is given, a mode. -/
def HasRow (mne : Text) (addrMode : Option AddrEnum) : Prop :=
  ∃ r ∈ vmOpTbl, OpRow.isFor mne addrMode r = true

instance (mne : Text) (addrMode : Option AddrEnum) : Decidable (HasRow mne addrMode) :=
  inferInstanceAs (Decidable (∃ r ∈ vmOpTbl, _))

theorem findIdx_lt_iff (past : OpRow) (found : OpRow → Bool) :
    (vmOpTbl ++ [past]).findIdx found < vmOpTbl.length ↔ ∃ r ∈ vmOpTbl, found r = true := by
  rw [← List.findIdx_lt_length, List.findIdx_append]
  split
  · exact Iff.rfl
  · next h => exact iff_of_false (by omega) h

/-- **A search reads behind the table exactly when it finds nothing in it**: the
index of its last row is then the number of rows. -/
theorem within_rows_iff (past : OpRow) (found : OpRow → Bool) {offsets : ℕ → List ℕ}
    (hupper : ∀ i, ∀ a ∈ offsets i, a < i * 5 + 5) (hlower : ∀ i, ∃ a ∈ offsets i, i * 5 ≤ a) :
    Within (rowReads past found offsets) ↔ ∃ r ∈ vmOpTbl, found r = true := by
  have hlen : vmOpTbl.length = 152 := rfl
  rw [← findIdx_lt_iff past, hlen]
  constructor
  · intro h
    by_contra hlast
    obtain ⟨a, ha, hle⟩ := hlower 152
    have hread : 152 < min ((vmOpTbl ++ [past]).findIdx found + 1) OPCODES := by
      simp only [OPCODES]
      omega
    have hlt := h a (List.mem_flatMap.mpr ⟨152, List.mem_range.mpr hread, ha⟩)
    rw [hlen] at hlt
    omega
  · intro h a ha
    obtain ⟨i, hi, ha⟩ := List.mem_flatMap.mp ha
    have hi := List.mem_range.mp hi
    have hlt := hupper i a ha
    rw [hlen]
    omega

theorem within_findMneReads_iff (past : OpRow) (mne : Text) (addrMode : Option AddrEnum) :
    Within (findMneReads past mne addrMode) ↔ HasRow mne addrMode := by
  refine within_rows_iff past _ (fun i a ha => ?_) fun i => ⟨i * 5 + 1, by simp, by omega⟩
  rw [List.mem_append] at ha
  rcases ha with ha | ha
  · simp only [List.mem_cons, List.not_mem_nil, or_false] at ha
    omega
  · split at ha
    · rw [List.mem_singleton.mp ha]
      omega
    · cases ha

theorem within_dasReads_iff (past : OpRow) (op : Byte) :
    Within (dasReads past op) ↔ ∃ r ∈ vmOpTbl, r.op = op := by
  rw [dasReads, within_rows_iff past]
  · simp only [beq_iff_eq]
  · intro i a ha
    obtain ⟨k, hk, rfl⟩ := List.mem_map.mp ha
    have hk := List.mem_range.mp hk
    omega
  · intro i
    exact ⟨i * 5, List.mem_map.mpr ⟨0, by simp, rfl⟩, le_rfl⟩

/-- A row of the table is found in it, whatever is behind. -/
theorem HasRow.found {mne : Text} {addrMode : Option AddrEnum} (h : HasRow mne addrMode)
    (past : OpRow) : findMne past mne addrMode ≠ OPCODES := by
  obtain ⟨r, hr, hfor⟩ := h
  exact findMne_ne_OPCODES_iff.mpr ⟨r, List.mem_append_left _ hr, hfor⟩

theorem HasRow.lt {mne : Text} {addrMode : Option AddrEnum} (h : HasRow mne addrMode)
    (past : OpRow) : findMne past mne addrMode < vmOpTbl.length :=
  (findIdx_lt_iff past _).mpr h

/-! ### The first mode of an operand -/

/-- The mode that an operand with a number in front is first looked up for: the
zero-page one if the number is short; without an index a branch is the other. -/
def directMode (p : Text) : Option AddrEnum :=
  match getValue p with
  | .error _ => none
  | .ok (n, val) =>
    match skipWhitespace (p.drop n) with
    | [] => some (if val ≤ 0xff#16 then AT_ZEROP else AT_RELATIVE)
    | ',' :: q =>
      match skipWhitespace q with
      | 'X' :: s =>
        if val ≤ 0xff#16 then some AT_ZP_INDEX_X
        else if skipWhitespace s = [] then some AT_ABS_INDEX_X else none
      | 'Y' :: s =>
        if val ≤ 0xff#16 then some AT_ZP_INDEX_Y
        else if skipWhitespace s = [] then some AT_ABS_INDEX_Y else none
      | _ => none
    | _ => none

/-- The mode that an operand is first looked up for, if it gets that far. -/
def firstMode (p : Text) : Option AddrEnum :=
  match p with
  | [] => some AT_IMPLIED
  | 'A' :: s => if skipWhitespace s = [] then some AT_ACCUMULATOR else none
  | '#' :: s =>
    match getValue s with
    | .error _ => none
    | .ok (n, val) =>
      if skipWhitespace (s.drop n) = [] ∧ val ≤ 0xff#16 then some AT_IMMEDIATE else none
  | '(' :: s =>
    match asIndirect s with
    | .error _ => none
    | .ok (mode, _, _) => some mode
  | c :: s => if isdigit c || c == '$' then directMode (c :: s) else none

/-- The searches start with a mode, and if that is found they are all for it. -/
structure Leads (mne : Text) (searches : List AddrEnum) (mode : Option AddrEnum) : Prop where
  head : searches.head? = mode
  only : ∀ m ∈ mode, HasRow mne (some m) → ∀ m' ∈ searches, m' = m

theorem Leads.nothing (mne : Text) : Leads mne [] none := ⟨rfl, nofun⟩

theorem Leads.one (mne : Text) (m : AddrEnum) : Leads mne [m] (some m) := by
  refine ⟨rfl, fun m' hm _ m'' hm'' => ?_⟩
  rw [List.mem_singleton.mp hm'']
  exact Option.some.inj hm

/-- They all find something exactly when the first one does. -/
theorem Leads.all_iff {mne : Text} {searches : List AddrEnum} {mode : Option AddrEnum}
    (h : Leads mne searches mode) :
    (∀ m ∈ searches, HasRow mne (some m)) ↔ ∀ m ∈ mode, HasRow mne (some m) := by
  obtain ⟨hhead, honly⟩ := h
  constructor
  · intro hall m hm
    rw [← hhead] at hm
    exact hall m (List.mem_of_mem_head? hm)
  · intro hmode m hm
    obtain ⟨m', rest, rfl⟩ := List.exists_cons_of_ne_nil (List.ne_nil_of_mem hm)
    have hm' : m' ∈ mode := by
      rw [← hhead]
      rfl
    have hrow := hmode m' hm'
    rw [honly m' hm' hrow m hm]
    exact hrow

/-- An index register: the zero-page mode if the number is short, the absolute one. -/
theorem Leads.indexed {past : OpRow} {mne : Text} {zp abs : AddrEnum} {s : Text} {val : Word} :
    Leads mne ((if val ≤ 0xff#16 then [zp] else []) ++
        lastSearch (if skipWhitespace s ≠ [] then .error .refused
          else if val ≤ 0xff#16 ∧ findMne past mne zp ≠ OPCODES then .ok (zp, 2, val)
          else .ok (abs, 3, val)))
      (if val ≤ 0xff#16 then some zp else if skipWhitespace s = [] then some abs else none) := by
  by_cases hval : val ≤ 0xff#16
  · rw [if_pos hval, if_pos hval]
    refine ⟨rfl, fun m hm hrow m' hm' => ?_⟩
    obtain rfl : zp = m := Option.some.inj hm
    split at hm'
    · simpa [lastSearch] using hm'
    · rw [if_pos ⟨hval, hrow.found past⟩] at hm'
      simpa [lastSearch] using hm'
  · rw [if_neg hval, if_neg hval, List.nil_append]
    by_cases hs : skipWhitespace s = []
    · rw [if_pos hs, if_neg (not_not.mpr hs), if_neg fun h => hval h.1]
      exact .one mne abs
    · rw [if_neg hs, if_pos hs]
      exact .nothing mne

/-- No index: the zero-page mode if the number is short, a branch, the absolute mode. -/
theorem Leads.direct {past : OpRow} {mne : Text} {addr val : Word} :
    Leads mne ((if val ≤ 0xff#16 then
          AT_ZEROP :: if findMne past mne AT_ZEROP ≠ OPCODES then [] else [AT_RELATIVE]
        else [AT_RELATIVE]) ++
        lastSearch (Format.result past mne addr val .direct))
      (some (if val ≤ 0xff#16 then AT_ZEROP else AT_RELATIVE)) := by
  rw [Format.result]
  by_cases hval : val ≤ 0xff#16
  · rw [if_pos hval, if_pos hval]
    refine ⟨rfl, fun m hm hrow m' hm' => ?_⟩
    obtain rfl : AT_ZEROP = m := Option.some.inj hm
    rw [if_pos (hrow.found past), if_pos ⟨hval, hrow.found past⟩] at hm'
    simpa [lastSearch] using hm'
  · rw [if_neg hval, if_neg hval]
    refine ⟨rfl, fun m hm hrow m' hm' => ?_⟩
    obtain rfl : AT_RELATIVE = m := Option.some.inj hm
    rw [if_neg fun h => hval h.1, if_pos (hrow.found past)] at hm'
    simpa [lastSearch] using hm'

theorem leads_direct (past : OpRow) (mne : Text) (addr : Word) (p : Text) :
    Leads mne (directSearches past mne p ++ lastSearch (asDirect past mne addr p))
      (directMode p) := by
  rw [directSearches, asDirect, directMode]
  rcases getValue p with e | ⟨n, val⟩
  · exact .nothing mne
  · simp only [bind, Except.bind]
    generalize skipWhitespace (p.drop n) = q
    rcases q with - | ⟨c, q⟩
    · exact .direct
    by_cases hcomma : c = ','
    · subst hcomma
      simp only
      generalize skipWhitespace q = t
      rcases t with - | ⟨d, s⟩
      · exact .nothing mne
      by_cases hX : d = 'X'
      · subst hX
        exact .indexed
      by_cases hY : d = 'Y'
      · subst hY
        exact .indexed
      · have hx : ∀ p, d :: s = 'X' :: p → False := fun p h => hX (List.cons.inj h).1
        have hy : ∀ p, d :: s = 'Y' :: p → False := fun p h => hY (List.cons.inj h).1
        simp only
        exact .nothing mne
    · have hother : ∀ p, c :: q = ',' :: p → False := fun p h => hcomma (List.cons.inj h).1
      simp only
      exact .nothing mne

theorem Leads.last (mne : Text) (r : Except Fault (AddrEnum × ℕ × Word)) :
    Leads mne ([] ++ lastSearch r) (match r with
      | .error _ => none
      | .ok (mode, _, _) => some mode) := by
  rcases r with e | ⟨mode, len, val⟩
  · exact .nothing mne
  · exact .one mne mode

theorem leads_operand (past : OpRow) (mne : Text) (addr : Word) (p : Text) :
    Leads mne (operandSearches past mne addr p) (firstMode p) := by
  rcases p with - | ⟨c, s⟩
  · exact .one mne AT_IMPLIED
  by_cases hA : c = 'A'
  · subst hA
    show Leads mne ([] ++ lastSearch (if skipWhitespace s = [] then _ else _))
      (if skipWhitespace s = [] then _ else _)
    split
    · exact .one mne AT_ACCUMULATOR
    · exact .nothing mne
  by_cases hhash : c = '#'
  · subst hhash
    show Leads mne ([] ++ lastSearch (getValue s >>= _)) (match getValue s with
      | .error _ => none
      | .ok (n, val) => if skipWhitespace (s.drop n) = [] ∧ val ≤ 0xff#16 then _ else _)
    rcases getValue s with e | ⟨n, val⟩
    · exact .nothing mne
    · simp only [bind, Except.bind]
      split
      · exact .one mne AT_IMMEDIATE
      · exact .nothing mne
  by_cases hparen : c = '('
  · subst hparen
    exact .last mne (asIndirect s)
  -- a number
  have hop : asOperand past mne addr (c :: s)
      = if isdigit c || c == '$' then asDirect past mne addr (c :: s) else .error .refused := by
    rw [asOperand]
    · exact hA
    · exact hhash
    · exact hparen
  have hmode : firstMode (c :: s)
      = if isdigit c || c == '$' then directMode (c :: s) else none := by
    rw [firstMode]
    · exact hA
    · exact hhash
    · exact hparen
  rw [operandSearches, hop, hmode, List.head?_cons, Option.any_some]
  split
  · exact leads_direct past mne addr (c :: s)
  · exact .nothing mne

/-! ### Lines -/

theorem within_append {as bs : List ℕ} : Within (as ++ bs) ↔ Within as ∧ Within bs :=
  List.forall_mem_append

theorem within_flatMap {ms : List AddrEnum} {f : AddrEnum → List ℕ} :
    Within (ms.flatMap f) ↔ ∀ m ∈ ms, Within (f m) := by
  simp only [Within, List.mem_flatMap, forall_exists_index, and_imp]
  exact ⟨fun h m hm a ha => h a m hm ha, fun h a m hm ha => h m hm a ha⟩

/-- The row of the last search is in the table when all the searches found one. -/
theorem within_emitReads {past : OpRow} {mne : Text} {r : Except Fault (AddrEnum × ℕ × Word)}
    (h : ∀ m ∈ lastSearch r, HasRow mne (some m)) : Within (emitReads past mne r) := by
  rcases r with e | ⟨mode, len, val⟩
  · exact nofun
  · rw [emitReads]
    have hlt := (h mode (List.mem_singleton.mpr rfl)).lt past
    intro a ha
    split at ha
    · cases ha
    · rw [List.mem_singleton.mp ha]
      omega

/-- The line has no search, or its mnemonic has a row and has one for the mode that
the operand is first looked up for. -/
def Covered (line : Text) : Prop :=
  Quiet line ∨ HasRow (mneOf line) none ∧
    ∀ m ∈ firstMode (operandOf line), HasRow (mneOf line) (some m)

instance (line : Text) : Decidable (Covered line) :=
  inferInstanceAs (Decidable (_ ∨ _ ∧ ∀ m ∈ firstMode (operandOf line), _))

/-- **A line stays inside the table** exactly when it is covered. -/
theorem within_asReads_iff (past : OpRow) (addr : Word) (line : Text) :
    Within (asReads past addr line) ↔ Covered line := by
  by_cases hquiet : Quiet line
  · rw [asReads, if_pos hquiet]
    exact iff_of_true nofun (.inl hquiet)
  have hleads := leads_operand past (mneOf line) addr (operandOf line)
  rw [Covered, or_iff_right hquiet, asReads, if_neg hquiet, within_append,
    within_findMneReads_iff, ← hleads.all_iff]
  refine and_congr_right fun hrow => ?_
  rw [if_neg (hrow.found past), within_append, within_flatMap]
  simp only [within_findMneReads_iff]
  refine and_iff_left_of_imp fun hall => within_emitReads fun m hm => hall m ?_
  rw [operandSearches]
  exact List.mem_append_right _ hm

/-- **The table searches stay inside the table** exactly when they find something:
`find_mne` when there is a row for the mnemonic and the mode, `dasm_das` when there
is one for the opcode, and `dasm_as` when the line is covered. -/
theorem searches_inside_iff (past : OpRow) :
    (∀ mne addrMode, (Within (findMneReads past mne addrMode) ∧
        (¬ HasRow mne addrMode → findMne past mne addrMode = OPCODES)) ↔ HasRow mne addrMode) ∧
      (∀ addr op b1 b2, (Within (dasReads past op) ∧
          ((∀ r ∈ vmOpTbl, r.op ≠ op) → dasmDas past addr op b1 b2 = (['?', '?', '?'], 1))) ↔
        ∃ r ∈ vmOpTbl, r.op = op) ∧
      ∀ addr line, Within (asReads past addr line) ↔ Covered line := by
  refine ⟨fun mne addrMode => ?_, fun addr op b1 b2 => ?_, within_asReads_iff past⟩
  · rw [within_findMneReads_iff]
    exact and_iff_left_of_imp fun hrow hnone => absurd hrow hnone
  · rw [within_dasReads_iff]
    refine and_iff_left_of_imp ?_
    rintro ⟨r, hr, hop⟩ hnone
    exact absurd hop (hnone r hr)

/-- `LDA $1234` looks for a branch `LDA`, and `$03` has no row: both searches go on
behind the table. -/
theorem lda_reads_behind :
    ¬ Within (asReads zeroRow 0x1a00 "LDA $1234".toList) ∧
      ¬ Within (findMneReads zeroRow "LDA".toList (some AT_RELATIVE)) ∧
      ¬ Within (dasReads zeroRow 0x03) := by
  rw [within_asReads_iff, within_findMneReads_iff, within_dasReads_iff]
  decide +kernel

end Dan64
