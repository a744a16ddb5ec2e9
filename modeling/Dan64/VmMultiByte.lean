/-
Dan64/VmMultiByte.lean

Multi-byte `ADC` and `SBC`.

An `ArithStep` is one `vm_exec` on an `ADC` or `SBC` in any addressing mode,
over any memory; a `Chained` run is a sequence of them in which each starts
with the carry the previous one left, whatever else the program does between
them.  Every step is one column of a carry chain (`ArithStep.adc_binary` and
its relatives): in base 256 outside decimal mode, in base 100 in decimal mode.
The results of `CarryChain` then give the sum, the difference, the last carry
and the overflow of the whole numbers.

Over the flat memory a program that brings one pair of bytes after the other
(`Supplies`) gets through the whole operation (`exists_chained`), so that the
results are those of a run that exists (`multiByte_arithmetic`).
-/
import Dan64.CarryChain
import Dan64.VmRefine

namespace Dan64

open BlockMem CarryChain
open Mos6502 (Flags State Mnemonic Mode opcode exec Bcd bcdVal)

variable {M : Type}

/-- The carry flag as a number. -/
def carry (s : Vm M) : ℕ := (Flags.ofByte s.rS).c.toNat

/-- The missing carry, which `SBC` subtracts. -/
def borrow (s : Vm M) : ℕ := 1 - carry s

def decimal (s : Vm M) : Bool := (Flags.ofByte s.rS).d

def overflow (s : Vm M) : Bool := (Flags.ofByte s.rS).v

theorem borrow_eq (s : Vm M) : borrow s = (!(Flags.ofByte s.rS).c).toNat := by
  rw [borrow, carry]
  rcases (Flags.ofByte s.rS).c with - | - <;> rfl

theorem carry_le (s : Vm M) : carry s ≤ 1 := Bool.toNat_le _

theorem borrow_congr {s t : Vm M} (h : carry s = carry t) : borrow s = borrow t :=
  congrArg (1 - ·) h

theorem borrow_le (s : Vm M) : borrow s ≤ 1 := Nat.sub_le _ _

theorem borrow_eq_one_iff (s : Vm M) : borrow s = 1 ↔ ¬ carry s = 1 := by
  have := carry_le s
  rw [borrow]
  omega

/-- The bytes of one step: accumulator, operand, result. -/
structure ByteColumn where
  u : Byte
  v : Byte
  r : Byte

variable [BlockMem 16 Byte M]

/-- The byte that an `ADC` or `SBC` about to be executed reads as its operand. -/
def operandByte (s : Vm M) : Byte :=
  match vmSwitch s.fetch.1.op with
  | some (.adc o) | some (.sbc o) => (o.value s.fetch.1 s.fetch.2).1
  | _ => 0

/-- One `vm_exec` on an `ADC` or `SBC`. -/
structure ArithStep (sys : Byte → Vm M → Vm M) (mn : Mnemonic) (s : Vm M) (p : ByteColumn)
    (t : Vm M) : Prop where
  op : ∃ m, opcode mn m = some s.fetch.1.op
  step : vmExec sys s = some t
  hu : s.rA = p.u
  hv : operandByte s = p.v
  hr : t.rA = p.r

/-- From every state before an `ADC` or `SBC` there is a step. -/
theorem exists_arithStep (sys : Byte → Vm M → Vm M) {s : Vm M} {mn : Mnemonic} {m : Mode}
    (hop : opcode mn m = some s.fetch.1.op) :
    ∃ t, ArithStep sys mn s ⟨s.rA, operandByte s, t.rA⟩ t := by
  obtain ⟨k, -, -, hexec⟩ := vmExec_opcode sys hop
  exact ⟨_, ⟨m, hop⟩, hexec, rfl, rfl, rfl⟩

/-- The data of a mode.  They are the documented ones, but a pointer at `$ff` has its
second byte at `$0100`. -/
def dataByte (m : Mode) (s : FlatVm) : Byte :=
  if m.pointer (s.abs.operand m) s.abs = some 0xff then
    s.ram (s.ram 0x0100 ++ s.ram 0x00ff + if m = .indirectIndexed then word s.rY else 0)
  else m.value (s.abs.operand m) s.abs

/-- Through the last pointer of page zero. -/
theorem Src.value_last (o : Src) (c : OpCache) (s : FlatVm)
    (h : o.mode.pointer (c.operand o.mode) s.abs = some 0xff) :
    (o.value c s).1 = s.ram (s.ram 0x0100 ++ s.ram 0x00ff +
      if o.mode = .indirectIndexed then word s.rY else 0) := by
  rcases o with - | a
  · cases h
  · cases a
    case indX =>
      have hp : c.b1 + s.rX = 0xff#8 := by
        simpa [Src.mode, Addressing.mode, OpCache.operand, Mode.length, Mode.pointer,
          setWidth_word] using h
      have hlast : (word c.b1 + word s.rX) &&& 0xff#16 = 0x00ff := by
        rw [word_add_and, hp]
        rfl
      simp only [Src.value, Addressing.addr, hlast, vmRamRead_flat, Nat.reduceLT, at_readBlock,
        addr16_word]
      rfl
    case indY =>
      have hp : c.b1 = 0xff#8 := by
        simpa [Src.mode, Addressing.mode, OpCache.operand, Mode.length, Mode.pointer,
          setWidth_word] using h
      simp only [Src.value, Addressing.addr, hp, vmRamRead_flat, Nat.reduceLT, at_readBlock,
        addr16_word, BitVec.ofNat_eq_ofNat, BitVec.add_zero]
      rfl
    all_goals cases h

/-- Over the flat memory the operand byte is the one of the mode. -/
theorem operandByte_flat {s : FlatVm} {mn : Mnemonic} {m : Mode} (hmn : mn = .adc ∨ mn = .sbc)
    (hop : opcode mn m = some s.fetch.1.op) : operandByte s = dataByte m s := by
  obtain ⟨k, hk, hinstr⟩ := vmSwitch_opcode hop
  rw [dataByte, ← operand_cache]
  cases k <;> simp only [Case.instr, Option.some.injEq, Prod.mk.injEq, reduceCtorEq]
    at hinstr <;> obtain ⟨rfl, rfl⟩ := hinstr
  case adc o | sbc o =>
    rw [operandByte, hk, fetch_flat]
    by_cases hlast : o.mode.pointer ((FlatVm.cache s).operand o.mode) s.abs = some 0xff
    · rw [if_pos hlast]
      exact o.value_last _ s hlast
    · rw [if_neg hlast]
      exact congrArg Prod.fst (o.value_flat _ s hlast)
  all_goals exact absurd hmn (by decide)

/-- A multi-byte operation from the lowest byte on: the carry and the decimal
flag of a step are those the previous one left. -/
inductive Chained (sys : Byte → Vm M → Vm M) (mn : Mnemonic) (s : Vm M) :
    List ByteColumn → Vm M → Prop
  | nil : Chained sys mn s [] s
  | snoc {t s' t' : Vm M} {ps : List ByteColumn} {p : ByteColumn} :
      Chained sys mn s ps t → carry s' = carry t → decimal s' = decimal t →
      ArithStep sys mn s' p t' → Chained sys mn s (ps ++ [p]) t'

/-! ### Reading operands does not touch the registers -/

theorem Src.value_regs (o : Src) (c : OpCache) (s : Vm M) :
    (o.value c s).2.rA = s.rA ∧ (o.value c s).2.rS = s.rS := by
  rcases o with - | m
  · exact ⟨rfl, rfl⟩
  · cases m <;> exact ⟨rfl, rfl⟩

/-- `adc_im_d` or `sbc_im_d`. -/
def Vm.arith (mn : Mnemonic) (v : Byte) (s : Vm M) : Vm M :=
  if mn = .sbc then s.sbc v else s.adc v

/-- What a step computes depends on the accumulator, the operand and the flags. -/
theorem ArithStep.spec {sys : Byte → Vm M → Vm M} {mn : Mnemonic} {s t : Vm M}
    {p : ByteColumn} (h : ArithStep sys mn s p t) (hmn : mn = .adc ∨ mn = .sbc) :
    ∃ s' : Vm M, s'.rA = p.u ∧ s'.rS = s.rS ∧
      (s'.arith mn p.v).rA = p.r ∧ (s'.arith mn p.v).rS = t.rS := by
  obtain ⟨m, hop⟩ := h.op
  obtain ⟨k, hk, hinstr, hexec⟩ := vmExec_opcode sys hop
  have hstep := hexec.symm.trans h.step
  cases k <;> simp only [Case.instr, Option.some.injEq, Prod.mk.injEq, reduceCtorEq]
    at hinstr <;> obtain ⟨rfl, rfl⟩ := hinstr
  case adc o | sbc o =>
    have hv : (o.value s.fetch.1 s.fetch.2).1 = p.v := by
      rw [← h.hv, operandByte, hk]
    obtain ⟨hA, hS⟩ := o.value_regs s.fetch.1 s.fetch.2
    refine ⟨(o.value s.fetch.1 s.fetch.2).2, hA.trans h.hu, hS, ?_, ?_⟩
    · rw [← hv, ← h.hr, ← Option.some.inj hstep]
      rfl
    · rw [← hv, ← Option.some.inj hstep]
      rfl
  all_goals exact absurd hmn (by decide)

/-! ### One step is one column -/

theorem toNat_decide (q : Prop) [Decidable q] : (decide q).toNat = if q then 1 else 0 := by
  by_cases h : q <;> simp [h]

section Columns

variable {sys : Byte → Vm M → Vm M} {s t : Vm M} {p : ByteColumn}

omit [BlockMem 16 Byte M] in
/-- The decimal flag chooses the arithmetic. -/
theorem arith_eq {s' : Vm M} (hS : s'.rS = s.rS) (v : Byte) :
    s'.arith .adc v = (if decimal s then s'.adcDecimal v else s'.adcBinary v) ∧
      s'.arith .sbc v = (if decimal s then s'.sbcDecimal v else s'.sbcBinary v) := by
  have hiff : testD s'.rS ≠ 0#8 ↔ decimal s = true := by
    rw [testD_ne_zero, hS]
    rfl
  show (if testD s'.rS ≠ 0#8 then _ else _) = _ ∧ (if testD s'.rS ≠ 0#8 then _ else _) = _
  exact ⟨if_congr hiff rfl rfl, if_congr hiff rfl rfl⟩

/-- A column of a binary `ADC`, and the signed overflow that V records. -/
theorem ArithStep.adc_binary (h : ArithStep sys .adc s p t) (hd : decimal s = false) :
    (p.u.toNat : ℤ) + 1 * (p.v.toNat + carry s) = p.r.toNat + 1 * ((256 : ℕ) * carry t) ∧
      decimal t = false ∧
      (overflow t = true ↔
        p.u.toInt + p.v.toInt + carry s < -128 ∨ 127 < p.u.toInt + p.v.toInt + carry s) := by
  obtain ⟨s', hA, hS, hr, ht⟩ := h.spec (.inl rfl)
  have hbin : s'.arith .adc p.v = s'.adcBinary p.v := by
    rw [(arith_eq hS p.v).1, if_neg (Bool.eq_false_iff.mp hd)]
  have hflags := adcBinary_flags p.v s'
  have hrA := adcBinary_rA p.v s'
  rw [hbin] at hr ht
  rw [ht, hS, hA] at hflags
  rw [hr, hS, hA] at hrA
  -- the carry is set exactly where the sum does not fit
  have hc : carry t = if 256 ≤ p.u.toNat + p.v.toNat + carry s then 1 else 0 := by
    rw [carry, hflags, toNat_decide]
    rfl
  refine ⟨?_, ?_, ?_⟩
  · have hu := p.u.isLt
    have hv := p.v.isLt
    have hcs := Bool.toNat_le (Flags.ofByte s.rS).c
    rw [hc, hrA, BitVec.toNat_ofNat, carry]
    split_ifs <;> omega
  · rw [decimal, hflags]
    exact hd
  · rw [overflow, hflags]
    exact decide_eq_true_iff

/-- A column of a binary `SBC`, and the signed overflow that V records. -/
theorem ArithStep.sbc_binary (h : ArithStep sys .sbc s p t) (hd : decimal s = false) :
    (p.u.toNat : ℤ) + -1 * (p.v.toNat + borrow s) = p.r.toNat + -1 * ((256 : ℕ) * borrow t) ∧
      decimal t = false ∧
      (overflow t = true ↔
        p.u.toInt - p.v.toInt - borrow s < -128 ∨ 127 < p.u.toInt - p.v.toInt - borrow s) := by
  obtain ⟨s', hA, hS, hr, ht⟩ := h.spec (.inr rfl)
  have hbin : s'.arith .sbc p.v = s'.sbcBinary p.v := by
    rw [(arith_eq hS p.v).2, if_neg (Bool.eq_false_iff.mp hd)]
  have hflags := sbcBinary_flags p.v s'
  have hrA := toNat_sbcBinary_rA p.v s'
  rw [hbin] at hr ht
  rw [ht, hS, hA, ← borrow_eq s] at hflags
  rw [hr, hS, hA, ← borrow_eq s] at hrA
  -- C is the complement of the borrow
  have hb : borrow t = if (0 : ℤ) ≤ p.u.toNat - p.v.toNat - borrow s then 0 else 1 := by
    rw [borrow, carry, hflags, toNat_decide]
    split_ifs <;> rfl
  refine ⟨?_, ?_, ?_⟩
  · have hu := p.u.isLt
    have hv := p.v.isLt
    have hbs : borrow s ≤ 1 := Nat.sub_le _ _
    rw [hb]
    split_ifs <;> omega
  · rw [decimal, hflags]
    exact hd
  · rw [overflow, hflags]
    exact decide_eq_true_iff

/-- A column of a decimal `ADC`. -/
theorem ArithStep.adc_decimal (h : ArithStep sys .adc s p t) (hd : decimal s = true)
    (hu : Bcd p.u) (hv : Bcd p.v) :
    (bcdVal p.u : ℤ) + 1 * (bcdVal p.v + carry s) = bcdVal p.r + 1 * ((100 : ℕ) * carry t) ∧
      decimal t = true ∧ Bcd p.r := by
  obtain ⟨s', hA, hS, hr, ht⟩ := h.spec (.inl rfl)
  have hdec : s'.arith .adc p.v = s'.adcDecimal p.v := by
    rw [(arith_eq hS p.v).1, if_pos hd]
  obtain ⟨hbcd, hsum⟩ := adcDecimal_spec (hA.symm ▸ hu) hv
  have hframe := (adcDecimal_frame p.v s').1
  rw [hdec] at hr ht
  rw [hr] at hbcd
  rw [hr, ht, hA, hS] at hsum
  rw [ht, hS] at hframe
  refine ⟨?_, hframe.trans hd, hbcd⟩
  rw [carry, carry]
  push_cast
  omega

/-- A column of a decimal `SBC`. -/
theorem ArithStep.sbc_decimal (h : ArithStep sys .sbc s p t) (hd : decimal s = true)
    (hu : Bcd p.u) (hv : Bcd p.v) :
    (bcdVal p.u : ℤ) + -1 * (bcdVal p.v + borrow s)
        = bcdVal p.r + -1 * ((100 : ℕ) * borrow t) ∧
      decimal t = true ∧ Bcd p.r := by
  obtain ⟨s', hA, hS, hr, ht⟩ := h.spec (.inr rfl)
  have hdec : s'.arith .sbc p.v = s'.sbcDecimal p.v := by
    rw [(arith_eq hS p.v).2, if_pos hd]
  obtain ⟨hbcd, hdiff⟩ := sbcDecimal_spec (hA.symm ▸ hu) hv
  have hframe := (sbcDecimal_frame p.v s').1
  rw [hdec] at hr ht
  rw [hr] at hbcd
  rw [hr, ht, hA, hS, ← borrow_eq s, ← borrow_eq t] at hdiff
  rw [ht, hS] at hframe
  refine ⟨?_, hframe.trans hd, hbcd⟩
  push_cast
  linarith

end Columns

/-! ### A run is a chain -/

/-- The column of numbers that a reading `f` of bytes makes of a step. -/
def ByteColumn.map (f : Byte → ℕ) (p : ByteColumn) : Column := ⟨f p.u, f p.v, f p.r⟩

/-- If one step is a column, keeps the decimal flag and has a well-formed result,
then a run is a chain of columns. -/
theorem Chained.chain {sys : Byte → Vm M → Vm M} {mn : Mnemonic} {f : Byte → ℕ} {b : ℕ}
    {σ : ℤ} {cf : Vm M → ℕ} {d : Bool} (ok : Byte → Prop)
    (hcf : ∀ s t : Vm M, carry s = carry t → cf s = cf t)
    (hstep : ∀ s p t, ArithStep sys mn s p t → decimal s = d → ok p.u → ok p.v →
      (f p.u : ℤ) + σ * (f p.v + cf s) = f p.r + σ * (b * cf t) ∧ decimal t = d ∧ ok p.r)
    {s t : Vm M} {ps : List ByteColumn} (h : Chained sys mn s ps t) (hd : decimal s = d)
    (hok : ∀ p ∈ ps, ok p.u ∧ ok p.v) :
    Chain b σ (cf s) (ps.map (ByteColumn.map f)) (cf t) ∧ decimal t = d ∧
      ∀ p ∈ ps, ok p.r := by
  induction h with
  | nil => exact ⟨.nil, hd, by simp⟩
  | @snoc t s' t' ps p _ hc hd' hp ih =>
    obtain ⟨hchain, hdt, hokr⟩ := ih fun q hq => hok q (by simp [hq])
    obtain ⟨hu, hv⟩ := hok p (by simp)
    obtain ⟨hcol, hdt', hr⟩ := hstep s' p t' hp (hd'.trans hdt) hu hv
    -- the carry goes over from one step to the next
    rw [hcf s' t hc] at hcol
    refine ⟨?_, hdt', ?_⟩
    · rw [List.map_append]
      exact .snoc hchain hcol
    · simp only [List.mem_append, List.mem_singleton]
      rintro q (hq | rfl)
      · exact hokr q hq
      · exact hr

/-! ### Whole numbers -/

/-- The number that a row of bytes denotes, lowest byte first. -/
def num256 (bs : List Byte) : ℕ := Nat.ofDigits 256 (bs.map BitVec.toNat)

/-- The number that a row of decimal bytes denotes, lowest byte first. -/
def num100 (bs : List Byte) : ℕ := Nat.ofDigits 100 (bs.map bcdVal)

theorem bcdVal_lt {b : Byte} (h : Bcd b) : bcdVal b < 100 := by
  obtain ⟨hlo, hhi⟩ := h
  rw [bcdVal]
  omega

theorem signed_toNat (b : Byte) : signed 256 b.toNat = b.toInt := by
  rw [signed, BitVec.toInt_eq_toNat_cond]
  split_ifs <;> omega

theorem overflows_256 (z : ℤ) : Overflows 256 z ↔ z < -128 ∨ 127 < z := by
  rw [Overflows]
  omega

theorem num_map (f : Byte → ℕ) (b : ℕ) (ps : List ByteColumn) :
    num b Column.x (ps.map (ByteColumn.map f)) = Nat.ofDigits b ((ps.map ByteColumn.u).map f) ∧
      num b Column.y (ps.map (ByteColumn.map f)) = Nat.ofDigits b ((ps.map ByteColumn.v).map f) ∧
      num b Column.r (ps.map (ByteColumn.map f))
        = Nat.ofDigits b ((ps.map ByteColumn.r).map f) := by
  simp only [num, List.map_map]
  exact ⟨rfl, rfl, rfl⟩

theorem mem_map_lt {b : ℕ} {f : Byte → ℕ} (g : ByteColumn → Byte) {h : Column → ℕ}
    (hgh : ∀ p, h (ByteColumn.map f p) = f (g p)) {ps : List ByteColumn}
    (hlt : ∀ p ∈ ps, f (g p) < b) : ∀ q ∈ ps.map (ByteColumn.map f), h q < b := by
  intro q hq
  obtain ⟨p, hp, rfl⟩ := List.mem_map.mp hq
  rw [hgh]
  exact hlt p hp

/-- Signed overflow of the whole numbers, from the last byte of each and the carry
into it. -/
theorem overflows_whole {σ : ℤ} {c c₁ : ℕ} {qs : List ByteColumn} (p : ByteColumn)
    (hchain : Chain 256 σ c (qs.map (ByteColumn.map BitVec.toNat)) c₁) :
    Overflows (256 ^ (qs ++ [p]).length)
        (signed (256 ^ (qs ++ [p]).length) (num256 ((qs ++ [p]).map ByteColumn.u)) +
          σ * (signed (256 ^ (qs ++ [p]).length) (num256 ((qs ++ [p]).map ByteColumn.v)) + c)) ↔
      p.u.toInt + σ * (p.v.toInt + c₁) < -128 ∨ 127 < p.u.toInt + σ * (p.v.toInt + c₁) := by
  obtain ⟨hx, hy, -⟩ := num_map BitVec.toNat 256 (qs ++ [p])
  have hover := hchain.overflows_iff (show 256 = 2 * 128 by decide) (by decide)
    (p.map BitVec.toNat)
    (mem_map_lt ByteColumn.u (fun _ => rfl) fun p _ => p.u.isLt)
    (mem_map_lt ByteColumn.v (fun _ => rfl) fun p _ => p.v.isLt)
    (mem_map_lt ByteColumn.r (fun _ => rfl) fun p _ => p.r.isLt)
  rw [← overflows_256, ← signed_toNat, ← signed_toNat, num256, num256, ← hx, ← hy,
    ← List.length_map (ByteColumn.map BitVec.toNat), List.map_append]
  exact hover

section Runs

variable {sys : Byte → Vm M → Vm M} {s t : Vm M} {ps : List ByteColumn}

theorem Chained.adc_chain (h : Chained sys .adc s ps t) (hd : decimal s = false) :
    Chain 256 1 (carry s) (ps.map (ByteColumn.map BitVec.toNat)) (carry t) ∧
      decimal t = false := by
  obtain ⟨hchain, hdt, -⟩ := h.chain (fun _ => True) (fun _ _ hc => hc)
    (fun _ _ _ hp hd' _ _ => ⟨(hp.adc_binary hd').1, (hp.adc_binary hd').2.1, trivial⟩) hd
    fun _ _ => ⟨trivial, trivial⟩
  exact ⟨hchain, hdt⟩

theorem Chained.sbc_chain (h : Chained sys .sbc s ps t) (hd : decimal s = false) :
    Chain 256 (-1) (borrow s) (ps.map (ByteColumn.map BitVec.toNat)) (borrow t) ∧
      decimal t = false := by
  obtain ⟨hchain, hdt, -⟩ := h.chain (fun _ => True)
    (fun _ _ => borrow_congr)
    (fun _ _ _ hp hd' _ _ => ⟨(hp.sbc_binary hd').1, (hp.sbc_binary hd').2.1, trivial⟩) hd
    fun _ _ => ⟨trivial, trivial⟩
  exact ⟨hchain, hdt⟩

/-- Multi-byte `ADC`: the sum and the carry. -/
theorem Chained.adc (h : Chained sys .adc s ps t) (hd : decimal s = false) :
    num256 (ps.map ByteColumn.r)
        = (num256 (ps.map ByteColumn.u) + num256 (ps.map ByteColumn.v) + carry s)
          % 256 ^ ps.length ∧
      (carry t = 1 ↔
        256 ^ ps.length
          ≤ num256 (ps.map ByteColumn.u) + num256 (ps.map ByteColumn.v) + carry s) := by
  obtain ⟨hchain, -⟩ := h.adc_chain hd
  obtain ⟨hx, hy, hr⟩ := num_map BitVec.toNat 256 ps
  have hadd := hchain.add (by decide)
    (mem_map_lt ByteColumn.r (fun _ => rfl) fun p _ => p.r.isLt) (carry_le t)
  rwa [hx, hy, hr, List.length_map] at hadd

/-- Multi-byte `SBC`: the difference and the borrow. -/
theorem Chained.sbc (h : Chained sys .sbc s ps t) (hd : decimal s = false) :
    (num256 (ps.map ByteColumn.r) : ℤ) = ((num256 (ps.map ByteColumn.u) : ℤ)
        - num256 (ps.map ByteColumn.v) - borrow s) % (256 ^ ps.length : ℕ) ∧
      (carry t = 1 ↔ num256 (ps.map ByteColumn.v) + borrow s ≤ num256 (ps.map ByteColumn.u)) := by
  obtain ⟨hchain, -⟩ := h.sbc_chain hd
  obtain ⟨hx, hy, hr⟩ := num_map BitVec.toNat 256 ps
  obtain ⟨hval, hb⟩ := hchain.sub (by decide)
    (mem_map_lt ByteColumn.r (fun _ => rfl) fun p _ => p.r.isLt) (borrow_le t)
  rw [hx, hy, hr, List.length_map] at hval
  rw [hx, hy, borrow_eq_one_iff, ← not_le, not_iff_not] at hb
  exact ⟨hval, hb⟩

/-- Multi-byte `ADC`: V is the signed overflow of the whole sum. -/
theorem Chained.adc_overflow (h : Chained sys .adc s ps t) (hne : ps ≠ [])
    (hd : decimal s = false) :
    overflow t = true ↔ Overflows (256 ^ ps.length)
      (signed (256 ^ ps.length) (num256 (ps.map ByteColumn.u))
        + (signed (256 ^ ps.length) (num256 (ps.map ByteColumn.v)) + carry s)) := by
  cases h with
  | nil => exact absurd rfl hne
  | @snoc t' s' _ qs p hps hc hd' hp =>
    obtain ⟨hchain, hdt⟩ := hps.adc_chain hd
    have hover := overflows_whole p hchain
    rw [one_mul, one_mul, ← hc, ← add_assoc p.u.toInt] at hover
    rw [hover]
    exact (hp.adc_binary (hd'.trans hdt)).2.2

/-- Multi-byte `SBC`: V is the signed overflow of the whole difference. -/
theorem Chained.sbc_overflow (h : Chained sys .sbc s ps t) (hne : ps ≠ [])
    (hd : decimal s = false) :
    overflow t = true ↔ Overflows (256 ^ ps.length)
      (signed (256 ^ ps.length) (num256 (ps.map ByteColumn.u))
        - (signed (256 ^ ps.length) (num256 (ps.map ByteColumn.v)) + borrow s)) := by
  cases h with
  | nil => exact absurd rfl hne
  | @snoc t' s' _ qs p hps hc hd' hp =>
    obtain ⟨hchain, hdt⟩ := hps.sbc_chain hd
    have hover := overflows_whole p hchain
    rw [neg_one_mul, neg_one_mul, ← sub_eq_add_neg, ← sub_eq_add_neg,
      ← borrow_congr hc, ← sub_sub p.u.toInt] at hover
    rw [hover]
    exact (hp.sbc_binary (hd'.trans hdt)).2.2

/-- Multi-byte decimal `ADC`: the decimal sum and the carry. -/
theorem Chained.adc_decimal (h : Chained sys .adc s ps t) (hd : decimal s = true)
    (hbcd : ∀ p ∈ ps, Bcd p.u ∧ Bcd p.v) :
    (∀ p ∈ ps, Bcd p.r) ∧
      num100 (ps.map ByteColumn.r)
        = (num100 (ps.map ByteColumn.u) + num100 (ps.map ByteColumn.v) + carry s)
          % 100 ^ ps.length ∧
      (carry t = 1 ↔
        100 ^ ps.length
          ≤ num100 (ps.map ByteColumn.u) + num100 (ps.map ByteColumn.v) + carry s) := by
  obtain ⟨hchain, -, hr⟩ := h.chain Bcd (fun _ _ hc => hc)
    (fun _ _ _ hp hd' hu hv => hp.adc_decimal hd' hu hv) hd hbcd
  obtain ⟨hx, hy, hz⟩ := num_map bcdVal 100 ps
  have hadd := hchain.add (by decide)
    (mem_map_lt ByteColumn.r (fun _ => rfl) fun p hp => bcdVal_lt (hr p hp)) (carry_le t)
  rw [hx, hy, hz, List.length_map] at hadd
  exact ⟨hr, hadd⟩

/-- Multi-byte decimal `SBC`: the decimal difference and the borrow. -/
theorem Chained.sbc_decimal (h : Chained sys .sbc s ps t) (hd : decimal s = true)
    (hbcd : ∀ p ∈ ps, Bcd p.u ∧ Bcd p.v) :
    (∀ p ∈ ps, Bcd p.r) ∧
      (num100 (ps.map ByteColumn.r) : ℤ) = ((num100 (ps.map ByteColumn.u) : ℤ)
        - num100 (ps.map ByteColumn.v) - borrow s) % (100 ^ ps.length : ℕ) ∧
      (carry t = 1 ↔ num100 (ps.map ByteColumn.v) + borrow s ≤ num100 (ps.map ByteColumn.u)) := by
  obtain ⟨hchain, -, hr⟩ := h.chain Bcd (fun _ _ => borrow_congr)
    (fun _ _ _ hp hd' hu hv => hp.sbc_decimal hd' hu hv) hd hbcd
  obtain ⟨hx, hy, hz⟩ := num_map bcdVal 100 ps
  obtain ⟨hval, hb⟩ := hchain.sub (by decide)
    (mem_map_lt ByteColumn.r (fun _ => rfl) fun p hp => bcdVal_lt (hr p hp)) (borrow_le t)
  rw [hx, hy, hz, List.length_map] at hval
  rw [hx, hy, borrow_eq_one_iff, ← not_le, not_iff_not] at hb
  exact ⟨hr, hval, hb⟩

end Runs

/-! ### Multi-byte arithmetic -/

/-- A pair of bytes, and the mode of the step that takes them. -/
structure BytePair where
  mode : Mode
  u : Byte
  v : Byte

/-- Behind a step that left `t` the program brings a pair: an `ADC` or `SBC` of the mode is
next, one byte is in the accumulator and the other one where the mode finds it.  It keeps
the carry and the decimal flag. -/
structure Brings (mn : Mnemonic) (p : BytePair) (t s : FlatVm) : Prop where
  op : opcode mn p.mode = some (s.ram s.rPc)
  accumulator : s.rA = p.u
  operand : dataByte p.mode s = p.v
  carry : carry s = carry t
  decimal : decimal s = decimal t

/-- The steps one after the other: the result of each, and the last state.  `between` is what
the program does before each step. -/
def arithRun (sys : Byte → FlatVm → FlatVm) (between : ℕ → FlatVm → FlatVm) (s : FlatVm) :
    ℕ → Option (List Byte × FlatVm)
  | 0 => some ([], s)
  | n + 1 =>
    match arithRun sys between s n with
    | none => none
    | some (rs, t) => (vmExec sys (between n t)).map fun t' => (rs ++ [t'.rA], t')

/-- The program brings every pair, to the state that it comes to. -/
def Supplies (sys : Byte → FlatVm → FlatVm) (mn : Mnemonic) (between : ℕ → FlatVm → FlatVm)
    (s : FlatVm) (ps : List BytePair) : Prop :=
  ∀ n p, ps[n]? = some p → ∀ rs t, arithRun sys between s n = some (rs, t) →
    Brings mn p t (between n t)

/-- **The run exists**, and is a chain over the pairs. -/
theorem exists_chained {sys : Byte → FlatVm → FlatVm} {mn : Mnemonic} (hmn : mn = .adc ∨ mn = .sbc)
    {between : ℕ → FlatVm → FlatVm} {s : FlatVm} {ps : List BytePair}
    (h : Supplies sys mn between s ps) {n : ℕ} (hn : n ≤ ps.length) :
    ∃ (cs : List ByteColumn) (t : FlatVm),
      arithRun sys between s n = some (cs.map ByteColumn.r, t) ∧ Chained sys mn s cs t ∧
        cs.map ByteColumn.u = (ps.take n).map BytePair.u ∧
        cs.map ByteColumn.v = (ps.take n).map BytePair.v := by
  induction n with
  | zero => exact ⟨[], s, rfl, .nil, rfl, rfl⟩
  | succ n ih =>
    obtain ⟨cs, t, hrun, hchained, hu, hv⟩ := ih (Nat.le_of_succ_le hn)
    have hget : ps[n]? = some ps[n] := List.getElem?_eq_getElem hn
    have hbrings := h n _ hget _ _ hrun
    have hop : opcode mn ps[n].mode = some (between n t).fetch.1.op := by
      rw [fetch_flat]
      exact hbrings.op
    obtain ⟨t', hstep⟩ := exists_arithStep sys hop
    rw [operandByte_flat hmn hop, hbrings.operand, hbrings.accumulator] at hstep
    refine ⟨cs ++ [⟨ps[n].u, ps[n].v, t'.rA⟩], t', ?_,
      .snoc hchained hbrings.carry hbrings.decimal hstep, ?_, ?_⟩
    · rw [arithRun, hrun, List.map_append]
      dsimp only
      rw [hstep.step]
      rfl
    · rw [List.take_add_one, hget, List.map_append, List.map_append, hu]
      rfl
    · rw [List.take_add_one, hget, List.map_append, List.map_append, hv]
      rfl

/-- **Multi-byte arithmetic.**  However the program brings the bytes, it gets through the
steps, and the bytes they leave are those of the sum or the difference, outside decimal mode
and in it. -/
theorem multiByte_arithmetic (sys : Byte → FlatVm → FlatVm) {mn : Mnemonic}
    (hmn : mn = .adc ∨ mn = .sbc) (between : ℕ → FlatVm → FlatVm) (s : FlatVm) {ps : List BytePair}
    (hne : ps ≠ []) (h : Supplies sys mn between s ps) :
    let n := ps.length
    let u := ps.map BytePair.u
    let v := ps.map BytePair.v
    ∃ r t, arithRun sys between s n = some (r, t) ∧ r.length = n ∧
      (mn = .adc → decimal s = false →
        num256 r = (num256 u + num256 v + carry s) % 256 ^ n ∧
          (carry t = 1 ↔ 256 ^ n ≤ num256 u + num256 v + carry s) ∧
          (overflow t = true ↔ Overflows (256 ^ n)
            (signed (256 ^ n) (num256 u) + (signed (256 ^ n) (num256 v) + carry s)))) ∧
      (mn = .adc → decimal s = true → (∀ p ∈ ps, Bcd p.u ∧ Bcd p.v) →
        (∀ b ∈ r, Bcd b) ∧ num100 r = (num100 u + num100 v + carry s) % 100 ^ n ∧
          (carry t = 1 ↔ 100 ^ n ≤ num100 u + num100 v + carry s)) ∧
      (mn = .sbc → decimal s = false →
        (num256 r : ℤ) = ((num256 u : ℤ) - num256 v - borrow s) % (256 ^ n : ℕ) ∧
          (carry t = 1 ↔ num256 v + borrow s ≤ num256 u) ∧
          (overflow t = true ↔ Overflows (256 ^ n)
            (signed (256 ^ n) (num256 u) - (signed (256 ^ n) (num256 v) + borrow s)))) ∧
      (mn = .sbc → decimal s = true → (∀ p ∈ ps, Bcd p.u ∧ Bcd p.v) →
        (∀ b ∈ r, Bcd b) ∧
          (num100 r : ℤ) = ((num100 u : ℤ) - num100 v - borrow s) % (100 ^ n : ℕ) ∧
          (carry t = 1 ↔ num100 v + borrow s ≤ num100 u)) := by
  intro n u v
  obtain ⟨cs, t, hrun, hchained, hu, hv⟩ := exists_chained hmn h le_rfl
  rw [List.take_length] at hu hv
  have hlen : cs.length = n := by
    have hlen := congrArg List.length hu
    rwa [List.length_map, List.length_map] at hlen
  have hcs : cs ≠ [] := by
    rintro rfl
    exact hne (List.length_eq_zero_iff.mp hlen.symm)
  have hbcd : (∀ p ∈ ps, Bcd p.u ∧ Bcd p.v) → ∀ c ∈ cs, Bcd c.u ∧ Bcd c.v := by
    intro hps c hc
    have hcu : c.u ∈ ps.map BytePair.u := hu ▸ List.mem_map_of_mem hc
    have hcv : c.v ∈ ps.map BytePair.v := hv ▸ List.mem_map_of_mem hc
    obtain ⟨p, hp, hpu⟩ := List.mem_map.mp hcu
    obtain ⟨q, hq, hqv⟩ := List.mem_map.mp hcv
    exact ⟨hpu ▸ (hps p hp).1, hqv ▸ (hps q hq).2⟩
  have hmem : (∀ c ∈ cs, Bcd c.r) → ∀ b ∈ cs.map ByteColumn.r, Bcd b := by
    intro hr b hb
    obtain ⟨c, hc, rfl⟩ := List.mem_map.mp hb
    exact hr c hc
  refine ⟨cs.map ByteColumn.r, t, hrun, (List.length_map _).trans hlen, ?_, ?_, ?_, ?_⟩
  all_goals
    rintro rfl hd
    rw [show n = cs.length from hlen.symm, show u = _ from hu.symm, show v = _ from hv.symm]
  · exact ⟨(hchained.adc hd).1, (hchained.adc hd).2, hchained.adc_overflow hcs hd⟩
  · intro hps
    obtain ⟨hr, hsum⟩ := hchained.adc_decimal hd (hbcd hps)
    exact ⟨hmem hr, hsum⟩
  · exact ⟨(hchained.sbc hd).1, (hchained.sbc hd).2, hchained.sbc_overflow hcs hd⟩
  · intro hps
    obtain ⟨hr, hdiff⟩ := hchained.sbc_decimal hd (hbcd hps)
    exact ⟨hmem hr, hdiff⟩

/-- `ADC #$69` or `SBC #$69` at `$1a00`, after a load of the next byte. -/
def loads (op : Byte) (us : List Byte) (n : ℕ) (t : FlatVm) : FlatVm :=
  { t with
    rA := us.getD n 0
    rPc := 0x1a00
    ram := fun a => if a = 0x1a00 then op else 0x69 }

theorem supplies_loads {sys : Byte → FlatVm → FlatVm} {mn : Mnemonic} {op : Byte}
    (hop : opcode mn .immediate = some op) (us : List Byte) (s : FlatVm) :
    Supplies sys mn (loads op us) s (us.map fun u => ⟨.immediate, u, 0x69⟩) := by
  intro n p hp rs t _
  obtain ⟨u, hu, rfl⟩ := Option.map_eq_some_iff.mp ((List.getElem?_map ..).symm.trans hp)
  refine ⟨hop, ?_, rfl, rfl, rfl⟩
  show us.getD n 0 = u
  rw [List.getD_eq_getElem?_getD, hu]
  rfl

/-- `$48ff + $6969` in two steps, then `58 + 69`, `$10 - $69 - 1` and `10 - 69 - 1` in one
each, with what the last step leaves in C and V. -/
theorem multiByte_arithmetic_example :
    let s : Byte → FlatVm := fun rS => ⟨0, 0, 0, 0xff, rS, 0, fun _ => 0⟩
    (∃ r t, arithRun (fun _ => id) (loads 0x69 [0xff, 0x48]) (s 0x00) 2 = some (r, t) ∧
      num256 r = 0xb268 ∧ carry t = 0 ∧ overflow t = true) ∧
    (∃ r t, arithRun (fun _ => id) (loads 0x69 [0x58]) (s 0x08) 1 = some (r, t) ∧
      num100 r = 27 ∧ carry t = 1) ∧
    (∃ r t, arithRun (fun _ => id) (loads 0xe9 [0x10]) (s 0x00) 1 = some (r, t) ∧
      num256 r = 0xa6 ∧ carry t = 0 ∧ overflow t = false) ∧
    (∃ r t, arithRun (fun _ => id) (loads 0xe9 [0x10]) (s 0x08) 1 = some (r, t) ∧
      num100 r = 40 ∧ carry t = 0) := by
  intro s
  obtain ⟨r₁, t₁, h₁, -, hadd, -⟩ := multiByte_arithmetic (fun _ => id) (.inl rfl)
    (loads 0x69 [0xff, 0x48]) (s 0x00) (List.cons_ne_nil _ _) (supplies_loads rfl _ _)
  obtain ⟨r₂, t₂, h₂, -, -, hadd', -⟩ := multiByte_arithmetic (fun _ => id) (.inl rfl)
    (loads 0x69 [0x58]) (s 0x08) (List.cons_ne_nil _ _) (supplies_loads rfl _ _)
  obtain ⟨r₃, t₃, h₃, -, -, -, hsub, -⟩ := multiByte_arithmetic (fun _ => id) (.inr rfl)
    (loads 0xe9 [0x10]) (s 0x00) (List.cons_ne_nil _ _) (supplies_loads rfl _ _)
  obtain ⟨r₄, t₄, h₄, -, -, -, -, hsub'⟩ := multiByte_arithmetic (fun _ => id) (.inr rfl)
    (loads 0xe9 [0x10]) (s 0x08) (List.cons_ne_nil _ _) (supplies_loads rfl _ _)
  obtain ⟨hsum₁, hc₁, hv₁⟩ := hadd rfl (by decide)
  obtain ⟨-, hsum₂, hc₂⟩ := hadd' rfl (by decide) (by decide)
  obtain ⟨hdiff₃, hc₃, hv₃⟩ := hsub rfl (by decide)
  obtain ⟨-, hdiff₄, hc₄⟩ := hsub' rfl (by decide) (by decide)
  have hclear : ∀ t : FlatVm, ¬ carry t = 1 → carry t = 0 := fun t ht =>
    Nat.eq_zero_of_not_pos fun hpos => ht (le_antisymm (carry_le t) hpos)
  refine ⟨⟨r₁, t₁, h₁, hsum₁.trans (by decide), hclear t₁ ?_, hv₁.mpr (by decide)⟩,
    ⟨r₂, t₂, h₂, hsum₂.trans (by decide), hc₂.mpr (by decide)⟩,
    ⟨r₃, t₃, h₃, ?_, hclear t₃ ?_, Bool.eq_false_iff.mpr fun hv => ?_⟩,
    ⟨r₄, t₄, h₄, ?_, hclear t₄ ?_⟩⟩
  · exact fun hc => absurd (hc₁.mp hc) (by decide)
  · exact Int.ofNat_inj.mp (hdiff₃.trans (by decide))
  · exact fun hc => absurd (hc₃.mp hc) (by decide)
  · exact absurd (hv₃.mp hv) (by decide)
  · exact Int.ofNat_inj.mp (hdiff₄.trans (by decide))
  · exact fun hc => absurd (hc₄.mp hc) (by decide)

end Dan64
