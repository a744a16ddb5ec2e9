/-
Dan64/VmAlu.lean

What the four bodies of `ADC` and `SBC` compute, as numbers: the result byte
and the flags of the binary branches for every operand, the result and the
carry of the decimal branches for operands that are binary coded decimals.
Nothing here depends on the memory.

The binary overflow test `testN(~(a ^ t) & (a ^ r))` is compared with the
signed sum by looking at the three sign bits; the decimal correction is
followed nibble by nibble on naturals.
-/
import Dan64.VmBits

namespace Dan64

open Mos6502 (Flags Bcd bcdVal)

variable {M : Type}

/-! ### Flag updates -/

theorem ofByte_setVNZC (p a : Byte) {c : Byte} {qv qc : Prop} [Decidable qv] [Decidable qc]
    (hc : c = if qc then sbit Cf else 0#8) :
    Flags.ofByte (p &&& ~~~vnzc |||
        ((if qv then sbit Vf else 0#8) ||| c ||| testN a ||| testZ a))
      = { Flags.ofByte p with
          n := a.msb, v := decide qv, z := a == 0#8, c := decide qc } := by
  subst hc
  simp [Flags.ofByte, vnzc, getLsbD_sbit, getLsbD_testZ, getLsbD_testN,
    getLsbD_ite_sbit (show Vf < 8 by decide), getLsbD_ite_sbit (show Cf < 8 by decide),
    -BitVec.getLsbD_eq_getElem]

theorem ofByte_setDecimal (p a : Byte) {c : Byte} {qc : Prop} [Decidable qc]
    (hc : c = if qc then sbit Cf else 0#8) :
    Flags.ofByte (p &&& ~~~vnzc ||| (c ||| testZ a))
      = { Flags.ofByte p with n := false, v := false, z := a == 0#8, c := decide qc } := by
  subst hc
  simp [Flags.ofByte, vnzc, getLsbD_sbit, getLsbD_testZ,
    getLsbD_ite_sbit (show Cf < 8 by decide), -BitVec.getLsbD_eq_getElem]

theorem toNat_testC (p : Byte) : (word (testC p)).toNat = (Flags.ofByte p).c.toNat := by
  rw [toNat_word, testC_eq_ite]
  rcases (Flags.ofByte p).c with - | - <;> rfl

theorem toNat_notC (p : Byte) : (notC p).toNat = (!(Flags.ofByte p).c).toNat := by
  rw [notC, testC_eq_ite]
  rcases (Flags.ofByte p).c with - | - <;> rfl

/-! ### Signed overflow -/

/-- The overflow test of `adc_im` is signed overflow. -/
theorem overflow_add {a t r : Byte} {c : Bool}
    (hr : r.toNat = (a.toNat + t.toNat + c.toNat) % 256) :
    testN (~~~(a ^^^ t) &&& (a ^^^ r)) ≠ 0#8 ↔
      a.toInt + t.toInt + c.toNat < -128 ∨ 127 < a.toInt + t.toInt + c.toNat := by
  have ha := a.isLt
  have ht := t.isLt
  have hc := Bool.toNat_le c
  rw [testN_ne_zero, BitVec.msb_and, BitVec.msb_not, BitVec.msb_xor, BitVec.msb_xor]
  simp only [BitVec.toInt_eq_msb_cond, BitVec.msb_eq_decide]
  by_cases h₁ : 128 ≤ a.toNat <;> by_cases h₂ : 128 ≤ t.toNat <;>
    by_cases h₃ : 128 ≤ r.toNat <;> simp [h₁, h₂, h₃] <;> omega

/-- The overflow test of `sbc_im` is signed overflow. -/
theorem overflow_sub {a t r : Byte} {b : Bool}
    (hr : (r.toNat : ℤ) = ((a.toNat : ℤ) - t.toNat - b.toNat) % 256) :
    testN ((a ^^^ t) &&& (a ^^^ r)) ≠ 0#8 ↔
      a.toInt - t.toInt - b.toNat < -128 ∨ 127 < a.toInt - t.toInt - b.toNat := by
  have ha := a.isLt
  have ht := t.isLt
  have hb := Bool.toNat_le b
  rw [testN_ne_zero, BitVec.msb_and, BitVec.msb_xor, BitVec.msb_xor]
  simp only [BitVec.toInt_eq_msb_cond, BitVec.msb_eq_decide]
  by_cases h₁ : 128 ≤ a.toNat <;> by_cases h₂ : 128 ≤ t.toNat <;>
    by_cases h₃ : 128 ≤ r.toNat <;> simp [h₁, h₂, h₃] <;> omega

/-! ### Binary addition -/

/-- The sixteen-bit sum of `adc_im`. -/
theorem toNat_adc_t16 (a t p : Byte) :
    (word a + word t + word (testC p)).toNat
      = a.toNat + t.toNat + (Flags.ofByte p).c.toNat := by
  have ha := a.isLt
  have ht := t.isLt
  have hc := Bool.toNat_le (Flags.ofByte p).c
  rw [BitVec.toNat_add, BitVec.toNat_add, toNat_testC, toNat_word, toNat_word]
  omega

theorem adcBinary_rA (t : Byte) (s : Vm M) :
    (s.adcBinary t).rA
      = BitVec.ofNat 8 (s.rA.toNat + t.toNat + (Flags.ofByte s.rS).c.toNat) := by
  apply BitVec.eq_of_toNat_eq
  show ((word s.rA + word t + word (testC s.rS)).setWidth 8).toNat = _
  rw [BitVec.toNat_setWidth, toNat_adc_t16, BitVec.toNat_ofNat]

theorem adcBinary_flags (t : Byte) (s : Vm M) :
    Flags.ofByte (s.adcBinary t).rS =
      { Flags.ofByte s.rS with
        n := (s.adcBinary t).rA.msb
        v := decide (s.rA.toInt + t.toInt + (Flags.ofByte s.rS).c.toNat < -128 ∨
          127 < s.rA.toInt + t.toInt + (Flags.ofByte s.rS).c.toNat)
        z := (s.adcBinary t).rA == 0#8
        c := decide (256 ≤ s.rA.toNat + t.toNat + (Flags.ofByte s.rS).c.toNat) } := by
  have hr : (s.adcBinary t).rA.toNat
      = (s.rA.toNat + t.toNat + (Flags.ofByte s.rS).c.toNat) % 256 := by
    rw [adcBinary_rA, BitVec.toNat_ofNat]
  have hc : (word s.rA + word t + word (testC s.rS)) &&& 0xff00#16 ≠ 0#16 ↔
      256 ≤ s.rA.toNat + t.toNat + (Flags.ofByte s.rS).c.toNat := by
    rw [and_ff00_ne_zero, toNat_adc_t16]
  refine (ofByte_setVNZC _ _ rfl).trans ?_
  exact Flags.ext rfl (decide_eq_decide.mpr (overflow_add hr)) rfl rfl rfl
    (decide_eq_decide.mpr hc)

/-! ### Binary subtraction -/

/-- The sixteen-bit difference of `sbc_im`, modulo `2 ^ 16`. -/
theorem toNat_sbc_t16 (a t p : Byte) :
    ((word a - word t - notC p).toNat : ℤ)
      = ((a.toNat : ℤ) - t.toNat - (!(Flags.ofByte p).c).toNat) % 65536 := by
  have ha := a.isLt
  have ht := t.isLt
  have hb := Bool.toNat_le (!(Flags.ofByte p).c)
  rw [BitVec.toNat_sub, BitVec.toNat_sub, toNat_notC, toNat_word, toNat_word]
  omega

theorem toNat_sbcBinary_rA (t : Byte) (s : Vm M) :
    ((s.sbcBinary t).rA.toNat : ℤ)
      = ((s.rA.toNat : ℤ) - t.toNat - (!(Flags.ofByte s.rS).c).toNat) % 256 := by
  show (((word s.rA - word t - notC s.rS).setWidth 8).toNat : ℤ) = _
  have h := toNat_sbc_t16 s.rA t s.rS
  rw [BitVec.toNat_setWidth]
  omega

theorem sbcBinary_rA (t : Byte) (s : Vm M) :
    (s.sbcBinary t).rA
      = BitVec.ofInt 8 ((s.rA.toNat : ℤ) - t.toNat - (!(Flags.ofByte s.rS).c).toNat) := by
  apply BitVec.eq_of_toNat_eq
  have h := toNat_sbcBinary_rA t s
  rw [BitVec.toNat_ofInt]
  omega

theorem sbcBinary_flags (t : Byte) (s : Vm M) :
    Flags.ofByte (s.sbcBinary t).rS =
      { Flags.ofByte s.rS with
        n := (s.sbcBinary t).rA.msb
        v := decide (s.rA.toInt - t.toInt - (!(Flags.ofByte s.rS).c).toNat < -128 ∨
          127 < s.rA.toInt - t.toInt - (!(Flags.ofByte s.rS).c).toNat)
        z := (s.sbcBinary t).rA == 0#8
        c := decide (0 ≤ (s.rA.toNat : ℤ) - t.toNat - (!(Flags.ofByte s.rS).c).toNat) } := by
  have hr := toNat_sbcBinary_rA t s
  have ht16 := toNat_sbc_t16 s.rA t s.rS
  have ha := s.rA.isLt
  have ht := t.isLt
  have hb := Bool.toNat_le (!(Flags.ofByte s.rS).c)
  have hc : ¬ (word s.rA - word t - notC s.rS) &&& 0xff00#16 ≠ 0#16 ↔
      0 ≤ (s.rA.toNat : ℤ) - t.toNat - (!(Flags.ofByte s.rS).c).toNat := by
    rw [and_ff00_ne_zero]
    omega
  refine (ofByte_setVNZC _ _ (ite_not ..).symm).trans ?_
  exact Flags.ext rfl (decide_eq_decide.mpr (overflow_sub hr)) rfl rfl rfl
    (decide_eq_decide.mpr hc)

/-! ### Decimal addition -/

/-- A byte put together from two decimal digits. -/
theorem bcd_of_toNat {r : Byte} (l h : ℕ) (hl : l ≤ 9) (hh : h ≤ 9)
    (hr : r.toNat = l + 16 * h) : Bcd r ∧ bcdVal r = 10 * h + l := by
  unfold Bcd bcdVal
  omega

/-- The correction of a digit sum: the digit and the carry. -/
theorem decimal_adjust (x : Word) (hx : x.toNat ≤ 19) :
    (if x > 9#16 then x + 6#16 else x).toNat % 16 = x.toNat % 10 ∧
      ((if x > 9#16 then x + 6#16 else x) > 15#16 ↔ 10 ≤ x.toNat) := by
  have h9 : x > 9#16 ↔ 10 ≤ x.toNat := by
    rw [gt_iff_lt, BitVec.lt_def]
    exact Nat.lt_iff_add_one_le
  by_cases h : 10 ≤ x.toNat
  · rw [if_pos (h9.mpr h), gt_iff_lt, BitVec.lt_def, BitVec.toNat_add]
    simp only [BitVec.toNat_ofNat]
    omega
  · rw [if_neg (mt h9.mp h), gt_iff_lt, BitVec.lt_def]
    simp only [BitVec.toNat_ofNat]
    omega

/-- Two digit sums and the carry between them make the sum of the numbers. -/
theorem decimal_sum {a₀ a₁ t₀ t₁ c x y : ℕ} (hx : x = a₀ + t₀ + c)
    (hy : y = a₁ + t₁ + (decide (10 ≤ x)).toNat) (hx19 : x ≤ 19) (hy19 : y ≤ 19) :
    10 * (y % 10) + x % 10 + 100 * (decide (10 ≤ y)).toNat
      = 10 * a₁ + a₀ + (10 * t₁ + t₀) + c := by
  by_cases h₁ : 10 ≤ x <;> by_cases h₂ : 10 ≤ y <;>
    simp only [h₁, h₂, decide_true, decide_false, Bool.toNat_true, Bool.toNat_false]
      at hy ⊢ <;> omega

theorem adcDecimal_spec {t : Byte} {s : Vm M} (ha : Bcd s.rA) (ht : Bcd t) :
    Bcd (s.adcDecimal t).rA ∧
      bcdVal (s.adcDecimal t).rA + 100 * (Flags.ofByte (s.adcDecimal t).rS).c.toNat
        = bcdVal s.rA + bcdVal t + (Flags.ofByte s.rS).c.toNat := by
  obtain ⟨ha₀, ha₁⟩ := ha
  obtain ⟨ht₀, ht₁⟩ := ht
  have hc := Bool.toNat_le (Flags.ofByte s.rS).c
  -- the low digit
  obtain ⟨x, hx⟩ : ∃ x, x = (word s.rA &&& 0xf#16) + (word t &&& 0xf#16) + word (testC s.rS) :=
    ⟨_, rfl⟩
  have hxn : x.toNat = s.rA.toNat % 16 + t.toNat % 16 + (Flags.ofByte s.rS).c.toNat := by
    rw [hx, BitVec.toNat_add, BitVec.toNat_add, toNat_and_0f, toNat_and_0f, toNat_testC,
      toNat_word, toNat_word]
    omega
  obtain ⟨hlo, hcar⟩ := decimal_adjust x (by omega)
  -- the high digit
  obtain ⟨y, hy⟩ : ∃ y, y = (word s.rA >>> 4) + (word t >>> 4) +
      (if (if x > 9#16 then x + 6#16 else x) > 15#16 then 1#16 else 0#16) := ⟨_, rfl⟩
  have hyn : y.toNat = s.rA.toNat / 16 + t.toNat / 16 + (decide (10 ≤ x.toNat)).toNat := by
    rw [hy, BitVec.toNat_add, BitVec.toNat_add, toNat_word_shiftRight, toNat_word_shiftRight]
    by_cases h : 10 ≤ x.toNat
    · rw [if_pos (hcar.mpr h), decide_eq_true h, BitVec.toNat_ofNat, Bool.toNat_true]
      omega
    · rw [if_neg (mt hcar.mp h), decide_eq_false h, BitVec.toNat_ofNat, Bool.toNat_false]
      omega
  have hd := Bool.toNat_le (decide (10 ≤ x.toNat))
  obtain ⟨hhi, hcar'⟩ := decimal_adjust y (by omega)
  have hr : (s.adcDecimal t).rA.toNat = x.toNat % 10 + 16 * (y.toNat % 10) := by
    rw [← hlo, ← hhi, hy, hx]
    exact toNat_nibbles _ _
  obtain ⟨hbcd, hval⟩ := bcd_of_toNat _ _ (by omega) (by omega) hr
  have hflag : (Flags.ofByte (s.adcDecimal t).rS).c = decide (10 ≤ y.toNat) := by
    subst hx hy
    refine (congrArg Flags.c (ofByte_setDecimal _ _ rfl)).trans ?_
    exact decide_eq_decide.mpr hcar'
  refine ⟨hbcd, ?_⟩
  rw [hval, hflag]
  exact decimal_sum hxn hyn (by omega) (by omega)

theorem adcDecimal_frame (t : Byte) (s : Vm M) :
    (Flags.ofByte (s.adcDecimal t).rS).d = (Flags.ofByte s.rS).d ∧
      (Flags.ofByte (s.adcDecimal t).rS).i = (Flags.ofByte s.rS).i := by
  refine ⟨?_, ?_⟩
  · exact (congrArg Flags.d (ofByte_setDecimal _ _ rfl)).trans rfl
  · exact (congrArg Flags.i (ofByte_setDecimal _ _ rfl)).trans rfl

/-! ### Decimal subtraction -/

/-- The correction of a digit difference `n`: the digit, and the borrow in
bit 4 and above bit 3. -/
theorem decimal_borrow {x : Word} {n : ℤ} (hlo : -10 ≤ n) (hhi : n ≤ 9)
    (hx : (x.toNat : ℤ) = n % 65536) :
    ((if x &&& 0x10#16 ≠ 0#16 then x - 6#16 else x).toNat % 16 : ℤ) = n % 10 ∧
      (((if x &&& 0x10#16 ≠ 0#16 then x - 6#16 else x) &&& 0x10#16) >>> 4).toNat
        = (decide (n < 0)).toNat ∧
      ((if x &&& 0x10#16 ≠ 0#16 then x - 6#16 else x) > 15#16 ↔ n < 0) := by
  have h10 : x &&& 0x10#16 ≠ 0#16 ↔ n < 0 := by
    rw [ne_eq, ← BitVec.toNat_inj, toNat_and_10, BitVec.toNat_ofNat]
    omega
  rw [BitVec.toNat_ushiftRight, toNat_and_10, Nat.shiftRight_eq_div_pow, gt_iff_lt,
    BitVec.lt_def]
  by_cases h : n < 0
  · rw [if_pos (h10.mpr h), decide_eq_true h, Bool.toNat_true, BitVec.toNat_sub]
    simp only [BitVec.toNat_ofNat]
    omega
  · rw [if_neg (mt h10.mp h), decide_eq_false h, Bool.toNat_false]
    simp only [BitVec.toNat_ofNat]
    omega

/-- Two digit differences and the borrow between them make the difference of the
numbers. -/
theorem decimal_difference {a₀ a₁ t₀ t₁ b n m : ℤ} (hn : n = a₀ - t₀ - b)
    (hm : m = a₁ - t₁ - (decide (n < 0)).toNat) (hn₀ : -10 ≤ n) (hn₁ : n ≤ 9)
    (hm₀ : -10 ≤ m) (hm₁ : m ≤ 9) :
    10 * (m % 10) + n % 10 - 100 * (decide (m < 0)).toNat
      = 10 * a₁ + a₀ - (10 * t₁ + t₀) - b := by
  by_cases h₁ : n < 0 <;> by_cases h₂ : m < 0 <;>
    simp only [h₁, h₂, decide_true, decide_false, Bool.toNat_true, Bool.toNat_false]
      at hm ⊢ <;> omega

theorem sbcDecimal_spec {t : Byte} {s : Vm M} (ha : Bcd s.rA) (ht : Bcd t) :
    Bcd (s.sbcDecimal t).rA ∧
      (bcdVal (s.sbcDecimal t).rA : ℤ) - 100 * (!(Flags.ofByte (s.sbcDecimal t).rS).c).toNat
        = bcdVal s.rA - bcdVal t - (!(Flags.ofByte s.rS).c).toNat := by
  obtain ⟨ha₀, ha₁⟩ := ha
  obtain ⟨ht₀, ht₁⟩ := ht
  have hb := Bool.toNat_le (!(Flags.ofByte s.rS).c)
  -- the low digit
  obtain ⟨x, hx⟩ : ∃ x, x = (word s.rA &&& 0xf#16) - (word t &&& 0xf#16) - notC s.rS :=
    ⟨_, rfl⟩
  obtain ⟨n, hn⟩ : ∃ n : ℤ, n =
      (s.rA.toNat % 16 : ℤ) - (t.toNat % 16 : ℤ) - (!(Flags.ofByte s.rS).c).toNat := ⟨_, rfl⟩
  have hxn : (x.toNat : ℤ) = n % 65536 := by
    rw [hx, BitVec.toNat_sub, BitVec.toNat_sub, toNat_and_0f, toNat_and_0f, toNat_notC,
      toNat_word, toNat_word]
    omega
  obtain ⟨hlo, hbor, -⟩ := decimal_borrow (by omega) (by omega) hxn
  -- the high digit
  obtain ⟨y, hy⟩ : ∃ y, y = (word s.rA >>> 4) - (word t >>> 4) -
      (((if x &&& 0x10#16 ≠ 0#16 then x - 6#16 else x) &&& 0x10#16) >>> 4) := ⟨_, rfl⟩
  obtain ⟨m, hm⟩ : ∃ m : ℤ, m =
      (s.rA.toNat / 16 : ℤ) - (t.toNat / 16 : ℤ) - (decide (n < 0)).toNat := ⟨_, rfl⟩
  have hd := Bool.toNat_le (decide (n < 0))
  have hyn : (y.toNat : ℤ) = m % 65536 := by
    rw [hy, BitVec.toNat_sub, BitVec.toNat_sub, toNat_word_shiftRight, toNat_word_shiftRight,
      hbor]
    omega
  obtain ⟨hhi, -, hbor'⟩ := decimal_borrow (by omega) (by omega) hyn
  have hr : ((s.sbcDecimal t).rA.toNat : ℤ) = n % 10 + 16 * (m % 10) := by
    rw [← hlo, ← hhi, hy, hx]
    exact_mod_cast toNat_nibbles _ _
  obtain ⟨hbcd, hval⟩ := bcd_of_toNat (n % 10).toNat (m % 10).toNat (by omega) (by omega)
    (show (s.sbcDecimal t).rA.toNat = _ by omega)
  have hflag : (Flags.ofByte (s.sbcDecimal t).rS).c = !decide (m < 0) := by
    subst hx hy
    refine (congrArg Flags.c (ofByte_setDecimal _ _ (ite_not ..).symm)).trans ?_
    exact (decide_not ..).trans (congrArg Bool.not (decide_eq_decide.mpr hbor'))
  refine ⟨hbcd, ?_⟩
  rw [hval, hflag, Bool.not_not]
  push_cast
  rw [Int.toNat_of_nonneg (by omega), Int.toNat_of_nonneg (by omega)]
  exact_mod_cast decimal_difference hn hm (by omega) (by omega) (by omega) (by omega)

theorem sbcDecimal_frame (t : Byte) (s : Vm M) :
    (Flags.ofByte (s.sbcDecimal t).rS).d = (Flags.ofByte s.rS).d ∧
      (Flags.ofByte (s.sbcDecimal t).rS).i = (Flags.ofByte s.rS).i := by
  refine ⟨?_, ?_⟩
  · exact (congrArg Flags.d (ofByte_setDecimal _ _ (ite_not ..).symm)).trans rfl
  · exact (congrArg Flags.i (ofByte_setDecimal _ _ (ite_not ..).symm)).trans rfl

end Dan64
