/-
Dan64/VmBits.lean

The bit tricks of `vm/vm.c`, read as statements about flags and addresses.

A flag is a bit of `r_s`: the updates `r_s &= ~mask; r_s |= bits` are record
updates of the flags (`ofByte_setNZ` and its relatives).  An address is put
together from bytes by `addr16` and kept in page zero by `& 0xff`.
-/
import Dan64.Vm
import Dan64.Mos6502
import Mathlib.Tactic.IntervalCases

namespace Dan64

open Mos6502 (Flags)

/-! ### Bits of the status register -/

theorem and_sbit {f : ℕ} (b : Byte) :
    b &&& sbit f = if b.getLsbD f then sbit f else 0#8 :=
  BitVec.and_twoPow b f

theorem sbit_ne_zero {f : ℕ} (hf : f < 8) : sbit f ≠ 0#8 := by
  intro h
  have hb := congrArg (BitVec.getLsbD · f) h
  simp only [show sbit f = BitVec.twoPow 8 f from rfl, BitVec.getLsbD_twoPow,
    BitVec.getLsbD_zero, decide_true, Bool.and_true, decide_eq_false_iff_not] at hb
  exact hb hf

theorem and_sbit_eq_zero {f : ℕ} (hf : f < 8) (b : Byte) :
    b &&& sbit f = 0#8 ↔ b.getLsbD f = false := by
  rw [and_sbit]
  rcases b.getLsbD f with - | -
  · simp
  · simpa using sbit_ne_zero hf

theorem getLsbD_sbit (f i : ℕ) :
    (sbit f).getLsbD i = (decide (i = f) && decide (i < 8)) := by
  rw [show sbit f = BitVec.twoPow 8 f from rfl, BitVec.getLsbD_twoPow]
  rcases eq_or_ne i f with rfl | h
  · simp
  · simp [h, h.symm]

theorem getLsbD_testZ (v : Byte) (i : ℕ) :
    (testZ v).getLsbD i = (decide (i = Zf) && v == 0#8) := by
  rcases eq_or_ne v 0#8 with h | h
  · rw [testZ, if_neg (not_not.mpr h), getLsbD_sbit, h]
    by_cases h : i = Zf <;> simp [h, Zf]
  · rw [testZ, if_pos h, BitVec.getLsbD_zero, beq_false_of_ne h, Bool.and_false]

theorem getLsbD_testN (v : Byte) (i : ℕ) :
    (testN v).getLsbD i = (decide (i = Nf) && v.msb) := by
  rw [testN, BitVec.getLsbD_and, getLsbD_sbit, BitVec.msb_eq_getLsbD_last]
  by_cases h : i = Nf <;> simp [h, Nf]

theorem testN_ne_zero (v : Byte) : testN v ≠ 0#8 ↔ v.msb = true := by
  rw [testN, ne_eq, and_sbit_eq_zero (by decide), BitVec.msb_eq_getLsbD_last,
    Bool.not_eq_false]

/-- A flag written as a conditional mask. -/
theorem getLsbD_ite_sbit {f : ℕ} (hf : f < 8) (p : Prop) [Decidable p] (i : ℕ) :
    (if p then sbit f else 0#8).getLsbD i = (decide (i = f) && decide p) := by
  by_cases hp : p
  · rw [if_pos hp, getLsbD_sbit]
    rcases eq_or_ne i f with rfl | h
    · simp [hf, hp]
    · simp [h]
  · simp [hp]

theorem testC_eq_ite (p : Byte) :
    testC p = if (Flags.ofByte p).c then sbit Cf else 0#8 := and_sbit p

theorem testD_ne_zero (p : Byte) : testD p ≠ 0#8 ↔ (Flags.ofByte p).d = true := by
  rw [testD, ne_eq, and_sbit_eq_zero (by decide), Bool.not_eq_false]
  rfl

theorem ofByte_setNZ (p v : Byte) :
    Flags.ofByte (p &&& ~~~(sbit Nf ||| sbit Zf) ||| (testN v ||| testZ v))
      = { Flags.ofByte p with n := v.msb, z := v == 0#8 } := by
  simp [Flags.ofByte, getLsbD_sbit, getLsbD_testZ, getLsbD_testN,
    -BitVec.getLsbD_eq_getElem]

theorem ofByte_setNZC (p v : Byte) (q : Prop) [Decidable q] :
    Flags.ofByte (p &&& ~~~(sbit Nf ||| sbit Zf ||| sbit Cf) |||
        (testN v ||| testZ v ||| if q then sbit Cf else 0#8))
      = { Flags.ofByte p with n := v.msb, z := v == 0#8, c := decide q } := by
  simp [Flags.ofByte, getLsbD_sbit, getLsbD_testZ, getLsbD_testN, getLsbD_ite_sbit,
    -BitVec.getLsbD_eq_getElem]

theorem ofByte_or_sbit (p : Byte) (f : ℕ) :
    Flags.ofByte (p ||| sbit f) =
      let q := Flags.ofByte p
      ⟨q.n || Nf == f, q.v || Vf == f, q.d || Df == f, q.i || If == f, q.z || Zf == f,
        q.c || Cf == f⟩ := by
  simp [Flags.ofByte, getLsbD_sbit, -BitVec.getLsbD_eq_getElem, ← Bool.beq_eq_decide_eq]

theorem ofByte_and_not_sbit (p : Byte) (f : ℕ) :
    Flags.ofByte (p &&& ~~~(sbit f)) =
      let q := Flags.ofByte p
      ⟨q.n && Nf != f, q.v && Vf != f, q.d && Df != f, q.i && If != f, q.z && Zf != f,
        q.c && Cf != f⟩ := by
  simp [Flags.ofByte, getLsbD_sbit, -BitVec.getLsbD_eq_getElem, bne, Bool.beq_eq_decide_eq]

theorem and_sbit_beq_zero {f : ℕ} (hf : f < 8) (b : Byte) :
    (b &&& sbit f == 0#8) = !b.getLsbD f := by
  rw [Bool.eq_iff_iff, beq_iff_eq, and_sbit_eq_zero hf, Bool.not_eq_true']

theorem and_sbit_bne_zero {f : ℕ} (hf : f < 8) (b : Byte) :
    (b &&& sbit f != 0#8) = b.getLsbD f := by
  rw [bne, and_sbit_beq_zero hf, Bool.not_not]

/-! ### Shifts -/

/-- Rotating a carry into bit 0. -/
theorem rol_carry (t p : Byte) :
    (t <<< 1 &&& 0xfe) ||| testC p
      = t <<< 1 ||| (BitVec.ofBool (Flags.ofByte p).c).setWidth 8 := by
  rw [testC_eq_ite]
  revert t
  rcases (Flags.ofByte p).c with - | - <;> decide +kernel

/-- Rotating a carry into bit 7. -/
theorem ror_carry (t p : Byte) :
    (t >>> 1 &&& 0x7f) ||| (if testC p ≠ 0#8 then 0x80#8 else 0#8)
      = t >>> 1 ||| (BitVec.ofBool (Flags.ofByte p).c).setWidth 8 <<< 7 := by
  rw [testC_eq_ite]
  revert t
  rcases (Flags.ofByte p).c with - | - <;> decide +kernel

theorem asl_mask : ∀ t : Byte, t <<< 1 &&& 0xfe = t <<< 1 := by decide +kernel

theorem lsr_mask : ∀ t : Byte, t >>> 1 &&& 0x7f = t >>> 1 := by decide +kernel

theorem testC_eq_sbit (t : Byte) : testC t = if t.getLsbD 0 then sbit Cf else 0#8 :=
  and_sbit t

/-! ### Addresses -/

/-- `addr16` of two bytes puts the second one on top. -/
theorem addr16_word (lo hi : Byte) : addr16 (word lo) (word hi) = hi ++ lo := by
  refine BitVec.eq_of_getLsbD_eq fun i hi' => ?_
  simp only [addr16, word, BitVec.getLsbD_or, BitVec.getLsbD_setWidth,
    BitVec.getLsbD_shiftLeft, BitVec.getLsbD_append]
  by_cases h : i < 8
  · simp [h, hi']
  · have hlo : lo.getLsbD i = false := BitVec.getLsbD_of_ge _ _ (by omega)
    simp [h, hi', hlo, show i - 8 < 16 by omega]

theorem toNat_append_byte (hi lo : Byte) : (hi ++ lo).toNat = 256 * hi.toNat + lo.toNat := by
  rw [BitVec.toNat_append, ← Nat.shiftLeft_add_eq_or_of_lt lo.isLt, Nat.shiftLeft_eq]
  omega

/-- A word is its two bytes. -/
theorem append_bytes (w : Word) : (w >>> 8).setWidth 8 ++ w.setWidth 8 = w := by
  rw [BitVec.setWidth_ushiftRight_eq_extractLsb, BitVec.setWidth_eq_extractLsb' (by decide)]
  exact BitVec.extractLsb'_append_extractLsb'

theorem toNat_word (b : Byte) : (word b).toNat = b.toNat :=
  BitVec.toNat_setWidth_of_le (by decide)

/-- Indexing in page zero wraps. -/
theorem word_add_and (b x : Byte) : (word b + word x) &&& 0xff#16 = word (b + x) := by
  apply BitVec.eq_of_toNat_eq
  have h : ((word b + word x) &&& 0xff#16).toNat = (word b + word x).toNat % 2 ^ 8 :=
    Nat.and_two_pow_sub_one_eq_mod _ 8
  rw [h, BitVec.toNat_add, toNat_word, toNat_word, toNat_word, BitVec.toNat_add]
  omega

/-- The byte after a zero-page address is in page zero too, except at `$ff`. -/
theorem word_succ {p : Byte} (hp : p ≠ 0xff#8) : word p + 1#16 = word (p + 1#8) := by
  unfold word
  bv_omega

theorem setWidth_word (b : Byte) : (word b).setWidth 8 = b := by
  simp [word]

/-- A displacement keeps its byte. -/
theorem setWidth_signExtend : ∀ b : Byte, (b.signExtend 16).setWidth 8 = b := by
  decide +kernel

/-! ### Nibbles -/

theorem and_ff00 (x : Word) : x &&& 0xff00#16 = x >>> 8 <<< 8 := by
  refine BitVec.eq_of_getLsbD_eq fun i hi => ?_
  interval_cases i <;> simp

/-- The carry of a byte sum computed on sixteen bits. -/
theorem and_ff00_ne_zero (x : Word) : x &&& 0xff00#16 ≠ 0#16 ↔ 256 ≤ x.toNat := by
  rw [and_ff00, ne_eq, ← BitVec.toNat_inj, BitVec.toNat_shiftLeft,
    BitVec.toNat_ushiftRight, Nat.shiftLeft_eq, Nat.shiftRight_eq_div_pow,
    BitVec.toNat_ofNat]
  omega

theorem toNat_and_0f (x : Word) : (x &&& 0xf#16).toNat = x.toNat % 16 :=
  Nat.and_two_pow_sub_one_eq_mod _ 4

theorem toNat_word_shiftRight (b : Byte) : (word b >>> 4).toNat = b.toNat / 16 := by
  rw [BitVec.toNat_ushiftRight, toNat_word, Nat.shiftRight_eq_div_pow]

/-- Bit 4 of a word. -/
theorem toNat_and_10 (x : Word) : (x &&& 0x10#16).toNat = 16 * (x.toNat / 16 % 2) := by
  have h : x &&& 0x10#16 = if x.getLsbD 4 then 0x10#16 else 0#16 := BitVec.and_twoPow x 4
  have hb : x.getLsbD 4 = decide (x.toNat / 16 % 2 = 1) :=
    Nat.testBit_eq_decide_div_mod_eq
  rw [h, hb]
  rcases Nat.mod_two_eq_zero_or_one (x.toNat / 16) with e | e <;> simp [e]

/-- Two nibbles put together. -/
theorem toNat_nibbles (l h : Word) :
    (((l &&& 0xf#16) ||| h <<< 4).setWidth 8).toNat = l.toNat % 16 + 16 * (h.toNat % 16) := by
  have hlt : l.toNat % 16 < 2 ^ 4 := Nat.mod_lt _ (by decide)
  have hor := Nat.two_pow_add_eq_or_of_lt hlt (h.toNat % 2 ^ 12)
  have hshift : h.toNat <<< 4 % 2 ^ 16 = 2 ^ 4 * (h.toNat % 2 ^ 12) := by
    rw [Nat.shiftLeft_eq]
    omega
  rw [BitVec.toNat_setWidth, BitVec.toNat_or, toNat_and_0f, BitVec.toNat_shiftLeft, hshift,
    Nat.or_comm, ← hor]
  omega

end Dan64
