/-
Dan64/CarryChain.lean

Column-by-column addition and subtraction of numbers written in a base.

A column holds one digit of each operand and one of the result; with `σ = 1`
it adds and passes a carry on, with `σ = -1` it subtracts and passes a borrow
on.  `Chain.identity` is the identity that a whole chain satisfies; `Chain.add`
and `Chain.sub` read the result and the last carry off it, and
`Chain.overflows_iff` says that, in an even base, signed overflow of the whole
numbers is signed overflow in the last column.
-/
import Mathlib.Data.Nat.Digits.Defs
import Mathlib.Tactic.Linarith
import Mathlib.Tactic.LinearCombination

namespace CarryChain

/-- One digit of each operand, and the digit of the result. -/
structure Column where
  x : ℕ
  y : ℕ
  r : ℕ

/-- Columns from the lowest on, the carry into the first and out of the last. -/
inductive Chain (b : ℕ) (σ : ℤ) (c : ℕ) : List Column → ℕ → Prop
  | nil : Chain b σ c [] c
  | snoc {c₁ c₂ : ℕ} {ps : List Column} {p : Column} :
      Chain b σ c ps c₁ → (p.x : ℤ) + σ * (p.y + c₁) = p.r + σ * (b * c₂) →
      Chain b σ c (ps ++ [p]) c₂

variable {b : ℕ} {σ : ℤ} {c c' : ℕ} {ps : List Column}

/-- The number that one row of a chain denotes. -/
def num (b : ℕ) (f : Column → ℕ) (ps : List Column) : ℕ := Nat.ofDigits b (ps.map f)

@[simp] theorem num_nil (f : Column → ℕ) : num b f [] = 0 := rfl

@[simp] theorem num_concat (f : Column → ℕ) (ps : List Column) (p : Column) :
    num b f (ps ++ [p]) = num b f ps + b ^ ps.length * f p := by
  rw [num, List.map_append, Nat.ofDigits_append, List.length_map]
  simp [num]

theorem num_lt (hb : 1 < b) (f : Column → ℕ) (h : ∀ p ∈ ps, f p < b) :
    num b f ps < b ^ ps.length := by
  rw [← List.length_map f]
  refine Nat.ofDigits_lt_base_pow_length hb fun d hd => ?_
  obtain ⟨p, hp, rfl⟩ := List.mem_map.mp hd
  exact h p hp

/-- **The identity of a chain.** -/
theorem Chain.identity (h : Chain b σ c ps c') :
    (num b Column.x ps : ℤ) + σ * (num b Column.y ps + c)
      = num b Column.r ps + σ * (b ^ ps.length * c') := by
  induction h with
  | nil => simp
  | @snoc c₁ c₂ ps p _ hcol ih =>
    simp only [num_concat, List.length_append, List.length_singleton, pow_succ]
    push_cast
    linear_combination ih + (b : ℤ) ^ ps.length * hcol

/-- **Addition**: the result modulo `b ^ n`, and the carry. -/
theorem Chain.add (hb : 1 < b) (h : Chain b 1 c ps c') (hr : ∀ p ∈ ps, p.r < b)
    (hc : c' ≤ 1) :
    num b Column.r ps
        = (num b Column.x ps + num b Column.y ps + c)
          % b ^ ps.length ∧
      (c' = 1 ↔ b ^ ps.length
        ≤ num b Column.x ps + num b Column.y ps + c) := by
  have hlt := num_lt hb Column.r hr
  have hval := h.identity
  have hsum : num b Column.x ps + num b Column.y ps + c
      = num b Column.r ps + b ^ ps.length * c' := by
    zify
    linarith
  rw [hsum, Nat.add_mul_mod_self_left, Nat.mod_eq_of_lt hlt]
  refine ⟨rfl, ?_⟩
  obtain rfl | rfl := Nat.le_one_iff_eq_zero_or_eq_one.mp hc
  · simpa using hlt
  · simp

/-- **Subtraction**: the result modulo `b ^ n`, and the borrow. -/
theorem Chain.sub (hb : 1 < b) (h : Chain b (-1) c ps c') (hr : ∀ p ∈ ps, p.r < b)
    (hc : c' ≤ 1) :
    (num b Column.r ps : ℤ)
        = ((num b Column.x ps : ℤ) - num b Column.y ps - c)
          % (b ^ ps.length : ℕ) ∧
      (c' = 1 ↔ num b Column.x ps < num b Column.y ps + c) := by
  have hlt := num_lt hb Column.r hr
  have hval := h.identity
  have hdiff : (num b Column.x ps : ℤ) - num b Column.y ps - c
      = num b Column.r ps + (b ^ ps.length : ℕ) * (-c' : ℤ) := by
    push_cast
    linarith
  rw [hdiff, Int.add_mul_emod_self_left]
  refine ⟨(Int.emod_eq_of_lt (by positivity) (by exact_mod_cast hlt)).symm, ?_⟩
  obtain rfl | rfl := Nat.le_one_iff_eq_zero_or_eq_one.mp hc
  · omega
  · omega

/-! ### Signed overflow -/

/-- The signed reading of a residue modulo `w`. -/
def signed (w x : ℕ) : ℤ := if w ≤ 2 * x then (x : ℤ) - w else x

/-- A number is not the signed reading of a residue modulo `w`. -/
def Overflows (w : ℕ) (z : ℤ) : Prop := 2 * z < -(w : ℤ) ∨ (w : ℤ) ≤ 2 * z

instance (w : ℕ) (z : ℤ) : Decidable (Overflows w z) := inferInstanceAs (Decidable (_ ∨ _))

/-- A digit `l` below `p` does not change a sign. -/
theorem add_mul_neg_iff {l p : ℤ} (hl : 0 ≤ l) (hlp : l < p) (k : ℤ) : l + p * k < 0 ↔ k < 0 := by
  refine ⟨fun h => ?_, fun h => ?_⟩
  · by_contra hk
    have := mul_nonneg (hl.trans hlp.le) (not_lt.mp hk)
    omega
  · have := mul_le_mul_of_nonneg_left (show k ≤ -1 by omega) (hl.trans hlp.le)
    omega

/-- In an even base the sign is the sign of the top digit. -/
theorem signed_concat {l p t h : ℕ} (hl : l < p) :
    signed (p * (2 * h)) (l + p * t) = l + p * signed (2 * h) t := by
  -- the sign is that of the top digit, whatever is below it
  have hsign : p * (2 * h) ≤ 2 * (l + p * t) ↔ 2 * h ≤ 2 * t := by
    have h₀ : (0 : ℤ) ≤ l := Int.natCast_nonneg l
    have hneg := add_mul_neg_iff h₀ (show (l : ℤ) < p by exact_mod_cast hl) (t - h)
    rw [mul_sub] at hneg
    zify
    constructor
    · intro hle
      by_contra hlt
      have := hneg.mpr (by omega)
      linarith
    · intro hle
      have := mt hneg.mp (by omega)
      linarith
  rw [signed, signed]
  by_cases ht : 2 * h ≤ 2 * t
  · rw [if_pos ht, if_pos (hsign.mpr ht)]
    push_cast
    ring
  · rw [if_neg ht, if_neg (mt hsign.mp ht)]
    push_cast
    ring

theorem overflows_concat {l p h : ℕ} {z : ℤ} (hl : l < p) :
    Overflows (p * (2 * h)) (l + p * z) ↔ Overflows (2 * h) z := by
  have h₀ : (0 : ℤ) ≤ l := Int.natCast_nonneg l
  have hlow := add_mul_neg_iff h₀ (show (l : ℤ) < p by exact_mod_cast hl) (z + h)
  have hhigh := add_mul_neg_iff h₀ (show (l : ℤ) < p by exact_mod_cast hl) (z - h)
  rw [mul_add] at hlow
  rw [mul_sub] at hhigh
  refine or_congr ?_ ?_
  · rw [show 2 * z < -((2 * h : ℕ) : ℤ) ↔ z + h < 0 by push_cast; omega, ← hlow]
    push_cast
    constructor <;> intro <;> linarith
  · rw [show ((2 * h : ℕ) : ℤ) ≤ 2 * z ↔ ¬ z - h < 0 by push_cast; omega, ← hhigh]
    push_cast
    constructor <;> intro <;> linarith

/-- **Signed overflow** of a whole chain is signed overflow in its last column. -/
theorem Chain.overflows_iff {h : ℕ} (hb : b = 2 * h) (hh : 0 < h) {c₁ : ℕ} (p : Column)
    (hps : Chain b σ c ps c₁) (hx : ∀ q ∈ ps, q.x < b) (hy : ∀ q ∈ ps, q.y < b)
    (hr : ∀ q ∈ ps, q.r < b) :
    Overflows (b ^ (ps ++ [p]).length)
        (signed (b ^ (ps ++ [p]).length) (num b Column.x (ps ++ [p])) +
          σ * (signed (b ^ (ps ++ [p]).length) (num b Column.y (ps ++ [p])) + c)) ↔
      Overflows b (signed b p.x + σ * (signed b p.y + c₁)) := by
  subst hb
  have hb : 1 < 2 * h := by omega
  have hid := hps.identity
  rw [List.length_append, List.length_singleton, pow_succ, num_concat, num_concat,
    signed_concat (num_lt hb _ hx), signed_concat (num_lt hb _ hy),
    ← overflows_concat (num_lt hb _ hr)]
  refine iff_of_eq (congrArg _ ?_)
  push_cast at hid ⊢
  linear_combination hid

end CarryChain
