/-
Dan64/CText.lean

The text functions of the C library that a hand-written parser and printer
rest on, over lists of characters: the classes of `ctype.h`, the integer
conversions of `sscanf` and the zero-padded hexadecimal of `sprintf`.

A conversion skips white space, takes a sign and, in base 16, a `0x`, then the
longest run of digits; it returns the integer it read, before the type of the
destination is taken into account.  `sscanfHex_append` and `sscanfDec_append`
are what a parser needs: a numeral followed by anything that does not continue
it is read exactly.  `numeral_sprintfHex` is the round trip of the printer.
-/
import Mathlib.Data.Nat.Digits.Lemmas
import Mathlib.Data.List.Induction
import Mathlib.Data.List.TakeWhile
import Mathlib.Tactic.Ring

namespace CText

/-! ### Character classes -/

def isspace (c : Char) : Bool := c == ' ' || (9 ≤ c.toNat && c.toNat ≤ 13)

def isdigit (c : Char) : Bool := 48 ≤ c.toNat && c.toNat ≤ 57

def isxdigit (c : Char) : Bool :=
  isdigit c || (65 ≤ c.toNat && c.toNat ≤ 70) || (97 ≤ c.toNat && c.toNat ≤ 102)

def toupper (c : Char) : Char :=
  if 97 ≤ c.toNat ∧ c.toNat ≤ 122 then Char.ofNat (c.toNat - 32) else c

/-- A character of a class is none outside it. -/
theorem ne_of_class {p : Char → Bool} {c d : Char} (hc : p c = true)
    (hd : p d = false) : c ≠ d := by
  rintro rfl
  rw [hc] at hd
  cases hd

theorem toNat_ofNat {n : ℕ} (h : n < 0xd800) : (Char.ofNat n).toNat = n := by
  have hv : n.isValidChar := .inl h
  rw [Char.ofNat, dif_pos hv]
  rfl

theorem toNat_toupper (c : Char) : (toupper c).toNat =
    if 97 ≤ c.toNat ∧ c.toNat ≤ 122 then c.toNat - 32 else c.toNat := by
  rw [toupper]
  split_ifs with h
  · exact toNat_ofNat (by omega)
  · rfl

@[simp] theorem isdigit_toupper (c : Char) : isdigit (toupper c) = isdigit c := by
  rw [isdigit, isdigit, toNat_toupper, Bool.eq_iff_iff]
  simp only [Bool.and_eq_true, decide_eq_true_eq]
  split_ifs <;> omega

@[simp] theorem isxdigit_toupper (c : Char) : isxdigit (toupper c) = isxdigit c := by
  rw [isxdigit, isxdigit, isdigit_toupper, toNat_toupper, Bool.eq_iff_iff]
  simp only [isdigit, Bool.or_eq_true, Bool.and_eq_true, decide_eq_true_eq]
  split_ifs <;> omega

theorem isspace_iff (c : Char) :
    isspace c = true ↔ c.toNat = 32 ∨ 9 ≤ c.toNat ∧ c.toNat ≤ 13 := by
  rw [isspace, Bool.or_eq_true, beq_iff_eq, ← Char.toNat_inj]
  simp

@[simp] theorem isspace_toupper (c : Char) : isspace (toupper c) = isspace c := by
  rw [Bool.eq_iff_iff, isspace_iff, isspace_iff, toNat_toupper]
  split_ifs <;> omega

theorem not_isxdigit_of_isspace {c : Char} (h : isspace c = true) : isxdigit c = false := by
  rw [isspace_iff] at h
  rw [isxdigit, isdigit]
  rw [Bool.eq_false_iff]
  simp only [ne_eq, Bool.or_eq_true, Bool.and_eq_true, decide_eq_true_eq]
  omega

theorem isxdigit_of_isdigit {c : Char} (h : isdigit c = true) : isxdigit c = true := by
  rw [isxdigit, h]
  rfl

/-! ### Numerals -/

/-- The value of a digit, in either case. -/
def digitVal (c : Char) : ℕ :=
  if c.toNat ≤ 57 then c.toNat - 48 else if c.toNat ≤ 70 then c.toNat - 55 else c.toNat - 87

/-- The number that a run of digits denotes, highest digit first. -/
def numeral (b : ℕ) (ds : List Char) : ℕ := ds.foldl (fun n c => b * n + digitVal c) 0

theorem digitVal_toupper {c : Char} (h : isxdigit c = true) :
    digitVal (toupper c) = digitVal c := by
  simp only [isxdigit, isdigit, Bool.or_eq_true, Bool.and_eq_true, decide_eq_true_eq] at h
  simp only [digitVal, toNat_toupper]
  split_ifs <;> omega

theorem numeral_append (b : ℕ) (ds es : List Char) :
    numeral b (ds ++ es) = b ^ es.length * numeral b ds + numeral b es := by
  induction es using List.reverseRecOn with
  | nil => simp [numeral]
  | append_singleton es e ih =>
    simp only [numeral, ← List.append_assoc, List.foldl_append, List.foldl_cons,
      List.foldl_nil, List.length_append, List.length_singleton, pow_succ] at ih ⊢
    rw [ih]
    ring

theorem numeral_map_toupper {b : ℕ} {ds : List Char} (h : ∀ c ∈ ds, isxdigit c = true) :
    numeral b (ds.map toupper) = numeral b ds := by
  induction ds using List.reverseRecOn with
  | nil => rfl
  | append_singleton ds d ih =>
    rw [List.map_append, numeral_append, numeral_append, ih fun c hc => h c (by simp [hc]),
      List.length_map]
    simp only [numeral, List.map_cons, List.map_nil, List.foldl_cons, List.foldl_nil,
      digitVal_toupper (h d (by simp))]

/-! ### `sscanf` -/

/-- The sign of a conversion, and what follows it. -/
def scanSign : List Char → Bool × List Char
  | '-' :: s => (true, s)
  | '+' :: s => (false, s)
  | s => (false, s)

/-- The optional prefix of a hexadecimal conversion. -/
def scanPrefix : List Char → List Char
  | '0' :: 'x' :: s => s
  | '0' :: 'X' :: s => s
  | s => s

/-- The digits of a conversion; it fails when there are none. -/
def scanDigits (b : ℕ) (digit : Char → Bool) (neg : Bool) (s : List Char) : Option ℤ :=
  let ds := s.takeWhile digit
  if ds = [] then none else some (if neg then -(numeral b ds : ℤ) else numeral b ds)

/-- `sscanf(s, "%x", ..)`: `none` when the result is not 1.  A `0x` without a digit is not a
number, as in ISO C; a number that does not fit is not an error, and the callers keep its
low bits, as the AVR does. -/
def sscanfHex (s : List Char) : Option ℤ :=
  let (neg, s) := scanSign (s.dropWhile isspace)
  scanDigits 16 isxdigit neg (scanPrefix s)

/-- `sscanf(s, "%d", ..)`: `none` when the result is not 1.  Numbers that do not fit are as
above. -/
def sscanfDec (s : List Char) : Option ℤ :=
  let (neg, s) := scanSign (s.dropWhile isspace)
  scanDigits 10 isdigit neg s

/-- What follows does not continue a run of digits. -/
def Stops (digit : Char → Bool) (rest : List Char) : Prop := ∀ c ∈ rest.head?, digit c = false

theorem Stops.nil {digit : Char → Bool} : Stops digit [] := fun _ hc => nomatch hc

theorem takeWhile_append_stops {digit : Char → Bool} {ds rest : List Char}
    (hds : ∀ c ∈ ds, digit c = true) (hrest : Stops digit rest) :
    (ds ++ rest).takeWhile digit = ds := by
  rw [List.takeWhile_append_of_pos hds]
  rcases rest with - | ⟨c, rest⟩
  · simp
  · rw [List.takeWhile_cons_of_neg (by simpa using hrest c rfl), List.append_nil]

theorem scanDigits_append {b : ℕ} {digit : Char → Bool} (neg : Bool) {ds rest : List Char}
    (hne : ds ≠ []) (hds : ∀ c ∈ ds, digit c = true) (hrest : Stops digit rest) :
    scanDigits b digit neg (ds ++ rest) =
      some (if neg then -(numeral b ds : ℤ) else numeral b ds) := by
  rw [scanDigits, takeWhile_append_stops hds hrest]
  exact if_neg hne

/-- A hexadecimal digit is neither white space nor a sign. -/
theorem scanSign_of_isxdigit {c : Char} (s : List Char) (h : isxdigit c = true) :
    scanSign ((c :: s).dropWhile isspace) = (false, c :: s) := by
  have hsp : ¬ isspace c = true := fun hsp => by
    rw [not_isxdigit_of_isspace hsp] at h
    exact Bool.false_ne_true h
  have hminus : c ≠ '-' := ne_of_class h rfl
  have hplus : c ≠ '+' := ne_of_class h rfl
  rw [List.dropWhile_cons_of_neg hsp]
  unfold scanSign
  split
  · exact absurd (List.cons.inj ‹_›).1 hminus
  · exact absurd (List.cons.inj ‹_›).1 hplus
  · rfl

/-- Digits are no prefix, but for a 0 that an `x` follows. -/
theorem scanPrefix_of_isxdigit {ds rest : List Char} (hds : ∀ c ∈ ds, isxdigit c = true)
    (hrest : ds = ['0'] → ∀ c ∈ rest.head?, c ≠ 'x' ∧ c ≠ 'X') (hne : ds ≠ []) :
    scanPrefix (ds ++ rest) = ds ++ rest := by
  have hx : ∀ c ∈ ds, c ≠ 'x' ∧ c ≠ 'X' := fun c hc =>
    ⟨ne_of_class (hds c hc) rfl, ne_of_class (hds c hc) rfl⟩
  have hsecond (t : List Char) (h : ds ++ rest = '0' :: t) :
      ∀ c ∈ t.head?, c ≠ 'x' ∧ c ≠ 'X' := by
    obtain ⟨d, ds, rfl⟩ := List.exists_cons_of_ne_nil hne
    obtain ⟨rfl, rfl⟩ := List.cons.inj h
    rcases ds with - | ⟨e, ds⟩
    · exact hrest rfl
    · intro c hc
      obtain rfl : e = c := Option.some.inj hc
      exact hx e (by simp)
  unfold scanPrefix
  split
  · next h => exact absurd rfl (hsecond _ h 'x' rfl).1
  · next h => exact absurd rfl (hsecond _ h 'X' rfl).2
  · rfl

/-- **A hexadecimal numeral is read exactly.** -/
theorem sscanfHex_digits {ds rest : List Char} (hne : ds ≠ [])
    (hds : ∀ c ∈ ds, isxdigit c = true) (hrest : Stops isxdigit rest)
    (hx : ds = ['0'] → ∀ c ∈ rest.head?, c ≠ 'x' ∧ c ≠ 'X') :
    sscanfHex (ds ++ rest) = some (numeral 16 ds : ℤ) := by
  obtain ⟨d, ds, rfl⟩ := List.exists_cons_of_ne_nil hne
  have hsign := scanSign_of_isxdigit (ds ++ rest) (hds d (by simp))
  rw [sscanfHex, List.cons_append, hsign]
  show scanDigits 16 isxdigit false (scanPrefix ((d :: ds) ++ rest)) = _
  rw [scanPrefix_of_isxdigit hds hx hne, scanDigits_append false hne hds hrest]
  rfl

theorem sscanfHex_append {ds rest : List Char} (hne : ds ≠ [])
    (hds : ∀ c ∈ ds, isxdigit c = true) (hrest : Stops isxdigit rest)
    (hx : ∀ c ∈ rest.head?, c ≠ 'x' ∧ c ≠ 'X') :
    sscanfHex (ds ++ rest) = some (numeral 16 ds : ℤ) :=
  sscanfHex_digits hne hds hrest fun _ => hx

/-- **A decimal numeral is read exactly.** -/
theorem sscanfDec_append {ds rest : List Char} (hne : ds ≠ [])
    (hds : ∀ c ∈ ds, isdigit c = true) (hrest : Stops isdigit rest) :
    sscanfDec (ds ++ rest) = some (numeral 10 ds : ℤ) := by
  obtain ⟨d, ds, rfl⟩ := List.exists_cons_of_ne_nil hne
  have hsign := scanSign_of_isxdigit (ds ++ rest) (isxdigit_of_isdigit (hds d (by simp)))
  rw [sscanfDec, List.cons_append, hsign]
  exact scanDigits_append false hne hds hrest

/-! ### `sprintf` -/

/-- A digit as `%x` prints it. -/
def hexDigit (d : ℕ) : Char := Char.ofNat (if d < 10 then 48 + d else 87 + d)

/-- `sprintf("%0*x", w, n)` -/
def sprintfHex (w n : ℕ) : List Char :=
  ((Nat.digits 16 n).reverse.map hexDigit).leftpad w '0'

theorem toNat_hexDigit {d : ℕ} (h : d < 16) :
    (hexDigit d).toNat = if d < 10 then 48 + d else 87 + d :=
  toNat_ofNat (by split_ifs <;> omega)

theorem isxdigit_hexDigit {d : ℕ} (h : d < 16) : isxdigit (hexDigit d) = true := by
  simp only [isxdigit, isdigit, toNat_hexDigit h, Bool.or_eq_true, Bool.and_eq_true,
    decide_eq_true_eq]
  split_ifs <;> omega

theorem digitVal_hexDigit {d : ℕ} (h : d < 16) : digitVal (hexDigit d) = d := by
  rw [digitVal, toNat_hexDigit h]
  split_ifs <;> omega

theorem isxdigit_sprintfHex (w n : ℕ) : ∀ c ∈ sprintfHex w n, isxdigit c = true := by
  intro c hc
  rw [sprintfHex, List.leftpad, List.mem_append] at hc
  rcases hc with hc | hc
  · rw [(List.mem_replicate.mp hc).2]
    rfl
  · obtain ⟨d, hd, rfl⟩ := List.mem_map.mp hc
    exact isxdigit_hexDigit (Nat.digits_lt_base (by decide) (List.mem_reverse.mp hd))

theorem length_sprintfHex {w n : ℕ} (h : n < 16 ^ w) : (sprintfHex w n).length = w := by
  have hlen : (Nat.digits 16 n).length ≤ w := (Nat.digits_length_le_iff (by decide) n).mpr h
  simp only [sprintfHex, List.leftpad, List.length_append, List.length_replicate,
    List.length_map, List.length_reverse]
  omega

theorem numeral_replicate_zero (b k : ℕ) : numeral b (List.replicate k '0') = 0 := by
  induction k with
  | zero => rfl
  | succ k ih =>
    rw [List.replicate_succ', numeral_append, ih]
    rfl

theorem numeral_reverse (b : ℕ) (ds : List ℕ) (f : ℕ → Char)
    (hf : ∀ d ∈ ds, digitVal (f d) = d) :
    numeral b (ds.reverse.map f) = Nat.ofDigits b ds := by
  induction ds with
  | nil => rfl
  | cons d ds ih =>
    rw [List.reverse_cons, List.map_append, numeral_append, ih fun e he => hf e (by simp [he]),
      Nat.ofDigits_cons]
    show b ^ 1 * _ + (b * 0 + digitVal (f d)) = _
    rw [hf d (by simp)]
    ring

/-- **What is printed reads back.** -/
theorem numeral_sprintfHex (w n : ℕ) : numeral 16 (sprintfHex w n) = n := by
  have hdigits : ∀ d ∈ Nat.digits 16 n, digitVal (hexDigit d) = d := fun d hd =>
    digitVal_hexDigit (Nat.digits_lt_base (by decide) hd)
  rw [sprintfHex, List.leftpad, numeral_append, numeral_replicate_zero,
    numeral_reverse 16 _ _ hdigits, Nat.ofDigits_digits, Nat.mul_zero, Nat.zero_add]

end CText
