/-
Dan64/DasmNumber.lean

What `get_value` reads, over every text.

`get_value` converts with `sscanf` and counts with a loop of its own.  The two
agree on a literal (`getValue_literal`); this module says what there is when
`get_value` succeeds.  Either a literal stands at the front and is counted whole,
or nothing was counted and the number, with a sign or white space before it, is
still there to be read (`getValue_hex`, `getValue_dec`).
-/
import Dan64.DasmLine

namespace Dan64

open CText

/-! ### Runs of digits -/

theorem stops_dropWhile (digit : Char → Bool) (s : Text) : Stops digit (s.dropWhile digit) := by
  have h := List.head?_dropWhile_not digit s
  intro c hc
  rw [Option.mem_def.mp hc] at h
  exact h

/-- A text is a run of digits and what does not continue it. -/
theorem exists_run (digit : Char → Bool) (s : Text) :
    ∃ ds rest, s = ds ++ rest ∧ (∀ c ∈ ds, digit c = true) ∧ Stops digit rest :=
  ⟨s.takeWhile digit, s.dropWhile digit, List.takeWhile_append_dropWhile.symm,
    fun _ hc => List.mem_takeWhile_imp hc, stops_dropWhile digit s⟩

theorem takeWhile_eq_nil {digit : Char → Bool} {s : Text} (h : Stops digit s) :
    s.takeWhile digit = [] := by
  rcases s with - | ⟨c, s⟩
  · rfl
  · exact List.takeWhile_cons_of_neg (by simp [h c rfl])

theorem dropWhile_append_stops {digit : Char → Bool} {ds rest : Text}
    (hds : ∀ c ∈ ds, digit c = true) (hrest : Stops digit rest) :
    (ds ++ rest).dropWhile digit = rest := by
  rw [List.dropWhile_append_of_pos hds]
  rcases rest with - | ⟨c, rest⟩
  · rfl
  · exact List.dropWhile_cons_of_neg (by simp [hrest c rfl])

/-! ### White space in front -/

theorem blank_takeWhile (s : Text) : Blank (s.takeWhile isspace) :=
  fun _ hc => List.mem_takeWhile_imp hc

theorem takeWhile_append_skipWhitespace (s : Text) :
    s.takeWhile isspace ++ skipWhitespace s = s :=
  List.takeWhile_append_dropWhile

theorem skipWhitespace_skipWhitespace (s : Text) :
    skipWhitespace (skipWhitespace s) = skipWhitespace s := by
  rcases h : skipWhitespace s with - | ⟨c, t⟩
  · rfl
  · exact skipWhitespace_cons (stops_dropWhile isspace s c (by rw [← skipWhitespace, h]; rfl)) t

theorem not_isdigit_of_isspace {c : Char} (h : isspace c = true) : isdigit c = false := by
  have hx := not_isxdigit_of_isspace h
  rw [isxdigit, Bool.or_eq_false_iff, Bool.or_eq_false_iff] at hx
  exact hx.1.1

theorem numeral_le_numeral {b b' : ℕ} (h : b ≤ b') (ds : Text) :
    numeral b ds ≤ numeral b' ds := by
  induction ds using List.reverseRecOn with
  | nil => exact le_rfl
  | append_singleton ds d ih =>
    simp only [numeral, List.foldl_append, List.foldl_cons, List.foldl_nil] at ih ⊢
    gcongr

theorem numeral_hex_le {ds : Text} : numeral 16 ds ≤ numeral 10 ds ^ 2 := by
  induction ds using List.reverseRecOn with
  | nil => exact le_rfl
  | append_singleton ds d ih =>
    simp only [numeral, List.foldl_append, List.foldl_cons, List.foldl_nil] at ih ⊢
    set m := ds.foldl (fun n c => 10 * n + digitVal c) 0
    have hd : digitVal d ≤ digitVal d ^ 2 := Nat.le_self_pow two_ne_zero _
    have hexp : (10 * m + digitVal d) ^ 2
        = 100 * m ^ 2 + 20 * (m * digitVal d) + digitVal d ^ 2 := by ring
    omega

/-! ### `sscanf` -/

/-- A character that a conversion may start with. -/
def Signed (digit : Char → Bool) (c : Char) : Prop := digit c = true ∨ c = '-' ∨ c = '+'

instance (digit : Char → Bool) (c : Char) : Decidable (Signed digit c) :=
  inferInstanceAs (Decidable (_ ∨ _))

theorem scanDigits_some {b : ℕ} {digit : Char → Bool} {neg : Bool} {s : Text} {x : ℤ}
    (h : scanDigits b digit neg s = some x) : ∃ c ∈ s.head?, digit c = true := by
  rcases s with - | ⟨c, s⟩
  · cases h
  · refine ⟨c, rfl, ?_⟩
    by_contra hc
    rw [scanDigits, List.takeWhile_cons_of_neg hc, if_pos rfl] at h
    cases h

theorem scanSign_head {s : Text} {digit : Char → Bool}
    (h : ∃ c ∈ (scanSign s).2.head?, digit c = true) : ∃ c ∈ s.head?, Signed digit c := by
  obtain ⟨c, hc, hdigit⟩ := h
  unfold scanSign at hc
  split at hc
  · exact ⟨'-', rfl, .inr (.inl rfl)⟩
  · exact ⟨'+', rfl, .inr (.inr rfl)⟩
  · exact ⟨c, hc, .inl hdigit⟩

theorem scanPrefix_head {s : Text} (h : ∃ c ∈ (scanPrefix s).head?, isxdigit c = true) :
    ∃ c ∈ s.head?, isxdigit c = true := by
  obtain ⟨c, hc, hdigit⟩ := h
  unfold scanPrefix at hc
  split at hc
  · exact ⟨'0', rfl, rfl⟩
  · exact ⟨'0', rfl, rfl⟩
  · exact ⟨c, hc, hdigit⟩

/-- What `%x` converts starts, behind white space, with a digit or a sign. -/
theorem sscanfHex_some {s : Text} {x : ℤ} (h : sscanfHex s = some x) :
    ∃ c ∈ (skipWhitespace s).head?, Signed isxdigit c :=
  scanSign_head (scanPrefix_head (scanDigits_some h))

theorem sscanfDec_some {s : Text} {x : ℤ} (h : sscanfDec s = some x) :
    ∃ c ∈ (skipWhitespace s).head?, Signed isdigit c :=
  scanSign_head (scanDigits_some h)

/-- White space in front of a number is passed over. -/
theorem sscanfHex_blank {ws : Text} (h : Blank ws) (s : Text) :
    sscanfHex (ws ++ s) = sscanfHex s := by
  rw [sscanfHex, sscanfHex, List.dropWhile_append_of_pos h]

theorem skipWhitespace_digits {ds : Text} (hne : ds ≠ []) (hds : ∀ c ∈ ds, isdigit c = true)
    (rest : Text) : skipWhitespace (ds ++ rest) = ds ++ rest := by
  obtain ⟨d, ds, rfl⟩ := List.exists_cons_of_ne_nil hne
  refine skipWhitespace_cons (Bool.eq_false_iff.mpr fun hsp => ?_) _
  have hd := hds d (by simp)
  rw [not_isdigit_of_isspace hsp] at hd
  exact Bool.false_ne_true hd

/-! ### `get_value` -/

/-- A computation that succeeds succeeds in its first step. -/
theorem bind_ok {ε α β : Type} {m : Except ε α} {f : α → Except ε β} {b : β}
    (h : m >>= f = .ok b) : ∃ a, m = .ok a ∧ f a = .ok b := by
  rcases m with e | a
  · cases h
  · exact ⟨a, rfl, h⟩

theorem bind_error {ε α β : Type} {m : Except ε α} {f : α → Except ε β} {e : ε}
    (h : m >>= f = .error e) : m = .error e ∨ ∃ a, m = .ok a ∧ f a = .error e := by
  rcases m with e' | a
  · cases h
    exact .inl rfl
  · exact .inr ⟨a, rfl, h⟩

theorem getValue_dollar_eq (s : Text) :
    getValue ('$' :: s) = match sscanfHex s with
      | none => .error .refused
      | some x => .ok (if (s.takeWhile isxdigit).length < 255
          then 1 + (s.takeWhile isxdigit).length else 0, BitVec.ofInt 16 x) := by
  rcases h : sscanfHex s with - | x
  · rw [getValue, h]
  · rw [getValue, h]

theorem getValue_eq {p : Text} (hne : p ≠ []) (hp : ∀ c ∈ p.head?, c ≠ '$') :
    getValue p = if 256 ≤ (p.takeWhile isdigit).length then .error .hang else
      match sscanfDec p with
      | none => .error .refused
      | some x => .ok ((p.takeWhile isdigit).length, BitVec.ofInt 16 x) := by
  have hother : ∀ s, p = '$' :: s → False := by
    rintro s rfl
    exact hp '$' rfl rfl
  exact getValue.eq_3 p hne hother

theorem getValue_dollar {s : Text} (hlen : s.length < 255) :
    getValue ('$' :: s) = match sscanfHex s with
      | none => .error .refused
      | some x => .ok (1 + (s.takeWhile isxdigit).length, BitVec.ofInt 16 x) := by
  have hn : (s.takeWhile isxdigit).length < 255 :=
    (List.takeWhile_sublist _).length_le.trans_lt hlen
  rw [getValue_dollar_eq, if_pos hn]

theorem getValue_dollar_ok {s : Text} {n : ℕ} {v : Word} (hlen : s.length < 255)
    (h : getValue ('$' :: s) = .ok (n, v)) :
    ∃ x, sscanfHex s = some x ∧ n = 1 + (s.takeWhile isxdigit).length ∧ v = BitVec.ofInt 16 x := by
  rw [getValue_dollar hlen] at h
  split at h
  · cases h
  · next x hx =>
    cases h
    exact ⟨x, hx, rfl, rfl⟩

theorem getValue_other {p : Text} (hne : p ≠ []) (hp : ∀ c ∈ p.head?, c ≠ '$')
    (hlen : p.length < 256) :
    getValue p = match sscanfDec p with
      | none => .error .refused
      | some x => .ok ((p.takeWhile isdigit).length, BitVec.ofInt 16 x) := by
  have hn : ¬ 256 ≤ (p.takeWhile isdigit).length := by
    have hle := (List.takeWhile_sublist isdigit : (p.takeWhile isdigit).Sublist p).length_le
    omega
  rw [getValue_eq hne hp, if_neg hn]

theorem getValue_other_ok {p : Text} {n : ℕ} {v : Word} (hne : p ≠ [])
    (hp : ∀ c ∈ p.head?, c ≠ '$') (hlen : p.length < 256) (h : getValue p = .ok (n, v)) :
    ∃ x, sscanfDec p = some x ∧ n = (p.takeWhile isdigit).length ∧ v = BitVec.ofInt 16 x := by
  rw [getValue_other hne hp hlen] at h
  split at h
  · cases h
  · next x hx =>
    cases h
    exact ⟨x, hx, rfl, rfl⟩

/-- Decimal digits at the front. -/
theorem getValue_digits {ds rest : Text} (hne : ds ≠ []) (hds : ∀ c ∈ ds, isdigit c = true)
    (hstop : Stops isdigit rest) :
    getValue (ds ++ rest) = if 256 ≤ ds.length then .error .hang else
      .ok (ds.length, BitVec.ofNat 16 (numeral 10 ds)) := by
  have hhead : ∀ c ∈ (ds ++ rest).head?, c ≠ '$' := by
    obtain ⟨d, ds, rfl⟩ := List.exists_cons_of_ne_nil hne
    intro c hc
    obtain rfl : d = c := Option.some.inj hc
    exact ne_of_class (hds d (by simp)) rfl
  rw [getValue_eq (by simp [hne]) hhead, takeWhile_append_stops hds hstop,
    sscanfDec_append hne hds hstop]
  refine congrArg (ite _ _) ?_
  exact congrArg (fun x => Except.ok (ds.length, x)) (BitVec.ofInt_natCast _ _)

/-- Hexadecimal digits behind a `$`, unless they are a 0 that an `x` follows. -/
theorem getValue_xdigits {ds rest : Text} (hne : ds ≠ []) (hds : ∀ c ∈ ds, isxdigit c = true)
    (hstop : Stops isxdigit rest) (hx : ds = ['0'] → ∀ c ∈ rest.head?, c ≠ 'x' ∧ c ≠ 'X') :
    getValue ('$' :: (ds ++ rest)) =
      .ok (if ds.length < 255 then 1 + ds.length else 0, BitVec.ofNat 16 (numeral 16 ds)) := by
  rw [getValue_dollar_eq, sscanfHex_digits hne hds hstop hx, takeWhile_append_stops hds hstop]
  exact congrArg (fun x => Except.ok (ite _ _ _, x)) (BitVec.ofInt_natCast _ _)

/-- A hexadecimal literal in front is counted whole and read exactly, unless its
digits go on as a `0x`. -/
theorem getValue_hex {ds rest : Text} (hne : ds ≠ []) (hds : ∀ c ∈ ds, isxdigit c = true)
    (hrest : Stops isxdigit rest) (hx : ∀ c ∈ rest.head?, c ≠ 'x' ∧ c ≠ 'X')
    (hlen : ('$' :: (ds ++ rest)).length < 256) :
    getValue ('$' :: (ds ++ rest)) =
      .ok (('$' :: ds).length, BitVec.ofNat 16 (numeral 16 ds)) := by
  rw [List.length_cons, List.length_append] at hlen
  rw [getValue_xdigits hne hds hrest fun _ => hx, if_pos (by omega), List.length_cons,
    Nat.add_comm]

/-- A decimal literal in front is counted whole and read exactly. -/
theorem getValue_dec {ds rest : Text} (hne : ds ≠ []) (hds : ∀ c ∈ ds, isdigit c = true)
    (hrest : Stops isdigit rest) (hlen : (ds ++ rest).length < 256) :
    getValue (ds ++ rest) = .ok (ds.length, BitVec.ofNat 16 (numeral 10 ds)) := by
  rw [List.length_append] at hlen
  rw [getValue_digits hne hds hrest, if_neg (by omega)]

/-- **What `get_value` succeeds on**: a literal, or a number that it has not counted. -/
theorem literal_or_signed {p : Text} {n : ℕ} {v : Word} (hlen : p.length < 256)
    (h : getValue p = .ok (n, v)) :
    (∃ lit x, Literal lit x ∧ p = lit ++ p.drop n) ∨
      ∃ c ∈ (skipWhitespace (p.drop n)).head?, Signed isxdigit c := by
  rcases p with - | ⟨c, s⟩
  · cases h
  by_cases hc : c = '$'
  · subst hc
    obtain ⟨ds, rest, rfl, hds, hstop⟩ := exists_run isxdigit s
    obtain ⟨x, hx, hn, -⟩ := getValue_dollar_ok (Nat.lt_of_succ_lt_succ hlen) h
    rw [takeWhile_append_stops hds hstop, Nat.add_comm] at hn
    rw [hn, List.drop_succ_cons, List.drop_left]
    by_cases hne : ds = []
    · subst hne
      exact .inr (sscanfHex_some hx)
    · exact .inl ⟨'$' :: ds, _, .hex hne hds, rfl⟩
  · have hdollar : ∀ d ∈ (c :: s).head?, d ≠ '$' := fun d hd => Option.some.inj hd ▸ hc
    obtain ⟨x, hx, hn, -⟩ := getValue_other_ok (List.cons_ne_nil c s) hdollar hlen h
    obtain ⟨ds, rest, hs, hds, hstop⟩ := exists_run isdigit (c :: s)
    rw [hs, takeWhile_append_stops hds hstop] at hn
    rw [hs] at hx ⊢
    rw [hn, List.drop_left]
    by_cases hne : ds = []
    · subst hne
      obtain ⟨d, hd, hsigned⟩ := sscanfDec_some hx
      exact .inr ⟨d, hd, hsigned.imp_left isxdigit_of_isdigit⟩
    · exact .inl ⟨ds, _, .dec hne hds, rfl⟩

/-- Short of 256 characters the digit counter stops. -/
theorem getValue_error {p : Text} {e : Fault} (hlen : p.length < 256)
    (h : getValue p = .error e) : e = .refused := by
  rcases p with - | ⟨c, s⟩
  · cases h
    rfl
  by_cases hc : c = '$'
  · subst hc
    rw [getValue_dollar (Nat.lt_of_succ_lt_succ hlen)] at h
    split at h
    · cases h
      rfl
    · cases h
  · rw [getValue_other (List.cons_ne_nil c s) (fun d hd => Option.some.inj hd ▸ hc) hlen] at h
    split at h
    · cases h
      rfl
    · cases h

/-! ### The literals of a line -/

/-- The numeric literals of a line, as far as they stand outside its strings. -/
def literals (p : Text) : List ℕ :=
  match p with
  | [] => []
  | '"' :: s => literals (asString s).2.tail
  | '$' :: s =>
    let ds := s.takeWhile isxdigit
    if ds = [] then literals s else numeral 16 ds :: literals (s.dropWhile isxdigit)
  | c :: s =>
    if isdigit c then
      numeral 10 (c :: s.takeWhile isdigit) :: literals (s.dropWhile isdigit)
    else literals s
termination_by p.length
decreasing_by
  · have h := length_asString s
    rw [List.length_tail, List.length_cons]
    omega
  · exact Nat.lt_succ_self _
  · exact Nat.lt_succ_of_le (List.dropWhile_suffix _).length_le
  · exact Nat.lt_succ_of_le (List.dropWhile_suffix _).length_le
  · exact Nat.lt_succ_self _

/-- No literal of the line is above 65535. -/
def LiteralsFit (p : Text) : Prop := ∀ v ∈ literals p, v ≤ 65535

instance (p : Text) : Decidable (LiteralsFit p) := inferInstanceAs (Decidable (∀ v ∈ _, v ≤ _))

theorem literals_other {c : Char} (s : Text) (hq : c ≠ '"') (hd : c ≠ '$')
    (hc : isdigit c = false) : literals (c :: s) = literals s := by
  rw [literals]
  · exact if_neg (by simp [hc])
  · exact hq
  · exact hd

theorem literals_hex {ds rest : Text} (hne : ds ≠ []) (hds : ∀ c ∈ ds, isxdigit c = true)
    (hrest : Stops isxdigit rest) :
    literals ('$' :: (ds ++ rest)) = numeral 16 ds :: literals rest := by
  rw [literals, takeWhile_append_stops hds hrest, dropWhile_append_stops hds hrest]
  exact if_neg hne

theorem literals_apart {s : Text} (hs : Stops isxdigit s) :
    literals ('$' :: s) = literals s := by
  rw [literals, takeWhile_eq_nil hs]
  exact if_pos rfl

theorem literals_dec {ds rest : Text} (hne : ds ≠ []) (hds : ∀ c ∈ ds, isdigit c = true)
    (hrest : Stops isdigit rest) : literals (ds ++ rest) = numeral 10 ds :: literals rest := by
  obtain ⟨d, ds, rfl⟩ := List.exists_cons_of_ne_nil hne
  have hd := hds d (by simp)
  have hds' : ∀ c ∈ ds, isdigit c = true := fun c hc => hds c (List.mem_cons_of_mem d hc)
  rw [List.cons_append, literals]
  · rw [if_pos hd, takeWhile_append_stops hds' hrest, dropWhile_append_stops hds' hrest]
  · exact ne_of_class hd rfl
  · exact ne_of_class hd rfl

theorem literals_blank {ws : Text} (h : Blank ws) (rest : Text) :
    literals (ws ++ rest) = literals rest := by
  induction ws with
  | nil => rfl
  | cons c ws ih =>
    have hc := h c (by simp)
    have hcd : isdigit c = false := not_isdigit_of_isspace hc
    rw [List.cons_append, literals_other _ (ne_of_class hc rfl) (ne_of_class hc rfl) hcd,
      ih fun d hd => h d (List.mem_cons_of_mem c hd)]

theorem LiteralsFit.blank {ws rest : Text} (hws : Blank ws) (h : LiteralsFit (ws ++ rest)) :
    LiteralsFit rest := by
  rw [LiteralsFit, literals_blank hws] at h
  exact h

theorem LiteralsFit.skipWhitespace {p : Text} (h : LiteralsFit p) :
    LiteralsFit (skipWhitespace p) :=
  .blank (blank_takeWhile p) (by rwa [takeWhile_append_skipWhitespace])

/-- What is no letter has nothing else in upper case. -/
theorem eq_of_toupper {c d : Char} (hd : ¬ (65 ≤ d.toNat ∧ d.toNat ≤ 90)) (h : toupper c = d) :
    c = d := by
  have hn := toNat_toupper c
  rw [h] at hn
  split at hn
  · omega
  · exact Char.toNat_inj.mp hn.symm

theorem asString_toupper (s : Text) :
    (asString (s.map toupper)).2 = (asString s).2.map toupper := by
  fun_induction asString s with
  | case1 => rfl
  | case2 s => rfl
  | case3 s r ih => exact ih
  | case4 c s hc hesc r ih =>
    rw [List.map_cons, asString]
    · exact ih
    · exact fun h => hc (eq_of_toupper (by decide) h)
    · intro t hback ht
      obtain rfl : c = '\\' := eq_of_toupper (by decide) hback
      rcases s with - | ⟨d, s⟩
      · cases ht
      · obtain rfl : d = '"' := eq_of_toupper (by decide) (List.cons.inj ht).1
        exact hesc s rfl rfl

theorem takeWhile_toupper {digit : Char → Bool} (h : ∀ c, digit (toupper c) = digit c)
    (s : Text) : (s.map toupper).takeWhile digit = (s.takeWhile digit).map toupper := by
  rw [List.takeWhile_map]
  exact congrArg (fun q => (s.takeWhile q).map toupper) (funext h)

theorem dropWhile_toupper {digit : Char → Bool} (h : ∀ c, digit (toupper c) = digit c)
    (s : Text) : (s.map toupper).dropWhile digit = (s.dropWhile digit).map toupper := by
  rw [List.dropWhile_map]
  exact congrArg (fun q => (s.dropWhile q).map toupper) (funext h)

/-- The literals are the same in upper case. -/
theorem literals_toupper (p : Text) : literals (p.map toupper) = literals p := by
  fun_induction literals p with
  | case1 => rw [List.map_nil, literals]
  | case2 s ih =>
    show literals ('"' :: s.map toupper) = _
    rw [literals, asString_toupper, ← List.map_tail, ih]
  | case3 s ds hds ih =>
    show literals ('$' :: s.map toupper) = _
    rw [literals, takeWhile_toupper isxdigit_toupper, ← ih]
    exact if_pos (by rw [show s.takeWhile isxdigit = [] from hds]; rfl)
  | case4 s ds hds ih =>
    show literals ('$' :: s.map toupper) = _
    rw [literals, takeWhile_toupper isxdigit_toupper, dropWhile_toupper isxdigit_toupper, ih,
      numeral_map_toupper fun c hc => List.mem_takeWhile_imp hc]
    exact if_neg fun h => hds (List.map_eq_nil_iff.mp h)
  | case5 c s hq hd hc ih =>
    have hds : ∀ d ∈ c :: s.takeWhile isdigit, isxdigit d = true := by
      intro d hd
      rcases List.mem_cons.mp hd with rfl | hd
      · exact isxdigit_of_isdigit hc
      · exact isxdigit_of_isdigit (List.mem_takeWhile_imp hd)
    rw [List.map_cons, literals]
    · rw [if_pos (by rwa [isdigit_toupper]), takeWhile_toupper isdigit_toupper,
        dropWhile_toupper isdigit_toupper, ih]
      exact congrArg (· :: _) (numeral_map_toupper hds)
    · exact fun h => hq (eq_of_toupper (by decide) h)
    · exact fun h => hd (eq_of_toupper (by decide) h)
  | case6 c s hq hd hc ih =>
    rw [List.map_cons, literals_other, ih]
    · exact fun h => hq (eq_of_toupper (by decide) h)
    · exact fun h => hd (eq_of_toupper (by decide) h)
    · rw [isdigit_toupper]
      exact Bool.eq_false_iff.mpr hc

theorem literals_literal {lit rest : Text} {v : ℕ} (h : Literal lit v) (hrest : Follows rest) :
    literals (lit ++ rest) = v :: literals rest := by
  cases h with
  | hex hne hds => exact literals_hex hne hds hrest.not_isxdigit
  | dec hne hds => exact literals_dec hne hds hrest.not_isdigit

/-- The literal of an operand is one of the line. -/
theorem mem_literals_text {lit : Text} {v : ℕ} (h : Literal lit v) {f : Format}
    (hf : f ≠ .implied) (hf' : f ≠ .accumulator) (sp : Spaces) :
    v ∈ literals (f.text lit sp) := by
  obtain ⟨s1, s2, s3, s4, h1, h2, h3, h4⟩ := sp
  have hmem {rest : Text} (hrest : Follows rest) : v ∈ literals (lit ++ rest) := by
    rw [literals_literal h hrest]
    exact List.mem_cons_self
  have hopen {c : Char} {rest : Text} (hc : c = '#' ∨ c = '(') (hrest : Follows rest) :
      v ∈ literals (c :: (lit ++ rest)) := by
    rcases hc with rfl | rfl
    · rw [literals_other _ (by decide) (by decide) rfl]
      exact hmem hrest
    · rw [literals_other _ (by decide) (by decide) rfl]
      exact hmem hrest
  cases f with
  | implied => exact absurd rfl hf
  | accumulator => exact absurd rfl hf'
  | immediate => exact hopen (.inl rfl) (.of_blank h1)
  | direct => exact hmem (.of_blank h1)
  | directX | directY => exact hmem (.blank_append h1 (.comma _))
  | indirect => exact hopen (.inr rfl) (.blank_append h1 (.paren _))
  | indexedIndirect => exact hopen (.inr rfl) (.blank_append h1 (.comma _))
  | indirectIndexed => exact hopen (.inr rfl) (.blank_append h1 (.paren _))

/-- Letters are passed over. -/
theorem literals_mne {mne : Text} (h : IsMne mne) (rest : Text) :
    literals (mne ++ rest) = literals rest := by
  obtain ⟨-, hcap⟩ := h
  induction mne with
  | nil => rfl
  | cons c mne ih =>
    have hc : 65 ≤ c.toNat ∧ c.toNat ≤ 90 := hcap c (by simp)
    have hdigit : isdigit c = false := by
      rw [isdigit, decide_eq_false (show ¬ c.toNat ≤ 57 by omega), Bool.and_false]
    rw [List.cons_append, literals_other _ ?_ ?_ hdigit,
      ih fun d hd => hcap d (List.mem_cons_of_mem c hd)]
    · rintro rfl
      exact absurd hc (by decide)
    · rintro rfl
      exact absurd hc (by decide)

end Dan64
