/-
Dan64/DasmLiteral.lean

When `get_value` reads the literal that stands at the front of a text.

The value is what `sscanf` converts, the extent is what a loop of its own counts,
and nothing compares the two.  They are of the same literal unless `sscanf` passes
over something first, white space, a sign or a `0x`, or the literal is too long
for the 16-bit value or for the `uint8_t` counter.  `Misread` lists these texts;
on every other one `get_value` is exact (`getValue_exact_iff`).
-/
import Dan64.DasmNumber

namespace Dan64

open CText

/-! ### Literals with what follows them -/

/-- A whole literal, with its value, in front of the rest of a text. -/
inductive Whole : Text → ℕ → Text → Prop
  | dec {ds rest} : ds ≠ [] → (∀ c ∈ ds, isdigit c = true) → Stops isdigit rest →
      Whole ds (numeral 10 ds) rest
  | hex {ds rest} : ds ≠ [] → (∀ c ∈ ds, isxdigit c = true) → Stops isxdigit rest →
      Whole ('$' :: ds) (numeral 16 ds) rest

/-- `get_value` is exact on a text: what it reads is the whole literal at the front
and its value, and it returns -1 for a literal above 65535 and for a `$` without a
hexadecimal digit. -/
structure Exact (p : Text) : Prop where
  reads : ∀ n v, getValue p = .ok (n, v) →
    ∃ lit x rest, p = lit ++ rest ∧ Whole lit x rest ∧ n = lit.length ∧ v.toNat = x
  large : ∀ lit x rest, p = lit ++ rest → Whole lit x rest → 65535 < x →
    getValue p = .error .refused
  dollar : ∀ s, p = '$' :: s → Stops isxdigit s → getValue p = .error .refused

/-- What `sscanf` takes in front of the digits. -/
def Passed (ws : Text) : Prop := ∃ blank sign, ws = blank ++ sign ∧ Blank blank ∧
  (sign = [] ∨ sign = ['-'] ∨ sign = ['+'])

/-- The texts that `get_value` misreads: a number apart from the `$` or the front, a
number behind a `0x` that is not 0 in 16 bits, a literal above 65535, and one with
255 hexadecimal digits or more. -/
inductive Misread : Text → Prop
  | decApart {ws c rest} : ws ≠ [] → Passed ws → isdigit c = true → Misread (ws ++ c :: rest)
  | hexApart {ws s} : ws ≠ [] → Passed ws → (∃ c ∈ (scanPrefix s).head?, isxdigit c = true) →
      Misread ('$' :: (ws ++ s))
  | prefixed {x ds rest} : x = 'x' ∨ x = 'X' → (∀ c ∈ ds, isxdigit c = true) →
      Stops isxdigit rest → ¬ 65536 ∣ numeral 16 ds → Misread ('$' :: '0' :: x :: (ds ++ rest))
  | large {lit v rest} : Whole lit v rest → 65535 < v → Misread (lit ++ rest)
  | long {ds rest} : 255 ≤ ds.length → (∀ c ∈ ds, isxdigit c = true) → Stops isxdigit rest →
      Misread ('$' :: (ds ++ rest))

/-! ### What is passed over -/

/-- The sign is split off. -/
theorem exists_sign (s : Text) :
    ∃ sign, s = sign ++ (scanSign s).2 ∧ (sign = [] ∨ sign = ['-'] ∨ sign = ['+']) ∧
      (scanSign s).1 = decide (sign = ['-']) := by
  unfold scanSign
  split
  · exact ⟨['-'], rfl, .inr (.inl rfl), rfl⟩
  · exact ⟨['+'], rfl, .inr (.inr rfl), rfl⟩
  · exact ⟨[], rfl, .inl rfl, rfl⟩

/-- So is everything in front of the digits. -/
theorem exists_passed (s : Text) :
    ∃ ws, Passed ws ∧ s = ws ++ (scanSign (s.dropWhile isspace)).2 := by
  obtain ⟨sign, hsplit, hsign, -⟩ := exists_sign (s.dropWhile isspace)
  refine ⟨s.takeWhile isspace ++ sign, ⟨_, sign, rfl, blank_takeWhile s, hsign⟩, ?_⟩
  rw [List.append_assoc, ← hsplit]
  exact List.takeWhile_append_dropWhile.symm

/-- What is passed over, if anything, starts with neither a digit nor a `$`. -/
theorem Passed.head {ws : Text} (h : Passed ws) (hne : ws ≠ []) :
    ∃ c t, ws = c :: t ∧ isxdigit c = false ∧ c ≠ '$' := by
  obtain ⟨blank, sign, rfl, hblank, hsign⟩ := h
  rcases blank with - | ⟨w, blank⟩
  · rcases hsign with rfl | rfl | rfl
    · exact absurd rfl hne
    · exact ⟨'-', [], rfl, rfl, by decide⟩
    · exact ⟨'+', [], rfl, rfl, by decide⟩
  · have hw := hblank w (by simp)
    exact ⟨w, blank ++ sign, rfl, not_isxdigit_of_isspace hw, ne_of_class hw rfl⟩

/-- It is passed over in front of a digit. -/
theorem scanSign_passed {blank sign : Text} (hblank : Blank blank)
    (hsign : sign = [] ∨ sign = ['-'] ∨ sign = ['+']) {c : Char} (s : Text)
    (hc : isxdigit c = true) :
    scanSign ((blank ++ (sign ++ c :: s)).dropWhile isspace) =
      (decide (sign = ['-']), c :: s) := by
  rw [List.dropWhile_append_of_pos hblank]
  rcases hsign with rfl | rfl | rfl
  · exact scanSign_of_isxdigit s hc
  · rfl
  · rfl

theorem Passed.scanSign {ws : Text} (h : Passed ws) {c : Char} (s : Text)
    (hc : isxdigit c = true) :
    ∃ neg, scanSign ((ws ++ c :: s).dropWhile isspace) = (neg, c :: s) := by
  obtain ⟨blank, sign, rfl, hblank, hsign⟩ := h
  rw [List.append_assoc]
  exact ⟨_, scanSign_passed hblank hsign s hc⟩

theorem scanDigits_isSome {b : ℕ} {digit : Char → Bool} (neg : Bool) {s : Text}
    (h : ∃ c ∈ s.head?, digit c = true) : (scanDigits b digit neg s).isSome = true := by
  obtain ⟨c, hc, hdigit⟩ := h
  obtain ⟨t, rfl⟩ := List.head?_eq_some_iff.mp hc
  rw [scanDigits, List.takeWhile_cons_of_pos hdigit]
  rfl

/-- Digits with something in front that is passed over are converted. -/
theorem Passed.sscanfDec {ws : Text} (h : Passed ws) {c : Char} (s : Text)
    (hc : isdigit c = true) : ∃ x, sscanfDec (ws ++ c :: s) = some x := by
  obtain ⟨neg, hsign⟩ := h.scanSign s (isxdigit_of_isdigit hc)
  rw [CText.sscanfDec, hsign]
  exact Option.isSome_iff_exists.mp (scanDigits_isSome neg ⟨c, rfl, hc⟩)

theorem Passed.sscanfHex {ws s : Text} (h : Passed ws)
    (hs : ∃ c ∈ (scanPrefix s).head?, isxdigit c = true) :
    ∃ x, sscanfHex (ws ++ s) = some x := by
  obtain ⟨c, hc, hdigit⟩ := scanPrefix_head hs
  obtain ⟨t, rfl⟩ := List.head?_eq_some_iff.mp hc
  obtain ⟨neg, hsign⟩ := h.scanSign t hdigit
  rw [CText.sscanfHex, hsign]
  exact Option.isSome_iff_exists.mp (scanDigits_isSome neg hs)

/-- A number is read where no digit stands at the front only if something is passed
over. -/
theorem decApart_of_some {p : Text} {x : ℤ} (hstop : Stops isdigit p)
    (h : sscanfDec p = some x) : Misread p := by
  obtain ⟨ws, hws, hsplit⟩ := exists_passed p
  have hhead : ∃ c ∈ (scanSign (p.dropWhile isspace)).2.head?, isdigit c = true :=
    scanDigits_some h
  obtain ⟨c, hc, hdigit⟩ := hhead
  obtain ⟨t, ht⟩ := List.head?_eq_some_iff.mp hc
  rw [ht] at hsplit
  rw [hsplit]
  refine .decApart ?_ hws hdigit
  rintro rfl
  have hfront := hstop c (by rw [hsplit]; rfl)
  rw [hdigit] at hfront
  cases hfront

theorem hexApart_of_some {s : Text} {x : ℤ} (hstop : Stops isxdigit s)
    (h : sscanfHex s = some x) : Misread ('$' :: s) := by
  obtain ⟨ws, hws, hsplit⟩ := exists_passed s
  have hhead := scanDigits_some h
  rw [hsplit]
  refine .hexApart ?_ hws hhead
  rintro rfl
  obtain ⟨c, hc, hdigit⟩ := scanPrefix_head hhead
  have hfront := hstop c (by rw [hsplit]; exact hc)
  rw [hdigit] at hfront
  cases hfront

/-! ### Every text -/

/-- The digits behind a `$0x` are converted, and the 0 is counted. -/
theorem getValue_prefixed {x : Char} (hx : x = 'x' ∨ x = 'X') {ds rest : Text}
    (hds : ∀ c ∈ ds, isxdigit c = true) (hstop : Stops isxdigit rest) :
    getValue ('$' :: '0' :: x :: (ds ++ rest)) =
      if ds = [] then .error .refused else .ok (2, BitVec.ofNat 16 (numeral 16 ds)) := by
  have hscan : sscanfHex ('0' :: x :: (ds ++ rest))
      = if ds = [] then none else some (numeral 16 ds : ℤ) := by
    have hskip : sscanfHex ('0' :: x :: (ds ++ rest))
        = scanDigits 16 isxdigit false (ds ++ rest) := by
      rcases hx with rfl | rfl <;> rfl
    rw [hskip, scanDigits, takeWhile_append_stops hds hstop]
    rfl
  have hcount : ('0' :: x :: (ds ++ rest)).takeWhile isxdigit = ['0'] := by
    rcases hx with rfl | rfl <;> rfl
  rw [getValue_dollar_eq, hscan, hcount]
  by_cases hne : ds = []
  · rw [if_pos hne, if_pos hne]
  · rw [if_neg hne, if_neg hne]
    exact congrArg (fun x => Except.ok (2, x)) (BitVec.ofInt_natCast _ _)

/-! ### Whole literals -/

theorem Whole.length_pos {lit rest : Text} {x : ℕ} (h : Whole lit x rest) : 0 < lit.length := by
  cases h with
  | dec hne => exact List.length_pos_of_ne_nil hne
  | hex => exact Nat.succ_pos _

/-- A run of digits is a whole one. -/
theorem run_unique {digit : Char → Bool} {ds rest ds' rest' : Text}
    (h : ds ++ rest = ds' ++ rest') (hds : ∀ c ∈ ds, digit c = true) (hstop : Stops digit rest)
    (hds' : ∀ c ∈ ds', digit c = true) (hstop' : Stops digit rest') : ds = ds' := by
  rw [← takeWhile_append_stops hds hstop, h, takeWhile_append_stops hds' hstop']

/-- Behind a `$` the whole literal is the run of hexadecimal digits. -/
theorem Whole.dollar {lit rest s : Text} {x : ℕ} (h : Whole lit x rest)
    (hp : '$' :: s = lit ++ rest) :
    ∃ ds, lit = '$' :: ds ∧ s = ds ++ rest ∧ ds ≠ [] ∧ (∀ c ∈ ds, isxdigit c = true) ∧
      Stops isxdigit rest ∧ x = numeral 16 ds := by
  cases h with
  | dec hne hds =>
    obtain ⟨d, ds, rfl⟩ := List.exists_cons_of_ne_nil hne
    obtain rfl : '$' = d := (List.cons.inj hp).1
    exact absurd (hds '$' (by simp)) (by decide)
  | hex hne hds hstop => exact ⟨_, rfl, (List.cons.inj hp).2, hne, hds, hstop, rfl⟩

/-- Elsewhere it is the run of decimal digits. -/
theorem Whole.digits {lit rest p : Text} {x : ℕ} (h : Whole lit x rest) (hp : p = lit ++ rest)
    (hdollar : ∀ c ∈ p.head?, c ≠ '$') :
    lit ≠ [] ∧ (∀ c ∈ lit, isdigit c = true) ∧ Stops isdigit rest ∧ x = numeral 10 lit := by
  cases h with
  | dec hne hds hstop => exact ⟨hne, hds, hstop, rfl⟩
  | hex => exact absurd rfl (hdollar '$' (by rw [hp]; rfl))

/-! ### When `get_value` is exact -/

/-- A literal has a character. -/
theorem not_exact_of_zero {p : Text} {v : Word} (hp : getValue p = .ok (0, v)) : ¬ Exact p := by
  intro hexact
  obtain ⟨lit, x, rest, -, hlit, hn, -⟩ := hexact.reads 0 v hp
  exact absurd hn hlit.length_pos.ne

theorem not_exact_decApart {ws rest : Text} {c : Char} (hne : ws ≠ []) (hws : Passed ws)
    (hc : isdigit c = true) : ¬ Exact (ws ++ c :: rest) := by
  obtain ⟨x, hx⟩ := hws.sscanfDec rest hc
  obtain ⟨w, t, rfl, hw, hdollar⟩ := hws.head hne
  rw [isxdigit, Bool.or_eq_false_iff, Bool.or_eq_false_iff] at hw
  have hstop : Stops isdigit ((w :: t) ++ c :: rest) := fun d hd => Option.some.inj hd ▸ hw.1.1
  have hhead : ∀ d ∈ ((w :: t) ++ c :: rest).head?, d ≠ '$' :=
    fun d hd => Option.some.inj hd ▸ hdollar
  have hcons : (w :: t) ++ c :: rest ≠ [] := List.cons_ne_nil _ _
  refine @not_exact_of_zero _ (BitVec.ofInt 16 x) ?_
  rw [getValue_eq hcons hhead, takeWhile_eq_nil hstop, hx]
  rfl

theorem not_exact_prefixed {x : Char} {ds rest : Text} (hx : x = 'x' ∨ x = 'X')
    (hds : ∀ c ∈ ds, isxdigit c = true) (hstop : Stops isxdigit rest)
    (hdvd : ¬ 65536 ∣ numeral 16 ds) : ¬ Exact ('$' :: '0' :: x :: (ds ++ rest)) := by
  have hne : ds ≠ [] := by
    rintro rfl
    exact hdvd (dvd_zero _)
  intro hexact
  have hread := getValue_prefixed hx hds hstop
  rw [if_neg hne] at hread
  obtain ⟨lit, y, rest', hp, hlit, -, hv⟩ := hexact.reads _ _ hread
  obtain ⟨ds', -, hp', -, hds', hstop', rfl⟩ := hlit.dollar hp
  -- the literal is the 0
  have hrun : ['0'] = ds' := by
    refine @run_unique isxdigit ['0'] (x :: (ds ++ rest)) _ _ hp' (by simp [isxdigit, isdigit])
      (fun d hd => ?_) hds' hstop'
    obtain rfl : x = d := Option.some.inj hd
    rcases hx with rfl | rfl <;> rfl
  rw [← hrun, BitVec.toNat_ofNat] at hv
  exact hdvd (Nat.dvd_of_mod_eq_zero hv)

/-- **A misread text** is not read exactly. -/
theorem Misread.not_exact {p : Text} (h : Misread p) : ¬ Exact p := by
  cases h with
  | decApart hne hws hc => exact not_exact_decApart hne hws hc
  | @hexApart ws s hne hws hs =>
    obtain ⟨x, hx⟩ := hws.sscanfHex hs
    obtain ⟨w, t, rfl, hw, -⟩ := hws.head hne
    intro hexact
    have hrefused := hexact.dollar _ rfl fun d hd => Option.some.inj hd ▸ hw
    rw [getValue_dollar_eq, hx] at hrefused
    cases hrefused
  | prefixed hx hds hstop hdvd => exact not_exact_prefixed hx hds hstop hdvd
  | @large lit x rest hlit hx =>
    intro hexact
    have hrefused := hexact.large _ _ _ rfl hlit hx
    cases hlit with
    | dec hne hds hstop =>
      rw [getValue_digits hne hds hstop] at hrefused
      split at hrefused <;> cases hrefused
    | hex hne hds hstop =>
      rw [List.cons_append, getValue_xdigits hne hds hstop] at hrefused
      · cases hrefused
      · rintro rfl
        exact absurd hx (by decide)
  | @long ds rest hlong hds hstop =>
    have hne : ds ≠ [] := by
      rintro rfl
      exact absurd hlong (by decide)
    refine @not_exact_of_zero _ (BitVec.ofNat 16 (numeral 16 ds)) ?_
    rw [getValue_xdigits hne hds hstop, if_neg (by omega)]
    rintro rfl
    exact absurd hlong (by decide)

/-- The value of a literal that is not above 65535. -/
theorem toNat_numeral {v : ℕ} (h : v ≤ 65535) : (BitVec.ofNat 16 v).toNat = v := by
  rw [BitVec.toNat_ofNat]
  omega

/-- What is read behind a `$`. -/
theorem reads_dollar {s : Text} (h : ¬ Misread ('$' :: s)) {n : ℕ} {v : Word}
    (hread : getValue ('$' :: s) = .ok (n, v)) :
    ∃ lit x rest, '$' :: s = lit ++ rest ∧ Whole lit x rest ∧ n = lit.length ∧ v.toNat = x := by
  obtain ⟨ds, rest, rfl, hds, hstop⟩ := exists_run isxdigit s
  by_cases hne : ds = []
  · subst hne
    rw [List.nil_append, getValue_dollar_eq] at hread
    rcases hscan : sscanfHex rest with - | x
    · rw [hscan] at hread
      cases hread
    · exact absurd (hexApart_of_some hstop hscan) h
  by_cases hx : ds = ['0'] → ∀ c ∈ rest.head?, c ≠ 'x' ∧ c ≠ 'X'
  · have hshort : ds.length < 255 := by
      by_contra hlong
      exact h (.long (not_lt.mp hlong) hds hstop)
    have hfits : numeral 16 ds ≤ 65535 := by
      by_contra hlarge
      exact h (@Misread.large ('$' :: ds) _ rest (.hex hne hds hstop) (not_le.mp hlarge))
    rw [getValue_xdigits hne hds hstop hx, if_pos hshort] at hread
    cases hread
    exact ⟨'$' :: ds, _, rest, rfl, .hex hne hds hstop, Nat.add_comm _ _, toNat_numeral hfits⟩
  · -- a 0 with an `x` behind it
    obtain ⟨rfl, x, hx, hxx⟩ : ds = ['0'] ∧ ∃ x ∈ rest.head?, x = 'x' ∨ x = 'X' := by
      push Not at hx
      obtain ⟨hzero, x, hx, hxx⟩ := hx
      exact ⟨hzero, x, hx, or_iff_not_imp_left.mpr hxx⟩
    obtain ⟨t, rfl⟩ := List.head?_eq_some_iff.mp hx
    obtain ⟨ds, rest, rfl, hds', hstop'⟩ := exists_run isxdigit t
    have hdvd : 65536 ∣ numeral 16 ds := by
      by_contra hdvd
      exact h (.prefixed hxx hds' hstop' hdvd)
    rw [List.singleton_append, getValue_prefixed hxx hds' hstop'] at hread
    split at hread
    · cases hread
    · cases hread
      refine ⟨['$', '0'], _, _, rfl, .hex hne hds hstop, rfl, ?_⟩
      rw [BitVec.toNat_ofNat]
      exact Nat.mod_eq_zero_of_dvd hdvd

/-- What is read elsewhere. -/
theorem reads_digits {p : Text} (h : ¬ Misread p) (hp : ∀ c ∈ p.head?, c ≠ '$') {n : ℕ} {v : Word}
    (hread : getValue p = .ok (n, v)) :
    ∃ lit x rest, p = lit ++ rest ∧ Whole lit x rest ∧ n = lit.length ∧ v.toNat = x := by
  have hp0 : p ≠ [] := by
    rintro rfl
    cases hread
  obtain ⟨ds, rest, rfl, hds, hstop⟩ := exists_run isdigit p
  by_cases hne : ds = []
  · subst hne
    rw [List.nil_append] at hp0 hp hread h
    rw [getValue_eq hp0 hp, takeWhile_eq_nil hstop] at hread
    rcases hscan : sscanfDec rest with - | x
    · rw [hscan] at hread
      cases hread
    · exact absurd (decApart_of_some hstop hscan) h
  · have hfits : numeral 10 ds ≤ 65535 := by
      by_contra hlarge
      exact h (.large (.dec hne hds hstop) (not_le.mp hlarge))
    rw [getValue_digits hne hds hstop] at hread
    split at hread
    · cases hread
    · cases hread
      exact ⟨ds, _, rest, rfl, .dec hne hds hstop, rfl, toNat_numeral hfits⟩

/-- **`get_value` is exact** on a text exactly when it is not one of those it misreads. -/
theorem getValue_exact_iff (p : Text) : Exact p ↔ ¬ Misread p := by
  refine ⟨fun hexact h => h.not_exact hexact, fun h => ⟨fun n v hread => ?_, ?_, ?_⟩⟩
  · by_cases hp : p.head? = some '$'
    · obtain ⟨s, rfl⟩ := List.head?_eq_some_iff.mp hp
      exact reads_dollar h hread
    · refine reads_digits h ?_ hread
      rintro c hc rfl
      exact hp hc
  · rintro lit x rest rfl hlit hx
    exact absurd (.large hlit hx) h
  · rintro s rfl hstop
    rw [getValue_dollar_eq]
    rcases hscan : sscanfHex s with - | x
    · rfl
    · exact absurd (hexApart_of_some hstop hscan) h

/-- `-5` is read, 0 characters of it, and `65541` is read as 5. -/
theorem misread_number :
    getValue "-5".toList = .ok (0, 0xfffb) ∧ ¬ Exact "-5".toList ∧
      getValue "65541".toList = .ok (5, 5) ∧ ¬ Exact "65541".toList := by
  have hminus : Misread "-5".toList :=
    @Misread.decApart ['-'] '5' [] (by decide) ⟨[], ['-'], rfl, .nil, .inr (.inl rfl)⟩ rfl
  have hlarge : Misread "65541".toList :=
    @Misread.large "65541".toList 65541 [] (.dec (by decide) (List.all_eq_true.mp rfl) .nil)
      (by decide)
  exact ⟨by decide, hminus.not_exact, by decide, hlarge.not_exact⟩

end Dan64
