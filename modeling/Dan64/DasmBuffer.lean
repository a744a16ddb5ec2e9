/-
Dan64/DasmBuffer.lean

The room for what `dasm_as` stores.

A call stores through `output` without knowing its size.  `cmd_as` gives it what
is behind the line in `buffer`; `main` of the standalone assembler gives it `op`,
the bytes of one instruction.  An instruction has no more than that, but a `.`
line stores what its items hold, also when it is refused at a later one.  `Holds`
says what a line begins with, without an account of where it is refused
(`holds_asData`, `Holds.length_le`).  A byte takes a character at least, so the
shell has room for every line it reads, and `op` is overrun by the `.` lines that
begin with more than three bytes (`fits_iff`).
-/
import Dan64.DasmData

namespace Dan64

open CText

/-! ### The callers -/

/-- `uint8_t buffer[128]`, with the line in its first half. -/
abbrev bufferSize : ℕ := 128

/-- `buffer + 64` -/
abbrev cmdAsOutput : ℕ := 64

/-- `uint8_t op[3]` -/
abbrev opSize : ℕ := 3

/-- What is stored fits in the buffer of either caller. -/
structure Fits (r : AsResult) : Prop where
  cmdAs : r.out.length ≤ bufferSize - cmdAsOutput
  standalone : r.out.length ≤ opSize

/-! ### What a line begins with -/

/-- Some characters of a string, and how many bytes they are. -/
inductive Chars : Text → ℕ → Prop
  | nil : Chars [] 0
  | quote {s n} : Chars s n → Chars ('\\' :: '"' :: s) (n + 1)
  | char {c s n} : c ≠ '"' → Chars s n → Chars (c :: s) (n + 1)

/-- Behind the dot the line begins with items that hold `n` bytes: commas, numbers
below 256 as `get_value` reads them, and strings, of which the last may go on or
not be closed. -/
inductive Holds : Text → ℕ → Prop
  | done (p : Text) : Holds p 0
  | comma {s n} : Holds (skipWhitespace s) n → Holds (',' :: s) n
  | number {c s n len v} : (isdigit c || c == '$') = true → getValue (c :: s) = .ok (len, v) →
      v ≤ 0xff#16 → Holds (skipWhitespace ((c :: s).drop len)) n → Holds (c :: s) (n + 1)
  | string {s bs rest n} : Quoted s bs → Holds (skipWhitespace rest) n →
      Holds ('"' :: (s ++ '"' :: rest)) (bs.length + n)
  | opened {s n} (rest : Text) : Chars s n → Holds ('"' :: (s ++ rest)) n

/-- A `.` line that begins with more bytes than `op` has. -/
def Overfull (line : Text) : Prop :=
  ∃ p n, skipWhitespace line = '.' :: p ∧ Holds p n ∧ opSize < n

/-! ### Strings -/

/-- Characters of a string that goes on are stored. -/
theorem Chars.length_le {s : Text} {n : ℕ} (h : Chars s n) (rest : Text) :
    n ≤ (asString (s ++ rest)).1.length := by
  induction h with
  | nil => exact Nat.zero_le _
  | quote _ ih =>
    rw [List.cons_append, List.cons_append, asString]
    exact Nat.succ_le_succ ih
  | @char c s n hc hs ih =>
    by_cases hesc : c = '\\' ∧ ∃ t, s ++ rest = '"' :: t
    · -- the backslash is the last of them, and a quote comes next
      obtain ⟨rfl, t, ht⟩ := hesc
      have hnil : s = [] ∧ n = 0 := by
        cases hs with
        | nil => exact ⟨rfl, rfl⟩
        | quote => exact absurd (List.cons.inj ht).1 (by decide)
        | char hc => exact absurd (List.cons.inj ht).1 hc
      rw [List.cons_append, ht, asString, hnil.2]
      exact Nat.succ_le_succ (Nat.zero_le _)
    · rw [List.cons_append, asString]
      · exact Nat.succ_le_succ ih
      · exact hc
      · exact fun t hback ht => hesc ⟨hback, t, ht⟩

/-- What is stored for a string is characters of it. -/
theorem chars_asString (s : Text) :
    ∃ t rest, s = t ++ rest ∧ Chars t (asString s).1.length := by
  fun_induction asString s with
  | case1 => exact ⟨[], [], rfl, .nil⟩
  | case2 s => exact ⟨[], '"' :: s, rfl, .nil⟩
  | case3 s r ih =>
    obtain ⟨t, rest, hs, ht⟩ := ih
    exact ⟨'\\' :: '"' :: t, rest, by rw [hs]; rfl, .quote ht⟩
  | case4 c s hc _ r ih =>
    obtain ⟨t, rest, hs, ht⟩ := ih
    exact ⟨c :: t, rest, by rw [hs]; rfl, .char (fun h => hc h) ht⟩

/-! ### Items -/

/-- A number has a digit or a `$`. -/
theorem getValue_pos {c : Char} {s : Text} {n : ℕ} {v : Word}
    (hc : (isdigit c || c == '$') = true) (hlen : (c :: s).length < 256)
    (h : getValue (c :: s) = .ok (n, v)) : n ≠ 0 := by
  rw [Bool.or_eq_true, beq_iff_eq] at hc
  rcases hc with hc | rfl
  · have hdollar : ∀ d ∈ (c :: s).head?, d ≠ '$' := by
      intro d hd
      obtain rfl : c = d := Option.some.inj hd
      exact ne_of_class hc rfl
    obtain ⟨x, -, rfl, -⟩ := getValue_other_ok (List.cons_ne_nil _ _) hdollar hlen h
    rw [List.takeWhile_cons_of_pos hc]
    exact Nat.succ_ne_zero _
  · obtain ⟨x, -, rfl, -⟩ := getValue_dollar_ok (Nat.lt_of_succ_lt_succ hlen) h
    omega

/-- What is stored is held by what the line begins with. -/
theorem holds_asData (p : Text) : Holds p (asData p).2.length := by
  fun_induction asData p with
  | case1 => exact .done _
  -- a string
  | case2 s r hr =>
    obtain ⟨t, rest, hs, ht⟩ := chars_asString s
    have hopened : Holds ('"' :: (t ++ rest)) (asString s).1.length := .opened rest ht
    rwa [← hs] at hopened
  | case3 s r hr t ih =>
    obtain ⟨q, rest, hs, hrest, hq⟩ := quoted_asString hr
    have htail : r.2.tail = rest := congrArg List.tail hrest
    have hstring : Holds ('"' :: (q ++ '"' :: rest)) (r.1.length + t.2.length) :=
      .string hq (htail ▸ ih)
    rw [List.length_append]
    rwa [← hs] at hstring
  -- a comma
  | case4 s ih => exact .comma ih
  | case5 | case6 => exact .done _
  -- a number; where it has no length the same number is next
  | case7 c s hq hcomma hc v hv he => exact .number hc he (BitVec.not_lt.mp hv) (.done _)
  | case8 c s hq hcomma hc n v he hv hn t ih => exact .number hc he (BitVec.not_lt.mp hv) ih
  | case9 => exact .done _

/-- What the line begins with is stored. -/
theorem Holds.length_le {p : Text} {n : ℕ} (h : Holds p n) (hlen : p.length < 256) :
    n ≤ (asData p).2.length := by
  induction h with
  | done => exact Nat.zero_le _
  | @comma s n _ ih =>
    have hle := length_skipWhitespace s
    rw [List.length_cons] at hlen
    rw [asData]
    exact ih (by omega)
  | @number c s n len v hc hread hv _ ih =>
    have hpos := getValue_pos hc hlen hread
    have hle := length_skipWhitespace ((c :: s).drop len)
    rw [List.length_drop] at hle
    rw [asData_number hc hread hv hpos]
    exact Nat.succ_le_succ (ih (by omega))
  | @string s bs rest n hq _ ih =>
    have hle := length_skipWhitespace rest
    simp only [List.length_cons, List.length_append] at hlen
    rw [asData, asString_quoted hq, if_neg (List.cons_ne_nil _ _), List.tail_cons,
      List.length_append]
    exact Nat.add_le_add_left (ih (by omega)) _
  | opened rest hs =>
    refine (hs.length_le rest).trans ?_
    rw [asData]
    split
    · exact le_rfl
    · rw [List.length_append]
      exact Nat.le_add_right _ _

/-- A byte takes a character at least. -/
theorem Chars.le_length {s : Text} {n : ℕ} (h : Chars s n) : n ≤ s.length := by
  induction h with
  | nil => exact le_rfl
  | quote _ ih => exact Nat.succ_le_succ (ih.trans (Nat.le_succ _))
  | char _ _ ih => exact Nat.succ_le_succ ih

theorem Holds.le_length {p : Text} {n : ℕ} (h : Holds p n) (hlen : p.length < 256) :
    n ≤ p.length := by
  induction h with
  | done => exact Nat.zero_le _
  | @comma s n _ ih =>
    have hle := length_skipWhitespace s
    rw [List.length_cons] at hlen ⊢
    have := ih (by omega)
    omega
  | @number c s n len v hc hread _ _ ih =>
    have hpos := getValue_pos hc hlen hread
    have hle := length_skipWhitespace ((c :: s).drop len)
    rw [List.length_drop] at hle
    rw [List.length_cons] at hle hlen ⊢
    have := ih (by omega)
    omega
  | @string s bs rest n hq _ ih =>
    have hle := length_skipWhitespace rest
    have hbytes := hq.length_le
    simp only [List.length_cons, List.length_append] at hlen ⊢
    have := ih (by omega)
    omega
  | opened rest hs =>
    have hle := hs.le_length
    simp only [List.length_cons, List.length_append]
    omega

/-! ### The line -/

/-- An instruction has three bytes at most. -/
theorem length_asEmit_le (past : OpRow) (mne : Text)
    (op : Except Fault (AddrEnum × ℕ × Word)) : (asEmit past mne op).out.length ≤ opSize := by
  rcases op with e | ⟨mode, len, val⟩
  · exact Nat.zero_le _
  · rw [asEmit]
    split
    · exact Nat.zero_le _
    · show (emitOp _ _ _ _).length ≤ 3
      rw [emitOp]
      split <;> split <;> simp

/-- Without a dot there is one instruction at most. -/
theorem length_dasmAs_le {line : Text} (past : OpRow) (addr : Word)
    (hdot : (skipWhitespace line).head? ≠ some '.') :
    (dasmAs past addr line).out.length ≤ opSize := by
  rw [dasmAs]
  split
  · exact Nat.zero_le _
  · next s hs => exact absurd (congrArg List.head? hs) hdot
  · split
    · exact Nat.zero_le _
    · split
      · exact Nat.zero_le _
      · rw [asMnemonic]
        split
        · exact Nat.zero_le _
        · exact length_asEmit_le ..

/-- With one, what is stored is what the items hold. -/
theorem out_dasmAs_data {line p : Text} (past : OpRow) (addr : Word)
    (hline : skipWhitespace line = '.' :: p) : (dasmAs past addr line).out = (asData p).2 := by
  rw [dasmAs_data past addr hline]
  split
  · next hp =>
    subst hp
    rw [asData]
    rfl
  · rfl

/-- **What is stored for a line fits both buffers** exactly when the line is not a
`.` line that begins with more than three bytes; in the shell it always fits. -/
theorem fits_iff (past : OpRow) (addr : Word) {line : Text} (hlen : line.length ≤ 31) :
    (dasmAs past addr line).out.length ≤ bufferSize - cmdAsOutput ∧
      (Fits (dasmAs past addr line) ↔ ¬ Overfull line) := by
  have hle := length_skipWhitespace line
  by_cases hdot : (skipWhitespace line).head? = some '.'
  · obtain ⟨p, hline⟩ := List.head?_eq_some_iff.mp hdot
    rw [hline, List.length_cons] at hle
    have hheld := holds_asData p
    have hshell : (dasmAs past addr line).out.length ≤ bufferSize - cmdAsOutput := by
      have hbound := hheld.le_length (by omega)
      rw [out_dasmAs_data past addr hline]
      show _ ≤ 64
      omega
    refine ⟨hshell, fun hfits => ?_, fun hfull => ⟨hshell, ?_⟩⟩
    · rintro ⟨p', n, hline', hn, hover⟩
      obtain rfl : p = p' := (List.cons.inj (hline.symm.trans hline')).2
      have hstored := hn.length_le (show p.length < 256 by omega)
      have hroom := hfits.standalone
      rw [out_dasmAs_data past addr hline] at hroom
      exact absurd (hstored.trans hroom) (not_le.mpr hover)
    · by_contra hover
      rw [out_dasmAs_data past addr hline] at hover
      exact hfull ⟨p, _, hline, hheld, not_le.mp hover⟩
  · have hout := length_dasmAs_le past addr hdot
    have hshell : (dasmAs past addr line).out.length ≤ bufferSize - cmdAsOutput :=
      hout.trans (by decide)
    refine ⟨hshell, fun _ => ?_, fun _ => ⟨hshell, hout⟩⟩
    rintro ⟨p, n, hline, -⟩
    exact hdot (congrArg List.head? hline)

/-- A string and a number of three bytes. -/
theorem fits_iff_three :
    let line := ".\"ab\" $ff".toList
    (dasmAs zeroRow 0x1a00 line).out = [0x61, 0x62, 0xff] ∧ ¬ Overfull line := by
  intro line
  have hout : (dasmAs zeroRow 0x1a00 line).out = [0x61, 0x62, 0xff] := by decide +kernel
  have hfits : Fits (dasmAs zeroRow 0x1a00 line) := by
    constructor <;> rw [hout] <;> decide
  exact ⟨hout, (fits_iff zeroRow 0x1a00 (by decide)).2.mp hfits⟩

/-- `."abcd"` is accepted, and is a byte more than `op` has. -/
theorem string_overruns :
    let r := dasmAs zeroRow 0x1a00 ".\"abcd\"".toList
    r.ret = .ok 4 ∧ r.out = [0x61, 0x62, 0x63, 0x64] ∧ ¬ Fits r :=
  ⟨by decide +kernel, by decide +kernel, fun h => absurd h.standalone (by decide +kernel)⟩

end Dan64
