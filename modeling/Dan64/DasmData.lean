/-
Dan64/DasmData.lean

The `.` line of `dasm_as`: which lines it takes, and what it stores for them.

The items of a line are strings, numbers and commas, with white space behind
each (`Items`).  The parser takes one more kind of line: `sscanf` skips white
space, so that a `$` apart from its digits is converted with them, while the digit
counter steps over the `$` alone and the digits are read again as a decimal item
(`Apart`).  `Taken` is what is made of items and those; it is all the parser takes
(`asData_taken`, `asData_ok`).  No line of items is of the other kind
(`Detached.not_items`), so the line is assembled as its items say exactly when
no `$` in it stands apart (`data_iff`).
-/
import Dan64.DasmNumber

namespace Dan64

open CText

/-! ### Items -/

/-- The characters between the quotes of a string, and their bytes.  A backslash
before a quote stands for the quote, so that it is never the last character. -/
inductive Quoted : Text → List Byte → Prop
  | nil : Quoted [] []
  | quote {s bs} : Quoted s bs → Quoted ('\\' :: '"' :: s) (toByte '"' :: bs)
  | char {c s bs} : c ≠ '"' → (c = '\\' → s ≠ []) → Quoted s bs →
      Quoted (c :: s) (toByte c :: bs)

/-- An item, its bytes, and what follows it: a number ends where its digits do. -/
inductive Item : Text → List Byte → Text → Prop
  | string {s bs rest} : Quoted s bs → Item ('"' :: (s ++ ['"'])) bs rest
  | hex {ds rest} : ds ≠ [] → (∀ c ∈ ds, isxdigit c = true) → Stops isxdigit rest →
      numeral 16 ds ≤ 255 → Item ('$' :: ds) [BitVec.ofNat 8 (numeral 16 ds)] rest
  | dec {ds rest} : ds ≠ [] → (∀ c ∈ ds, isdigit c = true) → Stops isdigit rest →
      numeral 10 ds ≤ 255 → Item ds [BitVec.ofNat 8 (numeral 10 ds)] rest
  | comma {rest} : Item [','] [] rest

/-- Items, each with white space behind it, and the bytes of all. -/
inductive Items : Text → List Byte → Prop
  | nil : Items [] []
  | cons {item bs ws rest bs'} : Item item bs (ws ++ rest) → Blank ws → Items rest bs' →
      Items (item ++ (ws ++ rest)) (bs ++ bs')

/-- A `$` that stands apart from the decimal number behind it, which is not above
255 in base 16 either; the bytes are what the parser makes of the two. -/
inductive Apart : Text → List Byte → Text → Prop
  | mk {ws ds rest} : ws ≠ [] → Blank ws → ds ≠ [] → (∀ c ∈ ds, isdigit c = true) →
      Stops isdigit rest → numeral 16 ds ≤ 255 →
      Apart ('$' :: (ws ++ ds)) [BitVec.ofNat 8 (numeral 16 ds), BitVec.ofNat 8 (numeral 10 ds)]
        rest

/-- What the parser takes, and the bytes it stores. -/
inductive Taken : Text → List Byte → Prop
  | nil : Taken [] []
  | item {item bs ws rest bs'} : Item item bs (ws ++ rest) → Blank ws → Taken rest bs' →
      Taken (item ++ (ws ++ rest)) (bs ++ bs')
  | apart {p bs ws rest bs'} : Apart p bs (ws ++ rest) → Blank ws → Taken rest bs' →
      Taken (p ++ (ws ++ rest)) (bs ++ bs')

/-- What is taken with a `$` apart from its number. -/
inductive Detached : Text → Prop
  | here {p bs ws rest bs'} : Apart p bs (ws ++ rest) → Blank ws → Taken rest bs' →
      Detached (p ++ (ws ++ rest))
  | later {item bs ws rest} : Item item bs (ws ++ rest) → Blank ws → Detached rest →
      Detached (item ++ (ws ++ rest))

theorem Items.taken {p : Text} {bs : List Byte} (h : Items p bs) : Taken p bs := by
  induction h with
  | nil => exact .nil
  | cons hitem hws _ ih => exact .item hitem hws ih

theorem Detached.taken {p : Text} (h : Detached p) : ∃ bs, Taken p bs := by
  induction h with
  | here hp hws hrest => exact ⟨_, .apart hp hws hrest⟩
  | later hitem hws _ ih =>
    obtain ⟨bs, hrest⟩ := ih
    exact ⟨_, .item hitem hws hrest⟩

/-- There is a `$` apart from its number, or there are items only. -/
theorem Taken.items_or {p : Text} {bs : List Byte} (h : Taken p bs) :
    Items p bs ∨ Detached p := by
  induction h with
  | nil => exact .inl .nil
  | item hitem hws _ ih => exact ih.imp (.cons hitem hws) (.later hitem hws)
  | apart hp hws hrest _ => exact .inr (.here hp hws hrest)

/-- A character an item starts with. -/
def ItemStart (c : Char) : Prop := c = '"' ∨ c = '$' ∨ c = ',' ∨ isdigit c = true

instance (c : Char) : Decidable (ItemStart c) := inferInstanceAs (Decidable (_ ∨ _))

theorem ItemStart.not_isspace {c : Char} (h : ItemStart c) : isspace c = false := by
  rcases h with rfl | rfl | rfl | h
  · rfl
  · rfl
  · rfl
  · exact Bool.eq_false_iff.mpr fun hsp =>
      Bool.false_ne_true ((not_isdigit_of_isspace hsp).symm.trans h)

theorem ItemStart.not_x {c : Char} (h : ItemStart c) : c ≠ 'x' ∧ c ≠ 'X' := by
  rcases h with rfl | rfl | rfl | h
  · decide
  · decide
  · decide
  · exact ⟨ne_of_class h rfl, ne_of_class h rfl⟩

/-- A digit in base 16 that an item starts with is decimal. -/
theorem ItemStart.decimal {c : Char} (h : ItemStart c) (hx : isxdigit c = true) :
    isdigit c = true := by
  rcases h with rfl | rfl | rfl | h
  · exact absurd hx (by decide)
  · exact absurd hx (by decide)
  · exact absurd hx (by decide)
  · exact h

theorem Item.head {item rest : Text} {bs : List Byte} (h : Item item bs rest) :
    ∃ c t, item = c :: t ∧ ItemStart c := by
  cases h with
  | string => exact ⟨_, _, rfl, .inl rfl⟩
  | hex => exact ⟨_, _, rfl, .inr (.inl rfl)⟩
  | dec hne hds =>
    obtain ⟨d, ds, rfl⟩ := List.exists_cons_of_ne_nil hne
    exact ⟨d, ds, rfl, .inr (.inr (.inr (hds d (by simp))))⟩
  | comma => exact ⟨_, _, rfl, .inr (.inr (.inl rfl))⟩

theorem Apart.head {p rest : Text} {bs : List Byte} (h : Apart p bs rest) :
    ∃ c t, p = c :: t ∧ ItemStart c := by
  cases h
  exact ⟨_, _, rfl, .inr (.inl rfl)⟩

theorem Taken.head {p : Text} {bs : List Byte} (h : Taken p bs) :
    ∀ c ∈ p.head?, ItemStart c := by
  cases h with
  | nil => exact nofun
  | item hp | apart hp =>
    obtain ⟨c, t, rfl, hc⟩ := hp.head
    intro d hd
    obtain rfl : c = d := Option.some.inj hd
    exact hc

theorem Detached.ne_nil {p : Text} (h : Detached p) : p ≠ [] := by
  cases h with
  | here hp =>
    cases hp
    exact List.cons_ne_nil _ _
  | later hitem =>
    obtain ⟨c, t, rfl, -⟩ := hitem.head
    exact List.cons_ne_nil _ _

/-- What starts like an item is not skipped. -/
theorem skipWhitespace_items {p : Text} (h : ∀ c ∈ p.head?, ItemStart c) :
    skipWhitespace p = p := by
  rcases p with - | ⟨c, p⟩
  · rfl
  · exact skipWhitespace_cons (h c rfl).not_isspace p

/-- Behind the white space of an item nothing continues a `0x`. -/
theorem blank_append_not_x {ws p : Text} (hws : Blank ws) (h : ∀ c ∈ p.head?, ItemStart c) :
    ∀ c ∈ (ws ++ p).head?, c ≠ 'x' ∧ c ≠ 'X' := by
  rcases ws with - | ⟨w, ws⟩
  · exact fun c hc => (h c hc).not_x
  · intro c hc
    obtain rfl : w = c := Option.some.inj hc
    have hw := hws w (by simp)
    exact ⟨ne_of_class hw rfl, ne_of_class hw rfl⟩

/-- Nor does it continue decimal digits as hexadecimal ones. -/
theorem blank_append_not_isxdigit {ws p : Text} (hws : Blank ws)
    (h : ∀ c ∈ p.head?, ItemStart c) (hstop : Stops isdigit (ws ++ p)) :
    Stops isxdigit (ws ++ p) := by
  intro c hc
  have hdec := hstop c hc
  rcases ws with - | ⟨w, ws⟩
  · refine Bool.eq_false_iff.mpr fun hx => ?_
    rw [(h c hc).decimal hx] at hdec
    exact Bool.false_ne_true hdec.symm
  · obtain rfl : w = c := Option.some.inj hc
    exact not_isxdigit_of_isspace (hws w (by simp))

/-! ### Items are taken -/

theorem Quoted.head {s : Text} {bs : List Byte} (h : Quoted s bs) : ∀ c ∈ s.head?, c ≠ '"' := by
  cases h with
  | nil => exact nofun
  | quote =>
    intro c hc
    obtain rfl : '\\' = c := Option.some.inj hc
    decide
  | char hq =>
    intro c hc
    exact Option.some.inj hc ▸ hq

theorem asString_quoted {s : Text} {bs : List Byte} (h : Quoted s bs) (rest : Text) :
    asString (s ++ '"' :: rest) = (bs, '"' :: rest) := by
  induction h with
  | nil => rfl
  | quote _ ih =>
    rw [List.cons_append, List.cons_append, asString, ih]
  | @char c s bs hc hlast hs ih =>
    have hesc (t : Text) (hback : c = '\\') (heq : s ++ '"' :: rest = '"' :: t) : False := by
      rcases s with - | ⟨d, s⟩
      · exact hlast hback rfl
      · exact hs.head d rfl (List.cons.inj heq).1
    rw [List.cons_append, asString, ih]
    · exact hc
    · exact hesc

/-- A number that `get_value` reads. -/
theorem asData_number {c : Char} {s : Text} {n : ℕ} {v : Word}
    (hc : (isdigit c || c == '$') = true) (h : getValue (c :: s) = .ok (n, v))
    (hv : v ≤ 0xff#16) (hn : n ≠ 0) :
    asData (c :: s) =
      ((asData (skipWhitespace ((c :: s).drop n))).1,
        v.setWidth 8 :: (asData (skipWhitespace ((c :: s).drop n))).2) := by
  have hgt : ¬ v > 0xff#16 := BitVec.not_lt.mpr hv
  rw [asData]
  · rw [if_pos hc, h]
    show (if v > 0xff#16 then _ else _) = _
    rw [if_neg hgt, if_neg hn]
  · rintro rfl
    exact absurd hc (by decide)
  · rintro rfl
    exact absurd hc (by decide)

/-- A byte in 16 bits. -/
theorem ofNat_byte {v : ℕ} (h : v ≤ 255) :
    BitVec.ofNat 16 v ≤ 0xff#16 ∧ (BitVec.ofNat 16 v).setWidth 8 = BitVec.ofNat 8 v := by
  constructor
  · rw [BitVec.le_def, BitVec.toNat_ofNat, Nat.mod_eq_of_lt (by omega)]
    exact h
  · refine BitVec.eq_of_toNat_eq ?_
    rw [BitVec.toNat_setWidth, BitVec.toNat_ofNat, BitVec.toNat_ofNat,
      Nat.mod_eq_of_lt (show v < 2 ^ 16 by omega)]

/-- **One item**: its bytes are stored, and the items behind its white space are
next. -/
theorem asData_item {item ws rest : Text} {bs : List Byte} (h : Item item bs (ws ++ rest))
    (hws : Blank ws) (hrest : ∀ c ∈ rest.head?, ItemStart c)
    (hlen : (item ++ (ws ++ rest)).length < 256) :
    asData (item ++ (ws ++ rest)) = ((asData rest).1, bs ++ (asData rest).2) := by
  have hskip : skipWhitespace (ws ++ rest) = rest := by
    rw [skipWhitespace_blank_append hws, skipWhitespace_items hrest]
  cases h with
  | @string s bs _ hs =>
    rw [List.cons_append, List.append_assoc, List.singleton_append, asData,
      asString_quoted hs]
    rw [if_neg (List.cons_ne_nil _ _), List.tail_cons, hskip]
  | @hex ds _ hne hds hstop hle =>
    have hx := blank_append_not_x hws hrest
    have hread := getValue_hex hne hds hstop hx hlen
    have hdrop : ('$' :: (ds ++ (ws ++ rest))).drop ('$' :: ds).length = ws ++ rest :=
      @List.drop_left _ ('$' :: ds) _
    obtain ⟨hbyte, hlow⟩ := ofNat_byte hle
    rw [List.cons_append, asData_number rfl hread hbyte (Nat.succ_ne_zero _), hdrop, hskip, hlow]
    rfl
  | dec hne hds hstop hle =>
    have hread := getValue_dec hne hds hstop hlen
    have hdrop : (item ++ (ws ++ rest)).drop item.length = ws ++ rest := List.drop_left
    obtain ⟨hbyte, hlow⟩ := ofNat_byte hle
    obtain ⟨d, ds, rfl⟩ := List.exists_cons_of_ne_nil hne
    rw [List.cons_append] at hread hdrop ⊢
    rw [asData_number (by rw [hds d (by simp), Bool.true_or]) hread hbyte (Nat.succ_ne_zero _),
      hdrop, hskip, hlow]
    rfl
  | comma =>
    rw [List.singleton_append, asData, hskip]
    rfl

/-- **A `$` apart from its number** is converted with it, and the number is the
next item. -/
theorem asData_apart {p ws rest : Text} {bs : List Byte} (h : Apart p bs (ws ++ rest))
    (hws : Blank ws) (hrest : ∀ c ∈ rest.head?, ItemStart c)
    (hlen : (p ++ (ws ++ rest)).length < 256) :
    asData (p ++ (ws ++ rest)) = ((asData rest).1, bs ++ (asData rest).2) := by
  obtain @⟨gap, ds, _, hne, hgap, hds0, hds, hstop, hle⟩ := h
  have hxds : ∀ c ∈ ds, isxdigit c = true := fun c hc => isxdigit_of_isdigit (hds c hc)
  have hxstop : Stops isxdigit (ws ++ rest) := blank_append_not_isxdigit hws hrest hstop
  have hx := blank_append_not_x hws hrest
  have hgapstop : Stops isxdigit (gap ++ (ds ++ (ws ++ rest))) := by
    obtain ⟨w, gap, rfl⟩ := List.exists_cons_of_ne_nil hne
    intro c hc
    obtain rfl : w = c := Option.some.inj hc
    exact not_isxdigit_of_isspace (hgap w (by simp))
  rw [List.cons_append, List.append_assoc] at hlen ⊢
  have hlen' := hlen
  simp only [List.length_cons, List.length_append] at hlen'
  have hread : getValue ('$' :: (gap ++ (ds ++ (ws ++ rest)))) =
      .ok (1, BitVec.ofNat 16 (numeral 16 ds)) := by
    rw [List.length_cons] at hlen
    rw [getValue_dollar (by omega), sscanfHex_blank hgap, sscanfHex_append hds0 hxds hxstop hx,
      takeWhile_eq_nil hgapstop]
    exact congrArg (fun v => Except.ok (1, v)) (BitVec.ofInt_natCast _ _)
  -- the number is read again, as an item of its own
  have hdec : Item ds [BitVec.ofNat 8 (numeral 10 ds)] (ws ++ rest) :=
    .dec hds0 hds hstop ((numeral_le_numeral (by decide) ds).trans hle)
  have hnext := asData_item hdec hws hrest (by simp only [List.length_append]; omega)
  obtain ⟨hbyte, hlow⟩ := ofNat_byte hle
  rw [asData_number rfl hread hbyte one_ne_zero, List.drop_one, List.tail_cons,
    skipWhitespace_blank_append hgap, skipWhitespace_digits hds0 hds, hlow, hnext]
  rfl

/-- **What is taken**, and the bytes that are stored. -/
theorem asData_taken {p : Text} {bs : List Byte} (h : Taken p bs) (hlen : p.length < 256) :
    asData p = (.ok (), bs) := by
  have hrest {p ws rest : Text} (h : (p ++ (ws ++ rest)).length < 256) : rest.length < 256 := by
    simp only [List.length_append] at h
    omega
  induction h with
  | nil => rw [asData]
  | item hitem hws hr ih => rw [asData_item hitem hws hr.head hlen, ih (hrest hlen)]
  | apart hp hws hr ih => rw [asData_apart hp hws hr.head hlen, ih (hrest hlen)]

/-! ### Nothing else is taken -/

/-- A string is what stands between its quotes, and it is closed. -/
theorem quoted_asString {s : Text} (h : (asString s).2 ≠ []) :
    ∃ t rest, s = t ++ '"' :: rest ∧ (asString s).2 = '"' :: rest ∧ Quoted t (asString s).1 := by
  fun_induction asString s with
  | case1 => exact absurd rfl h
  | case2 s => exact ⟨[], s, rfl, rfl, .nil⟩
  | case3 s r ih =>
    obtain ⟨t, rest, hs, hr, hq⟩ := ih h
    exact ⟨'\\' :: '"' :: t, rest, by rw [hs]; rfl, hr, .quote hq⟩
  | case4 c s hc hesc r ih =>
    obtain ⟨t, rest, hs, hr, hq⟩ := ih h
    refine ⟨c :: t, rest, by rw [hs]; rfl, hr, .char (fun h => hc h) ?_ hq⟩
    rintro rfl rfl
    exact hesc rest rfl hs

/-- The decimal number in front of what is taken. -/
theorem Taken.dec {c : Char} {t : Text} {bs : List Byte} (h : Taken (c :: t) bs)
    (hc : isdigit c = true) :
    ∃ ds ws rest bs', c :: t = ds ++ (ws ++ rest) ∧ ds ≠ [] ∧ (∀ d ∈ ds, isdigit d = true) ∧
      Stops isdigit (ws ++ rest) ∧ numeral 10 ds ≤ 255 ∧ Blank ws ∧ Taken rest bs' := by
  -- the other items start with something else
  have hother {d : Char} {t' : Text} (heq : c :: t = d :: t') (hd : isdigit d = false) : False := by
    rw [← (List.cons.inj heq).1, hc] at hd
    cases hd
  generalize hp : c :: t = p at h
  cases h with
  | nil => cases hp
  | item hitem hws hrest =>
    cases hitem with
    | string | hex | comma => exact (hother hp rfl).elim
    | dec hne hds hstop hle => exact ⟨_, _, _, _, rfl, hne, hds, hstop, hle, hws, hrest⟩
  | apart happart =>
    cases happart
    exact (hother hp rfl).elim

/-- What is kept of a number in 16 bits is a byte when the number is. -/
theorem le_of_ofNat_le {x : ℕ} (hx : x ≤ 65535) (h : BitVec.ofNat 16 x ≤ 0xff#16) : x ≤ 255 := by
  rw [BitVec.le_def, BitVec.toNat_ofNat, Nat.mod_eq_of_lt (by omega)] at h
  exact h

/-- White space is split off in front of what is taken. -/
theorem Taken.of_skip {item s : Text} {bs bs' : List Byte} (hitem : Item item bs s)
    (h : Taken (skipWhitespace s) bs') : Taken (item ++ s) (bs ++ bs') := by
  have hsplit := takeWhile_append_skipWhitespace s
  rw [← hsplit] at hitem ⊢
  exact .item hitem (blank_takeWhile s) h

/-- A decimal number, read. -/
theorem taken_decimal {ds rest : Text} {bs : List Byte} {n : ℕ} {v : Word} (hne : ds ≠ [])
    (hds : ∀ c ∈ ds, isdigit c = true) (hstop : Stops isdigit rest)
    (hlen : (ds ++ rest).length < 256) (hlit : LiteralsFit (ds ++ rest))
    (h : getValue (ds ++ rest) = .ok (n, v)) (hv : v ≤ 0xff#16)
    (hrest : Taken (skipWhitespace rest) bs) : ∃ bs, Taken (ds ++ rest) bs := by
  rw [getValue_dec hne hds hstop hlen] at h
  cases h
  rw [LiteralsFit, literals_dec hne hds hstop] at hlit
  have hle := le_of_ofNat_le (hlit _ List.mem_cons_self) hv
  exact ⟨_, .of_skip (.dec hne hds hstop hle) hrest⟩

/-- A hexadecimal number, read. -/
theorem taken_hex {ds rest : Text} {bs : List Byte} {n : ℕ} {v : Word} (hne : ds ≠ [])
    (hds : ∀ c ∈ ds, isxdigit c = true) (hstop : Stops isxdigit rest)
    (hlen : ('$' :: (ds ++ rest)).length < 256) (hlit : LiteralsFit ('$' :: (ds ++ rest)))
    (h : getValue ('$' :: (ds ++ rest)) = .ok (n, v)) (hv : v ≤ 0xff#16)
    (hrest : Taken (skipWhitespace rest) bs) : ∃ bs, Taken ('$' :: (ds ++ rest)) bs := by
  have hx := blank_append_not_x (blank_takeWhile rest) hrest.head
  rw [takeWhile_append_skipWhitespace] at hx
  rw [getValue_hex hne hds hstop hx hlen] at h
  cases h
  rw [LiteralsFit, literals_hex hne hds hstop] at hlit
  have hle := le_of_ofNat_le (hlit _ List.mem_cons_self) hv
  exact ⟨_, .of_skip (.hex hne hds hstop hle) hrest⟩

/-- A `$` without digits, read: there is white space and a decimal number. -/
theorem taken_apart {s : Text} {bs : List Byte} {n : ℕ} {v : Word} (hstop : Stops isxdigit s)
    (hlen : ('$' :: s).length < 256) (h : getValue ('$' :: s) = .ok (n, v)) (hv : v ≤ 0xff#16)
    (hrest : Taken (skipWhitespace s) bs) : ∃ bs, Taken ('$' :: s) bs := by
  obtain ⟨gap, hgap, hsplit⟩ : ∃ gap, Blank gap ∧ gap ++ skipWhitespace s = s :=
    ⟨_, blank_takeWhile s, takeWhile_append_skipWhitespace s⟩
  obtain ⟨x, hx, -, rfl⟩ := getValue_dollar_ok (Nat.lt_of_succ_lt_succ hlen) h
  rw [← hsplit, sscanfHex_blank hgap] at hx
  obtain ⟨c, hc, hsigned⟩ := sscanfHex_some hx
  rw [skipWhitespace_skipWhitespace] at hc
  obtain ⟨t, ht⟩ : ∃ t, skipWhitespace s = c :: t := List.head?_eq_some_iff.mp hc
  -- an item starts here, so the number has no sign, and its digits are decimal
  have hdigit : isdigit c = true := by
    rcases hsigned with hxd | rfl | rfl
    · exact (hrest.head c hc).decimal hxd
    · exact absurd (hrest.head _ hc) (by decide)
    · exact absurd (hrest.head _ hc) (by decide)
  rw [ht] at hsplit hrest hx
  have hne : gap ≠ [] := by
    rintro rfl
    have hs := hstop c (by rw [← hsplit]; rfl)
    rw [isxdigit_of_isdigit hdigit] at hs
    cases hs
  obtain ⟨ds, ws, rest, bs', hdec, hds0, hds, hstop', hle, hws, hrest'⟩ := hrest.dec hdigit
  rw [hdec] at hsplit hx
  rw [sscanfHex_append hds0 (fun c hc => isxdigit_of_isdigit (hds c hc))
    (blank_append_not_isxdigit hws hrest'.head hstop') (blank_append_not_x hws hrest'.head)] at hx
  rw [← Option.some.inj hx, BitVec.ofInt_natCast] at hv
  have hsmall : numeral 10 ds ^ 2 ≤ 255 ^ 2 := Nat.pow_le_pow_left hle 2
  have hlex := le_of_ofNat_le (numeral_hex_le.trans (hsmall.trans (by decide))) hv
  rw [← hsplit, ← List.append_assoc, ← List.cons_append]
  exact ⟨_, .apart (.mk hne hgap hds0 hds hstop' hlex) hws hrest'⟩

/-- A number, read: what is taken behind it is taken with it. -/
theorem taken_number {c : Char} {s : Text} {n : ℕ} {v : Word}
    (hc : (isdigit c || c == '$') = true) (hlen : (c :: s).length < 256)
    (hlit : LiteralsFit (c :: s)) (h : getValue (c :: s) = .ok (n, v)) (hv : v ≤ 0xff#16)
    (hnext : LiteralsFit ((c :: s).drop n) → ∃ bs, Taken (skipWhitespace ((c :: s).drop n)) bs) :
    ∃ bs, Taken (c :: s) bs := by
  rw [Bool.or_eq_true, beq_iff_eq] at hc
  rcases hc with hc | rfl
  · obtain ⟨ds, rest, hs, hds, hstop⟩ := exists_run isdigit (c :: s)
    have hne : ds ≠ [] := by
      rintro rfl
      have hcs := hstop c (by rw [← List.nil_append rest, ← hs]; rfl)
      rw [hc] at hcs
      cases hcs
    rw [hs] at hlen hlit h hnext ⊢
    have hread := h
    rw [getValue_dec hne hds hstop hlen] at hread
    cases hread
    rw [List.drop_left] at hnext
    have hlit' := hlit
    rw [LiteralsFit, literals_dec hne hds hstop] at hlit'
    obtain ⟨bs, hrest⟩ := hnext fun v hv => hlit' v (List.mem_cons_of_mem _ hv)
    exact taken_decimal hne hds hstop hlen hlit h hv hrest
  · obtain ⟨ds, rest, rfl, hds, hstop⟩ := exists_run isxdigit s
    obtain ⟨-, -, hn, -⟩ := getValue_dollar_ok (Nat.lt_of_succ_lt_succ hlen) h
    rw [takeWhile_append_stops hds hstop, Nat.add_comm] at hn
    rw [hn, List.drop_succ_cons, List.drop_left] at hnext
    by_cases hne : ds = []
    · subst hne
      rw [LiteralsFit, List.nil_append, literals_apart hstop] at hlit
      obtain ⟨bs, hrest⟩ := hnext hlit
      exact taken_apart hstop hlen h hv hrest
    · have hlit' := hlit
      rw [LiteralsFit, literals_hex hne hds hstop] at hlit'
      obtain ⟨bs, hrest⟩ := hnext fun v hv => hlit' v (List.mem_cons_of_mem _ hv)
      exact taken_hex hne hds hstop hlen hlit h hv hrest

/-- A string, read. -/
theorem taken_string {s : Text} {bs : List Byte} (h : (asString s).2 ≠ [])
    (hrest : Taken (skipWhitespace (asString s).2.tail) bs) : ∃ bs, Taken ('"' :: s) bs := by
  obtain ⟨q, rest, hs, hr, hq⟩ := quoted_asString h
  rw [hr, List.tail_cons] at hrest
  have hp : '"' :: s = ('"' :: (q ++ ['"'])) ++ rest := by simp [hs]
  rw [hp]
  exact ⟨_, .of_skip (.string hq) hrest⟩

/-- **Nothing else is taken.** -/
theorem asData_ok {p : Text} (hlen : p.length < 256) (hlit : LiteralsFit p)
    (h : (asData p).1 = .ok ()) : ∃ bs, Taken p bs := by
  fun_induction asData p with
  | case1 => exact ⟨_, .nil⟩
  | case2 s r hr => cases h
  -- a string
  | case3 s r hr t ih =>
    have hlen' : (skipWhitespace r.2.tail).length < 256 := by
      have hle := length_skipWhitespace r.2.tail
      have hle' : r.2.length ≤ s.length := length_asString s
      rw [List.length_tail] at hle
      rw [List.length_cons] at hlen
      omega
    rw [LiteralsFit, literals] at hlit
    obtain ⟨bs, hrest⟩ := ih hlen' (LiteralsFit.skipWhitespace hlit) h
    exact taken_string hr hrest
  -- a comma
  | case4 s ih =>
    have hlit' : LiteralsFit s := by
      rw [LiteralsFit, literals_other s (by decide) (by decide) rfl] at hlit
      exact hlit
    rw [List.length_cons] at hlen
    have hle := length_skipWhitespace s
    obtain ⟨bs, hrest⟩ := ih (by omega) hlit'.skipWhitespace h
    exact ⟨_, @Taken.of_skip [','] s _ _ .comma hrest⟩
  | case5 c s hq hcomma hc e he => cases h
  | case6 => cases h
  | case7 => cases h
  -- a number
  | case8 c s hq hcomma hc n v he hv hn t ih =>
    have hlen' : (skipWhitespace ((c :: s).drop n)).length < 256 := by
      have hle := length_skipWhitespace ((c :: s).drop n)
      rw [List.length_drop] at hle
      omega
    exact taken_number hc hlen hlit he (BitVec.not_lt.mp hv) fun hl =>
      ih hlen' hl.skipWhitespace h
  | case9 => cases h

/-! ### One reading -/

/-- What is behind the first item. -/
def afterItem : Text → Text
  | '"' :: s => (asString s).2.tail
  | '$' :: s => s.dropWhile isxdigit
  | ',' :: s => s
  | s => s.dropWhile isdigit

theorem Item.after {p r : Text} {bs : List Byte} (h : Item p bs r) : afterItem (p ++ r) = r := by
  cases h with
  | string hs =>
    rw [List.cons_append, List.append_assoc, afterItem, List.singleton_append,
      asString_quoted hs, List.tail_cons]
  | hex _ hds hstop _ => exact dropWhile_append_stops hds hstop
  | dec hne hds hstop _ =>
    rw [afterItem, dropWhile_append_stops hds hstop]
    all_goals
      rintro s heq
      obtain ⟨d, ds, rfl⟩ := List.exists_cons_of_ne_nil hne
      exact ne_of_class (hds d (by simp)) rfl (List.cons.inj heq).1
  | comma => rfl

/-- Behind a `$` that starts an item there is a digit. -/
theorem Items.dollar {s : Text} {bs : List Byte} (h : Items ('$' :: s) bs) :
    ∃ c ∈ s.head?, isxdigit c = true := by
  generalize hp : '$' :: s = p at h
  cases h with
  | nil => cases hp
  | cons hitem =>
    cases hitem with
    | string | comma => exact absurd (List.cons.inj hp).1 (by decide)
    | hex hne hds =>
      obtain ⟨d, ds, rfl⟩ := List.exists_cons_of_ne_nil hne
      exact ⟨d, by rw [(List.cons.inj hp).2]; rfl, hds d (by simp)⟩
    | dec hne hds =>
      obtain ⟨d, ds, rfl⟩ := List.exists_cons_of_ne_nil hne
      exact absurd (List.cons.inj hp).1.symm (ne_of_class (hds d (by simp)) rfl)

/-- Nothing is both. -/
theorem Detached.not_items {p : Text} {bs : List Byte} (h : Detached p) : ¬ Items p bs := by
  induction h generalizing bs with
  | here hp =>
    obtain ⟨hne, hgap⟩ := hp
    obtain ⟨w, gap, rfl⟩ := List.exists_cons_of_ne_nil hne
    intro h
    obtain ⟨c, hc, hx⟩ := h.dollar
    obtain rfl : w = c := Option.some.inj hc
    rw [not_isxdigit_of_isspace (hgap w (by simp))] at hx
    cases hx
  | @later item _ ws rest hitem hws hdet ih =>
    intro h
    obtain ⟨_, hrest⟩ := hdet.taken
    generalize hq : item ++ (ws ++ rest) = q at h
    cases h with
    | nil =>
      obtain ⟨c, t, rfl, -⟩ := hitem.head
      cases hq
    | @cons item' _ ws' rest' _ hitem' hws' hrest' =>
      -- both end the item where `afterItem` does, and the white space with it
      have hafter : ws ++ rest = ws' ++ rest' := by
        rw [← hitem.after, hq, hitem'.after]
      have hskip := congrArg skipWhitespace hafter
      rw [skipWhitespace_blank_append hws, skipWhitespace_blank_append hws',
        skipWhitespace_items hrest.head, skipWhitespace_items hrest'.taken.head] at hskip
      rw [hskip] at ih
      exact ih hrest'

/-! ### The line -/

/-- The line is taken exactly when there are items behind its dot, and what is
stored and returned are their bytes and the number of these. -/
structure DataExact (p : Text) (r : AsResult) : Prop where
  accepts : (∃ n, r.ret = .ok n) ↔ p ≠ [] ∧ ∃ bs, Items p bs
  emits : ∀ n, r.ret = .ok n → ∃ bs, Items p bs ∧ r.out = bs ∧ n = bs.length

theorem Quoted.length_le {s : Text} {bs : List Byte} (h : Quoted s bs) :
    bs.length ≤ s.length := by
  induction h with
  | nil => exact le_rfl
  | quote _ ih => exact Nat.succ_le_succ (ih.trans (Nat.le_succ _))
  | char _ _ _ ih => exact Nat.succ_le_succ ih

theorem Item.length_le {p rest : Text} {bs : List Byte} (h : Item p bs rest) :
    bs.length ≤ p.length := by
  cases h with
  | string hs =>
    have hle := hs.length_le
    rw [List.length_cons, List.length_append]
    omega
  | hex => exact Nat.succ_le_succ (Nat.zero_le _)
  | dec hne => exact List.length_pos_of_ne_nil hne
  | comma => exact Nat.zero_le _

/-- A byte takes a character at least. -/
theorem Items.length_le {p : Text} {bs : List Byte} (h : Items p bs) : bs.length ≤ p.length := by
  induction h with
  | nil => exact le_rfl
  | cons hitem _ _ ih =>
    have hle := hitem.length_le
    simp only [List.length_append]
    omega

/-- A line is taken when its rest is, and the length is that of what is stored. -/
theorem dasmAs_data {line p : Text} (past : OpRow) (addr : Word)
    (hline : skipWhitespace line = '.' :: p) :
    dasmAs past addr line = if p = [] then .fail .refused
      else ⟨(asData p).1.map fun _ => (asData p).2.length % 256, (asData p).2⟩ := by
  rw [dasmAs, hline]
  rfl

theorem dasmAs_taken {line p : Text} {bs : List Byte} (past : OpRow) (addr : Word)
    (hline : skipWhitespace line = '.' :: p) (hne : p ≠ []) (hlen : p.length < 256)
    (h : Taken p bs) : dasmAs past addr line = ⟨.ok (bs.length % 256), bs⟩ := by
  rw [dasmAs_data past addr hline, if_neg hne, asData_taken h hlen]
  rfl

theorem taken_of_dasmAs {line p : Text} {past : OpRow} {addr : Word} {n : ℕ}
    (hline : skipWhitespace line = '.' :: p) (hlen : p.length < 256) (hlit : LiteralsFit p)
    (h : (dasmAs past addr line).ret = .ok n) : p ≠ [] ∧ ∃ bs, Taken p bs := by
  rw [dasmAs_data past addr hline] at h
  split at h
  · cases h
  · next hne =>
    refine ⟨hne, asData_ok hlen hlit ?_⟩
    rcases hd : (asData p).1 with e | u
    · simp only [hd] at h
      cases h
    · rfl

/-- **The data directive** does what its items say exactly when there is no `$`
apart from a number that is taken with it. -/
theorem data_iff (past : OpRow) (addr : Word) {line p : Text}
    (hline : skipWhitespace line = '.' :: p) (hlen : line.length < 256)
    (hlit : LiteralsFit line) : DataExact p (dasmAs past addr line) ↔ ¬ Detached p := by
  have hlen' : p.length < 256 := by
    have hle := length_skipWhitespace line
    rw [hline, List.length_cons] at hle
    omega
  have hlit' : LiteralsFit p := by
    have hl := hlit.skipWhitespace
    rw [hline, LiteralsFit, literals_other p (by decide) (by decide) rfl] at hl
    exact hl
  constructor
  · intro hexact hdet
    obtain ⟨bs, htaken⟩ := hdet.taken
    have hne := hdet.ne_nil
    have hacc := dasmAs_taken past addr hline hne hlen' htaken
    obtain ⟨-, bs', hitems⟩ := hexact.accepts.mp ⟨_, congrArg AsResult.ret hacc⟩
    exact hdet.not_items hitems
  · intro hdet
    have hitems {bs : List Byte} (h : Taken p bs) : Items p bs := h.items_or.resolve_right hdet
    constructor
    · constructor
      · rintro ⟨n, hn⟩
        obtain ⟨hne, bs, htaken⟩ := taken_of_dasmAs hline hlen' hlit' hn
        exact ⟨hne, bs, hitems htaken⟩
      · rintro ⟨hne, bs, hi⟩
        exact ⟨_, congrArg AsResult.ret (dasmAs_taken past addr hline hne hlen' hi.taken)⟩
    · intro n hn
      obtain ⟨hne, bs, htaken⟩ := taken_of_dasmAs hline hlen' hlit' hn
      have hle := (hitems htaken).length_le
      rw [dasmAs_taken past addr hline hne hlen' htaken] at hn ⊢
      refine ⟨bs, hitems htaken, rfl, ?_⟩
      rw [← Except.ok.inj hn, Nat.mod_eq_of_lt (by omega)]

/-- `.12, $1f`. -/
theorem data_iff_two :
    DataExact "12, $1f".toList (dasmAs zeroRow 0 ".12, $1f".toList) ↔
      ¬ Detached "12, $1f".toList :=
  data_iff zeroRow 0 (by decide) (by decide) (by decide +kernel)

/-- `.$ 12` stores `$12` and 12. -/
theorem dollar_apart :
    (dasmAs zeroRow 0 ".$ 12".toList).ret = .ok 2 ∧
      (dasmAs zeroRow 0 ".$ 12".toList).out = [0x12, 12] ∧
      LiteralsFit ".$ 12".toList ∧ ¬ ∃ bs, Items "$ 12".toList bs := by
  refine ⟨by decide +kernel, by decide +kernel, by decide +kernel, ?_⟩
  rintro ⟨bs, h⟩
  obtain ⟨c, hc, hx⟩ := h.dollar
  obtain rfl : ' ' = c := Option.some.inj hc
  exact absurd hx (by decide)

end Dan64
