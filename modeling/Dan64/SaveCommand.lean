/-
Dan64/SaveCommand.lean

The shell's `save`: `init/main.c`.

A parameter is converted by `sscanf` and counted by a loop of its own, and only the end
of the first is compared with the text; the loop does the rest of the work there, since
the -1 that `get_param` returns is stored in an unsigned byte.  So what is saved from is
a run of hexadecimal digits behind spaces, and what is saved up to anything that `sscanf`
finds a number in (`cmdSave_ok_iff`).  What was asked is saved except for the first
number's wrapping and the second parameter's end (`savesAsked_iff`).
-/
import Dan64.DasmLiteral

namespace Dan64

open CText

/-! ### The shell -/

/-- What a line may be dispatched to. -/
inductive Exec
  | cmdRun
  | cmdCls
  | cmdPeek
  | cmdPoke
  | cmdLoad
  | cmdSave
  | cmdList
  | cmdAs
  | cmdHelp
  deriving DecidableEq

/-- `struct Cmd` -/
structure Cmd where
  text : Text
  exec : Exec
  hasParams : Bool

/-- The table, in order. -/
def cmds : List Cmd :=
  [⟨"run".toList, .cmdRun, false⟩, ⟨"cls".toList, .cmdCls, false⟩, ⟨"peek".toList, .cmdPeek, true⟩,
    ⟨"poke".toList, .cmdPoke, true⟩, ⟨"load".toList, .cmdLoad, false⟩,
    ⟨"save".toList, .cmdSave, true⟩, ⟨"list".toList, .cmdList, true⟩, ⟨"as".toList, .cmdAs, true⟩,
    ⟨"help".toList, .cmdHelp, false⟩]

/-- `strcasecmp(s, t) == 0` -/
def strcasecmp (s t : Text) : Bool := s.map toupper == t.map toupper

/-- `strncasecmp(s, t, n) == 0` -/
def strncasecmp (s t : Text) (n : ℕ) : Bool := strcasecmp (s.take n) (t.take n)

/-- The line is that of a command. -/
def Cmd.takes (cmd : Cmd) (buffer : Text) : Bool :=
  if cmd.hasParams then strncasecmp buffer cmd.text cmd.text.length
  else strcasecmp buffer cmd.text

/-- The loop of `main`, for a line that is not empty. -/
def dispatch (buffer : Text) : Option Exec := (cmds.find? (·.takes buffer)).map (·.exec)

def textErrCmd : Text := "ERR: CMD\n".toList

def textErrAddr : Text := "ERR: ADDR\n".toList

/-- `buffer[n] == 0 || buffer[n] == ' '`, for the text from there. -/
def AtSpace (p : Text) : Prop := ∀ c ∈ p.head?, c = ' '

instance : DecidablePred AtSpace := fun p => Option.decidableForallMem p.head?

/-- `get_param`, with the value of `addr` behind it. -/
def getParam (buffer : Text) (addr : Word) : ℤ × Word :=
  let spaces := buffer.takeWhile (· == ' ')
  let buffer := buffer.dropWhile (· == ' ')
  if buffer = [] then (0, addr)
  else
    match sscanfHex buffer with
    | none => (-1, addr)
    | some v => ((spaces.length + (buffer.takeWhile isxdigit).length : ℕ), BitVec.ofInt 16 v)

/-- `cmd_save`: an error is printed, or `save` is called. -/
def cmdSave (buffer : Text) : Except Text (Word × Word) :=
  if ¬ AtSpace (buffer.drop 4) then .error textErrCmd
  else
    let (pt, startAddr) := getParam (buffer.drop 4) 0x1a00
    let nextParam : Byte := BitVec.ofInt 8 pt
    -- never, for an unsigned type
    if nextParam < 0 then .error textErrAddr
    else
      let nextParam := (nextParam + 4).toNat
      if ¬ AtSpace (buffer.drop nextParam) then .error textErrCmd
      else
        let (pt, endAddr) := getParam (buffer.drop nextParam) 0xffff
        if pt < 0 then .error textErrAddr
        else if startAddr ≥ endAddr then .error textErrAddr
        else .ok (startAddr, endAddr)

/-! ### What is asked -/

def OnlySpaces (s : Text) : Prop := ∀ c ∈ s, c = ' '

/-- A hexadecimal number behind spaces, up to the next space or the end, and the text
behind it. -/
def Param (p : Text) (n : ℕ) (t : Text) : Prop :=
  ∃ s ds, p = s ++ (ds ++ t) ∧ s ≠ [] ∧ OnlySpaces s ∧ ds ≠ [] ∧ (∀ c ∈ ds, isxdigit c = true) ∧
    AtSpace t ∧ n = numeral 16 ds

/-- The text behind `save` has at most two numbers up to `$ffff`, and nothing else. -/
inductive Asks : Text → Word → Word → Prop
  | none {p} : OnlySpaces p → Asks p 0x1a00 0xffff
  | start {p a t} : Param p a.toNat t → OnlySpaces t → Asks p a 0xffff
  | both {p a t b t'} : Param p a.toNat t → Param t b.toNat t' → OnlySpaces t' → Asks p a b

/-- `save` is called for what is asked, and an error is printed for every other line. -/
structure SavesAsked (line : Text) : Prop where
  saves : ∀ a b, cmdSave line = .ok (a, b) ↔ Asks (line.drop 4) a b ∧ a < b
  refuses : (∀ a b, ¬ (Asks (line.drop 4) a b ∧ a < b)) →
    cmdSave line = .error textErrCmd ∨ cmdSave line = .error textErrAddr

/-! ### What is passed over -/

/-- A number as a conversion takes it: white space, a sign and a `0x` may stand in front
of its digits, and anything behind them. -/
def Converts (t : Text) (x : ℤ) : Prop :=
  ∃ blank sign pre ds rest, t = blank ++ (sign ++ (pre ++ (ds ++ rest))) ∧ Blank blank ∧
    (sign = [] ∨ sign = ['-'] ∨ sign = ['+']) ∧
    (pre = ['0', 'x'] ∨ pre = ['0', 'X'] ∨
      pre = [] ∧ (ds = ['0'] → ∀ c ∈ rest.head?, c ≠ 'x' ∧ c ≠ 'X')) ∧
    ds ≠ [] ∧ (∀ c ∈ ds, isxdigit c = true) ∧ Stops isxdigit rest ∧
    x = if sign = ['-'] then -(numeral 16 ds : ℤ) else numeral 16 ds

theorem exists_prefix (s : Text) :
    ∃ pre, s = pre ++ scanPrefix s ∧ (pre = ['0', 'x'] ∨ pre = ['0', 'X'] ∨
      pre = [] ∧ ∀ u, s ≠ '0' :: 'x' :: u ∧ s ≠ '0' :: 'X' :: u) := by
  unfold scanPrefix
  split
  · exact ⟨['0', 'x'], rfl, .inl rfl⟩
  · exact ⟨['0', 'X'], rfl, .inr (.inl rfl)⟩
  · next hx hX => exact ⟨[], rfl, .inr (.inr ⟨rfl, fun u => ⟨hx u, hX u⟩⟩)⟩

/-- What is converted is in front. -/
theorem converts_of_sscanfHex {t : Text} {x : ℤ} (h : sscanfHex t = some x) : Converts t x := by
  obtain ⟨sign, hsplit, hsign, hneg⟩ := exists_sign (t.dropWhile isspace)
  obtain ⟨pre, hpre, hcases⟩ := exists_prefix (scanSign (t.dropWhile isspace)).2
  obtain ⟨ds, rest, hrun, hds, hrest⟩ :=
    exists_run isxdigit (scanPrefix (scanSign (t.dropWhile isspace)).2)
  have h : scanDigits 16 isxdigit (scanSign (t.dropWhile isspace)).1
      (scanPrefix (scanSign (t.dropWhile isspace)).2) = some x := h
  have hne : ds ≠ [] := by
    rintro rfl
    obtain ⟨c, hc, hdigit⟩ := scanDigits_some h
    rw [hrun] at hc
    rw [hrest c hc] at hdigit
    cases hdigit
  rw [hrun, scanDigits_append _ hne hds hrest, hneg] at h
  rw [hrun] at hpre
  refine ⟨t.takeWhile isspace, sign, pre, ds, rest, ?_, blank_takeWhile t, hsign, ?_, hne, hds,
    hrest, ?_⟩
  · rw [← hpre, ← hsplit]
    exact List.takeWhile_append_dropWhile.symm
  · refine hcases.imp_right fun hcases => hcases.imp_right ?_
    rintro ⟨rfl, hno⟩
    refine ⟨rfl, ?_⟩
    rintro rfl c hc
    obtain ⟨u, rfl⟩ := List.head?_eq_some_iff.mp hc
    have hno := hno u
    rw [hpre] at hno
    exact ⟨fun hx => hno.1 (hx ▸ rfl), fun hX => hno.2 (hX ▸ rfl)⟩
  · simpa using h.symm

/-- **A conversion** is as described. -/
theorem sscanfHex_eq_some_iff (t : Text) (x : ℤ) : sscanfHex t = some x ↔ Converts t x := by
  refine ⟨converts_of_sscanfHex, ?_⟩
  rintro ⟨blank, sign, pre, ds, rest, rfl, hblank, hsign, hpre, hne, hds, hrest, rfl⟩
  have hskip : scanPrefix (pre ++ (ds ++ rest)) = ds ++ rest := by
    rcases hpre with rfl | rfl | ⟨rfl, hx⟩
    · rfl
    · rfl
    · rw [List.nil_append]
      exact scanPrefix_of_isxdigit hds hx hne
  have hfront : ∃ c u, pre ++ (ds ++ rest) = c :: u ∧ isxdigit c = true := by
    obtain ⟨d, ds, rfl⟩ := List.exists_cons_of_ne_nil hne
    rcases hpre with rfl | rfl | ⟨rfl, -⟩
    · exact ⟨'0', _, rfl, rfl⟩
    · exact ⟨'0', _, rfl, rfl⟩
    · exact ⟨d, _, rfl, hds d List.mem_cons_self⟩
  obtain ⟨c, u, hcons, hc⟩ := hfront
  rw [hcons, sscanfHex, scanSign_passed hblank hsign u hc]
  show scanDigits 16 isxdigit (decide (sign = ['-'])) (scanPrefix (c :: u)) = _
  rw [← hcons, hskip, scanDigits_append _ hne hds hrest]
  simp

/-- The end that is read: `$ffff` if there is nothing but spaces, or the number in front. -/
def EndsAt (t : Text) (b : Word) : Prop :=
  OnlySpaces t ∧ b = 0xffff ∨ ¬ OnlySpaces t ∧ ∃ x, Converts t x ∧ b = BitVec.ofInt 16 x

/-- Behind the first parameter there is none, or one that a number up to `$ffff` fills. -/
def Clean (t : Text) : Prop :=
  OnlySpaces t ∨ ∃ (b : Word) (t' : Text), Param t b.toNat t' ∧ OnlySpaces t'

/-- The lines that are saved though they should not be: the first parameter is a number, an end
above it is read, and the number is above `$ffff` or the second parameter is not a number
up to `$ffff`. -/
def Careless (p : Text) : Prop :=
  ∃ n t b, Param p n t ∧ EndsAt t b ∧ BitVec.ofNat 16 n < b ∧ ¬ (n ≤ 0xffff ∧ Clean t)

/-! ### Parameters -/

theorem OnlySpaces.blank {s : Text} (h : OnlySpaces s) : Blank s := fun c hc => by
  rw [h c hc]
  rfl

theorem OnlySpaces.beq {s : Text} (h : OnlySpaces s) : ∀ c ∈ s, (c == ' ') = true :=
  fun c hc => beq_iff_eq.mpr (h c hc)

theorem OnlySpaces.dropWhile {s : Text} (h : OnlySpaces s) : s.dropWhile (· == ' ') = [] :=
  List.dropWhile_eq_nil_iff.mpr h.beq

/-- A text is spaces and what does not begin with one. -/
theorem exists_spaces (p : Text) : ∃ s q, p = s ++ q ∧ OnlySpaces s ∧ Stops (· == ' ') q := by
  obtain ⟨s, q, rfl, hs, hq⟩ := exists_run (· == ' ') p
  exact ⟨s, q, rfl, fun c hc => beq_iff_eq.mp (hs c hc), hq⟩

theorem AtSpace.stops {p : Text} (h : AtSpace p) : Stops isxdigit p := fun c hc => by
  rw [h c hc]
  rfl

theorem OnlySpaces.atSpace {p : Text} (h : OnlySpaces p) : AtSpace p :=
  fun c hc => h c (List.mem_of_mem_head? hc)

/-- Nothing begins both with a space and without. -/
theorem AtSpace.eq_nil {q : Text} (h : AtSpace q) (hq : Stops (· == ' ') q) : q = [] := by
  rcases q with - | ⟨c, q⟩
  · rfl
  · have hspace := hq c rfl
    rw [h c rfl] at hspace
    cases hspace

/-- What `get_param` does behind the spaces. -/
theorem getParam_append {s q : Text} (hs : OnlySpaces s) (hq : Stops (· == ' ') q) (addr : Word) :
    getParam (s ++ q) addr =
      if q = [] then ((0 : ℤ), addr)
      else match sscanfHex q with
        | none => (-1, addr)
        | some v => ((s.length + (q.takeWhile isxdigit).length : ℕ), BitVec.ofInt 16 v) := by
  rw [getParam, takeWhile_append_stops hs.beq hq, dropWhile_append_stops hs.beq hq]

/-- Digits are no spaces. -/
theorem stops_space {ds : Text} (hne : ds ≠ []) (hds : ∀ c ∈ ds, isxdigit c = true) (t : Text) :
    Stops (· == ' ') (ds ++ t) := by
  obtain ⟨d, ds, rfl⟩ := List.exists_cons_of_ne_nil hne
  intro c hc
  obtain rfl : d = c := Option.some.inj hc
  exact beq_eq_false_iff_ne.mpr (ne_of_class (hds d List.mem_cons_self) rfl)

/-- A number is read, and counted. -/
theorem getParam_param {p t : Text} {n : ℕ} (h : Param p n t) (addr : Word) :
    ∃ k ≤ p.length, getParam p addr = ((k : ℤ), BitVec.ofNat 16 n) ∧ p.drop k = t := by
  obtain ⟨s, ds, rfl, -, hs, hne, hds, ht, rfl⟩ := h
  have hx : ds = ['0'] → ∀ c ∈ t.head?, c ≠ 'x' ∧ c ≠ 'X' := by
    rintro - c hc
    rw [ht c hc]
    decide
  refine ⟨s.length + ds.length, by simp, ?_, ?_⟩
  · rw [getParam_append hs (stops_space hne hds t), if_neg (by simp [hne]),
      sscanfHex_digits hne hds ht.stops hx, takeWhile_append_stops hds ht.stops]
    exact congrArg (Prod.mk _) (BitVec.ofInt_natCast _ _)
  · rw [← List.append_assoc, ← List.length_append, List.drop_left]

/-- Spaces and digits are a number, if there are some of both. -/
theorem param_of_atSpace {s ds t : Text} (hs : OnlySpaces s) (hds : ∀ c ∈ ds, isxdigit c = true)
    (hq : Stops (· == ' ') (ds ++ t)) (hnil : ds ++ t ≠ []) (hspace : AtSpace (s ++ (ds ++ t)))
    (ht : AtSpace t) : Param (s ++ (ds ++ t)) (numeral 16 ds) t := by
  refine ⟨s, ds, rfl, ?_, hs, ?_, hds, ht, rfl⟩
  · rintro rfl
    exact hnil (hspace.eq_nil hq)
  · rintro rfl
    exact hnil (ht.eq_nil hq)

/-- Where the second parameter is read from. -/
def nextParam (p : Text) : ℕ := (BitVec.ofInt 8 (getParam p 0x1a00).1 + 4).toNat

theorem nextParam_eq {p : Text} {k : ℕ} (hk : k < 252) (h : (getParam p 0x1a00).1 = k) :
    nextParam p = k + 4 := by
  rw [nextParam, h, BitVec.ofInt_natCast]
  bv_omega

/-- The start, and the text behind the first parameter. -/
inductive Starts : Text → Word → Text → Prop
  | none {p} : OnlySpaces p → Starts p 0x1a00 p
  | param {p n t} : Param p n t → Starts p (BitVec.ofNat 16 n) t

theorem Starts.atSpace {p t : Text} {a : Word} (h : Starts p a t) : AtSpace p ∧ AtSpace t := by
  cases h with
  | none hp => exact ⟨hp.atSpace, hp.atSpace⟩
  | param hp =>
    obtain ⟨s, ds, rfl, hne, hs, -, -, ht, -⟩ := hp
    refine ⟨fun c hc => ?_, ht⟩
    obtain ⟨d, s, rfl⟩ := List.exists_cons_of_ne_nil hne
    obtain rfl : d = c := Option.some.inj hc
    exact hs d List.mem_cons_self

section First

variable {buffer : Text} (hlen : buffer.length ≤ 63)
include hlen

theorem Starts.getParam {a : Word} {t : Text} (h : Starts (buffer.drop 4) a t) :
    (getParam (buffer.drop 4) 0x1a00).2 = a ∧ buffer.drop (nextParam (buffer.drop 4)) = t := by
  cases h with
  | none hp =>
    have hget : Dan64.getParam (buffer.drop 4) 0x1a00 = (0, 0x1a00) := by
      rw [Dan64.getParam, hp.dropWhile]
      rfl
    rw [@nextParam_eq _ 0 (by decide) (congrArg Prod.fst hget), hget]
    exact ⟨rfl, rfl⟩
  | param hp =>
    obtain ⟨k, hk, hget, hdrop⟩ := getParam_param hp 0x1a00
    rw [List.length_drop] at hk
    rw [nextParam_eq (by omega) (congrArg Prod.fst hget), hget, Nat.add_comm, ← List.drop_drop]
    exact ⟨rfl, hdrop⟩

/-- **The first parameter** ends at a space only if it is a number, or there is none. -/
theorem starts_of_atSpace (hname : ¬ AtSpace (buffer.drop 3)) (hspace : AtSpace (buffer.drop 4))
    (hend : AtSpace (buffer.drop (nextParam (buffer.drop 4)))) :
    ∃ a t, Starts (buffer.drop 4) a t := by
  obtain ⟨s, q, hp, hs, hq⟩ := exists_spaces (buffer.drop 4)
  have hget := getParam_append hs hq 0x1a00
  rw [← hp] at hget
  by_cases hnil : q = []
  · rw [hp, hnil, List.append_nil]
    exact ⟨_, _, .none hs⟩
  rw [if_neg hnil] at hget
  rcases hscan : sscanfHex q with - | v
  · -- -1 is 255 in a byte, and 3 behind the addition: the last character of the name
    rw [hscan] at hget
    have hthree : nextParam (buffer.drop 4) = 3 := by
      rw [nextParam, congrArg Prod.fst hget]
      show (BitVec.ofInt 8 (-1) + 4).toNat = 3
      decide
    rw [hthree] at hend
    exact absurd hend hname
  · obtain ⟨ds, t, rfl, hds, ht⟩ := exists_run isxdigit q
    rw [hscan, takeWhile_append_stops hds ht] at hget
    have hcount := congrArg List.length hp
    rw [List.length_drop, List.length_append, List.length_append] at hcount
    rw [nextParam_eq (by omega) (congrArg Prod.fst hget), Nat.add_comm, ← List.drop_drop, hp,
      ← List.append_assoc, ← List.length_append, List.drop_left] at hend
    rw [hp] at hspace ⊢
    exact ⟨_, t, .param (param_of_atSpace hs hds hq hnil hspace hend)⟩

end First

/-- The second parameter is whatever a number is read from. -/
theorem getParam_end (t : Text) (b : Word) :
    0 ≤ (getParam t 0xffff).1 ∧ (getParam t 0xffff).2 = b ↔ EndsAt t b := by
  obtain ⟨s, q, rfl, hs, hq⟩ := exists_spaces t
  rw [getParam_append hs hq, EndsAt]
  by_cases hnil : q = []
  · rw [if_pos hnil, hnil, List.append_nil]
    simp [hs, eq_comm]
  · have hother : ¬ OnlySpaces (s ++ q) := by
      intro h
      have hq' : OnlySpaces q := fun c hc => h c (List.mem_append_right s hc)
      exact hnil (hq'.atSpace.eq_nil hq)
    rw [if_neg hnil]
    simp only [hother, false_and, not_false_eq_true, true_and, false_or, ← sscanfHex_eq_some_iff,
      sscanfHex_blank hs.blank]
    rcases sscanfHex q with - | v
    · simp
    · have hcount : (0 : ℤ) ≤ (s.length + (q.takeWhile isxdigit).length : ℕ) := Int.natCast_nonneg _
      simp only [hcount, true_and, Option.some.injEq, exists_eq_left', eq_comm]

/-! ### `save` -/

/-- What is read: the start, and the end behind it. -/
def Reads (p : Text) (a b : Word) : Prop := ∃ t, Starts p a t ∧ EndsAt t b

/-- The whole command, in front of `save`. -/
theorem cmdSave_eq {buffer rest : Text} (hdrop : buffer.drop (nextParam (buffer.drop 4)) = rest) :
    cmdSave buffer =
      if ¬ AtSpace (buffer.drop 4) then .error textErrCmd
      else if ¬ AtSpace rest then .error textErrCmd
      else if (getParam rest 0xffff).1 < 0 then .error textErrAddr
      else if (getParam (buffer.drop 4) 0x1a00).2 ≥ (getParam rest 0xffff).2 then
        .error textErrAddr
      else .ok ((getParam (buffer.drop 4) 0x1a00).2, (getParam rest 0xffff).2) := by
  subst hdrop
  rw [cmdSave, nextParam]
  rcases getParam (buffer.drop 4) 0x1a00 with ⟨pt, startAddr⟩
  have hnever : ¬ BitVec.ofInt 8 pt < 0 := BitVec.not_lt_zero
  simp only [if_neg hnever]

theorem cmdSave_eq_ok_iff {buffer rest : Text}
    (hdrop : buffer.drop (nextParam (buffer.drop 4)) = rest) (a b : Word) :
    cmdSave buffer = .ok (a, b) ↔ (AtSpace (buffer.drop 4) ∧ AtSpace rest) ∧
      (getParam (buffer.drop 4) 0x1a00).2 = a ∧
      (0 ≤ (getParam rest 0xffff).1 ∧ (getParam rest 0xffff).2 = b) ∧ a < b := by
  rw [cmdSave_eq hdrop]
  by_cases hspace : AtSpace (buffer.drop 4)
  swap
  · rw [if_pos hspace]
    exact iff_of_false nofun fun h => hspace h.1.1
  by_cases hrest : AtSpace rest
  swap
  · rw [if_neg (not_not.mpr hspace), if_pos hrest]
    exact iff_of_false nofun fun h => hrest h.1.2
  rw [if_neg (not_not.mpr hspace), if_neg (not_not.mpr hrest)]
  split_ifs with hneg hge
  · exact iff_of_false nofun fun h => absurd h.2.2.1.1 (not_le.mpr hneg)
  · refine iff_of_false nofun ?_
    rintro ⟨-, rfl, ⟨-, rfl⟩, hlt⟩
    exact absurd hlt (BitVec.not_lt.mpr hge)
  · rw [Except.ok.injEq, Prod.mk.injEq]
    constructor
    · rintro ⟨rfl, rfl⟩
      exact ⟨⟨hspace, hrest⟩, rfl, ⟨not_lt.mp hneg, rfl⟩, BitVec.not_le.mp hge⟩
    · rintro ⟨-, ha, ⟨-, hb⟩, -⟩
      exact ⟨ha, hb⟩

/-- **What `save` is called with.** -/
theorem cmdSave_ok_iff {buffer : Text} (hlen : buffer.length ≤ 63)
    (hname : ¬ AtSpace (buffer.drop 3)) (a b : Word) :
    cmdSave buffer = .ok (a, b) ↔ Reads (buffer.drop 4) a b ∧ a < b := by
  rw [cmdSave_eq_ok_iff rfl, getParam_end, ← and_assoc, ← and_assoc]
  refine and_congr_left fun _ => ?_
  constructor
  · rintro ⟨⟨⟨hspace, hrest⟩, rfl⟩, hend⟩
    obtain ⟨a, t, hstarts⟩ := starts_of_atSpace hlen hname hspace hrest
    obtain ⟨ha, ht⟩ := hstarts.getParam hlen
    rw [ht] at hend
    exact ⟨t, ha ▸ hstarts, hend⟩
  · rintro ⟨t, hstarts, hend⟩
    obtain ⟨ha, ht⟩ := hstarts.getParam hlen
    rw [ha, ht]
    exact ⟨⟨hstarts.atSpace, rfl⟩, hend⟩

/-- The name of the command is in front. -/
theorem not_atSpace_of_dispatch {line : Text} (h : dispatch line = some .cmdSave) :
    ¬ AtSpace (line.drop 3) := by
  obtain ⟨cmd, hfind, hexec⟩ := Option.map_eq_some_iff.mp h
  have hcmd : cmd = ⟨"save".toList, .cmdSave, true⟩ := by
    have hmem := List.mem_of_find?_eq_some hfind
    simp only [cmds, List.mem_cons, List.not_mem_nil, or_false] at hmem
    rcases hmem with rfl | rfl | rfl | rfl | rfl | rfl | rfl | rfl | rfl
    all_goals first | exact absurd hexec (by decide) | rfl
  have htakes := List.find?_some hfind
  rw [hcmd] at htakes
  have hname : (line.take 4).map toupper = ['S', 'A', 'V', 'E'] := beq_iff_eq.mp htakes
  rw [List.map_take] at hname
  have hdrop : (line.drop 3).head?.map toupper = some 'E' := by
    rw [List.head?_drop, ← List.getElem?_map, ← List.getElem?_take_of_lt (by decide : 3 < 4), hname]
    rfl
  intro hspace
  obtain ⟨c, hc, hupper⟩ := Option.map_eq_some_iff.mp hdrop
  rw [hspace c hc] at hupper
  exact absurd hupper (by decide)

/-- Nothing else is printed. -/
theorem cmdSave_error {line text : Text} (h : cmdSave line = .error text) :
    text = textErrCmd ∨ text = textErrAddr := by
  rw [cmdSave_eq rfl] at h
  split_ifs at h
  · exact .inr (Except.error.inj h).symm
  · exact .inr (Except.error.inj h).symm
  · exact .inl (Except.error.inj h).symm
  · exact .inl (Except.error.inj h).symm

/-! ### What is asked -/

theorem Param.eq {p t : Text} {n : ℕ} (h : Param p n t) :
    n = numeral 16 ((p.dropWhile (· == ' ')).takeWhile isxdigit) ∧
      t = (p.dropWhile (· == ' ')).dropWhile isxdigit := by
  obtain ⟨s, ds, rfl, -, hs, hne, hds, ht, rfl⟩ := h
  rw [dropWhile_append_stops hs.beq (stops_space hne hds t), takeWhile_append_stops hds ht.stops,
    dropWhile_append_stops hds ht.stops]
  exact ⟨rfl, rfl⟩

/-- There is one way to read a number in front. -/
theorem Param.unique {p t t' : Text} {n n' : ℕ} (h : Param p n t) (h' : Param p n' t') :
    n = n' ∧ t = t' := by
  obtain ⟨hn, ht⟩ := h.eq
  obtain ⟨hn', ht'⟩ := h'.eq
  exact ⟨hn.trans hn'.symm, ht.trans ht'.symm⟩

theorem Param.not_onlySpaces {p t : Text} {n : ℕ} (h : Param p n t) : ¬ OnlySpaces p := by
  obtain ⟨s, ds, rfl, -, -, hne, hds, -, -⟩ := h
  obtain ⟨d, ds, rfl⟩ := List.exists_cons_of_ne_nil hne
  intro hp
  have hd := hds d List.mem_cons_self
  rw [hp d (by simp)] at hd
  cases hd

theorem Param.starts {p t : Text} {a : Word} (h : Param p a.toNat t) : Starts p a t := by
  have hstarts := Starts.param h
  rwa [BitVec.ofNat_toNat, BitVec.setWidth_eq] at hstarts

/-- A number is what `sscanf` reads of it. -/
theorem Param.endsAt_iff {t t' : Text} {b' : Word} (h : Param t b'.toNat t') (b : Word) :
    EndsAt t b ↔ b = b' := by
  obtain ⟨k, -, hget, -⟩ := getParam_param h 0xffff
  rw [BitVec.ofNat_toNat, BitVec.setWidth_eq] at hget
  rw [← getParam_end, hget]
  exact ⟨fun hb => hb.2.symm, fun hb => ⟨Int.natCast_nonneg k, hb.symm⟩⟩

theorem OnlySpaces.endsAt_iff {t : Text} (h : OnlySpaces t) (b : Word) :
    EndsAt t b ↔ b = 0xffff := by
  simp [EndsAt, h]

/-- What is asked is read. -/
theorem Asks.reads {p : Text} {a b : Word} (h : Asks p a b) : Reads p a b := by
  cases h with
  | none hp => exact ⟨p, .none hp, (hp.endsAt_iff _).mpr rfl⟩
  | start hparam ht => exact ⟨_, hparam.starts, (ht.endsAt_iff _).mpr rfl⟩
  | both hparam hend _ => exact ⟨_, hparam.starts, (hend.endsAt_iff _).mpr rfl⟩

/-- A number up to `$ffff` with such a number or nothing behind it is what was asked. -/
theorem asks_of_clean {p t : Text} {n : ℕ} {b : Word} (hparam : Param p n t) (hn : n ≤ 0xffff)
    (hclean : Clean t) (hend : EndsAt t b) : Asks p (BitVec.ofNat 16 n) b := by
  have hstart : Param p (BitVec.ofNat 16 n).toNat t := by
    rwa [BitVec.toNat_ofNat, Nat.mod_eq_of_lt (by omega)]
  rcases hclean with ht | ⟨b', t', hb', ht'⟩
  · obtain rfl := (ht.endsAt_iff b).mp hend
    exact .start hstart ht
  · obtain rfl := (hb'.endsAt_iff b).mp hend
    exact .both hstart hb' ht'

/-- What was asked is not careless. -/
theorem Asks.clean {p t : Text} {n : ℕ} {a b : Word} (h : Asks p a b) (hparam : Param p n t) :
    n ≤ 0xffff ∧ Clean t := by
  cases h with
  | none hp => exact absurd hp hparam.not_onlySpaces
  | start hstart ht =>
    obtain ⟨rfl, rfl⟩ := hparam.unique hstart
    exact ⟨Nat.le_of_lt_succ a.isLt, .inl ht⟩
  | @both _ _ b t' hstart hend ht' =>
    obtain ⟨rfl, rfl⟩ := hparam.unique hstart
    exact ⟨Nat.le_of_lt_succ a.isLt, .inr ⟨b, t', hend, ht'⟩⟩

/-- **`save` saves what was asked or refuses**, exactly if the line is not careless. -/
theorem savesAsked_iff {line : Text} (hlen : line.length ≤ 63)
    (hcmd : dispatch line = some .cmdSave) : SavesAsked line ↔ ¬ Careless (line.drop 4) := by
  have hok := cmdSave_ok_iff hlen (not_atSpace_of_dispatch hcmd)
  constructor
  · rintro hsaves ⟨n, t, b, hparam, hend, hlt, hunclean⟩
    have hcall := (hok _ b).mpr ⟨⟨t, .param hparam, hend⟩, hlt⟩
    obtain ⟨hasks, -⟩ := (hsaves.saves _ b).mp hcall
    exact hunclean (hasks.clean hparam)
  · intro hcareful
    have hsaves : ∀ a b, cmdSave line = .ok (a, b) ↔ Asks (line.drop 4) a b ∧ a < b := by
      intro a b
      rw [hok]
      refine and_congr_left fun hlt => ⟨?_, Asks.reads⟩
      rintro ⟨t, hstarts, hend⟩
      cases hstarts with
      | none hp =>
        obtain rfl := (hp.endsAt_iff b).mp hend
        exact .none hp
      | @param n _ hparam =>
        obtain ⟨hn, hclean⟩ := not_not.mp fun h => hcareful ⟨n, t, b, hparam, hend, hlt, h⟩
        exact asks_of_clean hparam hn hclean hend
    refine ⟨hsaves, fun hnone => ?_⟩
    rcases hresult : cmdSave line with text | ⟨a, b⟩
    · exact (cmdSave_error hresult).imp (congrArg _) (congrArg _)
    · exact absurd ((hsaves a b).mp hresult) (hnone a b)

theorem savesAsked_iff_program : SavesAsked "save 1a00 1b00".toList ↔
    ¬ Careless ("save 1a00 1b00".toList.drop 4) :=
  savesAsked_iff (by decide) (by decide)

/-- A number that wraps, and an end with something behind it, are saved. -/
theorem save_careless :
    dispatch "save 11a00".toList = some .cmdSave ∧ ¬ SavesAsked "save 11a00".toList ∧
      dispatch "save 1a00 1b00x".toList = some .cmdSave ∧
      ¬ SavesAsked "save 1a00 1b00x".toList := by
  refine ⟨by decide, fun h => ?_, by decide, fun h => ?_⟩
  · have hcall : cmdSave "save 11a00".toList = .ok (0x1a00, 0xffff) := by decide
    have hparam : Param ("save 11a00".toList.drop 4) 0x11a00 [] :=
      ⟨[' '], "11a00".toList, rfl, List.cons_ne_nil _ _, List.forall_mem_singleton.mpr rfl,
        List.cons_ne_nil _ _, List.all_eq_true.mp rfl, nofun, rfl⟩
    exact absurd (((h.saves _ _).mp hcall).1.clean hparam).1 (by decide)
  · have hcall : cmdSave "save 1a00 1b00x".toList = .ok (0x1a00, 0x1b00) := by decide
    have hparam : Param ("save 1a00 1b00x".toList.drop 4) 0x1a00 " 1b00x".toList :=
      ⟨[' '], "1a00".toList, rfl, List.cons_ne_nil _ _, List.forall_mem_singleton.mpr rfl,
        List.cons_ne_nil _ _, List.all_eq_true.mp rfl, by rintro _ ⟨⟩; rfl, rfl⟩
    rcases (((h.saves _ _).mp hcall).1.clean hparam).2 with hspaces | ⟨b, t', hend, hspaces⟩
    · exact absurd (hspaces '1' (by decide)) (by decide)
    · rw [hend.eq.2] at hspaces
      exact absurd (hspaces 'x' (by decide)) (by decide)

end Dan64
