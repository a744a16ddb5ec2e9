/-
Dan64/ScanCodes.lean

The shell at its keyboard: from the codes on the wire to the memory.

A turn of `buffered_input` calls `keyboard_asc`, which polls the serial port; `poke` and
`as` flush the ring before they ask for a line.  A turn takes every byte it polls, so that
the flush forgets none, and a turn without a byte, or within a code, is not seen by the
desk (`Follows.turn`).  Only the order of the codes matters, not the turns they arrive in
(`desk_codes`).

Every line can be typed (`strokes`), and keys that only add to the end of a line never lead
off the screen (`Behind.safe`).  So a program can be typed key by key (`program_codes`).
-/
import Dan64.AsProgram
import Dan64.Desk
import Dan64.Keyboard

namespace Dan64

open BlockMem CText Keyboard Mealy Terminal

/-- The shell and the globals of `keyboard.c`. -/
structure KeyShell (R : Type) where
  keyboard : Keyboard.State
  shell : Shell R

namespace KeyShell

variable {R : Type} (font : ℕ → Byte) (past : OpRow)

/-- `keyboard_flush` -/
def keyboardFlush (k : Keyboard.State) : Keyboard.State := { k with ring := k.ring.clear }

/-- `cmd_poke` and `cmd_as` flush the ring when they ask for a line. -/
def flushed : Prompt → Shell R → Keyboard.State → Keyboard.State
  | .command, .waits .cmdPoke _ _ _, k => keyboardFlush k
  | .command, .waits .cmdAs _ _ _, k => keyboardFlush k
  | _, _, k => k

/-- A turn of the loop of `keyboard_asc`, and of the loop of `buffered_input` if it is the
last one of the call. -/
def turn (c : KeyShell R) (udr : Option Byte) : Text × KeyShell R :=
  match c.shell with
  | .waits prompt _ _ _ =>
    match ascTurn udr c.keyboard with
    | (none, k) => ([], ⟨k, c.shell⟩)
    | (some d, k) =>
      let (text, sh) := c.shell.key font past d
      (text, ⟨flushed prompt sh k, sh⟩)
  | .calls _ _ _ => ([], c)

/-- What a turn hands over leaves the cursor on the screen. -/
def Safe (c : KeyShell R) (udr : Option Byte) : Prop :=
  match (ascTurn udr c.keyboard).1 with
  | none => True
  | some d => c.shell.Safe d

instance (c : KeyShell R) : DecidablePred c.Safe := fun udr => by
  unfold Safe
  split <;> infer_instance

/-- The state behind a turn. -/
def next (c : KeyShell R) (udr : Option Byte) : KeyShell R := (turn font past c udr).2

end KeyShell

/-! ### The keyboard in the loop -/

namespace Keyboard

variable {k : State}

theorem ascTurn_none (h : k.ring.Empty) : ascTurn none k = (some 0, k) := by
  rw [ascTurn, poll, scancode, if_pos h]
  rfl

/-- A turn takes the byte that it polls. -/
theorem ascTurn_some (h : k.ring.Empty) {b : Byte} (hb : b ≠ 0) :
    (ascTurn (some b) k).1 = (translate k.flags b).1 ∧
      (ascTurn (some b) k).2.flags = (translate k.flags b).2 ∧
      (ascTurn (some b) k).2.ring.Empty := by
  have hstart := (RingBuf.contents_eq_nil_iff k.ring).mpr h
  have hroom : ¬ k.ring.Full := by
    rw [RingBuf.full_iff, (RingBuf.empty_iff k.ring).mp h]
    decide
  have hpush := RingBuf.contents_push hroom b
  rw [hstart, List.nil_append] at hpush
  have hne : ¬ (k.ring.push b).Empty := fun hempty =>
    List.cons_ne_nil b [] (hpush.symm.trans ((RingBuf.contents_eq_nil_iff _).mpr hempty))
  have hpop := RingBuf.contents_pop hne
  rw [hpush] at hpop
  obtain ⟨hhead, hrest⟩ := List.cons.inj hpop
  have hempty := (RingBuf.contents_eq_nil_iff _).mp hrest.symm
  have hturn : ascTurn (some b) k
      = ((translate k.flags b).1, ⟨(k.ring.push b).pop, (translate k.flags b).2⟩) := by
    simp only [ascTurn, poll, scancode, if_neg hne, ← hhead, if_neg hb]
  rw [hturn]
  exact ⟨rfl, rfl, hempty⟩

end Keyboard

namespace Desk

variable (past : OpRow)

/-- The desk after some keys. -/
def after (desk : Desk) (keys : List Byte) : Desk := (feed (key past) desk keys).2

theorem after_append (desk : Desk) (keys keys' : List Byte) :
    desk.after past (keys ++ keys') = (desk.after past keys).after past keys' := by
  rw [after, feed_append]
  rfl

theorem after_calls (call : Call) (m : Word → Byte) (keys : List Byte) :
    (Desk.calls call m).after past keys = .calls call m := by
  induction keys with
  | nil => rfl
  | cons d keys ih => exact ih

/-- Code 0 is no key. -/
theorem key_zero (desk : Desk) : (desk.key past 0).2 = desk := by
  cases desk with
  | waits prompt poke as line m =>
    have hinside : ¬ (Typed.editing line).InsertsInside (prompt.size.toNat - 1) 0 :=
      fun h => h.1.1 rfl
    rw [key, Typed.nextBefore, if_neg hinside]
    rfl
  | calls => rfl

theorem after_characters (desk : Desk) (d : Byte) :
    desk.after past (characters [d]) = (desk.key past d).2 := by
  rw [characters_cons]
  split
  · next hd => rw [hd, key_zero]; rfl
  · rfl

end Desk

/-! ### Turns -/

namespace KeyShell

variable {R : Type} {font : ℕ → Byte} {past : OpRow}

/-- The shell has its desk, with the keyboard between two turns; or the keyboard is in the
hands of the function that is called. -/
inductive Follows : KeyShell R → Flags → Desk → Prop
  | waits {k : Keyboard.State} {sh : Shell R} {desk : Desk} : sh.Behind desk → k.ring.Empty →
      Follows ⟨k, sh⟩ k.flags desk
  | calls {k : Keyboard.State} {sh : Shell R} {f : Flags} {call : Call} {m : Word → Byte} :
      sh.Behind (.calls call m) → Follows ⟨k, sh⟩ f (.calls call m)

variable {c : KeyShell R} {f : Flags} {desk : Desk}

theorem Follows.behind (h : Follows c f desk) : c.shell.Behind desk := by
  cases h with
  | waits h => exact h
  | calls h => exact h

theorem flushed_flags (prompt : Prompt) (sh : Shell R) (k : Keyboard.State) :
    (flushed prompt sh k).flags = k.flags := by
  unfold flushed
  split <;> rfl

theorem flushed_empty (prompt : Prompt) (sh : Shell R) {k : Keyboard.State} (h : k.ring.Empty) :
    (flushed prompt sh k).ring.Empty := by
  unfold flushed
  split
  · exact (RingBuf.contents_eq_nil_iff _).mp (RingBuf.contents_clear _)
  · exact (RingBuf.contents_eq_nil_iff _).mp (RingBuf.contents_clear _)
  · exact h

/-- A turn that hands a key over, or none. -/
theorem follows_turn {k k' : Keyboard.State} {sh : Shell R} {udr : Option Byte} {o : Option Byte}
    (hturn : ascTurn udr k = (o, k')) (hempty : k'.ring.Empty) (h : sh.Behind desk)
    (hsafe : Safe ⟨k, sh⟩ udr) :
    Follows (next font past ⟨k, sh⟩ udr) k'.flags (desk.after past (characters o.toList)) := by
  cases h with
  | calls hk =>
    rw [Desk.after_calls]
    exact .calls (.calls hk)
  | @waits prompt statics kernel e buffer m hgood hbounded hkeeps =>
    rw [next, turn, hturn]
    rcases o with - | d
    · exact .waits (.waits hgood hbounded hkeeps) hempty
    · rw [Safe, hturn] at hsafe
      obtain ⟨-, hkey⟩ := @Shell.Behind.key R font past _ _
        (.waits hgood hbounded hkeeps) d hsafe
      have hflags := flushed_flags prompt
        (Shell.key font past (.waits prompt statics kernel e) d).2 k'
      rw [← hflags, Option.toList_some, Desk.after_characters]
      exact .waits hkey (flushed_empty prompt _ hempty)

/-- **Step.**  The desk is given what the decoder makes of the byte, if there is one. -/
theorem Follows.turn (h : Follows c f desk) {udr : Option Byte} (hudr : ∀ b ∈ udr, b ≠ 0)
    (hsafe : Safe c udr) :
    Follows (next font past c udr) (translated f udr.toList).2
      (desk.after past (translated f udr.toList).1) := by
  cases h with
  | calls hbehind =>
    rw [Desk.after_calls]
    cases hbehind with
    | calls hk => exact .calls (.calls hk)
  | @waits k sh _ hbehind hempty =>
    rcases udr with - | b
    · have hnone := ascTurn_none hempty
      exact follows_turn hnone hempty hbehind hsafe
    · obtain ⟨hout, hflags, hempty'⟩ := ascTurn_some hempty (hudr b rfl)
      rw [Option.toList_some, translated_cons, ← hout, ← hflags]
      generalize hturn : ascTurn (some b) k = r at hempty'
      obtain ⟨o, k'⟩ := r
      have hone : characters o.toList ++ (translated k'.flags []).1 = characters o.toList :=
        List.append_nil _
      rw [hone]
      exact follows_turn hturn hempty' hbehind hsafe

/-- **Run.** -/
theorem Follows.feed (h : Follows c f desk) {udrs : List (Option Byte)}
    (hudrs : ∀ b ∈ udrs.reduceOption, b ≠ 0) (hsafe : Along (next font past) Safe c udrs) :
    Follows (Mealy.feed (KeyShell.turn font past) c udrs).2 (translated f udrs.reduceOption).2
      (desk.after past (translated f udrs.reduceOption).1) := by
  induction udrs generalizing c f desk with
  | nil => exact h
  | cons udr udrs ih =>
    have hcons : (udr :: udrs).reduceOption = udr.toList ++ udrs.reduceOption := by
      cases udr <;> rfl
    rw [hcons, translated_append, Desk.after_append]
    rw [hcons] at hudrs
    refine ih (h.turn (fun b hb => hudrs b ?_) hsafe.1)
      (fun b hb => hudrs b (List.mem_append_right _ hb)) hsafe.2
    exact List.mem_append_left _ (Option.mem_toList.mpr hb)

/-- A shell that waits for a command, with a keyboard that nobody has touched. -/
def Idle (statics : Statics) (m : Word → Byte) (c : KeyShell R) : Prop :=
  c.shell.Holds statics m ∧ c.keyboard.ring.Empty ∧ c.keyboard.flags = ⟨false, false⟩

theorem Idle.follows {statics : Statics} {m : Word → Byte} (h : Idle statics m c) :
    Follows c ⟨false, false⟩ (Desk.ask .command statics.poke statics.as m) := by
  obtain ⟨k, sh⟩ := c
  obtain ⟨⟨kernel, hk, rfl⟩, hempty, hflags⟩ := h
  rw [← hflags]
  exact .waits (Shell.behind_ask hk .command statics) hempty

/-- **Only the order of the codes matters.**  However they are spread over the turns, what is
behind the screen and what is called is what the desk makes of the characters of the keys
that are pressed. -/
theorem desk_codes (font : ℕ → Byte) (past : OpRow) {statics : Statics} {m : Word → Byte}
    (h : Idle statics m c) {codes : List Code} (hvalid : ∀ code ∈ codes, code.Valid)
    (hsettled : ShiftSettled codes) {udrs : List (Option Byte)}
    (harrive : udrs.reduceOption = codes.flatMap Code.bytes)
    (hsafe : Along (next font past) Safe c udrs) :
    let c' := (feed (turn font past) c udrs).2
    let desk := (Desk.ask .command statics.poke statics.as m).after past (characters (typed codes))
    c'.shell.Behind desk ∧ ∀ x, PROG_START ≤ x → c'.shell.sram x = desk.mem x := by
  have hcodes : ∀ b ∈ udrs.reduceOption, b ≠ 0 := by
    rw [harrive]
    intro b hb
    obtain ⟨code, hcode, hb⟩ := List.mem_flatMap.mp hb
    exact Code.ne_zero_of_mem_bytes (hvalid code hcode) hb
  have hbehind := (h.follows.feed hcodes hsafe).behind
  have htyped := (translated_codes hvalid []).trans ((typed_eq_iff codes).mpr hsettled)
  rw [harrive, show (⟨false, false⟩ : Flags) = ⟨shiftBit [], false⟩ from rfl, htyped] at hbehind
  exact ⟨hbehind, fun x hx => hbehind.sram hx⟩

/-- `A`, with idle turns within the codes. -/
theorem desk_codes_shift :
    let k : Kernel Unit := ⟨fun _ => 0, ⟨0, 0, false, fun _ => 0, []⟩, fun _ => 0, false, ()⟩
    let c : KeyShell Unit := ⟨reset, Shell.ask .command ⟨0, 0, 0, 0⟩ k⟩
    let codes : List Code := [.make 0x12, .make 0x1c, .brk 0x1c, .brk 0x12]
    let udrs := [some 0x12, none, some 0x1c, some 0xf0, none, some 0x1c, some 0xf0, some 0x12]
    let desk := (Desk.ask .command 0 0 fun _ => 0).after zeroRow (characters (typed codes))
    (feed (turn (fun _ => 0) zeroRow) c udrs).2.shell.Behind desk := by
  intro k c codes udrs desk
  have hidle : Idle ⟨0, 0, 0, 0⟩ (fun _ => 0) c :=
    ⟨⟨k, ⟨⟨Nat.zero_le _, Nat.zero_le _, List.forall_mem_nil _⟩, fun _ _ => rfl⟩, rfl⟩, by decide,
      rfl⟩
  have hsettled : ShiftSettled codes := by
    unfold ShiftSettled
    decide +kernel
  have hvalid : ∀ code ∈ codes, code.Valid := by decide
  have hsafe : Along (next (fun _ => 0) zeroRow) Safe c udrs := by decide +kernel
  exact (desk_codes (fun _ => 0) zeroRow hidle hvalid hsettled rfl hsafe).1

end KeyShell

/-! ### Typing at the end of the line -/

/-- What is typed in a line, or enters it. -/
def Keyable (d : Byte) : Prop := d = 0x0a ∨ (0x20 ≤ d ∧ d < 0x7f)

instance : DecidablePred Keyable := fun d => inferInstanceAs (Decidable (d = _ ∨ _))

theorem Keyable.ne_zero {d : Byte} (h : Keyable d) : d ≠ 0 := by
  rintro rfl
  exact absurd h (by decide)

theorem keyable_typed {line : Text} (h : Typable line) : ∀ d ∈ Shell.typed line, Keyable d := by
  intro d hd
  rcases List.mem_append.mp hd with hd | hd
  · obtain ⟨ch, hch, rfl⟩ := List.mem_map.mp hd
    obtain ⟨hge, hlt⟩ := h ch hch
    refine .inr ⟨?_, ?_⟩ <;> bv_omega
  · exact .inl (List.mem_singleton.mp hd)

namespace Desk

/-- The cursor is behind the line. -/
def AtEnd : Desk → Prop
  | .waits _ _ _ line _ => line.right = []
  | .calls _ _ => True

variable {past : OpRow} {desk : Desk}

theorem atEnd_enter (prompt : Prompt) (poke as : Word) (m : Word → Byte) (line : Text) :
    (enter past prompt poke as m line).2.AtEnd := by
  cases prompt
  case command =>
    rw [enter, command]
    repeat' split
    all_goals first | exact rfl | exact trivial
  case cmdPoke =>
    rw [enter, poked]
    repeat' split
    all_goals exact rfl
  case cmdAs =>
    simp only [enter, assembled]
    repeat' split
    all_goals exact rfl

theorem AtEnd.key (h : desk.AtEnd) {d : Byte} (hd : Keyable d) : (desk.key past d).2.AtEnd := by
  cases desk with
  | calls => exact trivial
  | waits prompt poke as line m =>
    have hright : line.right = [] := h
    have hinside : ¬ (Typed.editing line).InsertsInside (prompt.size.toNat - 1) d :=
      fun hinside => hinside.2.2 hright
    rw [Desk.key, Typed.nextBefore, if_neg hinside, Typed.next]
    by_cases hnew : d = 0x0a
    · rw [if_pos hnew]
      exact atEnd_enter prompt poke as m _
    · obtain ⟨hge, -⟩ := hd.resolve_left hnew
      have hinsert : keyEdit d = some (.insert d) := by
        rw [keyEdit, if_neg (by bv_omega), if_neg (by bv_omega), if_neg (by bv_omega),
          if_neg (by bv_omega)]
      rw [if_neg hnew, hinsert]
      show (Line.edit _ line (.insert d)).right = []
      rw [Line.edit]
      split
      · exact hright
      · exact hright

theorem AtEnd.after (h : desk.AtEnd) {keys : List Byte} (hkeys : ∀ d ∈ keys, Keyable d) :
    (desk.after past keys).AtEnd := by
  induction keys generalizing desk with
  | nil => exact h
  | cons d keys ih =>
    obtain ⟨hd, hkeys⟩ := List.forall_mem_cons.mp hkeys
    exact ih (h.key hd) hkeys

end Desk

namespace Shell

variable {R : Type} {font : ℕ → Byte} {past : OpRow} {sh : Shell R} {desk : Desk}

/-- With the cursor behind the line no key leads off the screen. -/
theorem Behind.safe (h : Behind sh desk) (hend : desk.AtEnd) (d : Byte) : sh.Safe d := by
  cases h with
  | calls => exact trivial
  | @waits prompt statics k e _ _ hgood =>
    have hle := (Line.right_ofArray_eq_nil e.buffer).mp hend
    have hpos : e.pos = e.end_ := BitVec.eq_of_toNat_eq (le_antisymm hgood.fits.pos_le hle)
    exact ⟨fun _ hlt => absurd (hpos ▸ hlt) (BitVec.lt_irrefl _), fun _ _ hne => absurd hpos hne⟩

theorem Behind.along (h : Behind sh desk) (hend : desk.AtEnd) {keys : List Byte}
    (hkeys : ∀ d ∈ keys, Keyable d) : Along (next font past) Safe sh keys := by
  induction keys generalizing sh desk with
  | nil => exact trivial
  | cons d keys ih =>
    obtain ⟨hd, hkeys⟩ := List.forall_mem_cons.mp hkeys
    exact ⟨h.safe hend d, ih (h.key (h.safe hend d)).2 (hend.key hd) hkeys⟩

end Shell

namespace KeyShell

variable {R : Type} {font : ℕ → Byte} {past : OpRow} {c : KeyShell R} {f : Flags} {desk : Desk}

theorem Follows.along (h : Follows c f desk) (hend : desk.AtEnd) {udrs : List (Option Byte)}
    (hudrs : ∀ b ∈ udrs.reduceOption, b ≠ 0)
    (hkeys : ∀ d ∈ (translated f udrs.reduceOption).1, Keyable d) :
    Along (next font past) Safe c udrs := by
  induction udrs generalizing c f desk with
  | nil => exact trivial
  | cons udr udrs ih =>
    have hcons : (udr :: udrs).reduceOption = udr.toList ++ udrs.reduceOption := by
      cases udr <;> rfl
    rw [hcons] at hudrs hkeys
    rw [translated_append] at hkeys
    have hsafe : Safe c udr := by
      rw [Safe]
      split
      · exact trivial
      · next d _ => exact h.behind.safe hend d
    have hudr : ∀ b ∈ udr, b ≠ 0 := fun b hb =>
      hudrs b (List.mem_append_left _ (Option.mem_toList.mpr hb))
    refine ⟨hsafe, ih (h.turn hudr hsafe) (hend.after fun d hd => ?_) (fun b hb => ?_)
      fun d hd => ?_⟩
    · exact hkeys d (List.mem_append_left _ hd)
    · exact hudrs b (List.mem_append_right _ hb)
    · exact hkeys d (List.mem_append_right _ hd)

/-! ### A program, key by key -/

/-- The key of a character, with the shift key or without it. -/
def scanOf (shift : Bool) (d : Byte) : Option Byte :=
  ((List.range keyb_map.length).map (BitVec.ofNat 8)).find? fun sc => entry sc shift = d

/-- A key is pressed and released, with the left shift key held around it if need be. -/
def strokes (d : Byte) : List Code :=
  match scanOf false d, scanOf true d with
  | some sc, _ => [.make sc, .brk sc]
  | none, some sc => [.make 0x12, .make sc, .brk sc, .brk 0x12]
  | none, none => []

/-- The bytes for the keys. -/
def wire (keys : List Byte) : List Byte := (keys.flatMap strokes).flatMap Code.bytes

/-- Every character has a key. -/
theorem exists_scanOf :
    ∀ d : Byte, Keyable d → (scanOf false d).isSome ∨ (scanOf true d).isSome := by
  decide +kernel

theorem scanOf_spec {shift : Bool} {d sc : Byte} (hd : d ≠ 0) (h : scanOf shift d = some sc) :
    entry sc shift = d ∧ sc ≠ 0 ∧ sc ≠ 0xf0 ∧ ¬ (sc = 0x12 ∨ sc = 0x59) := by
  rw [scanOf] at h
  have hentry : entry sc shift = d := by simpa using List.find?_some h
  have hne : entry sc shift ≠ 0 := hentry.symm ▸ hd
  refine ⟨hentry, ?_, ?_, ?_⟩
  · rintro rfl
    cases shift <;> exact hne rfl
  · rintro rfl
    exact hne (entry_eq_zero (.inr (.inr (by decide))) shift)
  · intro hshift
    exact hne (entry_eq_zero (or_assoc.mp (.inl hshift)) shift)

/-- A key between a make and a break. -/
theorem translated_stroke {shift : Bool} {d sc : Byte} (hd : d ≠ 0)
    (h : scanOf shift d = some sc) :
    translated ⟨shift, false⟩ [sc, 0xf0, sc] = ([d], ⟨shift, false⟩) := by
  obtain ⟨hentry, hzero, hmark, hshift⟩ := scanOf_spec hd h
  have hkey : characters [d] = [d] := (characters_cons d []).trans (if_neg hd)
  have hmake : Keyboard.translate ⟨shift, false⟩ sc = (some d, ⟨shift, false⟩) := by
    rw [translate_key hzero hmark hshift, hentry]
    rfl
  have hmarked : Keyboard.translate ⟨shift, false⟩ 0xf0 = (none, ⟨shift, true⟩) := rfl
  have hbrk : Keyboard.translate ⟨shift, true⟩ sc = (some 0, ⟨shift, false⟩) :=
    translate_key hzero hmark hshift _
  rw [translated_cons, hmake, translated_cons, hmarked, translated_cons, hbrk]
  exact congrArg (· ++ _, _) hkey

theorem strokes_valid {d : Byte} (hd : d ≠ 0) : ∀ code ∈ strokes d, code.Valid := by
  rw [strokes]
  split
  · next sc _ hsc =>
    obtain ⟨-, hzero, hmark, -⟩ := scanOf_spec hd hsc
    intro code hcode
    rcases List.mem_pair.mp hcode with rfl | rfl <;> exact ⟨hzero, hmark⟩
  · next sc _ hsc =>
    obtain ⟨-, hzero, hmark, -⟩ := scanOf_spec hd hsc
    intro code hcode
    simp only [List.mem_cons, List.not_mem_nil, or_false] at hcode
    rcases hcode with rfl | rfl | rfl | rfl
    · decide
    · exact ⟨hzero, hmark⟩
    · exact ⟨hzero, hmark⟩
    · decide
  · exact List.forall_mem_nil _

theorem translated_strokes {d : Byte} (hd : Keyable d) :
    translated ⟨false, false⟩ ((strokes d).flatMap Code.bytes) = ([d], ⟨false, false⟩) := by
  have hne := hd.ne_zero
  rw [strokes]
  rcases hplain : scanOf false d with - | sc
  · rcases hshift : scanOf true d with - | sc
    · have hnone := exists_scanOf d hd
      rw [hplain, hshift] at hnone
      exact absurd hnone (by decide)
    · have hstroke := translated_append ⟨true, false⟩ [sc, 0xf0, sc] [0xf0, 0x12]
      rw [translated_stroke hne hshift] at hstroke
      show translated ⟨false, false⟩ (0x12 :: ([sc, 0xf0, sc] ++ [0xf0, 0x12])) = _
      rw [translated_cons]
      show ([] ++ (translated ⟨true, false⟩ _).1, (translated ⟨true, false⟩ _).2) = _
      rw [hstroke]
      rfl
  · exact translated_stroke hne hplain

/-- The decoder has the keys back. -/
theorem translated_wire {keys : List Byte} (h : ∀ d ∈ keys, Keyable d) :
    translated ⟨false, false⟩ (wire keys) = (keys, ⟨false, false⟩) := by
  induction keys with
  | nil => rfl
  | cons d keys ih =>
    obtain ⟨hd, hkeys⟩ := List.forall_mem_cons.mp h
    have hcons : wire (d :: keys) = (strokes d).flatMap Code.bytes ++ wire keys := by
      rw [wire, List.flatMap_cons, List.flatMap_append, wire]
    rw [hcons, translated_append, translated_strokes hd, ih hkeys]
    rfl

theorem ne_zero_of_mem_wire {keys : List Byte} (h : ∀ d ∈ keys, Keyable d) :
    ∀ b ∈ wire keys, b ≠ 0 := by
  intro b hb
  obtain ⟨code, hcode, hb⟩ := List.mem_flatMap.mp hb
  obtain ⟨d, hd, hcode⟩ := List.mem_flatMap.mp hcode
  exact Code.ne_zero_of_mem_bytes (strokes_valid (h d hd).ne_zero code hcode) hb

theorem keyable_asKeys {a : Word} {P : List AsProgram.Stmt} {lines : List Text}
    (h : AsProgram.Written a P lines) {arg : Text} (harg : Typable arg) :
    ∀ d ∈ AsProgram.asKeys arg lines, Keyable d := by
  induction h generalizing arg with
  | nil => exact List.forall_mem_nil _
  | cons _ hline _ _ ih =>
    have has : Typable ("as".toList ++ arg) := typable_append.mpr ⟨by decide, harg⟩
    exact List.forall_mem_append.mpr ⟨List.forall_mem_append.mpr
      ⟨keyable_typed has, keyable_typed hline⟩, ih typable_nil⟩

/-- The keys for a program and `run`. -/
def programKeys (lines : List Text) : List Byte :=
  AsProgram.asKeys (Shell.hexArg PROG_START) lines ++ Shell.typed "run".toList

section Program

variable {P : List AsProgram.Stmt} {lines : List Text}
  (h : AsProgram.Written PROG_START P lines)
include h

theorem keyable_programKeys : ∀ d ∈ programKeys lines, Keyable d :=
  List.forall_mem_append.mpr ⟨keyable_asKeys h (Shell.typable_hexArg PROG_START),
    keyable_typed (by decide)⟩

/-- What the desk makes of them, read off a shell. -/
theorem after_programKeys (hpast : PastTable past) {statics : Statics} {m : Word → Byte}
    {sh : Shell R} (hsh : sh.Holds statics m) :
    ∃ m', (Desk.ask .command statics.poke statics.as m).after past (programKeys lines)
        = .calls .cmdRun m' ∧
      ∀ x, PROG_START ≤ x → m' x = writeBlock m PROG_START (AsProgram.code PROG_START P) x := by
  obtain ⟨statics', hdialog⟩ := @AsProgram.dialog_program R (fun _ => 0) past hpast PROG_START P
    lines h m statics (Shell.hexArg PROG_START) (.hex PROG_START statics.as)
  obtain ⟨-, hholds⟩ := hdialog sh hsh
  obtain ⟨k, hk, -, hcall⟩ := @AsProgram.feed_run R (fun _ => 0) past statics' _ _ hholds
  have hbehind : sh.Behind (Desk.ask .command statics.poke statics.as m) := by
    obtain ⟨kernel, hkernel, rfl⟩ := hsh
    exact Shell.behind_ask hkernel .command statics
  have hsafe : Along (Shell.next (fun _ => 0) past) Shell.Safe sh (programKeys lines) :=
    hbehind.along rfl (keyable_programKeys h)
  have hrun : (feed (Shell.key (fun _ => 0) past) sh (programKeys lines)).2
      = .calls .cmdRun statics' k := by
    rw [programKeys, feed_append]
    exact hcall
  have hdesk := (hbehind.feed hsafe).1
  rw [hrun] at hdesk
  generalize hafter : (feed (Desk.key past) _ (programKeys lines)).2 = desk at hdesk
  cases hdesk with
  | calls hkeeps => exact ⟨_, hafter, fun x hx => (hkeeps.sram x hx).symm.trans (hk.sram x hx)⟩

/-- **A program is typed key by key.**  Whenever the codes arrive, `cmd_run` is called with
the bytes of the program behind the screen. -/
theorem program_codes (font : ℕ → Byte) (hpast : PastTable past) {statics : Statics}
    {m : Word → Byte} (hc : Idle statics m c) {udrs : List (Option Byte)}
    (harrive : udrs.reduceOption = wire (programKeys lines)) :
    ∃ statics' k, (feed (turn font past) c udrs).2.shell = .calls .cmdRun statics' k ∧
      ∀ x, PROG_START ≤ x →
        k.fw.flat x = writeBlock m PROG_START (AsProgram.code PROG_START P) x := by
  have hkeys := keyable_programKeys h
  obtain ⟨m', hend, hmem⟩ := after_programKeys h hpast hc.1
  have htranslated := translated_wire hkeys
  have hcodes := ne_zero_of_mem_wire hkeys
  rw [← harrive] at htranslated hcodes
  have hsafe : Along (next font past) Safe c udrs := by
    apply hc.follows.along rfl hcodes
    rw [htranslated]
    exact hkeys
  have hbehind := (hc.follows.feed hcodes hsafe).behind
  rw [htranslated, hend] at hbehind
  generalize (feed (turn font past) c udrs).2.shell = sh at hbehind
  cases hbehind with
  | @calls _ statics' k _ hkeeps =>
    refine ⟨statics', k, rfl, fun x hx => ?_⟩
    have hlocal : ¬ IsLocal x := by
      have hx : 0x1a00 ≤ x.toNat := hx
      rw [IsLocal]
      omega
    exact ((if_neg hlocal).trans (hkeeps.sram x hx)).trans (hmem x hx)

end Program

/-- A loop of two instructions. -/
theorem program_codes_loop :
    let P : List AsProgram.Stmt := [.form (.instr .nop .implied) 0, .branch .bne 0x19ff]
    let k : Kernel Unit := ⟨fun _ => 0, ⟨0, 0, false, fun _ => 0, []⟩, fun _ => 0, false, ()⟩
    let udrs := (wire (programKeys ["nop".toList, "bne $19ff".toList])).map some
    ∃ statics' k', (feed (turn (fun _ => 0) zeroRow)
        ⟨reset, Shell.ask .command ⟨0, 0, 0, 0⟩ k⟩ udrs).2.shell = .calls .cmdRun statics' k' ∧
      ∀ x, PROG_START ≤ x →
        k'.fw.flat x = writeBlock (fun _ => 0) PROG_START (AsProgram.code PROG_START P) x := by
  intro P k udrs
  have hidle : Idle ⟨0, 0, 0, 0⟩ (fun _ => 0) ⟨reset, Shell.ask .command ⟨0, 0, 0, 0⟩ k⟩ :=
    ⟨⟨k, ⟨⟨Nat.zero_le _, Nat.zero_le _, List.forall_mem_nil _⟩, fun _ _ => rfl⟩, rfl⟩, by decide,
      rfl⟩
  have harrive : udrs.reduceOption = wire (programKeys ["nop".toList, "bne $19ff".toList]) := by
    rw [List.reduceOption, List.filterMap_map]
    exact List.filterMap_some
  exact program_codes AsProgram.written_loop (fun _ => 0) pastTable_zeroRow hidle harrive

end KeyShell

end Dan64
