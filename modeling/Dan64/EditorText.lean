/-
Dan64/EditorText.lean

The text that `buffered_input` edits.

The reference is a `Line` edited by the keys (`Typed`).  The two indices and the
buffer of the source are such a line (`Editor.line`), and every key edits it as the
reference does, with one exception: a character inserted inside the text is left
behind the cursor (`edits_lineBefore`).  So the two agree after every key exactly if
none is inserted there (`edits_iff`).
-/
import Dan64.GetInput
import Dan64.LineEdit
import Dan64.TerminalBounds

namespace Dan64

open Mealy

/-! ### The reference editor -/

/-- What a key asks for; code 0 is no key. -/
def keyEdit (d : Byte) : Option (Line.Edit Byte) :=
  if d = 0 then none
  else if d = 0x11 then some .toLeft
  else if d = 0x10 then some .toRight
  else if d = 0x08 then some .erase
  else some (.insert d)

/-- A line being typed, or the text that was entered. -/
inductive Typed
  | editing (l : Line Byte)
  | entered (text : List Byte)
  deriving DecidableEq

/-- One key, with room for so many characters. -/
def Typed.next (room : ℕ) : Typed → Byte → Typed
  | .entered text, _ => .entered text
  | .editing l, d =>
    if d = 0x0a then .entered l.text
    else match keyEdit d with
      | none => .editing l
      | some k => .editing (l.edit room k)

/-- The reference for `buffered_input`: one character less than the size. -/
def lineEditor (size : Byte) (keys : List Byte) : Typed :=
  keys.foldl (Typed.next (size.toNat - 1)) (.editing .empty)

/-- The key inserts a character, and the cursor is not at the end. -/
def Typed.InsertsInside (room : ℕ) : Typed → Byte → Prop
  | .editing l, d => Ordinary d ∧ l.text.length < room ∧ l.right ≠ []
  | .entered _, _ => False

instance (room : ℕ) (s : Typed) (d : Byte) : Decidable (s.InsertsInside room d) :=
  match s with
  | .editing l => inferInstanceAs (Decidable (_ ∧ l.text.length < room ∧ l.right ≠ []))
  | .entered _ => inferInstanceAs (Decidable False)

/-- One key as in the source, where a character inserted inside the text is left behind
the cursor. -/
def Typed.nextBefore (room : ℕ) (s : Typed) (d : Byte) : Typed :=
  match s with
  | .editing l =>
    if (Typed.editing l).InsertsInside room d then .editing (l.insertBefore d)
    else (Typed.editing l).next room d
  | .entered text => .entered text

def lineBefore (size : Byte) (keys : List Byte) : Typed :=
  keys.foldl (Typed.nextBefore (size.toNat - 1)) (.editing .empty)

/-- The line of an editor. -/
def Editor.line (e : Editor) : Line Byte := Line.ofArray e.buffer e.pos.toNat e.end_.toNat

/-- The editor holds the line that is typed, or returned the text that was entered:
its characters, their number and a zero behind them. -/
def Console.Edits : Console → Typed → Prop
  | .editing e, .editing l => e.line = l
  | .idle _ buffer ret, .entered text =>
    (List.range ret.toNat).map buffer = text ∧ buffer ret.toNat = 0
  | _, _ => False

/-- The length of the text, being typed or entered. -/
def Console.length : Console → ℕ
  | .idle _ _ ret => ret.toNat
  | .editing e => e.end_.toNat

variable {font : ℕ → Byte}

/-! ### The loops that shift the buffer -/

namespace Redraw

/-- Backspace moves the rest of the text down. -/
theorem closeGap_shift {n p k : ℕ} (hn : p + k = n) (r : Redraw) (i : ℕ) :
    ((List.range' p k).foldl (closeGap font n) r).buffer i
      = if p ≤ i ∧ i + 1 < n then r.buffer (i + 1) else r.buffer i := by
  induction k generalizing p r with
  | zero =>
    symm
    exact if_neg (by omega)
  | succ k ih =>
    have hpass : (r.closeGap font n p).buffer
        = if p + 1 < n then Function.update r.buffer p (r.buffer (p + 1)) else r.buffer := by
      rw [closeGap]
      split
      · rfl
      · rfl
    rw [List.range'_succ, List.foldl_cons, ih (by omega), hpass]
    by_cases hp : p + 1 < n
    · rw [if_pos hp]
      -- the cell at `p` has been written, those behind it not yet
      rcases Nat.lt_trichotomy i p with hi | rfl | hi
      · rw [if_neg (by omega), if_neg (by omega), Function.update_of_ne (by omega)]
      · rw [if_neg (by omega), if_pos (by omega), Function.update_self]
      · rw [Function.update_of_ne (by omega), Function.update_of_ne (by omega)]
        exact if_congr (by omega) rfl rfl
    · rw [if_neg hp, if_neg (by omega), if_neg (by omega)]

/-- An insertion moves it up, from the end on. -/
theorem openGap_shift {p k : ℕ} (r : Redraw) (i : ℕ) :
    ((List.range' (p + 1) k).reverse.foldl (openGap font) r).buffer i
      = if p < i ∧ i ≤ p + k then r.buffer (i - 1) else r.buffer i := by
  induction k generalizing r with
  | zero =>
    symm
    exact if_neg (by omega)
  | succ k ih =>
    have hlast : List.range' (p + 1) (k + 1) = List.range' (p + 1) k ++ [p + 1 + k] := by
      rw [List.range'_concat, Nat.one_mul]
    have hpass : (r.openGap font (p + 1 + k)).buffer
        = Function.update r.buffer (p + 1 + k) (r.buffer (p + 1 + k - 1)) := rfl
    rw [hlast, List.reverse_append, List.reverse_singleton, List.singleton_append,
      List.foldl_cons, ih, hpass]
    rcases Nat.lt_trichotomy i (p + 1 + k) with hi | rfl | hi
    · rw [Function.update_of_ne (by omega), Function.update_of_ne (by omega)]
      exact if_congr (by omega) rfl rfl
    · rw [if_neg (by omega), if_pos (by omega), Function.update_self]
    · rw [if_neg (by omega), if_neg (by omega), Function.update_of_ne (by omega)]

end Redraw

/-! ### One key -/

namespace Editor

variable {size : Byte} {buffer : ℕ → Byte} {e : Editor}

theorem line_keyNone (e : Editor) : e.keyNone.line = e.line := by
  rw [keyNone]
  split
  · rfl
  · rfl

theorem line_keyLeft (hpos : e.pos.toNat ≤ e.end_.toNat) : e.keyLeft.line = e.line.toLeft := by
  rw [keyLeft]
  split
  · next hlt =>
    have hlt' : 0 < e.pos.toNat := hlt
    have hback : e.pos.toNat = (e.pos - 1).toNat + 1 := by bv_omega
    show Line.ofArray e.buffer (e.pos - 1).toNat e.end_.toNat = e.line.toLeft
    rw [line, hback, Line.ofArray_toLeft _ (by omega)]
  · next hzero =>
    have hzero' : e.pos.toNat = 0 := Nat.eq_zero_of_not_pos hzero
    show e.line = e.line.toLeft
    rw [line, hzero', Line.ofArray_toLeft_zero]

theorem line_keyRight (hpos : e.pos.toNat ≤ e.end_.toNat) : e.keyRight.line = e.line.toRight := by
  rw [keyRight]
  split
  · next hlt =>
    have hlt' : e.pos.toNat < e.end_.toNat := hlt
    have hnext : (e.pos + 1).toNat = e.pos.toNat + 1 := by bv_omega
    show Line.ofArray e.buffer (e.pos + 1).toNat e.end_.toNat = e.line.toRight
    rw [line, hnext, Line.ofArray_toRight _ hlt']
  · next hend =>
    have hend' : e.pos.toNat = e.end_.toNat := le_antisymm hpos (not_lt.mp hend)
    show e.line = e.line.toRight
    rw [line, hend', Line.ofArray_toRight_end]

theorem line_keyBackspace (hpos : e.pos.toNat ≤ e.end_.toNat) :
    (e.keyBackspace font).line = e.line.erase := by
  rw [keyBackspace]
  split
  · next hlt =>
    have hlt' : 0 < e.pos.toNat := hlt
    have hback : e.pos.toNat = (e.pos - 1).toNat + 1 := by bv_omega
    have hshort : (e.end_ - 1).toNat = e.end_.toNat - 1 := by bv_omega
    have hloop : (e.pos - 1).toNat + (e.end_.toNat - (e.pos - 1).toNat) = e.end_.toNat := by omega
    show Line.ofArray _ (e.pos - 1).toNat (e.end_ - 1).toNat = e.line.erase
    rw [line, hback, hshort]
    symm
    apply Line.ofArray_erase
    · omega
    · intro i hi
      exact (Redraw.closeGap_shift hloop _ i).trans (if_neg (by omega))
    · intro i hi hi'
      exact (Redraw.closeGap_shift hloop _ i).trans (if_pos ⟨hi, hi'⟩)
  · next hzero =>
    have hzero' : e.pos.toNat = 0 := Nat.eq_zero_of_not_pos hzero
    show e.line = e.line.erase
    rw [line, hzero', Line.ofArray_erase_zero]

theorem line_append (heq : e.pos = e.end_) (hroom : e.end_.toNat < 255) (d : Byte) :
    (e.append font d).line = e.line.insert d := by
  have hnext : (e.pos + 1).toNat = e.end_.toNat + 1 := by
    rw [heq]
    bv_omega
  show Line.ofArray (Function.update e.buffer e.pos.toNat d) (e.pos + 1).toNat (e.pos + 1).toNat = _
  rw [line, heq, ← heq, hnext, heq]
  symm
  apply Line.ofArray_insert
  · intro i hi
    exact Function.update_of_ne hi.ne _ _
  · exact Function.update_self _ _ _

theorem line_insert (hpos : e.pos.toNat ≤ e.end_.toNat) (hroom : e.end_.toNat < 255) (d : Byte) :
    (e.insert font d).line = e.line.insertBefore d := by
  have hnext : (e.end_ + 1).toNat = e.end_.toNat + 1 := by bv_omega
  show Line.ofArray (Function.update _ e.pos.toNat d) e.pos.toNat (e.end_ + 1).toNat = _
  rw [line, hnext]
  symm
  apply Line.ofArray_insertBefore hpos
  · intro i hi
    rw [Function.update_of_ne hi.ne, Redraw.openGap_shift, if_neg (by omega), lastCell_buffer]
  · exact Function.update_self _ _ _
  · intro i hi hi'
    rw [Function.update_of_ne (by omega), Redraw.openGap_shift, if_pos (by omega), lastCell_buffer]
    rfl

/-- A character typed inside the text is left behind the cursor; at the end, or without
room for it, it is typed as in the reference. -/
theorem line_keyChar (h : e.Bounded size buffer) (d : Byte) :
    (e.keyChar font d).line
      = if e.line.text.length < size.toNat - 1 ∧ e.line.right ≠ [] then e.line.insertBefore d
        else e.line.edit (size.toNat - 1) (.insert d) := by
  have hpos := h.pos
  have hlt := h.lt
  have hsize := h.size_eq
  have hmax := size.isLt
  have hlen : e.line.text.length = e.end_.toNat := Line.length_text_ofArray _ hpos
  have hright : e.line.right ≠ [] ↔ ¬ e.end_.toNat ≤ e.pos.toNat :=
    not_congr (Line.right_ofArray_eq_nil _)
  rw [keyChar, Line.edit]
  simp only [hlen, hright]
  split
  · next hfull =>
    have hfull' : e.end_.toNat + 1 = size.toNat := hsize ▸ hfull
    rw [if_neg (by omega), if_neg (by omega)]
    rfl
  · next hroom =>
    have hroom' : ¬ e.end_.toNat + 1 = size.toNat := hsize ▸ hroom
    split
    · next heq =>
      have heq' : e.pos = e.end_ := heq
      rw [heq', if_neg (by omega), if_pos (by omega)]
      exact @line_append font e.cursorOff heq (by show e.end_.toNat < 255; omega) d
    · next hne =>
      have hne' : ¬ e.pos.toNat = e.end_.toNat := fun heq => hne (BitVec.eq_of_toNat_eq heq)
      rw [if_pos (by omega)]
      exact @line_insert font e.cursorOff hpos (by show e.end_.toNat < 255; omega) d

/-- **Step.**  A key edits the line. -/
theorem key_line (h : e.Bounded size buffer) {d : Byte} (hd : d ≠ 0x0a) :
    ∃ e', e.key font d = .editing e' ∧
      (Typed.editing e.line).nextBefore (size.toNat - 1) d = .editing e'.line := by
  have hother {d : Byte} (hord : ¬ Ordinary d) :
      (Typed.editing e.line).nextBefore (size.toNat - 1) d
        = (Typed.editing e.line).next (size.toNat - 1) d := if_neg fun hin => hord hin.1
  rcases key_cases font e d with ⟨rfl, hk⟩ | ⟨rfl, hk⟩ | ⟨rfl, hk⟩ | ⟨hnew, -⟩ | ⟨rfl, hk⟩ |
    ⟨hord, hk⟩
  · refine ⟨_, hk, ?_⟩
    rw [hother (by decide)]
    exact congrArg _ (line_keyNone e).symm
  · refine ⟨_, hk, ?_⟩
    rw [hother (by decide)]
    exact congrArg _ (line_keyLeft h.pos).symm
  · refine ⟨_, hk, ?_⟩
    rw [hother (by decide)]
    exact congrArg _ (line_keyRight h.pos).symm
  · exact absurd hnew hd
  · refine ⟨_, hk, ?_⟩
    rw [hother (by decide)]
    exact congrArg _ (line_keyBackspace h.pos).symm
  · have hin : (Typed.editing e.line).InsertsInside (size.toNat - 1) d ↔
        e.line.text.length < size.toNat - 1 ∧ e.line.right ≠ [] := and_iff_right hord
    obtain ⟨h0, hleft, hright, -, hback⟩ := hord
    refine ⟨_, hk, ?_⟩
    rw [line_keyChar h d, Typed.nextBefore]
    split
    · next hinside => rw [if_pos (hin.mp hinside)]
    · next hinside =>
      rw [if_neg (mt hin.mpr hinside), Typed.next, if_neg hd, keyEdit, if_neg h0,
        if_neg hleft, if_neg hright, if_neg hback]

end Editor

/-! ### Runs -/

variable {size : Byte} {buffer : ℕ → Byte}

theorem Console.Bounded.next {c : Console} (h : c.Bounded size buffer) (d : Byte) :
    (c.next font (.key d)).Bounded size buffer := by
  cases c with
  | idle t b ret => exact h
  | editing e => exact Editor.Bounded.key h d

/-- The console says what has been typed. -/
theorem Console.Edits.unique {c : Console} {s s' : Typed} (h : c.Edits s) (h' : c.Edits s') :
    s = s' := by
  cases c with
  | editing e =>
    cases s with
    | entered text => exact h.elim
    | editing l =>
      cases s' with
      | entered text => exact h'.elim
      | editing l' => exact congrArg _ (h.symm.trans h')
  | idle t b ret =>
    cases s with
    | editing l => exact h.elim
    | entered text =>
      cases s' with
      | editing l => exact h'.elim
      | entered text' => exact congrArg _ (h.1.symm.trans h'.1)

/-- One key keeps the source and its line together. -/
theorem edits_nextBefore {c : Console} {s : Typed} (hc : c.Bounded size buffer) (h : c.Edits s)
    (d : Byte) : (c.next font (.key d)).Edits (s.nextBefore (size.toNat - 1) d) := by
  cases c with
  | idle t b ret =>
    cases s with
    | editing l => exact h.elim
    | entered text => exact h
  | editing e =>
    cases s with
    | entered text => exact h.elim
    | editing l =>
      obtain rfl : e.line = l := h
      have hb : e.Bounded size buffer := hc
      by_cases hd : d = 0x0a
      · -- the text is read off the buffer
        subst hd
        refine ⟨?_, Function.update_self _ _ _⟩
        rw [Editor.line, Line.text_ofArray _ hb.pos]
        refine List.map_congr_left fun i hi => ?_
        exact Function.update_of_ne (List.mem_range.mp hi).ne _ _
      · obtain ⟨e', he', hline⟩ := @Editor.key_line font size buffer e hb d hd
        show (e.key font d).Edits _
        rw [he', hline]
        exact rfl

/-- **The editor refines the line of the source**, whatever the keys. -/
theorem edits_lineBefore (font : ℕ → Byte) (t : Terminal) (buffer : ℕ → Byte) {size : Byte}
    (hpos : 1 ≤ size.toNat) (keys : List Byte) :
    (bufferedInput font t buffer size keys).Edits (lineBefore size keys) := by
  have hrun : ∀ (c : Console) (s : Typed), c.Bounded size buffer → c.Edits s →
      (keys.foldl (fun c d => c.next font (.key d)) c).Edits
        (keys.foldl (Typed.nextBefore (size.toNat - 1)) s) := by
    induction keys with
    | nil => exact fun c s _ h => h
    | cons d keys ih => exact fun c s hc h => ih _ _ (hc.next d) (edits_nextBefore hc h d)
  exact hrun _ _ (@bounded_bufferedInput font t buffer size hpos []) rfl

/-- The line of the source is the reference's unless a character is inserted inside. -/
theorem Typed.next_eq_iff (room : ℕ) (s : Typed) (d : Byte) :
    s.next room d = s.nextBefore room d ↔ ¬ s.InsertsInside room d := by
  cases s with
  | entered text => exact iff_of_true rfl not_false
  | editing l =>
    rw [Typed.nextBefore]
    split
    · next hin =>
      refine iff_of_false ?_ (not_not_intro hin)
      obtain ⟨⟨h0, hleft, hright, hnew, hback⟩, hroom, -⟩ := hin
      rw [Typed.next, if_neg hnew, keyEdit, if_neg h0, if_neg hleft, if_neg hright, if_neg hback]
      show Typed.editing (if _ then _ else _) ≠ _
      rw [if_pos hroom]
      intro heq
      injection heq with heq
      exact l.insert_ne_insertBefore d heq
    · next hin => exact iff_of_true rfl hin

/-- One key keeps the two together, unless it inserts inside the text. -/
theorem edits_next {c : Console} {s : Typed} (hc : c.Bounded size buffer) (h : c.Edits s)
    (d : Byte) : (c.next font (.key d)).Edits (s.next (size.toNat - 1) d) ↔
      ¬ s.InsertsInside (size.toNat - 1) d := by
  have hbefore := @edits_nextBefore font size buffer c s hc h d
  rw [← Typed.next_eq_iff]
  constructor
  · exact fun hnext => hnext.unique hbefore
  · intro heq
    rw [heq]
    exact hbefore

/-- **The editor edits the text** of the reference, after every key and when it
returns, exactly if no character is inserted inside the text. -/
theorem edits_iff (font : ℕ → Byte) (t : Terminal) (buffer : ℕ → Byte) (size : Byte)
    (hpos : 1 ≤ size.toNat) (keys : List Byte) :
    (∀ n, (bufferedInput font t buffer size (keys.take n)).Edits
      (lineEditor size (keys.take n))) ↔
    Along (Typed.next (size.toNat - 1)) (fun s d => ¬ s.InsertsInside (size.toNat - 1) d)
      (.editing .empty) keys := by
  have hrun : ∀ (c : Console) (s : Typed), c.Bounded size buffer → c.Edits s →
      ((∀ n, ((keys.take n).foldl (fun c d => c.next font (.key d)) c).Edits
        ((keys.take n).foldl (Typed.next (size.toNat - 1)) s)) ↔
      Along (Typed.next (size.toNat - 1)) (fun s d => ¬ s.InsertsInside (size.toNat - 1) d) s
        keys) := by
    induction keys with
    | nil => exact fun c s _ h => iff_of_true (fun n => by rwa [List.take_nil]) trivial
    | cons d keys ih =>
      intro c s hc h
      have hstep := @edits_next font size buffer c s hc h d
      have hc' := @Console.Bounded.next font size buffer c hc d
      constructor
      · intro hall
        have hd : (c.next font (.key d)).Edits (s.next (size.toNat - 1) d) := hall 1
        exact ⟨hstep.mp hd, (ih _ _ hc' hd).mp fun n => hall (n + 1)⟩
      · rintro ⟨hd, hrest⟩ n
        cases n with
        | zero => exact h
        | succ n => exact (ih _ _ hc' (hstep.mpr hd)).mpr hrest n
  exact hrun _ _ (@bounded_bufferedInput font t buffer size hpos []) rfl

/-- An arrow to the left and back, and a character erased: "ac". -/
theorem edits_iff_ac :
    let keys : List Byte := [0x61, 0x62, 0x11, 0x10, 0x08, 0x63, 0x0a]
    (bufferedInput (fun _ => 0) ⟨0, 0, false, fun _ => 0, []⟩ (fun _ => 0) 64 keys).Edits
      (.entered [0x61, 0x63]) :=
  (edits_iff (fun _ => 0) ⟨0, 0, false, fun _ => 0, []⟩ (fun _ => 0) 64 (by decide)
    [0x61, 0x62, 0x11, 0x10, 0x08, 0x63, 0x0a]).mpr (by decide) 7

/-- Two characters typed before a third appear in the wrong order: "cba", not "bca". -/
theorem typed_inside_reversed :
    let keys : List Byte := [0x61, 0x11, 0x62, 0x63, 0x0a]
    let c := bufferedInput (fun _ => 0) ⟨0, 0, false, fun _ => 0, []⟩ (fun _ => 0) 64 keys
    lineEditor 64 keys = .entered [0x62, 0x63, 0x61] ∧
      c.Edits (.entered [0x63, 0x62, 0x61]) ∧ ¬ c.Edits (lineEditor 64 keys) := by
  intro keys c
  have hreference : lineEditor 64 keys = .entered [0x62, 0x63, 0x61] := by decide
  have hcode : c.Edits (.entered [0x63, 0x62, 0x61]) := ⟨by decide +kernel, by decide +kernel⟩
  refine ⟨hreference, hcode, ?_⟩
  rw [hreference]
  rintro ⟨htext, -⟩
  exact absurd (hcode.1.symm.trans htext) (by decide)

end Dan64
