/-
Dan64/EditorScreen.lean

The line that `buffered_input` edits is the one on the screen.

On the page of which the screen is a window the line stays where it was begun
(`textPage`): character k of the text in the k-th cell from there, spaces behind it
where there was text before.  Every key that is safe keeps this, with the cursor in
the cell of its index and inverted if it blinks (`displays_run`).
-/
import Dan64.EditorText
import Dan64.TerminalPage

namespace Dan64

open Mealy Terminal

/-! ### A text on a page -/

/-- A page with characters in some of the cells from `o` on. -/
def textPage (font : ℕ → Byte) (P : Page) (o : ℕ) (cs : ℕ → Option Byte) : Page := fun a line =>
  match if o ≤ a then cs (a - o) else none with
  | some c => glyph font c line
  | none => P a line

/-- The characters of a text of length `n` that was up to `m` long: behind it spaces. -/
def shown (buffer : ℕ → Byte) (n m : ℕ) : ℕ → Option Byte := fun k =>
  if k < n then some (buffer k) else if k < m then some 0x20 else none

/-- A page with the cursor in a cell. -/
def blink (on : Bool) (a : ℕ) (P : Page) : Page :=
  if on then Function.update P a fun line => ~~~(P a line) else P

/-- How long the text was at most. -/
def longest (font : ℕ → Byte) (c : Console) : List Byte → ℕ
  | [] => c.length
  | d :: keys => max c.length (longest font (c.next font (.key d)) keys)

/-- The line begun at the cursor of `t₀` is on the screen, scrolled by some rows. -/
structure OnPage (t₀ : Terminal) (rows m : ℕ) : Prop where
  first : 32 * rows ≤ cell t₀.x t₀.y
  last : cell t₀.x t₀.y + m ≤ 768 + 32 * rows

/-- **What is shown** of a line begun at the cursor of `t₀` that was `m` long: while
it is edited, also where the cursor is; then without a cursor. -/
def Console.Displays (font : ℕ → Byte) (t₀ : Terminal) (rows m : ℕ) : Console → Prop
  | .editing e => OnPage t₀ rows m ∧ e.term.x.toNat ≤ 31 ∧ e.term.y.toNat ≤ 23 ∧
      cell e.term.x e.term.y + 32 * rows = cell t₀.x t₀.y + e.pos.toNat ∧
      Window rows (blink e.term.cursor (cell t₀.x t₀.y + e.pos.toNat)
        (textPage font t₀.page (cell t₀.x t₀.y) (shown e.buffer e.end_.toNat m))) e.term
  | .idle t buffer ret => OnPage t₀ rows m ∧ t.cursor = false ∧
      Window rows (textPage font t₀.page (cell t₀.x t₀.y) (shown buffer ret.toNat m)) t

variable {font : ℕ → Byte}

section Page

variable {P : Page} {o : ℕ} {cs : ℕ → Option Byte}

/-- Another character. -/
theorem textPage_update (k : ℕ) (c : Byte) :
    Function.update (textPage font P o cs) (o + k) (glyph font c)
      = textPage font P o (Function.update cs k (some c)) := by
  funext a line
  by_cases ha : a = o + k
  · subst ha
    rw [Function.update_self, textPage, if_pos (Nat.le_add_right o k), Nat.add_sub_cancel_left,
      Function.update_self]
  · rw [Function.update_of_ne ha, textPage, textPage]
    by_cases hle : o ≤ a
    · rw [if_pos hle, if_pos hle, Function.update_of_ne (by omega)]
    · rw [if_neg hle, if_neg hle]

/-- Below the text and the first screen the page is blank. -/
theorem textPage_blank {t₀ : Terminal} {a : ℕ} (ha : 768 ≤ a) (hcs : o ≤ a → cs (a - o) = none)
    (line : ℕ) : textPage font t₀.page o cs a line = 0 := by
  have hnone : (if o ≤ a then cs (a - o) else none) = none := by
    split
    · next hle => exact hcs hle
    · rfl
  rw [textPage, hnone]
  exact if_neg (not_lt.mpr ha)

/-- The cursor goes on or off. -/
theorem blink_not (on : Bool) (a : ℕ) (P : Page) :
    Function.update (blink on a P) a (fun line => ~~~(blink on a P a line)) = blink (!on) a P := by
  cases on with
  | false => rfl
  | true =>
    simp only [blink, if_true, Function.update_self, Function.update_idem, BitVec.not_not]
    exact Function.update_eq_self a P

end Page

/-! ### The flag of the cursor -/

namespace Terminal

theorem cursor_foldl {ι : Type} {f : Terminal → ι → Terminal} {is : List ι}
    (hf : ∀ t, ∀ i ∈ is, (f t i).cursor = t.cursor) (t : Terminal) :
    (is.foldl f t).cursor = t.cursor := by
  refine @List.foldlRecOn _ _ (fun u : Terminal => u.cursor = t.cursor) is f _ rfl ?_
  intro u hu i hi
  exact (hf u i hi).trans hu

theorem cursor_drawBlock (t : Terminal) (x y : Byte) (f : ℕ → Byte → Byte) :
    (t.drawBlock x y f).cursor = t.cursor := by
  rw [drawBlock]
  refine (cursor_foldl ?_ _).trans rfl
  intro u line _
  rfl

theorem cursor_scrollUp (t : Terminal) : t.scrollUp.cursor = t.cursor := by
  rw [scrollUp]
  refine (cursor_foldl ?_ _).trans (cursor_foldl ?_ t)
  · intro u j _
    rfl
  · intro u i _
    refine cursor_foldl ?_ u
    intro v j _
    rfl

theorem cursor_videoCursor (t : Terminal) (x y : Byte) :
    (t.videoCursor x y).cursor = !t.cursor := rfl

/-- Switching the cursor off. -/
theorem cursor_videoCursorOff (t : Terminal) (x y : Byte) :
    (t.videoCursorOff x y).cursor = false := by
  rw [videoCursorOff]
  split
  · next hon => rw [cursor_videoCursor, hon, Bool.not_true]
  · next hoff => exact Bool.eq_false_of_not_eq_true hoff

end Terminal

namespace Console

/-- Outside `buffered_input` no cursor is on the screen. -/
def CursorOff : Console → Prop
  | .idle t _ _ => t.cursor = false
  | .editing _ => True

theorem cursor_newLine (t : Terminal) : t.newLine.cursor = t.cursor := by
  rw [newLine, scrollBelow]
  split
  · have hup := cursor_scrollUp { t with x := 0, y := t.y + 1 }
    rw [scrollRow]
    generalize scrollUp { t with x := 0, y := t.y + 1 } = u at hup ⊢
    exact hup
  · rfl

theorem cursor_putChar (t : Terminal) (c : Byte) : (t.putChar font c).cursor = t.cursor := by
  have hwrap : ∀ u : Terminal, (if 31 < u.x then u.newLine else u).cursor = u.cursor := by
    intro u
    split
    · exact cursor_newLine u
    · rfl
  rw [putChar, hwrap]
  split
  · exact cursor_newLine t
  · split
    · rfl
    · exact cursor_drawBlock t t.x t.y _

theorem cursor_videoCls (t : Terminal) (c : Byte) : (t.videoCls font c).cursor = t.cursor := by
  rw [videoCls]
  refine cursor_foldl ?_ t
  intro u y _
  refine cursor_foldl ?_ u
  intro v line _
  rfl

/-- `buffered_input` finds no cursor and leaves none, and nobody else draws one. -/
theorem CursorOff.next {c : Console} (h : c.CursorOff) (i : Input) :
    (c.next font i).CursorOff := by
  cases c with
  | editing e =>
    cases i with
    | key d =>
      show (e.key font d).CursorOff
      rw [Editor.key]
      split_ifs
      · trivial
      · trivial
      · trivial
      · exact (cursor_newLine _).trans (cursor_videoCursorOff e.term e.term.x e.term.y)
      · trivial
      · trivial
    | _ => trivial
  | idle t buffer ret =>
    have hoff : t.cursor = false := h
    cases i with
    | key d => exact hoff
    | bufferedInput buffer' size => trivial
    | putChar d => exact (cursor_putChar t d).trans hoff
    | putCharAt d => exact (cursor_drawBlock t t.x t.y _).trans hoff
    | setCursor v0 v1 =>
      show (t.setCursor v0 v1).2.cursor = false
      rw [setCursor]
      split
      · exact hoff
      · exact hoff
    | fillScreen d =>
      have hcls := @cursor_videoCls font t d
      show (t.fillScreen font d).2.cursor = false
      rw [fillScreen]
      generalize t.videoCls font d = u at hcls ⊢
      exact hcls.trans hoff
    | putTile tile => exact (cursor_drawBlock t t.x t.y _).trans hoff

end Console

/-! ### Drawing with the cursor off -/

/-- The screen shows characters on the page, and no cursor. -/
structure Paged (font : ℕ → Byte) (t₀ : Terminal) (rows : ℕ) (cs : ℕ → Option Byte)
    (t : Terminal) : Prop where
  off : t.cursor = false
  window : Window rows (textPage font t₀.page (cell t₀.x t₀.y) cs) t

section Paged

variable {t₀ t : Terminal} {rows : ℕ} {cs : ℕ → Option Byte}

/-- A character in the cell of index `k`. -/
theorem Paged.put (h : Paged font t₀ rows cs t) {x y : Byte} (hx : x.toNat ≤ 31)
    (hy : y.toNat ≤ 23) {k : ℕ} (hcell : cell x y + 32 * rows = cell t₀.x t₀.y + k) (c : Byte) :
    Paged font t₀ rows (Function.update cs k (some c)) (t.videoPutChar font x y c) := by
  refine ⟨(cursor_drawBlock t x y _).trans h.off, ?_⟩
  have hput := @Window.videoPutChar font _ _ _ h.window x y hx hy c
  rw [hcell, textPage_update] at hput
  exact hput

/-- Moving the cursor shows nothing. -/
theorem Paged.move (h : Paged font t₀ rows cs t) (x y : Byte) :
    Paged font t₀ rows cs { t with x := x, y := y } :=
  ⟨h.off, h.window.congr rfl⟩

/-- Scrolling, with the text above the row that enters. -/
theorem Paged.scroll (h : Paged font t₀ rows cs t)
    (hcs : ∀ k, 768 + 32 * rows ≤ cell t₀.x t₀.y + k → cs k = none) :
    Paged font t₀ (rows + 1) cs t.scrollUp := by
  refine ⟨(cursor_scrollUp t).trans h.off, h.window.scrollUp ?_⟩
  intro a ha line
  refine textPage_blank (by omega) ?_ line
  intro hle
  exact hcs (a - cell t₀.x t₀.y) (by omega)

/-- A new line, which scrolls from the last row. -/
theorem Paged.newLine (h : Paged font t₀ rows cs t) (hy : t.y.toNat ≤ 23)
    (hcs : ∀ k, 768 + 32 * rows ≤ cell t₀.x t₀.y + k → cs k = none) :
    ∃ rows', Paged font t₀ rows' cs t.newLine ∧ rows ≤ rows' ∧
      cell t.newLine.x t.newLine.y + 32 * rows' = 32 * (t.y.toNat + 1) + 32 * rows ∧
      (rows < rows' → rows' = rows + 1 ∧ t.y.toNat = 23) := by
  have hdown : (t.y + 1).toNat = t.y.toNat + 1 := by bv_omega
  rw [Terminal.newLine, scrollBelow]
  split
  · next hlt =>
    have hlt' : 23 < (t.y + 1).toNat := hlt
    have hscroll := (h.move 0 (t.y + 1)).scroll hcs
    have hx := (draws_scrollUp { t with x := 0, y := t.y + 1 }).x
    have hup : (t.y + 1 - 1).toNat = 23 := by bv_omega
    rw [scrollRow]
    generalize scrollUp { t with x := 0, y := t.y + 1 } = u at hscroll hx ⊢
    refine ⟨rows + 1, ⟨hscroll.off, hscroll.window.congr rfl⟩, Nat.le_succ rows, ?_,
      fun _ => ⟨rfl, by omega⟩⟩
    show cell u.x (t.y + 1 - 1) + _ = _
    rw [hx, cell, hup]
    show 32 * 23 + 0 + 32 * (rows + 1) = _
    omega
  · next hge =>
    refine ⟨rows, h.move 0 (t.y + 1), le_rfl, ?_, fun hlt => absurd hlt (lt_irrefl rows)⟩
    show 32 * (t.y + 1).toNat + 0 + 32 * rows = _
    omega

theorem shown_of_le {buffer : ℕ → Byte} {n m k : ℕ} (hn : n ≤ k) (hm : m ≤ k) :
    shown buffer n m k = none := by
  rw [shown, if_neg (by omega), if_neg (by omega)]

/-- A character behind the text. -/
theorem shown_append (buffer : ℕ → Byte) (n m : ℕ) (d : Byte) :
    Function.update (shown buffer n m) n (some d)
      = shown (Function.update buffer n d) (n + 1) (max m (n + 1)) := by
  funext i
  rcases Nat.lt_trichotomy i n with hi | rfl | hi
  · rw [Function.update_of_ne hi.ne, shown, shown, if_pos hi, if_pos (by omega),
      Function.update_of_ne hi.ne]
  · rw [Function.update_self, shown, if_pos (by omega), Function.update_self]
  · have hbehind : ¬ i < n := by omega
    have hbehind' : ¬ i < n + 1 := by omega
    rw [Function.update_of_ne hi.ne', shown, shown, if_neg hbehind, if_neg hbehind']
    exact if_congr (by omega) rfl rfl

/-- A character at `p` in the text: before it, at it, moved up, and behind the text. -/
theorem shown_insert {buffer buffer' : ℕ → Byte} {n m p : ℕ} (hp : p ≤ n) (d : Byte)
    (hbuffer : ∀ i, buffer' i = if p < i ∧ i ≤ n then buffer (i - 1) else buffer i) :
    Function.update
        (fun i => if p < i ∧ i ≤ n then some (buffer (i - 1)) else shown buffer n m i) p (some d)
      = shown (Function.update buffer' p d) (n + 1) (max m (n + 1)) := by
  funext i
  simp only [shown]
  rcases Nat.lt_trichotomy i p with hi | rfl | hi
  · have hin : ¬ (p < i ∧ i ≤ n) := by omega
    have hbefore : i < n := by omega
    have hbefore' : i < n + 1 := by omega
    rw [Function.update_of_ne hi.ne, Function.update_of_ne hi.ne, hbuffer, if_neg hin, if_neg hin,
      if_pos hbefore, if_pos hbefore']
  · have hbefore' : i < n + 1 := by omega
    rw [Function.update_self, Function.update_self, if_pos hbefore']
  · rw [Function.update_of_ne hi.ne', Function.update_of_ne hi.ne', hbuffer]
    by_cases hle : i ≤ n
    · have hin : p < i ∧ i ≤ n := ⟨hi, hle⟩
      rw [if_pos hin, if_pos hin, if_pos (Nat.lt_succ_of_le hle)]
    · have hin : ¬ (p < i ∧ i ≤ n) := by omega
      have hbehind : ¬ i < n := by omega
      have hbehind' : ¬ i < n + 1 := by omega
      rw [if_neg hin, if_neg hbehind, if_neg hbehind']
      exact if_congr (by omega) rfl rfl

/-- The character at `p` erased: before the gap, moved down, freed, and behind the
text. -/
theorem shown_erase {buffer buffer' : ℕ → Byte} {n m p : ℕ} (hp : p < n) (hm : n ≤ m)
    (hbuffer : ∀ i, buffer' i = if p ≤ i ∧ i + 1 < n then buffer (i + 1) else buffer i) (i : ℕ) :
    (if p ≤ i ∧ i < n then some (if i + 1 < n then buffer (i + 1) else 0x20)
        else shown buffer n m i)
      = shown buffer' (n - 1) m i := by
  rw [shown.eq_def buffer', hbuffer]
  by_cases hin : p ≤ i ∧ i < n
  · rw [if_pos hin]
    by_cases hmoved : i + 1 < n
    · rw [if_pos hmoved, if_pos (by omega), if_pos ⟨hin.1, hmoved⟩]
    · rw [if_neg hmoved, if_neg (by omega), if_pos (by omega)]
  · rw [if_neg hin, shown]
    by_cases hbefore : i < p
    · rw [if_pos (by omega), if_pos (by omega), if_neg (by omega)]
    · have hbehind : ¬ i < n := by omega
      have hbehind' : ¬ i < n - 1 := by omega
      rw [if_neg hbehind, if_neg hbehind']

end Paged

/-! ### The loops -/

namespace Redraw

variable {t₀ : Terminal} {rows : ℕ}

/-- Backspace redraws the characters from the cursor on, one further back. -/
theorem paged_closeGap {n p k : ℕ} (hn : p + k = n) {r : Redraw} {cs : ℕ → Option Byte}
    (h : Paged font t₀ rows cs r.term) (hi : r.i.toNat ≤ 31)
    (hcell : cell r.i r.j + 32 * rows = cell t₀.x t₀.y + p)
    (hlast : cell t₀.x t₀.y + n ≤ 768 + 32 * rows) :
    Paged font t₀ rows
      (fun i => if p ≤ i ∧ i < n then some (if i + 1 < n then r.buffer (i + 1) else 0x20) else cs i)
      ((List.range' p k).foldl (closeGap font n) r).term := by
  induction k generalizing p r cs with
  | zero =>
    refine cast (congrArg (fun cs => Paged font t₀ rows cs r.term) ?_) h
    funext i
    exact (if_neg (by omega)).symm
  | succ k ih =>
    have hj : r.j.toNat ≤ 23 := by
      rw [cell] at hcell
      omega
    obtain ⟨hi', hnext⟩ := cellOn_spec hi hj
    -- the pass at `p`
    obtain ⟨c, hc, hterm, hri, hrj, hbuffer⟩ : ∃ c,
        c = (if p + 1 < n then r.buffer (p + 1) else 0x20) ∧
        (r.closeGap font n p).term = r.term.videoPutChar font r.i r.j c ∧
        (r.closeGap font n p).i = (cellOn r.i r.j).1 ∧
        (r.closeGap font n p).j = (cellOn r.i r.j).2 ∧
        ∀ i, p < i → (r.closeGap font n p).buffer i = r.buffer i := by
      rw [closeGap]
      split
      · exact ⟨_, rfl, rfl, rfl, rfl, fun i hlt => Function.update_of_ne hlt.ne' _ _⟩
      · exact ⟨_, rfl, rfl, rfl, rfl, fun _ _ => rfl⟩
    have hput := @Paged.put font _ _ _ _ h r.i r.j hi hj p hcell c
    rw [← hterm] at hput
    have hrest := @ih (p + 1) (by omega) (r.closeGap font n p) _ hput (hri ▸ hi')
      (by rw [hri, hrj, hnext]; omega)
    rw [List.range'_succ, List.foldl_cons]
    refine cast (congrArg (fun cs => Paged font t₀ rows cs _) ?_) hrest
    funext i
    rcases Nat.lt_trichotomy i p with hlt | rfl | hlt
    · rw [if_neg (by omega), if_neg (by omega), Function.update_of_ne hlt.ne]
    · rw [if_neg (by omega), if_pos (by omega), Function.update_self, hc]
    · rw [Function.update_of_ne hlt.ne', hbuffer _ (by omega)]
      exact if_congr (by omega) rfl rfl

/-- An insertion redraws them one further on, from the end. -/
theorem paged_openGap {p k : ℕ} {r : Redraw} {cs : ℕ → Option Byte}
    (h : Paged font t₀ rows cs r.term) (hi : r.i.toNat ≤ 31) (hj : r.j.toNat ≤ 23)
    (hcell : cell r.i r.j + 32 * rows = cell t₀.x t₀.y + p + k) (hfirst : k ≤ cell r.i r.j) :
    Paged font t₀ rows
      (fun i => if p < i ∧ i ≤ p + k then some (r.buffer (i - 1)) else cs i)
      ((List.range' (p + 1) k).reverse.foldl (openGap font) r).term := by
  induction k generalizing r cs with
  | zero =>
    refine cast (congrArg (fun cs => Paged font t₀ rows cs r.term) ?_) h
    funext i
    exact (if_neg (by omega)).symm
  | succ k ih =>
    obtain ⟨hi', hj', hnext⟩ := cellBack_spec hi (Nat.zero_lt_of_lt hfirst)
    have hput := @Paged.put font _ _ _ _ h r.i r.j hi hj (p + 1 + k) (by omega)
      (r.buffer (p + 1 + k - 1))
    have hlast : List.range' (p + 1) (k + 1) = List.range' (p + 1) k ++ [p + 1 + k] := by
      rw [List.range'_concat, Nat.one_mul]
    have hrest := @ih (r.openGap font (p + 1 + k)) _ hput hi' (hj'.trans hj)
      (by show cell (cellBack r.i r.j).1 (cellBack r.i r.j).2 + _ = _; omega)
      (by show _ ≤ cell (cellBack r.i r.j).1 (cellBack r.i r.j).2; omega)
    rw [hlast, List.reverse_append, List.reverse_singleton, List.singleton_append,
      List.foldl_cons]
    refine cast (congrArg (fun cs => Paged font t₀ rows cs _) ?_) hrest
    funext i
    show (if p < i ∧ i ≤ p + k then
        some (Function.update r.buffer (p + 1 + k) (r.buffer (p + 1 + k - 1)) (i - 1))
      else Function.update cs (p + 1 + k) (some (r.buffer (p + 1 + k - 1))) i) = _
    rcases Nat.lt_trichotomy i (p + 1 + k) with hlt | rfl | hlt
    · rw [Function.update_of_ne (by omega), Function.update_of_ne (by omega)]
      exact if_congr (by omega) rfl rfl
    · rw [if_neg (by omega), if_pos (by omega), Function.update_self]
    · rw [if_neg (by omega), if_neg (by omega), Function.update_of_ne (by omega)]

end Redraw

/-! ### The keys -/

/-- The state of the editor once the cursor is off. -/
structure Editor.Shown (font : ℕ → Byte) (t₀ : Terminal) (rows m : ℕ) (e : Editor) : Prop where
  page : OnPage t₀ rows m
  cursor : cell e.term.x e.term.y + 32 * rows = cell t₀.x t₀.y + e.pos.toNat
  longest : e.end_.toNat ≤ m
  paged : Paged font t₀ rows (shown e.buffer e.end_.toNat m) e.term

namespace Editor

variable {t₀ : Terminal} {rows m : ℕ} {e : Editor}

/-- A shown editor is displayed. -/
theorem Shown.displays (h : e.Shown font t₀ rows m) (ht : e.term.OnScreen) :
    (Console.editing e).Displays font t₀ rows m := by
  refine ⟨h.page, ht.x, ht.y, h.cursor, ?_⟩
  rw [h.paged.off]
  exact h.paged.window

/-- Switching the cursor off. -/
theorem shown_cursorOff (h : (Console.editing e).Displays font t₀ rows m)
    (hm : e.end_.toNat ≤ m) : e.cursorOff.Shown font t₀ rows m := by
  obtain ⟨hpage, hx, hy, hcell, hwindow⟩ := h
  have hoff := draws_videoCursorOff e.term hx hy
  refine ⟨hpage, ?_, hm, cursor_videoCursorOff _ _ _, ?_⟩
  · show cell (e.term.videoCursorOff e.term.x e.term.y).x
      (e.term.videoCursorOff e.term.x e.term.y).y + _ = _
    rw [hoff.x, hoff.y]
    exact hcell
  · show Window rows _ (e.term.videoCursorOff e.term.x e.term.y)
    rw [videoCursorOff]
    rcases hon : e.term.cursor with - | -
    · rw [hon] at hwindow
      exact hwindow
    · rw [hon] at hwindow
      have hcursor := hwindow.videoCursor hx hy
      rw [hcell, blink_not] at hcursor
      exact hcursor

/-- No key. -/
theorem displays_keyNone (h : (Console.editing e).Displays font t₀ rows m) :
    (Console.editing e.keyNone).Displays font t₀ rows m := by
  obtain ⟨hpage, hx, hy, hcell, hwindow⟩ := h
  rw [keyNone]
  split
  · have hdraws := draws_videoCursor e.term hx hy
    have hcursor := hwindow.videoCursor hx hy
    rw [hcell, blink_not, ← cursor_videoCursor e.term e.term.x e.term.y] at hcursor
    refine ⟨hpage, ?_, ?_, ?_, hcursor⟩
    · exact (congrArg BitVec.toNat hdraws.x).trans_le hx
    · exact (congrArg BitVec.toNat hdraws.y).trans_le hy
    · exact (congrArg (· + 32 * rows) (congrArg₂ cell hdraws.x hdraws.y)).trans hcell
  · exact ⟨hpage, hx, hy, hcell, hwindow⟩

theorem Shown.left (h : e.Shown font t₀ rows m) (hgood : e.Good) (hpos : 0 < e.pos) :
    Shown font t₀ rows m { e with pos := e.pos - 1, term := e.term.back } := by
  have hpos' : 0 < e.pos.toNat := hpos
  have hback : (e.pos - 1).toNat = e.pos.toNat - 1 := by bv_omega
  have hcell := (hgood.onScreen.back (hpos'.trans_le hgood.fits.first)).2
  have hcursor := h.cursor
  refine ⟨h.page, ?_, h.longest, h.paged.move _ _⟩
  show cell e.term.back.x e.term.back.y + 32 * rows = cell t₀.x t₀.y + (e.pos - 1).toNat
  omega

theorem Shown.right (h : e.Shown font t₀ rows m) (hgood : e.Good) (hpos : e.pos < e.end_)
    (hlast : cell e.term.x e.term.y < 767) :
    Shown font t₀ rows m { e with pos := e.pos + 1, term := e.term.on } := by
  have hpos' : e.pos.toNat < e.end_.toNat := hpos
  have hnext : (e.pos + 1).toNat = e.pos.toNat + 1 := by bv_omega
  have hcell := (hgood.onScreen.on hlast).2
  have hcursor := h.cursor
  refine ⟨h.page, ?_, h.longest, h.paged.move _ _⟩
  show cell e.term.on.x e.term.on.y + 32 * rows = cell t₀.x t₀.y + (e.pos + 1).toNat
  omega

theorem Shown.backspace (h : e.Shown font t₀ rows m) (hgood : e.Good) (hpos : 0 < e.pos) :
    let pos := e.pos - 1
    let t := e.term.back
    let ks := List.range' pos.toNat (e.end_.toNat - pos.toNat)
    let r := ks.foldl (Redraw.closeGap font e.end_.toNat) ⟨t, e.buffer, t.x, t.y⟩
    Shown font t₀ rows m
      { e with term := r.term, buffer := r.buffer, pos := pos, end_ := e.end_ - 1 } := by
  intro pos t ks r
  have hleft := h.left hgood hpos
  have hlongest := h.longest
  have hpos' : 0 < e.pos.toNat := hpos
  have hpos_le := hgood.fits.pos_le
  have hback : pos.toNat = e.pos.toNat - 1 := by
    show (e.pos - 1).toNat = _
    bv_omega
  have hshort : (e.end_ - 1).toNat = e.end_.toNat - 1 := by bv_omega
  have hloop : pos.toNat + (e.end_.toNat - pos.toNat) = e.end_.toNat := by omega
  have ht : t.OnScreen := (hgood.onScreen.back (hpos'.trans_le hgood.fits.first)).1
  have hcell : cell t.x t.y + 32 * rows = cell t₀.x t₀.y + pos.toNat := hleft.cursor
  have hlast := h.page.last
  have hdraws : Draws t r.term := by
    refine Redraw.draws_closeGap _ ks ⟨t, e.buffer, t.x, t.y⟩ ht.x ?_
    rw [List.length_range']
    show cell t.x t.y + _ ≤ 768
    omega
  refine ⟨h.page, ?_, ?_, ?_⟩
  · show cell r.term.x r.term.y + 32 * rows = cell t₀.x t₀.y + pos.toNat
    rw [hdraws.x, hdraws.y, hcell]
  · show (e.end_ - 1).toNat ≤ m
    omega
  · have hpaged := @Redraw.paged_closeGap font t₀ rows e.end_.toNat pos.toNat _ hloop
      ⟨t, e.buffer, t.x, t.y⟩ (shown e.buffer e.end_.toNat m) hleft.paged ht.x hcell (by omega)
    refine cast (congrArg (fun cs => Paged font t₀ rows cs r.term) ?_) hpaged
    funext i
    rw [hshort]
    exact shown_erase (by omega) hlongest (Redraw.closeGap_shift hloop _) i

/-- Where a key leaves the line, perhaps scrolled and longer than before. -/
def Fresh (font : ℕ → Byte) (t₀ : Terminal) (m : ℕ) (e : Editor) : Prop :=
  ∃ rows, e.Shown font t₀ rows (max m e.end_.toNat)

theorem Shown.append (h : e.Shown font t₀ rows m) (hgood : e.Good) (hpos : e.pos = e.end_)
    (d : Byte) : (e.append font d).Fresh font t₀ m := by
  obtain ⟨hsize, -, hend, hfirst, -⟩ := hgood.fits
  have hcursor := h.cursor
  have hlast := h.page.last
  have hlongest := h.longest
  have hx := hgood.onScreen.x
  have hy := hgood.onScreen.y
  have hnext : (e.pos + 1).toNat = e.end_.toNat + 1 := by
    rw [hpos]
    bv_omega
  have hdraws := @draws_videoPutChar font e.term _ _ hx hy d
  have hput := @Paged.put font _ _ _ _ h.paged _ _ hx hy _ hcursor d
  rw [hpos] at hfirst hcursor
  have hlt := hgood.onScreen.cell_lt
  have hshown : Function.update (shown e.buffer e.end_.toNat m) e.pos.toNat (some d)
      = shown (Function.update e.buffer e.pos.toNat d) (e.pos + 1).toNat
          (max m (e.pos + 1).toNat) := by
    rw [hnext, hpos]
    exact shown_append _ _ _ d
  rw [hshown] at hput
  rw [Fresh, Editor.append]
  generalize e.term.videoPutChar font e.term.x e.term.y d = t at hput hdraws ⊢
  have htx := hdraws.x
  have hty := hdraws.y
  split
  · next hright =>
    have hright' : t.x.toNat < 31 := hright
    have hcol : (t.x + 1).toNat = t.x.toNat + 1 := by bv_omega
    refine ⟨rows, ⟨h.page.first, ?_⟩, ?_, le_max_right _ _, hput.move _ _⟩
    · show _ + max m (e.pos + 1).toNat ≤ _
      omega
    · show 32 * t.y.toNat + (t.x + 1).toNat + 32 * rows = _ + (e.pos + 1).toNat
      rw [cell, ← htx, ← hty] at hcursor
      omega
  · next hborder =>
    have hborder' : ¬ t.x.toNat < 31 := hborder
    obtain ⟨rows', hpaged, hle, hcell, hscrolled⟩ := hput.newLine (by rw [hty]; exact hy) <| by
      intro k hk
      exact shown_of_le (by omega) (by omega)
    rw [cell, ← htx, ← hty] at hcursor hfirst
    rw [htx] at hborder' hcursor hfirst
    refine ⟨rows', ⟨?_, ?_⟩, ?_, le_max_right _ _, hpaged⟩
    · rcases Nat.eq_or_lt_of_le hle with rfl | hlt'
      · exact h.page.first
      · obtain ⟨rfl, hbottom⟩ := hscrolled hlt'
        omega
    · show _ + max m (e.pos + 1).toNat ≤ _
      omega
    · show cell t.newLine.x t.newLine.y + 32 * rows' = _ + (e.pos + 1).toNat
      rw [hcell]
      omega

/-- Where the redrawing of an insertion starts, the screen perhaps scrolled. -/
theorem Shown.lastCell (h : e.Shown font t₀ rows m) (hgood : e.Good) :
    ∃ rows', rows ≤ rows' ∧ Paged font t₀ rows' (shown e.buffer e.end_.toNat m) e.lastCell.term ∧
      cell e.lastCell.term.x e.lastCell.term.y + 32 * rows' = cell t₀.x t₀.y + e.pos.toNat := by
  have hy := hgood.onScreen.y
  have hlast := h.page.last
  have hlongest := h.longest
  have hcursor := h.cursor
  have hdown : (e.term.y + 1).toNat = e.term.y.toNat + 1 := by bv_omega
  rw [Editor.lastCell]
  split
  · split
    · next hscroll =>
      have hscroll' : 23 < (e.term.y + 1).toNat := hscroll
      have hpaged := h.paged.scroll fun k hk => shown_of_le (by omega) (by omega)
      have hup : (e.term.y - 1).toNat = 22 := by bv_omega
      have hx := (draws_scrollUp e.term).x
      show ∃ rows', _ ∧ Paged _ _ _ _ e.term.scrollRow ∧
        cell e.term.scrollRow.x e.term.scrollRow.y + _ = _
      rw [scrollRow]
      generalize e.term.scrollUp = u at hpaged hx ⊢
      refine ⟨rows + 1, Nat.le_succ rows, ⟨hpaged.off, hpaged.window.congr rfl⟩, ?_⟩
      show cell u.x (e.term.y - 1) + 32 * (rows + 1) = _
      rw [hx, cell, hup]
      rw [cell] at hcursor
      omega
    · exact ⟨rows, le_rfl, h.paged, hcursor⟩
  · exact ⟨rows, le_rfl, h.paged, hcursor⟩

theorem Shown.insert (h : e.Shown font t₀ rows m) (hgood : e.Good)
    (hrows : e.term.x.toNat + (e.end_.toNat - e.pos.toNat) < 64) (d : Byte) :
    (e.insert font d).Fresh font t₀ m := by
  obtain ⟨hsize, hpos, hend, -, -⟩ := hgood.fits
  obtain ⟨ht, hi, hj, hcell, hfirst⟩ := hgood.lastCell hrows
  obtain ⟨rows', hle, hpaged, hcursor⟩ := h.lastCell hgood
  have hbuffer := lastCell_buffer e
  have hlast := h.page.last
  have hlong : (e.end_ + 1).toNat = e.end_.toNat + 1 := by bv_omega
  have hloop : (e.end_ + 1).toNat - 1 - e.pos.toNat = e.end_.toNat - e.pos.toNat := by omega
  have hsum : e.pos.toNat + (e.end_.toNat - e.pos.toNat) = e.end_.toNat := by omega
  have hlt : cell e.lastCell.i e.lastCell.j < 768 := by
    rw [cell]
    omega
  rw [Fresh, Editor.insert]
  generalize e.lastCell = r at *
  rw [hloop]
  have hgap := @Redraw.paged_openGap font t₀ rows' e.pos.toNat (e.end_.toNat - e.pos.toNat) r _
    hpaged hi hj (by omega) (by omega)
  have hshift := @Redraw.openGap_shift font e.pos.toNat (e.end_.toNat - e.pos.toNat) r
  have hdraws : Draws r.term _ := @Redraw.draws_openGap font
    (List.range' (e.pos.toNat + 1) (e.end_.toNat - e.pos.toNat)).reverse r hi hj (by
      rw [List.length_reverse, List.length_range']
      omega)
  generalize (List.range' (e.pos.toNat + 1) (e.end_.toNat - e.pos.toNat)).reverse.foldl
    (Redraw.openGap font) r = r' at hgap hshift hdraws ⊢
  have ht' := hdraws.onScreen ht
  rw [hsum, ← hbuffer] at hgap
  rw [hsum] at hshift
  have hput := @Paged.put font _ _ _ _ hgap r'.term.x r'.term.y ht'.x ht'.y e.pos.toNat
    (by rw [hdraws.x, hdraws.y, hcursor]) d
  have hdraws' := @draws_videoPutChar font r'.term _ _ ht'.x ht'.y d
  rw [shown_insert hpos d hshift, ← hlong] at hput
  generalize r'.term.videoPutChar font r'.term.x r'.term.y d = u at hput hdraws' ⊢
  have hcell' : cell u.x u.y + 32 * rows' = cell t₀.x t₀.y + e.pos.toNat := by
    rw [hdraws'.x, hdraws'.y, hdraws.x, hdraws.y, hcursor]
  refine ⟨rows', ⟨?_, ?_⟩, hcell', le_max_right _ _, hput⟩
  · omega
  · show _ + max m (e.end_ + 1).toNat ≤ _
    omega

/-- A new line ends the input, with the text where it was. -/
theorem Shown.newLine (h : e.Shown font t₀ rows m) (hgood : e.Good) :
    ∃ rows', (Console.idle e.term.newLine (Function.update e.buffer e.end_.toNat 0) e.end_).Displays
      font t₀ rows' m := by
  have hcursor := h.cursor
  have hlast := h.page.last
  have hlongest := h.longest
  have hx := hgood.onScreen.x
  have hfirst := hgood.fits.first
  obtain ⟨hsize, hpos, hend, -, -⟩ := hgood.fits
  obtain ⟨rows', hpaged, hle, -, hscrolled⟩ := h.paged.newLine hgood.onScreen.y
    fun k hk => shown_of_le (by omega) (by omega)
  have hshown : shown (Function.update e.buffer e.end_.toNat 0) e.end_.toNat m
      = shown e.buffer e.end_.toNat m := by
    funext i
    rw [shown, shown]
    by_cases hi : i < e.end_.toNat
    · rw [if_pos hi, if_pos hi, Function.update_of_ne hi.ne]
    · rw [if_neg hi, if_neg hi]
  refine ⟨rows', ⟨?_, ?_⟩, hpaged.off, hshown ▸ hpaged.window⟩
  · rcases Nat.eq_or_lt_of_le hle with rfl | hlt
    · exact h.page.first
    · obtain ⟨rfl, hbottom⟩ := hscrolled hlt
      rw [cell] at hcursor hfirst
      omega
  · omega

/-- A character. -/
theorem Shown.keyChar {d : Byte} (h : e.cursorOff.Shown font t₀ rows m) (hgood : e.Good)
    (hrows : e.end_.toNat + 1 ≠ e.size.toNat → e.pos ≠ e.end_ →
      e.term.x.toNat + (e.end_.toNat - e.pos.toNat) < 64) :
    (e.keyChar font d).Fresh font t₀ m := by
  have hoff := draws_videoCursorOff e.term hgood.onScreen.x hgood.onScreen.y
  rw [Editor.keyChar]
  split
  · refine ⟨rows, ?_⟩
    rw [max_eq_left h.longest]
    exact h
  · next hroom =>
    split
    · next hpos => exact h.append hgood.cursorOff hpos d
    · next hpos =>
      refine h.insert hgood.cursorOff ?_ d
      show (e.term.videoCursorOff e.term.x e.term.y).x.toNat + _ < 64
      rw [hoff.x]
      exact hrows hroom hpos

/-- **Step.**  A safe key keeps the line on the screen. -/
theorem displays_key {d : Byte} (hgood : e.Good) (hsafe : e.Safe d) (hm : e.end_.toNat ≤ m)
    (h : (Console.editing e).Displays font t₀ rows m) :
    ∃ rows', (e.key font d).Displays font t₀ rows' (max m (e.key font d).length) := by
  have hnext := @Good.key font e hgood d hsafe
  have hoff := @shown_cursorOff font t₀ rows m e h hm
  -- the keys that do not make the text longer
  have hshort : ∀ e' : Editor, e'.Good → e'.Shown font t₀ rows m →
      ∃ rows', (Console.editing e').Displays font t₀ rows' (max m e'.end_.toNat) := by
    intro e' hgood' hshown
    refine ⟨rows, ?_⟩
    rw [max_eq_left hshown.longest]
    exact hshown.displays hgood'.onScreen
  rcases key_cases font e d with ⟨-, hk⟩ | ⟨-, hk⟩ | ⟨rfl, hk⟩ | ⟨-, hk⟩ | ⟨-, hk⟩ |
    ⟨hord, hk⟩ <;> rw [hk] at hnext ⊢
  · refine ⟨rows, ?_⟩
    have hend : e.keyNone.end_ = e.end_ := by
      rw [keyNone]
      split
      · rfl
      · rfl
    rw [Console.length, hend, max_eq_left hm]
    exact displays_keyNone h
  · refine hshort _ hnext ?_
    rw [keyLeft]
    split
    · next hlt => exact hoff.left hgood.cursorOff hlt
    · exact hoff
  · refine hshort _ hnext ?_
    rw [keyRight]
    split
    · next hlt =>
      refine hoff.right hgood.cursorOff hlt ?_
      rw [cursorOff_cell hgood]
      exact hsafe.right hgood hlt
    · exact hoff
  · obtain ⟨rows', hdisplays⟩ := hoff.newLine hgood.cursorOff
    refine ⟨rows', ?_⟩
    rw [Console.length, max_eq_left hm]
    exact hdisplays
  · refine hshort _ hnext ?_
    rw [keyBackspace]
    split
    · next hlt => exact hoff.backspace hgood.cursorOff hlt
    · exact hoff
  · obtain ⟨rows', hshown⟩ := hoff.keyChar hgood (hsafe.2 hord)
    exact ⟨rows', hshown.displays hnext.onScreen⟩

end Editor

/-! ### Runs -/

variable {t₀ : Terminal}

/-- **Run.** -/
theorem displays_foldl {rows m : ℕ} {c : Console} {keys : List Byte} (hgood : c.Good)
    (hm : c.length ≤ m) (h : c.Displays font t₀ rows m)
    (hsafe : Along (fun c d => c.next font (.key d)) (fun c d => c.Safe (.key d)) c keys) :
    ∃ rows', (keys.foldl (fun c d => c.next font (.key d)) c).Displays font t₀ rows'
      (max m (longest font c keys)) := by
  induction keys generalizing rows m c with
  | nil =>
    refine ⟨rows, ?_⟩
    rw [longest, max_eq_left hm]
    exact h
  | cons d keys ih =>
    have hstep : ∃ rows', (c.next font (.key d)).Displays font t₀ rows'
        (max m (c.next font (.key d)).length) := by
      cases c with
      | idle t b ret =>
        refine ⟨rows, ?_⟩
        show Console.Displays font t₀ rows (max m ret.toNat) (.idle t b ret)
        rw [max_eq_left (show ret.toNat ≤ m from hm)]
        exact h
      | editing e => exact Editor.displays_key hgood hsafe.1 hm h
    obtain ⟨rows', hstep⟩ := hstep
    have hnext := @Console.Good.next font c (.key d) hgood trivial hsafe.1
    have hle : (c.next font (.key d)).length ≤ longest font (c.next font (.key d)) keys := by
      cases keys with
      | nil => exact le_rfl
      | cons d' keys => exact le_max_left _ _
    have hmax : max m (longest font c (d :: keys))
        = max (max m (c.next font (.key d)).length) (longest font (c.next font (.key d)) keys) := by
      rw [longest]
      omega
    rw [hmax, List.foldl_cons]
    exact ih hnext (le_max_right _ _) hstep hsafe.2

/-- **The screen shows the line**, after every key, as long as the keys are safe: for
every cursor where it is begun and every picture around it. -/
theorem displays_run (font : ℕ → Byte) (x y : Byte) (hx : x.toNat ≤ 31) (hy : y.toNat ≤ 23)
    (sram : Word → Byte) (buffer : ℕ → Byte) (size : Byte) (hpos : 1 ≤ size.toNat)
    (hmax : size.toNat ≤ 64) (keys : List Byte)
    (hsafe : Along (fun (c : Console) d => c.next font (.key d)) (fun c d => c.Safe (.key d))
      (.editing ⟨⟨x, y, false, sram, []⟩, buffer, size, 0, 0, 0⟩) keys) (n : ℕ) :
    ∃ rows, (bufferedInput font ⟨x, y, false, sram, []⟩ buffer size (keys.take n)).Displays font
      ⟨x, y, false, sram, []⟩ rows
      (longest font (.editing ⟨⟨x, y, false, sram, []⟩, buffer, size, 0, 0, 0⟩) (keys.take n)) := by
  have ht : OnScreen ⟨x, y, false, sram, []⟩ := ⟨hx, hy, nofun⟩
  have hgood : (Console.editing ⟨⟨x, y, false, sram, []⟩, buffer, size, 0, 0, 0⟩).Good :=
    ⟨ht, hmax, le_rfl, hpos, Nat.zero_le _, ht.cell_lt.le⟩
  rw [← List.take_append_drop n keys, along_append] at hsafe
  -- an empty text shows what was there
  have hpage : textPage font (page ⟨x, y, false, sram, []⟩) (cell x y) (shown buffer 0 0)
      = page ⟨x, y, false, sram, []⟩ := by
    funext a line
    have hnone : (if cell x y ≤ a then shown buffer 0 0 (a - cell x y) else none) = none := by
      split
      · exact shown_of_le (Nat.zero_le _) (Nat.zero_le _)
      · rfl
    rw [textPage, hnone]
  have hstart : (Console.editing ⟨⟨x, y, false, sram, []⟩, buffer, size, 0, 0, 0⟩).Displays font
      ⟨x, y, false, sram, []⟩ 0 0 := by
    refine ⟨⟨Nat.zero_le _, ht.cell_lt.le⟩, hx, hy, rfl, ?_⟩
    show Window 0 (textPage font (page ⟨x, y, false, sram, []⟩) (cell x y) (shown buffer 0 0)) _
    rw [hpage]
    exact window_page _
  obtain ⟨rows, hrun⟩ := @displays_foldl font _ 0 0 _ (keys.take n) hgood le_rfl hstart hsafe.1
  rw [Nat.zero_max] at hrun
  exact ⟨rows, hrun⟩

/-- A line of three characters begun in the last row, the last of them erased. -/
theorem displays_run_erase :
    let keys : List Byte := [0x61, 0x62, 0, 0x63, 0x08, 0x0a]
    ∃ rows, (bufferedInput (fun _ => 0x55) ⟨30, 23, false, fun _ => 0, []⟩ (fun _ => 0) 64
      (keys.take 6)).Displays (fun _ => 0x55) ⟨30, 23, false, fun _ => 0, []⟩ rows
      (longest (fun _ => 0x55)
        (.editing ⟨⟨30, 23, false, fun _ => 0, []⟩, fun _ => 0, 64, 0, 0, 0⟩) (keys.take 6)) :=
  displays_run (fun _ => 0x55) 30 23 (by decide) (by decide) (fun _ => 0) (fun _ => 0) 64
    (by decide) (by decide) [0x61, 0x62, 0, 0x63, 0x08, 0x0a] (by decide +kernel) 6

/-- Behind two characters in the last two cells, the second typed before the first, the
cursor is in a cell that the screen does not have, and so is the next character. -/
theorem right_not_displayed :
    let keys : List Byte := [0x61, 0x11, 0x62, 0x10, 0x10, 0x63]
    let t : Terminal := ⟨30, 23, false, fun _ => 0, []⟩
    ∀ n ∈ [5, 6], ∀ rows m, ¬ (bufferedInput (fun _ => 0) t (fun _ => 0) 64 (keys.take n)).Displays
      (fun _ => 0) t rows m := by
  intro keys t n hn rows m h
  have hrow : ∃ e, bufferedInput (fun _ => 0) t (fun _ => 0) 64 (keys.take n) = .editing e ∧
      e.term.y = 24 := by
    rcases List.mem_pair.mp hn with rfl | rfl
    · exact ⟨_, rfl, by decide +kernel⟩
    · exact ⟨_, rfl, by decide +kernel⟩
  obtain ⟨e, he, hy⟩ := hrow
  rw [he] at h
  obtain ⟨-, -, hle, -⟩ := h
  rw [hy] at hle
  exact absurd hle (by decide)

end Dan64
