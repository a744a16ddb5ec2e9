/-
Dan64/TerminalPage.lean

The screen as a window on a page.

A page has cells in reading order, 32 in a row, and no last one; the screen shows 24
rows of it (`Window`).  Drawing at a cell of the screen changes the cell of the page
behind it, and scrolling moves the window, as long as the row that enters is blank:
so a text may be followed on the page, where it does not move.
-/
import Dan64.TerminalRender

namespace Dan64

/-- The eight lines of every cell. -/
abbrev Page := ℕ → ℕ → Byte

namespace Terminal

variable {font : ℕ → Byte}

/-- A line of a cell of the screen. -/
def pixels (t : Terminal) (k line : ℕ) : Byte := t.vram (256 * (k / 32) + 32 * line + k % 32)

/-- The screen shows the page from a row on. -/
def Window (rows : ℕ) (P : Page) (t : Terminal) : Prop :=
  ∀ k < 768, ∀ line < 8, t.pixels k line = P (k + 32 * rows) line

/-- The lines of a character. -/
def glyph (font : ℕ → Byte) (c : Byte) (line : ℕ) : Byte := font (8 * c.toNat + line)

variable {rows : ℕ} {P : Page} {t : Terminal}

/-- What the screen shows, with blank rows below. -/
def page (t : Terminal) : Page := fun a line => if a < 768 then t.pixels a line else 0

theorem window_page (t : Terminal) : Window 0 t.page t := by
  intro k hk line _
  exact (if_pos hk).symm

/-- The offset of a line of a cell. -/
theorem offset_cell {k line : ℕ} (hline : line < 8) :
    (256 * (k / 32) + 32 * line + k % 32) / 256 = k / 32 ∧
      (256 * (k / 32) + 32 * line + k % 32) % 32 = k % 32 ∧
      (256 * (k / 32) + 32 * line + k % 32) / 32 % 8 = line := by
  omega

theorem cell_eq_iff {x y : Byte} (hx : x.toNat < 32) {k : ℕ} :
    k / 32 = y.toNat ∧ k % 32 = x.toNat ↔ k = cell x y := by
  rw [cell]
  omega

/-- Only the memory counts. -/
theorem Window.congr {t' : Terminal} (h : Window rows P t) (ht : t'.sram = t.sram) :
    Window rows P t' := by
  intro k hk line hline
  rw [← h k hk line hline, pixels, pixels, vram, vram, ht]

/-- Drawing at a cell of the screen. -/
theorem Window.draw (h : Window rows P t) {x y : Byte} (hx : x.toNat ≤ 31) (hy : y.toNat ≤ 23)
    (f : ℕ → Byte → Byte) :
    Window rows (Function.update P (cell x y + 32 * rows)
      fun line => f line (P (cell x y + 32 * rows) line)) (t.drawBlock x y f) := by
  have hx' : x.toNat < 32 := Nat.lt_succ_of_le hx
  have hp := paints_redrawBlock t hx' (Nat.lt_succ_of_le hy) f
  intro k hk line hline
  obtain ⟨hrow, hcol, hline'⟩ := @offset_cell k line hline
  rw [pixels, hp.vram _ (by omega), hrow, hcol, hline']
  have hiff := @cell_eq_iff x y hx' k
  by_cases hcell : k = cell x y
  · rw [if_pos (hiff.mpr hcell), ← hcell, Function.update_self, ← h k hk line hline, pixels]
  · rw [if_neg (mt hiff.mp hcell), Function.update_of_ne (by omega), ← h k hk line hline, pixels]

theorem Window.videoPutChar (h : Window rows P t) {x y : Byte} (hx : x.toNat ≤ 31)
    (hy : y.toNat ≤ 23) (c : Byte) :
    Window rows (Function.update P (cell x y + 32 * rows) (glyph font c))
      (t.videoPutChar font x y c) := by
  have hdraw := h.draw hx hy fun line _ => font (line + c.toNat * 8)
  have hglyph : (fun line => font (line + c.toNat * 8)) = glyph font c := by
    funext line
    rw [glyph, Nat.add_comm, Nat.mul_comm]
  rw [hglyph] at hdraw
  exact hdraw

theorem Window.videoCursor (h : Window rows P t) {x y : Byte} (hx : x.toNat ≤ 31)
    (hy : y.toNat ≤ 23) :
    Window rows (Function.update P (cell x y + 32 * rows)
      fun line => ~~~(P (cell x y + 32 * rows) line)) (t.videoCursor x y) := by
  have hdraw := h.draw hx hy fun _ c => ~~~c
  rw [Terminal.videoCursor]
  exact hdraw.congr rfl

/-- **Scrolling moves the window**, if what enters is blank. -/
theorem Window.scrollUp (h : Window rows P t)
    (hblank : ∀ a, 768 + 32 * rows ≤ a → ∀ line, P a line = 0) :
    Window (rows + 1) P t.scrollUp := by
  have hp := paints_scrollUp t
  intro k hk line hline
  rw [pixels, hp.vram _ (by omega)]
  by_cases hlast : k < 736
  · have hoffset : 256 * (k / 32) + 32 * line + k % 32 + 256
        = 256 * ((k + 32) / 32) + 32 * line + (k + 32) % 32 := by omega
    have hcell : k + 32 + 32 * rows = k + 32 * (rows + 1) := by omega
    rw [if_pos (by omega), hoffset, ← hcell, ← h (k + 32) (by omega) line hline, pixels]
  · rw [if_neg (by omega), hblank _ (by omega)]

end Terminal

end Dan64
