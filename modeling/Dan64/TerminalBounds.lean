/-
Dan64/TerminalBounds.lean

The cursor stays on the screen.

`Draws` says that one terminal comes from another by drawing inside the screen
without moving the cursor; every drawing function draws a block at a cell or
stores in the video memory.  The line editor keeps its text on the screen
(`Editor.Fits`): the first cell of the line is not above it, and the cell after
the last character at most one below.

Two keys can break this, and nothing else does (`next_good`, `next_lost`): an arrow to the
right from the last cell of the screen, where an insertion may have left the
end of the text, and an insertion that pushes the text into a third row.
-/
import Dan64.Terminal

namespace Dan64

open BlockMem Mealy

/-! ### Drawing inside the screen -/

/-- A block inside 32 columns and 24 rows, a byte inside the video memory. -/
def Video.InBounds : Video → Prop
  | .block x y => x.toNat ≤ 31 ∧ y.toNat ≤ 23
  | .store addr => 0x0200 ≤ addr.toNat ∧ addr.toNat ≤ 0x19ff

namespace Terminal

/-- The cursor is on the screen and all that was drawn is. -/
structure OnScreen (t : Terminal) : Prop where
  x : t.x.toNat ≤ 31
  y : t.y.toNat ≤ 23
  log : ∀ v ∈ t.log, v.InBounds

/-- Drawing inside the screen, with the cursor where it was. -/
structure Draws (t t' : Terminal) : Prop where
  x : t'.x = t.x
  y : t'.y = t.y
  log : (∀ v ∈ t.log, v.InBounds) → ∀ v ∈ t'.log, v.InBounds

theorem Draws.refl (t : Terminal) : Draws t t := ⟨rfl, rfl, id⟩

theorem Draws.trans {t t' t'' : Terminal} (h : Draws t t') (h' : Draws t' t'') : Draws t t'' :=
  ⟨h'.x.trans h.x, h'.y.trans h.y, fun hlog => h'.log (h.log hlog)⟩

theorem Draws.onScreen {t t' : Terminal} (h : Draws t t') (ht : t.OnScreen) : t'.OnScreen :=
  ⟨h.x ▸ ht.x, h.y ▸ ht.y, h.log ht.log⟩

/-- A loop draws if every pass does. -/
theorem draws_foldl {ι : Type} {f : Terminal → ι → Terminal} {is : List ι}
    (hf : ∀ t, ∀ i ∈ is, Draws t (f t i)) (t : Terminal) : Draws t (is.foldl f t) := by
  refine List.foldlRecOn is f (Draws.refl t) ?_
  intro t' ht' i hi
  exact ht'.trans (hf t' i hi)

/-- A block write inside the video memory. -/
theorem draws_sramWrite (t : Terminal) {addr : Word} {data : List Byte} {n : ℕ}
    (haddr : addr = VIDEO_ADDR + BitVec.ofNat 16 n) (hn : n + data.length ≤ 6144) :
    Draws t (t.sramWrite addr data) := by
  refine ⟨rfl, rfl, ?_⟩
  intro hlog v hv
  rcases List.mem_append.mp hv with hv | hv
  · exact hlog v hv
  · obtain ⟨a, ha, rfl⟩ := List.mem_map.mp hv
    obtain ⟨i, hi, rfl⟩ := List.mem_map.mp ha
    rw [List.mem_range] at hi
    have hstore : (addr + BitVec.ofNat 16 i).toNat = 0x0200 + n + i := by
      rw [haddr, VIDEO_ADDR]
      bv_omega
    show 0x0200 ≤ (addr + BitVec.ofNat 16 i).toNat ∧ (addr + BitVec.ofNat 16 i).toNat ≤ 0x19ff
    rw [hstore]
    omega

/-- A block at a cell of the screen. -/
theorem draws_drawBlock (t : Terminal) {x y : Byte} (hx : x.toNat ≤ 31) (hy : y.toNat ≤ 23)
    (f : ℕ → Byte → Byte) : Draws t (t.drawBlock x y f) := by
  have hblock : Draws t { t with log := t.log ++ [.block x y] } := by
    refine ⟨rfl, rfl, ?_⟩
    intro hlog v hv
    rcases List.mem_append.mp hv with hv | hv
    · exact hlog v hv
    · rw [List.mem_singleton.mp hv]
      exact ⟨hx, hy⟩
  rw [drawBlock]
  refine hblock.trans (draws_foldl ?_ _)
  intro t' line hline
  have hline' : line < 8 := List.mem_range.mp hline
  refine @draws_sramWrite t' _ _ (x.toNat + y.toNat * 256 + line * 32) ?_ ?_
  · rw [word, word, CHARS_WIDTH]
    bv_omega
  · rw [List.length_singleton]
    omega

variable {font : ℕ → Byte}

theorem draws_videoPutChar (t : Terminal) {x y : Byte} (hx : x.toNat ≤ 31) (hy : y.toNat ≤ 23)
    (c : Byte) : Draws t (t.videoPutChar font x y c) :=
  draws_drawBlock t hx hy _

theorem draws_videoCursor (t : Terminal) {x y : Byte} (hx : x.toNat ≤ 31) (hy : y.toNat ≤ 23) :
    Draws t (t.videoCursor x y) := by
  rw [videoCursor]
  generalize hblock : t.drawBlock x y _ = t'
  obtain ⟨hx', hy', hlog⟩ : Draws t t' := hblock ▸ draws_drawBlock t hx hy _
  exact ⟨hx', hy', hlog⟩

theorem draws_videoCursorOff (t : Terminal) {x y : Byte} (hx : x.toNat ≤ 31)
    (hy : y.toNat ≤ 23) : Draws t (t.videoCursorOff x y) := by
  rw [videoCursorOff]
  split
  · exact draws_videoCursor t hx hy
  · exact Draws.refl t

theorem draws_videoCls (t : Terminal) (c : Byte) : Draws t (t.videoCls font c) := by
  refine draws_foldl ?_ t
  intro t' y hy
  refine draws_foldl ?_ t'
  intro t'' line hline
  rw [List.mem_range] at hy hline
  refine @draws_sramWrite t'' _ _ (y * CHARS_WIDTH * 8 + line * CHARS_WIDTH) rfl ?_
  rw [List.length_replicate]
  simp only [CHARS_WIDTH, CHARS_HEIGHT] at hy ⊢
  omega

theorem draws_scrollUp (t : Terminal) : Draws t t.scrollUp := by
  rw [scrollUp]
  refine Draws.trans (draws_foldl ?_ t) (draws_foldl ?_ _)
  · intro t' i hi
    refine draws_foldl ?_ t'
    intro t'' j hj
    rw [List.mem_range] at hi hj
    refine @draws_sramWrite t'' _ _ (i * (CHARS_WIDTH * 8) + j * 64) rfl ?_
    rw [length_readBlock]
    simp only [CHARS_WIDTH, CHARS_HEIGHT] at hi ⊢
    omega
  · intro t' j hj
    rw [List.mem_range] at hj
    refine @draws_sramWrite t' _ _ ((CHARS_HEIGHT - 1) * (CHARS_WIDTH * 8) + j * 64) rfl ?_
    rw [List.length_replicate]
    simp only [CHARS_WIDTH, CHARS_HEIGHT]
    omega

/-! ### Moving the cursor -/

/-- Moving the cursor by hand. -/
theorem OnScreen.move {t : Terminal} (ht : t.OnScreen) {x y : Byte} (hx : x.toNat ≤ 31)
    (hy : y.toNat ≤ 23) : OnScreen { t with x := x, y := y } :=
  ⟨hx, hy, ht.log⟩

/-- Scrolling takes the cursor one row up. -/
theorem scrollRow_spec (t : Terminal) : t.scrollRow.x = t.x ∧ t.scrollRow.y = t.y - 1 ∧
    ((∀ v ∈ t.log, v.InBounds) → ∀ v ∈ t.scrollRow.log, v.InBounds) := by
  rw [scrollRow]
  generalize hup : t.scrollUp = u
  obtain ⟨hx, -, hlog⟩ : Draws t u := hup ▸ draws_scrollUp t
  exact ⟨hx, rfl, hlog⟩

/-- Scrolling from the row below the screen. -/
theorem scrollBelow_spec {t : Terminal} (hx : t.x.toNat ≤ 31) (hy : t.y.toNat ≤ 24)
    (hlog : ∀ v ∈ t.log, v.InBounds) :
    t.scrollBelow.OnScreen ∧ t.scrollBelow.x = t.x ∧
      t.scrollBelow.y.toNat = min t.y.toNat 23 := by
  rw [scrollBelow]
  split
  · next hlt =>
    obtain ⟨hx', hy', hlog'⟩ := scrollRow_spec t
    have hlt' : 23 < t.y.toNat := hlt
    have hlast : t.scrollRow.y.toNat = 23 := by
      rw [hy']
      bv_omega
    refine ⟨⟨?_, hlast.le, hlog' hlog⟩, hx', ?_⟩
    · rw [hx']
      exact hx
    · rw [hlast, Nat.min_eq_right hlt'.le]
  · next hle =>
    have hle' : t.y.toNat ≤ 23 := not_lt.mp hle
    exact ⟨⟨hx, hle', hlog⟩, rfl, (Nat.min_eq_left hle').symm⟩

/-- A new line goes one row down, or scrolls. -/
theorem OnScreen.newLine {t : Terminal} (ht : t.OnScreen) :
    t.newLine.OnScreen ∧ t.newLine.x = 0 ∧ t.newLine.y.toNat = min (t.y.toNat + 1) 23 := by
  have hy := ht.y
  have hdown : (t.y + 1).toNat = t.y.toNat + 1 := by bv_omega
  have hzero : (0 : Byte).toNat ≤ 31 := by decide
  have hspec := @scrollBelow_spec { t with x := 0, y := t.y + 1 } hzero (hdown.trans_le (by omega))
    ht.log
  rw [← hdown]
  exact hspec

/-- The next tab stop is at most the end of the row. -/
theorem tab_le : ∀ x : Byte, x.toNat ≤ 31 → ((x / 8 + 1) * 8).toNat ≤ 32 := by
  decide +kernel

/-- `put_char` keeps the cursor on the screen. -/
theorem OnScreen.putChar {t : Terminal} (ht : t.OnScreen) (c : Byte) :
    (t.putChar font c).OnScreen := by
  have hx := ht.x
  -- before the wrap the cursor is at most one cell past the row
  have hwrap : ∀ u : Terminal, u.x.toNat ≤ 32 → u.y.toNat ≤ 23 → (∀ v ∈ u.log, v.InBounds) →
      (if 31 < u.x then u.newLine else u).OnScreen := by
    intro u hux huy hulog
    split
    · have hzero : (0 : Byte).toNat ≤ 31 := by decide
      have hdown : (u.y + 1).toNat ≤ 24 := by bv_omega
      exact (@scrollBelow_spec { u with x := 0, y := u.y + 1 } hzero hdown hulog).1
    · next hle => exact ⟨not_lt.mp hle, huy, hulog⟩
  rw [Terminal.putChar]
  generalize hput : t.videoPutChar font t.x t.y c = u
  obtain ⟨hux, huy, hulog⟩ : Draws t u := hput ▸ draws_videoPutChar t hx ht.y c
  apply hwrap
  · split
    · rw [ht.newLine.2.1]
      exact Nat.zero_le 32
    · split
      · exact tab_le t.x hx
      · show (t.x + 1).toNat ≤ 32
        bv_omega
  · split
    · exact ht.newLine.1.y
    · split
      · exact ht.y
      · exact huy ▸ ht.y
  · split
    · exact ht.newLine.1.log
    · split
      · exact ht.log
      · exact hulog ht.log

theorem OnScreen.setCursor {t : Terminal} (ht : t.OnScreen) (v0 v1 : Byte) :
    (t.setCursor v0 v1).2.OnScreen := by
  rw [Terminal.setCursor]
  split
  · exact ht
  · next hle =>
    obtain ⟨hx, hy⟩ := not_or.mp hle
    exact ht.move (not_lt.mp hx) (not_lt.mp hy)

theorem OnScreen.fillScreen {t : Terminal} (ht : t.OnScreen) (c : Byte) :
    (t.fillScreen font c).2.OnScreen :=
  ((draws_videoCls t c).onScreen ht).move (by decide) (by decide)

/-! ### Cells -/

/-- The cells of the screen in reading order. -/
def cell (x y : Byte) : ℕ := 32 * y.toNat + x.toNat

theorem cellOn_spec {x y : Byte} (hx : x.toNat ≤ 31) (hy : y.toNat ≤ 23) :
    (cellOn x y).1.toNat ≤ 31 ∧ cell (cellOn x y).1 (cellOn x y).2 = cell x y + 1 := by
  rw [cellOn]
  split
  · next hlt =>
    have hlt' : x.toNat < 31 := hlt
    have hright : (x + 1).toNat = x.toNat + 1 := by bv_omega
    refine ⟨hright.trans_le hlt', ?_⟩
    show 32 * y.toNat + (x + 1).toNat = 32 * y.toNat + x.toNat + 1
    rw [hright, Nat.add_assoc]
  · next hge =>
    have hge' : ¬ x.toNat < 31 := hge
    have hdown : (y + 1).toNat = y.toNat + 1 := by bv_omega
    refine ⟨Nat.zero_le 31, ?_⟩
    show 32 * (y + 1).toNat + 0 = 32 * y.toNat + x.toNat + 1
    omega

theorem cellBack_spec {x y : Byte} (hx : x.toNat ≤ 31) (hcell : 0 < cell x y) :
    (cellBack x y).1.toNat ≤ 31 ∧ (cellBack x y).2.toNat ≤ y.toNat ∧
      cell (cellBack x y).1 (cellBack x y).2 + 1 = cell x y := by
  have hcell' : 0 < 32 * y.toNat + x.toNat := hcell
  rw [cellBack]
  split
  · next hlt =>
    have hlt' : 0 < x.toNat := hlt
    have hleft : (x - 1).toNat = x.toNat - 1 := by bv_omega
    refine ⟨hleft.trans_le (by omega), le_rfl, ?_⟩
    show 32 * y.toNat + (x - 1).toNat + 1 = 32 * y.toNat + x.toNat
    omega
  · next hge =>
    have hge' : ¬ 0 < x.toNat := hge
    have hup : (y - 1).toNat = y.toNat - 1 := by bv_omega
    refine ⟨le_rfl, hup.trans_le (Nat.sub_le y.toNat 1), ?_⟩
    show 32 * (y - 1).toNat + 31 + 1 = 32 * y.toNat + x.toNat
    omega

theorem OnScreen.cell_lt {t : Terminal} (ht : t.OnScreen) : cell t.x t.y < 768 := by
  have hx := ht.x
  have hy := ht.y
  rw [cell]
  omega

theorem OnScreen.on {t : Terminal} (ht : t.OnScreen) (hlast : cell t.x t.y < 767) :
    t.on.OnScreen ∧ cell t.on.x t.on.y = cell t.x t.y + 1 := by
  obtain ⟨hx, hcell⟩ := cellOn_spec ht.x ht.y
  have hy : (cellOn t.x t.y).2.toNat ≤ 23 := by
    rw [cell] at hcell
    omega
  exact ⟨ht.move hx hy, hcell⟩

theorem OnScreen.back {t : Terminal} (ht : t.OnScreen) (hfirst : 0 < cell t.x t.y) :
    t.back.OnScreen ∧ cell t.back.x t.back.y + 1 = cell t.x t.y := by
  obtain ⟨hx, hy, hcell⟩ := cellBack_spec ht.x hfirst
  exact ⟨ht.move hx (hy.trans ht.y), hcell⟩

end Terminal

/-! ### Redrawing -/

namespace Redraw

open Terminal

variable {font : ℕ → Byte}

/-- A pass of backspace draws a character and goes on. -/
theorem closeGap_eq (n : ℕ) (r : Redraw) (k : ℕ) :
    ∃ c, (r.closeGap font n k).term = r.term.videoPutChar font r.i r.j c ∧
      (r.closeGap font n k).i = (cellOn r.i r.j).1 ∧
      (r.closeGap font n k).j = (cellOn r.i r.j).2 := by
  rw [closeGap]
  split
  · exact ⟨_, rfl, rfl, rfl⟩
  · exact ⟨_, rfl, rfl, rfl⟩

/-- The loop of backspace draws up to the end of the screen: induction on the passes,
with the cell. -/
theorem draws_closeGap (n : ℕ) (ks : List ℕ) (r : Redraw) (hi : r.i.toNat ≤ 31)
    (hcell : cell r.i r.j + ks.length ≤ 768) :
    Draws r.term (ks.foldl (closeGap font n) r).term := by
  induction ks generalizing r with
  | nil => exact Draws.refl r.term
  | cons k ks ih =>
    rw [List.length_cons] at hcell
    have hj : r.j.toNat ≤ 23 := by
      rw [cell] at hcell
      omega
    obtain ⟨hi', hnext⟩ := cellOn_spec hi hj
    obtain ⟨c, hterm, hri, hrj⟩ := @closeGap_eq font n r k
    have hput : Draws r.term (r.closeGap font n k).term := hterm ▸ draws_videoPutChar r.term hi hj c
    refine hput.trans (ih _ ?_ ?_)
    · exact hri ▸ hi'
    · rw [hri, hrj, hnext]
      omega

/-- The loop of an insertion draws down to the cursor. -/
theorem draws_openGap (ks : List ℕ) (r : Redraw) (hi : r.i.toNat ≤ 31) (hj : r.j.toNat ≤ 23)
    (hcell : ks.length ≤ cell r.i r.j) : Draws r.term (ks.foldl (openGap font) r).term := by
  induction ks generalizing r with
  | nil => exact Draws.refl r.term
  | cons k ks ih =>
    rw [List.length_cons] at hcell
    obtain ⟨hi', hj', hnext⟩ := cellBack_spec hi (Nat.zero_lt_of_lt hcell)
    have hput : Draws r.term (r.openGap font k).term := draws_videoPutChar r.term hi hj _
    refine hput.trans (ih _ hi' (hj'.trans hj) ?_)
    show ks.length ≤ cell (cellBack r.i r.j).1 (cellBack r.i r.j).2
    omega

end Redraw

/-! ### Keys -/

/-- The text is on the screen: its first cell is not above, the cell after its
last character at most one below. -/
structure Editor.Fits (e : Editor) : Prop where
  size : e.size.toNat ≤ 64
  pos_le : e.pos.toNat ≤ e.end_.toNat
  end_lt : e.end_.toNat < e.size.toNat
  first : e.pos.toNat ≤ Terminal.cell e.term.x e.term.y
  last : Terminal.cell e.term.x e.term.y + e.end_.toNat ≤ 768 + e.pos.toNat

/-- The state of the editor between two keys. -/
structure Editor.Good (e : Editor) : Prop where
  onScreen : e.term.OnScreen
  fits : e.Fits

namespace Editor

open Terminal

variable {font : ℕ → Byte} {e : Editor}

/-- Drawing changes nothing but the picture. -/
theorem Good.draw (h : e.Good) {t : Terminal} (ht : Draws e.term t) (cnt : Word) :
    Good { e with term := t, cnt := cnt } := by
  obtain ⟨hsize, hpos, hend, hfirst, hlast⟩ := h.fits
  refine ⟨ht.onScreen h.onScreen, hsize, hpos, hend, ?_, ?_⟩
  · show e.pos.toNat ≤ cell t.x t.y
    rw [ht.x, ht.y]
    exact hfirst
  · show cell t.x t.y + e.end_.toNat ≤ 768 + e.pos.toNat
    rw [ht.x, ht.y]
    exact hlast

theorem Good.cursorOff (h : e.Good) : e.cursorOff.Good :=
  h.draw (draws_videoCursorOff e.term h.onScreen.x h.onScreen.y) e.cnt

theorem Good.keyNone (h : e.Good) : e.keyNone.Good := by
  rw [Editor.keyNone]
  split
  · exact h.draw (draws_videoCursor e.term h.onScreen.x h.onScreen.y) 0
  · exact h.draw (Draws.refl e.term) (e.cnt + 1)

theorem Good.keyLeft (h : e.Good) : e.keyLeft.Good := by
  rw [Editor.keyLeft]
  obtain ⟨ht, hsize, hpos, hend, hfirst, hlast⟩ := h.cursorOff
  generalize e.cursorOff = e' at *
  split
  · next hlt =>
    have hlt' : 0 < e'.pos.toNat := hlt
    have hleft : (e'.pos - 1).toNat = e'.pos.toNat - 1 := by bv_omega
    obtain ⟨hback, hcell⟩ := ht.back (hlt'.trans_le hfirst)
    refine ⟨hback, hsize, ?_, hend, ?_, ?_⟩
    · show (e'.pos - 1).toNat ≤ e'.end_.toNat
      omega
    · show (e'.pos - 1).toNat ≤ cell e'.term.back.x e'.term.back.y
      omega
    · show cell e'.term.back.x e'.term.back.y + e'.end_.toNat ≤ 768 + (e'.pos - 1).toNat
      omega
  · exact ⟨ht, hsize, hpos, hend, hfirst, hlast⟩

theorem cursorOff_cell (h : e.Good) :
    cell e.cursorOff.term.x e.cursorOff.term.y = cell e.term.x e.term.y := by
  have hoff := draws_videoCursorOff e.term h.onScreen.x h.onScreen.y
  exact congrArg₂ cell hoff.x hoff.y

/-- To the right, except from the last cell. -/
theorem Good.keyRight (h : e.Good)
    (hsafe : e.pos < e.end_ → cell e.term.x e.term.y < 767) : e.keyRight.Good := by
  rw [Editor.keyRight]
  have hcell' := cursorOff_cell h
  have hpos' : e.cursorOff.pos = e.pos := rfl
  have hend' : e.cursorOff.end_ = e.end_ := rfl
  rw [← hcell', ← hpos', ← hend'] at hsafe
  obtain ⟨ht, hsize, hpos, hend, hfirst, hlast⟩ := h.cursorOff
  generalize e.cursorOff = e' at *
  split
  · next hlt =>
    have hlt' : e'.pos.toNat < e'.end_.toNat := hlt
    have hright : (e'.pos + 1).toNat = e'.pos.toNat + 1 := by bv_omega
    obtain ⟨hon, hcell⟩ := ht.on (hsafe hlt)
    refine ⟨hon, hsize, ?_, hend, ?_, ?_⟩
    · exact hright.trans_le hlt'
    · show (e'.pos + 1).toNat ≤ cell e'.term.on.x e'.term.on.y
      omega
    · show cell e'.term.on.x e'.term.on.y + e'.end_.toNat ≤ 768 + (e'.pos + 1).toNat
      omega
  · exact ⟨ht, hsize, hpos, hend, hfirst, hlast⟩

theorem Good.keyBackspace (h : e.Good) : (e.keyBackspace font).Good := by
  rw [Editor.keyBackspace]
  obtain ⟨ht, hsize, hpos, hend, hfirst, hlast⟩ := h.cursorOff
  generalize e.cursorOff = e' at *
  split
  · next hlt =>
    have hlt' : 0 < e'.pos.toNat := hlt
    have hleft : (e'.pos - 1).toNat = e'.pos.toNat - 1 := by bv_omega
    have hshort : (e'.end_ - 1).toNat = e'.end_.toNat - 1 := by bv_omega
    obtain ⟨hback, hcell⟩ := ht.back (hlt'.trans_le hfirst)
    -- the characters behind the cursor move one cell back
    have hdraws := @Redraw.draws_closeGap font e'.end_.toNat
      (List.range' (e'.pos - 1).toNat (e'.end_.toNat - (e'.pos - 1).toNat))
      ⟨e'.term.back, e'.buffer, e'.term.back.x, e'.term.back.y⟩ hback.x (by
        rw [List.length_range']
        show cell e'.term.back.x e'.term.back.y + _ ≤ 768
        omega)
    have hcell' := congrArg₂ cell hdraws.x hdraws.y
    refine ⟨hdraws.onScreen hback, hsize, ?_, ?_, ?_, ?_⟩
    · show (e'.pos - 1).toNat ≤ (e'.end_ - 1).toNat
      omega
    · show (e'.end_ - 1).toNat < e'.size.toNat
      omega
    · refine le_of_le_of_eq ?_ hcell'.symm
      show (e'.pos - 1).toNat ≤ cell e'.term.back.x e'.term.back.y
      omega
    · refine (congrArg (· + (e'.end_ - 1).toNat) hcell').trans_le ?_
      show cell e'.term.back.x e'.term.back.y + (e'.end_ - 1).toNat ≤ 768 + (e'.pos - 1).toNat
      omega
  · exact ⟨ht, hsize, hpos, hend, hfirst, hlast⟩

/-- A character at the end, where the editor scrolls. -/
theorem Good.append (h : e.Good) (hroom : e.end_.toNat + 1 ≠ e.size.toNat) (hpos : e.pos = e.end_)
    (d : Byte) : (e.append font d).Good := by
  obtain ⟨hsize, -, hend, hfirst, hlast⟩ := h.fits
  rw [hpos] at hfirst hlast
  have hnext : (e.pos + 1).toNat = e.end_.toNat + 1 := by
    rw [hpos]
    bv_omega
  rw [Editor.append]
  generalize hput : e.term.videoPutChar font e.term.x e.term.y d = t
  have hdraws : Draws e.term t :=
    hput ▸ draws_videoPutChar e.term h.onScreen.x h.onScreen.y d
  have ht := hdraws.onScreen h.onScreen
  rw [← hdraws.x, ← hdraws.y] at hfirst hlast
  have hx := ht.x
  have hy := ht.y
  -- wherever the cursor goes on the screen, the text ends there
  have hcell : ∀ u : Terminal, u.OnScreen → e.end_.toNat + 1 ≤ cell u.x u.y →
      Good { e with
        buffer := Function.update e.buffer e.pos.toNat d
        pos := e.pos + 1
        end_ := e.pos + 1
        term := u } := by
    intro u hu hcell
    refine ⟨hu, hsize, le_rfl, ?_, ?_, ?_⟩
    · show (e.pos + 1).toNat < e.size.toNat
      omega
    · show (e.pos + 1).toNat ≤ cell u.x u.y
      omega
    · show cell u.x u.y + (e.pos + 1).toNat ≤ 768 + (e.pos + 1).toNat
      have hlt := hu.cell_lt
      omega
  apply hcell
  · split
    · next hlt =>
      have hlt' : t.x.toNat < 31 := hlt
      have hright : (t.x + 1).toNat = t.x.toNat + 1 := by bv_omega
      exact ht.move (hright.trans_le hlt') hy
    · exact ht.newLine.1
  · split
    · next hlt =>
      have hlt' : t.x.toNat < 31 := hlt
      have hright : (t.x + 1).toNat = t.x.toNat + 1 := by bv_omega
      show e.end_.toNat + 1 ≤ 32 * t.y.toNat + (t.x + 1).toNat
      rw [cell] at hfirst
      omega
    · -- at the right border the line breaks, and the screen may scroll
      next hge =>
      have hge' : ¬ t.x.toNat < 31 := hge
      obtain ⟨-, hx', hy'⟩ := ht.newLine
      rw [cell] at hfirst
      rw [cell, hx', hy']
      omega

/-- The column where the redrawing of an insertion starts, not wrapped yet. -/
theorem toNat_lastColumn (h : e.Good) :
    (e.term.x + (e.end_ - e.pos)).toNat = e.term.x.toNat + (e.end_.toNat - e.pos.toNat) := by
  have hx := h.onScreen.x
  have hpos := h.fits.pos_le
  have hend := h.fits.end_lt
  have hsize := h.fits.size
  bv_omega

/-- While the text ends in the next row at most, the redrawing starts at its last
cell, with the screen scrolled if need be. -/
theorem Good.lastCell (h : e.Good)
    (hrows : e.term.x.toNat + (e.end_.toNat - e.pos.toNat) < 64) :
    let r := e.lastCell
    r.term.OnScreen ∧ r.i.toNat ≤ 31 ∧ r.j.toNat ≤ 23 ∧
      cell r.i r.j = cell r.term.x r.term.y + (e.end_.toNat - e.pos.toNat) ∧
      e.pos.toNat ≤ cell r.term.x r.term.y := by
  obtain ⟨hsize, hpos, hend, hfirst, hlast⟩ := h.fits
  have hcolumn := toNat_lastColumn h
  have ht := h.onScreen
  have hx := ht.x
  have hy := ht.y
  have hfirst' := hfirst
  rw [cell] at hfirst'
  rw [Editor.lastCell]
  generalize e.term.x + (e.end_ - e.pos) = i at *
  have hdown : (e.term.y + 1).toNat = e.term.y.toNat + 1 := by bv_omega
  split
  · next hwrap =>
    have hwrap' : 31 < i.toNat := hwrap
    have hcol : (i - 32).toNat = i.toNat - 32 := by bv_omega
    split
    · next hscroll =>
      -- the row below the screen
      have hscroll' : 23 < (e.term.y + 1).toNat := hscroll
      have hrow : (e.term.y + 1 - 1).toNat = 23 := by bv_omega
      have hcell : cell (i - 32) (e.term.y + 1 - 1)
          = cell e.term.x (e.term.y - 1) + (e.end_.toNat - e.pos.toNat) := by
        rw [cell, cell]
        bv_omega
      have hfirst'' : e.pos.toNat ≤ cell e.term.x (e.term.y - 1) := by
        rw [cell]
        bv_omega
      have hcol' : (i - 32).toNat ≤ 31 := by omega
      have hup : (e.term.y - 1).toNat ≤ 23 := by bv_omega
      obtain ⟨hx', hy', hlog'⟩ := scrollRow_spec e.term
      generalize e.term.scrollRow = u at *
      rw [← hx', ← hy'] at hcell hfirst''
      exact ⟨⟨hx' ▸ hx, hy' ▸ hup, hlog' ht.log⟩, hcol', hrow.le, hcell, hfirst''⟩
    · next hroom =>
      have hroom' : ¬ 23 < (e.term.y + 1).toNat := hroom
      have hcell : cell (i - 32) (e.term.y + 1)
          = cell e.term.x e.term.y + (e.end_.toNat - e.pos.toNat) := by
        rw [cell, cell]
        omega
      have hcol' : (i - 32).toNat ≤ 31 := by omega
      exact ⟨ht, hcol', not_lt.mp hroom', hcell, hfirst⟩
  · next hrow =>
    have hrow' : ¬ 31 < i.toNat := hrow
    have hcell : cell i e.term.y
        = cell e.term.x e.term.y + (e.end_.toNat - e.pos.toNat) := by
      rw [cell, cell]
      omega
    exact ⟨ht, not_lt.mp hrow', hy, hcell, hfirst⟩

/-- A character inside the text, except where it reaches a third row. -/
theorem Good.insert (h : e.Good) (hroom : e.end_.toNat + 1 ≠ e.size.toNat)
    (hrows : e.term.x.toNat + (e.end_.toNat - e.pos.toNat) < 64) (d : Byte) :
    (e.insert font d).Good := by
  obtain ⟨hsize, hpos, hend, -, -⟩ := h.fits
  obtain ⟨ht, hi, hj, hcell, hfirst⟩ := h.lastCell hrows
  have hlong : (e.end_ + 1).toNat = e.end_.toNat + 1 := by bv_omega
  have hlt : cell e.lastCell.i e.lastCell.j < 768 := by
    rw [cell]
    omega
  rw [Editor.insert]
  generalize e.lastCell = r at *
  -- the text behind the cursor, and then the character at the cursor
  generalize hks : (List.range' (e.pos.toNat + 1)
    ((e.end_ + 1).toNat - 1 - e.pos.toNat)).reverse = ks
  have hlength : ks.length = e.end_.toNat - e.pos.toNat := by
    rw [← hks, List.length_reverse, List.length_range', hlong, Nat.add_sub_cancel]
  have hgap : Draws r.term (ks.foldl (Redraw.openGap font) r).term :=
    Redraw.draws_openGap ks r hi hj (by omega)
  have hgap' := hgap.onScreen ht
  have hput := hgap.trans (@draws_videoPutChar font _ _ _ hgap'.x hgap'.y d)
  have hcell' := congrArg₂ cell hput.x hput.y
  refine ⟨hput.onScreen ht, hsize, ?_, ?_, ?_, ?_⟩
  · show e.pos.toNat ≤ (e.end_ + 1).toNat
    omega
  · show (e.end_ + 1).toNat < e.size.toNat
    omega
  · exact hfirst.trans_eq hcell'.symm
  · refine (congrArg (· + (e.end_ + 1).toNat) hcell').trans_le ?_
    show cell r.term.x r.term.y + (e.end_ + 1).toNat ≤ 768 + e.pos.toNat
    omega

end Editor

/-! ### Drawing outside the screen -/

namespace Terminal

theorem mem_drawBlock (t : Terminal) (x y : Byte) (f : ℕ → Byte → Byte) {v : Video}
    (hv : v ∈ t.log ++ [.block x y]) : v ∈ (t.drawBlock x y f).log := by
  rw [drawBlock]
  refine @List.foldlRecOn _ _ (fun u : Terminal => v ∈ u.log) (List.range 8) _ _ hv ?_
  intro u hu line _
  exact List.mem_append_left _ hu

end Terminal

/-- What is drawn stays drawn in the loop of an insertion. -/
theorem Redraw.mem_openGap {font : ℕ → Byte} (ks : List ℕ) {r : Redraw} {v : Video}
    (hv : v ∈ r.term.log) : v ∈ (ks.foldl (openGap font) r).term.log := by
  induction ks generalizing r with
  | nil => exact hv
  | cons k ks ih =>
    apply ih
    exact Terminal.mem_drawBlock r.term r.i r.j _ (List.mem_append_left _ hv)

namespace Editor

open Terminal

variable {font : ℕ → Byte} {e : Editor}

/-- Behind the second row the redrawing starts in a column that there is not. -/
theorem lastCell_column (h : e.Good)
    (hrows : 64 ≤ e.term.x.toNat + (e.end_.toNat - e.pos.toNat)) :
    31 < e.lastCell.i.toNat := by
  have hcolumn := toNat_lastColumn h
  have hx := h.onScreen.x
  have hend := h.fits.end_lt
  have hsize := h.fits.size
  rw [Editor.lastCell]
  generalize e.term.x + (e.end_ - e.pos) = i at *
  have hcol : 31 < (i - 32).toNat := by bv_omega
  split
  · split
    · exact hcol
    · exact hcol
  · next hrow =>
    have hrow' : ¬ 31 < i.toNat := hrow
    omega

/-- An insertion that reaches a third row draws there. -/
theorem insert_lost (h : e.Good) (hpos : e.pos ≠ e.end_)
    (hrows : 64 ≤ e.term.x.toNat + (e.end_.toNat - e.pos.toNat)) (d : Byte) :
    ¬ (e.insert font d).term.OnScreen := by
  intro hscreen
  have hcolumn := lastCell_column h hrows
  have hle := h.fits.pos_le
  have hsize := h.fits.size
  have hend := h.fits.end_lt
  have hne : e.pos.toNat ≠ e.end_.toNat := fun heq => hpos (BitVec.eq_of_toNat_eq heq)
  have hlong : (e.end_ + 1).toNat = e.end_.toNat + 1 := by bv_omega
  obtain ⟨k, ks, hks⟩ : ∃ k ks, (List.range' (e.pos.toNat + 1)
      ((e.end_ + 1).toNat - 1 - e.pos.toNat)).reverse = k :: ks := by
    apply List.exists_cons_of_ne_nil
    intro hnil
    have hlength := congrArg List.length hnil
    rw [List.length_reverse, List.length_range', hlong, List.length_nil] at hlength
    omega
  have hlog := hscreen.log (.block e.lastCell.i e.lastCell.j)
  rw [Editor.insert, hks] at hlog
  have hblock := hlog (mem_drawBlock _ _ _ _ (List.mem_append_left _
    (Redraw.mem_openGap ks (mem_drawBlock e.lastCell.term e.lastCell.i e.lastCell.j _ (by simp)))))
  exact absurd hblock.1 (by omega)

/-- An arrow to the right from the last cell leaves the screen. -/
theorem keyRight_lost (h : e.Good) (hlt : e.pos < e.end_) (hx : e.term.x = 31)
    (hy : e.term.y = 23) : ¬ e.keyRight.term.OnScreen := by
  intro hscreen
  have hoff := draws_videoCursorOff e.term h.onScreen.x h.onScreen.y
  have hrow : e.keyRight.term.y = 24 := by
    have hlt' : e.cursorOff.pos < e.cursorOff.end_ := hlt
    have hx' : e.cursorOff.term.x = 31 := hoff.x.trans hx
    have hy' : e.cursorOff.term.y = 23 := hoff.y.trans hy
    rw [keyRight, if_pos hlt']
    show (cellOn e.cursorOff.term.x e.cursorOff.term.y).2 = 24
    rw [hx', hy']
    rfl
  have hle := hscreen.y
  rw [hrow] at hle
  exact absurd hle (by decide)

end Editor

/-! ### The machine -/

/-- The codes that stand for characters. -/
def Ordinary (d : Byte) : Prop := d ≠ 0 ∧ d ≠ 0x11 ∧ d ≠ 0x10 ∧ d ≠ 0x0a ∧ d ≠ 0x08

instance (d : Byte) : Decidable (Ordinary d) := inferInstanceAs (Decidable (_ ∧ _))

/-- The keys that keep the editor on the screen: not an arrow to the right from the
last cell, and not a character inside a text that it pushes into a third row. -/
def Editor.Safe (e : Editor) (d : Byte) : Prop :=
  (d = 0x10 → e.pos < e.end_ → ¬ (e.term.x = 31 ∧ e.term.y = 23)) ∧
    (Ordinary d → e.end_.toNat + 1 ≠ e.size.toNat → e.pos ≠ e.end_ →
      e.term.x.toNat + (e.end_.toNat - e.pos.toNat) < 64)

instance (e : Editor) (d : Byte) : Decidable (e.Safe d) := inferInstanceAs (Decidable (_ ∧ _))

namespace Console

/-- Every other input is safe. -/
def Safe : Console → Input → Prop
  | .editing e, .key d => e.Safe d
  | _, _ => True

instance (c : Console) (i : Input) : Decidable (c.Safe i) := by
  unfold Safe
  split <;> infer_instance

/-- The invariant of the machine. -/
def Good : Console → Prop
  | .idle t _ _ => t.OnScreen
  | .editing e => e.Good

variable {font : ℕ → Byte} {c : Console}

theorem Good.onScreen (h : c.Good) : c.term.OnScreen := by
  cases c with
  | idle t buffer ret => exact h
  | editing e => exact Editor.Good.onScreen h

end Console

/-- A size that `buffered_input` may be called with. -/
def Input.Sized : Input → Prop
  | .bufferedInput _ size => 1 ≤ size.toNat ∧ size.toNat ≤ 64
  | _ => True

namespace Editor

open Terminal

variable {font : ℕ → Byte} {e : Editor}

theorem Good.keyChar (h : e.Good) {d : Byte}
    (hrows : e.end_.toNat + 1 ≠ e.size.toNat → e.pos ≠ e.end_ →
      e.term.x.toNat + (e.end_.toNat - e.pos.toNat) < 64) : (e.keyChar font d).Good := by
  have hoff := draws_videoCursorOff e.term h.onScreen.x h.onScreen.y
  rw [Editor.keyChar]
  split
  · exact h.cursorOff
  · next hroom =>
    split
    · next hpos => exact h.cursorOff.append hroom hpos d
    · next hpos =>
      apply h.cursorOff.insert hroom
      show (e.term.videoCursorOff e.term.x e.term.y).x.toNat + _ < 64
      rw [hoff.x]
      exact hrows hroom hpos

/-- What a key does. -/
theorem key_cases (font : ℕ → Byte) (e : Editor) (d : Byte) :
    (d = 0 ∧ e.key font d = .editing e.keyNone) ∨
    (d = 0x11 ∧ e.key font d = .editing e.keyLeft) ∨
    (d = 0x10 ∧ e.key font d = .editing e.keyRight) ∨
    (d = 0x0a ∧ e.key font d =
      .idle e.cursorOff.term.newLine (Function.update e.buffer e.end_.toNat 0) e.end_) ∨
    (d = 0x08 ∧ e.key font d = .editing (e.keyBackspace font)) ∨
    (Ordinary d ∧ e.key font d = .editing (e.keyChar font d)) := by
  rw [Editor.key]
  by_cases h0 : d = 0
  · exact .inl ⟨h0, if_pos h0⟩
  rw [if_neg h0]
  by_cases hleft : d = 0x11
  · exact .inr (.inl ⟨hleft, if_pos hleft⟩)
  rw [if_neg hleft]
  by_cases hright : d = 0x10
  · exact .inr (.inr (.inl ⟨hright, if_pos hright⟩))
  rw [if_neg hright]
  by_cases hnew : d = 0x0a
  · exact .inr (.inr (.inr (.inl ⟨hnew, if_pos hnew⟩)))
  rw [if_neg hnew]
  by_cases hback : d = 0x08
  · exact .inr (.inr (.inr (.inr (.inl ⟨hback, if_pos hback⟩))))
  · exact .inr (.inr (.inr (.inr (.inr ⟨⟨h0, hleft, hright, hnew, hback⟩, if_neg hback⟩))))

theorem key_ordinary {d : Byte} (hd : Ordinary d) :
    e.key font d = .editing (e.keyChar font d) := by
  obtain ⟨h0, hleft, hright, hnew, hback⟩ := hd
  rw [Editor.key, if_neg h0, if_neg hleft, if_neg hright, if_neg hnew, if_neg hback]

/-- A safe arrow to the right is not in the last cell. -/
theorem Safe.right (h : e.Good) (hsafe : e.Safe 0x10) (hlt : e.pos < e.end_) :
    cell e.term.x e.term.y < 767 := by
  have hx := h.onScreen.x
  have hy := h.onScreen.y
  by_contra hlast
  rw [cell] at hlast
  exact hsafe.1 rfl hlt ⟨by bv_omega, by bv_omega⟩

/-- **Step.**  A safe key keeps the editor good, or ends it on the screen. -/
theorem Good.key (h : e.Good) {d : Byte} (hsafe : e.Safe d) : (e.key font d).Good := by
  rcases key_cases font e d with ⟨-, hk⟩ | ⟨-, hk⟩ | ⟨rfl, hk⟩ | ⟨-, hk⟩ | ⟨-, hk⟩ | ⟨hd, hk⟩ <;>
    rw [hk]
  · exact h.keyNone
  · exact h.keyLeft
  · exact h.keyRight (hsafe.right h)
  · exact h.cursorOff.onScreen.newLine.1
  · exact h.keyBackspace
  · exact h.keyChar (hsafe.2 hd)

/-- The other keys do not. -/
theorem key_lost (h : e.Good) {d : Byte} (hbad : ¬ e.Safe d) :
    ¬ (e.key font d).term.OnScreen := by
  rcases not_and_or.mp hbad with hright | hinsert
  · push Not at hright
    obtain ⟨rfl, hlt, hx, hy⟩ := hright
    exact keyRight_lost h hlt hx hy
  · push Not at hinsert
    obtain ⟨hord, hroom, hpos, hrows⟩ := hinsert
    have hoff := draws_videoCursorOff e.term h.onScreen.x h.onScreen.y
    have hroom' : ¬ e.cursorOff.end_.toNat + 1 = e.cursorOff.size.toNat := hroom
    have hpos' : ¬ e.cursorOff.pos = e.cursorOff.end_ := hpos
    rw [key_ordinary hord, Editor.keyChar]
    show ¬ (if e.cursorOff.end_.toNat + 1 = e.cursorOff.size.toNat then e.cursorOff
      else if e.cursorOff.pos = e.cursorOff.end_ then e.cursorOff.append font d
      else e.cursorOff.insert font d).term.OnScreen
    rw [if_neg hroom', if_neg hpos']
    apply insert_lost h.cursorOff hpos
    show 64 ≤ (e.term.videoCursorOff e.term.x e.term.y).x.toNat + _
    rw [hoff.x]
    exact hrows

end Editor

namespace Console

variable {font : ℕ → Byte} {c : Console} {i : Input}

/-- **Step.**  A safe input keeps the machine good. -/
theorem Good.next (h : c.Good) (hi : i.Sized) (hsafe : c.Safe i) : (c.next font i).Good := by
  cases c with
  | editing e =>
    cases i with
    | key d => exact Editor.Good.key h hsafe
    | bufferedInput buffer size => exact h
    | putChar d => exact h
    | putCharAt d => exact h
    | setCursor v0 v1 => exact h
    | fillScreen d => exact h
    | putTile tile => exact h
  | idle t buffer ret =>
    have ht : t.OnScreen := h
    cases i with
    | key d => exact ht
    | bufferedInput buffer' size =>
      -- the editor starts with an empty text at the cursor
      obtain ⟨hpos, hle⟩ : 1 ≤ size.toNat ∧ size.toNat ≤ 64 := hi
      have hlt := ht.cell_lt
      exact ⟨ht, hle, le_rfl, hpos, Nat.zero_le _, hlt.le⟩
    | putChar d => exact ht.putChar d
    | putCharAt d => exact (Terminal.draws_videoPutChar t ht.x ht.y d).onScreen ht
    | setCursor v0 v1 => exact ht.setCursor v0 v1
    | fillScreen d => exact ht.fillScreen d
    | putTile tile => exact (Terminal.draws_drawBlock t ht.x ht.y _).onScreen ht

/-- The others do not. -/
theorem next_lost (h : c.Good) (hbad : ¬ c.Safe i) : ¬ (c.next font i).term.OnScreen := by
  cases c with
  | editing e =>
    cases i with
    | key d => exact Editor.key_lost h hbad
    | _ => exact absurd trivial hbad
  | idle t buffer ret => exact absurd (by cases i <;> trivial) hbad

end Console

/-- **The cursor stays on the screen** as long as every key is safe, and leaves it
with the first one that is not. -/
theorem onScreen_iff {font : ℕ → Byte} {t : Terminal} (ht : t.OnScreen) (buffer : ℕ → Byte)
    (ret : Byte) {is : List Input} (his : ∀ i ∈ is, i.Sized) :
    Along (Console.next font) (fun c i => (c.next font i).term.OnScreen) (.idle t buffer ret) is ↔
      Along (Console.next font) Console.Safe (.idle t buffer ret) is :=
  @along_iff _ _ (Console.next font) Console.Good Input.Sized Console.Safe
    (fun c => c.term.OnScreen) (fun _ h => h.onScreen) (fun _ _ h hi hsafe => h.next hi hsafe)
    (fun _ _ h _ hbad => Console.next_lost h hbad) (.idle t buffer ret) ht is his

/-- A character, and a line of one character. -/
theorem onScreen_iff_line :
    let c : Console := .idle ⟨0, 0, false, fun _ => 0, []⟩ (fun _ => 0) 0
    let is : List Input := [.putChar 0x3e, .bufferedInput (fun _ => 0) 64, .key 0x41, .key 0x0a]
    Along (Console.next fun _ => 0) (fun c i => (c.next (fun _ => 0) i).term.OnScreen) c is ↔
      Along (Console.next fun _ => 0) Console.Safe c is :=
  onScreen_iff ⟨by decide, by decide, by simp⟩ (fun _ => 0) 0 (by simp [Input.Sized])

/-- Two characters in the last two cells, the second typed before the first: two
arrows to the right lead below the screen, and the next character is drawn over
the program. -/
theorem right_leaves_screen :
    let c : Console := .idle ⟨0, 0, false, fun _ => 0, []⟩ (fun _ => 0) 0
    let is : List Input := [.setCursor 30 23, .bufferedInput (fun _ => 0) 64, .key 0x61, .key 0x11,
      .key 0x62, .key 0x10, .key 0x10, .key 0x63]
    (∀ i ∈ is, i.Sized) ∧
      ¬ Along (Console.next fun _ => 0) (fun c i => (c.next (fun _ => 0) i).term.OnScreen) c is ∧
      Video.block 0 24 ∈ (is.foldl (Console.next fun _ => 0) c).term.log ∧
      Video.store 0x1a00 ∈ (is.foldl (Console.next fun _ => 0) c).term.log := by
  intro c is
  have hdrawn : Video.block 0 24 ∈ (is.foldl (Console.next fun _ => 0) c).term.log := by
    decide +kernel
  refine ⟨by simp [is, Input.Sized], ?_, hdrawn, by decide +kernel⟩
  rintro ⟨-, -, -, -, -, -, -, hlast, -⟩
  exact absurd (hlast.log _ hdrawn).2 (by decide)

end Dan64
