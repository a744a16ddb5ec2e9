/-
Dan64/TerminalRender.lean

The video memory shows a terminal of characters.

`Screen` is the reference: a grid of characters and a cursor, with no memory and
no pixels.  The drawing functions are specified on the 6144 bytes of the video
memory (`Paints`): a character paints a cell, clearing paints all cells,
scrolling moves every byte one row of cells up.  Each of `put_char`, putting a
character at the cursor, moving the cursor and filling the screen then does to the
video memory what it does to the grid (`renders_draw`), and so does any sequence
of them after the screen was filled once (`renders_run`).
-/
import Dan64.TerminalBounds

namespace Dan64

open BlockMem

/-! ### The reference terminal -/

/-- A grid of characters by row and column, and the cursor. -/
structure Screen where
  grid : ℕ → ℕ → Byte
  x : ℕ
  y : ℕ

namespace Screen

/-- A character at the cursor. -/
def put (s : Screen) (c : Byte) : Screen :=
  { s with grid := fun row col => if row = s.y ∧ col = s.x then c else s.grid row col }

/-- To the start of the next row; from the last one the grid scrolls. -/
def newLine (s : Screen) : Screen :=
  if s.y < 23 then { s with x := 0, y := s.y + 1 }
  else
    { s with
      x := 0
      grid := fun row col => if row < 23 then s.grid (row + 1) col else 0 }

/-- Behind the last column comes the next row. -/
def wrap (s : Screen) : Screen := if s.x = 32 then s.newLine else s

def putChar (s : Screen) (c : Byte) : Screen :=
  if c = 0x0a then s.newLine
  else if c = 0x09 then wrap { s with x := (s.x / 8 + 1) * 8 }
  else wrap { s.put c with x := s.x + 1 }

def setCursor (s : Screen) (col row : ℕ) : Screen :=
  if col < 32 ∧ row < 24 then { s with x := col, y := row } else s

def fill (c : Byte) : Screen := ⟨fun _ _ => c, 0, 0⟩

end Screen

/-- What a program can do to the screen. -/
inductive Draw
  | putChar (c : Byte)
  | putCharAt (c : Byte)
  | setCursor (v0 v1 : Byte)
  | fillScreen (c : Byte)

def Screen.draw (s : Screen) : Draw → Screen
  | .putChar c => s.putChar c
  | .putCharAt c => s.put c
  | .setCursor v0 v1 => s.setCursor v0.toNat v1.toNat
  | .fillScreen c => .fill c

namespace Terminal

variable (font : ℕ → Byte)

/-- `put_char`, and `vm_syscall` 0x10, 0x12 and 0x13. -/
def draw (t : Terminal) : Draw → Terminal
  | .putChar c => t.putChar font c
  | .putCharAt c => t.videoPutChar font t.x t.y c
  | .setCursor v0 v1 => (t.setCursor v0 v1).2
  | .fillScreen c => (t.fillScreen font c).2

/-- A memory shows a grid; outside the video memory it is `m`. -/
structure Shows (m sram : Word → Byte) (grid : ℕ → ℕ → Byte) : Prop where
  pixels : ∀ row < 24, ∀ line < 8, ∀ col < 32,
    sram (0x0200 + BitVec.ofNat 16 ((row * 8 + line) * 32 + col))
      = font (8 * (grid row col).toNat + line)
  frame : ∀ a, a.toNat < 0x0200 ∨ 0x19ff < a.toNat → sram a = m a

/-- The video memory is the rendering of a screen, and the cursor is there. -/
structure Renders (m : Word → Byte) (t : Terminal) (s : Screen) : Prop
    extends Shows font m t.sram s.grid where
  x : t.x.toNat = s.x
  y : t.y.toNat = s.y
  x_lt : s.x < 32
  y_lt : s.y < 24

variable {font}

/-! ### Painting -/

/-- A byte of the video memory. -/
def vram (t : Terminal) (o : ℕ) : Byte := t.sram (VIDEO_ADDR + BitVec.ofNat 16 o)

/-- The video memory becomes `v`; the rest of the memory and the cursor stay. -/
structure Paints (t t' : Terminal) (v : ℕ → Byte) : Prop where
  x : t'.x = t.x
  y : t'.y = t.y
  vram : ∀ o < 6144, t'.vram o = v o
  frame : ∀ a, a.toNat < 0x0200 ∨ 0x19ff < a.toNat → t'.sram a = t.sram a

theorem Paints.refl (t : Terminal) : Paints t t t.vram := ⟨rfl, rfl, fun _ _ => rfl, fun _ _ => rfl⟩

theorem Paints.trans {t t' t'' : Terminal} {v w : ℕ → Byte} (h : Paints t t' v)
    (h' : Paints t' t'' w) : Paints t t'' w :=
  ⟨h'.x.trans h.x, h'.y.trans h.y, h'.vram, fun a ha => (h'.frame a ha).trans (h.frame a ha)⟩

theorem Paints.congr {t t' : Terminal} {v w : ℕ → Byte} (h : Paints t t' v)
    (hvw : ∀ o < 6144, v o = w o) : Paints t t' w :=
  ⟨h.x, h.y, fun o ho => (h.vram o ho).trans (hvw o ho), h.frame⟩

/-- A loop paints pass by pass. -/
theorem paints_foldl {f : Terminal → ℕ → Terminal} {V : ℕ → ℕ → Byte} {t t₀ : Terminal} {n : ℕ}
    (h₀ : Paints t t₀ (V 0))
    (hf : ∀ t', ∀ i < n, Paints t t' (V i) → Paints t (f t' i) (V (i + 1))) :
    Paints t ((List.range n).foldl f t₀) (V n) := by
  induction n with
  | zero => exact h₀
  | succ n ih =>
    rw [List.range_succ, List.foldl_append]
    exact hf _ n n.lt_succ_self (ih fun t' i hi => hf t' i (hi.trans n.lt_succ_self))

theorem vram_toNat {o : ℕ} (ho : o < 6144) :
    (VIDEO_ADDR + BitVec.ofNat 16 o).toNat = 0x0200 + o := by
  rw [VIDEO_ADDR]
  bv_omega

/-- A block write paints the bytes of the block. -/
theorem paints_sramWrite (t : Terminal) {addr : Word} {data : List Byte} {n : ℕ}
    (haddr : addr = VIDEO_ADDR + BitVec.ofNat 16 n) (hn : n + data.length ≤ 6144) {v : ℕ → Byte}
    (hin : ∀ k (hk : k < data.length), v (n + k) = data[k])
    (hout : ∀ o < 6144, o < n ∨ n + data.length ≤ o → v o = t.vram o) :
    Paints t (t.sramWrite addr data) v := by
  have hstore : ∀ k < data.length,
      addr + BitVec.ofNat 16 k = VIDEO_ADDR + BitVec.ofNat 16 (n + k) := by
    intro k _
    rw [haddr, BitVec.add_assoc, ← BitVec.ofNat_add]
  refine ⟨rfl, rfl, ?_, ?_⟩
  · intro o ho
    -- inside the block its byte, outside what was there
    by_cases hblock : n ≤ o ∧ o < n + data.length
    · obtain ⟨k, rfl⟩ := Nat.exists_eq_add_of_le hblock.1
      have hk : k < data.length := Nat.lt_of_add_lt_add_left hblock.2
      rw [hin k hk, vram, ← hstore k hk]
      exact writeBlock_apply_add (by omega) hk
    · rw [hout o ho (by omega)]
      apply writeBlock_of_forall_ne
      intro k hk heq
      have heq' := congrArg BitVec.toNat heq
      rw [hstore k hk, vram_toNat ho, vram_toNat (by omega)] at heq'
      omega
  · intro a ha
    apply writeBlock_of_forall_ne
    intro k hk heq
    have heq' := congrArg BitVec.toNat heq
    rw [hstore k hk, vram_toNat (by omega)] at heq'
    omega

/-! ### The drawing functions -/

/-- A block of eight lines at a cell, from what was there. -/
theorem paints_redrawBlock (t : Terminal) {x y : Byte} (hx : x.toNat < 32) (hy : y.toNat < 24)
    (f : ℕ → Byte → Byte) :
    Paints t (t.drawBlock x y f)
      fun o => if o / 256 = y.toNat ∧ o % 32 = x.toNat then f (o / 32 % 8) (t.vram o)
        else t.vram o := by
  let V (n o : ℕ) : Byte :=
    if o / 256 = y.toNat ∧ o % 32 = x.toNat ∧ o / 32 % 8 < n then f (o / 32 % 8) (t.vram o)
    else t.vram o
  have hstart : Paints t { t with log := t.log ++ [.block x y] } (V 0) := by
    refine ⟨rfl, rfl, fun o _ => ?_, fun _ _ => rfl⟩
    exact (if_neg (by simp)).symm
  -- the lines below `n` are drawn
  have hloop : Paints t (t.drawBlock x y f) (V 8) := by
    rw [drawBlock]
    refine paints_foldl hstart ?_
    intro t' line hline h
    have haddr : VIDEO_ADDR + (word x + word y * 32 * 8) + BitVec.ofNat 16 (line * CHARS_WIDTH)
        = VIDEO_ADDR + BitVec.ofNat 16 (x.toNat + y.toNat * 256 + line * 32) := by
      rw [word, word, CHARS_WIDTH]
      bv_omega
    refine h.trans (@paints_sramWrite t' _ _ (x.toNat + y.toNat * 256 + line * 32) haddr ?_ _ ?_ ?_)
    · rw [List.length_singleton]
      omega
    · intro k hk
      obtain rfl : k = 0 := by simpa using hk
      have hrow : (x.toNat + y.toNat * 256 + line * 32 + 0) / 256 = y.toNat := by omega
      have hcol : (x.toNat + y.toNat * 256 + line * 32 + 0) % 32 = x.toNat := by omega
      have hline' : (x.toNat + y.toNat * 256 + line * 32 + 0) / 32 % 8 = line := by omega
      -- the line read back has not been written yet
      have hold : t'.sram (VIDEO_ADDR + BitVec.ofNat 16 (x.toNat + y.toNat * 256 + line * 32))
          = t.vram (x.toNat + y.toNat * 256 + line * 32 + 0) := by
        refine (h.vram _ (by omega)).trans (if_neg ?_)
        rw [Nat.add_zero] at hline'
        omega
      simp only [V, hrow, hcol, hline', List.getElem_cons_zero, haddr, hold]
      exact if_pos ⟨trivial, trivial, line.lt_succ_self⟩
    · intro o ho hne
      rw [List.length_singleton] at hne
      rw [h.vram o ho]
      refine if_congr ?_ rfl rfl
      omega
  exact hloop.congr fun o _ => by simp [V, Nat.mod_lt]

/-- A block that does not look at what was there. -/
theorem paints_drawBlock (t : Terminal) {x y : Byte} (hx : x.toNat < 32) (hy : y.toNat < 24)
    (g : ℕ → Byte) :
    Paints t (t.drawBlock x y fun line _ => g line)
      fun o => if o / 256 = y.toNat ∧ o % 32 = x.toNat then g (o / 32 % 8) else t.vram o :=
  paints_redrawBlock t hx hy fun line _ => g line

theorem paints_videoPutChar (t : Terminal) {x y : Byte} (hx : x.toNat < 32) (hy : y.toNat < 24)
    (c : Byte) :
    Paints t (t.videoPutChar font x y c)
      fun o => if o / 256 = y.toNat ∧ o % 32 = x.toNat then font (8 * c.toNat + o / 32 % 8)
        else t.vram o := by
  have h := paints_drawBlock t hx hy fun line => font (line + c.toNat * 8)
  refine h.congr ?_
  intro o _
  rw [Nat.add_comm, Nat.mul_comm]

/-- All cells, line by line. -/
theorem paints_videoCls (t : Terminal) (c : Byte) :
    Paints t (t.videoCls font c) fun o => font (8 * c.toNat + o / 32 % 8) := by
  let V (n o : ℕ) : Byte := if o < n then font (8 * c.toNat + o / 32 % 8) else t.vram o
  have hstart : Paints t t (V 0) := Paints.refl t
  -- the bytes below `n` are drawn, since the lines are consecutive
  have hloop : Paints t (t.videoCls font c) (V (256 * 24)) := by
    refine @paints_foldl _ (fun i => V (256 * i)) t t 24 hstart ?_
    intro t' y hy h
    refine @paints_foldl _ (fun line => V (256 * y + 32 * line)) t t' 8 h ?_
    intro t' line hline h
    refine h.trans (@paints_sramWrite t' _ _ (y * CHARS_WIDTH * 8 + line * CHARS_WIDTH) rfl ?_
      _ ?_ ?_)
    · rw [List.length_replicate, CHARS_WIDTH]
      omega
    · intro k hk
      rw [List.length_replicate, CHARS_WIDTH] at hk
      have hline' : (y * CHARS_WIDTH * 8 + line * CHARS_WIDTH + k) / 32 % 8 = line := by
        rw [CHARS_WIDTH]
        omega
      have hwritten : y * CHARS_WIDTH * 8 + line * CHARS_WIDTH + k < 256 * y + 32 * (line + 1) := by
        rw [CHARS_WIDTH]
        omega
      simp only [V, hline', if_pos hwritten, List.getElem_replicate]
      rw [Nat.add_comm, Nat.mul_comm]
    · intro o ho hne
      rw [List.length_replicate, CHARS_WIDTH] at hne
      rw [h.vram o ho]
      refine if_congr ?_ rfl rfl
      omega
  exact hloop.congr fun o ho => if_pos ho

theorem getElem_readBlock (t : Terminal) (n : ℕ) {k : ℕ}
    (hk : k < (readBlock t.sram (VIDEO_ADDR + BitVec.ofNat 16 n) 64).length) :
    (readBlock t.sram (VIDEO_ADDR + BitVec.ofNat 16 n) 64)[k] = t.vram (n + k) := by
  simp only [readBlock_eq_map, List.getElem_map, List.getElem_range, BitVec.add_assoc,
    ← BitVec.ofNat_add]
  rfl

/-- The rows are copied from the top down, so that a piece is read before it is
written. -/
theorem paints_scrollCopy (t : Terminal) :
    Paints t
      ((List.range (CHARS_HEIGHT - 1)).foldl
        (fun t i => (List.range 4).foldl
          (fun t j =>
            let src := VIDEO_ADDR + BitVec.ofNat 16 ((i + 1) * (CHARS_WIDTH * 8) + j * 64)
            let dst := VIDEO_ADDR + BitVec.ofNat 16 (i * (CHARS_WIDTH * 8) + j * 64)
            t.sramWrite dst (readBlock t.sram src 64)) t) t)
      fun o => if o < 5888 then t.vram (o + 256) else t.vram o := by
  let V (n o : ℕ) : Byte := if o < n then t.vram (o + 256) else t.vram o
  have hstart : Paints t t (V 0) := Paints.refl t
  -- the bytes below `n` have been moved up, the others not yet
  refine @paints_foldl _ (fun i => V (256 * i)) t t 23 hstart ?_
  intro t' i hi h
  refine @paints_foldl _ (fun j => V (256 * i + 64 * j)) t t' 4 h ?_
  intro t' j hj h
  refine h.trans (@paints_sramWrite t' _ _ (i * (CHARS_WIDTH * 8) + j * 64) rfl ?_ _ ?_ ?_)
  · rw [length_readBlock, CHARS_WIDTH]
    omega
  · intro k hk
    have hup : (i + 1) * (32 * 8) + j * 64 + k = i * (32 * 8) + j * 64 + k + 256 := by omega
    rw [getElem_readBlock, CHARS_WIDTH, hup]
    rw [length_readBlock] at hk
    have hwritten : i * (32 * 8) + j * 64 + k < 256 * i + 64 * (j + 1) := by omega
    -- the piece is read a row further down, where nothing was written
    have hread : ¬ i * (32 * 8) + j * 64 + k + 256 < 256 * i + 64 * j := by omega
    have hlt : i * (32 * 8) + j * 64 + k + 256 < 6144 := by clear hread hwritten; omega
    rw [h.vram _ hlt]
    simp only [V, if_neg hread, if_pos hwritten]
  · intro o ho hne
    rw [length_readBlock, CHARS_WIDTH] at hne
    rw [h.vram o ho]
    refine if_congr ?_ rfl rfl
    omega

/-- Every byte goes one row of cells up, and the last row is cleared. -/
theorem paints_scrollUp (t : Terminal) :
    Paints t t.scrollUp fun o => if o < 5888 then t.vram (o + 256) else 0 := by
  let V (n o : ℕ) : Byte :=
    if o < 5888 then t.vram (o + 256) else if o < n then 0 else t.vram o
  have hloop : Paints t t.scrollUp (V (5888 + 64 * 4)) := by
    rw [scrollUp]
    -- the last row is still there twice
    have hstart := @Paints.congr t _ _ (V (5888 + 64 * 0)) (paints_scrollCopy t) <| by
      intro o _
      by_cases ho : o < 5888
      · simp only [V, if_pos ho]
      · simp only [V, Nat.mul_zero, Nat.add_zero, if_neg ho]
    refine @paints_foldl _ (fun j => V (5888 + 64 * j)) t _ 4 hstart ?_
    intro t' j hj h
    refine h.trans (@paints_sramWrite t' _ _ ((CHARS_HEIGHT - 1) * (CHARS_WIDTH * 8) + j * 64) rfl
      ?_ _ ?_ ?_)
    · rw [List.length_replicate, CHARS_HEIGHT, CHARS_WIDTH]
      omega
    · intro k hk
      rw [List.length_replicate] at hk
      rw [List.getElem_replicate, CHARS_HEIGHT, CHARS_WIDTH]
      have hlast : ¬ (24 - 1) * (32 * 8) + j * 64 + k < 5888 := by omega
      have hwritten : (24 - 1) * (32 * 8) + j * 64 + k < 5888 + 64 * (j + 1) := by omega
      simp only [V, if_neg hlast, if_pos hwritten]
    · intro o ho hne
      rw [List.length_replicate, CHARS_HEIGHT, CHARS_WIDTH] at hne
      rw [h.vram o ho]
      by_cases hlast : o < 5888
      · simp only [V, if_pos hlast]
      · simp only [V, if_neg hlast]
        refine if_congr ?_ rfl rfl
        omega
  refine hloop.congr ?_
  intro o ho
  simp only [V, if_pos ho]

/-! ### The rendering -/

section

variable {m : Word → Byte} {t : Terminal} {grid : ℕ → ℕ → Byte} {s : Screen}

/-- Painting the rendering of another grid. -/
theorem Shows.paint (h : Shows font m t.sram grid) {t' : Terminal} {v : ℕ → Byte}
    (hp : Paints t t' v) {grid' : ℕ → ℕ → Byte}
    (hv : ∀ row < 24, ∀ line < 8, ∀ col < 32,
      v ((row * 8 + line) * 32 + col) = font (8 * (grid' row col).toNat + line)) :
    Shows font m t'.sram grid' := by
  refine ⟨?_, fun a ha => (hp.frame a ha).trans (h.frame a ha)⟩
  intro row hrow line hline col hcol
  rw [← hv row hrow line hline col hcol]
  exact hp.vram _ (by omega)

/-- The cell, the line and the column of an offset. -/
theorem offset_eq {row line col : ℕ} (hline : line < 8) (hcol : col < 32) :
    ((row * 8 + line) * 32 + col) / 256 = row ∧ ((row * 8 + line) * 32 + col) % 32 = col ∧
      ((row * 8 + line) * 32 + col) / 32 % 8 = line := by
  omega

/-- Scrolling: a row of character 0 enters. -/
theorem Shows.scroll (h : Shows font m t.sram grid) (hblank : ∀ line < 8, font line = 0) :
    Shows font m t.scrollUp.sram fun row col => if row < 23 then grid (row + 1) col else 0 := by
  refine h.paint (paints_scrollUp t) ?_
  intro row hrow line hline col hcol
  by_cases hlast : row < 23
  · have hcopied : (row * 8 + line) * 32 + col < 5888 := by omega
    have hbelow : (row * 8 + line) * 32 + col + 256 = ((row + 1) * 8 + line) * 32 + col := by omega
    simp only [if_pos hlast, if_pos hcopied, hbelow]
    exact h.pixels (row + 1) (by omega) line hline col hcol
  · have hcleared : ¬ (row * 8 + line) * 32 + col < 5888 := by omega
    have hzero : 8 * (0 : Byte).toNat + line = line := Nat.zero_add line
    simp only [if_neg hlast, if_neg hcleared]
    rw [hzero, hblank line hline]

/-- Filling the screen, whatever was on it. -/
theorem renders_fillScreen (hframe : ∀ a, a.toNat < 0x0200 ∨ 0x19ff < a.toNat → t.sram a = m a)
    (c : Byte) : Renders font m (t.fillScreen font c).2 (.fill c) := by
  have hp := @paints_videoCls font t c
  have hshows : Shows font m (t.videoCls font c).sram fun _ _ => c := by
    refine ⟨?_, fun a ha => (hp.frame a ha).trans (hframe a ha)⟩
    intro row hrow line hline col hcol
    have hvram := hp.vram ((row * 8 + line) * 32 + col) (by omega)
    rw [(offset_eq hline hcol).2.2] at hvram
    exact hvram
  exact ⟨hshows, rfl, rfl, Nat.zero_lt_succ 31, Nat.zero_lt_succ 23⟩

/-- Moving the cursor. -/
theorem Renders.move (h : Renders font m t s) {x y : Byte} {x' y' : ℕ} (hx : x.toNat = x')
    (hy : y.toNat = y') (hx' : x' < 32) (hy' : y' < 24) :
    Renders font m { t with x := x, y := y } { s with x := x', y := y' } :=
  ⟨h.toShows, hx, hy, hx', hy'⟩

/-- A character at the cursor. -/
theorem Renders.put (h : Renders font m t s) (c : Byte) :
    Renders font m (t.videoPutChar font t.x t.y c) (s.put c) := by
  have hx := h.x_lt
  have hy := h.y_lt
  rw [← h.x] at hx
  rw [← h.y] at hy
  have hp := @paints_videoPutChar font t t.x t.y hx hy c
  have hshows : Shows font m (t.videoPutChar font t.x t.y c).sram (s.put c).grid := by
    refine h.toShows.paint hp ?_
    intro row hrow line hline col hcol
    obtain ⟨hrow', hcol', hline'⟩ := @offset_eq row line col hline hcol
    simp only [hrow', hcol', hline', h.x, h.y, Screen.put]
    split
    · rfl
    · exact h.pixels row hrow line hline col hcol
  exact ⟨hshows, (congrArg BitVec.toNat hp.x).trans h.x, (congrArg BitVec.toNat hp.y).trans h.y,
    h.x_lt, h.y_lt⟩

/-- A new line. -/
theorem Renders.newLine (h : Renders font m t s) (hblank : ∀ line < 8, font line = 0) :
    Renders font m t.newLine s.newLine := by
  have hy := h.y
  have hy_lt := h.y_lt
  have hdown : (t.y + 1).toNat = s.y + 1 := by bv_omega
  rw [Terminal.newLine, scrollBelow, Screen.newLine]
  by_cases hlast : s.y < 23
  · have hstay : ¬ (23 : Byte) < t.y + 1 := by
      rw [BitVec.lt_def, hdown]
      exact not_lt.mpr hlast
    rw [if_neg hstay, if_pos hlast]
    exact h.move rfl hdown (Nat.zero_lt_succ 31) (Nat.succ_lt_succ hlast)
  · have hbelow : (23 : Byte) < t.y + 1 := by
      rw [BitVec.lt_def, hdown]
      exact Nat.lt_succ_of_le (not_lt.mp hlast)
    have hup : (t.y + 1 - 1).toNat = s.y := by bv_omega
    have hshows := @Shows.scroll font m { t with x := 0, y := t.y + 1 } s.grid h.toShows hblank
    have hp := paints_scrollUp { t with x := 0, y := t.y + 1 }
    rw [if_pos hbelow, if_neg hlast, scrollRow]
    generalize hscroll : scrollUp { t with x := 0, y := t.y + 1 } = u at hshows hp
    exact ⟨hshows, congrArg BitVec.toNat hp.x, hup, Nat.zero_lt_succ 31, hy_lt⟩

/-- **The wrap**: behind the last column. -/
theorem Renders.wrap (h : Renders font m t s) (hblank : ∀ line < 8, font line = 0) {x : Byte}
    {x' : ℕ} (hx : x.toNat = x') (hx' : x' ≤ 32) :
    Renders font m (if 31 < x then Terminal.newLine { t with x := x } else { t with x := x })
      (Screen.wrap { s with x := x' }) := by
  rw [Screen.wrap]
  by_cases hend : x' = 32
  · have hend' : (31 : Byte) < x := by
      rw [BitVec.lt_def, hx, hend]
      exact Nat.lt_succ_self 31
    rw [if_pos hend', if_pos hend]
    exact h.newLine hblank
  · have hend' : ¬ (31 : Byte) < x := by
      rw [BitVec.lt_def, hx]
      exact not_lt.mpr (Nat.le_of_lt_succ (lt_of_le_of_ne hx' hend))
    rw [if_neg hend', if_neg hend]
    exact h.move hx h.y (lt_of_le_of_ne hx' hend) h.y_lt

theorem toNat_tab : ∀ x : Byte, x.toNat < 32 → ((x / 8 + 1) * 8).toNat = (x.toNat / 8 + 1) * 8 := by
  decide +kernel

/-- `put_char` -/
theorem Renders.putChar (h : Renders font m t s) (hblank : ∀ line < 8, font line = 0) (c : Byte) :
    Renders font m (t.putChar font c) (s.putChar c) := by
  have hx := h.x
  have hx_lt := h.x_lt
  rw [Terminal.putChar, Screen.putChar]
  by_cases hnl : c = 0x0a
  · simp only [if_pos hnl]
    have hline := h.newLine hblank
    -- a new line has put the cursor into column 0
    have hstay : ¬ (31 : Byte) < t.newLine.x := by
      rw [BitVec.lt_def, hline.x]
      exact not_lt.mpr (Nat.le_of_lt_succ hline.x_lt)
    rw [if_neg hstay]
    exact hline
  · simp only [if_neg hnl]
    by_cases htab : c = 0x09
    · simp only [if_pos htab]
      -- a tab may go to column 32
      have htab' := toNat_tab t.x (hx.trans_lt hx_lt)
      rw [hx] at htab'
      exact h.wrap hblank htab' (by omega)
    · simp only [if_neg htab]
      have hput := h.put c
      have hnext : (t.x + 1).toNat = s.x + 1 := by bv_omega
      exact hput.wrap hblank hnext hx_lt

theorem Renders.setCursor (h : Renders font m t s) (v0 v1 : Byte) :
    Renders font m (t.setCursor v0 v1).2 (s.setCursor v0.toNat v1.toNat) := by
  have hiff : (31 < v0 ∨ 23 < v1) ↔ ¬ (v0.toNat < 32 ∧ v1.toNat < 24) := by
    rw [BitVec.lt_def, BitVec.lt_def, not_and_or, not_lt, not_lt]
    rfl
  rw [Terminal.setCursor, Screen.setCursor]
  by_cases hin : v0.toNat < 32 ∧ v1.toNat < 24
  · rw [if_neg (mt hiff.mp (not_not.mpr hin)), if_pos hin]
    exact h.move rfl rfl hin.1 hin.2
  · rw [if_pos (hiff.mpr hin), if_neg hin]
    exact h

theorem renders_draw (h : Renders font m t s) (hblank : ∀ line < 8, font line = 0) (d : Draw) :
    Renders font m (t.draw font d) (s.draw d) := by
  cases d with
  | putChar c => exact h.putChar hblank c
  | putCharAt c => exact h.put c
  | setCursor v0 v1 => exact h.setCursor v0 v1
  | fillScreen c => exact renders_fillScreen h.frame c

/-- **Video RAM is the rendering of a terminal**: after the screen was filled, any
sequence of operations leaves the rendering of what the reference terminal shows,
with its cursor, and the rest of the memory as it was. -/
theorem renders_run (hblank : ∀ line < 8, font line = 0) (t : Terminal) (c : Byte)
    (ds : List Draw) :
    Renders font t.sram (ds.foldl (draw font) (t.fillScreen font c).2)
      (ds.foldl Screen.draw (.fill c)) := by
  have hstart := @renders_fillScreen font t.sram t (fun _ _ => rfl) c
  generalize (t.fillScreen font c).2 = t' at hstart ⊢
  generalize Screen.fill c = s' at hstart ⊢
  induction ds generalizing t' s' with
  | nil => exact hstart
  | cons d ds ih => exact ih _ _ (renders_draw hstart hblank d)

end

/-- A tab, a character and a new line. -/
theorem renders_run_three :
    let font : ℕ → Byte := fun i => if i < 8 then 0 else 0xff
    let t : Terminal := ⟨7, 3, true, fun _ => 0x55, []⟩
    let ds : List Draw := [.putChar 0x09, .putChar 0x41, .putChar 0x0a]
    Renders font t.sram (ds.foldl (draw font) (t.fillScreen font 0x20).2)
      (ds.foldl Screen.draw (.fill 0x20)) := by
  intro font t ds
  refine renders_run ?_ t 0x20 ds
  intro line hline
  exact if_pos hline

end Terminal

end Dan64
