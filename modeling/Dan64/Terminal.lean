/-
Dan64/Terminal.lean

The screen of `video.c`, `put_char` and the line editor `buffered_input` of
`init/main.c`, with the services that draw.

A `Terminal` is the cursor, the video memory and a record of what was drawn:
every block of eight lines with its cell, every address stored to.  The machine
`Console` takes one input at a time; while `buffered_input` runs these are the
results of `keyboard_asc`, otherwise calls of `put_char` and of the services.
-/
import Dan64.Mealy
import Dan64.Vm

namespace Dan64

open BlockMem

/-! ### The screen -/

def VIDEO_ADDR : Word := 0x0200
def CHARS_WIDTH : ℕ := 32
def CHARS_HEIGHT : ℕ := 24

/-- What reaches the screen: the block drawn at a cell, and each byte stored. -/
inductive Video
  | block (x y : Byte)
  | store (addr : Word)
  deriving DecidableEq

/-- The globals `x`, `y` and `cursor`, and the serial memory. -/
structure Terminal where
  x : Byte
  y : Byte
  cursor : Bool
  sram : Word → Byte
  log : List Video

namespace Terminal

/-- `sram_write`, from the drawing functions. -/
def sramWrite (t : Terminal) (addr : Word) (data : List Byte) : Terminal :=
  { t with
    sram := writeBlock t.sram addr data
    log := t.log ++ (blockCells addr data.length).map .store }

/-- A line of a block: what it stores may depend on what was there. -/
def drawLine (addr : Word) (f : ℕ → Byte → Byte) (t : Terminal) (line : ℕ) : Terminal :=
  let addr := addr + BitVec.ofNat 16 (line * CHARS_WIDTH)
  t.sramWrite addr [f line (t.sram addr)]

/-- The loop of `video_put_char`, `video_cursor` and `video_put_tile`. -/
@[irreducible]
def drawBlock (t : Terminal) (x y : Byte) (f : ℕ → Byte → Byte) : Terminal :=
  let addr := VIDEO_ADDR + (word x + word y * 32 * 8)
  (List.range 8).foldl (drawLine addr f) { t with log := t.log ++ [.block x y] }

variable (font : ℕ → Byte)

/-- `video_put_char` -/
def videoPutChar (t : Terminal) (x y c : Byte) : Terminal :=
  t.drawBlock x y fun line _ => font (line + c.toNat * 8)

/-- `video_cursor` -/
def videoCursor (t : Terminal) (x y : Byte) : Terminal :=
  { t.drawBlock x y fun _ c => ~~~c with cursor := !t.cursor }

/-- `video_cursor_off` -/
def videoCursorOff (t : Terminal) (x y : Byte) : Terminal :=
  if t.cursor then t.videoCursor x y else t

/-- `video_put_tile` -/
def videoPutTile (t : Terminal) (x y : Byte) (tile : ℕ → Byte) : Terminal :=
  t.drawBlock x y fun line _ => tile line

/-- `video_cls`, one line of the screen after the other. -/
def videoCls (t : Terminal) (c : Byte) : Terminal :=
  (List.range CHARS_HEIGHT).foldl
    (fun t y => (List.range 8).foldl
      (fun t line =>
        t.sramWrite (VIDEO_ADDR + BitVec.ofNat 16 (y * CHARS_WIDTH * 8 + line * CHARS_WIDTH))
          (List.replicate CHARS_WIDTH (font (line + c.toNat * 8)))) t) t

/-- `scroll_up`: every row is copied in four pieces, the last one is cleared. -/
@[irreducible]
def scrollUp (t : Terminal) : Terminal :=
  let t := (List.range (CHARS_HEIGHT - 1)).foldl
    (fun t i => (List.range 4).foldl
      (fun t j =>
        let src := VIDEO_ADDR + BitVec.ofNat 16 ((i + 1) * (CHARS_WIDTH * 8) + j * 64)
        let dst := VIDEO_ADDR + BitVec.ofNat 16 (i * (CHARS_WIDTH * 8) + j * 64)
        t.sramWrite dst (readBlock t.sram src 64)) t) t
  (List.range 4).foldl
    (fun t j =>
      t.sramWrite (VIDEO_ADDR + BitVec.ofNat 16 ((CHARS_HEIGHT - 1) * (CHARS_WIDTH * 8) + j * 64))
        (List.replicate 64 0)) t

/-! ### The cursor -/

/-- `scroll_up(); y--` -/
def scrollRow (t : Terminal) : Terminal := { t.scrollUp with y := t.y - 1 }

/-- Up again from below the screen. -/
def scrollBelow (t : Terminal) : Terminal := if 23 < t.y then t.scrollRow else t

/-- `x = 0; y++`, and maybe up again. -/
def newLine (t : Terminal) : Terminal := scrollBelow { t with x := 0, y := t.y + 1 }

/-- One cell on, without scrolling. -/
def cellOn (x y : Byte) : Byte × Byte := if x < 31 then (x + 1, y) else (0, y + 1)

/-- One cell back. -/
def cellBack (x y : Byte) : Byte × Byte := if 0 < x then (x - 1, y) else (31, y - 1)

def on (t : Terminal) : Terminal :=
  { t with x := (cellOn t.x t.y).1, y := (cellOn t.x t.y).2 }

def back (t : Terminal) : Terminal :=
  { t with x := (cellBack t.x t.y).1, y := (cellBack t.x t.y).2 }

/-- `put_char` -/
def putChar (t : Terminal) (c : Byte) : Terminal :=
  let t :=
    if c = 0x0a then t.newLine
    else if c = 0x09 then { t with x := (t.x / 8 + 1) * 8 }
    else { t.videoPutChar font t.x t.y c with x := t.x + 1 }
  if 31 < t.x then t.newLine else t

/-- `vm_syscall` 0x12, with the result. -/
def setCursor (t : Terminal) (v0 v1 : Byte) : Byte × Terminal :=
  if 31 < v0 ∨ 23 < v1 then (1, t) else (0, { t with x := v0, y := v1 })

/-- `vm_syscall` 0x13 -/
def fillScreen (t : Terminal) (c : Byte) : Byte × Terminal :=
  (0, { t.videoCls font c with x := 0, y := 0 })

end Terminal

/-! ### The line editor -/

/-- `buffered_input` while it runs. -/
structure Editor where
  term : Terminal
  buffer : ℕ → Byte
  size : Byte
  pos : Byte
  end_ : Byte
  cnt : Word

/-- The loops of `buffered_input` that redraw: a cell next to the text. -/
structure Redraw where
  term : Terminal
  buffer : ℕ → Byte
  i : Byte
  j : Byte

namespace Redraw

variable (font : ℕ → Byte)

def put (r : Redraw) (c : Byte) : Redraw :=
  { r with term := r.term.videoPutChar font r.i r.j c }

def on (r : Redraw) : Redraw :=
  { r with i := (Terminal.cellOn r.i r.j).1, j := (Terminal.cellOn r.i r.j).2 }

def back (r : Redraw) : Redraw :=
  { r with i := (Terminal.cellBack r.i r.j).1, j := (Terminal.cellBack r.i r.j).2 }

/-- The loop of backspace, at `k`. -/
def closeGap (end_ : ℕ) (r : Redraw) (k : ℕ) : Redraw :=
  if k + 1 < end_ then
    { r.put font (r.buffer (k + 1)) with
      buffer := Function.update r.buffer k (r.buffer (k + 1)) }.on
  else (r.put font 0x20).on

/-- The loop of an insertion, at `k`. -/
def openGap (r : Redraw) (k : ℕ) : Redraw :=
  { r.put font (r.buffer (k - 1)) with
    buffer := Function.update r.buffer k (r.buffer (k - 1)) }.back

end Redraw

namespace Editor

variable (font : ℕ → Byte)

/-- `video_cursor_off(x, y)`, where most keys start. -/
def cursorOff (e : Editor) : Editor :=
  { e with term := e.term.videoCursorOff e.term.x e.term.y }

/-- No key: the cursor blinks. -/
def keyNone (e : Editor) : Editor :=
  if e.cnt + 1 = 0x4000 then
    { e with term := e.term.videoCursor e.term.x e.term.y, cnt := 0 }
  else { e with cnt := e.cnt + 1 }

def keyLeft (e : Editor) : Editor :=
  let e := e.cursorOff
  if 0 < e.pos then { e with pos := e.pos - 1, term := e.term.back } else e

def keyRight (e : Editor) : Editor :=
  let e := e.cursorOff
  if e.pos < e.end_ then { e with pos := e.pos + 1, term := e.term.on } else e

def keyBackspace (e : Editor) : Editor :=
  let e := e.cursorOff
  if 0 < e.pos then
    let pos := e.pos - 1
    let t := e.term.back
    let ks := List.range' pos.toNat (e.end_.toNat - pos.toNat)
    let r := ks.foldl (Redraw.closeGap font e.end_.toNat) ⟨t, e.buffer, t.x, t.y⟩
    { e with term := r.term, buffer := r.buffer, pos := pos, end_ := e.end_ - 1 }
  else e

/-- A character at the end of the text. -/
def append (e : Editor) (d : Byte) : Editor :=
  let t := e.term.videoPutChar font e.term.x e.term.y d
  { e with
    buffer := Function.update e.buffer e.pos.toNat d
    pos := e.pos + 1
    end_ := e.pos + 1
    term := if t.x < 31 then { t with x := t.x + 1 } else t.newLine }

/-- Where the redrawing of an insertion starts: the last cell of the text. -/
def lastCell (e : Editor) : Redraw :=
  let i := e.term.x + (e.end_ - e.pos)
  let j := e.term.y
  if 31 < i then
    if 23 < j + 1 then
      ⟨e.term.scrollRow, e.buffer, i - 32, j + 1 - 1⟩
    else ⟨e.term, e.buffer, i - 32, j + 1⟩
  else ⟨e.term, e.buffer, i, j⟩

/-- A character inside the text; the cursor stays before it. -/
def insert (e : Editor) (d : Byte) : Editor :=
  let end_ := e.end_ + 1
  let ks := (List.range' (e.pos.toNat + 1) (end_.toNat - 1 - e.pos.toNat)).reverse
  let r := ks.foldl (Redraw.openGap font) e.lastCell
  { e with
    end_ := end_
    buffer := Function.update r.buffer e.pos.toNat d
    term := r.term.videoPutChar font r.term.x r.term.y d }

def keyChar (e : Editor) (d : Byte) : Editor :=
  let e := e.cursorOff
  if e.end_.toNat + 1 = e.size.toNat then e
  else if e.pos = e.end_ then e.append font d
  else e.insert font d

end Editor

/-! ### The machine -/

/-- Either nobody reads the keyboard, with what `buffered_input` left in its buffer
and returned last, or `buffered_input` runs. -/
inductive Console
  | idle (term : Terminal) (buffer : ℕ → Byte) (ret : Byte)
  | editing (e : Editor)

def Console.term : Console → Terminal
  | .idle t _ _ => t
  | .editing e => e.term

/-- `buffered_input`: one turn of its loop. -/
def Editor.key (font : ℕ → Byte) (e : Editor) (d : Byte) : Console :=
  if d = 0 then .editing e.keyNone
  else if d = 0x11 then .editing e.keyLeft
  else if d = 0x10 then .editing e.keyRight
  else if d = 0x0a then
    -- a zero ends the string
    .idle e.cursorOff.term.newLine (Function.update e.buffer e.end_.toNat 0) e.end_
  else if d = 0x08 then .editing (e.keyBackspace font)
  else .editing (e.keyChar font d)

inductive Input
  | key (d : Byte)
  | bufferedInput (buffer : ℕ → Byte) (size : Byte)
  | putChar (c : Byte)
  | putCharAt (c : Byte)
  | setCursor (v0 v1 : Byte)
  | fillScreen (c : Byte)
  | putTile (tile : ℕ → Byte)

/-- A step; while `buffered_input` runs only keys arrive, and to nobody else. -/
def Console.next (font : ℕ → Byte) : Console → Input → Console
  | .editing e, .key d => e.key font d
  | .editing e, _ => .editing e
  | .idle t _ _, .bufferedInput buffer size => .editing ⟨t, buffer, size, 0, 0, 0⟩
  | .idle t buffer ret, .putChar c => .idle (t.putChar font c) buffer ret
  | .idle t buffer ret, .putCharAt c => .idle (t.videoPutChar font t.x t.y c) buffer ret
  | .idle t buffer ret, .setCursor v0 v1 => .idle (t.setCursor v0 v1).2 buffer ret
  | .idle t buffer ret, .fillScreen c => .idle (t.fillScreen font c).2 buffer ret
  | .idle t buffer ret, .putTile tile => .idle (t.videoPutTile t.x t.y tile) buffer ret
  | c@(.idle _ _ _), .key _ => c

end Dan64
