/-
Dan64/Bus.lean

The serial memory between two users: `memory/mem.c` and the interrupt of `video/video.c`.

`sram_read`, `sram_write` and `sram_set` exchange bytes with the memory one by one, and the
interrupt may come between any two of them.  On the lines of the picture it takes the bus
for a transfer of its own.  A function waits for `vsync` before it begins, and six lines
pass between the fall of `vsync` and the first line of the picture: a transfer that is done
after six lines is never cut (`Inv.step`).  Then all the transfers, those of the program and
those of the picture, are accesses to one memory, one after another (`bus_atomic`).  And a
program that takes a step on each line does not wait for ever (`transfer_ends`).

The memory chip is a parameter, with what its data sheet says of a read and a write.
-/
import Dan64.ScanOut
import Dan64.VmBits

namespace Dan64

open BlockMem Mealy

namespace Bus

variable {σ : Type}

/-! ### The chip -/

/-- A serial memory: the two edges of its select line, and a byte in each direction. -/
structure Chip (σ : Type) where
  select : σ → σ
  deselect : σ → σ
  exchange : σ → Byte → Byte × σ

/-- What is exchanged between two edges of the select line. -/
def Chip.frame (chip : Chip σ) (c : σ) (bytes : List Byte) : List Byte × σ :=
  let (out, c) := feed chip.exchange (chip.select c) bytes
  (out, chip.deselect c)

/-- An instruction of the chip with an address. -/
def header (instr : Byte) (addr : Word) : List Byte :=
  [instr, (addr >>> 8).setWidth 8, addr.setWidth 8]

/-- What the data sheet says: a frame reads or writes cells one behind the other, from the
address on. -/
structure Chip.Documented (chip : Chip σ) (cells : σ → Word → Byte) (idle : σ → Prop) : Prop where
  deselect (c : σ) : idle (chip.deselect c)
  write {c : σ} (addr : Word) (bytes : List Byte) : idle c →
    cells (chip.frame c (header 0x02 addr ++ bytes)).2 = writeBlock (cells c) addr bytes
  read {c : σ} (addr : Word) (bytes : List Byte) : idle c →
    (chip.frame c (header 0x03 addr ++ bytes)).1.drop 3 = readBlock (cells c) addr bytes.length ∧
      cells (chip.frame c (header 0x03 addr ++ bytes)).2 = cells c

/-! ### The program -/

/-- A statement of the three functions. -/
inductive Stmt
  /-- `video_wait()` -/
  | wait
  /-- `PORTD &= ~_BV(PORTD2); PORTD |= _BV(PORTD5);` -/
  | enable
  /-- `PORTD |= _BV(PORTD2); PORTD &= ~_BV(PORTD5);` -/
  | disable
  /-- `PORTD &= ~_BV(PORTD6);` -/
  | select
  /-- `PORTD |= _BV(PORTD6);` -/
  | deselect
  /-- `SPDR = b; wait_spi_done();` -/
  | send (b : Byte)
  /-- `SPDR = 0xff; wait_spi_done(); data[pt] = SPDR;` -/
  | receive

/-- `sram_write` -/
def sramWrite (addr : Word) (data : List Byte) : List Stmt :=
  .wait :: .select :: ((header 0x02 addr).map .send ++ (data.map .send ++ [.deselect]))

/-- `sram_set` -/
def sramSet (addr : Word) (c : Byte) (times : ℕ) : List Stmt :=
  .wait :: .select :: ((header 0x02 addr).map .send ++
    (List.replicate times (.send c) ++ [.deselect]))

/-- `sram_read` -/
def sramRead (addr : Word) (size : ℕ) : List Stmt :=
  .wait :: .enable :: .select :: ((header 0x03 addr).map .send ++
    (List.replicate size .receive ++ [.deselect, .disable]))

/-- A call of one of them. -/
inductive Transfer
  | write (addr : Word) (data : List Byte)
  | set (addr : Word) (c : Byte) (times : ℕ)
  | read (addr : Word) (size : ℕ)

def Transfer.stmts : Transfer → List Stmt
  | .write addr data => sramWrite addr data
  | .set addr c times => sramSet addr c times
  | .read addr size => sramRead addr size

/-- The access that it is for. -/
def Transfer.access : Transfer → Access 16 Byte
  | .write addr data => .write addr data
  | .set addr c times => .write addr (List.replicate times c)
  | .read addr size => .read addr size

/-- The chip, whether its output is led to the microcontroller and not to the screen, and
the bytes that were received. -/
structure Port (σ : Type) where
  chip : σ
  data : Bool
  got : List Byte

/-- What arrives at an end of the output of the chip: anything, if it is not connected. -/
def arrives (noise : Byte) (connected : Bool) (b : Byte) : Byte := if connected then b else noise

variable (chip : Chip σ) (noise : Byte)

def Stmt.exec (p : Port σ) : Stmt → Port σ
  | .wait => p
  | .enable => { p with data := true }
  | .disable => { p with data := false }
  | .select => { p with chip := chip.select p.chip }
  | .deselect => { p with chip := chip.deselect p.chip }
  | .send b => { p with chip := (chip.exchange p.chip b).2 }
  | .receive =>
    let (b, c) := chip.exchange p.chip 0xff
    { p with chip := c, got := p.got ++ [arrives noise p.data b] }

/-- What the interrupt does on a line of the picture, and what is seen. -/
def scanRow (p : Port σ) (addr : Word) : List Byte × Port σ :=
  let (out, c) := chip.frame p.chip (header 0x03 addr ++ List.replicate CHARS_WIDTH 0xff)
  ((out.drop 3).map (arrives noise (!p.data)), { p with chip := c })

/-! ### Interleavings -/

/-- The picture, the bus, the call that the program is in with what is left of it, and how
many lines there were since it has waited. -/
structure Board (σ : Type) where
  video : ScanOut.Video
  port : Port σ
  current : Option (Transfer × List Stmt)
  lines : ℕ

/-- The timer overflows, the program calls a function, or it goes on in the one it is in. -/
inductive Event
  | tick
  | off
  | on
  | start (t : Transfer)
  | main

/-- A step.  A transfer that is complete is shown with the bytes it has brought. -/
def step (s : Board σ) : Event → Option (Access 16 Byte × List Byte) × Board σ
  | .tick =>
    match ScanOut.step s.video .tick with
    | (none, video) => (none, { s with video })
    | (some line, video) =>
      match line.read with
      | none => (none, { s with video, lines := s.lines + 1 })
      | some addr =>
        let (row, port) := scanRow chip noise s.port addr
        (some (.read addr CHARS_WIDTH, row), { s with video, port, lines := s.lines + 1 })
  | .off =>
    match s.current with
    | none => (none, { s with video := (ScanOut.step s.video .off).2 })
    | some _ => (none, s)
  | .on =>
    match s.current with
    | none => (none, { s with video := (ScanOut.step s.video .on).2 })
    | some _ => (none, s)
  | .start t =>
    match s.current, s.video.todo with
    | none, [] => (none, { s with port := { s.port with got := [] }, current := some (t, t.stmts) })
    | _, _ => (none, s)
  | .main =>
    match s.current with
    | none => (none, { s with video := (ScanOut.step s.video .main).2 })
    | some (t, []) => (some (t.access, s.port.got), { s with current := none })
    | some (t, .wait :: todo) =>
      if s.video.vsync then (none, { s with current := some (t, todo), lines := 0 }) else (none, s)
    | some (t, stmt :: todo) =>
      (none, { s with port := stmt.exec chip noise s.port, current := some (t, todo) })

/-- Behind a reset, with the memory not selected. -/
def reset (c : σ) : Board σ := ⟨ScanOut.reset, ⟨c, false, []⟩, none, 0⟩

/-- The program is in a transfer that has waited. -/
def Board.inFrame (s : Board σ) : Bool :=
  match s.current with
  | none => false
  | some (_, .wait :: _) => false
  | some _ => true

def next (s : Board σ) (event : Event) : Board σ := (step chip noise s event).2

/-- A transfer sees at most six lines. -/
def Brisk (s : Board σ) : Event → Prop
  | .tick => s.inFrame = true → s.lines < 6
  | _ => True

instance (s : Board σ) : DecidablePred (Brisk s)
  | .tick => inferInstanceAs (Decidable (s.inFrame = true → s.lines < 6))
  | .off | .on | .start _ | .main => inferInstanceAs (Decidable True)

/-- What a step shows is an access to a memory. -/
def Shown (m : Word → Byte) : Option (Access 16 Byte × List Byte) → (Word → Byte) → Prop
  | none, m' => m' = m
  | some (o, bytes), m' => perform m o = (bytes, m')

/-- The transfers of a run that are complete, and what they have brought. -/
def transfers (s : Board σ) (events : List Event) : List (Access 16 Byte × List Byte) :=
  (feed (step chip noise) s events).1.reduceOption

/-! ### One transfer -/

section Transfer

variable {chip : Chip σ} {noise : Byte} {cells : σ → Word → Byte} {idle : σ → Prop}

@[simp] theorem length_feed {ι ο : Type*} (f : σ → ι → ο × σ) (c : σ) (is : List ι) :
    (feed f c is).1.length = is.length := by
  induction is generalizing c with
  | nil => rfl
  | cons i is ih => rw [feed_cons, List.length_cons, ih, List.length_cons]

theorem foldl_send (bytes : List Byte) (p : Port σ) :
    (bytes.map Stmt.send).foldl (Stmt.exec chip noise) p
      = { p with chip := (feed chip.exchange p.chip bytes).2 } := by
  induction bytes generalizing p with
  | nil => rfl
  | cons b bytes ih => exact ih _

theorem foldl_receive (n : ℕ) (c : σ) (got : List Byte) :
    (List.replicate n Stmt.receive).foldl (Stmt.exec chip noise) ⟨c, true, got⟩
      = ⟨(feed chip.exchange c (List.replicate n 0xff)).2, true,
          got ++ (feed chip.exchange c (List.replicate n 0xff)).1⟩ := by
  induction n generalizing c got with
  | zero => exact congrArg (Port.mk c true) (List.append_nil got).symm
  | succ n ih =>
    rw [List.replicate_succ, List.foldl_cons, List.replicate_succ, feed_cons]
    refine (ih _ _).trans ?_
    rw [List.append_assoc]
    rfl

/-- Behind the header the rest of a frame is exchanged. -/
theorem frame_header (c : σ) (instr : Byte) (addr : Word) (bytes : List Byte) :
    let h := feed chip.exchange (chip.select c) (header instr addr)
    (chip.frame c (header instr addr ++ bytes)).1.drop 3 = (feed chip.exchange h.2 bytes).1 ∧
      (chip.frame c (header instr addr ++ bytes)).2
        = chip.deselect (feed chip.exchange h.2 bytes).2 := by
  intro h
  rw [Chip.frame, feed_append]
  refine ⟨?_, rfl⟩
  exact List.drop_left' (length_feed _ _ _)

/-- What is written by one of the two functions that write. -/
theorem foldl_write (h : chip.Documented cells idle) {c : σ} (hc : idle c) (addr : Word)
    (bytes : List Byte) :
    ∃ c', (.select :: ((header 0x02 addr).map Stmt.send ++ (bytes.map Stmt.send ++
        [.deselect]))).foldl (Stmt.exec chip noise) ⟨c, false, []⟩ = ⟨c', false, []⟩ ∧
      idle c' ∧ cells c' = writeBlock (cells c) addr bytes := by
  have hframe := (@frame_header σ chip c 0x02 addr bytes).2
  have hwrite := h.write addr bytes hc
  rw [hframe] at hwrite
  refine ⟨_, ?_, h.deselect _, hwrite⟩
  rw [List.foldl_cons, List.foldl_append, foldl_send, List.foldl_append, foldl_send]
  rfl

/-- **A transfer that is left alone** is its access. -/
theorem Transfer.foldl_stmts (h : chip.Documented cells idle) (t : Transfer) {c : σ} (hc : idle c) :
    ∃ c', t.stmts.foldl (Stmt.exec chip noise) ⟨c, false, []⟩
        = ⟨c', false, (perform (cells c) t.access).1⟩ ∧
      idle c' ∧ cells c' = (perform (cells c) t.access).2 := by
  cases t with
  | write addr data => exact foldl_write h hc addr data
  | set addr b times =>
    have hwrite := @foldl_write σ chip noise cells idle h c hc addr (List.replicate times b)
    rw [List.map_replicate] at hwrite
    exact hwrite
  | read addr size =>
    obtain ⟨hout, hframe⟩ := @frame_header σ chip c 0x03 addr (List.replicate size 0xff)
    obtain ⟨hread, hcells⟩ := h.read addr (List.replicate size 0xff) hc
    rw [hframe] at hcells
    rw [hout, List.length_replicate] at hread
    refine ⟨_, ?_, h.deselect _, hcells⟩
    show (_ ++ (_ ++ _) : List Stmt).foldl _ (⟨chip.select c, true, []⟩ : Port σ) = _
    rw [List.foldl_append, foldl_send, List.foldl_append, foldl_receive, hread]
    rfl

/-- **A line of the picture**, on an idle chip that is led to the screen. -/
theorem scanRow_idle (h : chip.Documented cells idle) {c : σ} (hc : idle c) (got : List Byte)
    (addr : Word) :
    ∃ c', scanRow chip noise ⟨c, false, got⟩ addr
        = (readBlock (cells c) addr CHARS_WIDTH, ⟨c', false, got⟩) ∧
      idle c' ∧ cells c' = cells c := by
  obtain ⟨hread, hcells⟩ := h.read addr (List.replicate CHARS_WIDTH 0xff) hc
  rw [List.length_replicate] at hread
  refine ⟨_, ?_, h.deselect _, hcells⟩
  rw [scanRow]
  refine Prod.ext ?_ rfl
  exact (List.map_id _).trans hread

end Transfer

/-! ### No transfer is cut -/

section Inv

variable {chip : Chip σ} {noise : Byte} {cells : σ → Word → Byte} {idle : σ → Prop}

/-- What is left of a call, and what the statements before it have done. -/
def Midway (chip : Chip σ) (noise : Byte) (c : σ) (t : Transfer) (todo : List Stmt)
    (p : Port σ) : Prop :=
  ∃ done, t.stmts = done ++ todo ∧ p = done.foldl (Stmt.exec chip noise) ⟨c, false, []⟩

/-- Between the steps, with the memory as it is behind the last complete transfer: the chip
is idle, or it has been left alone since the call that the program is in has begun, and
there are lines left until the picture. -/
structure Inv (chip : Chip σ) (noise : Byte) (cells : σ → Word → Byte) (idle : σ → Prop)
    (m : Word → Byte) (s : Board σ) : Prop where
  video : ∃ before, ScanOut.Inv before s.video
  calm : s.inFrame = true → s.video.toie1 = true →
    s.video.scanline ≤ 62 + s.lines ∨ 260 < s.video.scanline
  free : s.current = none → idle s.port.chip ∧ cells s.port.chip = m ∧ s.port.data = false
  held : ∀ t todo, s.current = some (t, todo) → s.video.todo = [] ∧
    ∃ c, idle c ∧ cells c = m ∧ Midway chip noise c t todo s.port

/-- `video_wait` is the first statement, and no other. -/
theorem Transfer.stmts_wait (t : Transfer) : ∃ body, t.stmts = .wait :: body ∧ .wait ∉ body := by
  cases t with
  | write addr data =>
    refine ⟨_, rfl, ?_⟩
    simp
  | set addr c times =>
    refine ⟨_, rfl, ?_⟩
    simp
  | read addr size =>
    refine ⟨_, rfl, ?_⟩
    simp

/-- A call that waits has done nothing. -/
theorem Midway.of_wait {c : σ} {t : Transfer} {todo : List Stmt} {p : Port σ}
    (h : Midway chip noise c t (.wait :: todo) p) :
    t.stmts = .wait :: todo ∧ p = ⟨c, false, []⟩ := by
  obtain ⟨done, hdone, rfl⟩ := h
  obtain ⟨body, hbody, hnot⟩ := t.stmts_wait
  rw [hbody] at hdone
  rcases done with - | ⟨stmt, done⟩
  · exact ⟨hbody.trans hdone, rfl⟩
  · rw [List.cons_append, List.cons.injEq] at hdone
    exact absurd (hdone.2 ▸ by simp) hnot

/-- A statement is done. -/
theorem Midway.next {c : σ} {t : Transfer} {stmt : Stmt} {todo : List Stmt} {p : Port σ}
    (h : Midway chip noise c t (stmt :: todo) p) :
    Midway chip noise c t todo (stmt.exec chip noise p) := by
  obtain ⟨done, hdone, rfl⟩ := h
  refine ⟨done ++ [stmt], ?_, ?_⟩
  · rw [hdone, List.append_assoc]
    rfl
  · rw [List.foldl_append]
    rfl

/-- A line leaves the lines until the picture. -/
theorem calm_tick {v : ScanOut.Video} {n : ℕ} (h : v.scanline ≤ 62 + n ∨ 260 < v.scanline) :
    (ScanOut.timer1Ovf v).2.scanline ≤ 62 + (n + 1) ∨
      260 < (ScanOut.timer1Ovf v).2.scanline := by
  rw [ScanOut.scanline_timer1Ovf, ScanOut.nextLine]
  split_ifs <;> omega

theorem readAt_of_calm {l n : ℕ} (h : l ≤ 62 + n ∨ 260 < l) (hn : n < 6) :
    ScanOut.readAt l = none := by
  rw [ScanOut.readAt, ScanOut.dbegin_eq, ScanOut.dend_eq]
  exact if_neg (by omega)

variable {m : Word → Byte} {s : Board σ}

/-- Outside a frame the chip is idle, and a call has done nothing. -/
theorem Inv.quiet (h : Inv chip noise cells idle m s) (hout : s.inFrame = false) :
    ∃ c got, s.port = ⟨c, false, got⟩ ∧ idle c ∧ cells c = m ∧
      ∀ t todo, s.current = some (t, todo) → t.stmts = todo ∧ got = [] := by
  obtain ⟨video, ⟨c, data, got⟩, current, lines⟩ := s
  rcases current with - | ⟨t, todo⟩
  · obtain ⟨hidle, hcells, hdata⟩ := h.free rfl
    obtain rfl : data = false := hdata
    exact ⟨c, got, rfl, hidle, hcells, nofun⟩
  · obtain ⟨-, c', hidle, hcells, hmid⟩ := h.held t todo rfl
    rcases todo with - | ⟨stmt, todo⟩
    · cases hout
    · cases stmt
      case wait =>
        obtain ⟨hstmts, hport⟩ := hmid.of_wait
        refine ⟨c', [], hport, hidle, hcells, ?_⟩
        rintro _ _ ⟨⟩
        exact ⟨hstmts, rfl⟩
      all_goals cases hout

/-- The interrupt. -/
theorem Inv.tick (hchip : chip.Documented cells idle) (h : Inv chip noise cells idle m s)
    (hbrisk : Brisk s .tick) :
    Shown m (step chip noise s .tick).1 m ∧
      Inv chip noise cells idle m (step chip noise s .tick).2 := by
  by_cases hon : s.video.toie1 = true
  · have hline : ScanOut.step s.video .tick
        = (some (ScanOut.timer1Ovf s.video).1, (ScanOut.timer1Ovf s.video).2) := if_pos hon
    have hvideo : ∃ before, ScanOut.Inv before (ScanOut.timer1Ovf s.video).2 := by
      obtain ⟨before, hinv⟩ := h.video
      exact ⟨_, hinv.tick hon⟩
    rcases hread : ScanOut.readAt s.video.scanline with - | addr
    · have hstep : step chip noise s .tick
          = (none, { s with video := (ScanOut.timer1Ovf s.video).2, lines := s.lines + 1 }) := by
        have hnone : (ScanOut.timer1Ovf s.video).1.read = none := hread
        simp only [step, hline, hnone]
      rw [hstep]
      exact ⟨rfl, hvideo, fun hframe _ => calm_tick (h.calm hframe hon), h.free, h.held⟩
    · -- a line of the picture: nothing is in a frame
      have hout : s.inFrame = false := by
        by_contra hframe
        rw [Bool.not_eq_false] at hframe
        rw [readAt_of_calm (h.calm hframe hon) (hbrisk hframe)] at hread
        cases hread
      obtain ⟨c, got, hport, hidle, hcells, hcall⟩ := h.quiet hout
      obtain ⟨c', hrow, hidle', hcells'⟩ :=
        @scanRow_idle σ chip noise cells idle hchip c hidle got addr
      have hstep : step chip noise s .tick
          = (some (.read addr CHARS_WIDTH, readBlock m addr CHARS_WIDTH),
            { s with video := (ScanOut.timer1Ovf s.video).2, port := ⟨c', false, got⟩,
                     lines := s.lines + 1 }) := by
        have hsome : (ScanOut.timer1Ovf s.video).1.read = some addr := hread
        rw [hcells] at hrow
        simp only [step, hline, hsome, hport, hrow]
      rw [hcells] at hcells'
      rw [hstep]
      refine ⟨rfl, hvideo, fun hframe _ => ?_, fun _ => ⟨hidle', hcells', rfl⟩, ?_⟩
      · exact absurd (hout.symm.trans hframe) (by decide)
      · intro t todo hcurrent
        obtain ⟨hstmts, rfl⟩ := hcall t todo hcurrent
        exact ⟨(h.held t todo hcurrent).1, c', hidle', hcells', [], hstmts, rfl⟩
  · have hstep : step chip noise s .tick = (none, s) := by
      have hline : ScanOut.step s.video .tick = (none, s.video) := if_neg hon
      simp only [step, hline]
    rw [hstep]
    exact ⟨rfl, h⟩

/-- A step of the calls that turn the picture on and off. -/
theorem Inv.call (h : Inv chip noise cells idle m s) (hcurrent : s.current = none)
    (event : ScanOut.Event) :
    Inv chip noise cells idle m
      { s with video := (ScanOut.step s.video event).2, current := none } := by
  obtain ⟨before, hinv⟩ := h.video
  exact ⟨⟨_, (hinv.step event).2⟩, nofun, fun _ => h.free hcurrent, nofun⟩

/-- A statement behind the wait. -/
theorem Inv.stmt (h : Inv chip noise cells idle m s) {t : Transfer} {stmt : Stmt}
    {todo : List Stmt} (hcurrent : s.current = some (t, stmt :: todo)) (hwait : stmt ≠ .wait) :
    Inv chip noise cells idle m
      { s with port := stmt.exec chip noise s.port, current := some (t, todo) } := by
  obtain ⟨htodo, c, hidle, hcells, hmid⟩ := h.held t _ hcurrent
  have hframe : s.inFrame = true := by
    rw [Board.inFrame, hcurrent]
    cases stmt
    case wait => exact absurd rfl hwait
    all_goals rfl
  refine ⟨h.video, fun _ => h.calm hframe, nofun, ?_⟩
  rintro _ _ ⟨⟩
  exact ⟨htodo, c, hidle, hcells, hmid.next⟩

/-- `vsync` is seen. -/
theorem Inv.pass (h : Inv chip noise cells idle m s) {t : Transfer} {todo : List Stmt}
    (hcurrent : s.current = some (t, .wait :: todo)) (hvsync : s.video.vsync = true) :
    Inv chip noise cells idle m { s with current := some (t, todo), lines := 0 } := by
  obtain ⟨htodo, c, hidle, hcells, hmid⟩ := h.held t _ hcurrent
  refine ⟨h.video, fun _ hon => ?_, nofun, ?_⟩
  · obtain ⟨before, hinv⟩ := h.video
    show s.video.scanline ≤ 62 ∨ 260 < s.video.scanline
    by_contra hline
    push Not at hline
    have hlow := (hinv.low hon hline.1 (by rw [ScanOut.dend_eq]; exact hline.2)).1
    exact absurd (hlow.symm.trans hvsync) (by decide)
  · rintro _ _ ⟨⟩
    exact ⟨htodo, c, hidle, hcells, hmid.next⟩

/-- A function returns. -/
theorem Inv.return (hchip : chip.Documented cells idle) (h : Inv chip noise cells idle m s)
    {t : Transfer} (hcurrent : s.current = some (t, [])) :
    ∃ m', perform m t.access = (s.port.got, m') ∧
      Inv chip noise cells idle m' { s with current := none } := by
  obtain ⟨-, c, hidle, hcells, done, hdone, hport⟩ := h.held t [] hcurrent
  rw [List.append_nil] at hdone
  obtain ⟨c', hexec, hidle', hcells'⟩ :=
    @Transfer.foldl_stmts σ chip noise cells idle hchip t c hidle
  rw [← hdone, hexec] at hport
  rw [hcells] at hport hcells'
  refine ⟨(perform m t.access).2, ?_, h.video, nofun, fun _ => ?_, nofun⟩
  · rw [hport]
  · rw [hport]
    exact ⟨hidle', hcells', rfl⟩

/-- The program goes on. -/
theorem Inv.main (hchip : chip.Documented cells idle) (h : Inv chip noise cells idle m s) :
    ∃ m', Shown m (step chip noise s .main).1 m' ∧
      Inv chip noise cells idle m' (step chip noise s .main).2 := by
  rcases hcurrent : s.current with - | ⟨t, _ | ⟨stmt, todo⟩⟩
  · simp only [step, hcurrent]
    exact ⟨m, rfl, h.call hcurrent .main⟩
  · simp only [step, hcurrent]
    exact h.return hchip hcurrent
  · cases stmt
    case wait =>
      simp only [step, hcurrent]
      split
      · next hvsync => exact ⟨m, rfl, h.pass hcurrent hvsync⟩
      · exact ⟨m, rfl, h⟩
    all_goals
      simp only [step, hcurrent]
      exact ⟨m, rfl, h.stmt hcurrent nofun⟩

/-- **Step.**  What is shown is an access to the memory. -/
theorem Inv.step (hchip : chip.Documented cells idle) (h : Inv chip noise cells idle m s)
    {event : Event} (hbrisk : Brisk s event) :
    ∃ m', Shown m (step chip noise s event).1 m' ∧
      Inv chip noise cells idle m' (step chip noise s event).2 := by
  cases event with
  | tick => exact ⟨m, h.tick hchip hbrisk⟩
  | main => exact h.main hchip
  | off =>
    rcases hcurrent : s.current with - | current
    · simp only [Bus.step, hcurrent]
      exact ⟨m, rfl, h.call hcurrent .off⟩
    · simp only [Bus.step, hcurrent]
      exact ⟨m, rfl, h⟩
  | on =>
    rcases hcurrent : s.current with - | current
    · simp only [Bus.step, hcurrent]
      exact ⟨m, rfl, h.call hcurrent .on⟩
    · simp only [Bus.step, hcurrent]
      exact ⟨m, rfl, h⟩
  | start t =>
    rcases hcurrent : s.current with - | current
    · rcases htodo : s.video.todo with - | ⟨stmt, todo⟩
      · simp only [Bus.step, hcurrent, htodo]
        obtain ⟨hidle, hcells, hdata⟩ := h.free hcurrent
        obtain ⟨body, hbody, -⟩ := t.stmts_wait
        refine ⟨m, rfl, h.video, fun hframe _ => ?_, nofun, ?_⟩
        · rw [Board.inFrame, hbody] at hframe
          cases hframe
        · rintro _ _ ⟨⟩
          exact ⟨htodo, s.port.chip, hidle, hcells, [], rfl, by rw [hdata]; rfl⟩
      · simp only [Bus.step, hcurrent, htodo]
        exact ⟨m, rfl, h⟩
    · simp only [Bus.step, hcurrent]
      exact ⟨m, rfl, h⟩

theorem inv_reset {c : σ} (hc : idle c) : Inv chip noise cells idle (cells c) (reset c) :=
  ⟨⟨[], ScanOut.inv_reset⟩, nofun, fun _ => ⟨hc, rfl, rfl⟩, nofun⟩

/-- **Run.** -/
theorem Inv.run (hchip : chip.Documented cells idle) (h : Inv chip noise cells idle m s)
    {events : List Event}
    (hbrisk : Along (next chip noise) Brisk s events) :
    let done := transfers chip noise s events
    ∃ m', runOps m (done.map Prod.fst) = (done.map Prod.snd, m') ∧
      Inv chip noise cells idle m' (feed (Bus.step chip noise) s events).2 := by
  induction events generalizing m s with
  | nil => exact ⟨m, rfl, h⟩
  | cons event events ih =>
    obtain ⟨m', hshown, hnext⟩ := h.step hchip hbrisk.1
    obtain ⟨m'', hruns, hend⟩ := ih hnext hbrisk.2
    refine ⟨m'', ?_, hend⟩
    rw [transfers, feed_cons]
    rcases hout : (Bus.step chip noise s event).1 with - | ⟨o, bytes⟩
    · rw [hout] at hshown
      obtain rfl : m' = m := hshown
      exact hruns
    · rw [hout] at hshown
      have hperform : perform m o = (bytes, m') := hshown
      simp only [List.reduceOption_cons_of_some, List.map_cons, runOps, hperform]
      rw [transfers] at hruns
      rw [hruns]

/-- There is one wait at most. -/
theorem Midway.not_wait_tail {c : σ} {t : Transfer} {todo : List Stmt}
    (h : Midway chip noise c t todo s.port) : .wait ∉ todo.tail := by
  obtain ⟨done, hdone, -⟩ := h
  obtain ⟨body, hbody, hnot⟩ := t.stmts_wait
  rw [hbody] at hdone
  rcases done with - | ⟨stmt, done⟩
  · rw [List.nil_append] at hdone
    rw [← hdone]
    exact hnot
  · rw [List.cons_append, List.cons.injEq] at hdone
    rw [hdone.2] at hnot
    exact fun hmem => hnot (List.mem_append_right _ (List.mem_of_mem_tail hmem))

/-- Behind the wait there is no other. -/
theorem Midway.not_wait {c : σ} {t : Transfer} {todo : List Stmt}
    (h : Midway chip noise c t todo s.port) (hcurrent : s.current = some (t, todo))
    (hframe : s.inFrame = true) : .wait ∉ todo := by
  rcases todo with - | ⟨stmt, rest⟩
  · exact List.not_mem_nil
  · rw [List.mem_cons, not_or]
    refine ⟨?_, h.not_wait_tail⟩
    rintro rfl
    rw [Board.inFrame, hcurrent] at hframe
    cases hframe

end Inv

/-! ### The wait ends -/

/-- Line 310 raises `vsync`. -/
theorem exists_vsync {v : ScanOut.Video} (hon : v.toie1 = true) :
    ∃ n ≤ ScanOut.linesLeft v, (ScanOut.after v (n + 1)).vsync = true := by
  obtain ⟨n, hn, hon', hline⟩ := ScanOut.exists_line hon
  refine ⟨n, hn, ?_⟩
  rw [ScanOut.after_add, ScanOut.after_one hon', ScanOut.vsync_timer1Ovf, hline]
  rfl

/-- No line changes what is turned off. -/
theorem after_masked {v : ScanOut.Video} (hoff : ¬ v.toie1 = true) : ScanOut.after v 1 = v := by
  have hstep : ScanOut.step v .tick = (none, v) := if_neg hoff
  rw [ScanOut.after, List.replicate_one, feed_cons, hstep]
  rfl

/-- Between the calls the interrupt is enabled, or `vsync` is high. -/
def Awake (v : ScanOut.Video) : Prop := v.todo = [] → v.toie1 = true ∨ v.vsync = true

theorem Awake.step {before : List ScanOut.Line} {v : ScanOut.Video} (hinv : ScanOut.Inv before v)
    (h : Awake v) (event : ScanOut.Event) : Awake (ScanOut.step v event).2 := by
  cases event with
  | tick =>
    rw [ScanOut.step]
    split
    · next hon => exact fun _ => .inl hon
    · exact h
  | off | on =>
    show Awake (if v.todo = [] then _ else v)
    split
    · intro htodo
      cases htodo
    · exact h
  | main =>
    rw [ScanOut.step]
    split
    · exact h
    · next stmt todo htodo =>
      rintro (rfl : todo = [])
      -- the last statement of a call
      have hsuffix := hinv.todo
      rw [htodo] at hsuffix
      rcases hsuffix with ⟨ts, hts⟩ | ⟨ts, hts⟩
      · obtain ⟨-, hlast⟩ := List.append_inj' (hts.trans
          (show ScanOut.videoOff = [.mask] ++ [.raise] from rfl)) rfl
        obtain rfl := (List.cons.inj hlast).1
        exact .inr rfl
      · obtain ⟨-, hlast⟩ := List.append_inj' (hts.trans
          (show ScanOut.videoOn = [.adjust, .lower, .rewind] ++ [.unmask] from rfl)) rfl
        obtain rfl := (List.cons.inj hlast).1
        exact .inl rfl

section Ends

variable {chip : Chip σ} {noise : Byte} {s : Board σ}

/-- The picture takes no other steps than its own. -/
theorem video_step (chip : Chip σ) (noise : Byte) (s : Board σ) (event : Event) :
    (step chip noise s event).2.video = s.video ∨
      ∃ e, (step chip noise s event).2.video = (ScanOut.step s.video e).2 := by
  cases event with
  | tick =>
    refine .inr ⟨.tick, ?_⟩
    rcases hline : ScanOut.step s.video .tick with ⟨_ | line, video⟩
    · simp only [step, hline]
    · rcases hread : line.read with - | addr <;> simp only [step, hline, hread]
  | off =>
    rcases hcurrent : s.current with - | current
    · exact .inr ⟨.off, by simp only [step, hcurrent]⟩
    · exact .inl (by simp only [step, hcurrent])
  | on =>
    rcases hcurrent : s.current with - | current
    · exact .inr ⟨.on, by simp only [step, hcurrent]⟩
    · exact .inl (by simp only [step, hcurrent])
  | start t =>
    left
    rw [step]
    split <;> rfl
  | main =>
    rcases hcurrent : s.current with - | ⟨t, _ | ⟨stmt, todo⟩⟩
    · exact .inr ⟨.main, by simp only [step, hcurrent]⟩
    · exact .inl (by simp only [step, hcurrent])
    · left
      cases stmt
      case wait =>
        simp only [step, hcurrent]
        split <;> rfl
      all_goals simp only [step, hcurrent]

theorem Inv.awake {cells : σ → Word → Byte} {idle : σ → Prop} (hchip : chip.Documented cells idle)
    {m : Word → Byte} (h : Inv chip noise cells idle m s) (hawake : Awake s.video)
    {events : List Event} (hbrisk : Along (next chip noise) Brisk s events) :
    Awake (feed (Bus.step chip noise) s events).2.video := by
  induction events generalizing m s with
  | nil => exact hawake
  | cons event events ih =>
    obtain ⟨m', -, hnext⟩ := h.step hchip hbrisk.1
    obtain ⟨before, hinv⟩ := h.video
    have hlater : Awake (Bus.step chip noise s event).2.video := by
      rcases video_step chip noise s event with heq | ⟨e, heq⟩
      · rw [heq]
        exact hawake
      · rw [heq]
        exact hawake.step hinv e
    exact ih hnext hlater hbrisk.2

/-- Lines pass while the program waits. -/
theorem feed_ticks (chip : Chip σ) (noise : Byte) (s : Board σ) (n : ℕ) :
    (feed (step chip noise) s (List.replicate n .tick)).2.video = ScanOut.after s.video n ∧
      (feed (step chip noise) s (List.replicate n .tick)).2.current = s.current := by
  induction n generalizing s with
  | zero => exact ⟨rfl, rfl⟩
  | succ n ih =>
    obtain ⟨hvideo, hcurrent⟩ := ih (step chip noise s .tick).2
    have htick : (step chip noise s .tick).2.video = (ScanOut.step s.video .tick).2 ∧
        (step chip noise s .tick).2.current = s.current := by
      rcases hline : ScanOut.step s.video .tick with ⟨_ | line, video⟩
      · simp only [step, hline, and_self]
      · rcases hread : line.read with - | addr <;> simp only [step, hline, hread, and_self]
    rw [List.replicate_succ, feed_cons]
    refine ⟨?_, hcurrent.trans htick.2⟩
    rw [hvideo, htick.1]
    rfl

/-- The program comes to the end of its call. -/
theorem feed_mains {t : Transfer} {todo : List Stmt} (hcurrent : s.current = some (t, todo))
    (hvsync : .wait ∈ todo → s.video.vsync = true) :
    (feed (step chip noise) s (List.replicate (todo.length + 1) .main)).2.current = none := by
  induction todo generalizing s with
  | nil =>
    show (step chip noise s .main).2.current = none
    simp only [step, hcurrent]
  | cons stmt todo ih =>
    have hstep : (step chip noise s .main).2.current = some (t, todo) ∧
        (step chip noise s .main).2.video = s.video := by
      cases stmt
      case wait => simp only [step, hcurrent, hvsync List.mem_cons_self, if_true, and_self]
      all_goals simp only [step, hcurrent, and_self]
    rw [List.length_cons, List.replicate_succ, feed_cons]
    refine ih hstep.1 fun hwait => ?_
    rw [hstep.2]
    exact hvsync (List.mem_cons_of_mem _ hwait)

/-- The program waits for `vsync`. -/
def Stalled (s : Board σ) (todo : List Stmt) : Prop :=
  s.video.vsync = false ∧ ∃ rest, todo = .wait :: rest

/-- A step that is not of the interrupt, in a call. -/
theorem step_held {t : Transfer} {todo : List Stmt} (hcurrent : s.current = some (t, todo))
    {event : Event} (htick : event ≠ .tick) :
    (step chip noise s event).2.current = none ∨
      ∃ todo', (step chip noise s event).2.current = some (t, todo') ∧ todo' <:+ todo ∧
        (step chip noise s event).2.video = s.video ∧
        (event = .main → todo' = todo → Stalled s todo) := by
  cases event with
  | tick => exact absurd rfl htick
  | off | on | start => exact .inr ⟨todo, by simp [step, hcurrent]⟩
  | main =>
    rcases todo with - | ⟨stmt, rest⟩
    · left
      simp only [step, hcurrent]
    · by_cases hstall : Stalled s (stmt :: rest)
      · obtain ⟨hlow, _, heq⟩ := hstall
        obtain ⟨rfl, -⟩ := List.cons.inj heq
        have hsame : (step chip noise s .main).2 = s := by
          simp only [step, hcurrent, hlow, Bool.false_eq_true, if_false]
        rw [hsame]
        exact .inr ⟨_, hcurrent, List.suffix_refl _, rfl, fun _ _ => ⟨hlow, _, rfl⟩⟩
      · have hnext : (step chip noise s .main).2.current = some (t, rest) ∧
            (step chip noise s .main).2.video = s.video := by
          cases stmt
          case wait =>
            have hhigh : s.video.vsync = true := by
              by_contra hlow
              exact hstall ⟨Bool.eq_false_iff.mpr hlow, rest, rfl⟩
            simp only [step, hcurrent, hhigh, if_true, and_self]
          all_goals simp only [step, hcurrent, and_self]
        exact .inr ⟨rest, hnext.1, List.suffix_cons stmt rest, hnext.2,
          fun _ heq => absurd heq.symm (List.cons_ne_self stmt rest)⟩

/-- Between two interrupts the call ends, or goes on, or waits. -/
theorem feed_held {t : Transfer} {todo : List Stmt} (hcurrent : s.current = some (t, todo))
    {line : List Event} (htick : .tick ∉ line) :
    (∃ es, es <+: line ∧ (feed (step chip noise) s es).2.current = none) ∨
      ∃ todo', (feed (step chip noise) s line).2.current = some (t, todo') ∧ todo' <:+ todo ∧
        (feed (step chip noise) s line).2.video = s.video ∧
        (.main ∈ line → todo' = todo → Stalled s todo) := by
  induction line generalizing s todo with
  | nil => exact .inr ⟨todo, hcurrent, List.suffix_refl _, rfl, nofun⟩
  | cons event line ih =>
    rw [List.mem_cons, not_or] at htick
    have hstep := @step_held σ chip noise s t todo hcurrent event (Ne.symm htick.1)
    rcases hstep with hnone | ⟨todo₁, hcurrent₁, hsuffix₁, hvideo₁, hmain₁⟩
    · exact .inl ⟨[event], ⟨line, rfl⟩, hnone⟩
    · rcases ih hcurrent₁ htick.2 with ⟨es, hes, hnone⟩ | ⟨todo₂, hend, hsuffix₂, hvideo₂, hmain₂⟩
      · exact .inl ⟨event :: es, List.cons_prefix_cons.mpr ⟨rfl, hes⟩, hnone⟩
      · refine .inr ⟨todo₂, hend, hsuffix₂.trans hsuffix₁, hvideo₂.trans hvideo₁, ?_⟩
        rintro hmem rfl
        -- nothing was done, in the first step or in the rest
        obtain rfl := hsuffix₁.eq_of_length_le hsuffix₂.length_le
        rcases List.mem_cons.mp hmem with rfl | hmem
        · exact hmain₁ rfl rfl
        · obtain ⟨hlow, hwait⟩ := hmain₂ hmem rfl
          exact ⟨hvideo₁ ▸ hlow, hwait⟩

/-- A line, with the interrupt that begins it. -/
theorem feed_line {t : Transfer} {todo : List Stmt} (hcurrent : s.current = some (t, todo))
    {line : List Event} (hmain : .main ∈ line) (htick : .tick ∉ line) :
    (∃ es, es <+: .tick :: line ∧ (feed (step chip noise) s es).2.current = none) ∨
      ∃ todo', (feed (step chip noise) s (.tick :: line)).2.current = some (t, todo') ∧
        todo' <:+ todo ∧
        (feed (step chip noise) s (.tick :: line)).2.video = ScanOut.after s.video 1 ∧
        (todo' = todo →
          (ScanOut.after s.video 1).vsync = false ∧ ∃ rest, todo = .wait :: rest) := by
  obtain ⟨hvideo, hcall⟩ := feed_ticks chip noise s 1
  have hheld := @feed_held σ chip noise (step chip noise s .tick).2 t todo
    (hcall.trans hcurrent) line htick
  rcases hheld with ⟨es, hes, hnone⟩ | ⟨todo', hcurrent', hsuffix, hvideo', hstalled⟩
  · exact .inl ⟨.tick :: es, List.cons_prefix_cons.mpr ⟨rfl, hes⟩, hnone⟩
  · refine .inr ⟨todo', hcurrent', hsuffix, hvideo'.trans hvideo, fun heq => ?_⟩
    obtain ⟨hlow, hwait⟩ := hstalled hmain heq
    exact ⟨hvideo ▸ hlow, hwait⟩

/-- What is left of a list, if it is not all of it. -/
theorem suffix_tail {α : Type*} {l l' : List α} (h : l' <:+ l) (hne : l' ≠ l) : l' <:+ l.tail := by
  rcases l with - | ⟨x, l⟩
  · exact absurd (List.suffix_nil.mp h) hne
  · exact (List.suffix_cons_iff.mp h).resolve_left hne

/-- **Every line** brings the end of the call nearer, or `vsync`: induction on the lines. -/
theorem ends_of_lines {t : Transfer} {todo : List Stmt} (hcurrent : s.current = some (t, todo))
    (hnot : .wait ∉ todo.tail) {k : ℕ}
    (hvsync : .wait ∈ todo → ∃ n < k, (ScanOut.after s.video (n + 1)).vsync = true)
    {lines : List (List Event)} (hlines : ∀ line ∈ lines, .main ∈ line ∧ .tick ∉ line)
    (hlen : k + todo.length < lines.length) :
    ∃ es, es <+: lines.flatMap (.tick :: ·) ∧ (feed (step chip noise) s es).2.current = none := by
  induction lines generalizing s todo k with
  | nil => exact absurd hlen (Nat.not_lt_zero _)
  | cons line lines ih =>
    rw [List.forall_mem_cons] at hlines
    obtain ⟨⟨hmain, htick⟩, hrest⟩ := hlines
    rw [List.length_cons] at hlen
    rw [List.flatMap_cons]
    rcases @feed_line σ chip noise s t todo hcurrent line hmain htick with
      ⟨es, hes, hnone⟩ | ⟨todo', hcurrent', hsuffix, hvideo, hstalled⟩
    · exact ⟨es, hes.trans (List.prefix_append _ _), hnone⟩
    · obtain ⟨es, hes, hnone⟩ : ∃ es, es <+: lines.flatMap (.tick :: ·) ∧ (feed (step chip noise)
          (feed (step chip noise) s (.tick :: line)).2 es).2.current = none := by
        by_cases heq : todo' = todo
        · subst heq
          obtain ⟨hlow, rest, hwait⟩ := hstalled rfl
          obtain ⟨n, hn, hhigh⟩ := hvsync (hwait ▸ List.mem_cons_self)
          -- `vsync` was low on this line, and is one line nearer
          rcases n with - | n
          · exact absurd (hlow.symm.trans hhigh) (by decide)
          · refine @ih _ todo' hcurrent' hnot (k - 1) (fun _ => ⟨n, by omega, ?_⟩) hrest (by omega)
            rw [hvideo, ← ScanOut.after_add, Nat.add_comm 1]
            exact hhigh
        · -- behind the wait
          have htail := suffix_tail hsuffix heq
          have hnot' : .wait ∉ todo' := fun hmem => hnot (htail.mem hmem)
          have hlt : todo'.length < todo.length :=
            lt_of_le_of_ne hsuffix.length_le fun h => heq (hsuffix.eq_of_length h)
          exact @ih _ todo' hcurrent' (fun h => hnot' (List.mem_of_mem_tail h)) k
            (fun h => absurd h hnot') hrest (by omega)
      refine ⟨.tick :: line ++ es, (List.prefix_append_right_inj _).mpr hes, ?_⟩
      rw [feed_append]
      exact hnone

theorem brisk_ticks (hout : s.inFrame = false) (n : ℕ) :
    Along (next chip noise) Brisk s (List.replicate n .tick) := by
  induction n generalizing s with
  | zero => trivial
  | succ n ih =>
    have hcurrent := (feed_ticks chip noise s 1).2
    refine ⟨fun hframe => absurd (hout.symm.trans hframe) (by decide), ih ?_⟩
    have hnext : (next chip noise s .tick).current = s.current := hcurrent
    rw [Board.inFrame, hnext]
    exact hout

theorem brisk_mains (n : ℕ) : Along (next chip noise) Brisk s (List.replicate n .main) := by
  induction n generalizing s with
  | zero => trivial
  | succ n ih => exact ⟨trivial, ih⟩

end Ends

/-! ### The data sheet -/

/-- Where a frame is. -/
inductive Phase
  | standby
  | instruction
  | high (instr : Byte)
  | low (instr hi : Byte)
  | data (instr : Byte) (addr : Word)

/-- The 23LCV512 in its sequential mode. -/
def lcv512 : Chip ((Word → Byte) × Phase) where
  select c := (c.1, .instruction)
  deselect c := (c.1, .standby)
  exchange
    | (m, .standby), _ => (0xff, (m, .standby))
    | (m, .instruction), b => (0xff, (m, .high b))
    | (m, .high instr), b => (0xff, (m, .low instr b))
    | (m, .low instr hi), b => (0xff, (m, .data instr (hi ++ b)))
    | (m, .data instr addr), b =>
      if instr = 0x02 then (0xff, (Function.update m addr b, .data instr (addr + 1)))
      else if instr = 0x03 then (m addr, (m, .data instr (addr + 1)))
      else (0xff, (m, .data instr addr))

theorem lcv512_header (c : (Word → Byte) × Phase) (instr : Byte) (addr : Word) :
    (feed lcv512.exchange (lcv512.select c) (header instr addr)).2 = (c.1, .data instr addr) := by
  show (c.1, Phase.data instr ((addr >>> 8).setWidth 8 ++ addr.setWidth 8)) = _
  rw [append_bytes]

theorem lcv512_write (bytes : List Byte) (m : Word → Byte) (addr : Word) :
    (feed lcv512.exchange (m, .data 0x02 addr) bytes).2.1 = writeBlock m addr bytes := by
  induction bytes generalizing m addr with
  | nil => rfl
  | cons b bytes ih => exact ih _ _

theorem lcv512_read (bytes : List Byte) (m : Word → Byte) (addr : Word) :
    (feed lcv512.exchange (m, .data 0x03 addr) bytes).1 = readBlock m addr bytes.length ∧
      (feed lcv512.exchange (m, .data 0x03 addr) bytes).2.1 = m := by
  induction bytes generalizing addr with
  | nil => exact ⟨rfl, rfl⟩
  | cons b bytes ih =>
    obtain ⟨hread, hkeep⟩ := ih (addr + 1)
    exact ⟨congrArg (m addr :: ·) hread, hkeep⟩

/-- The chip does what its data sheet says. -/
theorem documented_lcv512 : lcv512.Documented Prod.fst fun c => c.2 = .standby where
  deselect _ := rfl
  write {c} addr bytes _ := by
    rw [(frame_header c 0x02 addr bytes).2, lcv512_header]
    exact lcv512_write bytes c.1 addr
  read {c} addr bytes _ := by
    obtain ⟨hout, hend⟩ := @frame_header _ lcv512 c 0x03 addr bytes
    rw [hout, hend, lcv512_header]
    exact lcv512_read bytes c.1 addr

/-! ### One memory -/

/-- **The bus is safe.**  In every interleaving of the interrupt with the program in which no
transfer sees more than six lines, the complete transfers of both are accesses to one
memory, one after another, with the bytes that it has for them. -/
theorem bus_atomic {chip : Chip σ} (noise : Byte) {cells : σ → Word → Byte} {idle : σ → Prop}
    (hchip : chip.Documented cells idle) {c : σ} (hc : idle c) {events : List Event}
    (hbrisk : Along (next chip noise) Brisk (reset c) events) :
    let done := transfers chip noise (reset c) events
    let s := (feed (step chip noise) (reset c) events).2
    (runOps (cells c) (done.map Prod.fst)).1 = done.map Prod.snd ∧
      (s.current = none → cells s.port.chip = (runOps (cells c) (done.map Prod.fst)).2) := by
  intro done s
  obtain ⟨m, hruns, hinv⟩ := (inv_reset hc).run hchip hbrisk
  have hruns' : runOps (cells c) (done.map Prod.fst) = (done.map Prod.snd, m) := hruns
  rw [hruns']
  exact ⟨rfl, fun hcurrent => (hinv.free hcurrent).2.1⟩

/-- A byte is stored behind the first line. -/
theorem bus_atomic_store :
    let c : (Word → Byte) × Phase := (fun _ => 0, .standby)
    let events : List Event := .on :: (List.replicate 4 .main ++
      (.tick :: .start (.write 0x1a00 [7]) :: List.replicate 8 .main))
    let done := transfers lcv512 0xff (reset c) events
    (runOps c.1 (done.map Prod.fst)).1 = done.map Prod.snd :=
  (bus_atomic 0xff documented_lcv512
    (show ((fun _ => 0, Phase.standby) : (Word → Byte) × Phase).2 = .standby from rfl)
    (by decide)).1

-- a store that waits on line 62 and sees seven lines is cut by the picture, and lost
example :
    let c : (Word → Byte) × Phase := (fun _ => 0, .standby)
    let events : List Event := .on :: (List.replicate 4 .main ++ List.replicate 64 .tick ++
      .start (.write 0x1a00 [7]) :: (List.replicate 5 .main ++ List.replicate 7 .tick ++
        List.replicate 3 .main))
    let s := (feed (step lcv512 0xff) (reset c) events).2
    s.current.isNone = true ∧ s.port.chip.1 0x1a00 = 0 := by
  decide +kernel

/-- **The wait ends.**  Once the picture has been turned on, a call that the program is in
can come to its end with at most 313 lines in between and none behind the wait; and if the
program takes a step on each line, in whatever order all else comes, it has come to it
after 313 lines and one more for each of its statements. -/
theorem transfer_ends {chip : Chip σ} (noise : Byte) {cells : σ → Word → Byte} {idle : σ → Prop}
    (hchip : chip.Documented cells idle) {c : σ} (hc : idle c) {events : List Event}
    (hbrisk : Along (next chip noise) Brisk (reset c) (.on :: events)) {t : Transfer}
    {todo : List Stmt}
    (hcurrent : (feed (step chip noise) (reset c) (.on :: events)).2.current = some (t, todo)) :
    let s := (feed (step chip noise) (reset c) (.on :: events)).2
    (∃ n ≤ 313, let more := List.replicate n .tick ++ List.replicate (todo.length + 1) .main
      Along (next chip noise) Brisk s more ∧ (feed (step chip noise) s more).2.current = none) ∧
      ∀ lines : List (List Event), (∀ line ∈ lines, .main ∈ line ∧ .tick ∉ line) →
        313 + todo.length < lines.length → ∃ es, es <+: lines.flatMap (.tick :: ·) ∧
          (feed (step chip noise) s es).2.current = none := by
  intro s
  have hinit : Inv chip noise cells idle (cells c) (step chip noise (reset c) .on).2 :=
    (inv_reset hc).call rfl .on
  obtain ⟨m, -, hinv⟩ := hinit.run hchip hbrisk.2
  have hawake : Awake s.video := hinit.awake hchip nofun hbrisk.2
  obtain ⟨htodo, c', -, -, hmid⟩ := hinv.held t todo hcurrent
  -- the lines until `vsync`, if it is waited for
  obtain ⟨n, hn, hvsync⟩ : ∃ n < 313, (ScanOut.after s.video (n + 1)).vsync = true := by
    by_cases hon : s.video.toie1 = true
    · obtain ⟨n, hn, hvsync⟩ := exists_vsync hon
      have hle := ScanOut.linesLeft_le s.video
      exact ⟨n, by omega, hvsync⟩
    · refine ⟨0, by decide, ?_⟩
      rw [after_masked hon]
      exact (hawake htodo).resolve_left hon
  refine ⟨?_, fun lines hlines hlen => ?_⟩
  · rcases hframe : s.inFrame with - | -
    · obtain ⟨hvideo, hcall⟩ := feed_ticks chip noise s (n + 1)
      refine ⟨n + 1, hn, (along_append _ _ _ _ _).mpr ⟨brisk_ticks hframe _, brisk_mains _⟩, ?_⟩
      rw [feed_append]
      refine feed_mains (hcall.trans hcurrent) fun _ => ?_
      rw [hvideo]
      exact hvsync
    · refine ⟨0, Nat.zero_le _, brisk_mains _, feed_mains hcurrent fun hmem => ?_⟩
      exact absurd hmem (hmid.not_wait hcurrent hframe)
  · exact ends_of_lines hcurrent hmid.not_wait_tail (fun _ => ⟨n, hn, hvsync⟩) hlines hlen

/-- Two bytes are read. -/
theorem transfer_ends_read :
    let c : (Word → Byte) × Phase := (fun _ => 0, .standby)
    let events : List Event := List.replicate 4 .main ++ [.start (.read 0x1a00 2)]
    let todo := sramRead 0x1a00 2
    let s := (feed (step lcv512 0xff) (reset c) (.on :: events)).2
    (∃ n ≤ 313, let more := List.replicate n .tick ++ List.replicate (todo.length + 1) .main
      Along (next lcv512 0xff) Brisk s more ∧
        (feed (step lcv512 0xff) s more).2.current = none) ∧
      ∃ es, es <+: (List.replicate 330 [Event.main]).flatMap (.tick :: ·) ∧
        (feed (step lcv512 0xff) s es).2.current = none := by
  intro c events todo
  have hbrisk : Along (next lcv512 0xff) Brisk (reset c) (.on :: events) := by decide
  have hcurrent : (feed (step lcv512 0xff) (reset c) (.on :: events)).2.current
      = some (.read 0x1a00 2, todo) := rfl
  have hidle : c.2 = .standby := rfl
  obtain ⟨hends, hlines⟩ := transfer_ends 0xff documented_lcv512 hidle hbrisk hcurrent
  have hlen : 313 + todo.length < (List.replicate 330 [Event.main]).length := by
    rw [List.length_replicate]
    decide
  refine ⟨hends, hlines _ (fun line hline => ?_) hlen⟩
  rw [List.eq_of_mem_replicate hline]
  exact ⟨List.mem_singleton_self _, by simp⟩

end Bus

end Dan64
