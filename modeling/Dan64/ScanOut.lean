/-
Dan64/ScanOut.lean

The picture: `video/video.c`.

An interrupt for every scan line reads one row of the video memory, while the main
program may use the memory as long as `vsync` is set.  The handler lowers `vsync` six
lines before the first row and raises it behind the last, and the main program turns
the whole thing off and on; the interrupt may come between any two statements of
these calls.  What a line that reads relies on is an invariant of all of them (`Inv`),
so that no row is read before `vsync` has been low for six lines, and between two
rises of it, which never fail to come, every row is read once (`scan_out`).
-/
import Dan64.Terminal
import Mathlib.Data.List.ReduceOption

namespace Dan64

open Mealy

namespace ScanOut

/-! ### The interrupt -/

def PAL_LINES_CHARS : ℕ := CHARS_HEIGHT * 8

def PAL_LINES_PER_FRAME : ℕ := 312

def PAL_LINES_DBEGIN : ℕ := PAL_LINES_PER_FRAME / 2 - PAL_LINES_CHARS / 2 + 8

def PAL_LINES_DEND : ℕ := PAL_LINES_DBEGIN + PAL_LINES_CHARS

/-- The statements of the calls that touch what the interrupt uses. -/
inductive Stmt
  /-- `TIMSK1 &= ~_BV(TOIE1)` -/
  | mask
  /-- `vsync = 1` -/
  | raise
  /-- `adj_pal_lines = 1` -/
  | adjust
  /-- `vsync = 0` -/
  | lower
  /-- `scanline = 310` -/
  | rewind
  /-- `TIMSK1 = _BV(TOIE1)` -/
  | unmask
  deriving DecidableEq

/-- The variables, whether the interrupt is enabled, and what is left of a call that the
main program is in. -/
structure Video where
  vsync : Bool
  scanline : ℕ
  adjPalLines : ℕ
  toie1 : Bool
  todo : List Stmt

/-- `video_off` -/
def videoOff : List Stmt := [.mask, .raise]

/-- `video_on` -/
def videoOn : List Stmt := [.adjust, .lower, .rewind, .unmask]

def Stmt.exec (s : Video) : Stmt → Video
  | .mask => { s with toie1 := false }
  | .raise => { s with vsync := true }
  | .adjust => { s with adjPalLines := 1 }
  | .lower => { s with vsync := false }
  | .rewind => { s with scanline := 310 }
  | .unmask => { s with toie1 := true }

/-- What is seen of a line: `vsync` behind its pulses, and the address of a read. -/
structure Line where
  vsync : Bool
  read : Option Word

/-- The address that a line reads from. -/
def readAt (scanline : ℕ) : Option Word :=
  if PAL_LINES_DBEGIN ≤ scanline ∧ scanline < PAL_LINES_DEND then
    some (VIDEO_ADDR + BitVec.ofNat 16 ((scanline - PAL_LINES_DBEGIN) * CHARS_WIDTH))
  else none

/-- `TIMER1_OVF_vect` -/
def timer1Ovf (s : Video) : Line × Video :=
  let vsync :=
    if 5 < s.scanline ∧ s.scanline < 310 then s.vsync
    else if s.scanline = 310 then true
    else s.vsync
  let vsync := if s.scanline + 6 = PAL_LINES_DBEGIN then false else vsync
  let read := readAt s.scanline
  let adjPalLines :=
    if s.scanline = 6 then if s.adjPalLines ≠ 0 then 0 else 1
    else s.adjPalLines
  let scanline := if s.scanline = 6 then s.scanline - adjPalLines else s.scanline
  let scanline := scanline + 1
  let scanline := if scanline > PAL_LINES_PER_FRAME then 1 else scanline
  (⟨vsync, read⟩, { s with vsync, adjPalLines, scanline })

/-! ### Interleavings -/

/-- The timer overflows, or the main program enters a call, or goes on in the one that
it is in. -/
inductive Event
  | tick
  | off
  | on
  | main
  deriving DecidableEq

def step (s : Video) : Event → Option Line × Video
  | .tick =>
    if s.toie1 = true then
      let (line, s) := timer1Ovf s
      (some line, s)
    else (none, s)
  | .off => (none, if s.todo = [] then { s with todo := videoOff } else s)
  | .on => (none, if s.todo = [] then { s with todo := videoOn } else s)
  | .main =>
    match s.todo with
    | [] => (none, s)
    | stmt :: todo => (none, { stmt.exec s with todo })

/-- Behind a reset the interrupt is disabled and the variables are 0. -/
def reset : Video := ⟨false, 0, 0, false, []⟩

/-- The lines of a run. -/
def lines (s : Video) (events : List Event) : List Line := (feed step s events).1.reduceOption

/-- `vsync` was low at the end of the last `n` lines. -/
def Low (n : ℕ) (before : List Line) : Prop :=
  ∃ qs rs, before = qs ++ rs ∧ rs.length = n ∧ ∀ line ∈ rs, line.vsync = false

/-- A read is one of a row, and `vsync` is low and has been for six lines. -/
def Safe (before : List Line) (line : Line) : Prop :=
  ∀ addr, line.read = some addr →
    line.vsync = false ∧ Low 6 before ∧ ∃ row < 192, addr.toNat = 0x0200 + 32 * row

/-- A tick raises `vsync`. -/
def Rises (s : Video) : Prop := s.vsync = false ∧ (step s .tick).2.vsync = true

instance : DecidablePred Rises := fun _ => inferInstanceAs (Decidable (_ ∧ _))

/-- The state `n` ticks later. -/
def after (s : Video) (n : ℕ) : Video := (feed step s (List.replicate n .tick)).2

/-- The addresses read in the meantime. -/
def reads (s : Video) (n : ℕ) : List Word :=
  (lines s (List.replicate n .tick)).filterMap Line.read

/-- The rows of the screen, from top to bottom. -/
def rows : List Word := (List.range 192).map fun row => BitVec.ofNat 16 (0x0200 + 32 * row)

/-! ### Low lines -/

theorem Low.zero (before : List Line) : Low 0 before :=
  ⟨before, [], (List.append_nil _).symm, rfl, nofun⟩

theorem Low.concat {n : ℕ} {before : List Line} (h : Low n before) {line : Line}
    (hline : line.vsync = false) : Low (n + 1) (before ++ [line]) := by
  obtain ⟨qs, rs, rfl, rfl, hlow⟩ := h
  refine ⟨qs, rs ++ [line], List.append_assoc _ _ _, List.length_append, ?_⟩
  intro r hr
  rcases List.mem_append.mp hr with hr | hr
  · exact hlow r hr
  · rwa [List.mem_singleton.mp hr]

theorem Low.mono {m n : ℕ} {before : List Line} (h : Low n before) (hle : m ≤ n) :
    Low m before := by
  obtain ⟨qs, rs, rfl, rfl, hlow⟩ := h
  refine ⟨qs ++ rs.take (rs.length - m), rs.drop (rs.length - m), ?_, ?_, ?_⟩
  · rw [List.append_assoc, List.take_append_drop]
  · rw [List.length_drop]
    omega
  · intro r hr
    exact hlow r (List.mem_of_mem_drop hr)

/-! ### What a line relies on -/

theorem dbegin_eq : PAL_LINES_DBEGIN = 68 := rfl

theorem dend_eq : PAL_LINES_DEND = 260 := rfl

theorem perFrame_eq : PAL_LINES_PER_FRAME = 312 := rfl

/-- The next line. -/
def nextLine (s : Video) : ℕ :=
  if s.scanline = 6 then if s.adjPalLines = 0 then 6 else 7
  else if 312 ≤ s.scanline then 1 else s.scanline + 1

theorem scanline_timer1Ovf (s : Video) : (timer1Ovf s).2.scanline = nextLine s := by
  simp only [timer1Ovf, nextLine, perFrame_eq]
  split_ifs <;> omega

theorem vsync_timer1Ovf (s : Video) :
    (timer1Ovf s).2.vsync = if s.scanline = 62 then false else if s.scanline = 310 then true
      else s.vsync := by
  have h62 : s.scanline + 6 = PAL_LINES_DBEGIN ↔ s.scanline = 62 := by
    rw [dbegin_eq]
    omega
  simp only [timer1Ovf, h62]
  refine if_congr Iff.rfl rfl ?_
  by_cases h310 : s.scanline = 310
  · rw [if_neg (by omega), if_pos h310]
  · rw [if_neg h310, ite_self]

/-- Between the statements of the calls and the lines: `n` lines behind line 62 `vsync`
has been low for `n` lines, and the interrupt is not enabled on any other way to a line
that reads. -/
structure Inv (before : List Line) (s : Video) : Prop where
  todo : s.todo <:+ videoOff ∨ s.todo <:+ videoOn
  masked : s.todo = [.raise] → s.toie1 = false
  rewound : s.todo = [.unmask] → s.toie1 = false → s.scanline = 310
  low : s.toie1 = true → 62 < s.scanline → s.scanline ≤ PAL_LINES_DEND →
    s.vsync = false ∧ Low (min 6 (s.scanline - 62)) before

theorem inv_reset : Inv [] reset :=
  ⟨.inl List.nil_suffix, nofun, nofun, nofun⟩

theorem Inv.safe {before : List Line} {s : Video} (h : Inv before s) (hon : s.toie1 = true) :
    Safe before (timer1Ovf s).1 := by
  intro addr haddr
  have hread : readAt s.scanline = some addr := haddr
  rw [readAt, dbegin_eq, dend_eq] at hread
  split at hread
  · next hline =>
    obtain ⟨hlow, hlines⟩ := h.low hon (by omega) (by rw [dend_eq]; omega)
    have hsix : min 6 (s.scanline - 62) = 6 := by omega
    rw [hsix] at hlines
    have hvsync : (timer1Ovf s).1.vsync = (timer1Ovf s).2.vsync := rfl
    rw [hvsync, vsync_timer1Ovf, if_neg (by omega), if_neg (by omega)]
    refine ⟨hlow, hlines, s.scanline - 68, by omega, ?_⟩
    obtain rfl := Option.some.inj hread
    have hrow : (s.scanline - 68) * CHARS_WIDTH = 32 * (s.scanline - 68) := Nat.mul_comm _ _
    rw [BitVec.toNat_add, BitVec.toNat_ofNat, hrow]
    show (512 + _) % 65536 = _
    omega
  · cases hread

/-- A line keeps it. -/
theorem Inv.tick {before : List Line} {s : Video} (h : Inv before s) (hon : s.toie1 = true) :
    Inv (before ++ [(timer1Ovf s).1]) (timer1Ovf s).2 := by
  refine ⟨h.todo, h.masked, fun _ hoff => ?_, fun _ hgt hle => ?_⟩
  · exact absurd (hon.symm.trans hoff) (by decide)
  rw [scanline_timer1Ovf, nextLine] at hgt hle
  rw [scanline_timer1Ovf, nextLine]
  rw [dend_eq] at hle
  have hline : s.scanline ≠ 6 ∧ 62 ≤ s.scanline ∧ s.scanline < 260 := by
    split_ifs at hgt hle <;> omega
  have hvsync : (timer1Ovf s).2.vsync = false := by
    rw [vsync_timer1Ovf]
    split_ifs with h62 h310
    · rfl
    · omega
    · exact (h.low hon (by omega) (by rw [dend_eq]; omega)).1
  have hbefore : Low (min 6 (s.scanline - 62)) before := by
    by_cases h62 : s.scanline = 62
    · rw [h62]
      exact Low.zero before
    · exact (h.low hon (by omega) (by rw [dend_eq]; omega)).2
  rw [if_neg hline.1, if_neg (by omega)]
  exact ⟨hvsync, (hbefore.concat hvsync).mono (by omega)⟩

/-- So does a statement of a call. -/
theorem Inv.stmt {before : List Line} {s : Video} (h : Inv before s) {stmt : Stmt}
    {todo : List Stmt} (htodo : s.todo = stmt :: todo) :
    Inv before { stmt.exec s with todo } := by
  obtain ⟨vsync, scanline, adj, toie1, _⟩ := s
  obtain rfl := htodo
  have hstage : (stmt :: todo = videoOff ∨ stmt :: todo = [.raise]) ∨ stmt :: todo = videoOn ∨
      stmt :: todo = [.lower, .rewind, .unmask] ∨ stmt :: todo = [.rewind, .unmask] ∨
      stmt :: todo = [.unmask] := by
    have htodo := h.todo
    simpa [videoOff, videoOn, List.suffix_cons_iff] using htodo
  have hrest : todo <:+ videoOff ∨ todo <:+ videoOn :=
    h.todo.imp (List.suffix_cons stmt todo).trans (List.suffix_cons stmt todo).trans
  have hline : ¬ 310 ≤ PAL_LINES_DEND := by decide
  rcases hstage with (heq | heq) | heq | heq | heq | heq
  · obtain ⟨rfl, rfl⟩ := List.cons.inj heq
    exact ⟨hrest, fun _ => rfl, nofun, nofun⟩
  · obtain ⟨rfl, rfl⟩ := List.cons.inj heq
    have hoff := h.masked rfl
    exact ⟨hrest, nofun, nofun, fun hon => absurd (hoff.symm.trans hon) (by decide)⟩
  · obtain ⟨rfl, rfl⟩ := List.cons.inj heq
    exact ⟨hrest, nofun, nofun, h.low⟩
  · obtain ⟨rfl, rfl⟩ := List.cons.inj heq
    exact ⟨hrest, nofun, nofun, fun hon hgt hle => ⟨rfl, (h.low hon hgt hle).2⟩⟩
  · obtain ⟨rfl, rfl⟩ := List.cons.inj heq
    exact ⟨hrest, nofun, fun _ _ => rfl, fun _ _ hle => absurd hle hline⟩
  · obtain ⟨rfl, rfl⟩ := List.cons.inj heq
    refine ⟨hrest, nofun, nofun, fun _ hgt hle => ?_⟩
    -- not enabled before, the handler starts at line 310
    cases toie1
    · have h310 : scanline = 310 := h.rewound rfl rfl
      subst h310
      exact absurd hle hline
    · exact h.low rfl hgt hle

theorem Inv.call {before : List Line} {s : Video} (h : Inv before s) {todo : List Stmt}
    (htodo : todo = videoOff ∨ todo = videoOn) :
    Inv before { s with todo } := by
  refine ⟨?_, ?_, ?_, h.low⟩
  · rcases htodo with rfl | rfl
    · exact .inl (List.suffix_refl _)
    · exact .inr (List.suffix_refl _)
  · rcases htodo with rfl | rfl <;> nofun
  · rcases htodo with rfl | rfl <;> nofun

/-- **Step.** -/
theorem Inv.step {before : List Line} {s : Video} (h : Inv before s) (event : Event) :
    (∀ line, (step s event).1 = some line → Safe before line) ∧
      Inv (before ++ (ScanOut.step s event).1.toList) (ScanOut.step s event).2 := by
  cases event with
  | tick =>
    rw [ScanOut.step]
    split
    · next hon =>
      refine ⟨?_, h.tick hon⟩
      rintro _ ⟨⟩
      exact h.safe hon
    · exact ⟨nofun, (List.append_nil before).symm ▸ h⟩
  | off =>
    refine ⟨nofun, ?_⟩
    show Inv (before ++ []) (if s.todo = [] then _ else s)
    rw [List.append_nil]
    split
    · exact h.call (.inl rfl)
    · exact h
  | on =>
    refine ⟨nofun, ?_⟩
    show Inv (before ++ []) (if s.todo = [] then _ else s)
    rw [List.append_nil]
    split
    · exact h.call (.inr rfl)
    · exact h
  | main =>
    rw [ScanOut.step]
    split
    · exact ⟨nofun, (List.append_nil before).symm ▸ h⟩
    · next stmt todo htodo => exact ⟨nofun, (List.append_nil before).symm ▸ h.stmt htodo⟩

/-- **Run.** -/
theorem Inv.run {before : List Line} {s : Video} (h : Inv before s) {events : List Event}
    {qs : List Line} {line : Line} {rs : List Line} (hlines : lines s events = qs ++ line :: rs) :
    Safe (before ++ qs) line := by
  induction events generalizing before s qs with
  | nil => exact absurd hlines (List.append_ne_nil_of_right_ne_nil qs (List.cons_ne_nil _ _)).symm
  | cons event events ih =>
    obtain ⟨hsafe, hinv⟩ := h.step event
    rw [lines, feed_cons] at hlines
    rcases hfirst : (ScanOut.step s event).1 with - | first
    · rw [hfirst] at hlines hinv
      rw [Option.toList_none, List.append_nil] at hinv
      exact ih hinv hlines
    · rw [hfirst] at hlines hinv
      rw [List.reduceOption_cons_of_some] at hlines
      rcases qs with - | ⟨q, qs⟩
      · obtain ⟨rfl, -⟩ := List.cons.inj hlines
        rw [List.append_nil]
        exact hsafe _ hfirst
      · obtain ⟨rfl, hrest⟩ := List.cons.inj hlines
        have hlater := ih hinv hrest
        rwa [Option.toList_some, List.append_assoc] at hlater

/-! ### From one rise to the next -/

/-- `n` lines, none of them line 310, and what they read. -/
structure Scans (s : Video) (n : ℕ) (addrs : List Word) (t : Video) : Prop where
  after_eq : after s n = t
  reads_eq : reads s n = addrs
  ne : ∀ k < n, (after s k).scanline ≠ 310

theorem after_add (s : Video) (m n : ℕ) : after s (m + n) = after (after s m) n := by
  rw [after, List.replicate_add, feed_append]
  rfl

theorem reads_add (s : Video) (m n : ℕ) : reads s (m + n) = reads s m ++ reads (after s m) n := by
  rw [reads, lines, List.replicate_add, feed_append, List.reduceOption_append,
    List.filterMap_append]
  rfl

theorem Scans.zero (s : Video) : Scans s 0 [] s := ⟨rfl, rfl, nofun⟩

theorem Scans.trans {s t u : Video} {m n : ℕ} {addrs addrs' : List Word}
    (h : Scans s m addrs t) (h' : Scans t n addrs' u) : Scans s (m + n) (addrs ++ addrs') u := by
  obtain ⟨rfl, rfl, hne⟩ := h
  obtain ⟨rfl, rfl, hne'⟩ := h'
  refine ⟨after_add s m n, reads_add s m n, fun k hk => ?_⟩
  rcases lt_or_ge k m with hlt | hge
  · exact hne k hlt
  · obtain ⟨j, rfl⟩ := Nat.exists_eq_add_of_le hge
    rw [after_add]
    exact hne' j (by omega)

/-- One line. -/
theorem Scans.one {s : Video} (hon : s.toie1 = true) (hne : s.scanline ≠ 310) :
    Scans s 1 ([s.scanline].filterMap readAt) (timer1Ovf s).2 := by
  have hstep : step s .tick = (some (timer1Ovf s).1, (timer1Ovf s).2) := if_pos hon
  refine ⟨?_, ?_, fun k hk => ?_⟩
  · rw [after, List.replicate_one, feed_cons, hstep]
    rfl
  · rw [reads, lines, List.replicate_one, feed_cons, hstep]
    rfl
  · obtain rfl : k = 0 := by omega
    exact hne

/-- Lines that change nothing but the position: induction on their number. -/
theorem Scans.plain {s : Video} (hon : s.toie1 = true) {n : ℕ}
    (hplain : ∀ l, s.scanline ≤ l → l < s.scanline + n → l ≠ 6 ∧ l ≠ 62 ∧ l ≠ 310 ∧ l < 312) :
    Scans s n ((List.range' s.scanline n).filterMap readAt)
      { s with scanline := s.scanline + n } := by
  induction n with
  | zero => exact Scans.zero s
  | succ n ih =>
    obtain ⟨h6, h62, h310, h312⟩ := hplain (s.scanline + n) (by omega) (by omega)
    have hlast := @Scans.one { s with scanline := s.scanline + n } hon h310
    have hnext : (timer1Ovf { s with scanline := s.scanline + n }).2
        = { s with scanline := s.scanline + (n + 1) } := by
      have hvsync := vsync_timer1Ovf { s with scanline := s.scanline + n }
      have hscanline := scanline_timer1Ovf { s with scanline := s.scanline + n }
      rw [if_neg h62, if_neg h310] at hvsync
      rw [nextLine, if_neg h6, if_neg (by simp only; omega)] at hscanline
      have hadj : (timer1Ovf { s with scanline := s.scanline + n }).2.adjPalLines = s.adjPalLines :=
        if_neg h6
      calc (timer1Ovf { s with scanline := s.scanline + n }).2
          = { s with
              vsync := (timer1Ovf { s with scanline := s.scanline + n }).2.vsync
              scanline := (timer1Ovf { s with scanline := s.scanline + n }).2.scanline
              adjPalLines :=
                (timer1Ovf { s with scanline := s.scanline + n }).2.adjPalLines } := rfl
        _ = _ := by rw [hvsync, hscanline, hadj]; rfl
    rw [hnext] at hlast
    have hall := (ih fun l hge hlt => hplain l hge (by omega)).trans hlast
    rwa [List.range'_concat, List.filterMap_append, one_mul]

/-- The lines at which something changes. -/
theorem Scans.wrap {s : Video} (hon : s.toie1 = true) (hline : s.scanline = 312) :
    Scans s 1 [] { s with scanline := 1 } := by
  obtain ⟨vsync, _, adj, toie1, todo⟩ := s
  obtain rfl := hline
  exact Scans.one hon (by decide : 312 ≠ 310)

theorem Scans.lower {s : Video} (hon : s.toie1 = true) (hline : s.scanline = 62) :
    Scans s 1 [] { s with scanline := 63, vsync := false } := by
  obtain ⟨vsync, _, adj, toie1, todo⟩ := s
  obtain rfl := hline
  exact Scans.one hon (by decide : 62 ≠ 310)

/-- Line 6 comes twice in every other frame. -/
theorem Scans.interlace {s : Video} (hon : s.toie1 = true) (hline : s.scanline = 6) :
    ∃ n, Scans s n [] { s with scanline := 7, adjPalLines := 0 } := by
  obtain ⟨vsync, _, adj, toie1, todo⟩ := s
  obtain rfl := hline
  obtain rfl : toie1 = true := hon
  rcases adj with - | adj
  · have hagain := @Scans.one ⟨vsync, 6, 0, true, todo⟩ rfl (by decide : 6 ≠ 310)
    have hnext := @Scans.one ⟨vsync, 6, 1, true, todo⟩ rfl (by decide : 6 ≠ 310)
    exact ⟨2, hagain.trans hnext⟩
  · exact ⟨1, @Scans.one ⟨vsync, 6, adj + 1, true, todo⟩ rfl (by decide : 6 ≠ 310)⟩

/-- **A frame**: from the line behind a rise to the next line 310, with every row read in
order. -/
theorem exists_scans {s : Video} (hon : s.toie1 = true) (hline : s.scanline = 311) :
    ∃ n t, Scans s n rows t ∧ t.toie1 = true ∧ t.scanline = 310 ∧ t.vsync = false := by
  obtain ⟨vsync, _, adj, toie1, todo⟩ := s
  obtain rfl := hline
  obtain rfl : toie1 = true := hon
  have htop := @Scans.plain ⟨vsync, 311, adj, true, todo⟩ rfl 1 (by simp only; omega)
  have hwrap := @Scans.wrap ⟨vsync, 312, adj, true, todo⟩ rfl rfl
  have hsync := @Scans.plain ⟨vsync, 1, adj, true, todo⟩ rfl 5 (by simp only; omega)
  obtain ⟨n, hsix⟩ := @Scans.interlace ⟨vsync, 6, adj, true, todo⟩ rfl rfl
  have hblank := @Scans.plain ⟨vsync, 7, 0, true, todo⟩ rfl 55 (by simp only; omega)
  have hlower := @Scans.lower ⟨vsync, 62, 0, true, todo⟩ rfl rfl
  have hrows := @Scans.plain ⟨false, 63, 0, true, todo⟩ rfl 247 (by simp only; omega)
  have hall := ((((htop.trans hwrap).trans hsync).trans hsix).trans hblank).trans
    (hlower.trans hrows)
  -- only the last lines read
  have haddrs : (List.range' 63 247).filterMap readAt = rows := by decide +kernel
  have hnone : (List.range' 311 1).filterMap readAt ++ [] ++ (List.range' 1 5).filterMap readAt ++
      [] ++ (List.range' 7 55).filterMap readAt = [] := by decide
  rw [hnone, haddrs] at hall
  exact ⟨_, _, hall, rfl, rfl, rfl⟩

/-- `vsync` rises at line 310. -/
theorem rises_iff (s : Video) :
    Rises s ↔ s.toie1 = true ∧ s.vsync = false ∧ s.scanline = 310 := by
  by_cases hon : s.toie1 = true
  · have hstep : (step s .tick).2 = (timer1Ovf s).2 := by
      rw [step, if_pos hon]
    rw [Rises, hstep, vsync_timer1Ovf, and_iff_right hon]
    refine and_congr_right fun hlow => ?_
    rw [hlow]
    split_ifs with h62 h310
    · exact iff_of_false (by decide) (by omega)
    · exact iff_of_true rfl h310
    · exact iff_of_false (by decide) h310
  · have hstep : (step s .tick).2 = s := by
      rw [step, if_neg hon]
    rw [Rises, hstep]
    refine iff_of_false ?_ fun h => hon h.1
    rintro ⟨hlow, hhigh⟩
    exact absurd (hlow.symm.trans hhigh) (by decide)

/-! ### The next rise -/

/-- How many lines there are until line 310. -/
def linesLeft (s : Video) : ℕ :=
  if s.scanline ≤ 310 then 310 - s.scanline + if s.scanline ≤ 6 ∧ s.adjPalLines = 0 then 1 else 0
  else if s.scanline = 311 then 312
  else 311

theorem linesLeft_le (s : Video) : linesLeft s ≤ 312 := by
  rw [linesLeft]
  split_ifs <;> omega

theorem linesLeft_timer1Ovf {s : Video} (h : s.scanline ≠ 310) :
    linesLeft (timer1Ovf s).2 + 1 ≤ linesLeft s := by
  have hadj : (timer1Ovf s).2.adjPalLines
      = if s.scanline = 6 then if s.adjPalLines ≠ 0 then 0 else 1 else s.adjPalLines := rfl
  rw [linesLeft, linesLeft, scanline_timer1Ovf, nextLine]
  by_cases h6 : s.scanline = 6
  · rw [if_pos h6] at hadj
    split_ifs at hadj ⊢ <;> omega
  · rw [if_neg h6] at hadj
    split_ifs <;> omega

theorem after_one {s : Video} (hon : s.toie1 = true) : after s 1 = (timer1Ovf s).2 := by
  have hstep : step s .tick = (some (timer1Ovf s).1, (timer1Ovf s).2) := if_pos hon
  rw [after, List.replicate_one, feed_cons, hstep]
  rfl

/-- Line 310 comes: induction on the lines that are left. -/
theorem exists_line {s : Video} (hon : s.toie1 = true) :
    ∃ n ≤ linesLeft s, (after s n).toie1 = true ∧ (after s n).scanline = 310 := by
  induction hd : linesLeft s using Nat.strong_induction_on generalizing s with
  | _ d ih =>
    by_cases h310 : s.scanline = 310
    · exact ⟨0, Nat.zero_le d, hon, h310⟩
    · have hleft := linesLeft_timer1Ovf h310
      obtain ⟨n, hn, hend⟩ := @ih _ (by omega) (timer1Ovf s).2 hon rfl
      refine ⟨1 + n, by omega, ?_⟩
      rw [after_add, after_one hon]
      exact hend

/-- **`vsync` rises** on line 310 if it is low there, and one frame later if not. -/
theorem exists_rise {s : Video} (hon : s.toie1 = true) : ∃ n, Rises (after s n) := by
  obtain ⟨n, -, hon', hline⟩ := exists_line hon
  have hnext : (after s (n + 1)).toie1 = true ∧ (after s (n + 1)).scanline = 311 := by
    rw [after_add, after_one hon']
    refine ⟨hon', ?_⟩
    rw [scanline_timer1Ovf, nextLine, hline]
    rfl
  obtain ⟨m, t, hscan, honEnd, hlineEnd, hlowEnd⟩ := exists_scans hnext.1 hnext.2
  refine ⟨n + 1 + m, ?_⟩
  rw [after_add, hscan.after_eq]
  exact (rises_iff t).mpr ⟨honEnd, hlowEnd, hlineEnd⟩

theorem Rises.exists_next {s : Video} (h : Rises s) :
    ∃ n, (∀ k < n, ¬ Rises (after s (1 + k))) ∧ Rises (after s (1 + n)) := by
  obtain ⟨hon, -, -⟩ := (rises_iff s).mp h
  have hlater : ∃ n, Rises (after s (1 + n)) := by
    obtain ⟨n, hn⟩ := @exists_rise (after s 1) (by rw [after_one hon]; exact hon)
    exact ⟨n, by rw [after_add]; exact hn⟩
  -- the first of them
  exact ⟨Nat.find hlater, fun k hk => Nat.find_min hlater hk, Nat.find_spec hlater⟩

/-- **Between two rises** every row is read once, in order. -/
theorem reads_between {s : Video} {n : ℕ} (hfirst : Rises s)
    (hnone : ∀ k < n, ¬ Rises (after s (1 + k))) (hlast : Rises (after s (1 + n))) :
    reads (after s 1) n = rows := by
  obtain ⟨hon, hlow, hline⟩ := (rises_iff s).mp hfirst
  have hnext : (after s 1).scanline = 311 := by
    rw [after_one hon, scanline_timer1Ovf, nextLine, hline]
    rfl
  have hon' : (after s 1).toie1 = true := by
    rw [after_one hon]
    exact hon
  obtain ⟨m, t, hscan, honEnd, hlineEnd, hlowEnd⟩ := exists_scans hon' hnext
  have hrise : Rises (after s (1 + m)) := by
    rw [after_add, hscan.after_eq]
    exact (rises_iff t).mpr ⟨honEnd, hlowEnd, hlineEnd⟩
  have hnm : n = m := by
    rcases lt_trichotomy n m with hlt | heq | hgt
    · have h310 := ((rises_iff _).mp hlast).2.2
      rw [after_add] at h310
      exact absurd h310 (hscan.ne n hlt)
    · exact heq
    · exact absurd hrise (hnone m hgt)
  rw [hnm]
  exact hscan.reads_eq

/-- **The picture**, in every interleaving of the interrupt with the calls: a line reads
one of the rows, with `vsync` low and low at the end of the six lines before; `vsync` rises
if the interrupt is left enabled, and it rises again; and from one rise of it to the next,
with nothing but the interrupt in between, the rows are read from the first to the last. -/
theorem scan_out (events : List Event) :
    (∀ before line later, lines reset events = before ++ line :: later → Safe before line) ∧
      let s := (feed step reset events).2
      (s.toie1 = true → ∃ n, Rises (after s n)) ∧
        (Rises s → ∃ n, (∀ k < n, ¬ Rises (after s (1 + k))) ∧ Rises (after s (1 + n))) ∧
        ∀ n, Rises s → (∀ k < n, ¬ Rises (after s (1 + k))) → Rises (after s (1 + n)) →
          reads (after s 1) (n + 1) = rows := by
  refine ⟨fun before line later hlines => inv_reset.run hlines, ?_⟩
  intro s
  refine ⟨exists_rise, Rises.exists_next, fun n hfirst hnone hlast => ?_⟩
  -- the line of the rise reads nothing
  obtain ⟨hon, -, hline⟩ := (rises_iff _).mp hlast
  rw [after_add] at hon hline
  have hrise : reads (after (after s 1) n) 1 = [] := by
    have hstep : step (after (after s 1) n) .tick
        = (some (timer1Ovf (after (after s 1) n)).1, (timer1Ovf (after (after s 1) n)).2) :=
      if_pos hon
    have hread : (timer1Ovf (after (after s 1) n)).1.read = readAt 310 := congrArg readAt hline
    rw [reads, lines, List.replicate_one, feed_cons, hstep, List.reduceOption_cons_of_some,
      List.filterMap_cons, hread]
    rfl
  rw [reads_add, reads_between hfirst hnone hlast, hrise, List.append_nil]

/-- The first frame behind `video_on`. -/
theorem scan_out_first :
    let s := (feed step reset (.on :: List.replicate 4 .main)).2
    ∃ n, Rises s ∧ Rises (after s (1 + n)) ∧ reads (after s 1) (n + 1) = rows := by
  intro s
  have hfirst : Rises s := by decide
  obtain ⟨-, -, hnext, hreads⟩ := scan_out (.on :: List.replicate 4 .main)
  obtain ⟨n, hnone, hlast⟩ := hnext hfirst
  exact ⟨n, hfirst, hlast, hreads n hfirst hnone hlast⟩

end ScanOut

end Dan64
