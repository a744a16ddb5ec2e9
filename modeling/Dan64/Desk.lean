/-
Dan64/Desk.lean

The shell without its screen.

A `Desk` has the line that is typed, two addresses and the memory behind the screen, and
nothing else: `poke` and `as` change the memory, `run`, `load` and `save` are called.  What
the keys do to a shell is what they do to its desk (`Behind.key`), whatever is on the
screen and wherever the cursor is, as long as no key leads off the screen (`desk_refines`).
-/
import Dan64.ShellCopy

namespace Dan64

open BlockMem CText Mealy Terminal

/-- The shell, as far as what is drawn does not matter. -/
inductive Desk
  | waits (prompt : Prompt) (poke as : Word) (line : Line Byte) (m : Word → Byte)
  | calls (call : Call) (m : Word → Byte)

namespace Desk

variable (past : OpRow)

/-- The memory behind the screen. -/
def mem : Desk → Word → Byte
  | .waits _ _ _ _ m => m
  | .calls _ m => m

/-- A line is asked for. -/
def ask (prompt : Prompt) (poke as : Word) (m : Word → Byte) : Desk :=
  .waits prompt poke as .empty m

/-- A command.  What `peek` and `list` print is left open: they may read the screen. -/
def command (poke as : Word) (m : Word → Byte) (line : Text) : Option Text × Desk :=
  if line = [] then (some [], ask .command poke as m)
  else
    match dispatch line with
    | none => (some textErrCmd, ask .command poke as m)
    | some .cmdRun => (some [], .calls .cmdRun m)
    | some .cmdLoad => (some [], .calls .cmdLoad m)
    | some .cmdSave =>
      match cmdSave line with
      | .error text => (some text, ask .command poke as m)
      | .ok (startAddr, endAddr) => (some [], .calls (.save startAddr endAddr) m)
    | some .cmdCls => (some [], ask .command poke as m)
    | some .cmdHelp => (some textCmdHelp, ask .command poke as m)
    | some .cmdPeek => (none, ask .command poke as m)
    | some .cmdList => (none, ask .command poke as m)
    | some .cmdPoke =>
      match Shell.parameter 4 line poke with
      | .error text => (some text, ask .command poke as m)
      | .ok addr => (some (Shell.addrText addr), ask .cmdPoke addr as m)
    | some .cmdAs =>
      match Shell.parameter 2 line as with
      | .error text => (some text, ask .command poke as m)
      | .ok addr => (some (Shell.addrText addr), ask .cmdAs poke addr m)

/-- A number for `poke`. -/
def poked (poke as : Word) (m : Word → Byte) (line : Text) : Option Text × Desk :=
  match if line = [] then none else sscanfHex line with
  | none => (some [], ask .command poke as m)
  | some v =>
    (some [], ask .command (poke + 1) as (writeBlock m poke [(BitVec.ofInt 16 v).setWidth 8]))

/-- A line for `as`. -/
def assembled (poke as : Word) (m : Word → Byte) (line : Text) : Option Text × Desk :=
  if line = [] then (some [], ask .command poke as m)
  else
    let r := dasmAs past as line
    match r.ret with
    | .ok opLen =>
      if 0 < opLen then
        (some textErrOk,
          ask .command poke (as + BitVec.ofNat 16 opLen) (writeBlock m as (r.out.take opLen)))
      else (some Dan64.textErrSyntax, ask .command poke as m)
    | .error _ => (some Dan64.textErrSyntax, ask .command poke as m)

/-- A line is entered. -/
def enter : Prompt → Word → Word → (Word → Byte) → Text → Option Text × Desk
  | .command => command
  | .cmdPoke => poked
  | .cmdAs => assembled past

/-- A key edits the line, or enters it. -/
def key : Desk → Byte → Option Text × Desk
  | .waits prompt poke as line m, d =>
    match (Typed.editing line).nextBefore (prompt.size.toNat - 1) d with
    | .editing line => (some [], .waits prompt poke as line m)
    | .entered text => enter past prompt poke as m (text.map fun b => Char.ofNat b.toNat)
  | desk, _ => (some [], desk)

end Desk

namespace Shell

variable {R : Type} {font : ℕ → Byte} {past : OpRow}

/-- The key leaves the cursor on the screen. -/
def Safe : Shell R → Byte → Prop
  | .waits _ _ _ e, d => e.Safe d
  | .calls _ _ _, _ => True

instance (sh : Shell R) : DecidablePred sh.Safe := fun d =>
  match sh with
  | .waits _ _ _ e => inferInstanceAs (Decidable (e.Safe d))
  | .calls _ _ _ => inferInstanceAs (Decidable True)

/-- The state behind a key. -/
def next (font : ℕ → Byte) (past : OpRow) (sh : Shell R) (d : Byte) : Shell R :=
  (key font past sh d).2

/-- A shell in order, and its desk. -/
inductive Behind : Shell R → Desk → Prop
  | waits {prompt : Prompt} {statics : Statics} {k : Kernel R} {e : Editor} {buffer : ℕ → Byte}
      {m : Word → Byte} : e.Good → e.Bounded prompt.size buffer →
      Keeps m { k with term := e.term } →
      Behind (.waits prompt statics k e) (.waits prompt statics.poke statics.as e.line m)
  | calls {call : Call} {statics : Statics} {k : Kernel R} {m : Word → Byte} : Keeps m k →
      Behind (.calls call statics k) (.calls call m)

/-- An answer, and what is known of it. -/
def Answers (a : Text × Shell R) (b : Option Text × Desk) : Prop :=
  (∀ text, b.1 = some text → a.1 = text) ∧ Behind a.2 b.2

/-- What is printed is left open. -/
theorem answers_open {a : Text × Shell R} {desk : Desk} (h : Behind a.2 desk) :
    Answers a (none, desk) := by
  refine ⟨?_, h⟩
  rintro _ ⟨⟩

/-! ### The commands -/

section Commands

variable {m : Word → Byte} {k : Kernel R} {statics : Statics}

theorem behind_ask (hk : Keeps m k) (prompt : Prompt) (statics : Statics) :
    Behind (ask prompt statics k) (Desk.ask prompt statics.poke statics.as m) := by
  have hsize : 1 ≤ prompt.size.toNat ∧ prompt.size.toNat ≤ 64 := by
    cases prompt <;> decide
  have htyping := @Typing.start R k prompt.size hk.onScreen hsize.1 hsize.2
  exact .waits htyping.good ⟨rfl, le_rfl, hsize.1, fun _ _ => rfl⟩ ⟨hk.onScreen, hk.sram⟩

theorem answers_say (hk : Keeps m k) (statics : Statics) (text : Text) :
    Answers (say font statics k text)
      (some text, Desk.ask .command statics.poke statics.as m) := by
  refine ⟨?_, behind_ask (hk.putText text 0) .command statics⟩
  rintro _ ⟨⟩
  rfl

theorem answers_nil (hk : Keeps m k) (statics : Statics) :
    Answers ([], ask .command statics k)
      (some [], Desk.ask .command statics.poke statics.as m) := by
  refine ⟨?_, behind_ask hk .command statics⟩
  rintro _ ⟨⟩
  rfl

/-- Rows are printed. -/
theorem Keeps.printRows (size : ℕ) (head : Word → Text) (text : Word → List Byte → Text)
    (next : Word → List Byte → Word) (n : ℕ) (hk : Keeps m k) (a : Word) :
    Keeps m (Shell.printRows font size head text next n k a).2.1 := by
  induction n generalizing k a with
  | zero => exact hk
  | succ n ih => exact ih ((hk.putString font _).putString font _) _

theorem Keeps.fillScreen (hk : Keeps m k) (c : Byte) :
    Keeps m { k with term := (k.term.fillScreen font c).2 } :=
  hk.draw (logs_fillScreen k.term c) (hk.onScreen.fillScreen c) k.buffer

/-- **A command** does the same to the desk. -/
theorem answers_command (past : OpRow) (hk : Keeps m k) (statics : Statics) (line : Text) :
    Answers (command font past statics k line)
      (Desk.command statics.poke statics.as m line) := by
  rw [command, Desk.command]
  by_cases hline : line = []
  · rw [if_pos hline, if_pos hline]
    exact answers_nil hk statics
  rw [if_neg hline, if_neg hline]
  rcases dispatch line with - | exec
  · exact answers_say hk statics textErrCmd
  cases exec
  case cmdRun | cmdLoad =>
    refine ⟨?_, .calls hk⟩
    rintro _ ⟨⟩
    rfl
  case cmdSave =>
    dsimp only
    rcases cmdSave line with text | ⟨startAddr, endAddr⟩
    · exact answers_say hk statics text
    · refine ⟨?_, .calls hk⟩
      rintro _ ⟨⟩
      rfl
  case cmdCls => exact answers_nil (hk.fillScreen 0x20) statics
  case cmdHelp => exact answers_say hk statics textCmdHelp
  case cmdPeek =>
    dsimp only
    rcases parameter 4 line statics.peek with text | addr
    · exact answers_open (answers_say hk statics text).2
    · have hkeeps : Keeps m (cmdPeek font k addr).2.1 :=
        hk.printRows 6 (fun _ => []) peekText (fun _ _ => 6) 8 addr
      exact answers_open
        (behind_ask hkeeps .command { statics with peek := (cmdPeek font k addr).2.2 })
  case cmdList =>
    dsimp only
    rcases parameter 4 line statics.list with text | addr
    · exact answers_open (answers_say hk statics text).2
    · have hkeeps : Keeps m (cmdList font past k addr).2.1 :=
        hk.printRows 3 addrText (opText past) (listLen past) 12 addr
      exact answers_open
        (behind_ask hkeeps .command { statics with list := (cmdList font past k addr).2.2 })
  case cmdPoke =>
    dsimp only
    rcases parameter 4 line statics.poke with text | addr
    · exact answers_say hk statics text
    · refine ⟨?_, behind_ask (hk.putString font _) .cmdPoke { statics with poke := addr }⟩
      rintro _ ⟨⟩
      rfl
  case cmdAs =>
    dsimp only
    rcases parameter 2 line statics.as with text | addr
    · exact answers_say hk statics text
    · refine ⟨?_, behind_ask (hk.putString font _) .cmdAs { statics with as := addr }⟩
      rintro _ ⟨⟩
      rfl

theorem answers_poked (hk : Keeps m k) (statics : Statics) (line : Text) :
    Answers (poked statics k line) (Desk.poked statics.poke statics.as m line) := by
  rw [poked, Desk.poked]
  by_cases hline : line = []
  · rw [if_pos hline, if_pos hline]
    exact answers_nil hk statics
  rw [if_neg hline, if_neg hline]
  rcases sscanfHex line with - | v
  · exact answers_nil hk statics
  · exact answers_nil (hk.sramWrite statics.poke _) { statics with poke := statics.poke + 1 }

theorem answers_assembled (past : OpRow) (hk : Keeps m k) (statics : Statics) (line : Text) :
    Answers (assembled font past statics k line)
      (Desk.assembled past statics.poke statics.as m line) := by
  rw [assembled, Desk.assembled]
  by_cases hline : line = []
  · rw [if_pos hline, if_pos hline]
    exact answers_nil hk statics
  rw [if_neg hline, if_neg hline]
  rcases dasmAs past statics.as line with ⟨e | opLen, out⟩
  · exact answers_say hk statics _
  · dsimp only
    split
    · exact answers_say (hk.sramWrite statics.as _)
        { statics with as := statics.as + BitVec.ofNat 16 opLen } textErrOk
    · exact answers_say hk statics _

theorem answers_enter (past : OpRow) (prompt : Prompt) (hk : Keeps m k) (statics : Statics)
    (line : Text) : Answers (enter font past prompt statics k line)
      (Desk.enter past prompt statics.poke statics.as m line) := by
  cases prompt
  case command => exact answers_command past hk statics line
  case cmdPoke => exact answers_poked hk statics line
  case cmdAs => exact answers_assembled past hk statics line

end Commands

/-! ### The keys -/

/-- **Step.**  A key does the same to the desk. -/
theorem Behind.key {sh : Shell R} {desk : Desk} (h : Behind sh desk) {d : Byte}
    (hsafe : sh.Safe d) : Answers (Shell.key font past sh d) (desk.key past d) := by
  cases h with
  | calls hk =>
    refine ⟨?_, .calls hk⟩
    rintro _ ⟨⟩
    rfl
  | @waits prompt statics k e buffer m hgood hbounded hkeeps =>
    have hgood' := @Editor.Good.key font e hgood d hsafe
    have hlogs := @Editor.logs_key font e d
    by_cases hd : d = 0x0a
    · subst hd
      -- the text is read off the buffer
      have htext : e.line.text.map (fun b => Char.ofNat b.toNat)
          = (List.range e.end_.toNat).map fun i =>
            Char.ofNat (Function.update e.buffer e.end_.toNat 0 i).toNat := by
        rw [Editor.line, Line.text_ofArray _ hbounded.pos, List.map_map]
        refine List.map_congr_left fun i hi => ?_
        rw [Function.update_of_ne (List.mem_range.mp hi).ne]
        rfl
      have hentered := @answers_enter R font m _ past prompt
        (hkeeps.draw hlogs hgood' (Function.update e.buffer e.end_.toNat 0)) statics
        (e.line.text.map fun b => Char.ofNat b.toNat)
      rw [htext] at hentered
      rw [Desk.key, show (Typed.editing e.line).nextBefore _ 0x0a = .entered e.line.text from rfl]
      dsimp only
      rw [htext]
      exact hentered
    · obtain ⟨e', he', hline⟩ := @Editor.key_line font prompt.size buffer e hbounded d hd
      have hbounded' := @Editor.Bounded.key font prompt.size buffer e hbounded d
      rw [he'] at hgood' hlogs hbounded'
      rw [Shell.key, Desk.key, he', hline]
      refine ⟨?_, .waits hgood' hbounded' (hkeeps.draw hlogs hgood'.onScreen k.buffer)⟩
      rintro _ ⟨⟩
      rfl

/-- **Run.** -/
theorem Behind.feed {sh : Shell R} {desk : Desk} (h : Behind sh desk) {keys : List Byte}
    (hsafe : Along (next font past) Safe sh keys) :
    Behind (Mealy.feed (Shell.key font past) sh keys).2 (Mealy.feed (Desk.key past) desk keys).2 ∧
      List.Forall₂ (fun out known => ∀ text, known = some text → out = text)
        (Mealy.feed (Shell.key font past) sh keys).1 (Mealy.feed (Desk.key past) desk keys).1 := by
  induction keys generalizing sh desk with
  | nil => exact ⟨h, .nil⟩
  | cons d keys ih =>
    obtain ⟨hout, hnext⟩ := @Behind.key R font past sh desk h d hsafe.1
    obtain ⟨hend, hrest⟩ := ih hnext hsafe.2
    exact ⟨hend, .cons hout hrest⟩

theorem Behind.sram {sh : Shell R} {desk : Desk} (h : Behind sh desk) {x : Word}
    (hx : PROG_START ≤ x) : sh.sram x = desk.mem x := by
  cases h with
  | waits _ _ hk => exact hk.sram x hx
  | calls hk => exact hk.sram x hx

/-- **The keys alone decide.**  From a shell that waits for a command, whatever is on its
screen, as long as no key leads off the screen: what is behind the screen, what is called and
what is answered are what the desk says. -/
theorem desk_refines (font : ℕ → Byte) (past : OpRow) {statics : Statics} {m : Word → Byte}
    {sh : Shell R} (h : Holds statics m sh) {keys : List Byte}
    (hsafe : Along (next font past) Safe sh keys) :
    let r := Mealy.feed (key font past) sh keys
    let desk := Mealy.feed (Desk.key past) (Desk.ask .command statics.poke statics.as m) keys
    Behind r.2 desk.2 ∧ (∀ x, PROG_START ≤ x → r.2.sram x = desk.2.mem x) ∧
      List.Forall₂ (fun out known => ∀ text, known = some text → out = text) r.1 desk.1 := by
  intro r desk
  obtain ⟨k, hk, rfl⟩ := h
  obtain ⟨hbehind, houts⟩ := (behind_ask hk .command statics).feed hsafe
  exact ⟨hbehind, fun x hx => hbehind.sram hx, houts⟩

/-- Two characters, the first of them erased. -/
theorem desk_refines_two :
    let k : Kernel Unit := ⟨fun _ => 0, ⟨0, 0, false, fun _ => 0, []⟩, fun _ => 0, false, ()⟩
    let keys : List Byte := [0x79, 0x78, 0x11, 0x08, 0x0a]
    let r := Mealy.feed (key (fun _ => 0) zeroRow) (ask .command ⟨0, 0, 0, 0⟩ k) keys
    let desk := Mealy.feed (Desk.key zeroRow) (Desk.ask .command 0 0 fun _ => 0) keys
    ∀ x, PROG_START ≤ x → r.2.sram x = desk.2.mem x :=
  let k : Kernel Unit := ⟨fun _ => 0, ⟨0, 0, false, fun _ => 0, []⟩, fun _ => 0, false, ()⟩
  (desk_refines (fun _ => 0) zeroRow
    ⟨k, ⟨⟨Nat.zero_le _, Nat.zero_le _, List.forall_mem_nil _⟩, fun _ _ => rfl⟩, rfl⟩
    (by decide +kernel)).2.1

end Shell

end Dan64
