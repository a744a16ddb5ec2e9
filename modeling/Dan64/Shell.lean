/-
Dan64/Shell.lean

The shell: the loop of `main` in `init/main.c`, key by key.

A line is typed into `buffered_input` and dispatched; `poke` and `as` ask for another.  The
commands keep their addresses from one call to the next.  `run`, `load` and `save` are
called and take over.  What a step puts out is the text printed.

Behind the screen the shell is a memory and four addresses (`Holds`).  Whatever is drawn,
what is typed prints a text and takes it from one memory and addresses to another
(`Dialog`): `dialog_peek`, `dialog_list`, `dialog_poke`, `dialog_as`.
-/
import Dan64.CallFrame
import Dan64.EditorText
import Dan64.SaveCommand

namespace Dan64

open BlockMem CText Mealy Terminal

/-! ### Commands -/

def textErrSyntax : Text := "ERR: SYNTAX\n".toList

def textCmdHelp : Text :=
  (" LOAD, SAVE [addr [addr]], RUN\n LIST [addr], AS [addr]\n" ++
    " PEEK [addr], POKE [addr],\n CLS, HELP\n").toList

/-- The static addresses of `cmd_peek`, `cmd_poke`, `cmd_list` and `cmd_as`. -/
structure Statics where
  peek : Word
  poke : Word
  list : Word
  as : Word

/-- What `buffered_input` is called for. -/
inductive Prompt
  | command
  | cmdPoke
  | cmdAs

def Prompt.size : Prompt → Byte
  | .command => 64
  | .cmdPoke => 3
  | .cmdAs => 32

/-- A function that takes over. -/
inductive Call
  | cmdRun
  | cmdLoad
  | save (startAddr endAddr : Word)

/-- The shell waits for a key, or has called a function. -/
inductive Shell (R : Type)
  | waits (prompt : Prompt) (statics : Statics) (k : Kernel R) (e : Editor)
  | calls (call : Call) (statics : Statics) (k : Kernel R)

namespace Shell

variable {R : Type} (font : ℕ → Byte) (past : OpRow)

/-- `put_string`, with the formatted text. -/
def putString (k : Kernel R) (text : Text) : Kernel R := (chars text).foldl (Kernel.putChar font) k

/-- `sram_read` -/
def sramRead (k : Kernel R) (addr : Word) (size : ℕ) : List Byte := k.fw.sramRead addr size

/-- `sram_write` -/
def sramWrite (k : Kernel R) (addr : Word) (data : List Byte) : Kernel R :=
  k.withFw (k.fw.sramWrite addr data)

/-- How the four commands with an address begin: an error is printed, or the address is
the one to go on with. -/
def parameter (n : ℕ) (buffer : Text) (addr : Word) : Except Text Word :=
  if ¬ AtSpace (buffer.drop n) then .error textErrCmd
  else
    let (pt, addr) := getParam (buffer.drop n) addr
    if pt < 0 then .error textErrAddr else .ok addr

/-- `" %04x: "`, in front of a line that is asked for. -/
def addrText (addr : Word) : Text := ' ' :: (sprintfHex 4 addr.toNat ++ [':', ' '])

/-- A byte as `"%c"` prints it; a zero ends the text. -/
def charText (b : Byte) : Text :=
  if b = 0x09 ∨ b = 0x0a then ['.'] else if b = 0 then [] else [Char.ofNat b.toNat]

/-- A line of `cmd_peek` from its six bytes. -/
def peekText (addr : Word) (data : List Byte) : Text :=
  ' ' :: (sprintfHex 4 addr.toNat ++ ':' :: (data.flatMap (fun b => ' ' :: sprintfHex 2 b.toNat) ++
    ' ' :: (data.flatMap charText ++ ['\n'])))

/-- The columns for the bytes of an instruction. -/
def byteColumns (op : List Byte) (opLen : ℕ) : Text :=
  (List.range 3).flatMap fun i =>
    if i < opLen then sprintfHex 2 (op.getD i 0).toNat else [' ', ' ']

/-- What `cmd_list` prints of its three bytes. -/
def opText (addr : Word) (op : List Byte) : Text :=
  let (out, opLen) := dasmDas past addr (op.getD 0 0) (op.getD 1 0) (op.getD 2 0)
  byteColumns op opLen ++ (' ' :: ' ' :: ' ' :: (out ++ ['\n']))

/-- A line of `cmd_list`. -/
def listText (addr : Word) (op : List Byte) : Text := addrText addr ++ opText past addr op

/-- How far a line of `cmd_list` goes. -/
def listLen (addr : Word) (op : List Byte) : Word :=
  BitVec.ofNat 16 (dasmDas past addr (op.getD 0 0) (op.getD 1 0) (op.getD 2 0)).2

/-- A loop that prints, reads, prints what it has read and goes on: a head that is on the
screen before the row is read may change what is read. -/
def printRows (size : ℕ) (head : Word → Text) (text : Word → List Byte → Text)
    (next : Word → List Byte → Word) : ℕ → Kernel R → Word → Text × Kernel R × Word
  | 0, k, addr => ([], k, addr)
  | n + 1, k, addr =>
    let k := putString font k (head addr)
    let data := sramRead k addr size
    let (rows, r) := printRows size head text next n (putString font k (text addr data))
      (addr + next addr data)
    (head addr ++ (text addr data ++ rows), r)

/-- `cmd_peek`, from the address on. -/
def cmdPeek (k : Kernel R) (addr : Word) : Text × Kernel R × Word :=
  printRows font 6 (fun _ => []) peekText (fun _ _ => 6) 8 k addr

/-- `cmd_list`, from the address on. -/
def cmdList (k : Kernel R) (addr : Word) : Text × Kernel R × Word :=
  printRows font 3 addrText (opText past) (listLen past) 12 k addr

/-! ### The loop -/

/-- `buffered_input` is called. -/
def ask (prompt : Prompt) (statics : Statics) (k : Kernel R) : Shell R :=
  .waits prompt statics k ⟨k.term, k.buffer, prompt.size, 0, 0, 0⟩

/-- A text from `strings.h` is printed, and the loop goes on. -/
def say (statics : Statics) (k : Kernel R) (text : Text) : Text × Shell R :=
  (text, ask .command statics (k.putText font text 0))

/-- A line for the loop of `main`. -/
def command (statics : Statics) (k : Kernel R) (line : Text) : Text × Shell R :=
  if line = [] then ([], ask .command statics k)
  else
    match dispatch line with
    | none => say font statics k textErrCmd
    | some .cmdRun => ([], .calls .cmdRun statics k)
    | some .cmdLoad => ([], .calls .cmdLoad statics k)
    | some .cmdSave =>
      match cmdSave line with
      | .error text => say font statics k text
      | .ok (startAddr, endAddr) => ([], .calls (.save startAddr endAddr) statics k)
    | some .cmdCls =>
      ([], ask .command statics { k with term := (k.term.fillScreen font 0x20).2 })
    | some .cmdHelp => say font statics k textCmdHelp
    | some .cmdPeek =>
      match parameter 4 line statics.peek with
      | .error text => say font statics k text
      | .ok addr =>
        let (rows, k, addr) := cmdPeek font k addr
        (rows, ask .command { statics with peek := addr } k)
    | some .cmdList =>
      match parameter 4 line statics.list with
      | .error text => say font statics k text
      | .ok addr =>
        let (rows, k, addr) := cmdList font past k addr
        (rows, ask .command { statics with list := addr } k)
    | some .cmdPoke =>
      match parameter 4 line statics.poke with
      | .error text => say font statics k text
      | .ok addr =>
        (addrText addr,
          ask .cmdPoke { statics with poke := addr } (putString font k (addrText addr)))
    | some .cmdAs =>
      match parameter 2 line statics.as with
      | .error text => say font statics k text
      | .ok addr =>
        (addrText addr, ask .cmdAs { statics with as := addr } (putString font k (addrText addr)))

/-- What `cmd_poke` does with the line it asked for. -/
def poked (statics : Statics) (k : Kernel R) (line : Text) : Text × Shell R :=
  if line = [] then ([], ask .command statics k)
  else
    match sscanfHex line with
    | none => ([], ask .command statics k)
    | some v =>
      ([], ask .command { statics with poke := statics.poke + 1 }
        (sramWrite k statics.poke [(BitVec.ofInt 16 v).setWidth 8]))

/-- What `cmd_as` does with the line it asked for. -/
def assembled (statics : Statics) (k : Kernel R) (line : Text) : Text × Shell R :=
  if line = [] then ([], ask .command statics k)
  else
    let r := dasmAs past statics.as line
    match r.ret with
    | .ok opLen =>
      if 0 < opLen then
        say font { statics with as := statics.as + BitVec.ofNat 16 opLen }
          (sramWrite k statics.as (r.out.take opLen)) textErrOk
      else say font statics k textErrSyntax
    -- a line of 31 characters is never too long for `dasm_as`
    | .error _ => say font statics k textErrSyntax

/-- A line is entered. -/
def enter : Prompt → Statics → Kernel R → Text → Text × Shell R
  | .command => command font past
  | .cmdPoke => poked
  | .cmdAs => assembled font past

/-- One turn of the loop of `buffered_input`, and what follows if it returns. -/
def key : Shell R → Byte → Text × Shell R
  | .waits prompt statics k e, d =>
    match e.key font d with
    | .editing e => ([], .waits prompt statics k e)
    | .idle t buffer ret =>
      enter font past prompt statics { k with term := t, buffer := buffer }
        ((List.range ret.toNat).map fun i => Char.ofNat (buffer i).toNat)
  | sh, _ => ([], sh)

end Shell

/-! ### Typing a line -/

/-- Characters that `buffered_input` takes. -/
def Typable (line : Text) : Prop := ∀ c ∈ line, 0x20 ≤ c.toNat ∧ c.toNat < 0x7f

instance : DecidablePred Typable := fun line =>
  List.decidableBAll (fun c : Char => 0x20 ≤ c.toNat ∧ c.toNat < 0x7f) line

@[simp] theorem typable_nil : Typable [] := List.forall_mem_nil _

@[simp] theorem typable_cons {c : Char} {s : Text} :
    Typable (c :: s) ↔ (0x20 ≤ c.toNat ∧ c.toNat < 0x7f) ∧ Typable s := List.forall_mem_cons

@[simp] theorem typable_append {s t : Text} : Typable (s ++ t) ↔ Typable s ∧ Typable t :=
  List.forall_mem_append

namespace Shell

variable {R : Type} {font : ℕ → Byte} {past : OpRow}

/-- The kernel, with its screen in order and a memory behind it. -/
structure Keeps (m : Word → Byte) (k : Kernel R) : Prop where
  onScreen : k.term.OnScreen
  sram : ∀ a, PROG_START ≤ a → k.term.sram a = m a

/-- The shell waits for a command. -/
def Holds (statics : Statics) (m : Word → Byte) (sh : Shell R) : Prop :=
  ∃ k, Keeps m k ∧ sh = ask .command statics k

variable {m : Word → Byte} {k : Kernel R}

/-- Nothing drawn on the screen reaches the memory behind it. -/
theorem Keeps.draw (h : Keeps m k) {t : Terminal} (hlogs : Logs k.term t) (ht : t.OnScreen)
    (buffer : ℕ → Byte) : Keeps m { k with term := t, buffer := buffer } where
  onScreen := ht
  sram a ha := by
    refine (hlogs.frame a fun hstore => ?_).trans (h.sram a ha)
    have hbounds : 0x0200 ≤ a.toNat ∧ a.toNat ≤ 0x19ff := ht.log _ hstore
    have ha : 0x1a00 ≤ a.toNat := ha
    omega

theorem Keeps.putChar (h : Keeps m k) (c : Byte) : Keeps m (k.putChar font c) :=
  h.draw (logs_putChar k.term c) (h.onScreen.putChar c) k.buffer

theorem Keeps.foldl_putChar (h : Keeps m k) (cs : List Byte) :
    Keeps m (cs.foldl (Kernel.putChar font) k) :=
  List.foldlRecOn cs _ h fun _ hk c _ => hk.putChar c

theorem Keeps.putString (h : Keeps m k) (font : ℕ → Byte) (text : Text) :
    Keeps m (Shell.putString font k text) :=
  h.foldl_putChar _

theorem Keeps.putText (h : Keeps m k) (text : Text) (n : ℕ) : Keeps m (k.putText font text n) :=
  (h.draw (.refl k.term) h.onScreen _).foldl_putChar _

/-- A store behind the screen, or anywhere. -/
theorem Keeps.sramWrite (h : Keeps m k) (addr : Word) (data : List Byte) :
    Keeps (writeBlock m addr data) (sramWrite k addr data) where
  onScreen := ⟨h.onScreen.x, h.onScreen.y, h.onScreen.log⟩
  sram a ha := writeBlock_congr (h.sram a ha) addr data

@[simp] theorem chars_append (s t : Text) : chars (s ++ t) = chars s ++ chars t := List.map_append

/-- The editor while characters are typed at the end of the line. -/
structure Typing (k : Kernel R) (size : Byte) (line : Text) (e : Editor) : Prop where
  good : e.Good
  size : e.size = size
  pos : e.pos = e.end_
  line : e.line = ⟨(chars line).reverse, []⟩
  logs : Logs k.term e.term

section Typing

variable {size : Byte} {line : Text} {e : Editor}

theorem Typing.start (hk : k.term.OnScreen) (hpos : 1 ≤ size.toNat) (hsize : size.toNat ≤ 64) :
    Typing k size [] ⟨k.term, k.buffer, size, 0, 0, 0⟩ where
  good := ⟨hk, hsize, le_rfl, hpos, Nat.zero_le _, hk.cell_lt.le⟩
  size := rfl
  pos := rfl
  line := rfl
  logs := .refl k.term

theorem Typing.length (h : Typing k size line e) : e.end_.toNat = line.length := by
  have hlen := Line.length_text_ofArray e.buffer h.good.fits.pos_le
  have hline : Line.ofArray e.buffer e.pos.toNat e.end_.toNat = _ := h.line
  rw [hline] at hlen
  rw [← hlen, Line.text, List.append_nil, List.reverse_reverse, chars, List.length_map]

theorem ordinary_of_typable {c : Char} (hc : 0x20 ≤ c.toNat ∧ c.toNat < 0x7f) :
    Ordinary (BitVec.ofNat 8 c.toNat) := by
  obtain ⟨hge, hlt⟩ := hc
  rw [Ordinary]
  bv_omega

/-- **A character** is put behind the line. -/
theorem Typing.key (font : ℕ → Byte) (h : Typing k size line e) {c : Char}
    (hc : 0x20 ≤ c.toNat ∧ c.toNat < 0x7f) (hroom : line.length + 1 < size.toNat) :
    ∃ e', e.key font (BitVec.ofNat 8 c.toNat) = .editing e' ∧ Typing k size (line ++ [c]) e' := by
  have hord := ordinary_of_typable hc
  have hlen := h.length
  have hguard : ¬ e.cursorOff.end_.toNat + 1 = e.cursorOff.size.toNat := by
    show ¬ e.end_.toNat + 1 = e.size.toNat
    rw [h.size]
    omega
  have hchar : e.keyChar font (BitVec.ofNat 8 c.toNat)
      = e.cursorOff.append font (BitVec.ofNat 8 c.toNat) := by
    rw [Editor.keyChar]
    show (if _ then _ else _) = _
    rw [if_neg hguard]
    exact if_pos h.pos
  refine ⟨_, Editor.key_ordinary hord, ?_⟩
  have hsafe : e.Safe (BitVec.ofNat 8 c.toNat) :=
    ⟨fun hright => absurd hright hord.2.2.1, fun _ _ hne => absurd h.pos hne⟩
  have hgood := @Editor.Good.key font e h.good _ hsafe
  have hlogs := @Editor.logs_key font e (BitVec.ofNat 8 c.toNat)
  rw [Editor.key_ordinary hord] at hgood hlogs
  refine ⟨hgood, ?_, ?_, ?_, h.logs.trans hlogs⟩
  · rw [hchar]
    exact h.size
  · rw [hchar]
    rfl
  · have hend : e.cursorOff.end_.toNat < 255 := by
      have hsize := h.good.fits.size
      have hlt := h.good.fits.end_lt
      show e.end_.toNat < 255
      omega
    rw [hchar, Editor.line_append (show e.cursorOff.pos = e.cursorOff.end_ from h.pos) hend]
    show e.line.insert _ = _
    rw [h.line, chars_append, List.reverse_append]
    rfl

/-- A line is typed. -/
theorem feed_chars (past : OpRow) {prompt : Prompt} {statics : Statics} (hk : k.term.OnScreen)
    (hline : Typable line) (hlen : line.length < prompt.size.toNat) :
    ∃ e, Typing k prompt.size line e ∧ feed (key font past) (ask prompt statics k) (chars line)
      = (List.replicate line.length [], .waits prompt statics k e) := by
  induction line using List.reverseRecOn with
  | nil =>
    refine ⟨_, .start hk ?_ ?_, rfl⟩
    · cases prompt <;> decide
    · cases prompt <;> decide
  | append_singleton line c ih =>
    rw [List.length_append, List.length_singleton] at hlen
    obtain ⟨e, htyping, hfeed⟩ := ih (fun d hd => hline d (List.mem_append_left _ hd)) (by omega)
    obtain ⟨e', hkey, htyping'⟩ := htyping.key font (hline c (by simp)) hlen
    refine ⟨e', htyping', ?_⟩
    have hchars : chars (line ++ [c]) = chars line ++ [BitVec.ofNat 8 c.toNat] := chars_append _ _
    have hstep : key font past (.waits prompt statics k e) (BitVec.ofNat 8 c.toNat)
        = ([], .waits prompt statics k e') := by
      rw [key, hkey]
    rw [hchars, feed_append, hfeed, feed_cons, hstep, feed_nil, List.length_append,
      List.replicate_add]
    rfl

/-- The characters of the line are read back from the buffer. -/
theorem Typing.text (h : Typing k size line e) (hline : Typable line) (b : Byte) :
    ((List.range e.end_.toNat).map fun i =>
      Char.ofNat (Function.update e.buffer e.end_.toNat b i).toNat) = line := by
  have htext := Line.text_ofArray e.buffer h.good.fits.pos_le
  have heq : Line.ofArray e.buffer e.pos.toNat e.end_.toNat = _ := h.line
  rw [heq, Line.text, List.append_nil, List.reverse_reverse] at htext
  have hchars : (chars line).map (fun b => Char.ofNat b.toNat) = line := by
    rw [chars, List.map_map]
    refine (List.map_congr_left fun c hc => ?_).trans (List.map_id line)
    have hlt := (hline c hc).2
    show Char.ofNat (BitVec.ofNat 8 c.toNat).toNat = c
    rw [BitVec.toNat_ofNat, Nat.mod_eq_of_lt (by omega), Char.ofNat_toNat]
  rw [← hchars, htext, List.map_map]
  refine List.map_congr_left fun i hi => ?_
  rw [Function.update_of_ne (List.mem_range.mp hi).ne]
  rfl

/-- A line typed and entered. -/
def typed (line : Text) : List Byte := chars line ++ [0x0a]

/-- **Entering a line** hands it over, with the memory as it was. -/
theorem feed_typed (past : OpRow) (prompt : Prompt) (statics : Statics) (hk : Keeps m k)
    (hline : Typable line) (hlen : line.length < prompt.size.toNat) :
    ∃ k', Keeps m k' ∧ ∃ out, out.flatten = (enter font past prompt statics k' line).1 ∧
      feed (key font past) (ask prompt statics k) (typed line)
        = (out, (enter font past prompt statics k' line).2) := by
  obtain ⟨e, htyping, hfeed⟩ := @feed_chars R font k line past prompt statics hk.onScreen hline hlen
  have hkeeps := hk.draw (htyping.logs.trans ((Editor.logs_cursorOff e).trans (logs_newLine _)))
    htyping.good.cursorOff.onScreen.newLine.1 (Function.update e.buffer e.end_.toNat 0)
  refine ⟨_, hkeeps, ?_⟩
  have hstep : key font past (.waits prompt statics k e) 0x0a
      = enter font past prompt statics _ _ := rfl
  rw [htyping.text hline] at hstep
  rw [typed, feed_append, hfeed, feed_cons, hstep, feed_nil]
  exact ⟨_, by simp, rfl⟩

end Typing

/-! ### Reading behind the screen -/

theorem readBlock_of_keeps (h : Keeps m k) {a : Word} {size : ℕ} (ha : PROG_START ≤ a)
    (hfit : a.toNat + size ≤ 65536) : sramRead k a size = readBlock m a size := by
  show readBlock k.term.sram a size = _
  rw [readBlock_eq_map, readBlock_eq_map]
  refine List.map_congr_left fun i hi => h.sram _ ?_
  have hi := List.mem_range.mp hi
  have ha : 0x1a00 ≤ a.toNat := ha
  show 0x1a00 ≤ (a + BitVec.ofNat 16 i).toNat
  rw [BitVec.toNat_add, BitVec.toNat_ofNat]
  omega

theorem putString_append (k : Kernel R) (s t : Text) :
    putString font (putString font k s) t = putString font k (s ++ t) := by
  rw [putString, putString, putString, chars_append, List.foldl_append]

/-- Where the line behind one begins. -/
def nextRow (m : Word → Byte) (size : ℕ) (next : Word → List Byte → Word) (a : Word) : Word :=
  a + next a (readBlock m a size)

/-- **A loop that prints lines** prints those of the memory behind the screen. -/
theorem printRows_eq (font : ℕ → Byte) {size : ℕ} (head : Word → Text)
    (text : Word → List Byte → Text) {next : Word → List Byte → Word} (n : ℕ) (h : Keeps m k)
    (a : Word) (hread : ∀ b ∈ List.iterate (nextRow m size next) a n,
      PROG_START ≤ b ∧ b.toNat + size ≤ 65536) :
    let rows := (List.iterate (nextRow m size next) a n).flatMap fun b =>
      head b ++ text b (readBlock m b size)
    printRows font size head text next n k a
      = (rows, putString font k rows, (nextRow m size next)^[n] a) := by
  induction n generalizing k a with
  | zero => rfl
  | succ n ih =>
    rw [List.iterate, List.forall_mem_cons] at hread
    obtain ⟨⟨ha, hfit⟩, hrest⟩ := hread
    have hhead := h.putString font (head a)
    have hdata := readBlock_of_keeps hhead ha hfit
    have hrec := ih (hhead.putString font (text a (readBlock m a size))) _ hrest
    intro rows
    rw [printRows, hdata]
    show (_ ++ (_ ++ (printRows font size head text next n _ (nextRow m size next a)).1),
      (printRows font size head text next n _ (nextRow m size next a)).2) = _
    rw [hrec, putString_append, putString_append, ← List.append_assoc]
    rfl

/-! ### Dialogs -/

/-- What is typed makes the shell print a text, and takes it from one memory and addresses
to another. -/
def Dialog (R : Type) (font : ℕ → Byte) (past : OpRow) (s : Statics × (Word → Byte))
    (keys : List Byte) (text : Text) (s' : Statics × (Word → Byte)) : Prop :=
  ∀ sh : Shell R, Holds s.1 s.2 sh →
    (feed (key font past) sh keys).1.flatten = text ∧
      Holds s'.1 s'.2 (feed (key font past) sh keys).2

section Dialog

variable {s s' s'' : Statics × (Word → Byte)}

theorem Dialog.nil : Dialog R font past s [] [] s := fun _ h => ⟨rfl, h⟩

theorem Dialog.append {keys keys' : List Byte} {text text' : Text}
    (h : Dialog R font past s keys text s') (h' : Dialog R font past s' keys' text' s'') :
    Dialog R font past s (keys ++ keys') (text ++ text') s'' := by
  intro sh hsh
  obtain ⟨htext, hs'⟩ := h sh hsh
  obtain ⟨htext', hs''⟩ := h' _ hs'
  rw [feed_append, List.flatten_append, htext, htext']
  exact ⟨rfl, hs''⟩

end Dialog

variable {statics : Statics}

/-- **A command** that does not ask for a line. -/
theorem dialog_command {line text : Text} {s' : Statics × (Word → Byte)} (hline : Typable line)
    (hlen : line.length < 64)
    (h : ∀ k : Kernel R, Keeps m k → (command font past statics k line).1 = text ∧
      Holds s'.1 s'.2 (command font past statics k line).2) :
    Dialog R font past (statics, m) (typed line) text s' := by
  rintro _ ⟨k, hk, rfl⟩
  obtain ⟨k', hk', out, hout, hfeed⟩ := feed_typed past .command statics hk hline hlen
  obtain ⟨htext, hholds⟩ := h k' hk'
  rw [hfeed]
  exact ⟨hout.trans htext, hholds⟩

/-- One that does. -/
theorem dialog_ask (prompt : Prompt) {line line' text text' : Text} (statics' : Statics)
    {s' : Statics × (Word → Byte)} (hline : Typable line) (hlen : line.length < 64)
    (hline' : Typable line') (hlen' : line'.length < prompt.size.toNat)
    (h : ∀ k : Kernel R, Keeps m k → ∃ k', Keeps m k' ∧
      command font past statics k line = (text, ask prompt statics' k'))
    (h' : ∀ k : Kernel R, Keeps m k → (enter font past prompt statics' k line').1 = text' ∧
      Holds s'.1 s'.2 (enter font past prompt statics' k line').2) :
    Dialog R font past (statics, m) (typed line ++ typed line') (text ++ text') s' := by
  rintro _ ⟨k, hk, rfl⟩
  obtain ⟨k₁, hk₁, out, hout, hfeed⟩ := feed_typed past .command statics hk hline hlen
  obtain ⟨k₂, hk₂, hcommand⟩ := h k₁ hk₁
  have henter : enter font past .command statics k₁ line = (text, ask prompt statics' k₂) :=
    hcommand
  rw [henter] at hout hfeed
  obtain ⟨k₃, hk₃, out', hout', hfeed'⟩ := feed_typed past prompt statics' hk₂ hline' hlen'
  obtain ⟨htext, hholds⟩ := h' k₃ hk₃
  rw [feed_append, hfeed]
  dsimp only
  rw [hfeed', List.flatten_append, hout, hout', htext]
  exact ⟨rfl, hholds⟩

/-! ### The commands -/

theorem parameter_none (name : Text) (addr : Word) :
    parameter name.length name addr = .ok addr := by
  have hdrop : name.drop name.length = [] := List.drop_length
  rw [parameter, hdrop]
  rfl

/-- An address in four digits behind a space. -/
def hexArg (a : Word) : Text := ' ' :: sprintfHex 4 a.toNat

theorem parameter_hexArg (name : Text) (a addr : Word) :
    parameter name.length (name ++ hexArg a) addr = .ok a := by
  have hne : sprintfHex 4 a.toNat ≠ [] := by
    rw [← List.length_pos_iff, length_sprintfHex a.isLt]
    decide
  have hparam : Param (hexArg a) a.toNat [] :=
    ⟨[' '], sprintfHex 4 a.toNat, (List.append_nil _).symm, List.cons_ne_nil _ _,
      List.forall_mem_singleton.mpr rfl, hne, isxdigit_sprintfHex 4 _, nofun,
      (numeral_sprintfHex 4 _).symm⟩
  obtain ⟨n, -, hget, -⟩ := getParam_param hparam addr
  have hspace : AtSpace (hexArg a) := fun c hc => (Option.some.inj hc).symm
  have hnonneg : ¬ ((n : ℤ) < 0) := not_lt.mpr (Int.natCast_nonneg n)
  rw [parameter, List.drop_left, if_neg (not_not.mpr hspace), hget]
  simp only [if_neg hnonneg, BitVec.ofNat_toNat, BitVec.setWidth_eq]

theorem typable_hex (w n : ℕ) : Typable (sprintfHex w n) := by
  intro c hc
  have hx := isxdigit_sprintfHex w n c hc
  simp only [isxdigit, isdigit, Bool.or_eq_true, Bool.and_eq_true, decide_eq_true_eq] at hx
  omega

theorem typable_hexArg (a : Word) : Typable (hexArg a) :=
  typable_cons.mpr ⟨by decide, typable_hex 4 a.toNat⟩

theorem length_hexArg (a : Word) : (hexArg a).length = 5 := by
  rw [hexArg, List.length_cons, length_sprintfHex a.isLt]

/-- How a command is typed: with an address, or without. -/
inductive Arg : Text → Word → Word → Prop
  | none (addr : Word) : Arg [] addr addr
  | hex (a addr : Word) : Arg (hexArg a) addr a

theorem Arg.typable {arg : Text} {addr a : Word} (h : Arg arg addr a) : Typable arg := by
  cases h with
  | none => exact typable_nil
  | hex => exact typable_hexArg a

theorem Arg.length {arg : Text} {addr a : Word} (h : Arg arg addr a) : arg.length ≤ 5 := by
  cases h with
  | none => exact Nat.zero_le 5
  | hex => exact (length_hexArg a).le

theorem Arg.parameter {arg : Text} {addr a : Word} (h : Arg arg addr a) (name : Text) :
    Shell.parameter name.length (name ++ arg) addr = .ok a := by
  cases h with
  | none =>
    rw [List.append_nil]
    exact parameter_none name addr
  | hex => exact parameter_hexArg name a addr

/-- What `list` prints from an address on. -/
def listRows (past : OpRow) (m : Word → Byte) (a : Word) (n : ℕ) : List Text :=
  (List.iterate (nextRow m 3 (listLen past)) a n).map fun b => listText past b (readBlock m b 3)

/-- What `peek` prints from an address on. -/
def peekRows (m : Word → Byte) (a : Word) (n : ℕ) : List Text :=
  (List.iterate (nextRow m 6 fun _ _ => 6) a n).map fun b => peekText b (readBlock m b 6)

/-- **`list`** prints twelve lines and goes on behind them. -/
theorem dialog_list {arg : Text} {a : Word} (harg : Arg arg statics.list a)
    (hread : ∀ b ∈ List.iterate (nextRow m 3 (listLen past)) a 12,
      PROG_START ≤ b ∧ b.toNat + 3 ≤ 65536) :
    Dialog R font past (statics, m) (typed ("list".toList ++ arg))
      (listRows past m a 12).flatten
      ({ statics with list := (nextRow m 3 (listLen past))^[12] a }, m) := by
  refine dialog_command (typable_append.mpr ⟨by decide, harg.typable⟩) ?_ fun k hk => ?_
  · have hlen := harg.length
    rw [List.length_append]
    show 4 + _ < 64
    omega
  · have hrows := printRows_eq font addrText (opText past) 12 hk a hread
    have hcommand : command font past statics k ("list".toList ++ arg)
        = ((cmdList font past k a).1,
          ask .command { statics with list := (cmdList font past k a).2.2 }
            (cmdList font past k a).2.1) := by
      rw [command, if_neg (by simp), show dispatch ("list".toList ++ arg) = some .cmdList from rfl]
      show (match parameter "list".toList.length _ _ with | .error _ => _ | .ok _ => _) = _
      rw [harg.parameter]
    rw [hcommand, cmdList, hrows]
    refine ⟨?_, _, hk.putString font _, rfl⟩
    rw [listRows, List.flatMap]
    rfl

/-- **`peek`** prints eight lines and goes on behind them. -/
theorem dialog_peek {arg : Text} {a : Word} (harg : Arg arg statics.peek a)
    (hread : ∀ b ∈ List.iterate (nextRow m 6 fun _ _ => 6) a 8,
      PROG_START ≤ b ∧ b.toNat + 6 ≤ 65536) :
    Dialog R font past (statics, m) (typed ("peek".toList ++ arg)) (peekRows m a 8).flatten
      ({ statics with peek := (nextRow m 6 fun _ _ => 6)^[8] a }, m) := by
  refine dialog_command (typable_append.mpr ⟨by decide, harg.typable⟩) ?_ fun k hk => ?_
  · have hlen := harg.length
    rw [List.length_append]
    show 4 + _ < 64
    omega
  · have hrows := printRows_eq font (fun _ => []) peekText 8 hk a hread
    have hcommand : command font past statics k ("peek".toList ++ arg)
        = ((cmdPeek font k a).1, ask .command { statics with peek := (cmdPeek font k a).2.2 }
          (cmdPeek font k a).2.1) := by
      rw [command, if_neg (by simp), show dispatch ("peek".toList ++ arg) = some .cmdPeek from rfl]
      show (match parameter "peek".toList.length _ _ with | .error _ => _ | .ok _ => _) = _
      rw [harg.parameter]
    rw [hcommand, cmdPeek, hrows]
    refine ⟨?_, _, hk.putString font _, rfl⟩
    rw [peekRows, List.flatMap]
    rfl

/-- **`poke`** stores the number that is entered, and goes on behind it. -/
theorem dialog_poke {arg line : Text} {a : Word} (harg : Arg arg statics.poke a)
    (hline : Typable line) (hlen : line.length < 3) {v : ℤ} (hv : sscanfHex line = some v) :
    Dialog R font past (statics, m) (typed ("poke".toList ++ arg) ++ typed line) (addrText a ++ [])
      ({ statics with poke := a + 1 }, writeBlock m a [(BitVec.ofInt 16 v).setWidth 8]) := by
  refine dialog_ask .cmdPoke { statics with poke := a }
    (typable_append.mpr ⟨by decide, harg.typable⟩) ?_ hline hlen (fun k hk => ?_) fun k hk => ?_
  · have hlen := harg.length
    rw [List.length_append]
    show 4 + _ < 64
    omega
  · refine ⟨_, hk.putString font (addrText a), ?_⟩
    rw [command, if_neg (by simp), show dispatch ("poke".toList ++ arg) = some .cmdPoke from rfl]
    show (match parameter "poke".toList.length _ _ with | .error _ => _ | .ok _ => _) = _
    rw [harg.parameter]
  · have hne : line ≠ [] := by
      rintro rfl
      cases hv
    rw [enter, poked, if_neg hne, hv]
    exact ⟨rfl, _, hk.sramWrite _ _, rfl⟩

/-- What an entered line is assembled to: what is printed, and the addresses and the memory
behind it. -/
def asDone (past : OpRow) (statics : Statics) (m : Word → Byte) (line : Text) :
    Text × Statics × (Word → Byte) :=
  let r := dasmAs past statics.as line
  match r.ret with
  | .ok opLen =>
    if 0 < opLen then
      (textErrOk, { statics with as := statics.as + BitVec.ofNat 16 opLen },
        writeBlock m statics.as (r.out.take opLen))
    else (textErrSyntax, statics, m)
  | .error _ => (textErrSyntax, statics, m)

theorem holds_assembled (hk : Keeps m k) {line : Text} (hne : line ≠ []) :
    (assembled font past statics k line).1 = (asDone past statics m line).1 ∧
      Holds (asDone past statics m line).2.1 (asDone past statics m line).2.2
        (assembled font past statics k line).2 := by
  have hsay : ∀ (statics : Statics) {m : Word → Byte} {k : Kernel R} (text : Text), Keeps m k →
      (say font statics k text).1 = text ∧ Holds statics m (say font statics k text).2 :=
    fun statics m k text hk => ⟨rfl, _, hk.putText text 0, rfl⟩
  rw [assembled, if_neg hne, asDone]
  rcases dasmAs past statics.as line with ⟨e | opLen, out⟩
  · exact hsay statics _ hk
  · dsimp only
    split
    · exact hsay _ _ (hk.sramWrite _ _)
    · exact hsay statics _ hk

/-- **`as`** stores what the line is assembled to, and goes on behind it. -/
theorem dialog_as {arg line : Text} {a : Word} (harg : Arg arg statics.as a) (hne : line ≠ [])
    (hline : Typable line) (hlen : line.length < 32) :
    let done := asDone past { statics with as := a } m line
    Dialog R font past (statics, m) (typed ("as".toList ++ arg) ++ typed line)
      (addrText a ++ done.1) done.2 := by
  intro done
  refine dialog_ask .cmdAs { statics with as := a }
    (typable_append.mpr ⟨by decide, harg.typable⟩) ?_ hline hlen (fun k hk => ?_) fun k hk => ?_
  · have hlen := harg.length
    rw [List.length_append]
    show 2 + _ < 64
    omega
  · refine ⟨_, hk.putString font (addrText a), ?_⟩
    rw [command, if_neg (by simp), show dispatch ("as".toList ++ arg) = some .cmdAs from rfl]
    show (match parameter "as".toList.length _ _ with | .error _ => _ | .ok _ => _) = _
    rw [harg.parameter]
  · exact holds_assembled hk hne

end Shell

end Dan64
