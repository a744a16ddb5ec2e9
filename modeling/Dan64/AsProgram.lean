/-
Dan64/AsProgram.lean

A program typed with `as` and run with `run`.

A program is a list of statements: a form with its operand, a branch with its target, or
data.  Typed line by line, its bytes are put one statement behind the other
(`dialog_program`).  As long as these bytes are in place and the program counter is on a
statement, what the machine does is what the statement says (`machine_runs`), so that a
run of `cmd_run` is a run of the statements (`as_run`).  A branch goes one byte behind
its target (`relative_misses`).
-/
import Dan64.DasmBranch
import Dan64.DasmData
import Dan64.ShellCopy
import Dan64.CmdRun

namespace Dan64

open BlockMem CText Mealy
open Shell (typed)
open Mos6502 (Flags State Mnemonic Mode opcode exec Executes)

namespace AsProgram

/-! ### Statements -/

/-- A statement. -/
inductive Stmt
  | form (f : Form) (v : ℕ)
  | branch (mn : Mnemonic) (target : Word)
  | data (bs : List Byte)

/-- How a statement is written at an address. -/
def Stmt.Writes (a : Word) (line : Text) : Stmt → Prop
  | .form f v => f.Denotes v ∧ ¬ f.Misrowed ∧ Dan64.Writes f.mne f.mode.format v line
  | .branch mn target =>
    mn.has .relative = true ∧ (-129 ≤ displacement a target ∧ displacement a target ≤ 126) ∧
      Dan64.Writes (mneText mn) .direct target.toNat line
  | .data bs => bs ≠ [] ∧ ∃ p, skipWhitespace line = '.' :: p ∧ p ≠ [] ∧ Items p bs

/-- The bytes of a statement at an address. -/
def Stmt.bytes (a : Word) : Stmt → List Byte
  | .form f v => f.opcode.toList ++ operandBytes f.mode (BitVec.ofNat 16 v)
  | .branch mn target => (opcode mn .relative).toList ++ [(target - a - 1).setWidth 8]
  | .data bs => bs

/-- What a statement does.  Data is not executed. -/
def Stmt.Runs (s t : State) : Stmt → Prop
  | .form (.instr mn m) v => Executes mn m (BitVec.ofNat 16 v) s t
  | .form .sys _ => Serves s t
  | .branch mn target => t = { s with pc := if mn.taken s.flags then target + 1 else s.pc + 2 }
  | .data _ => False

/-- Where the statement behind one begins. -/
def Stmt.behind (a : Word) (st : Stmt) : Word := a + BitVec.ofNat 16 (st.bytes a).length

/-- The bytes of a program. -/
def code : Word → List Stmt → List Byte
  | _, [] => []
  | a, st :: P => st.bytes a ++ code (st.behind a) P

/-- A program and its lines. -/
inductive Written : Word → List Stmt → List Text → Prop
  | nil (a : Word) : Written a [] []
  | cons {a : Word} {st : Stmt} {line : Text} {P : List Stmt} {lines : List Text} :
      st.Writes a line → Typable line → line.length < 32 → Written (st.behind a) P lines →
      Written a (st :: P) (line :: lines)

/-- The statement at an address. -/
inductive At : Word → List Stmt → Word → Stmt → Prop
  | head (a : Word) (st : Stmt) (P : List Stmt) : At a (st :: P) a st
  | tail {a pc : Word} {st st' : Stmt} {P : List Stmt} :
      At (st'.behind a) P pc st → At a (st' :: P) pc st

/-- **A step of a program**: what the statement at the program counter does. -/
def Step (a : Word) (P : List Stmt) (s t : State) : Prop := ∃ st, At a P s.pc st ∧ st.Runs s t

/-- The bytes of a program are in place, and the program counter is on a statement that
is not data. -/
structure Inside (a : Word) (P : List Stmt) (s : State) : Prop where
  code : readBlock s.mem a (code a P).length = code a P
  pc : ∃ st, At a P s.pc st ∧ ∀ bs, st ≠ .data bs

/-! ### Assembling -/

section Assemble

variable {past : OpRow} {a : Word} {st : Stmt} {line : Text}

/-- **A line of a statement** is assembled to its bytes. -/
theorem Stmt.Writes.dasmAs (h : st.Writes a line) (hpast : PastTable past)
    (hlen : line.length < 32) :
    dasmAs past a line = ⟨.ok (st.bytes a).length, st.bytes a⟩ ∧
      0 < (st.bytes a).length ∧ (st.bytes a).length < 256 := by
  have hskip := length_skipWhitespace line
  cases st with
  | form f v =>
    obtain ⟨hf, hmis, hline⟩ := h
    have hrow : f.row = f.opcode := by
      cases f with
      | instr mn m => exact if_neg hmis
      | sys => rfl
    have hop : ∃ op, f.opcode = some op := by
      cases f with
      | instr mn m => exact Option.isSome_iff_exists.mp hf.1
      | sys => exact ⟨_, rfl⟩
    obtain ⟨op, hop⟩ := hop
    have hbytes : (Stmt.form f v).bytes a = op :: operandBytes f.mode (BitVec.ofNat 16 v) := by
      rw [Stmt.bytes, hop]
      rfl
    have has := dasmAs_form hpast hf a hline (by omega)
    rw [hrow, hop] at has
    have hmode : f.mode.length < 256 := by
      rcases f.mode <;> decide
    rw [hbytes, List.length_cons, length_operandBytes]
    refine ⟨has, ?_, hmode⟩
    rcases f.mode <;> decide
  | branch mn target =>
    obtain ⟨hhas, -, hline⟩ := h
    obtain ⟨op, hop⟩ := Option.isSome_iff_exists.mp hhas
    have hbytes : (Stmt.branch mn target).bytes a = branchBytes op a target := by
      rw [Stmt.bytes, hop]
      rfl
    rw [hbytes]
    exact ⟨dasmAs_branch hpast hop a target hline (by omega), show 0 < 2 by decide,
      show 2 < 256 by decide⟩
  | data bs =>
    obtain ⟨hne, p, hp, hpne, hitems⟩ := h
    have hplen : p.length + 1 ≤ line.length := by
      rw [hp] at hskip
      exact hskip
    have hle := hitems.length_le
    have hpos := List.length_pos_iff.mpr hne
    have has := dasmAs_taken past a hp hpne (by omega) hitems.taken
    rw [Nat.mod_eq_of_lt (by omega)] at has
    exact ⟨has, hpos, show bs.length < 256 by omega⟩

theorem Stmt.Writes.ne_nil (h : st.Writes a line) (hpast : PastTable past)
    (hlen : line.length < 32) : line ≠ [] := by
  rintro rfl
  obtain ⟨has, -⟩ := h.dasmAs hpast hlen
  cases has

end Assemble

/-! ### Typing a program -/

/-- The lines of a program, each for an `as` of its own. -/
def asKeys : Text → List Text → List Byte
  | _, [] => []
  | arg, line :: lines => typed ("as".toList ++ arg) ++ typed line ++ asKeys [] lines

/-- What is printed for them. -/
def asRows : Word → List Stmt → Text
  | _, [] => []
  | a, st :: P => Shell.addrText a ++ textErrOk ++ asRows (st.behind a) P

section Typing

variable {R : Type} {font : ℕ → Byte} {past : OpRow}

/-- **A program is put together** in the memory. -/
theorem dialog_program (hpast : PastTable past) {a : Word} {P : List Stmt} {lines : List Text}
    (h : Written a P lines) (m : Word → Byte) {statics : Statics} {arg : Text}
    (harg : Shell.Arg arg statics.as a) :
    ∃ statics', Shell.Dialog R font past (statics, m) (asKeys arg lines) (asRows a P)
      (statics', writeBlock m a (code a P)) := by
  induction h generalizing m statics arg with
  | nil a => exact ⟨statics, .nil⟩
  | @cons a st line P lines hst hline hlen _ ih =>
    obtain ⟨has, hpos, -⟩ := hst.dasmAs hpast hlen
    have hdialog := @Shell.dialog_as R font past m statics arg line a harg
      (hst.ne_nil hpast hlen) hline hlen
    have hdone : Shell.asDone past { statics with as := a } m line
        = (textErrOk, { statics with as := st.behind a }, writeBlock m a (st.bytes a)) := by
      simp only [Shell.asDone, has, if_pos hpos, List.take_length]
      rfl
    rw [hdone] at hdialog
    -- the next line is typed without an address
    obtain ⟨statics', hrest⟩ := ih (writeBlock m a (st.bytes a))
      (Shell.Arg.none (Statics.as { statics with as := st.behind a }))
    refine ⟨statics', ?_⟩
    have happend := hdialog.append hrest
    rw [asKeys, asRows, code, writeBlock_append]
    exact happend

/-- `run` is called with the memory as it was. -/
theorem feed_run {statics : Statics} {m : Word → Byte} {sh : Shell R}
    (h : Shell.Holds statics m sh) :
    ∃ k, Shell.Keeps m k ∧ (feed (Shell.key font past) sh (typed "run".toList)).1.flatten = [] ∧
      (feed (Shell.key font past) sh (typed "run".toList)).2 = .calls .cmdRun statics k := by
  obtain ⟨k, hk, rfl⟩ := h
  obtain ⟨k', hk', out, hout, hfeed⟩ := Shell.feed_typed past .command statics hk
    (show Typable "run".toList by decide) (show 3 < 64 by decide)
  have hcommand : Shell.enter font past .command statics k' "run".toList
      = ([], .calls .cmdRun statics k') := rfl
  rw [hcommand] at hout hfeed
  refine ⟨k', hk', ?_, ?_⟩
  · rw [hfeed]
    exact hout
  · rw [hfeed]

end Typing

/-! ### Running -/

/-- The statement at an address is a line of the program. -/
theorem Written.at {a pc : Word} {P : List Stmt} {lines : List Text} {st : Stmt}
    (h : Written a P lines) (hat : At a P pc st) : ∃ line, st.Writes pc line := by
  induction hat generalizing lines with
  | head =>
    cases h with
    | cons hst => exact ⟨_, hst⟩
  | tail _ ih =>
    cases h with
    | cons _ _ _ hrest => exact ih hrest

/-- The bytes of the statement at an address are there. -/
theorem At.readBlock {a pc : Word} {P : List Stmt} {st : Stmt} {m : Word → Byte}
    (h : At a P pc st) (hm : BlockMem.readBlock m a (code a P).length = code a P) :
    BlockMem.readBlock m pc (st.bytes pc).length = st.bytes pc := by
  have hcut : ∀ {a : Word} {st : Stmt} {P : List Stmt},
      BlockMem.readBlock m a (code a (st :: P)).length = code a (st :: P) →
      BlockMem.readBlock m a (st.bytes a).length = st.bytes a ∧
        BlockMem.readBlock m (st.behind a) (code (st.behind a) P).length
          = code (st.behind a) P := by
    intro a st P hm
    rw [code, List.length_append, readBlock_add] at hm
    exact List.append_inj hm (length_readBlock _ _ _)
  induction h with
  | head => exact (hcut hm).1
  | tail _ ih => exact ih (hcut hm).2

/-- `SYS` is not an instruction of the processor. -/
theorem opcode_ne_sys (mn : Mnemonic) (m : Mode) : opcode mn m ≠ some 0x02 := by
  intro hop
  obtain ⟨k, hk, hinstr⟩ := vmSwitch_opcode hop
  obtain rfl : k = .sys := (Option.some.inj hk).symm
  cases hinstr

/-- The machine on the opcode of an instruction executes it. -/
theorem machine_instr {s : FlatVm} {t : State} {mn : Mnemonic} {m : Mode}
    (hop : opcode mn m = some (s.ram s.rPc)) (h : Machine s.abs t) :
    Executes mn m (s.abs.operand m) s.abs t := by
  rcases h with ⟨mn', m', hop', hexec⟩ | hserves
  · obtain ⟨rfl, rfl⟩ := opcode_injective hop hop'
    exact hexec
  · exact absurd (hop.trans (congrArg some hserves.op)) (opcode_ne_sys mn m)

/-- A branch that arrives. -/
theorem exec_branch {mn : Mnemonic} {op : Byte} (hop : opcode mn .relative = some op) (v : Word)
    (s : State) : exec mn .relative v s
      = { s with pc := if mn.taken s.flags then s.pc + 2 + (v.setWidth 8).signExtend 16
          else s.pc + 2 } := by
  cases mn
  case bcc | bcs | beq | bmi | bne | bpl | bvc | bvs =>
    show (if _ then _ else _ : State) = _
    split <;> rfl
  all_goals cases hop

/-- **The machine does what the statement says.** -/
theorem machine_runs {s : FlatVm} {t : State} {st : Stmt} {line : Text}
    (hst : st.Writes s.rPc line) (hdata : ∀ bs, st ≠ .data bs)
    (hbytes : BlockMem.readBlock s.ram s.rPc (st.bytes s.rPc).length = st.bytes s.rPc)
    (h : Machine s.abs t) : st.Runs s.abs t := by
  cases st with
  | data bs => exact absurd rfl (hdata bs)
  | branch mn target =>
    obtain ⟨hhas, hreach, -⟩ := hst
    obtain ⟨op, hop⟩ := Option.isSome_iff_exists.mp hhas
    rw [Stmt.bytes, hop] at hbytes
    have hram : s.ram s.rPc = op := List.head_eq_of_cons_eq hbytes
    have hbyte : s.ram (s.rPc + 1) = (target - s.rPc - 1).setWidth 8 :=
      List.head_eq_of_cons_eq (List.tail_eq_of_cons_eq hbytes)
    have hexec := machine_instr (hop.trans (congrArg some hram.symm)) h
    have hd : ¬ (s.abs.flags.d = true ∧ (mn = .adc ∨ mn = .sbc)) := by
      rintro ⟨-, rfl | rfl⟩ <;> cases hop
    rw [Executes, if_neg hd, exec_branch hop] at hexec
    have hoperand : (s.abs.operand .relative).setWidth 8 = (target - s.rPc - 1).setWidth 8 := by
      rw [← hbyte]
      exact setWidth_word _
    -- the displacement is from the second byte, and the processor adds it behind that
    have hland : s.rPc + 2 + ((target - s.rPc - 1).setWidth 8).signExtend 16 = target + 1 := by
      have hlands := (relative_lands s.rPc target).mpr hreach
      bv_omega
    have hpc : s.abs.pc = s.rPc := rfl
    rw [hoperand, hpc, hland] at hexec
    exact hexec
  | form f v =>
    obtain ⟨hf, hmis, -⟩ := hst
    cases f with
    | sys =>
      have hram : s.ram s.rPc = 0x02 := List.head_eq_of_cons_eq hbytes
      rcases h with ⟨mn, m, hop, -⟩ | hserves
      · exact absurd (hop.trans (congrArg some hram)) (opcode_ne_sys mn m)
      · exact hserves
    | instr mn m =>
      obtain ⟨hhas, -, hv, -⟩ := hf
      obtain ⟨op, hop⟩ := Option.isSome_iff_exists.mp hhas
      have hform : (Stmt.form (.instr mn m) v).bytes s.rPc
          = op :: operandBytes (addrEnum m) (BitVec.ofNat 16 v) := by
        rw [Stmt.bytes, Form.opcode, hop]
        rfl
      rw [hform] at hbytes
      obtain ⟨hram, hoperand⟩ := Placed.operand hv hbytes
      have hexec := machine_instr (hop.trans (congrArg some hram.symm)) h
      rw [hoperand] at hexec
      exact hexec

/-- A pass inside the program is a step of it. -/
theorem pass_step {R : Type} {font : ℕ → Byte} {rng : Random R} {a : Word} {P : List Stmt}
    {lines : List Text} (h : Written a P lines) {s t : Vm (Kernel R)}
    (hs : Plain s.toFlat.abs ∧ Inside a P s.toFlat.abs) (hst : Pass font rng s t) :
    Step a P s.toFlat.abs t.toFlat.abs := by
  obtain ⟨hplain, hinside⟩ := hs
  obtain ⟨st, hat, hdata⟩ := hinside.pc
  obtain ⟨line, hline⟩ := h.at hat
  exact ⟨st, hat, machine_runs hline hdata (hat.readBlock hinside.code) (hst.machine hplain)⟩

/-- Inside the program there is always a step, but for a call that does not return. -/
theorem exists_pass {R : Type} {font : ℕ → Byte} {rng : Random R} {a : Word} {P : List Stmt}
    {lines : List Text} (h : Written a P lines) {s : Vm (Kernel R)} (hplain : Plain s.toFlat.abs)
    (hinside : Inside a P s.toFlat.abs) :
    (∃ t, Pass font rng s t) ↔ s.ram.progExit = false ∧ (s.toFlat.ram s.rPc = 0x02 →
      ∃ fuel dev u, vmSyscall font rng fuel dev s.rA s = some u) := by
  constructor
  · rintro ⟨t, hpass⟩
    have hexit : s.ram.progExit = false := by
      cases hpass with
      | exec hrunning | sys _ _ hrunning => exact hrunning
    refine ⟨hexit, fun hop => ?_⟩
    rcases (exists_pass_iff hplain hexit).mp ⟨t, hpass⟩ with ⟨mn, m, hopcode⟩ | ⟨-, hret⟩
    · rw [hop] at hopcode
      exact absurd hopcode (opcode_ne_sys mn m)
    · exact hret
  · rintro ⟨hexit, hret⟩
    rw [exists_pass_iff hplain hexit]
    obtain ⟨st, hat, hdata⟩ := hinside.pc
    obtain ⟨line, hline⟩ := h.at hat
    have hbytes := hat.readBlock hinside.code
    -- the opcode is the one of the statement
    have hfirst : ∀ {op : Byte} {bs : List Byte}, st.bytes s.rPc = op :: bs →
        s.toFlat.ram s.rPc = op := by
      intro op bs hst
      have hst' : st.bytes s.toFlat.abs.pc = op :: bs := hst
      rw [hst'] at hbytes
      exact List.head_eq_of_cons_eq hbytes
    cases st with
    | data bs => exact absurd rfl (hdata bs)
    | branch mn target =>
      obtain ⟨op, hop⟩ := Option.isSome_iff_exists.mp hline.1
      have hst : (Stmt.branch mn target).bytes s.rPc = branchBytes op s.rPc target := by
        rw [Stmt.bytes, hop]
        rfl
      exact .inl ⟨mn, .relative, hop.trans (congrArg some (hfirst hst).symm)⟩
    | form f v =>
      cases f with
      | sys =>
        have hop : s.toFlat.ram s.rPc = 0x02 := hfirst rfl
        exact .inr ⟨hop, hret hop⟩
      | instr mn m =>
        obtain ⟨op, hop⟩ := Option.isSome_iff_exists.mp hline.1.1
        have hst : (Stmt.form (.instr mn m) v).bytes s.rPc
            = op :: operandBytes (addrEnum m) (BitVec.ofNat 16 v) := by
          rw [Stmt.bytes, Form.opcode, hop]
          rfl
        exact .inl ⟨mn, m, hop.trans (congrArg some (hfirst hst).symm)⟩

/-! ### From the keyboard -/

/-- Every run from a state is one of the program, as long as it is plain and inside the
program, and ends there only if it has exited or is in a call that does not return. -/
def Obeys {R : Type} (font : ℕ → Byte) (rng : Random R) (a : Word) (P : List Stmt)
    (s : Vm (Kernel R)) : Prop :=
  ∀ us t, Steps (Pass font rng) s us t →
    (∀ u ∈ us, Plain u.toFlat.abs ∧ Inside a P u.toFlat.abs) →
    Steps (Step a P) s.toFlat.abs (us.map fun u => u.toFlat.abs) t.toFlat.abs ∧
      (Plain t.toFlat.abs → Inside a P t.toFlat.abs →
        ((∃ u, Pass font rng t u) ↔ t.ram.progExit = false ∧ (t.toFlat.ram t.rPc = 0x02 →
          ∃ fuel dev u, vmSyscall font rng fuel dev t.rA t = some u)))

/-- **A program that is typed and run.**  Every line is answered with `Ok`, and `cmd_run` is
called with the bytes of the program behind the screen, starts on the first one, and obeys
the program, as long as no line that it asks for runs over the buffer of the kernel. -/
theorem as_run {R : Type} (font : ℕ → Byte) (rng : Random R) {past : OpRow}
    (hpast : PastTable past) {P : List Stmt} {lines : List Text} (h : Written PROG_START P lines)
    {sh : Shell R} (hsh : Shell.Ready sh) :
    let r := feed (Shell.key font past) sh (asKeys (Shell.hexArg PROG_START) lines ++
      typed "run".toList)
    r.1.flatten = asRows PROG_START P ∧ ∃ statics k, r.2 = .calls .cmdRun statics k ∧
      (∀ x, PROG_START ≤ x →
        k.fw.flat x = writeBlock sh.sram PROG_START (code PROG_START P) x) ∧
      ∀ s : Vm (Kernel R), s.ram = k →
        (cmdRunStart s).toFlat.abs
          = { a := 0, x := 0, y := 0, sp := 0xff, pc := PROG_START, flags := .ofByte 0,
              mem := k.fw.flat } ∧
        Obeys font rng PROG_START P (cmdRunStart s) := by
  intro r
  obtain ⟨statics, hholds⟩ := hsh.holds fun _ _ => rfl
  obtain ⟨statics', hdialog⟩ := @dialog_program R font past hpast PROG_START P lines h sh.sram
    statics (Shell.hexArg PROG_START) (.hex PROG_START statics.as)
  obtain ⟨htext, hholds'⟩ := hdialog sh hholds
  obtain ⟨k, hk, hnone, hcall⟩ := @feed_run R font past statics' _ _ hholds'
  have hr : r = _ := feed_append _ _ _ _
  rw [hr]
  refine ⟨?_, statics', k, hcall, fun x hx => ?_, ?_⟩
  · rw [List.flatten_append, htext, hnone, List.append_nil]
  · have hlocal : ¬ IsLocal x := by
      have hx : 0x1a00 ≤ x.toNat := hx
      rw [IsLocal]
      omega
    exact (if_neg hlocal).trans (hk.sram x hx)
  · rintro s rfl
    refine ⟨rfl, fun us t hrun hus => ⟨?_, fun hplain hinside => exists_pass h hplain hinside⟩⟩
    exact hrun.map (fun u w hu huw => pass_step h hu huw) hus

/-- A loop of two instructions: the branch is written with the address before the loop. -/
theorem written_loop : Written PROG_START
    [.form (.instr .nop .implied) 0, .branch .bne 0x19ff] ["nop".toList, "bne $19ff".toList] := by
  have hnop : (Stmt.form (.instr .nop .implied) 0).Writes PROG_START "nop".toList :=
    ⟨⟨rfl, by decide, by decide, fun _ _ hz => absurd hz (Option.not_mem_none _)⟩, by decide,
      [], [], ['0'], .none, .nil, .nil,
      @Literal.dec "0".toList (by decide) (List.all_eq_true.mp rfl), by decide⟩
  have hbne : (Stmt.branch .bne 0x19ff).Writes 0x1a01 "bne $19ff".toList :=
    ⟨rfl, by decide, [], [' '], "$19FF".toList, .none, .nil, .space,
      @Literal.hex "19FF".toList (by decide) (List.all_eq_true.mp rfl), by decide⟩
  exact .cons hnop (by decide) (by decide) (.cons hbne (by decide) (by decide) (.nil _))

/-- It is typed and run. -/
theorem as_run_loop :
    let P : List Stmt := [.form (.instr .nop .implied) 0, .branch .bne 0x19ff]
    let rng : Random Unit := ⟨fun _ => (0, ()), fun _ => ()⟩
    let k : Kernel Unit := ⟨fun _ => 0, ⟨0, 0, false, fun _ => 0, []⟩, fun _ => 0, false, ()⟩
    let r := feed (Shell.key (fun _ => 0) zeroRow) (Shell.ask .command ⟨0, 0, 0, 0⟩ k)
      (asKeys (Shell.hexArg PROG_START) ["nop".toList, "bne $19ff".toList] ++ typed "run".toList)
    code PROG_START P = [0xea, 0xd0, 0xfd] ∧ r.1.flatten = asRows PROG_START P ∧
      ∃ statics k', r.2 = .calls .cmdRun statics k' ∧
        ∀ s : Vm (Kernel Unit), s.ram = k' →
          Obeys (fun _ => 0) rng PROG_START P (cmdRunStart s) := by
  intro P rng k r
  have hready : Shell.Ready (Shell.ask .command ⟨0, 0, 0, 0⟩ k) :=
    ⟨_, _, _, ⟨⟨Nat.zero_le _, Nat.zero_le _, List.forall_mem_nil _⟩, fun _ _ => rfl⟩, rfl⟩
  obtain ⟨hrows, statics, k', hcall, -, hruns⟩ :=
    as_run (fun _ => 0) rng pastTable_zeroRow written_loop hready
  exact ⟨by decide +kernel, hrows, statics, k', hcall, fun s hs => (hruns s hs).2⟩

end AsProgram

end Dan64
