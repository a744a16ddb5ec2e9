/-
Dan64/SharedMem.lean

One memory for the shell and the programs?  The commands of the shell and the
storage services access the serial memory directly, a program goes through
`vm_ram_read` and `vm_ram_write`.

A session is the memory with the history of what was read and stored so far,
and by whom.  Every operation of the firmware is a list of accesses
(`Session.step`); an operation may draw anything anywhere on the way.  From
`$0200` on every access of either side is an access to the serial memory, and a
read returns what was stored last (`follows_step`, `follows_run`).  Below, the
two sides never meet (`sameMemory_iff`).
-/
import Dan64.DasmLine
import Dan64.MemHistory
import Dan64.SplitMem
import Dan64.Storage

namespace Dan64

open BlockMem MemHistory

/-! ### Sessions -/

/-- Who accesses the memory: the shell and the storage services, a program, or
the output on the screen. -/
inductive Party
  | shell
  | vm
  | screen
  deriving DecidableEq

/-- The memory, and what was read and stored so far. -/
structure Session where
  fw : Firmware
  log : List (Event Party Word Byte)

namespace Session

def sramRead (s : Session) (p : Party) (addr : Word) (size : ℕ) : List Byte × Session :=
  let data := s.fw.sramRead addr size
  (data, { s with log := s.log ++ blockReads p addr data })

def sramWrite (s : Session) (p : Party) (addr : Word) (data : List Byte) : Session :=
  ⟨s.fw.sramWrite addr data, s.log ++ blockStores p addr data⟩

def vmRamRead (s : Session) (addr : Word) (size : ℕ) : List Byte × Session :=
  let data := s.fw.vmRamRead addr size
  (data, { s with log := s.log ++ blockReads .vm addr data })

def vmRamWrite (s : Session) (addr : Word) (src : List Byte) : Session :=
  ⟨s.fw.vmRamWrite addr src, s.log ++ blockStores .vm addr src⟩

/-- Bytes drawn on the screen: any, anywhere. -/
def draw (s : Session) (drawn : List (Word × Byte)) : Session :=
  drawn.foldl (fun s d => s.sramWrite .screen d.1 [d.2]) s

/-! ### The shell and the services -/

/-- `load_data_write` -/
def loadDataWrite (s : Session × Word) (byte : Byte) : Session × Word :=
  (s.1.sramWrite .shell s.2 [byte], s.2 + 1)

/-- The loop of `load`, over the bytes that arrive before the timeout. -/
def loadLoop (s : Session × Word) (dec : Decoder) : List Byte → Session × Decoder
  | [] => (s.1, dec)
  | byte :: audio =>
    let (o, dec) := decode dec byte
    let s := o.written.foldl loadDataWrite s
    if o.ret ≠ 0 then (s.1, dec)
    else if dec.control = C_END then (s.1, dec)
    else loadLoop s dec audio

theorem loadLoop_cons (s : Session × Word) (dec : Decoder) (byte : Byte) (audio : List Byte) :
    loadLoop s dec (byte :: audio) =
      if (decode dec byte).1.ret ≠ 0 then
        (((decode dec byte).1.written.foldl loadDataWrite s).1, (decode dec byte).2)
      else if (decode dec byte).2.control = C_END then
        (((decode dec byte).1.written.foldl loadDataWrite s).1, (decode dec byte).2)
      else loadLoop ((decode dec byte).1.written.foldl loadDataWrite s) (decode dec byte).2 audio :=
  rfl

/-- `load`, past the prompt, with its result. -/
def load (s : Session) (destAddr : Word) (audio : List Byte) : Byte × Session :=
  let (s, dec) := loadLoop (s, destAddr) initDecoder audio
  (if dec.control = C_END then 0 else BitVec.ofInt 8 dec.control, s)

/-- The loop of `save`, a byte at a time. -/
def saveLoop (s : Session) (startAddr : Word) : ℕ → List Byte × Session
  | 0 => ([], s)
  | n + 1 =>
    let (byte, s) := s.sramRead .shell startAddr 1
    let (data, s) := saveLoop s (startAddr + 1) n
    (byte ++ data, s)

/-- `save`, past the prompt: the bytes encoded before `aout_err`, of which there
are at most `sent`. -/
def save (s : Session) (startAddr endAddr : Word) (sent : ℕ) : List Byte × Session :=
  s.saveLoop startAddr (min sent (endAddr - startAddr).toNat)

/-- One line of `cmd_peek`; `drawn` is what is drawn before the next. -/
def peekRow (drawn : ℕ → List (Word × Byte)) (s : Session × Word) (j : ℕ) : Session × Word :=
  ((s.1.sramRead .shell s.2 6).2.draw (drawn j), s.2 + 6)

/-- `cmd_peek`, with the address it keeps. -/
def cmdPeek (s : Session) (addr : Word) (drawn : ℕ → List (Word × Byte)) : Session × Word :=
  (List.range 8).foldl (peekRow drawn) (s, addr)

/-- `cmd_poke`, past the prompt. -/
def cmdPoke (s : Session) (addr : Word) (v : Byte) : Session × Word :=
  (s.sramWrite .shell addr [v], addr + 1)

/-- One line of `cmd_list`. -/
def listRow (past : OpRow) (drawn : ℕ → List (Word × Byte)) (s : Session × Word) (j : ℕ) :
    Session × Word :=
  let (op, t) := s.1.sramRead .shell s.2 3
  let opLen := (dasmDas past s.2 (op.getD 0 0) (op.getD 1 0) (op.getD 2 0)).2
  (t.draw (drawn j), s.2 + BitVec.ofNat 16 opLen)

/-- `cmd_list` -/
def cmdList (past : OpRow) (s : Session) (addr : Word) (drawn : ℕ → List (Word × Byte)) :
    Session × Word :=
  (List.range 12).foldl (listRow past drawn) (s, addr)

/-- `cmd_as`, past the prompt. -/
def cmdAs (past : OpRow) (s : Session) (addr : Word) (line : Text) : Session × Word :=
  let r := dasmAs past addr line
  match r.ret with
  | .ok opLen =>
    if 0 < opLen then
      (s.sramWrite .shell addr (r.out.take opLen), addr + BitVec.ofNat 16 opLen)
    else (s, addr)
  | .error _ => (s, addr)

/-- `vm_syscall` 0x01: the destination is on the stack. -/
def sysLoad (s : Session) (rSp : Byte) (audio : List Byte) : Byte × Session :=
  let (v, s) := s.vmRamRead (addr16 (word rSp + 1) 1) 2
  s.load (addr16 (word (v.getD 1 0)) (word (v.getD 0 0))) audio

/-- `vm_syscall` 0x02 -/
def sysSave (s : Session) (rSp : Byte) (sent : ℕ) : List Byte × Session :=
  let (v, s) := s.vmRamRead (addr16 (word rSp + 1) 1) 4
  let addr := addr16 (word (v.getD 1 0)) (word (v.getD 0 0))
  let count := addr16 (word (v.getD 3 0)) (word (v.getD 2 0))
  s.save addr (addr + count) sent

/-! ### Histories -/

/-- The operations that access the memory; everything else a program does is made
of `vmRead`, `vmWrite` and `draw`. -/
inductive Op
  | peek (addr : Word) (drawn : ℕ → List (Word × Byte))
  | poke (addr : Word) (v : Byte)
  | list (addr : Word) (drawn : ℕ → List (Word × Byte))
  | as (addr : Word) (line : Text)
  | load (destAddr : Word) (audio : List Byte)
  | save (startAddr endAddr : Word) (sent : ℕ)
  | sysLoad (rSp : Byte) (audio : List Byte)
  | sysSave (rSp : Byte) (sent : ℕ)
  | vmRead (addr : Word) (size : ℕ)
  | vmWrite (addr : Word) (src : List Byte)
  | draw (drawn : List (Word × Byte))

def step (past : OpRow) (s : Session) : Op → Session
  | .peek addr drawn => (s.cmdPeek addr drawn).1
  | .poke addr v => (s.cmdPoke addr v).1
  | .list addr drawn => (s.cmdList past addr drawn).1
  | .as addr line => (s.cmdAs past addr line).1
  | .load destAddr audio => (s.load destAddr audio).2
  | .save startAddr endAddr sent => (s.save startAddr endAddr sent).2
  | .sysLoad rSp audio => (s.sysLoad rSp audio).2
  | .sysSave rSp sent => (s.sysSave rSp sent).2
  | .vmRead addr size => (s.vmRamRead addr size).2
  | .vmWrite addr src => s.vmRamWrite addr src
  | .draw drawn => s.draw drawn

/-- A history, from any memory. -/
def run (past : OpRow) (fw : Firmware) (ops : List Op) : Session :=
  ops.foldl (step past) ⟨fw, []⟩

/-! ### The cell of the serial memory -/

/-- What happens between two sessions is a replay of the serial memory at `a`. -/
def Follows (a : Word) (s t : Session) : Prop :=
  ∃ es, t.log = s.log ++ es ∧ Replays a (s.fw.sram a) es (t.fw.sram a)

variable {a : Word}

theorem Follows.refl (a : Word) (s : Session) : Follows a s s :=
  ⟨[], (List.append_nil s.log).symm, rfl⟩

theorem Follows.trans {s t u : Session} (hst : Follows a s t) (htu : Follows a t u) :
    Follows a s u := by
  obtain ⟨es, hes, hrep⟩ := hst
  obtain ⟨fs, hfs, hrep'⟩ := htu
  refine ⟨es ++ fs, ?_, hrep.append hrep'⟩
  rw [hfs, hes, List.append_assoc]

/-- A loop follows if every pass does. -/
theorem follows_foldl {ι τ : Type} {f : τ → ι → τ} {view : τ → Session}
    (hf : ∀ t i, Follows a (view t) (view (f t i))) (is : List ι) (t : τ) :
    Follows a (view t) (view (is.foldl f t)) := by
  induction is generalizing t with
  | nil => exact Follows.refl a (view t)
  | cons i is ih => exact (hf t i).trans (ih (f t i))

theorem follows_sramRead (s : Session) (p : Party) (addr : Word) (size : ℕ) :
    Follows a s (s.sramRead p addr size).2 :=
  ⟨_, rfl, replays_blockReads s.fw.sram a p addr size⟩

theorem follows_sramWrite (s : Session) (p : Party) (addr : Word) (data : List Byte) :
    Follows a s (s.sramWrite p addr data) :=
  ⟨_, rfl, replays_blockStores s.fw.sram a p addr data⟩

section Vm

variable (ha : 512 ≤ a.toNat)
include ha

/-- The local part of an access is elsewhere. -/
theorem ne_of_lt_part {addr : Word} {size i : ℕ} (hi : i < part addr size) :
    addr + BitVec.ofNat 16 i ≠ a := by
  rintro rfl
  exact absurd (isLocal_of_lt_part hi) (not_lt.mpr ha)

theorem follows_vmRamRead (s : Session) (addr : Word) (size : ℕ) :
    Follows a s (s.vmRamRead addr size).2 := by
  refine ⟨_, rfl, ?_⟩
  show Replays a (s.fw.sram a) (blockReads Party.vm addr (s.fw.vmRamRead addr size)) (s.fw.sram a)
  rw [Firmware.vmRamRead]
  split
  · rfl
  · rw [blockReads_append, length_readBlock]
    refine Replays.append ?_ (replays_blockReads s.fw.sram a _ _ _)
    apply replays_blockReads_of_ne
    intro i hi
    rw [length_readBlock] at hi
    exact ne_of_lt_part ha hi

theorem follows_vmRamWrite (s : Session) (addr : Word) (src : List Byte) :
    Follows a s (s.vmRamWrite addr src) := by
  refine ⟨_, rfl, ?_⟩
  show Replays a (s.fw.sram a) (blockStores Party.vm addr src) ((s.fw.vmRamWrite addr src).sram a)
  rw [Firmware.vmRamWrite]
  split
  · next hsize =>
    rw [List.eq_nil_of_length_eq_zero hsize]
    rfl
  · have htake : (src.take (part addr src.length)).length = part addr src.length :=
      List.length_take_of_le (part_le addr src.length)
    have hsplit := blockStores_append Party.vm addr (src.take (part addr src.length))
      (src.drop (part addr src.length))
    rw [List.take_append_drop, htake] at hsplit
    rw [hsplit]
    refine Replays.append ?_ (replays_blockStores s.fw.sram a _ _ _)
    apply replays_blockStores_of_ne
    intro i hi
    rw [htake] at hi
    exact ne_of_lt_part ha hi

end Vm

/-! ### Commands and services -/

theorem follows_draw (s : Session) (drawn : List (Word × Byte)) : Follows a s (s.draw drawn) :=
  @follows_foldl a (Word × Byte) Session _ id
    (fun t d => follows_sramWrite t .screen d.1 [d.2]) drawn s

/-- The loop of `load`, by induction on the bytes. -/
theorem follows_loadLoop (s : Session × Word) (dec : Decoder) (audio : List Byte) :
    Follows a s.1 (loadLoop s dec audio).1 := by
  induction audio generalizing s dec with
  | nil => exact Follows.refl a s.1
  | cons byte audio ih =>
    have hwritten : Follows a s.1 ((decode dec byte).1.written.foldl loadDataWrite s).1 :=
      follows_foldl (fun t b => follows_sramWrite t.1 .shell t.2 [b]) _ s
    rw [loadLoop_cons]
    split
    · exact hwritten
    · split
      · exact hwritten
      · exact hwritten.trans (ih _ _)

theorem follows_load (s : Session) (destAddr : Word) (audio : List Byte) :
    Follows a s (s.load destAddr audio).2 :=
  follows_loadLoop (s, destAddr) initDecoder audio

/-- The loop of `save`. -/
theorem follows_saveLoop (s : Session) (startAddr : Word) (n : ℕ) :
    Follows a s (s.saveLoop startAddr n).2 := by
  induction n generalizing s startAddr with
  | zero => exact Follows.refl a s
  | succ n ih => exact (follows_sramRead s .shell startAddr 1).trans (ih _ _)

theorem follows_cmdPeek (s : Session) (addr : Word) (drawn : ℕ → List (Word × Byte)) :
    Follows a s (s.cmdPeek addr drawn).1 :=
  follows_foldl (fun t j => (follows_sramRead t.1 .shell t.2 6).trans (follows_draw _ (drawn j)))
    _ (s, addr)

theorem follows_cmdList (past : OpRow) (s : Session) (addr : Word)
    (drawn : ℕ → List (Word × Byte)) : Follows a s (s.cmdList past addr drawn).1 :=
  follows_foldl (fun t j => (follows_sramRead t.1 .shell t.2 3).trans (follows_draw _ (drawn j)))
    _ (s, addr)

theorem follows_cmdAs (past : OpRow) (s : Session) (addr : Word) (line : Text) :
    Follows a s (s.cmdAs past addr line).1 := by
  rw [cmdAs]
  split
  · split
    · exact follows_sramWrite s .shell addr _
    · exact Follows.refl a s
  · exact Follows.refl a s

/-- **Step.**  From `$0200` on, every operation replays the serial memory. -/
theorem follows_step (ha : 512 ≤ a.toNat) (past : OpRow) (s : Session) (op : Op) :
    Follows a s (s.step past op) := by
  cases op with
  | peek addr drawn => exact follows_cmdPeek s addr drawn
  | poke addr v => exact follows_sramWrite s .shell addr [v]
  | list addr drawn => exact follows_cmdList past s addr drawn
  | as addr line => exact follows_cmdAs past s addr line
  | load destAddr audio => exact follows_load s destAddr audio
  | save startAddr endAddr sent => exact follows_saveLoop s startAddr _
  | sysLoad rSp audio => exact (follows_vmRamRead ha s _ 2).trans (follows_load _ _ audio)
  | sysSave rSp sent => exact (follows_vmRamRead ha s _ 4).trans (follows_saveLoop _ _ _)
  | vmRead addr size => exact follows_vmRamRead ha s addr size
  | vmWrite addr src => exact follows_vmRamWrite ha s addr src
  | draw drawn => exact follows_draw s drawn

/-- **Run.**  So does every history. -/
theorem follows_run (ha : 512 ≤ a.toNat) (past : OpRow) (fw : Firmware) (ops : List Op) :
    Follows a ⟨fw, []⟩ (run past fw ops) :=
  @follows_foldl a _ _ _ id (follows_step ha past) ops ⟨fw, []⟩

end Session

/-! ### One memory -/

/-- One side stores, the other reads. -/
def Across (q p : Party) : Prop := q = .shell ∧ p = .vm ∨ q = .vm ∧ p = .shell

/-- In every history, from any memory, what the shell stored last at `a` is what a
program reads there, and the other way round. -/
def SameMemory (past : OpRow) (a : Word) : Prop :=
  ∀ (fw : Firmware) (ops : List Session.Op), ReadsLast Across a (Session.run past fw ops).log

/-- A program reads the local memory below `$0200`. -/
theorem vmRamRead_isLocal (fw : Firmware) {a : Word} (ha : IsLocal a) :
    fw.vmRamRead a 1 = [fw.localRam a] := by
  have hpart : part a 1 = 1 := by
    rw [IsLocal] at ha
    rw [part]
    split
    · split <;> omega
    · omega
  rw [Firmware.vmRamRead, if_neg Nat.one_ne_zero, hpart]
  rfl

/-- **The shell and the programs share the memory from `$0200` on**, and nothing
below. -/
theorem sameMemory_iff (past : OpRow) (a : Word) : SameMemory past a ↔ 512 ≤ a.toNat := by
  constructor
  · intro h
    by_contra hlocal
    -- a byte poked at `a`, and a program that reads it
    let fw : Firmware := ⟨fun _ => 0, fun _ => 0⟩
    have hlog : (Session.run past fw [.poke a 1, .vmRead a 1]).log
        = [.stored .shell a 1] ++ .read .vm a 0 :: [] := by
      have hread := vmRamRead_isLocal (fw.sramWrite a [1]) (not_le.mp hlocal)
      exact congrArg ([Event.stored Party.shell a 1] ++ blockReads Party.vm a ·) hread
    have hlast : lastStored a [Event.stored Party.shell a (1 : Byte)] = some (.shell, 1) := by
      simp [lastStored]
    have heq : (0 : Byte) = 1 := h _ _ _ _ _ _ hlog _ _ hlast (.inl ⟨rfl, rfl⟩)
    exact absurd heq (by decide)
  · intro ha fw ops
    obtain ⟨es, hlog, hrep⟩ := Session.follows_run ha past fw ops
    rw [show (Session.run past fw ops).log = es from hlog]
    exact hrep.readsLast Across

/-- Page zero, in a memory that holds 0: what `poke` stores a program does not
read, and what a program stores `peek` does not show. -/
theorem poke_not_seen :
    ¬ SameMemory zeroRow 0 ∧
      (Session.run zeroRow ⟨fun _ => 0, fun _ => 0⟩ [.poke 0 1, .vmRead 0 1]).log
        = [.stored .shell 0 1, .read .vm 0 0] ∧
      (Session.run zeroRow ⟨fun _ => 0, fun _ => 0⟩ [.vmWrite 0 [1], .save 0 1 1]).log
        = [.stored .vm 0 1, .read .shell 0 0] := by
  refine ⟨fun h => ?_, by decide +kernel, by decide +kernel⟩
  have heq := h ⟨fun _ => 0, fun _ => 0⟩ [.poke 0 1, .vmRead 0 1] [.stored .shell 0 1] .vm 0 []
    (by decide +kernel) .shell 1 (by decide) (.inl ⟨rfl, rfl⟩)
  exact absurd heq (by decide)

end Dan64
