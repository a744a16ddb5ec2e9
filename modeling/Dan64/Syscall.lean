/-
Dan64/Syscall.lean

The services of the kernel: `vm_syscall` with all its handlers, and `SYS` through
`vm_exec`.

A `Kernel` is the memory that a program sees, the screen and what else the handlers
keep.  What arrives from outside during a call is in `Devices`.  A call may wait for
keys, or print a string that does not end, so that it need not return.

Of the registers the handlers assign `r_a` only (`vmSyscall_kept`).  What they leave
there is compared with the manual, one service after the other (`sys_contract_iff`).
-/
import Dan64.AudioReturn
import Dan64.GetInput
import Dan64.SharedMem
import Dan64.TerminalRender

namespace Dan64

open BlockMem CText Terminal

/-! ### The kernel -/

/-- What `vm_syscall` works on besides the registers; `seed` is the state of `rand`.  In the
source the buffer ends behind 128 bytes. -/
structure Kernel (R : Type) where
  localRam : Word → Byte
  term : Terminal
  buffer : ℕ → Byte
  progExit : Bool
  seed : R

/-- What arrives during a call: the results of `keyboard_asc`, the audio before the
timeout, and the overflow interrupt while `save` runs, from the ring and the counter that it
finds. -/
structure Devices where
  keys : List Byte
  audio : List Byte
  ring : RingBuf Byte 32
  cnt : ℕ
  saving : List AudioOut.Event

/-- No keys, no audio and no time for `save`. -/
def Devices.none : Devices := ⟨[], [], ⟨fun _ => 0, 0, 0, by decide, by decide⟩, 4, []⟩

/-- `rand` and `srand` of the standard library. -/
structure Random (R : Type) where
  rand : R → Word × R
  srand : Word → R

/-! ### Texts (`strings.h`) -/

def textErrOk : List Char := "Ok\n".toList
def textErrSys : List Char := "ERR: SYS %02x\n".toList
def textErrPrg : List Char := "ERR: PRG %02x\n".toList

/-- `vsnprintf`, as far as these texts need it. -/
def vsnprintf (n : ℕ) : List Char → List Char
  | '%' :: '0' :: '2' :: 'x' :: fmt => sprintfHex 2 n ++ vsnprintf n fmt
  | c :: fmt => c :: vsnprintf n fmt
  | [] => []

def chars (s : List Char) : List Byte := s.map fun c => BitVec.ofNat 8 c.toNat

/-- `strcpy_P` and `vm_ram_read` into a buffer. -/
def fill (buffer : ℕ → Byte) (bs : List Byte) : ℕ → Byte := fun i => bs.getD i (buffer i)

namespace Kernel

variable {R : Type}

/-- The memory behind `vm_ram_read` and `vm_ram_write`. -/
def fw (k : Kernel R) : Firmware := ⟨k.localRam, k.term.sram⟩

def withFw (k : Kernel R) (fw : Firmware) : Kernel R :=
  { k with localRam := fw.localRam, term := { k.term with sram := fw.sram } }

def vmRamWrite (k : Kernel R) (addr : Word) (src : List Byte) : Kernel R :=
  k.withFw (k.fw.vmRamWrite addr src)

instance : BlockMem 16 Byte (Kernel R) where
  read k a n := (k.fw.vmRamRead a n, k)
  write := vmRamWrite

variable (font : ℕ → Byte)

/-- `put_char` -/
def putChar (k : Kernel R) (c : Byte) : Kernel R := { k with term := k.term.putChar font c }

/-- A text is copied to the buffer and printed from there. -/
def putText (k : Kernel R) (text : List Char) (n : ℕ) : Kernel R :=
  (chars (vsnprintf n text)).foldl (putChar font)
    { k with buffer := fill k.buffer (chars text ++ [0]) }

/-! ### The handlers -/

/-- 0x00 -/
def terminate (k : Kernel R) (v : Byte) : Kernel R :=
  { (if v ≠ 0 then k.putText font textErrPrg v.toNat else k.putText font textErrOk 0) with
    progExit := true }

/-- 0x01 -/
def load (k : Kernel R) (addr : Word) (audio : List Byte) : Byte × Kernel R :=
  let r := Session.load ⟨k.fw, []⟩ addr audio
  (r.1, k.withFw r.2.fw)

/-- What `save` reads. -/
def saved (k : Kernel R) (addr count : Word) : List Byte := k.fw.sramRead addr count.toNat

/-- 0x02: nothing while `save` waits for space in the ring, or for the end. -/
def save (k : Kernel R) (addr count : Word) (dev : Devices) : Option (Byte × Kernel R) :=
  match (AudioOut.run (AudioOut.aoutOn dev.ring dev.cnt (AudioOut.save (k.saved addr count)))
      dev.saving).prog with
  | .ret code => some (code, k)
  | _ => none

/-- The character that 0x11 reads next. -/
def char (k : Kernel R) (addr : Word) : Byte := at_ (k.fw.vmRamRead addr 1) 0

/-- 0x11, the loop. -/
def putString : ℕ → Kernel R → Word → Byte → Option (Byte × Kernel R)
  | 0, _, _, _ => none
  | fuel + 1, k, addr, rA =>
    if k.char addr = 0 then some (rA, k)
    else putString fuel (k.putChar font (k.char addr)) (addr + 1) (rA + 1)

/-- 0x14: the local variables of the loop, and what it has displayed. -/
structure Writing (R : Type) where
  kernel : Kernel R
  addr : Word
  count : Word
  shown : List Byte

/-- A chunk. -/
def Writing.pass (w : Writing R) : Writing R :=
  let size := if w.count < 64 then w.count else 64
  let data := w.kernel.fw.vmRamRead w.addr size.toNat
  { kernel := data.foldl (putChar font) { w.kernel with buffer := fill w.kernel.buffer data }
    addr := w.addr + size
    count := w.count - size
    shown := w.shown ++ data }

def Writing.loop : ℕ → Writing R → Writing R
  | 0, w => w
  | fuel + 1, w => if w.count = 0 then w else loop fuel (w.pass font)

/-- The chunks of 0x14; every chunk has a byte. -/
def writing (k : Kernel R) (addr count : Word) : Writing R :=
  Writing.loop font count.toNat ⟨k, addr, count, []⟩

/-- 0x14 -/
def write (k : Kernel R) (fd addr count : Word) : Byte × Kernel R :=
  if 0 < fd ∧ fd < 3 ∧ count ≠ 0 then
    (0 + count.setWidth 8, (k.writing font addr count).kernel)
  else (0, k)

/-- 0x21: nothing while `buffered_input` waits. -/
def getInput (k : Kernel R) (addr : Word) (v2 : Byte) (keys : List Byte) :
    Option (Byte × Kernel R) :=
  match bufferedInput font k.term k.buffer (inputSize v2) keys with
  | .editing _ => none
  | .idle t buffer ret =>
    some (ret, { k with term := t, buffer := buffer }.vmRamWrite addr
      ((List.range ret.toNat).map buffer))

/-- 0x22: the local variables of the loop. -/
structure Reading (R : Type) where
  kernel : Kernel R
  addr : Word
  count : Word
  rA : Byte

/-- A key; the end of a line is `'\n'` already. -/
def Reading.key (r : Reading R) (v : Byte) : Reading R :=
  { kernel := (r.kernel.putChar font v).vmRamWrite r.addr [v]
    addr := r.addr + 1
    count := r.count - 1
    rA := r.rA + 1 }

/-- Nothing while the loop waits for keys. -/
def Reading.loop : List Byte → Reading R → Option (Reading R)
  | [], r => if r.count = 0 then some r else none
  | v :: keys, r =>
    if r.count = 0 then some r else loop keys (if v ≠ 0 then r.key font v else r)

/-- 0x22 -/
def read (k : Kernel R) (fd addr count : Word) (keys : List Byte) : Option (Byte × Kernel R) :=
  if fd = 0 ∧ count ≠ 0 then
    (Reading.loop font keys ⟨k, addr, count, 0⟩).map fun r => (r.rA, r.kernel)
  else some (0, k)

/-- 0x30 -/
def putTile (k : Kernel R) (addr : Word) : Kernel R :=
  let buffer := fill k.buffer (k.fw.vmRamRead addr 8)
  { k with buffer := buffer, term := k.term.videoPutTile k.term.x k.term.y buffer }

end Kernel

/-! ### `vm_syscall` -/

section Syscall

variable {R : Type}

/-- `v[i]` after `vm_ram_read(addr16(r_sp + 1, 1), v, n)`. -/
def Vm.param (s : Vm (Kernel R)) (n i : ℕ) : Byte :=
  at_ (s.ram.fw.vmRamRead (addr16 (word s.rSp + 1) 1) n) i

/-- `addr16(v[i + 1], v[i])` -/
def Vm.paramWord (s : Vm (Kernel R)) (n i : ℕ) : Word :=
  addr16 (word (s.param n (i + 1))) (word (s.param n i))

/-- A handler is done. -/
def Vm.result (s : Vm (Kernel R)) (r : Byte × Kernel R) : Vm (Kernel R) :=
  { s with rA := r.1, ram := r.2 }

variable (font : ℕ → Byte) (rng : Random R) (fuel : ℕ) (dev : Devices)

def vmSyscall (func : Byte) (s : Vm (Kernel R)) : Option (Vm (Kernel R)) :=
  let k := s.ram
  match func with
  | 0x00 => some { s with ram := k.terminate font (s.param 1 0) }
  | 0x01 => some (s.result (k.load (s.paramWord 2 0) dev.audio))
  | 0x02 => (k.save (s.paramWord 4 0) (s.paramWord 4 2) dev).map s.result
  | 0x10 =>
    some (s.result (0, { k with
      term := k.term.videoPutChar font k.term.x k.term.y (s.param 1 0) }))
  | 0x11 => (k.putString font fuel (s.paramWord 2 0) 0).map s.result
  | 0x12 =>
    let r := k.term.setCursor (s.param 2 0) (s.param 2 1)
    some (s.result (r.1, { k with term := r.2 }))
  | 0x13 =>
    let r := k.term.fillScreen font (s.param 1 0)
    some (s.result (r.1, { k with term := r.2 }))
  | 0x14 => some (s.result (k.write font (s.paramWord 6 0) (s.paramWord 6 2) (s.paramWord 6 4)))
  | 0x20 => some { s with rA := dev.keys.headD 0 }
  | 0x21 => (k.getInput font (s.paramWord 3 0) (s.param 3 2) dev.keys).map s.result
  | 0x22 =>
    (k.read font (s.paramWord 6 0) (s.paramWord 6 2) (s.paramWord 6 4) dev.keys).map s.result
  -- no result: `r_a` stays
  | 0x30 => some { s with ram := k.putTile (s.paramWord 2 0) }
  | 0xa0 =>
    let r := rng.rand k.seed
    some (s.result (r.1.setWidth 8, { k with seed := r.2 }))
  | 0xa1 => some s
  | 0xa2 => some (s.result (0, { k with seed := rng.srand (s.paramWord 2 0) }))
  | 0xf0 => some { s with rA := 1 }
  | _ => some { s with ram := { k.putText font textErrSys func.toNat with progExit := true } }

/-- `SYS` through `vm_exec`, if the call returns. -/
def vmExecSys (s : Vm (Kernel R)) : Option (Vm (Kernel R)) :=
  (vmSyscall font rng fuel dev s.rA s.fetch.2).bind fun u => vmExec (fun _ _ => u) s

end Syscall

/-! ### What a call keeps -/

section Kept

variable {R : Type}

/-- The registers other than `A` and the program counter. -/
structure KeepsRegisters (s t : Vm (Kernel R)) : Prop where
  rX : t.rX = s.rX
  rY : t.rY = s.rY
  rSp : t.rSp = s.rSp
  rS : t.rS = s.rS

variable {font : ℕ → Byte} {rng : Random R} {fuel : ℕ} {dev : Devices} {func : Byte}
  {s t u : Vm (Kernel R)}

theorem vmSyscall_kept (h : vmSyscall font rng fuel dev func s = some u) :
    KeepsRegisters s u ∧ u.rPc = s.rPc := by
  -- whatever the handler returns, the registers are those of `s`
  have hresult : ∀ {o : Option (Byte × Kernel R)}, o.map s.result = some u →
      KeepsRegisters s u ∧ u.rPc = s.rPc := by
    intro o ho
    obtain ⟨r, -, rfl⟩ := Option.map_eq_some_iff.mp ho
    exact ⟨⟨rfl, rfl, rfl, rfl⟩, rfl⟩
  rw [vmSyscall.eq_def] at h
  split at h
  all_goals first
    | exact hresult h
    | (obtain rfl := Option.some.inj h; exact ⟨⟨rfl, rfl, rfl, rfl⟩, rfl⟩)

/-- `SYS` is the call, and the next instruction. -/
theorem vmExecSys_eq_some (hop : s.fetch.1.op = 0x02) :
    vmExecSys font rng fuel dev s = some t ↔
      ∃ u, vmSyscall font rng fuel dev s.rA s = some u ∧ t = u.next 1 := by
  rw [vmExecSys, Option.bind_eq_some_iff]
  have hexec : ∀ u : Vm (Kernel R), vmExec (fun _ _ => u) s = some (u.next 1) := by
    intro u
    rw [vmExec, hop]
    rfl
  constructor
  · rintro ⟨u, hu, ht⟩
    rw [hexec] at ht
    exact ⟨u, hu, (Option.some.inj ht).symm⟩
  · rintro ⟨u, hu, rfl⟩
    exact ⟨u, hu, hexec u⟩

end Kept

/-! ### The loops -/

/-- A string of `n` characters, and the zero at its end. -/
structure ZString (f : ℕ → Byte) (n : ℕ) : Prop where
  zero : f n = 0
  chars : ∀ m < n, f m ≠ 0

/-- A string has one length. -/
theorem ZString.unique {f : ℕ → Byte} {n m : ℕ} (hn : ZString f n) (hm : ZString f m) : n = m := by
  rcases Nat.lt_trichotomy n m with h | h | h
  · exact absurd hn.zero (hm.chars n h)
  · exact h
  · exact absurd hm.zero (hn.chars m h)

theorem exists_zString {f : ℕ → Byte} {n : ℕ} (h : f n = 0) : ∃ m ≤ n, ZString f m := by
  have hex : ∃ n, f n = 0 := ⟨n, h⟩
  exact ⟨Nat.find hex, Nat.find_min' hex h, Nat.find_spec hex, fun m hm => Nat.find_min hex hm⟩

namespace Kernel

variable {R : Type} {font : ℕ → Byte}

section PutString

variable (font)

/-- The kernel after `n` characters of the string at `addr` are printed. -/
def printed (k : Kernel R) (addr : Word) : ℕ → Kernel R
  | 0 => k
  | n + 1 =>
    let k := k.printed addr n
    k.putChar font (k.char (addr + BitVec.ofNat 16 n))

/-- The characters of the string, each as it is when the ones before it are printed. -/
def charAt (k : Kernel R) (addr : Word) (n : ℕ) : Byte :=
  (k.printed font addr n).char (addr + BitVec.ofNat 16 n)

variable {font}

theorem printed_succ (k : Kernel R) (addr : Word) (n : ℕ) :
    k.printed font addr (n + 1)
      = (k.putChar font (k.char addr)).printed font (addr + 1) n := by
  induction n with
  | zero => simp [printed]
  | succ n ih => rw [printed, ih, printed, add_one_add_ofNat]

theorem charAt_succ (k : Kernel R) (addr : Word) (n : ℕ) :
    k.charAt font addr (n + 1)
      = (k.putChar font (k.char addr)).charAt font (addr + 1) n := by
  rw [charAt, charAt, printed_succ, add_one_add_ofNat]

/-- **0x11** prints the string and counts its characters in a byte. -/
theorem putString_eq_some {fuel : ℕ} {k : Kernel R} {addr : Word} {rA : Byte}
    {r : Byte × Kernel R} :
    k.putString font fuel addr rA = some r ↔
      ∃ n < fuel, ZString (k.charAt font addr) n ∧
        r = (rA + BitVec.ofNat 8 n, k.printed font addr n) := by
  induction fuel generalizing k addr rA with
  | zero => simp [putString]
  | succ fuel ih =>
    have hhead : k.charAt font addr 0 = k.char addr := by simp [charAt, printed]
    rw [putString]
    by_cases hzero : k.char addr = 0
    · rw [if_pos hzero]
      constructor
      · intro h
        exact ⟨0, by omega, ⟨hhead.trans hzero, by simp⟩, by simpa [printed] using h.symm⟩
      · rintro ⟨n, -, hn, rfl⟩
        have hempty : ZString (k.charAt font addr) 0 := ⟨hhead.trans hzero, by simp⟩
        obtain rfl := hempty.unique hn
        simp [printed]
    · rw [if_neg hzero, ih]
      -- the string without its first character
      have htail : ∀ n, ZString (k.charAt font addr) (n + 1) ↔
          ZString ((k.putChar font (k.char addr)).charAt font (addr + 1)) n := by
        intro n
        constructor
        · rintro ⟨hz, hc⟩
          refine ⟨(charAt_succ k addr n).symm.trans hz, fun m hm => ?_⟩
          rw [← charAt_succ]
          exact hc (m + 1) (by omega)
        · rintro ⟨hz, hc⟩
          refine ⟨(charAt_succ k addr n).trans hz, fun m hm => ?_⟩
          rcases m with - | m
          · exact fun h => hzero (hhead.symm.trans h)
          · rw [charAt_succ]
            exact hc m (by omega)
      have hcount : ∀ n, rA + 1 + BitVec.ofNat 8 n = rA + BitVec.ofNat 8 (n + 1) :=
        fun n => add_one_add_ofNat rA n
      constructor
      · rintro ⟨n, hn, hs, rfl⟩
        exact ⟨n + 1, by omega, (htail n).mpr hs, by rw [hcount, printed_succ]⟩
      · rintro ⟨n, hn, hs, rfl⟩
        rcases n with - | n
        · exact absurd (hhead.symm.trans hs.zero) hzero
        · exact ⟨n, by omega, (htail n).mp hs, by rw [hcount, printed_succ]⟩

end PutString

/-! ### The keys of 0x22 -/

/-- The key codes among the results of `keyboard_asc`. -/
def keyCodes (keys : List Byte) : List Byte := keys.filter (· ≠ 0)

/-- A byte of the program's memory. -/
def poke (k : Kernel R) (a : Word) (v : Byte) : Kernel R :=
  if IsLocal a then { k with localRam := Function.update k.localRam a v }
  else { k with term := { k.term with sram := Function.update k.term.sram a v } }

theorem vmRamWrite_byte (k : Kernel R) (a : Word) (v : Byte) : k.vmRamWrite a [v] = k.poke a v := by
  rw [vmRamWrite, poke, Firmware.vmRamWrite, if_neg (List.length_singleton ▸ Nat.one_ne_zero)]
  by_cases ha : IsLocal a
  · have hlt : a.toNat < 512 := ha
    have hpart : part a 1 = 1 := by
      rw [part, if_pos hlt, if_neg (by omega)]
    simp only [if_pos ha, List.length_singleton, hpart]
    rfl
  · have hpart : part a 1 = 0 := if_neg ha
    have hzero : a + BitVec.ofNat 16 0 = a := BitVec.add_zero a
    simp only [if_neg ha, List.length_singleton, hpart, hzero]
    rfl

/-- The keys are displayed and stored one after the other. -/
theorem Reading.foldl_key (r : Reading R) (vs : List Byte) :
    (vs.foldl (Reading.key font) r).rA = r.rA + BitVec.ofNat 8 vs.length ∧
      (vs.foldl (Reading.key font) r).kernel = ((blockCells r.addr vs.length).zip vs).foldl
        (fun k p => (k.putChar font p.2).poke p.1 p.2) r.kernel := by
  induction vs generalizing r with
  | nil => simp [blockCells]
  | cons v vs ih =>
    obtain ⟨hrA, hkernel⟩ := ih (r.key font v)
    rw [List.foldl_cons, hrA, hkernel, List.length_cons, blockCells_succ, List.zip_cons_cons,
      List.foldl_cons, ← vmRamWrite_byte]
    exact ⟨add_one_add_ofNat r.rA vs.length, rfl⟩

/-- **0x22** takes the next keys, and waits for them. -/
theorem Reading.loop_eq (keys : List Byte) (r : Reading R) :
    Reading.loop font keys r =
      if r.count.toNat ≤ (keyCodes keys).length then
        some (((keyCodes keys).take r.count.toNat).foldl (Reading.key font) r)
      else none := by
  induction keys generalizing r with
  | nil =>
    rw [Reading.loop]
    by_cases hzero : r.count = 0
    · simp [hzero, keyCodes]
    · have hpos : ¬ r.count.toNat ≤ (keyCodes []).length := by
        simp only [keyCodes, List.filter_nil, List.length_nil]
        bv_omega
      rw [if_neg hzero, if_neg hpos]
  | cons v keys ih =>
    rw [Reading.loop]
    by_cases hzero : r.count = 0
    · simp [hzero]
    · have hcount : r.count.toNat = (r.count - 1).toNat + 1 := by bv_omega
      rw [if_neg hzero, ih]
      by_cases hv : v ≠ 0
      · have hcodes : keyCodes (v :: keys) = v :: keyCodes keys :=
          List.filter_cons_of_pos (by simpa using hv)
        rw [if_pos hv, hcodes, hcount]
        simp [Reading.key]
      · have hcodes : keyCodes (v :: keys) = keyCodes keys :=
          List.filter_cons_of_neg (by simpa using hv)
        rw [if_neg hv, hcodes]

end Kernel

/-! ### The manual -/

/-- The services. -/
inductive Service
  | terminate | load | save | putCharacter | putString | setCursor | fillScreen | write
  | getCharacter | getInput | read | putTile | random | waitVsync | srand | version

def Service.func : Service → Byte
  | .terminate => 0x00
  | .load => 0x01
  | .save => 0x02
  | .putCharacter => 0x10
  | .putString => 0x11
  | .setCursor => 0x12
  | .fillScreen => 0x13
  | .write => 0x14
  | .getCharacter => 0x20
  | .getInput => 0x21
  | .read => 0x22
  | .putTile => 0x30
  | .random => 0xa0
  | .waitVsync => 0xa1
  | .srand => 0xa2
  | .version => 0xf0

section Contract

variable {R : Type}

/-- A frame from the audio is complete, and its sum is right. -/
def Loaded (k : Kernel R) (addr : Word) (audio : List Byte) : Prop :=
  (Session.loadLoop (⟨k.fw, []⟩, addr) initDecoder audio).2.control = C_END

/-- The wait for the end begins before an interrupt has found the ring empty, and all the
samples are played. -/
def Saved (k : Kernel R) (addr count : Word) (dev : Devices) : Prop :=
  AudioOut.Succeeds ((AudioOut.samples (k.saved addr count)).map AudioOut.saveQueue)
    (AudioOut.aoutOn dev.ring dev.cnt (AudioOut.save (k.saved addr count))) dev.saving

/-- What the manual says about `a`, returned in `A`. -/
def Service.Documented (svc : Service) (font : ℕ → Byte) (rng : Random R) (dev : Devices)
    (s : Vm (Kernel R)) (a : Byte) : Prop :=
  match svc with
  | .terminate | .waitVsync => True
  | .load => Loaded s.ram (s.paramWord 2 0) dev.audio → a = 0
  | .save => a = 0 ↔ Saved s.ram (s.paramWord 4 0) (s.paramWord 4 2) dev
  | .setCursor => (s.param 2 0).toNat ≤ 31 ∧ (s.param 2 1).toNat ≤ 23 → a = 0
  | .putCharacter | .fillScreen | .putTile | .srand => a = 0
  | .putString => ∀ n, ZString (s.ram.charAt font (s.paramWord 2 0)) n → a.toNat = n
  | .write =>
    a.toNat = if s.paramWord 6 0 = 1 ∨ s.paramWord 6 0 = 2 then (s.paramWord 6 4).toNat else 0
  | .read => a.toNat = if s.paramWord 6 0 = 0 then (s.paramWord 6 4).toNat else 0
  | .getCharacter => a = dev.keys.headD 0
  -- with the zero at the end
  | .getInput => ∀ t buffer ret,
    bufferedInput font s.ram.term s.ram.buffer (inputSize (s.param 3 2)) dev.keys
      = .idle t buffer ret → a.toNat = ret.toNat + 1
  | .random => a = (rng.rand s.ram.seed).1.setWidth 8
  | .version => a = 1

/-- What it takes. -/
def Service.Fits (svc : Service) (font : ℕ → Byte) (s : Vm (Kernel R)) : Prop :=
  match svc with
  | .putTile | .getInput => False
  | .putString => ∃ n < 256, s.ram.charAt font (s.paramWord 2 0) n = 0
  | .write => s.paramWord 6 0 = 1 ∨ s.paramWord 6 0 = 2 → (s.paramWord 6 4).toNat < 256
  | .read => s.paramWord 6 0 = 0 → (s.paramWord 6 4).toNat < 256
  | _ => True

/-- What the calls that wait are waiting for. -/
def Service.Ends (svc : Service) (font : ℕ → Byte) (dev : Devices) (s : Vm (Kernel R)) : Prop :=
  match svc with
  | .putString => ∃ n, s.ram.charAt font (s.paramWord 2 0) n = 0
  | .getInput => ∃ t buffer ret,
    bufferedInput font s.ram.term s.ram.buffer (inputSize (s.param 3 2)) dev.keys
      = .idle t buffer ret
  | .read => s.paramWord 6 0 = 0 → (s.paramWord 6 4).toNat ≤ (Kernel.keyCodes dev.keys).length
  | .save => ∃ code, (AudioOut.run (AudioOut.aoutOn dev.ring dev.cnt (AudioOut.save
      (s.ram.saved (s.paramWord 4 0) (s.paramWord 4 2)))) dev.saving).prog = .ret code
  | _ => True

variable {font : ℕ → Byte} {rng : Random R} {fuel : ℕ} {dev : Devices} {s t u : Vm (Kernel R)}

/-- 0x21 is the service of `sysGetInput`. -/
theorem vmSyscall_getInput :
    (vmSyscall font rng fuel dev Service.getInput.func s).map (fun u => (u.rA, u.ram.fw))
      = (sysGetInput font s.ram.localRam s.ram.term s.ram.buffer s.rSp dev.keys).map
          fun r => (r.rA, r.fw) := by
  show ((s.ram.getInput font (s.paramWord 3 0) (s.param 3 2) dev.keys).map s.result).map _ = _
  have hargs : getInputArgs ⟨s.ram.localRam, s.ram.term.sram⟩ s.rSp
      = (s.paramWord 3 0, s.param 3 2) := rfl
  rw [Kernel.getInput, sysGetInput, hargs]
  dsimp only
  rcases bufferedInput font s.ram.term s.ram.buffer (inputSize (s.param 3 2)) dev.keys with
    ⟨t, buffer, ret⟩ | e
  · rfl
  · rfl

/-- A byte counts to 255. -/
theorem toNat_count_eq_iff (n : ℕ) : (0 + BitVec.ofNat 8 n : Byte).toNat = n ↔ n < 256 := by
  have hzero : (0 + BitVec.ofNat 8 n : Byte) = BitVec.ofNat 8 n := BitVec.zero_add _
  rw [hzero, BitVec.toNat_ofNat]
  exact ⟨fun h => h ▸ Nat.mod_lt n (by decide), Nat.mod_eq_of_lt⟩

theorem putString_documented_iff
    (h : vmSyscall font rng fuel dev Service.putString.func s = some u) :
    Service.putString.Documented font rng dev s u.rA ↔ Service.putString.Fits font s := by
  obtain ⟨r, hr, rfl⟩ := Option.map_eq_some_iff.mp h
  obtain ⟨n, -, hn, rfl⟩ := Kernel.putString_eq_some.mp hr
  constructor
  · intro hdoc
    exact ⟨n, (toNat_count_eq_iff n).mp (hdoc n hn), hn.zero⟩
  · rintro ⟨m, hm, hzero⟩ n' hn'
    obtain ⟨l, hl, hstr⟩ := exists_zString hzero
    obtain rfl := hstr.unique hn
    obtain rfl := hstr.unique hn'
    exact (toNat_count_eq_iff l).mpr (by omega)

/-- The results of 0x14 and 0x22: a count, or 0 if the file is not theirs. -/
theorem count_documented_iff {p : Prop} [Decidable p] {a : Byte} {count : Word}
    (ha : a = if p ∧ count ≠ 0 then 0 + count.setWidth 8 else 0) :
    (a.toNat = if p then count.toNat else 0) ↔ (p → count.toNat < 256) := by
  have hcount : (0 + count.setWidth 8 : Byte) = 0 + BitVec.ofNat 8 count.toNat := rfl
  by_cases hp : p
  · rw [if_pos hp, ha]
    by_cases hzero : count = 0
    · simp [hzero]
    · rw [if_pos ⟨hp, hzero⟩, hcount, toNat_count_eq_iff]
      exact ⟨fun h _ => h, fun h => h hp⟩
  · rw [if_neg hp, ha, if_neg fun h => hp h.1]
    exact ⟨fun _ h => absurd h hp, fun _ => rfl⟩

theorem Kernel.write_rA (k : Kernel R) (fd addr count : Word) :
    (k.write font fd addr count).1
      = if (fd = 1 ∨ fd = 2) ∧ count ≠ 0 then 0 + count.setWidth 8 else 0 := by
  have hfd : (fd = 1 ∨ fd = 2) ∧ count ≠ 0 ↔ 0 < fd ∧ fd < 3 ∧ count ≠ 0 := by bv_omega
  rw [Kernel.write]
  by_cases h : 0 < fd ∧ fd < 3 ∧ count ≠ 0
  · rw [if_pos h, if_pos (hfd.mpr h)]
  · rw [if_neg h, if_neg fun h' => h (hfd.mp h')]

theorem Kernel.read_rA {k : Kernel R} {fd addr count : Word} {keys : List Byte}
    {r : Byte × Kernel R} (h : k.read font fd addr count keys = some r) :
    r.1 = if fd = 0 ∧ count ≠ 0 then 0 + count.setWidth 8 else 0 := by
  rw [Kernel.read] at h
  by_cases hfd : fd = 0 ∧ count ≠ 0
  · rw [if_pos hfd] at h
    obtain ⟨q, hq, rfl⟩ := Option.map_eq_some_iff.mp h
    rw [Kernel.Reading.loop_eq, Option.ite_none_right_eq_some] at hq
    obtain ⟨hle, hq⟩ := hq
    rw [if_pos hfd, ← Option.some.inj hq, (Kernel.Reading.foldl_key _ _).1, List.length_take,
      Nat.min_eq_left hle]
    rfl
  · rw [if_neg hfd] at h ⊢
    rw [← Option.some.inj h]

theorem Kernel.read_eq_some {k : Kernel R} {fd addr count : Word} {keys : List Byte} :
    (∃ r, k.read font fd addr count keys = some r) ↔
      (fd = 0 → count.toNat ≤ (keyCodes keys).length) := by
  rw [Kernel.read]
  by_cases hfd : fd = 0 ∧ count ≠ 0
  · rw [if_pos hfd, Kernel.Reading.loop_eq]
    by_cases hle : count.toNat ≤ (keyCodes keys).length
    · rw [if_pos hle]
      exact ⟨fun _ _ => hle, fun _ => ⟨_, rfl⟩⟩
    · rw [if_neg hle]
      exact ⟨nofun, fun h => absurd (h hfd.1) hle⟩
  · rw [if_neg hfd]
    refine ⟨fun _ hzero => ?_, fun _ => ⟨_, rfl⟩⟩
    have hcount : count = 0 := by
      by_contra hne
      exact hfd ⟨hzero, hne⟩
    rw [hcount]
    exact Nat.zero_le _

theorem Kernel.save_eq_some {k : Kernel R} {addr count : Word} {r : Byte × Kernel R} :
    k.save addr count dev = some r ↔ ∃ code,
      (AudioOut.run (AudioOut.aoutOn dev.ring dev.cnt (AudioOut.save (k.saved addr count)))
        dev.saving).prog = .ret code ∧ r = (code, k) := by
  rw [Kernel.save]
  split
  · next code hret =>
    rw [hret]
    constructor
    · rintro ⟨⟩
      exact ⟨code, rfl, rfl⟩
    · rintro ⟨_, ⟨⟩, rfl⟩
      rfl
  · next hno =>
    constructor
    · rintro ⟨⟩
    · rintro ⟨code, hret, -⟩
      exact absurd hret (hno code)

theorem documented_iff (svc : Service) (hA : s.rA = svc.func)
    (h : vmSyscall font rng fuel dev svc.func s = some u) :
    svc.Documented font rng dev s u.rA ↔ svc.Fits font s := by
  cases svc with
  | putString => exact putString_documented_iff h
  | write =>
    obtain rfl := Option.some.inj h
    exact count_documented_iff (s.ram.write_rA _ _ _)
  | read =>
    obtain ⟨r, hr, rfl⟩ := Option.map_eq_some_iff.mp h
    exact count_documented_iff (Kernel.read_rA hr)
  | getInput =>
    -- the zero is not counted
    obtain ⟨r, hr, rfl⟩ := Option.map_eq_some_iff.mp h
    rw [Kernel.getInput] at hr
    split at hr
    · cases hr
    · next t buffer ret heq =>
      obtain rfl := Option.some.inj hr
      have hne : ret.toNat ≠ ret.toNat + 1 := by omega
      exact ⟨fun hdoc => hne (hdoc t buffer ret heq), False.elim⟩
  | putTile =>
    -- `A` holds the number of the service
    obtain rfl := Option.some.inj h
    refine ⟨fun hdoc => ?_, False.elim⟩
    exact absurd (hA.symm.trans hdoc) (by decide)
  | load =>
    obtain rfl := Option.some.inj h
    exact ⟨fun _ => trivial, fun _ hdone => if_pos hdone⟩
  | save =>
    obtain ⟨r, hr, rfl⟩ := Option.map_eq_some_iff.mp h
    obtain ⟨code, hret, rfl⟩ := Kernel.save_eq_some.mp hr
    exact ⟨fun _ => trivial, fun _ => AudioOut.ret_zero_iff _ _ _ hret⟩
  | setCursor =>
    obtain rfl := Option.some.inj h
    refine ⟨fun _ => trivial, fun _ ⟨hx, hy⟩ => ?_⟩
    have hcell : ¬ (31 < s.param 2 0 ∨ 23 < s.param 2 1) := by bv_omega
    show (s.ram.term.setCursor _ _).1 = 0
    rw [Terminal.setCursor, if_neg hcell]
  | terminate | waitVsync => exact ⟨fun _ => trivial, fun _ => trivial⟩
  | putCharacter | fillScreen | getCharacter | random | srand | version =>
    obtain rfl := Option.some.inj h
    exact ⟨fun _ => trivial, fun _ => rfl⟩

/-- Every call but these four returns at once. -/
theorem vmSyscall_returns_iff (svc : Service) :
    (∃ fuel u, vmSyscall font rng fuel dev svc.func s = some u) ↔ svc.Ends font dev s := by
  cases svc with
  | putString =>
    constructor
    · rintro ⟨fuel, u, h⟩
      obtain ⟨r, hr, -⟩ := Option.map_eq_some_iff.mp h
      obtain ⟨n, -, hn, -⟩ := Kernel.putString_eq_some.mp hr
      exact ⟨n, hn.zero⟩
    · rintro ⟨n, hn⟩
      obtain ⟨m, -, hm⟩ := exists_zString hn
      have hput := @Kernel.putString_eq_some R font (m + 1) s.ram (s.paramWord 2 0) 0 _ |>.mpr
        ⟨m, by omega, hm, rfl⟩
      exact ⟨m + 1, _, Option.map_eq_some_iff.mpr ⟨_, hput, rfl⟩⟩
  | getInput =>
    constructor
    · rintro ⟨fuel, u, h⟩
      obtain ⟨r, hr, -⟩ := Option.map_eq_some_iff.mp h
      rw [Kernel.getInput] at hr
      split at hr
      · cases hr
      · next t buffer ret heq => exact ⟨t, buffer, ret, heq⟩
    · rintro ⟨t, buffer, ret, heq⟩
      have hget : s.ram.getInput font (s.paramWord 3 0) (s.param 3 2) dev.keys
          = some (ret, { s.ram with term := t, buffer := buffer }.vmRamWrite (s.paramWord 3 0)
              ((List.range ret.toNat).map buffer)) := by
        rw [Kernel.getInput, heq]
      exact ⟨0, _, Option.map_eq_some_iff.mpr ⟨_, hget, rfl⟩⟩
  | read =>
    constructor
    · rintro ⟨fuel, u, h⟩ hfd
      obtain ⟨r, hr, -⟩ := Option.map_eq_some_iff.mp h
      exact (Kernel.read_eq_some.mp ⟨r, hr⟩) hfd
    · intro hkeys
      obtain ⟨r, hr⟩ := Kernel.read_eq_some.mpr hkeys
      exact ⟨0, _, Option.map_eq_some_iff.mpr ⟨r, hr, rfl⟩⟩
  | save =>
    constructor
    · rintro ⟨fuel, u, h⟩
      obtain ⟨r, hr, -⟩ := Option.map_eq_some_iff.mp h
      obtain ⟨code, hret, -⟩ := Kernel.save_eq_some.mp hr
      exact ⟨code, hret⟩
    · rintro ⟨code, hret⟩
      exact ⟨0, _, Option.map_eq_some_iff.mpr ⟨_, Kernel.save_eq_some.mpr ⟨code, hret, rfl⟩, rfl⟩⟩
  | _ => exact ⟨fun _ => trivial, fun _ => ⟨0, _, rfl⟩⟩

/-- Whether a call to `save` returns is up to the interrupt. -/
theorem save_ends_or_not (font : ℕ → Byte) (s : Vm (Kernel R)) :
    (∃ dev, Service.save.Ends font dev s) ∧
      ∃ dev : Devices, ∀ events,
        ¬ Service.save.Ends font { dev with saving := dev.saving ++ events } s := by
  obtain ⟨events, hret⟩ := AudioOut.exists_save Devices.none.ring
    (s.ram.saved (s.paramWord 4 0) (s.paramWord 4 2))
  obtain ⟨events', hhung⟩ := AudioOut.exists_hung Devices.none.ring
    (s.ram.saved (s.paramWord 4 0) (s.paramWord 4 2))
  refine ⟨⟨{ Devices.none with saving := events }, 0, hret⟩,
    { Devices.none with saving := events' }, fun es hends => ?_⟩
  obtain ⟨code, hret'⟩ := hends
  obtain ⟨byte, k, hprog, -⟩ := (hhung es).1
  cases hprog.symm.trans hret'

/-- **The contract of `SYS`**: a call that returns keeps the other registers and goes on to
the next instruction, and leaves the documented result in `A` exactly if it fits; and
when it returns. -/
theorem sys_contract_iff (font : ℕ → Byte) (rng : Random R) (dev : Devices) (svc : Service)
    (s : Vm (Kernel R)) (hop : s.fetch.1.op = 0x02) (hA : s.rA = svc.func) :
    (∀ fuel t, vmExecSys font rng fuel dev s = some t →
      KeepsRegisters s t ∧ t.rPc = s.rPc + 1 ∧
        (svc.Documented font rng dev s t.rA ↔ svc.Fits font s)) ∧
      ((∃ fuel t, vmExecSys font rng fuel dev s = some t) ↔ svc.Ends font dev s) := by
  constructor
  · intro fuel t ht
    obtain ⟨u, hu, rfl⟩ := (vmExecSys_eq_some hop).mp ht
    obtain ⟨hkept, hpc⟩ := vmSyscall_kept hu
    rw [hA] at hu
    have hdoc := documented_iff svc hA hu
    exact ⟨⟨hkept.rX, hkept.rY, hkept.rSp, hkept.rS⟩, congrArg (· + 1) hpc, hdoc⟩
  · rw [← @vmSyscall_returns_iff R font rng dev s svc, ← hA]
    constructor
    · rintro ⟨fuel, t, ht⟩
      obtain ⟨u, hu, -⟩ := (vmExecSys_eq_some hop).mp ht
      exact ⟨fuel, u, hu⟩
    · rintro ⟨fuel, u, hu⟩
      exact ⟨fuel, _, (vmExecSys_eq_some hop).mpr ⟨u, hu, rfl⟩⟩

/-- A generator with one number, for the runs on fixed states. -/
def fixedRandom : Random Unit := ⟨fun _ => (0, ()), fun _ => ()⟩

/-- `SYS` at `$1a00`, in a memory that holds 2 everywhere. -/
def atSys (rA : Byte) : Vm (Kernel Unit) :=
  ⟨rA, 0, 0, 0xf0, 0, 0x1a00, ⟨fun _ => 2, ⟨0, 0, false, fun _ => 2, []⟩, fun _ => 0, false, ()⟩⟩

theorem sys_contract_iff_write :
    let dev : Devices := Devices.none
    let s := atSys 0x14
    (∀ fuel t, vmExecSys (fun _ => 0) fixedRandom fuel dev s = some t →
      KeepsRegisters s t ∧ t.rPc = s.rPc + 1 ∧
        (Service.write.Documented (fun _ => 0) fixedRandom dev s t.rA ↔
          Service.write.Fits (fun _ => 0) s)) ∧
      ((∃ fuel t, vmExecSys (fun _ => 0) fixedRandom fuel dev s = some t) ↔
        Service.write.Ends (fun _ => 0) dev s) :=
  sys_contract_iff (fun _ => 0) fixedRandom Devices.none .write (atSys 0x14) (by decide)
    (by decide)

/-- Put tile returns its own number. -/
theorem putTile_not_zero :
    let dev : Devices := Devices.none
    ∃ t, vmExecSys (fun _ => 0) fixedRandom 0 dev (atSys 0x30) = some t ∧ t.rA = 0x30 ∧
      ¬ Service.putTile.Documented (fun _ => 0) fixedRandom dev (atSys 0x30) t.rA :=
  ⟨_, rfl, rfl, (by decide : (0x30 : Byte) ≠ 0)⟩

end Contract

end Dan64
