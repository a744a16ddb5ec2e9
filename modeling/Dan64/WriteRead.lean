/-
Dan64/WriteRead.lean

The services behind `write` and `read` of C programs: what 0x14 displays, what 0x22
stores, and the number that the caller gets.

0x14 goes through a buffer of 64 bytes.  `Writing.Follows` is the invariant of its loop:
the bytes displayed so far are those of the chunks read so far, each from the memory as
it was then, since the program may write out the screen itself.  A chunk that runs past
`$ffff` is read from the serial memory.

Both count in the byte `r_a`, and `_write` and `_read` set `X` to zero: a count from 256
on is reported modulo 256 (`write_read_iff`).
-/
import Dan64.CRuntime
import Dan64.Syscall
import Dan64.TerminalBounds

namespace Dan64

open BlockMem Terminal CRuntime

variable {R : Type} (font : ℕ → Byte)

/-! ### The value of the C function -/

/-- The machine as a wrapper sees it. -/
def Vm.toFlat (s : Vm (Kernel R)) : FlatVm :=
  ⟨s.rA, s.rX, s.rY, s.rSp, s.rS, s.rPc, s.ram.fw.flat⟩

/-- The rest of a wrapper, behind `SYS`. -/
def behindSys : List Insn → List Insn
  | [] => []
  | .sys :: is => is
  | _ :: is => behindSys is

/-- What a C function returns, from the state behind `SYS`. -/
def cValue (pop : Pop) (vmSys : Byte → FlatVm → FlatVm) (w : Wrapper) (u : Vm (Kernel R)) :
    Option Word :=
  (atRts pop vmSys (behindSys w.code) ⟨u.toFlat, []⟩).map fun t => addr16 (word t.rA) (word t.rX)

theorem cValue_write_read (pop : Pop) (vmSys : Byte → FlatVm → FlatVm) {w : Wrapper}
    (hw : w = .write ∨ w = .read) (u : Vm (Kernel R)) :
    cValue pop vmSys w u = some (word u.rA) := by
  have hzero : ∀ a : Byte, addr16 (word a) (word 0) = word a := by decide
  rcases hw with rfl | rfl
  · exact congrArg some (hzero u.rA)
  · exact congrArg some (hzero u.rA)

theorem word_count_eq_iff (count : Word) :
    word (0 + count.setWidth 8) = count ↔ count.toNat < 256 := by
  rw [word]
  bv_omega

/-! ### The chunks -/

theorem length_vmRamRead (m : Firmware) (addr : Word) (size : ℕ) :
    (m.vmRamRead addr size).length = size := by
  rw [Firmware.vmRamRead]
  split
  · next hzero => rw [hzero, List.length_nil]
  · rw [List.length_append, Firmware.sramRead, length_readBlock, length_readBlock,
      Nat.add_sub_cancel' (part_le addr size)]

namespace Kernel

/-- The memory when the chunk with byte `j` is read: the bytes before it are displayed. -/
def memAt (k : Kernel R) (shown : List Byte) (j : ℕ) : Firmware :=
  ⟨k.localRam, ((shown.take (64 * (j / 64))).foldl (Terminal.putChar font) k.term).sram⟩

/-- Byte `j` of `n` as its chunk has it. -/
def chunkByte (k : Kernel R) (addr : Word) (n : ℕ) (shown : List Byte) (j : ℕ) : Byte :=
  at_ ((k.memAt font shown j).vmRamRead (addr + BitVec.ofNat 16 (64 * (j / 64)))
    (min 64 (n - 64 * (j / 64)))) (j % 64)

variable {font}

theorem foldl_putChar (k : Kernel R) (vs : List Byte) :
    vs.foldl (putChar font) k = { k with term := vs.foldl (Terminal.putChar font) k.term } := by
  induction vs generalizing k with
  | nil => rfl
  | cons v vs ih =>
    rw [List.foldl_cons, ih]
    rfl

/-- The invariant of the loop that displays `n` bytes from `addr` on. -/
structure Writing.Follows (font : ℕ → Byte) (k : Kernel R) (addr : Word) (n : ℕ)
    (w : Writing R) : Prop where
  localRam : w.kernel.localRam = k.localRam
  term : w.kernel.term = w.shown.foldl (Terminal.putChar font) k.term
  next : w.addr = addr + BitVec.ofNat 16 w.shown.length
  length : w.shown.length + w.count.toNat = n
  chunk : w.count ≠ 0 → 64 ∣ w.shown.length
  byte : ∀ j (h : j < w.shown.length), w.shown[j] = k.chunkByte font addr n w.shown j

theorem Writing.follows_start (k : Kernel R) (addr count : Word) :
    Writing.Follows font k addr count.toNat ⟨k, addr, count, []⟩ where
  localRam := rfl
  term := rfl
  next := by simp
  length := by simp
  chunk _ := by simp
  byte := by simp

/-- **A chunk** continues the text. -/
theorem Writing.Follows.pass {k : Kernel R} {addr : Word} {n : ℕ} {w : Writing R}
    (h : w.Follows font k addr n) (hcount : w.count ≠ 0) :
    (w.pass font).Follows font k addr n ∧ (w.pass font).count.toNat < w.count.toNat := by
  obtain ⟨hlocal, hterm, haddr, hn, hchunk, hbyte⟩ := h
  have h64 := hchunk hcount
  have hsize : (if w.count < 64 then w.count else 64).toNat = min 64 w.count.toNat := by
    split <;> bv_omega
  rw [Writing.pass]
  generalize hdata : w.kernel.fw.vmRamRead w.addr _ = data
  generalize (if w.count < 64 then w.count else 64) = size at *
  have hlen : data.length = size.toNat := by rw [← hdata, length_vmRamRead]
  have hrest : (w.count - size).toNat = w.count.toNat - size.toNat := by bv_omega
  have hpos : 0 < w.count.toNat := by bv_omega
  refine ⟨⟨?_, ?_, ?_, ?_, ?_, ?_⟩, ?_⟩
  · simp only [foldl_putChar]
    exact hlocal
  · simp only [foldl_putChar, List.foldl_append, hterm]
  · show w.addr + size = addr + BitVec.ofNat 16 (w.shown ++ data).length
    rw [haddr, List.length_append, hlen, BitVec.add_assoc, BitVec.ofNat_add]
    simp
  · show (w.shown ++ data).length + (w.count - size).toNat = n
    rw [List.length_append, hlen, hrest]
    omega
  · intro hne
    have hne' : (w.count - size).toNat ≠ 0 := fun h => hne (BitVec.eq_of_toNat_eq h)
    show 64 ∣ (w.shown ++ data).length
    rw [List.length_append, hlen]
    omega
  · -- the bytes of the new chunk, behind those of the chunks before
    intro j hj
    have hjlen : j < w.shown.length + data.length := by simpa using hj
    have hdrop : min 64 (n - w.shown.length) = size.toNat := by omega
    show (w.shown ++ data)[j] = k.chunkByte font addr n (w.shown ++ data) j
    by_cases hold : j < w.shown.length
    · rw [List.getElem_append_left hold, hbyte j hold, chunkByte, chunkByte, memAt, memAt,
        List.take_append_of_le_length (by omega)]
    · have hstart : 64 * (j / 64) = w.shown.length := by
        have hjlen : j < w.shown.length + data.length := by simpa using hj
        omega
      have hmem : k.memAt font (w.shown ++ data) j = w.kernel.fw := by
        rw [memAt, hstart, List.take_left, ← hterm, ← hlocal]
        rfl
      have hbyte' : at_ data (j % 64) = data[j - w.shown.length] := by
        have hmod : j % 64 = j - w.shown.length := by omega
        rw [hmod, at_, List.getD_eq_getElem?_getD, List.getElem?_eq_getElem, Option.getD_some]
      rw [List.getElem_append_right (by omega), chunkByte, hmem, hstart, hdrop, ← haddr, hdata]
      exact hbyte'.symm
  · show (w.count - size).toNat < w.count.toNat
    omega

/-- **The loop** displays all of them. -/
theorem Writing.Follows.loop {k : Kernel R} {addr : Word} {n fuel : ℕ} {w : Writing R}
    (h : w.Follows font k addr n) (hfuel : w.count.toNat ≤ fuel) :
    (Writing.loop font fuel w).Follows font k addr n ∧ (Writing.loop font fuel w).count = 0 := by
  induction fuel generalizing w with
  | zero => exact ⟨h, BitVec.eq_of_toNat_eq (Nat.le_zero.mp hfuel)⟩
  | succ fuel ih =>
    rw [Writing.loop]
    split
    · next hzero => exact ⟨h, hzero⟩
    · next hcount =>
      obtain ⟨hpass, hlt⟩ := h.pass hcount
      exact ih hpass (by omega)

theorem writing_follows (k : Kernel R) (addr count : Word) :
    (k.writing font addr count).Follows font k addr count.toNat ∧
      (k.writing font addr count).shown.length = count.toNat := by
  obtain ⟨h, hzero⟩ := (@Writing.follows_start R font k addr count).loop le_rfl
  refine ⟨h, ?_⟩
  have hlen := h.length
  rw [hzero] at hlen
  exact hlen

/-! ### Chunks that wrap -/

/-- No chunk runs past `$ffff`: the text ends there, or a chunk does. -/
def ChunksFit (addr : Word) (n : ℕ) : Prop :=
  addr.toNat + n ≤ 65536 ∨ 64 ∣ 65536 - addr.toNat

/-- Byte `j` is past `$ffff` in a chunk that starts before. -/
def Split (addr : Word) (j : ℕ) : Prop :=
  65536 ≤ addr.toNat + j ∧ addr.toNat + 64 * (j / 64) < 65536

/-- Where a chunk is split, the first bytes of the serial memory are those of page zero. -/
def SplitAgrees (k : Kernel R) (addr : Word) (n : ℕ) : Prop :=
  ∀ j < n, Split addr j →
    k.term.sram (addr + BitVec.ofNat 16 j) = k.localRam (addr + BitVec.ofNat 16 j)

theorem not_split {addr : Word} {n j : ℕ} (hfits : ChunksFit addr n) (hj : j < n) :
    ¬ Split addr j := by
  rintro ⟨hlate, hearly⟩
  rcases hfits with h | h
  · omega
  · omega

theorem exists_split {addr : Word} {n : ℕ} (hfits : ¬ ChunksFit addr n) :
    ∃ j < n, Split addr j := by
  obtain ⟨hlt, h64⟩ := not_or.mp hfits
  have haddr := addr.isLt
  exact ⟨65536 - addr.toNat, by omega, by omega, by omega⟩

variable {k : Kernel R} {addr : Word} {n j : ℕ} {shown : List Byte}

theorem toNat_of_split (hn : n < 65536) (hj : j < n) (h : Split addr j) :
    (addr + BitVec.ofNat 16 j).toNat < 64 := by
  obtain ⟨hlate, hearly⟩ := h
  rw [BitVec.toNat_add, BitVec.toNat_ofNat]
  omega

/-- The bytes of a chunk are those of the program's memory, unless they are split off. -/
theorem chunkByte_of_not_split (hn : n < 65536) (hj : j < n) (h : ¬ Split addr j) :
    k.chunkByte font addr n shown j = (k.memAt font shown j).flat (addr + BitVec.ofNat 16 j) := by
  have haddr := addr.isLt
  have hcell : addr + BitVec.ofNat 16 (64 * (j / 64)) + BitVec.ofNat 16 (j % 64)
      = addr + BitVec.ofNat 16 j := by
    rw [BitVec.add_assoc, ← BitVec.ofNat_add, Nat.div_add_mod]
  have hlt : j % 64 < min 64 (n - 64 * (j / 64)) := by omega
  have hstart : (addr + BitVec.ofNat 16 (64 * (j / 64))).toNat
      = (addr.toNat + 64 * (j / 64)) % 65536 := by
    rw [BitVec.toNat_add, BitVec.toNat_ofNat]
    omega
  rw [chunkByte]
  by_cases hrange : (addr + BitVec.ofNat 16 (64 * (j / 64))).toNat
      + min 64 (n - 64 * (j / 64)) ≤ 65536
  · rw [vmRamRead_eq _ hrange, at_readBlock _ _ hlt, hcell]
  · -- before the end of the memory the serial memory is the program's
    have hbefore : ¬ IsLocal (addr + BitVec.ofNat 16 j) := by
      rw [Split] at h
      rw [IsLocal, BitVec.toNat_add, BitVec.toNat_ofNat]
      omega
    rw [vmRamRead_of_wraps (by omega) (not_le.mp hrange), at_readBlock _ _ hlt, hcell]
    exact (if_neg hbefore).symm

theorem chunkByte_of_split (hj : j < n) (h : Split addr j) :
    k.chunkByte font addr n shown j = (k.memAt font shown j).sram (addr + BitVec.ofNat 16 j) := by
  obtain ⟨hlate, hearly⟩ := h
  have hwraps : 65536 < (addr + BitVec.ofNat 16 (64 * (j / 64))).toNat
      + min 64 (n - 64 * (j / 64)) := by
    rw [BitVec.toNat_add, BitVec.toNat_ofNat]
    omega
  rw [chunkByte, vmRamRead_of_wraps (by omega) hwraps, at_readBlock _ _ (by omega),
    BitVec.add_assoc, ← BitVec.ofNat_add, Nat.div_add_mod]

end Kernel

/-! ### What the screen leaves alone -/

section Frame

variable {font} {t : Terminal} {a : Word} (ha : a.toNat < 0x0200 ∨ 0x19ff < a.toNat)
include ha

theorem newLine_frame (t : Terminal) : t.newLine.sram a = t.sram a := by
  rw [Terminal.newLine, scrollBelow]
  split
  · rw [scrollRow]
    exact (paints_scrollUp _).frame a ha
  · rfl

/-- `put_char` stores in the video memory only. -/
theorem putChar_frame (ht : t.OnScreen) (c : Byte) : (t.putChar font c).sram a = t.sram a := by
  have hx := ht.x
  have hy := ht.y
  have hput := (@paints_videoPutChar font t t.x t.y (by omega) (by omega) c).frame a ha
  have hwrap : ∀ t' : Terminal, (if 31 < t'.x then t'.newLine else t').sram a = t'.sram a := by
    intro t'
    split
    · exact newLine_frame ha t'
    · rfl
  rw [Terminal.putChar, hwrap]
  split
  · exact newLine_frame ha t
  · split
    · rfl
    · exact hput

theorem foldl_putChar_frame (ht : t.OnScreen) (vs : List Byte) :
    (vs.foldl (Terminal.putChar font) t).sram a = t.sram a := by
  induction vs generalizing t with
  | nil => rfl
  | cons v vs ih =>
    rw [List.foldl_cons, ih (ht.putChar v)]
    exact putChar_frame ha ht v

end Frame

/-! ### The services -/

/-- The parameters of 0x14 and 0x22, on the stack. -/
structure Vm.Args (s : Vm (Kernel R)) (fd addr count : Word) : Prop where
  fd : s.paramWord 6 0 = fd
  addr : s.paramWord 6 2 = addr
  count : s.paramWord 6 4 = count

section Services

variable (rng : Random R) (fuel : ℕ) (dev : Devices) (pop : Pop) (vmSys : Byte → FlatVm → FlatVm)

/-- 0x14 displays the bytes at `addr` and behind, each as it was when its chunk was read,
and `_write` returns how many. -/
def WriteReports (s : Vm (Kernel R)) (addr count : Word) : Prop :=
  ∃ u, vmSyscall font rng fuel dev Service.write.func s = some u ∧
    let shown := (s.ram.writing font addr count).shown
    u.ram.term = shown.foldl (Terminal.putChar font) s.ram.term ∧
    shown.length = count.toNat ∧
    (∀ j (h : j < shown.length),
      shown[j] = (s.ram.memAt font shown j).flat (addr + BitVec.ofNat 16 j)) ∧
    cValue pop vmSys .write u = some count

/-- 0x22 displays the next key codes and stores them from `addr` on, one after the other,
and `_read` returns how many. -/
def ReadReports (s : Vm (Kernel R)) (addr count : Word) : Prop :=
  ∃ u, vmSyscall font rng fuel dev Service.read.func s = some u ∧
    u.ram = ((blockCells addr count.toNat).zip (Kernel.keyCodes dev.keys)).foldl
      (fun k p => (k.putChar font p.2).poke p.1 p.2) s.ram ∧
    cValue pop vmSys .read u = some count

variable {font rng fuel dev pop vmSys} {s u : Vm (Kernel R)} {fd addr count : Word}

theorem write_spec (hs : s.Args fd addr count) (hfd : fd = 1 ∨ fd = 2) (hcount : count ≠ 0) :
    ∃ u, vmSyscall font rng fuel dev Service.write.func s = some u ∧
      u.rA = 0 + count.setWidth 8 ∧ u.ram = (s.ram.writing font addr count).kernel := by
  have hwrite : s.ram.write font fd addr count
      = (0 + count.setWidth 8, (s.ram.writing font addr count).kernel) := by
    rw [Kernel.write, if_pos]
    rcases hfd with rfl | rfl
    · exact ⟨by decide, by decide, hcount⟩
    · exact ⟨by decide, by decide, hcount⟩
  refine ⟨s.result (s.ram.write font fd addr count), ?_, ?_, ?_⟩
  · rw [← hs.fd, ← hs.addr, ← hs.count]
    rfl
  · rw [hwrite]
    rfl
  · rw [hwrite]
    rfl

/-- The bytes that 0x14 displays are the program's. -/
def Displays (font : ℕ → Byte) (s : Vm (Kernel R)) (addr count : Word) : Prop :=
  let shown := (s.ram.writing font addr count).shown
  ∀ j (h : j < shown.length),
    shown[j] = (s.ram.memAt font shown j).flat (addr + BitVec.ofNat 16 j)

theorem writeReports_iff (hs : s.Args fd addr count) (hfd : fd = 1 ∨ fd = 2)
    (hcount : count ≠ 0) :
    WriteReports font rng fuel dev pop vmSys s addr count ↔
      count.toNat < 256 ∧ Displays font s addr count := by
  obtain ⟨u, hu, hrA, hram⟩ := @write_spec R font rng fuel dev s fd addr count hs hfd hcount
  obtain ⟨h, hlen⟩ := @Kernel.writing_follows R font s.ram addr count
  have hvalue := cValue_write_read pop vmSys (.inl rfl) u
  rw [hrA] at hvalue
  constructor
  · rintro ⟨u', hu', -, -, hbytes, hvalue'⟩
    obtain rfl : u = u' := Option.some.inj (hu.symm.trans hu')
    exact ⟨(word_count_eq_iff count).mp (Option.some.inj (hvalue.symm.trans hvalue')), hbytes⟩
  · rintro ⟨hlt, hbytes⟩
    rw [(word_count_eq_iff count).mpr hlt] at hvalue
    exact ⟨u, hu, hram ▸ h.term, hlen, hbytes, hvalue⟩

theorem displays_of_fits (hfits : Kernel.ChunksFit addr count.toNat) :
    Displays font s addr count := by
  obtain ⟨h, hlen⟩ := @Kernel.writing_follows R font s.ram addr count
  intro j hj
  have hj' : j < count.toNat := hlen ▸ hj
  rw [h.byte j hj]
  exact Kernel.chunkByte_of_not_split count.isLt hj' (Kernel.not_split hfits hj')

/-- On the screen nothing is drawn into page zero of the serial memory. -/
theorem displays_iff (hscreen : s.ram.term.OnScreen) :
    Displays font s addr count ↔ s.ram.SplitAgrees addr count.toNat := by
  obtain ⟨h, hlen⟩ := @Kernel.writing_follows R font s.ram addr count
  have hbyte := h.byte
  rw [Displays]
  generalize (s.ram.writing font addr count).shown = shown at *
  have hsplit : ∀ j, j < count.toNat → Kernel.Split addr j →
      s.ram.chunkByte font addr count.toNat shown j
          = s.ram.term.sram (addr + BitVec.ofNat 16 j) ∧
        (s.ram.memAt font shown j).flat (addr + BitVec.ofNat 16 j)
          = s.ram.localRam (addr + BitVec.ofNat 16 j) := by
    intro j hj hj'
    have hlocal : IsLocal (addr + BitVec.ofNat 16 j) :=
      (Kernel.toNat_of_split count.isLt hj hj').trans (by decide)
    rw [Kernel.chunkByte_of_split hj hj']
    exact ⟨foldl_putChar_frame (.inl hlocal) hscreen _, if_pos hlocal⟩
  constructor
  · intro hd j hj hj'
    obtain ⟨hsram, hflat⟩ := hsplit j hj hj'
    rw [← hsram, ← hflat, ← hbyte j (hlen ▸ hj)]
    exact hd j (hlen ▸ hj)
  · intro hagree j hj
    have hj' : j < count.toNat := hlen ▸ hj
    rw [hbyte j hj]
    by_cases hin : Kernel.Split addr j
    · obtain ⟨hsram, hflat⟩ := hsplit j hj' hin
      rw [hsram, hflat]
      exact hagree j hj' hin
    · exact Kernel.chunkByte_of_not_split count.isLt hj' hin

/-- A call with its parameters on the stack, in a memory where page zero is not that of the
serial memory. -/
def atCall (rng : Random R) (fd addr count : Word) : Vm (Kernel R) :=
  let v := [fd, addr, count].flatMap fun w : Word => [(w >>> 8).setWidth 8, w.setWidth 8]
  ⟨0x14, 0, 0, 0xf0, 0, 0x1a00, ⟨writeBlock (fun _ => 1) 0x1f1 v, ⟨0, 0, false, fun _ => 0, []⟩,
    fun _ => 0, false, rng.srand 0⟩⟩

theorem atCall_args (fd addr count : Word) : (atCall rng fd addr count).Args fd addr count := by
  let v := [fd, addr, count].flatMap fun w : Word => [(w >>> 8).setWidth 8, w.setWidth 8]
  have hread : (atCall rng fd addr count).ram.fw.vmRamRead (addr16 (word 0xf0 + 1) 1) 6 = v := by
    have hslot : addr16 (word 0xf0 + 1) 1 = 0x1f1 := by decide
    rw [hslot, vmRamRead_eq _ (by decide), Firmware.flat,
      readBlock_glue_left (by decide : ∀ i < 6, IsLocal (0x1f1 + BitVec.ofNat 16 i))]
    exact readBlock_writeBlock (by decide : 6 ≤ 2 ^ 16)
  have hparam : ∀ i, (atCall rng fd addr count).paramWord 6 i
      = addr16 (word (at_ v (i + 1))) (word (at_ v i)) :=
    fun i => congrArg (fun v => addr16 (word (at_ v (i + 1))) (word (at_ v i))) hread
  exact ⟨(hparam 0).trans (addr16_pushed fd), (hparam 2).trans (addr16_pushed addr),
    (hparam 4).trans (addr16_pushed count)⟩

theorem splitAgrees_atCall {n : ℕ} (hn : n < 65536) :
    (atCall rng fd addr count).ram.SplitAgrees addr n ↔ Kernel.ChunksFit addr n := by
  constructor
  · intro h
    by_contra hfits
    obtain ⟨j, hj, hsplit⟩ := Kernel.exists_split hfits
    have hlow := Kernel.toNat_of_split hn hj hsplit
    have hlocal : (atCall rng fd addr count).ram.localRam (addr + BitVec.ofNat 16 j) = 1 := by
      refine writeBlock_of_forall_ne ?_
      intro i hi heq
      have hi' : i < 6 := hi
      rw [heq] at hlow
      bv_omega
    have hbyte := h j hj hsplit
    rw [hlocal] at hbyte
    exact absurd hbyte (by decide : (0 : Byte) ≠ 1)
  · intro h j hj hsplit
    exact absurd hsplit (Kernel.not_split h hj)

theorem zip_take_blockCells (addr : Word) {n : ℕ} {vs : List Byte} (hn : n ≤ vs.length) :
    (blockCells addr n).zip (vs.take n) = (blockCells addr n).zip vs := by
  have hcells := length_blockCells addr n
  conv_rhs => rw [List.zip_eq_zip_take_min, hcells, Nat.min_eq_left hn,
    List.take_of_length_le hcells.le]

theorem read_spec (hs : s.Args 0 addr count) (hcount : count ≠ 0)
    (hkeys : count.toNat ≤ (Kernel.keyCodes dev.keys).length) :
    ∃ u, vmSyscall font rng fuel dev Service.read.func s = some u ∧
      u.rA = 0 + count.setWidth 8 ∧
      u.ram = ((blockCells addr count.toNat).zip (Kernel.keyCodes dev.keys)).foldl
        (fun k p => (k.putChar font p.2).poke p.1 p.2) s.ram := by
  obtain ⟨hrA, hkernel⟩ := @Kernel.Reading.foldl_key R font ⟨s.ram, addr, count, 0⟩
    ((Kernel.keyCodes dev.keys).take count.toNat)
  have hlen : ((Kernel.keyCodes dev.keys).take count.toNat).length = count.toNat :=
    List.length_take_of_le hkeys
  have hzip := zip_take_blockCells addr hkeys
  rw [hlen] at hrA hkernel
  have hread : s.ram.read font (s.paramWord 6 0) (s.paramWord 6 2) (s.paramWord 6 4) dev.keys
      = some (0 + count.setWidth 8, ((blockCells addr count.toNat).zip
          (Kernel.keyCodes dev.keys)).foldl (fun k p => (k.putChar font p.2).poke p.1 p.2)
            s.ram) := by
    rw [hs.fd, hs.addr, hs.count, Kernel.read, if_pos ⟨rfl, hcount⟩, Kernel.Reading.loop_eq,
      if_pos hkeys, Option.map_some, hrA, hkernel, hzip]
    rfl
  exact ⟨_, Option.map_eq_some_iff.mpr ⟨_, hread, rfl⟩, rfl, rfl⟩

theorem readReports_iff (hs : s.Args 0 addr count) (hcount : count ≠ 0)
    (hkeys : count.toNat ≤ (Kernel.keyCodes dev.keys).length) :
    ReadReports font rng fuel dev pop vmSys s addr count ↔ count.toNat < 256 := by
  obtain ⟨u, hu, hrA, hram⟩ := @read_spec R font rng fuel dev s addr count hs hcount hkeys
  have hvalue := cValue_write_read pop vmSys (.inr rfl) u
  rw [hrA] at hvalue
  constructor
  · rintro ⟨u', hu', -, hvalue'⟩
    obtain rfl : u = u' := Option.some.inj (hu.symm.trans hu')
    exact (word_count_eq_iff count).mp (Option.some.inj (hvalue.symm.trans hvalue'))
  · intro hlt
    rw [(word_count_eq_iff count).mpr hlt] at hvalue
    exact ⟨u, hu, hram, hvalue⟩

/-- **What `write` and `read` report.**  For a call of `write` the number of bytes is right
below 256, and the bytes are right, in every memory, if no chunk is split; in a single
memory, with the cursor on the screen, if the two memories agree where it is.  A call of
`read` displays and stores the keys that it should, and the number is right below 256. -/
theorem write_read_iff (font : ℕ → Byte) (rng : Random R) (fuel : ℕ) (dev : Devices) (pop : Pop)
    (vmSys : Byte → FlatVm → FlatVm) (addr count : Word) (hcount : count ≠ 0) :
    (∀ fd, fd = 1 ∨ fd = 2 →
      ((∀ s, s.Args fd addr count → WriteReports font rng fuel dev pop vmSys s addr count) ↔
        count.toNat < 256 ∧ Kernel.ChunksFit addr count.toNat) ∧
      ∀ s, s.Args fd addr count → s.ram.term.OnScreen →
        (WriteReports font rng fuel dev pop vmSys s addr count ↔
          count.toNat < 256 ∧ s.ram.SplitAgrees addr count.toNat)) ∧
    ∀ s, s.Args 0 addr count → count.toNat ≤ (Kernel.keyCodes dev.keys).length →
      (ReadReports font rng fuel dev pop vmSys s addr count ↔ count.toNat < 256) := by
  have hpoint : ∀ fd, fd = 1 ∨ fd = 2 → ∀ s, s.Args fd addr count → s.ram.term.OnScreen →
      (WriteReports font rng fuel dev pop vmSys s addr count ↔
        count.toNat < 256 ∧ s.ram.SplitAgrees addr count.toNat) := by
    intro fd hfd s hs hscreen
    rw [writeReports_iff hs hfd hcount, displays_iff hscreen]
  refine ⟨fun fd hfd => ⟨⟨fun h => ?_, fun h s hs => ?_⟩, hpoint fd hfd⟩, fun s hs hkeys => ?_⟩
  · have hscreen : (atCall rng fd addr count).ram.term.OnScreen :=
      ⟨Nat.zero_le _, Nat.zero_le _, nofun⟩
    have hargs := @atCall_args R rng fd addr count
    have hreports := (hpoint fd hfd _ hargs hscreen).mp (h _ hargs)
    exact ⟨hreports.1, (splitAgrees_atCall count.isLt).mp hreports.2⟩
  · exact (writeReports_iff hs hfd hcount).mpr ⟨h.1, displays_of_fits h.2⟩
  · exact readReports_iff hs hcount hkeys

end Services

/-- Three bytes, with a turn without a key between the first two. -/
theorem write_read_iff_three :
    let dev : Devices := { Devices.none with keys := [0x61, 0, 0x62, 0x63] }
    WriteReports (fun _ => 0) fixedRandom 0 dev popRegisters (fun _ => id)
        (atCall fixedRandom 1 0x1a00 3) 0x1a00 3 ∧
      ReadReports (fun _ => 0) fixedRandom 0 dev popRegisters (fun _ => id)
        (atCall fixedRandom 0 0x1a00 3) 0x1a00 3 := by
  intro dev
  obtain ⟨hwrite, hread⟩ := write_read_iff (fun _ => 0) fixedRandom 0 dev popRegisters
    (fun _ => id) 0x1a00 3 (by decide)
  constructor
  · exact (hwrite 1 (.inl rfl)).1.mpr ⟨by decide, .inl (by decide)⟩ _ (atCall_args 1 0x1a00 3)
  · exact (hread _ (atCall_args 0 0x1a00 3) (by decide)).mpr (by decide)

/-- `write(1, 0x1a00, 256)` returns 0. -/
theorem write_256_reports_zero :
    let s := atCall fixedRandom 1 0x1a00 0x100
    s.Args 1 0x1a00 0x100 ∧
      ∃ u, vmSyscall (fun _ => 0) fixedRandom 0 .none Service.write.func s = some u ∧
        cValue popRegisters (fun _ => id) .write u = some 0 ∧
        ¬ WriteReports (fun _ => 0) fixedRandom 0 .none popRegisters (fun _ => id) s
          0x1a00 0x100 := by
  have hargs := @atCall_args Unit fixedRandom 1 0x1a00 0x100
  obtain ⟨u, hu, hrA, -⟩ := @write_spec Unit (fun _ => 0) fixedRandom 0 .none _ 1 0x1a00
    0x100 hargs (by decide) (by decide)
  refine ⟨hargs, u, hu, ?_, fun h => ?_⟩
  · rw [cValue_write_read _ _ (.inl rfl), hrA]
    decide
  · have hlt := (writeReports_iff hargs (by decide) (by decide)).mp h
    exact absurd hlt.1 (by decide)

end Dan64
