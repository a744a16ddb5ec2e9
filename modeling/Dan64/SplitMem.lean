/-
Dan64/SplitMem.lean

The memory of the firmware: 512 bytes of local memory for page zero and the
stack, and the serial memory for the rest (`vm_ram_read`, `vm_ram_write`).

The test harness of the virtual machine has one array of 64K instead.  The two
agree on every access that does not run past `$ffff` (`sim_inRange`): the split
at `$0200` is exact.  An access that does run past `$ffff` wraps inside the
serial memory, whose first 512 bytes are not the local memory
(`agrees_iff`).
-/
import Dan64.BlockMem
import Dan64.Vm

namespace Dan64

open BlockMem

/-! ### The two memories -/

/-- `local` and the serial memory behind `sram_read` and `sram_write`. -/
structure Firmware where
  localRam : Word → Byte
  sram : Word → Byte

/-- `sram_read`: the address of a sequential access wraps. -/
def Firmware.sramRead (m : Firmware) (addr : Word) (size : ℕ) : List Byte :=
  readBlock m.sram addr size

/-- `sram_write` -/
def Firmware.sramWrite (m : Firmware) (addr : Word) (data : List Byte) : Firmware :=
  { m with sram := writeBlock m.sram addr data }

/-- How much of an access is local. -/
def part (addr : Word) (size : ℕ) : ℕ :=
  if addr.toNat < 512 then
    if size + addr.toNat > 512 then 512 - addr.toNat else size
  else 0

/-- `vm_ram_read` -/
def Firmware.vmRamRead (m : Firmware) (addr : Word) (size : ℕ) : List Byte :=
  if size = 0 then []
  else
    let part := part addr size
    readBlock m.localRam addr part ++ m.sramRead (addr + BitVec.ofNat 16 part) (size - part)

/-- `vm_ram_write` -/
def Firmware.vmRamWrite (m : Firmware) (addr : Word) (src : List Byte) : Firmware :=
  if src.length = 0 then m
  else
    let part := part addr src.length
    { m with localRam := writeBlock m.localRam addr (src.take part) }.sramWrite
      (addr + BitVec.ofNat 16 part) (src.drop part)

instance : BlockMem 16 Byte Firmware where
  read m a n := (m.vmRamRead a n, m)
  write := Firmware.vmRamWrite

/-- Page zero and the stack. -/
def IsLocal (a : Word) : Prop := a.toNat < 512

instance : DecidablePred IsLocal := fun a => inferInstanceAs (Decidable (a.toNat < 512))

/-- The memory a program sees. -/
def Firmware.flat (m : Firmware) : Word → Byte := glue IsLocal m.localRam m.sram

/-! ### The split -/

theorem part_le (addr : Word) (size : ℕ) : part addr size ≤ size := by
  rw [part]
  split
  · split <;> omega
  · omega

/-- The local part of an access stays in the array. -/
theorem isLocal_of_lt_part {addr : Word} {size i : ℕ} (h : i < part addr size) :
    IsLocal (addr + BitVec.ofNat 16 i) := by
  rw [part] at h
  rw [IsLocal, BitVec.toNat_add, BitVec.toNat_ofNat]
  split at h
  · split at h <;> omega
  · omega

/-- The rest of it is outside, if it does not run past the end. -/
theorem not_isLocal_of_part_le {addr : Word} {size i : ℕ} (hsize : addr.toNat + size ≤ 65536)
    (h : part addr size ≤ i) (hi : i < size) : ¬ IsLocal (addr + BitVec.ofNat 16 i) := by
  rw [part] at h
  rw [IsLocal, BitVec.toNat_add, BitVec.toNat_ofNat]
  split at h
  · split at h <;> omega
  · omega

/-! ### Accesses that do not wrap -/

theorem vmRamRead_eq (m : Firmware) {addr : Word} {size : ℕ} (h : addr.toNat + size ≤ 65536) :
    m.vmRamRead addr size = readBlock m.flat addr size := by
  by_cases hsize : size = 0
  · subst hsize
    rfl
  · have hsplit : part addr size + (size - part addr size) = size :=
      Nat.add_sub_cancel' (part_le addr size)
    have hright : ∀ i < size - part addr size,
        ¬ IsLocal (addr + BitVec.ofNat 16 (part addr size) + BitVec.ofNat 16 i) := by
      intro i hi
      rw [BitVec.add_assoc, ← BitVec.ofNat_add]
      exact not_isLocal_of_part_le h (by omega) (by omega)
    have hleft : ∀ i < part addr size, IsLocal (addr + BitVec.ofNat 16 i) := by
      intro i hi
      exact isLocal_of_lt_part hi
    have hread := readBlock_add m.flat addr (part addr size) (size - part addr size)
    rw [hsplit, Firmware.flat, readBlock_glue_left hleft, readBlock_glue_right hright] at hread
    rw [Firmware.vmRamRead, if_neg hsize]
    exact hread.symm

theorem flat_vmRamWrite (m : Firmware) {addr : Word} {src : List Byte}
    (h : addr.toNat + src.length ≤ 65536) :
    (m.vmRamWrite addr src).flat = writeBlock m.flat addr src := by
  by_cases hsize : src.length = 0
  · obtain rfl := List.eq_nil_of_length_eq_zero hsize
    rfl
  · have htake : (src.take (part addr src.length)).length = part addr src.length :=
      List.length_take_of_le (part_le addr src.length)
    have hleft : ∀ i < (src.take (part addr src.length)).length,
        IsLocal (addr + BitVec.ofNat 16 i) := by
      intro i hi
      rw [htake] at hi
      exact isLocal_of_lt_part hi
    -- what is left after the local part lies behind it
    have hright : ∀ i < (src.drop (part addr src.length)).length,
        ¬ IsLocal (addr + BitVec.ofNat 16 (part addr src.length) + BitVec.ofNat 16 i) := by
      intro i hi
      rw [List.length_drop] at hi
      rw [BitVec.add_assoc, ← BitVec.ofNat_add]
      exact not_isLocal_of_part_le h (by omega) (by omega)
    have hwrite := writeBlock_append m.flat addr (src.take (part addr src.length))
      (src.drop (part addr src.length))
    rw [List.take_append_drop, htake, Firmware.flat, writeBlock_glue_left hleft,
      writeBlock_glue_right hright] at hwrite
    rw [Firmware.vmRamWrite, if_neg hsize]
    exact hwrite.symm

/-! ### Runs -/

/-- The access does not run past `$ffff`. -/
def InRange : Access 16 Byte → Prop
  | .read a n => a.toNat + n ≤ 65536
  | .write a bs => a.toNat + bs.length ≤ 65536

instance : DecidablePred InRange
  | .read _ _ => inferInstanceAs (Decidable (_ ≤ _))
  | .write _ _ => inferInstanceAs (Decidable (_ ≤ _))

/-- The access has a `uint8_t` size. -/
def ByteSize : Access 16 Byte → Prop
  | .read _ n => n ≤ 255
  | .write _ bs => bs.length ≤ 255

/-- Both memories return the same bytes and stay the same, whatever they hold. -/
def Agrees (o : Access 16 Byte) : Prop :=
  ∀ m : Firmware, (perform m o).1 = (perform m.flat o).1 ∧
    (perform m o).2.flat = (perform m.flat o).2

/-- **Step.**  An access in range is an access to the flat memory. -/
theorem sim_inRange {o : Access 16 Byte} (h : InRange o) : Agrees o := by
  intro m
  cases o with
  | read a n => exact ⟨vmRamRead_eq m h, rfl⟩
  | write a bs => exact ⟨rfl, flat_vmRamWrite m h⟩

section Wraps

variable {addr : Word} {size : ℕ} (hsize : size ≤ 255) (h : 65536 < addr.toNat + size)
include hsize h

/-- An access of at most 255 bytes that wraps does not touch the local memory. -/
theorem part_of_wraps : part addr size = 0 :=
  if_neg (by omega)

theorem vmRamRead_of_wraps (m : Firmware) :
    m.vmRamRead addr size = readBlock m.sram addr size := by
  rw [Firmware.vmRamRead, if_neg (by omega), part_of_wraps hsize h]
  exact congrArg (readBlock m.sram · size) (BitVec.add_zero addr)

omit hsize in
/-- The wrapping byte is the one at address 0. -/
theorem exists_wraps : ∃ k < size, addr + BitVec.ofNat 16 k = 0 := by
  refine ⟨65536 - addr.toNat, by omega, ?_⟩
  have hlt := addr.isLt
  apply BitVec.eq_of_toNat_eq
  rw [BitVec.toNat_add, BitVec.toNat_ofNat]
  show _ = 0
  omega

end Wraps

theorem localRam_of_wraps (m : Firmware) {addr : Word} {src : List Byte}
    (hsize : src.length ≤ 255) (h : 65536 < addr.toNat + src.length) :
    (m.vmRamWrite addr src).localRam = m.localRam := by
  rw [Firmware.vmRamWrite, if_neg (by omega), part_of_wraps hsize h]
  rfl

/-- **An access that wraps is none**: the byte at address 0 is local, but the
serial memory is accessed. -/
theorem agrees_iff {o : Access 16 Byte} (hsize : ByteSize o) : Agrees o ↔ InRange o := by
  refine ⟨fun h => ?_, sim_inRange⟩
  by_contra hwraps
  cases o with
  | read a n =>
    have hlt : 65536 < a.toNat + n := not_le.mp hwraps
    obtain ⟨k, hk, hzero⟩ := exists_wraps hlt
    have hread : (Firmware.mk (fun _ => 1) fun _ => 0).vmRamRead a n
        = readBlock (Firmware.mk (fun _ => 1) fun _ => 0).flat a n := (h _).1
    rw [vmRamRead_of_wraps hsize hlt, readBlock_eq_iff] at hread
    have hbyte := hread k hk
    rw [hzero] at hbyte
    exact absurd hbyte (by decide)
  | write a bs =>
    have hlt : 65536 < a.toNat + bs.length := not_le.mp hwraps
    have hbs : bs.length ≤ 255 := hsize
    obtain ⟨k, hk, hzero⟩ := exists_wraps hlt
    -- a local byte that is not the one stored at address 0
    let m : Firmware := ⟨fun _ => ~~~bs[k], fun _ => 0⟩
    have hwrite : (m.vmRamWrite a bs).flat = writeBlock m.flat a bs := (h m).2
    have hflat : (m.vmRamWrite a bs).flat 0 = (m.vmRamWrite a bs).localRam 0 := rfl
    have hbyte := congrFun hwrite 0
    rw [hflat, localRam_of_wraps m hsize hlt, ← hzero,
      writeBlock_apply_add (hbs.trans (by decide)) hk] at hbyte
    have hnot : ∀ b : Byte, ~~~b ≠ b := by decide +kernel
    exact hnot _ hbyte

/-- **The split memory is the flat one**, for every access exactly when it does not
run past `$ffff`, and for every sequence of such accesses. -/
theorem split_memory (o : Access 16 Byte) (m : Firmware) (os : List (Access 16 Byte)) :
    (ByteSize o → (Agrees o ↔ InRange o)) ∧
      ((∀ o ∈ os, InRange o) →
        (runOps m os).1 = (runOps m.flat os).1 ∧ (runOps m os).2.flat = (runOps m.flat os).2) := by
  refine ⟨agrees_iff, fun hok => ?_⟩
  have hstep : ∀ (m : Firmware) (f : Word → Byte) (o : Access 16 Byte), m.flat = f → InRange o →
      (perform m o).1 = (perform f o).1 ∧ (perform m o).2.flat = (perform f o).2 := by
    rintro m f o rfl ho
    exact sim_inRange ho m
  exact runOps_sim hstep rfl hok

/-- A write and a read across `$01ff`, in a memory that holds 7. -/
theorem split_memory_straddle :
    let m : Firmware := ⟨fun _ => 7, fun _ => 7⟩
    let os : List (Access 16 Byte) := [.write 0x01ff [1, 2], .read 0x01fe 4]
    (Agrees (.read 0x01fe 4) ↔ InRange (.read 0x01fe 4)) ∧
      (runOps m os).1 = (runOps m.flat os).1 ∧ (runOps m os).2.flat = (runOps m.flat os).2 :=
  let m : Firmware := ⟨fun _ => 7, fun _ => 7⟩
  let os : List (Access 16 Byte) := [.write 0x01ff [1, 2], .read 0x01fe 4]
  ⟨(split_memory (.read 0x01fe 4) m os).1 (by decide : 4 ≤ 255),
    (split_memory (.read 0x01fe 4) m os).2 (by decide)⟩

/-- Two bytes at `$ffff`: the second comes from the serial memory, not from page
zero. -/
theorem read_wraps_differs :
    let m : Firmware := ⟨fun _ => 1, fun _ => 0⟩
    (runOps m [.read 0xffff 2]).1 = [[0, 0]] ∧ (runOps m.flat [.read 0xffff 2]).1 = [[0, 1]] := by
  decide

end Dan64
