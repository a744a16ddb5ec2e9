/-
Dan64/Fgets.lean

`fgets` of the C library, for stdin: the line comes from the service "get input" and
a new line and a zero are appended to it.

The bound is passed on as the low byte of the size, clamped to 64 by the service, and
leaves one byte for a zero in the line editor; the two bytes that are appended may need
one more.  So a line that fills a buffer of up to 64 bytes is terminated behind it
(`fgets_iff`).
-/
import Dan64.EditorText

namespace Dan64

open BlockMem

variable (font : ℕ → Byte)

/-- `fgets(s, size, stdin)`, with the stack pointer with which `cgets` calls the
service, and the accesses it makes to the memory of the program. -/
def fgets (localRam : Word → Byte) (t : Terminal) (buffer : ℕ → Byte) (rSp : Byte)
    (s size : Word) (keys : List Byte) : Option (Traced 16 Byte Firmware) :=
  -- EINVAL
  if size = 0 then some ⟨⟨localRam, t.sram⟩, []⟩
  else
    (sysGetInput font localRam t buffer rSp keys).map fun r =>
      let m : Traced 16 Byte Firmware :=
        ⟨r.fw, [.write (getInputArgs ⟨localRam, t.sram⟩ rSp).1 r.stored]⟩
      let i := word r.rA
      let m := BlockMem.write m (s + i) [0x0a]
      BlockMem.write m (s + (i + 1)) [0]

/-- Nothing is stored outside `s[0..size-1]`, and there is a zero inside. -/
structure Respects (s size : Word) (m : Traced 16 Byte Firmware) : Prop where
  stores : ∀ o ∈ m.trace, ∀ c ∈ o.stores, ∃ k < size.toNat, c.1 = s + BitVec.ofNat 16 k
  terminated : ∃ k < size.toNat, m.mem.flat (s + BitVec.ofNat 16 k) = 0

variable {font}

/-- A write stores one after the other. -/
theorem mem_stores_write {a : Word} {bs : List Byte} {c : Word × Byte}
    (hc : c ∈ (Access.write a bs).stores) : ∃ i < bs.length, c.1 = a + BitVec.ofNat 16 i := by
  have hcell := (List.of_mem_zip (show (c.1, c.2) ∈ _ from hc)).1
  obtain ⟨i, hi, hi'⟩ := List.mem_map.mp hcell
  exact ⟨i, List.mem_range.mp hi, hi'.symm⟩

/-- The line, a new line and a zero take two bytes more than the line. -/
theorem respects_iff (s size : Word) (fw : Firmware) {stored : List Byte} {ret : Byte}
    (hlen : stored.length = ret.toNat) :
    let m : Traced 16 Byte Firmware := ⟨fw, [.write s stored]⟩
    Respects s size (BlockMem.write (BlockMem.write m (s + word ret) [0x0a])
      (s + (word ret + 1)) [0]) ↔ ret.toNat + 2 ≤ size.toNat := by
  intro m
  have hret := ret.isLt
  have hnext : (word ret + 1).toNat = ret.toNat + 1 := by
    rw [word]
    bv_omega
  constructor
  · rintro ⟨hstores, -⟩
    obtain ⟨k, hk, hcell⟩ := hstores (.write (s + (word ret + 1)) [0]) (by simp)
      (s + (word ret + 1), 0) (by simp [Access.stores, blockCells])
    have hk' := congrArg BitVec.toNat ((BitVec.add_right_inj s).mp hcell)
    have hsize := size.isLt
    rw [hnext, BitVec.toNat_ofNat, Nat.mod_eq_of_lt (hk.trans hsize)] at hk'
    omega
  · intro hroom
    have hword : word ret = BitVec.ofNat 16 ret.toNat := (BitVec.ofNat_toNat 16 ret).symm
    have hzero : s + (word ret + 1) = s + BitVec.ofNat 16 (ret.toNat + 1) := by
      rw [BitVec.ofNat_add, hword]
      rfl
    refine ⟨?_, ret.toNat + 1, hroom, ?_⟩
    · intro o ho c hc
      -- the line, the new line and the zero
      simp only [write_traced, m, List.cons_append, List.nil_append, List.mem_cons,
        List.not_mem_nil, or_false] at ho
      rcases ho with rfl | rfl | rfl
      · obtain ⟨i, hi, hcell⟩ := mem_stores_write hc
        exact ⟨i, by omega, hcell⟩
      · obtain ⟨i, hi, hcell⟩ := mem_stores_write hc
        obtain rfl : i = 0 := Nat.lt_one_iff.mp hi
        exact ⟨ret.toNat, by omega, by rw [hcell, hword, BitVec.add_zero]⟩
      · obtain ⟨i, hi, hcell⟩ := mem_stores_write hc
        obtain rfl : i = 0 := Nat.lt_one_iff.mp hi
        exact ⟨ret.toNat + 1, hroom, by rw [hcell, hzero, BitVec.add_zero]⟩
    · rw [← hzero]
      show (Firmware.vmRamWrite _ (s + (word ret + 1)) [0]).flat _ = 0
      have hlt : (s + (word ret + 1)).toNat + 1 ≤ 65536 := (s + (word ret + 1)).isLt
      rw [flat_vmRamWrite _ hlt]
      exact Function.update_self _ _ _

/-- The length of a line of the editor. -/
theorem lineBefore_length (font : ℕ → Byte) (t : Terminal) (buffer : ℕ → Byte) {size : Byte}
    (hpos : 1 ≤ size.toNat) {keys : List Byte} {text : List Byte}
    (htext : lineBefore size keys = .entered text) :
    ∃ t' b ret, bufferedInput font t buffer size keys = .idle t' b ret ∧
      ret.toNat = text.length ∧ text.length < size.toNat := by
  have hedits := edits_lineBefore font t buffer hpos keys
  have hbounded := @bounded_bufferedInput font t buffer size hpos keys
  rw [htext] at hedits
  cases hc : bufferedInput font t buffer size keys with
  | editing e =>
    rw [hc] at hedits
    exact hedits.elim
  | idle t' b ret =>
    rw [hc] at hedits hbounded
    have hlen := congrArg List.length hedits.1
    rw [List.length_map, List.length_range] at hlen
    exact ⟨t', b, ret, rfl, hlen, hlen ▸ hbounded.1⟩

variable (font) in
/-- **`fgets` respects its buffer** exactly if the line that is entered has at most
`size - 2` characters, as every line has for sizes above 64; if the low byte of the size
is 0, as long as the line and its zero stay inside the buffer of the kernel. -/
theorem fgets_iff (localRam : Word → Byte) (t : Terminal) (buffer : ℕ → Byte) (rSp : Byte)
    (s size : Word) (hsize : size ≠ 0)
    (hargs : getInputArgs ⟨localRam, t.sram⟩ rSp = (s, size.setWidth 8)) (keys : List Byte) :
    (size.setWidth 8 ≠ (0 : Byte) → ∀ text,
      lineBefore (inputSize (size.setWidth 8)) keys = .entered text →
      ∃ m, fgets font localRam t buffer rSp s size keys = some m ∧
        (Respects s size m ↔ text.length + 2 ≤ size.toNat) ∧
        (64 < size.toNat → text.length + 2 ≤ size.toNat)) ∧
    (size.setWidth 8 = (0 : Byte) →
      (∀ n, (bufferedInput font t buffer 0 (keys.take n)).length ≤ 127) →
      ∀ t' b ret, bufferedInput font t buffer 0 keys = .idle t' b ret →
      ∃ m, fgets font localRam t buffer rSp s size keys = some m ∧ Respects s size m) := by
  -- what the service leaves
  have hservice : ∀ t' b ret,
      bufferedInput font t buffer (inputSize (size.setWidth 8)) keys = .idle t' b ret →
      ∃ m, fgets font localRam t buffer rSp s size keys = some m ∧
        (Respects s size m ↔ ret.toNat + 2 ≤ size.toNat) := by
    intro t' b ret hidle
    obtain ⟨fw, hsome⟩ := @sysGetInput_idle font localRam t buffer rSp keys t' b ret
      (by rw [hargs]; exact hidle)
    have hlen : ((List.range ret.toNat).map b).length = ret.toNat := by
      rw [List.length_map, List.length_range]
    refine ⟨_, ?_, respects_iff s size fw hlen⟩
    rw [fgets, if_neg hsize, hsome, Option.map_some, hargs]
  constructor
  · intro hlow text htext
    have hlow' := inputSize_pos hlow
    obtain ⟨t', b, ret, hidle, hret, hlt⟩ := lineBefore_length font t buffer hlow' htext
    obtain ⟨m, hm, hiff⟩ := hservice t' b ret hidle
    refine ⟨m, hm, hret ▸ hiff, ?_⟩
    have hle := (inputSize_le (size.setWidth 8)).2
    omega
  · intro hlow hshort t' b ret hidle
    have hzero : inputSize (size.setWidth 8) = 0 := by rw [hlow]; rfl
    obtain ⟨m, hm, hiff⟩ := hservice t' b ret (by rw [hzero]; exact hidle)
    refine ⟨m, hm, hiff.mpr ?_⟩
    -- a size with low byte 0 is at least 256
    have hret := hshort keys.length
    rw [List.take_length, hidle] at hret
    have hret' : ret.toNat ≤ 127 := hret
    have hlarge : 256 ≤ size.toNat := by
      have hmod := congrArg BitVec.toNat hlow
      rw [BitVec.toNat_setWidth] at hmod
      have hpos : size.toNat ≠ 0 := fun h => hsize (BitVec.eq_of_toNat_eq h)
      have hmod' : size.toNat % 256 = 0 := hmod
      omega
    omega

/-- The arguments of `cgets` above the stack pointer $f0. -/
def cgetsFrame (s : Word) (size : Byte) : Word → Byte := fun a =>
  if a = 0x01f1 then (s >>> 8).setWidth 8 else if a = 0x01f2 then s.setWidth 8
  else if a = 0x01f3 then size else 0

/-- One character in a buffer of three bytes. -/
theorem fgets_iff_three :
    let t : Terminal := ⟨0, 0, false, fun _ => 0, []⟩
    ∃ m, fgets (fun _ => 0) (cgetsFrame 0x3000 3) t (fun _ => 0) 0xf0 0x3000 3 [0x41, 0x0a]
        = some m ∧
      Respects 0x3000 3 m := by
  intro t
  obtain ⟨m, hm, hiff, -⟩ := (fgets_iff (fun _ => 0) (cgetsFrame 0x3000 3) t (fun _ => 0) 0xf0
    0x3000 3 (by decide) (by decide) [0x41, 0x0a]).1 (by decide) [0x41] (by decide)
  exact ⟨m, hm, hiff.mpr (by decide)⟩

/-- One character in a buffer of two bytes: the zero is stored behind it. -/
theorem full_line_not_respected :
    let t : Terminal := ⟨0, 0, false, fun _ => 0, []⟩
    ∃ m, fgets (fun _ => 0) (cgetsFrame 0x3000 2) t (fun _ => 0) 0xf0 0x3000 2 [0x41, 0x0a]
        = some m ∧
      m.trace.flatMap Access.stores = [(0x3000, 0x41), (0x3001, 0x0a), (0x3002, 0)] ∧
      ¬ Respects 0x3000 2 m := by
  intro t
  obtain ⟨m, hm, hiff, -⟩ := (fgets_iff (fun _ => 0) (cgetsFrame 0x3000 2) t (fun _ => 0) 0xf0
    0x3000 2 (by decide) (by decide) [0x41, 0x0a]).1 (by decide) [0x41] (by decide)
  refine ⟨m, hm, ?_, fun h => absurd (hiff.mp h) (by decide)⟩
  have hstores : (fgets (fun _ => 0) (cgetsFrame 0x3000 2) t (fun _ => 0) 0xf0 0x3000 2
      [0x41, 0x0a]).map (fun m => m.trace.flatMap Access.stores)
      = some [(0x3000, 0x41), (0x3001, 0x0a), (0x3002, 0)] := by
    decide +kernel
  rw [hm] at hstores
  exact Option.some.inj hstores

end Dan64
