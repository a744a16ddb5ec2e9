/-
Dan64/GetInput.lean

The service "get input": `buffered_input` into the buffer of the kernel, and the
text from there into the memory of the program.

The only guard of the line editor is that `end + 1` is not the size.  Every key
changes the end by at most one, so from a smaller end it never passes the size
(`Bounded.key`); but no end is one less than 0, and with size 0 there is no guard
(`inBounds_iff`).
-/
import Dan64.SplitMem
import Dan64.Terminal

namespace Dan64

open Terminal

/-! ### The service -/

/-- The kernel's buffer. -/
def Console.buffer : Console → ℕ → Byte
  | .idle _ buffer _ => buffer
  | .editing e => e.buffer

variable (font : ℕ → Byte)

/-- `buffered_input` with the keys so far. -/
def bufferedInput (t : Terminal) (buffer : ℕ → Byte) (size : Byte) (keys : List Byte) : Console :=
  keys.foldl (fun c d => c.next font (.key d)) (.editing ⟨t, buffer, size, 0, 0, 0⟩)

/-- What the service leaves: `r_a`, the text it stores and the memory. -/
structure InputRead where
  rA : Byte
  stored : List Byte
  fw : Firmware

/-- The parameters of `vm_syscall` 0x21: the destination and the requested size. -/
def getInputArgs (fw : Firmware) (rSp : Byte) : Word × Byte :=
  let v := fw.vmRamRead (addr16 (word rSp + 1) 1) 3
  (addr16 (word (v.getD 1 0)) (word (v.getD 0 0)), v.getD 2 0)

/-- The size that it passes on. -/
def inputSize (v2 : Byte) : Byte := if v2 < 64 then v2 else 64

/-- `vm_syscall` 0x21, from local memory and a terminal with the rest; nothing is
left while `buffered_input` still waits for keys. -/
def sysGetInput (localRam : Word → Byte) (t : Terminal) (buffer : ℕ → Byte) (rSp : Byte)
    (keys : List Byte) : Option InputRead :=
  let (addr, v2) := getInputArgs ⟨localRam, t.sram⟩ rSp
  match bufferedInput font t buffer (inputSize v2) keys with
  | .editing _ => none
  | .idle t buffer ret =>
    let stored := (List.range ret.toNat).map buffer
    some ⟨ret, stored, (Firmware.mk localRam t.sram).vmRamWrite addr stored⟩

/-- The buffer is written in its first 64 bytes only, and no more characters are
stored and returned than were requested, and than 63. -/
structure InBounds (localRam : Word → Byte) (t : Terminal) (buffer : ℕ → Byte) (rSp : Byte)
    (keys : List Byte) : Prop where
  kept : ∀ i, 64 ≤ i → (bufferedInput font t buffer
    (inputSize (getInputArgs ⟨localRam, t.sram⟩ rSp).2) keys).buffer i = buffer i
  count : ∀ r, sysGetInput font localRam t buffer rSp keys = some r →
    r.stored.length = r.rA.toNat ∧ r.rA.toNat ≤ 63 ∧
      r.rA.toNat ≤ (getInputArgs ⟨localRam, t.sram⟩ rSp).2.toNat

variable {font}

/-! ### The redrawing loops -/

namespace Redraw

/-- Backspace moves characters inside the text. -/
theorem closeGap_buffer {n i : ℕ} (hi : n ≤ i) (ks : List ℕ) (r : Redraw) :
    (ks.foldl (closeGap font n) r).buffer i = r.buffer i := by
  induction ks generalizing r with
  | nil => rfl
  | cons k ks ih =>
    rw [List.foldl_cons, ih, closeGap]
    split
    · exact Function.update_of_ne (by omega) _ _
    · rfl

/-- So does an insertion. -/
theorem openGap_buffer {i : ℕ} {ks : List ℕ} (hks : ∀ k ∈ ks, k < i) (r : Redraw) :
    (ks.foldl (openGap font) r).buffer i = r.buffer i := by
  induction ks generalizing r with
  | nil => rfl
  | cons k ks ih =>
    have hk : k < i := hks k (by simp)
    rw [List.foldl_cons, ih fun k' hk' => hks k' (by simp [hk'])]
    exact Function.update_of_ne hk.ne' _ _

end Redraw

/-! ### The invariant -/

namespace Editor

/-- The text ends before the size, and nothing behind it was written. -/
structure Bounded (size : Byte) (buffer : ℕ → Byte) (e : Editor) : Prop where
  size_eq : e.size = size
  pos : e.pos.toNat ≤ e.end_.toNat
  lt : e.end_.toNat < size.toNat
  kept : ∀ i, size.toNat ≤ i → e.buffer i = buffer i

variable {size : Byte} {buffer : ℕ → Byte} {e : Editor}

theorem Bounded.keyNone (h : e.Bounded size buffer) : e.keyNone.Bounded size buffer := by
  rw [Editor.keyNone]
  split
  · exact ⟨h.size_eq, h.pos, h.lt, h.kept⟩
  · exact ⟨h.size_eq, h.pos, h.lt, h.kept⟩

theorem Bounded.keyLeft (h : e.Bounded size buffer) : e.keyLeft.Bounded size buffer := by
  rw [Editor.keyLeft]
  split
  · next hpos =>
    have hle : (e.pos - 1).toNat ≤ e.pos.toNat := by
      have hpos' : 0 < e.pos.toNat := hpos
      bv_omega
    exact ⟨h.size_eq, hle.trans h.pos, h.lt, h.kept⟩
  · exact ⟨h.size_eq, h.pos, h.lt, h.kept⟩

theorem Bounded.keyRight (h : e.Bounded size buffer) : e.keyRight.Bounded size buffer := by
  rw [Editor.keyRight]
  split
  · next hlt =>
    have hle : (e.pos + 1).toNat ≤ e.end_.toNat := by
      have hlt' : e.pos.toNat < e.end_.toNat := hlt
      bv_omega
    exact ⟨h.size_eq, hle, h.lt, h.kept⟩
  · exact ⟨h.size_eq, h.pos, h.lt, h.kept⟩

theorem Bounded.keyBackspace (h : e.Bounded size buffer) :
    (e.keyBackspace font).Bounded size buffer := by
  rw [Editor.keyBackspace]
  split
  · next hpos =>
    have hpos' : 0 < e.pos.toNat := hpos
    have hle := h.pos
    have hlt := h.lt
    have hback : (e.pos - 1).toNat = e.pos.toNat - 1 := by bv_omega
    have hshort : (e.end_ - 1).toNat = e.end_.toNat - 1 := by bv_omega
    refine ⟨h.size_eq, ?_, ?_, ?_⟩
    · show (e.pos - 1).toNat ≤ (e.end_ - 1).toNat
      omega
    · show (e.end_ - 1).toNat < size.toNat
      omega
    · intro i hi
      refine (Redraw.closeGap_buffer ?_ _ _).trans (h.kept i hi)
      exact hlt.le.trans hi
  · exact ⟨h.size_eq, h.pos, h.lt, h.kept⟩

theorem Bounded.append (h : e.Bounded size buffer) (hroom : e.end_.toNat + 1 < size.toNat)
    (heq : e.pos = e.end_) (d : Byte) : (e.append font d).Bounded size buffer := by
  have hnext : (e.pos + 1).toNat = e.end_.toNat + 1 := by
    rw [heq]
    bv_omega
  refine ⟨h.size_eq, le_rfl, hnext.trans_lt hroom, ?_⟩
  intro i hi
  refine (Function.update_of_ne ?_ _ _).trans (h.kept i hi)
  have hlt := h.lt
  rw [heq]
  omega

theorem lastCell_buffer (e : Editor) : e.lastCell.buffer = e.buffer := by
  rw [lastCell]
  split
  · split
    · rfl
    · rfl
  · rfl

theorem Bounded.insert (h : e.Bounded size buffer) (hroom : e.end_.toNat + 1 < size.toNat)
    (d : Byte) : (e.insert font d).Bounded size buffer := by
  have hnext : (e.end_ + 1).toNat = e.end_.toNat + 1 := by bv_omega
  have hpos := h.pos
  refine ⟨h.size_eq, ?_, hnext.trans_lt hroom, ?_⟩
  · show e.pos.toNat ≤ (e.end_ + 1).toNat
    omega
  · intro i hi
    refine (Function.update_of_ne (by omega) _ _).trans ?_
    rw [Redraw.openGap_buffer, lastCell_buffer]
    · exact h.kept i hi
    · intro k hk
      rw [List.mem_reverse, List.mem_range'_1] at hk
      omega

/-- **The guard is enough**: from an end below the size, `end + 1` is at most the size,
and where it is the size nothing is added. -/
theorem Bounded.keyChar (h : e.Bounded size buffer) (d : Byte) :
    (e.keyChar font d).Bounded size buffer := by
  have hoff : e.cursorOff.Bounded size buffer := ⟨h.size_eq, h.pos, h.lt, h.kept⟩
  have hlt := h.lt
  rw [Editor.keyChar]
  split
  · exact hoff
  · next hguard =>
    have hne : ¬ e.end_.toNat + 1 = size.toNat := by
      rw [← h.size_eq]
      exact hguard
    have hroom : e.end_.toNat + 1 < size.toNat := by omega
    split
    · next heq => exact hoff.append hroom heq d
    · exact hoff.insert hroom d

end Editor

/-- The same when `buffered_input` has returned. -/
def Console.Bounded (size : Byte) (buffer : ℕ → Byte) : Console → Prop
  | .editing e => e.Bounded size buffer
  | .idle _ b ret => ret.toNat < size.toNat ∧ ∀ i, size.toNat ≤ i → b i = buffer i

theorem Console.Bounded.kept {size : Byte} {buffer : ℕ → Byte} {c : Console}
    (h : c.Bounded size buffer) : ∀ i, size.toNat ≤ i → c.buffer i = buffer i := by
  cases c with
  | idle t b ret => exact h.2
  | editing e => exact Editor.Bounded.kept h

/-- One key. -/
theorem Editor.Bounded.key {size : Byte} {buffer : ℕ → Byte} {e : Editor}
    (h : e.Bounded size buffer) (d : Byte) : (e.key font d).Bounded size buffer := by
  rw [Editor.key]
  split_ifs
  · exact h.keyNone
  · exact h.keyLeft
  · exact h.keyRight
  · refine ⟨h.lt, ?_⟩
    intro i hi
    have hlt := h.lt
    exact (Function.update_of_ne (by omega) _ _).trans (h.kept i hi)
  · exact h.keyBackspace
  · exact h.keyChar d

/-- Any keys. -/
theorem bounded_bufferedInput (t : Terminal) (buffer : ℕ → Byte) {size : Byte}
    (hsize : 0 < size.toNat) (keys : List Byte) :
    (bufferedInput font t buffer size keys).Bounded size buffer := by
  have hstart : (⟨t, buffer, size, 0, 0, 0⟩ : Editor).Bounded size buffer :=
    ⟨rfl, le_rfl, hsize, fun _ _ => rfl⟩
  have hrun : ∀ c : Console, c.Bounded size buffer →
      (keys.foldl (fun c d => c.next font (.key d)) c).Bounded size buffer := by
    induction keys with
    | nil => exact fun c hc => hc
    | cons d keys ih =>
      intro c hc
      apply ih
      cases c with
      | idle t b ret => exact hc
      | editing e => exact Editor.Bounded.key hc d
  exact hrun _ hstart

/-! ### Bounds -/

theorem inputSize_le (v2 : Byte) : (inputSize v2).toNat ≤ v2.toNat ∧ (inputSize v2).toNat ≤ 64 := by
  rw [inputSize]
  split
  · next hlt => exact ⟨le_rfl, le_of_lt hlt⟩
  · next hge => exact ⟨not_lt.mp hge, le_rfl⟩

theorem inputSize_pos {v2 : Byte} (h : v2 ≠ 0) : 0 < (inputSize v2).toNat := by
  rw [inputSize]
  split
  · exact Nat.pos_of_ne_zero fun hzero => h (BitVec.eq_of_toNat_eq hzero)
  · exact Nat.zero_lt_succ 63

/-- What the service stores is what it returns the length of. -/
theorem sysGetInput_idle {localRam : Word → Byte} {t : Terminal} {buffer : ℕ → Byte} {rSp : Byte}
    {keys : List Byte} {t' : Terminal} {b : ℕ → Byte} {ret : Byte}
    (h : bufferedInput font t buffer (inputSize (getInputArgs ⟨localRam, t.sram⟩ rSp).2) keys
      = .idle t' b ret) :
    ∃ fw, sysGetInput font localRam t buffer rSp keys
      = some ⟨ret, (List.range ret.toNat).map b, fw⟩ := by
  simp only [sysGetInput, h]
  exact ⟨_, rfl⟩

theorem sysGetInput_editing {localRam : Word → Byte} {t : Terminal} {buffer : ℕ → Byte} {rSp : Byte}
    {keys : List Byte} {e : Editor}
    (h : bufferedInput font t buffer (inputSize (getInputArgs ⟨localRam, t.sram⟩ rSp).2) keys
      = .editing e) :
    sysGetInput font localRam t buffer rSp keys = none := by
  simp only [sysGetInput, h]

/-- **Get input stays in its bounds**, whatever the keys, exactly if the requested size
is not 0. -/
theorem inBounds_iff (font : ℕ → Byte) (localRam : Word → Byte) (t : Terminal) (buffer : ℕ → Byte)
    (rSp : Byte) :
    (∀ keys, InBounds font localRam t buffer rSp keys) ↔
      (getInputArgs ⟨localRam, t.sram⟩ rSp).2 ≠ 0 := by
  constructor
  · intro h hzero
    -- one character, and a new line
    obtain ⟨t', b, hidle⟩ : ∃ t' b, bufferedInput font t buffer
        (inputSize (getInputArgs ⟨localRam, t.sram⟩ rSp).2) [0x41, 0x0a] = .idle t' b 1 := by
      rw [hzero]
      exact ⟨_, _, rfl⟩
    obtain ⟨fw, hsome⟩ := sysGetInput_idle hidle
    have hle := ((h [0x41, 0x0a]).count _ hsome).2.2
    rw [hzero] at hle
    exact absurd hle (Nat.not_succ_le_zero 0)
  · intro hne keys
    obtain ⟨hrequested, hmax⟩ := inputSize_le (getInputArgs ⟨localRam, t.sram⟩ rSp).2
    have hbounded := @bounded_bufferedInput font t buffer _ (inputSize_pos hne) keys
    refine ⟨fun i hi => hbounded.kept i (hmax.trans hi), ?_⟩
    intro r hr
    rcases hc : bufferedInput font t buffer
        (inputSize (getInputArgs ⟨localRam, t.sram⟩ rSp).2) keys with ⟨t', b, ret⟩ | e
    · obtain ⟨fw, hsome⟩ := sysGetInput_idle hc
      obtain rfl := Option.some.inj (hsome.symm.trans hr)
      rw [hc] at hbounded
      have hlt : ret.toNat < (inputSize (getInputArgs ⟨localRam, t.sram⟩ rSp).2).toNat := hbounded.1
      refine ⟨?_, ?_, ?_⟩
      · rw [List.length_map, List.length_range]
      · exact Nat.le_of_lt_succ (hlt.trans_le hmax)
      · exact hlt.le.trans hrequested
    · rw [sysGetInput_editing hc] at hr
      cases hr

/-- Size 0: one character is stored and returned; the 65th would be written behind the
first 64 bytes, and the 129th behind the buffer. -/
theorem size_zero_not_bounded :
    let font : ℕ → Byte := fun _ => 0
    let t : Terminal := ⟨0, 0, false, fun _ => 0, []⟩
    let zeros : Word → Byte := fun _ => 0
    (getInputArgs ⟨zeros, t.sram⟩ 0xf0).2 = 0 ∧
      (∃ r, sysGetInput font zeros t (fun _ => 0) 0xf0 [0x41, 0x0a] = some r ∧ r.rA = 1 ∧
        r.stored = [0x41]) ∧
      ¬ InBounds font zeros t (fun _ => 0) 0xf0 [0x41, 0x0a] ∧
      (bufferedInput font t (fun _ => 0) 0 (List.replicate 65 0x41)).buffer 64 = 0x41 ∧
      (bufferedInput font t (fun _ => 0) 0 (List.replicate 129 0x41)).buffer 128 = 0x41 := by
  intro font t zeros
  have hargs : (getInputArgs ⟨zeros, t.sram⟩ 0xf0).2 = 0 := by decide
  obtain ⟨t', b, hidle, hb⟩ : ∃ t' b, bufferedInput font t (fun _ => 0)
      (inputSize (getInputArgs ⟨zeros, t.sram⟩ 0xf0).2) [0x41, 0x0a] = .idle t' b 1 ∧
      b 0 = 0x41 := by
    rw [hargs]
    exact ⟨_, _, rfl, rfl⟩
  obtain ⟨fw, hsome⟩ := sysGetInput_idle hidle
  refine ⟨hargs, ⟨_, hsome, rfl, congrArg (fun c => [c]) hb⟩, ?_, by decide +kernel,
    by decide +kernel⟩
  intro h
  have hle := (h.count _ hsome).2.2
  rw [hargs] at hle
  exact absurd hle (Nat.not_succ_le_zero 0)

end Dan64
