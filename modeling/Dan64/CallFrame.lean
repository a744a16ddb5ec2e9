/-
Dan64/CallFrame.lean

What a program's memory is changed by.

Whatever is drawn is on record, so that a drawing function leaves every byte alone that
the record has no store to (`Logs`); this holds of the line editor too, also where it
draws outside the screen.  The other services that store are 0x01, 0x21 and 0x22, and what
they store is where the parameters say (`Vm.Receives`).  So over a run of a program a
byte outside the video memory changes by an instruction of the program or by a call that
it made for the purpose (`memory_changes`).

The loop of `cmd_run` ends by `prog_exit` only where the program asked for it: with 0x00,
or with a service that does not exist (`cmdRun_exit`).
-/
import Dan64.CmdRun
import Dan64.TapeLength

namespace Dan64

open BlockMem

/-! ### Drawing is on record -/

namespace Terminal

/-- What `t'` has stored since `t` is on its record. -/
structure Logs (t t' : Terminal) : Prop where
  mono : t.log ⊆ t'.log
  frame : ∀ a, Video.store a ∉ t'.log → t'.sram a = t.sram a

theorem Logs.refl (t : Terminal) : Logs t t := ⟨fun _ h => h, fun _ _ => rfl⟩

theorem Logs.trans {t t' t'' : Terminal} (h : Logs t t') (h' : Logs t' t'') : Logs t t'' where
  mono _ hv := h'.mono (h.mono hv)
  frame a ha := (h'.frame a ha).trans (h.frame a fun hv => ha (h'.mono hv))

/-- A loop does if every pass does. -/
theorem logs_foldl {ι : Type} {f : Terminal → ι → Terminal} (hf : ∀ t i, Logs t (f t i))
    (t : Terminal) (is : List ι) : Logs t (is.foldl f t) := by
  induction is generalizing t with
  | nil => exact Logs.refl t
  | cons i is ih => exact (hf t i).trans (ih (f t i))

theorem logs_sramWrite (t : Terminal) (addr : Word) (data : List Byte) :
    Logs t (t.sramWrite addr data) := by
  refine ⟨List.subset_append_left _ _, fun a ha => writeBlock_of_forall_ne fun i hi hai => ha ?_⟩
  refine List.mem_append_right _ (List.mem_map.mpr ⟨a, ?_, rfl⟩)
  exact List.mem_map.mpr ⟨i, List.mem_range.mpr hi, hai.symm⟩

theorem logs_drawBlock (t : Terminal) (x y : Byte) (f : ℕ → Byte → Byte) :
    Logs t (t.drawBlock x y f) := by
  have hblock : Logs t { t with log := t.log ++ [.block x y] } :=
    ⟨List.subset_append_left _ _, fun _ _ => rfl⟩
  rw [drawBlock]
  exact hblock.trans (logs_foldl (fun t line => logs_sramWrite t _ _) _ _)

/-- The cursor may move meanwhile. -/
theorem Logs.move {t t' : Terminal} (h : Logs t t') (x y : Byte) (cursor : Bool) :
    Logs t { t' with x := x, y := y, cursor := cursor } := ⟨h.mono, h.frame⟩

variable {font : ℕ → Byte}

theorem logs_videoPutChar (t : Terminal) (x y c : Byte) : Logs t (t.videoPutChar font x y c) :=
  logs_drawBlock t x y _

theorem logs_videoCursor (t : Terminal) (x y : Byte) : Logs t (t.videoCursor x y) :=
  (logs_drawBlock t x y _).move _ _ _

theorem logs_videoCursorOff (t : Terminal) (x y : Byte) : Logs t (t.videoCursorOff x y) := by
  rw [videoCursorOff]
  split
  · exact logs_videoCursor t x y
  · exact Logs.refl t

theorem logs_videoCls (t : Terminal) (c : Byte) : Logs t (t.videoCls font c) :=
  logs_foldl (fun t _ => logs_foldl (fun t _ => logs_sramWrite t _ _) t _) t _

theorem logs_scrollUp (t : Terminal) : Logs t t.scrollUp := by
  rw [scrollUp]
  refine Logs.trans ?_ (logs_foldl (fun t _ => logs_sramWrite t _ _) _ _)
  exact logs_foldl (fun t _ => logs_foldl (fun t _ => logs_sramWrite t _ _) t _) t _

theorem logs_scrollRow (t : Terminal) : Logs t t.scrollRow := (logs_scrollUp t).move _ _ _

theorem logs_scrollBelow (t : Terminal) : Logs t t.scrollBelow := by
  rw [scrollBelow]
  split
  · exact logs_scrollRow t
  · exact Logs.refl t

theorem logs_newLine (t : Terminal) : Logs t t.newLine :=
  ((Logs.refl t).move 0 (t.y + 1) t.cursor).trans (logs_scrollBelow _)

theorem logs_putChar (t : Terminal) (c : Byte) : Logs t (t.putChar font c) := by
  have hwrap : ∀ t' : Terminal, Logs t t' → Logs t (if 31 < t'.x then t'.newLine else t') := by
    intro t' h
    split
    · exact h.trans (logs_newLine t')
    · exact h
  rw [putChar]
  apply hwrap
  split
  · exact logs_newLine t
  · split
    · exact (Logs.refl t).move _ _ _
    · exact (logs_videoPutChar t t.x t.y c).move _ _ _

theorem logs_setCursor (t : Terminal) (v0 v1 : Byte) : Logs t (t.setCursor v0 v1).2 := by
  rw [setCursor]
  split
  · exact Logs.refl t
  · exact (Logs.refl t).move _ _ _

theorem logs_fillScreen (t : Terminal) (c : Byte) : Logs t (t.fillScreen font c).2 :=
  (logs_videoCls t c).move _ _ _

end Terminal

/-! ### The line editor -/

section Editor

open Terminal

variable {font : ℕ → Byte}

namespace Redraw

theorem logs_closeGap (n : ℕ) (r : Redraw) (ks : List ℕ) :
    Logs r.term (ks.foldl (closeGap font n) r).term := by
  induction ks generalizing r with
  | nil => exact Logs.refl r.term
  | cons k ks ih =>
    refine Logs.trans ?_ (ih (closeGap font n r k))
    rw [closeGap]
    split
    · exact logs_videoPutChar r.term _ _ _
    · exact logs_videoPutChar r.term _ _ _

theorem logs_openGap (r : Redraw) (ks : List ℕ) :
    Logs r.term (ks.foldl (openGap font) r).term := by
  induction ks generalizing r with
  | nil => exact Logs.refl r.term
  | cons k ks ih => exact (logs_videoPutChar r.term _ _ _).trans (ih (openGap font r k))

end Redraw

namespace Editor

theorem logs_cursorOff (e : Editor) : Logs e.term e.cursorOff.term :=
  logs_videoCursorOff e.term _ _

theorem logs_lastCell (e : Editor) : Logs e.term e.lastCell.term := by
  rw [lastCell]
  split
  · split
    · exact logs_scrollRow e.term
    · exact Logs.refl e.term
  · exact Logs.refl e.term

theorem logs_keyBackspace (e : Editor) : Logs e.term (e.keyBackspace font).term := by
  refine (logs_cursorOff e).trans ?_
  rw [keyBackspace]
  dsimp only
  split
  · have hback : Logs e.cursorOff.term e.cursorOff.term.back := (Logs.refl _).move _ _ _
    exact hback.trans (Redraw.logs_closeGap _ ⟨_, _, _, _⟩ _)
  · exact Logs.refl _

theorem logs_append (e : Editor) (d : Byte) : Logs e.term (e.append font d).term := by
  refine (@logs_videoPutChar font e.term e.term.x e.term.y d).trans ?_
  rw [append]
  dsimp only
  split
  · exact (Logs.refl _).move _ _ _
  · exact logs_newLine _

theorem logs_insert (e : Editor) (d : Byte) : Logs e.term (e.insert font d).term := by
  have hloop := @Redraw.logs_openGap font e.lastCell
    (List.range' (e.pos.toNat + 1) ((e.end_ + 1).toNat - 1 - e.pos.toNat)).reverse
  exact (logs_lastCell e).trans (hloop.trans (logs_videoPutChar _ _ _ _))

theorem logs_keyChar (e : Editor) (d : Byte) : Logs e.term (e.keyChar font d).term := by
  refine (logs_cursorOff e).trans ?_
  rw [keyChar]
  split_ifs
  · exact Logs.refl _
  · exact logs_append _ d
  · exact logs_insert _ d

/-- A key, whether it keeps the editor on the screen or not. -/
theorem logs_key (e : Editor) (d : Byte) : Logs e.term (e.key font d).term := by
  rcases key_cases font e d with ⟨-, hk⟩ | ⟨-, hk⟩ | ⟨-, hk⟩ | ⟨-, hk⟩ | ⟨-, hk⟩ | ⟨-, hk⟩ <;>
    rw [hk]
  · rw [keyNone]
    split
    · exact logs_videoCursor _ _ _
    · exact Logs.refl _
  · refine (logs_cursorOff e).trans ?_
    rw [keyLeft]
    split
    · exact (Logs.refl _).move _ _ _
    · exact Logs.refl _
  · refine (logs_cursorOff e).trans ?_
    rw [keyRight]
    split
    · exact (Logs.refl _).move _ _ _
    · exact Logs.refl _
  · exact (logs_cursorOff e).trans (logs_newLine _)
  · exact logs_keyBackspace e
  · exact logs_keyChar e d

end Editor

theorem logs_bufferedInput (t : Terminal) (buffer : ℕ → Byte) (size : Byte) (keys : List Byte) :
    Logs t (bufferedInput font t buffer size keys).term := by
  have hrun : ∀ c : Console,
      Logs c.term (keys.foldl (fun c d => c.next font (.key d)) c).term := by
    induction keys with
    | nil => exact fun c => Logs.refl c.term
    | cons d keys ih =>
      intro c
      refine Logs.trans ?_ (ih (c.next font (.key d)))
      cases c with
      | idle t b ret => exact Logs.refl t
      | editing e => exact Editor.logs_key e d
  exact hrun (.editing ⟨t, buffer, size, 0, 0, 0⟩)

end Editor

/-! ### Memory accesses -/

/-- A store changes the cells of its block at most, also where it wraps. -/
theorem vmRamWrite_frame (m : Firmware) {addr a : Word} {src : List Byte}
    (h : ∀ i < src.length, a ≠ addr + BitVec.ofNat 16 i) :
    (m.vmRamWrite addr src).flat a = m.flat a := by
  have hpart := part_le addr src.length
  have hlocal : writeBlock m.localRam addr (src.take (part addr src.length)) a = m.localRam a := by
    apply writeBlock_of_forall_ne
    intro i hi
    exact h i (hi.trans_le (by simp))
  have hsram : writeBlock m.sram (addr + BitVec.ofNat 16 (part addr src.length))
      (src.drop (part addr src.length)) a = m.sram a := by
    apply writeBlock_of_forall_ne
    intro i hi
    rw [List.length_drop] at hi
    rw [BitVec.add_assoc, ← BitVec.ofNat_add]
    exact h _ (by omega)
  rw [Firmware.vmRamWrite]
  split
  · rfl
  · exact congrArg₂ (fun b c => if IsLocal a then b else c) hlocal hsram

variable {R : Type}

namespace Kernel

/-- `k'` is `k` after drawing and after stores to `p`. -/
structure Leaves (p : Word → Prop) (k k' : Kernel R) : Prop where
  log : k.term.log ⊆ k'.term.log
  frame : ∀ a, ¬ p a → Video.store a ∉ k'.term.log → k'.fw.flat a = k.fw.flat a
  progExit : k'.progExit = k.progExit

theorem Leaves.refl (p : Word → Prop) (k : Kernel R) : Leaves p k k :=
  ⟨fun _ h => h, fun _ _ _ => rfl, rfl⟩

theorem Leaves.trans {p : Word → Prop} {k k' k'' : Kernel R} (h : Leaves p k k')
    (h' : Leaves p k' k'') : Leaves p k k'' where
  log _ hv := h'.log (h.log hv)
  frame a ha hv := (h'.frame a ha hv).trans (h.frame a ha fun hv' => hv (h'.log hv'))
  progExit := h'.progExit.trans h.progExit

variable {font : ℕ → Byte} {p : Word → Prop}

/-- Drawing. -/
theorem leaves_term {k : Kernel R} {t : Terminal} (h : Terminal.Logs k.term t) (seed : R)
    (buffer : ℕ → Byte) :
    Leaves p k { k with term := t, seed := seed, buffer := buffer } where
  log := h.mono
  frame a _ ha := congrArg (fun b => if IsLocal a then k.localRam a else b) (h.frame a ha)
  progExit := rfl

theorem leaves_putChar (k : Kernel R) (c : Byte) : Leaves p k (k.putChar font c) :=
  leaves_term (Terminal.logs_putChar k.term c) k.seed k.buffer

theorem leaves_foldl_putChar (k : Kernel R) (cs : List Byte) :
    Leaves p k (cs.foldl (Kernel.putChar font) k) := by
  induction cs generalizing k with
  | nil => exact Leaves.refl p k
  | cons c cs ih => exact (leaves_putChar k c).trans (ih (k.putChar font c))

theorem leaves_putText (k : Kernel R) (text : List Char) (n : ℕ) :
    Leaves p k (k.putText font text n) :=
  (leaves_term (.refl k.term) k.seed _).trans (leaves_foldl_putChar _ _)

/-- Storing. -/
theorem leaves_vmRamWrite {k : Kernel R} {addr : Word} {src : List Byte}
    (hp : ∀ i < src.length, p (addr + BitVec.ofNat 16 i)) : Leaves p k (k.vmRamWrite addr src) where
  log _ hv := hv
  frame _ ha _ := vmRamWrite_frame k.fw fun i hi hai => ha (hai ▸ hp i hi)
  progExit := rfl

/-! ### The services -/

theorem leaves_load (k : Kernel R) (addr : Word) (audio : List Byte)
    (hp : ∀ a : Word, 512 ≤ a.toNat → p a) : Leaves p k (k.load addr audio).2 where
  log _ hv := hv
  frame a ha _ := by
    have hlocal : IsLocal a := not_le.mp fun hle => ha (hp a hle)
    obtain ⟨-, -, hkeep⟩ := foldl_loadDataWrite ⟨k.fw, []⟩ addr (drive initDecoder audio).1
    have hram : (k.load addr audio).2.localRam = k.localRam := by
      rw [load, load_eq]
      exact hkeep
    show (if IsLocal a then (k.load addr audio).2.localRam a else _) = _
    rw [if_pos hlocal, hram]
    exact (if_pos hlocal).symm
  progExit := rfl

theorem leaves_putString {fuel : ℕ} {k : Kernel R} {addr : Word} {rA : Byte} {r : Byte × Kernel R}
    (h : k.putString font fuel addr rA = some r) : Leaves p k r.2 := by
  obtain ⟨n, -, -, rfl⟩ := putString_eq_some.mp h
  have hprinted : ∀ n, Leaves p k (k.printed font addr n) := by
    intro n
    induction n with
    | zero => exact Leaves.refl p k
    | succ n ih => exact ih.trans (leaves_putChar _ _)
  exact hprinted n

theorem leaves_write (k : Kernel R) (fd addr count : Word) :
    Leaves p k (k.write font fd addr count).2 := by
  have hloop : ∀ (fuel : ℕ) (w : Writing R),
      Leaves p w.kernel (Writing.loop font fuel w).kernel := by
    intro fuel
    induction fuel with
    | zero => exact fun w => Leaves.refl p w.kernel
    | succ fuel ih =>
      intro w
      rw [Writing.loop]
      split
      · exact Leaves.refl p w.kernel
      · refine Leaves.trans ?_ (ih (w.pass font))
        exact (leaves_term (.refl w.kernel.term) w.kernel.seed _).trans (leaves_foldl_putChar _ _)
  rw [write]
  split
  · exact hloop count.toNat ⟨k, addr, count, []⟩
  · exact Leaves.refl p k

theorem leaves_getInput {k : Kernel R} {addr : Word} {v2 : Byte} {keys : List Byte}
    {r : Byte × Kernel R} (h : k.getInput font addr v2 keys = some r)
    (hp : ∀ i < r.1.toNat, p (addr + BitVec.ofNat 16 i)) : Leaves p k r.2 := by
  have hlogs := @logs_bufferedInput font k.term k.buffer (inputSize v2) keys
  rw [getInput] at h
  rcases hb : bufferedInput font k.term k.buffer (inputSize v2) keys with ⟨t, b, ret⟩ | e
  · rw [hb] at h hlogs
    obtain rfl := Option.some.inj h
    refine (leaves_term hlogs k.seed b).trans (leaves_vmRamWrite fun i hi => hp i ?_)
    simpa using hi
  · rw [hb] at h
    cases h

/-- It stores fewer characters than were requested, and than 64, unless none were. -/
theorem getInput_lt {k : Kernel R} {addr : Word} {v2 : Byte} {keys : List Byte}
    {r : Byte × Kernel R} (h : k.getInput font addr v2 keys = some r) (hv2 : v2 ≠ 0) :
    r.1.toNat < min v2.toNat 64 := by
  have hbounded := @bounded_bufferedInput font k.term k.buffer _ (inputSize_pos hv2) keys
  rw [getInput] at h
  rcases hb : bufferedInput font k.term k.buffer (inputSize v2) keys with ⟨t, b, ret⟩ | e
  · rw [hb] at h hbounded
    obtain rfl := Option.some.inj h
    exact hbounded.1.trans_le (le_min (inputSize_le v2).1 (inputSize_le v2).2)
  · rw [hb] at h
    cases h

theorem leaves_read {k : Kernel R} {fd addr count : Word} {keys : List Byte} {r : Byte × Kernel R}
    (h : k.read font fd addr count keys = some r)
    (hp : fd = 0 → ∀ i < count.toNat, p (addr + BitVec.ofNat 16 i)) : Leaves p k r.2 := by
  have hfold : ∀ (vs : List Byte) (q : Reading R),
      (∀ i < vs.length, p (q.addr + BitVec.ofNat 16 i)) →
      Leaves p q.kernel (vs.foldl (Reading.key font) q).kernel := by
    intro vs
    induction vs with
    | nil => exact fun q _ => Leaves.refl p q.kernel
    | cons v vs ih =>
      intro q hq
      refine Leaves.trans ?_ (ih (q.key font v) fun i hi => ?_)
      · refine (leaves_putChar q.kernel v).trans (leaves_vmRamWrite fun i hi => ?_)
        exact hq i (hi.trans_le (Nat.succ_le_succ (Nat.zero_le _)))
      · show p (q.addr + 1 + BitVec.ofNat 16 i)
        rw [add_one_add_ofNat]
        exact hq (i + 1) (Nat.succ_lt_succ hi)
  rw [read] at h
  split at h
  · next hfd =>
    obtain ⟨q, hq, rfl⟩ := Option.map_eq_some_iff.mp h
    rw [Reading.loop_eq] at hq
    split at hq
    · obtain rfl := Option.some.inj hq
      refine hfold _ ⟨k, addr, count, 0⟩ fun i hi => hp hfd.1 i (hi.trans_le ?_)
      exact List.length_take_le _ _
    · cases hq
  · obtain rfl := Option.some.inj h
    exact Leaves.refl p k

theorem leaves_putTile (k : Kernel R) (addr : Word) : Leaves p k (k.putTile addr) :=
  leaves_term (Terminal.logs_drawBlock _ _ _ _) k.seed _

end Kernel

/-! ### A call -/

/-- Where a call may store besides the screen: as much as it reads at the address that it
was given.  A line is shorter than the size that was asked for and than 64, but for the
size 0: there it has up to 255 characters, of which 127 are inside the buffer of the
kernel. -/
def Vm.Receives (s : Vm (Kernel R)) (func : Byte) (a : Word) : Prop :=
  (func = Service.load.func ∧ 512 ≤ a.toNat) ∨
  (func = Service.getInput.func ∧ ∃ i < 256,
    (s.param 3 2 ≠ 0 → i + 1 < min (s.param 3 2).toNat 64) ∧
      a = s.paramWord 3 0 + BitVec.ofNat 16 i) ∨
  (func = Service.read.func ∧ s.paramWord 6 0 = 0 ∧
    ∃ i < (s.paramWord 6 4).toNat, a = s.paramWord 6 2 + BitVec.ofNat 16 i)

/-- The calls that end a program. -/
def EndsProgram (func : Byte) : Prop :=
  func = Service.terminate.func ∨ ∀ svc : Service, svc.func ≠ func

theorem not_endsProgram {svc : Service} (h : svc.func ≠ Service.terminate.func) :
    ¬ EndsProgram svc.func := by
  rintro (hfunc | hnone)
  · exact h hfunc
  · exact hnone svc rfl

section Call

open Kernel

variable {font : ℕ → Byte} {rng : Random R} {fuel : ℕ} {dev : Devices} {func : Byte}
  {s t u : Vm (Kernel R)}

/-- What is said about a call. -/
structure CallLeaves (s u : Vm (Kernel R)) (func : Byte) : Prop where
  leaves : Leaves (s.Receives func) s.ram { u.ram with progExit := s.ram.progExit }
  ends : EndsProgram func → u.ram.progExit = true
  goesOn : ¬ EndsProgram func → u.ram.progExit = s.ram.progExit

theorem CallLeaves.of_leaves (svc : Service) (hsvc : svc.func ≠ Service.terminate.func)
    (h : Leaves (s.Receives svc.func) s.ram u.ram) : CallLeaves s u svc.func where
  leaves := ⟨h.log, h.frame, rfl⟩
  ends hends := absurd hends (not_endsProgram hsvc)
  goesOn _ := h.progExit

theorem CallLeaves.of_exit {k : Kernel R} (hu : u.ram = { k with progExit := true })
    (h : Leaves (s.Receives func) s.ram k) (hends : EndsProgram func) : CallLeaves s u func where
  leaves := by
    rw [hu]
    exact ⟨h.log, h.frame, rfl⟩
  ends _ := by rw [hu]
  goesOn hnot := absurd hends hnot

/-- **A call** draws, stores where it may, and ends the program if it is one of those
that do. -/
theorem vmSyscall_leaves (h : vmSyscall font rng fuel dev func s = some u) :
    CallLeaves s u func := by
  rw [vmSyscall.eq_def] at h
  split at h
  · obtain rfl := Option.some.inj h
    refine .of_exit rfl ?_ (.inl rfl)
    split
    · exact leaves_putText _ _ _
    · exact leaves_putText _ _ _
  · obtain rfl := Option.some.inj h
    refine .of_leaves .load (by decide) (leaves_load _ _ _ fun a ha => .inl ⟨rfl, ha⟩)
  · obtain ⟨r, hr, rfl⟩ := Option.map_eq_some_iff.mp h
    obtain ⟨code, -, rfl⟩ := Kernel.save_eq_some.mp hr
    exact .of_leaves .save (by decide) (.refl _ _)
  · obtain rfl := Option.some.inj h
    exact .of_leaves .putCharacter (by decide)
      (leaves_term (Terminal.logs_videoPutChar _ _ _ _) _ _)
  · obtain ⟨r, hr, rfl⟩ := Option.map_eq_some_iff.mp h
    exact .of_leaves .putString (by decide) (leaves_putString hr)
  · obtain rfl := Option.some.inj h
    exact .of_leaves .setCursor (by decide)
      (leaves_term (Terminal.logs_setCursor _ _ _) _ _)
  · obtain rfl := Option.some.inj h
    exact .of_leaves .fillScreen (by decide)
      (leaves_term (Terminal.logs_fillScreen _ _) _ _)
  · obtain rfl := Option.some.inj h
    exact .of_leaves .write (by decide) (leaves_write _ _ _ _)
  · obtain rfl := Option.some.inj h
    exact .of_leaves .getCharacter (by decide) (.refl _ _)
  · obtain ⟨r, hr, rfl⟩ := Option.map_eq_some_iff.mp h
    refine .of_leaves .getInput (by decide) (leaves_getInput hr fun i hi => ?_)
    refine .inr (.inl ⟨rfl, i, hi.trans r.1.isLt, fun hv2 => ?_, rfl⟩)
    exact (Nat.succ_le_of_lt hi).trans_lt (getInput_lt hr hv2)
  · obtain ⟨r, hr, rfl⟩ := Option.map_eq_some_iff.mp h
    refine .of_leaves .read (by decide) (leaves_read hr fun hfd i hi => ?_)
    exact .inr (.inr ⟨rfl, hfd, i, hi, rfl⟩)
  · obtain rfl := Option.some.inj h
    exact .of_leaves .putTile (by decide) (leaves_putTile _ _)
  · obtain rfl := Option.some.inj h
    exact .of_leaves .random (by decide) (leaves_term (.refl _) _ _)
  · obtain rfl := Option.some.inj h
    exact .of_leaves .waitVsync (by decide) (.refl _ _)
  · obtain rfl := Option.some.inj h
    exact .of_leaves .srand (by decide) (leaves_term (.refl _) _ _)
  · obtain rfl := Option.some.inj h
    exact .of_leaves .version (by decide) (.refl _ _)
  · obtain rfl := Option.some.inj h
    refine .of_exit rfl (leaves_putText _ _ _) (.inr fun svc => ?_)
    cases svc <;> intro hfunc <;> simp_all [Service.func]

end Call

/-! ### A run -/

section Run

variable {font : ℕ → Byte} {rng : Random R} {s t u : Vm (Kernel R)} {us : List (Vm (Kernel R))}

/-- An instruction leaves alone what only the kernel has. -/
theorem vmExec_kernel (h : vmExec (fun _ u => u) s = some t) :
    t.ram.progExit = s.ram.progExit ∧ t.ram.term.log = s.ram.term.log :=
  @keeps_vmExec (Kernel R) _
    (fun k => k.progExit = s.ram.progExit ∧ k.term.log = s.ram.term.log)
    (fun _ _ _ hk => hk) (fun _ _ _ hk => hk) _ _ _ id ⟨rfl, rfl⟩ h

/-- The byte at `a` is changed by an instruction, or by a call that may store there. -/
def Changes (s t : Vm (Kernel R)) (a : Word) : Prop :=
  t.toFlat.ram a ≠ s.toFlat.ram a ∧
    (s.fetch.1.op ≠ 0x02 ∧ vmExec (fun _ u => u) s = some t ∨
      s.fetch.1.op = 0x02 ∧ s.Receives s.rA a)

/-- **Step.**  A pass keeps the record, and changes a byte that it has no store to in one of
the two ways. -/
theorem Pass.frame (h : Pass font rng s t) : s.ram.term.log ⊆ t.ram.term.log ∧
    ∀ a, Video.store a ∉ t.ram.term.log → t.toFlat.ram a = s.toFlat.ram a ∨ Changes s t a := by
  cases h with
  | exec _ hop hexec =>
    refine ⟨fun v hv => by rwa [(vmExec_kernel hexec).2], fun a _ => ?_⟩
    by_cases hsame : t.toFlat.ram a = s.toFlat.ram a
    · exact .inl hsame
    · exact .inr ⟨hsame, .inl ⟨hop, hexec⟩⟩
  | sys fuel dev _ hop hexec =>
    obtain ⟨u, hu, rfl⟩ := (vmExecSys_eq_some hop).mp hexec
    have hleaves := (vmSyscall_leaves hu).leaves
    refine ⟨hleaves.log, fun a ha => ?_⟩
    by_cases hsame : (u.next 1).toFlat.ram a = s.toFlat.ram a
    · exact .inl hsame
    · refine .inr ⟨hsame, .inr ⟨hop, ?_⟩⟩
      by_contra hnot
      exact hsame (hleaves.frame a hnot ha)

/-- **What changes a program's memory**, over a whole run: a byte outside the video memory
that is not the same at the end has been changed by an instruction of the program, or by a
call to load, to get input or to read whose parameters say that it may.  The screen must
have been drawn on inside its bounds, and no line run over the buffer of the kernel. -/
theorem memory_changes (font : ℕ → Byte) (rng : Random R) {s t : Vm (Kernel R)}
    {us : List (Vm (Kernel R))} (h : Steps (Pass font rng) s us t)
    (hscreen : ∀ v ∈ t.ram.term.log, v.InBounds) {a : Word}
    (ha : a.toNat < 0x0200 ∨ 0x19ff < a.toNat) (hne : t.toFlat.ram a ≠ s.toFlat.ram a) :
    ∃ u ∈ us, ∃ v, Pass font rng u v ∧ Changes u v a := by
  have hlog : Video.store a ∉ t.ram.term.log := by
    intro hv
    have hbounds : 0x0200 ≤ a.toNat ∧ a.toNat ≤ 0x19ff := hscreen _ hv
    omega
  clear hscreen ha
  induction h with
  | nil s => exact absurd rfl hne
  | @cons s u t us hstep hrun ih =>
    -- the record only grows
    have hgrow : u.ram.term.log ⊆ t.ram.term.log :=
      (hrun.invariant (I := fun v => u.ram.term.log ⊆ v.ram.term.log) (G := fun _ => True)
        (fun v w hv _ hvw _ hx => hvw.frame.1 (hv hx)) (fun _ _ => trivial) fun _ hx => hx).1
    by_cases hsame : t.toFlat.ram a = u.toFlat.ram a
    · rcases hstep.frame.2 a (fun hv => hlog (hgrow hv)) with heq | hchanges
      · exact absurd (hsame.trans heq) hne
      · exact ⟨s, by simp, u, hstep, hchanges⟩
    · obtain ⟨w, hw, x, hpass, hchanges⟩ := ih hsame hlog
      exact ⟨w, List.mem_cons_of_mem _ hw, x, hpass, hchanges⟩

/-- `PHA` in a memory full of it stores on the stack. -/
theorem memory_changes_pha :
    let rng : Random Unit := ⟨fun _ => (0, ()), fun _ => ()⟩
    let s : Vm (Kernel Unit) := ⟨1, 0, 0, 0xff, 0, 0x1a00,
      ⟨fun _ => 0x48, ⟨0, 0, false, fun _ => 0x48, []⟩, fun _ => 0, false, ()⟩⟩
    ∃ u ∈ [s], ∃ v, Pass (fun _ => 0) rng u v ∧ Changes u v 0x01ff :=
  let rng : Random Unit := ⟨fun _ => (0, ()), fun _ => ()⟩
  let s : Vm (Kernel Unit) := ⟨1, 0, 0, 0xff, 0, 0x1a00,
    ⟨fun _ => 0x48, ⟨0, 0, false, fun _ => 0x48, []⟩, fun _ => 0, false, ()⟩⟩
  memory_changes (fun _ => 0) rng (s := s) (.one (.exec rfl (by decide) rfl))
    (fun _ hv => absurd hv List.not_mem_nil) (.inl (by decide)) (by decide)

/-- What a call that ends the program prints: the exit code is on the stack. -/
def exitText (s : Vm (Kernel R)) : List Char :=
  if s.rA = 0x00 then
    if s.param 1 0 ≠ 0 then vsnprintf (s.param 1 0).toNat textErrPrg else vsnprintf 0 textErrOk
  else vsnprintf s.rA.toNat textErrSys

theorem term_putText (k : Kernel R) (text : List Char) (n : ℕ) :
    (k.putText font text n).term
      = (chars (vsnprintf n text)).foldl (Terminal.putChar font) k.term := by
  rw [Kernel.putText, Kernel.foldl_putChar]

/-- The default of the `switch`. -/
theorem vmSyscall_unknown {fuel : ℕ} {dev : Devices} {func : Byte}
    (hnone : ∀ svc : Service, svc.func ≠ func)
    (h : vmSyscall font rng fuel dev func s = some u) :
    u.ram = { s.ram.putText font textErrSys func.toNat with progExit := true } := by
  rw [vmSyscall.eq_def] at h
  split at h
  case h_17 =>
    obtain rfl := Option.some.inj h
    rfl
  · exact absurd rfl (hnone .terminate)
  · exact absurd rfl (hnone .load)
  · exact absurd rfl (hnone .save)
  · exact absurd rfl (hnone .putCharacter)
  · exact absurd rfl (hnone .putString)
  · exact absurd rfl (hnone .setCursor)
  · exact absurd rfl (hnone .fillScreen)
  · exact absurd rfl (hnone .write)
  · exact absurd rfl (hnone .getCharacter)
  · exact absurd rfl (hnone .getInput)
  · exact absurd rfl (hnone .read)
  · exact absurd rfl (hnone .putTile)
  · exact absurd rfl (hnone .random)
  · exact absurd rfl (hnone .waitVsync)
  · exact absurd rfl (hnone .srand)
  · exact absurd rfl (hnone .version)

theorem vmSyscall_terminate {fuel : ℕ} {dev : Devices} : vmSyscall font rng fuel dev 0x00 s
    = some { s with ram := s.ram.terminate font (s.param 1 0) } := rfl

theorem vmSyscall_exit {fuel : ℕ} {dev : Devices} (hends : EndsProgram s.rA)
    (h : vmSyscall font rng fuel dev s.rA s = some u) :
    u.ram.term = (chars (exitText s)).foldl (Terminal.putChar font) s.ram.term := by
  rw [exitText]
  rcases hends with hzero | hnone
  · have hzero' : s.rA = 0x00 := hzero
    have hram : u.ram = s.ram.terminate font (s.param 1 0) := by
      rw [hzero', vmSyscall_terminate] at h
      rw [← Option.some.inj h]
    rw [hram, if_pos hzero', Kernel.terminate]
    by_cases hcode : s.param 1 0 ≠ 0
    · simp only [if_pos hcode]
      exact term_putText _ _ _
    · simp only [if_neg hcode]
      exact term_putText _ _ _
  · have hne : s.rA ≠ 0x00 := fun hzero => hnone .terminate hzero.symm
    rw [vmSyscall_unknown hnone h, if_neg hne]
    exact term_putText _ _ _

/-- A pass ends the program exactly if it is a call that does. -/
theorem Pass.progExit_iff (h : Pass font rng u t) :
    t.ram.progExit = true ↔ u.fetch.1.op = 0x02 ∧ EndsProgram u.rA := by
  cases h with
  | exec hrunning hop hexec =>
    rw [(vmExec_kernel hexec).1, hrunning]
    exact iff_of_false (by decide) fun h => hop h.1
  | sys fuel dev hrunning hop hexec =>
    obtain ⟨v, hv, rfl⟩ := (vmExecSys_eq_some hop).mp hexec
    have hcall := vmSyscall_leaves hv
    by_cases hends : EndsProgram u.rA
    · exact iff_of_true (hcall.ends hends) ⟨hop, hends⟩
    · refine iff_of_false ?_ fun h => hends h.2
      show ¬ v.ram.progExit = true
      rw [hcall.goesOn hends, hrunning]
      decide

/-- **How a program ends**: `prog_exit` is set by the last pass or not at all, and by no
instruction; the last pass is then a call of 0x00 or of a service that does not exist, and
prints the exit code or the number of the service.  (No line runs over the buffer of the
kernel.) -/
theorem cmdRun_exit (font : ℕ → Byte) (rng : Random R) {s t : Vm (Kernel R)}
    {us : List (Vm (Kernel R))} (h : Steps (Pass font rng) (cmdRunStart s) us t) :
    (∀ u ∈ us, u.ram.progExit = false) ∧
      (t.ram.progExit = true ↔
        ∃ vs u, us = vs ++ [u] ∧ u.fetch.1.op = 0x02 ∧ EndsProgram u.rA) ∧
      ∀ vs u, us = vs ++ [u] → t.ram.progExit = true →
        t.ram.term = (chars (exitText u)).foldl (Terminal.putChar font) u.ram.term := by
  refine ⟨fun u hu => ?_, ?_, ?_⟩
  · obtain ⟨v, hv⟩ := h.exists_step hu
    cases hv with
    | exec hrunning | sys _ _ hrunning => exact hrunning
  · rcases h.eq_or_last with ⟨rfl, rfl⟩ | ⟨vs, u, rfl, -, hpass⟩
    · refine iff_of_false (by simp [cmdRunStart, vmInit]) ?_
      rintro ⟨vs, u, hnil, -⟩
      simp at hnil
    · rw [hpass.progExit_iff]
      constructor
      · exact fun h => ⟨vs, u, rfl, h⟩
      · rintro ⟨vs', u', heq, h⟩
        obtain ⟨-, hu⟩ := List.append_inj' heq rfl
        rwa [List.singleton_inj.mp hu]
  · rintro vs u rfl hexit
    obtain ⟨v, -, hlast⟩ := h.split
    cases hlast with
    | cons hpass hrun =>
      cases hrun
      obtain ⟨hop, hends⟩ := hpass.progExit_iff.mp hexit
      cases hpass with
      | exec _ hop' => exact absurd hop hop'
      | sys fuel dev _ _ hexec =>
        obtain ⟨w, hw, rfl⟩ := (vmExecSys_eq_some hop).mp hexec
        exact (vmSyscall_exit hends hw :)

/-- `SYS` in a memory full of it: the exit code is 2. -/
theorem cmdRun_exit_code :
    let s : Vm (Kernel Unit) := cmdRunStart ⟨0, 0, 0, 0, 0, 0,
      ⟨fun _ => 2, ⟨0, 0, false, fun _ => 2, []⟩, fun _ => 0, true, ()⟩⟩
    let t : Vm (Kernel Unit) :=
      Vm.next 1 { s with ram := s.ram.terminate (fun _ => 0) (s.param 1 0) }
    (∀ u ∈ [s], u.ram.progExit = false) ∧
      (t.ram.progExit = true ↔
        ∃ vs u, [s] = vs ++ [u] ∧ u.fetch.1.op = 0x02 ∧ EndsProgram u.rA) ∧
      ∀ vs u, [s] = vs ++ [u] → t.ram.progExit = true →
        t.ram.term = (chars (exitText u)).foldl (Terminal.putChar fun _ => 0) u.ram.term :=
  let rng : Random Unit := ⟨fun _ => (0, ()), fun _ => ()⟩
  let s : Vm (Kernel Unit) := ⟨0, 0, 0, 0, 0, 0,
    ⟨fun _ => 2, ⟨0, 0, false, fun _ => 2, []⟩, fun _ => 0, true, ()⟩⟩
  cmdRun_exit (fun _ => 0) rng (s := s) (.one (.sys 0 .none rfl (by decide)
    ((vmExecSys_eq_some (by decide)).mpr ⟨_, vmSyscall_terminate, rfl⟩)))

end Run

end Dan64
