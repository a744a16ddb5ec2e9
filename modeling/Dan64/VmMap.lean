/-
Dan64/VmMap.lean

The same program over two memories.

A map between memories that carries accesses over (`Carries`) carries `vm_exec`
over: registers never depend on what kind of memory there is, and every access of
a case is one of the map's.  Of the accesses of the virtual machine only four can
run past `$ffff` (`Vm.Fits`): the three bytes of a fetch, the pointer of an
indirect jump, and the pushes of `JSR` and `BRK` from the bottom of page one.

The memory of the firmware is carried to the flat memory, so that a run on the
board is a run of the test harness as long as its accesses fit.
-/
import Dan64.SplitMem
import Dan64.Steps

namespace BlockMem

variable {w : ℕ} {β M N : Type} [BlockMem w β M] [BlockMem w β N]

/-- A map that commutes with the accesses of a kind. -/
structure Carries (φ : M → N) (ok : Access w β → Prop) : Prop where
  read {m : M} {a : BitVec w} {n : ℕ} : ok (.read a n) →
    BlockMem.read (φ m) a n = ((BlockMem.read m a n).1, φ (BlockMem.read m a n).2)
  write {m : M} {a : BitVec w} {bs : List β} : ok (.write a bs) →
    BlockMem.write (φ m) a bs = φ (BlockMem.write m a bs)

/-- Accesses of the kind can be made one after the other. -/
theorem Carries.runOps {φ : M → N} {ok : Access w β → Prop} (h : Carries φ ok)
    {os : List (Access w β)} (hok : ∀ o ∈ os, ok o) (m : M) :
    BlockMem.runOps (φ m) os = ((BlockMem.runOps m os).1, φ (BlockMem.runOps m os).2) := by
  have hstep : ∀ (m : M) (n : N) (o : Access w β), φ m = n → ok o →
      (perform m o).1 = (perform n o).1 ∧ φ (perform m o).2 = (perform n o).2 := by
    rintro m n (⟨a, k⟩ | ⟨a, bs⟩) rfl ho
    · exact ⟨(congrArg Prod.fst (h.read ho)).symm, (congrArg Prod.snd (h.read ho)).symm⟩
    · exact ⟨rfl, (h.write ho).symm⟩
  obtain ⟨hout, hmem⟩ := runOps_sim hstep rfl hok
  exact Prod.ext hout.symm hmem.symm

end BlockMem

namespace Dan64

open BlockMem

variable {M N : Type}

/-- The same registers over another memory. -/
def Vm.map (φ : M → N) (s : Vm M) : Vm N := ⟨s.rA, s.rX, s.rY, s.rSp, s.rS, s.rPc, φ s.ram⟩

/-! ### The accesses that may not fit -/

/-- The accesses of a case stay below `$10000`. -/
def Case.Fits (k : Case) (c : OpCache) (rSp : Byte) : Prop :=
  match k with
  | .jmpInd => addr16 (word c.b1) (word c.b2) ≠ 0xffff
  | .jsr => rSp ≠ 0
  | .brk => 2 ≤ rSp.toNat
  | _ => True

/-- The accesses of the next `vm_exec` do. -/
def Vm.Fits [BlockMem 16 Byte M] (s : Vm M) : Prop :=
  s.rPc.toNat ≤ 0xfffd ∧ ∀ k ∈ vmSwitch s.fetch.1.op, k.Fits s.fetch.1 s.rSp

/-- A pull of at most three bytes. -/
theorem inRange_pull : ∀ sp : Byte, (addr16 (word sp + 1) 1).toNat + 3 ≤ 65536 := by
  decide +kernel

theorem inRange_push_two : ∀ sp : Byte, sp ≠ 0 → (addr16 (word sp - 1) 1).toNat + 2 ≤ 65536 := by
  decide +kernel

theorem inRange_push_three : ∀ sp : Byte, 2 ≤ sp.toNat →
    (addr16 (word sp - 2) 1).toNat + 3 ≤ 65536 := by
  decide +kernel

/-! ### Registers do not depend on the memory -/

section Map

variable (φ : M → N) (s : Vm M)

@[simp] theorem map_next (n : ℕ) : (s.next n).map φ = (s.map φ).next n := rfl

@[simp] theorem map_setNZ (v : Byte) : (s.setNZ v).map φ = (s.map φ).setNZ v := rfl

@[simp] theorem map_setNZC (v c : Byte) : (s.setNZC v c).map φ = (s.map φ).setNZC v c := rfl

@[simp] theorem map_compare (r t : Byte) : (s.compare r t).map φ = (s.map φ).compare r t := rfl

@[simp] theorem map_bit (t : Byte) : (s.bit t).map φ = (s.map φ).bit t := rfl

@[simp] theorem map_adc (t : Byte) : (s.adc t).map φ = (s.map φ).adc t := by
  by_cases hd : testD s.rS ≠ 0#8
  · exact (congrArg _ (if_pos hd)).trans (if_pos (c := testD (s.map φ).rS ≠ 0#8) hd).symm
  · exact (congrArg _ (if_neg hd)).trans (if_neg (c := testD (s.map φ).rS ≠ 0#8) hd).symm

@[simp] theorem map_sbc (t : Byte) : (s.sbc t).map φ = (s.map φ).sbc t := by
  by_cases hd : testD s.rS ≠ 0#8
  · exact (congrArg _ (if_pos hd)).trans (if_pos (c := testD (s.map φ).rS ≠ 0#8) hd).symm
  · exact (congrArg _ (if_neg hd)).trans (if_neg (c := testD (s.map φ).rS ≠ 0#8) hd).symm

@[simp] theorem map_branch (b : Bool) (c : OpCache) :
    (s.branch b c).map φ = (s.map φ).branch b c := by
  cases b <;> rfl

end Map

/-! ### Accesses -/

section Carried

variable [BlockMem 16 Byte M] [BlockMem 16 Byte N] {φ : M → N} (hφ : Carries φ InRange)
include hφ

theorem map_vmRamRead {s : Vm M} {a : Word} {n : ℕ} (h : a.toNat + n ≤ 65536) :
    (s.map φ).vmRamRead a n = ((s.vmRamRead a n).1, (s.vmRamRead a n).2.map φ) := by
  have hread : BlockMem.read (φ s.ram) a n
      = ((BlockMem.read s.ram a n).1, φ (BlockMem.read s.ram a n).2) := hφ.read h
  simp only [Vm.vmRamRead, Vm.map, hread]

theorem map_vmRamWrite {s : Vm M} {a : Word} {bs : List Byte} (h : a.toNat + bs.length ≤ 65536) :
    (s.vmRamWrite a bs).map φ = (s.map φ).vmRamWrite a bs := by
  have hwrite : BlockMem.write (φ s.ram) a bs = φ (BlockMem.write s.ram a bs) := hφ.write h
  simp only [Vm.vmRamWrite, Vm.map, hwrite]

/-- One byte is always in range. -/
theorem map_read_one (s : Vm M) (a : Word) :
    (s.map φ).vmRamRead a 1 = ((s.vmRamRead a 1).1, (s.vmRamRead a 1).2.map φ) :=
  map_vmRamRead hφ (Nat.succ_le_of_lt a.isLt)

theorem map_write_one (s : Vm M) (a : Word) (b : Byte) :
    (s.vmRamWrite a [b]).map φ = (s.map φ).vmRamWrite a [b] :=
  map_vmRamWrite hφ (Nat.succ_le_of_lt a.isLt)

/-- The bytes of a pointer in page zero are. -/
theorem map_read_pointer (s : Vm M) (p : Word) :
    (s.map φ).vmRamRead (p &&& 0xff#16) 2
      = ((s.vmRamRead (p &&& 0xff#16) 2).1, (s.vmRamRead (p &&& 0xff#16) 2).2.map φ) := by
  refine map_vmRamRead hφ ?_
  have hle : (p &&& 0xff#16).toNat ≤ 255 := by
    rw [BitVec.toNat_and]
    exact Nat.and_le_right
  omega

theorem map_fetch {s : Vm M} (h : s.rPc.toNat ≤ 0xfffd) :
    (s.map φ).fetch = (s.fetch.1, s.fetch.2.map φ) := by
  have hread : (s.map φ).vmRamRead (s.map φ).rPc 3 = _ :=
    map_vmRamRead hφ (show s.rPc.toNat + 3 ≤ 65536 by omega)
  rw [Vm.fetch, hread]
  rfl

theorem Addressing.map_addr (m : Addressing) (c : OpCache) (s : Vm M) :
    m.addr c (s.map φ) = ((m.addr c s).1, (m.addr c s).2.map φ) := by
  cases m with
  | zp | zpX | zpY | abs | absX | absY => rfl
  | indX =>
    have hread := map_read_pointer hφ s (word c.b1 + word s.rX)
    simp only [Addressing.addr]
    rw [show (s.map φ).rX = s.rX from rfl, hread]
  | indY =>
    have hlt := c.b1.isLt
    have hread : (s.map φ).vmRamRead (word c.b1) 2 = _ :=
      map_vmRamRead hφ (show c.b1.toNat + 2 ≤ 65536 by omega)
    simp only [Addressing.addr, hread]
    rfl

theorem Src.map_value (o : Src) (c : OpCache) (s : Vm M) :
    o.value c (s.map φ) = ((o.value c s).1, (o.value c s).2.map φ) := by
  rcases o with - | m
  · rfl
  · simp only [Src.value, m.map_addr hφ, map_read_one hφ]

theorem Tgt.map_modify (o : Tgt) (f : Byte → Byte) (c : OpCache) (s : Vm M) :
    o.modify f c (s.map φ) = ((o.modify f c s).1, (o.modify f c s).2.map φ) := by
  rcases o with - | m
  · rfl
  · simp only [Tgt.modify, m.map_addr hφ, map_read_one hφ, map_write_one hφ]

/-! ### Cases and steps -/

/-- **Every case is carried over**, as long as its accesses fit. -/
theorem Case.map_run {sysM : Byte → Vm M → Vm M} {sysN : Byte → Vm N → Vm N} {k : Case}
    {c : OpCache} {s : Vm M} (hsys : (sysM s.rA s).map φ = sysN s.rA (s.map φ))
    (hfits : k.Fits c s.rSp) : (k.run sysM c s).map φ = k.run sysN c (s.map φ) := by
  cases k
  case sys => exact congrArg (Vm.next 1) hsys
  case dex | dey | inx | iny | tax | tay | txa | tya | tsx | txs | sed | cld | sei | cli | sec | clc
    | clv | nop | jmp => rfl
  case bpl | bmi | bvc | bvs | bcc | bcs | bne | beq => exact map_branch φ s _ c
  case cpx o | cpy o | cmp o | eor o | and o | ora o | lda o | ldx o | ldy o =>
    simp only [Case.run, o.map_value hφ]
    rfl
  case adc o => simp only [Case.run, o.map_value hφ, map_next, map_adc]
  case sbc o => simp only [Case.run, o.map_value hφ, map_next, map_sbc]
  case bit m =>
    simp only [Case.run, Src.map_value hφ]
    rfl
  case sta m | stx m | sty m =>
    simp only [Case.run, m.map_addr hφ, map_next, map_write_one hφ]
    rfl
  case inc m | dec m =>
    simp only [Case.run, Tgt.map_modify hφ]
    rfl
  case rol o | ror o | asl o | lsr o =>
    simp only [Case.run, o.map_modify hφ]
    rfl
  case jmpInd =>
    have hlt : (addr16 (word c.b1) (word c.b2)).toNat + 2 ≤ 65536 := by
      have hne : addr16 (word c.b1) (word c.b2) ≠ 0xffff := hfits
      bv_omega
    simp only [Case.run, map_vmRamRead hφ hlt]
    rfl
  case jsr =>
    have hlt : (addr16 (word s.rSp - 1) 1).toNat
        + [(s.rPc + 2).setWidth 8, ((s.rPc + 2) >>> 8).setWidth 8].length ≤ 65536 :=
      inRange_push_two s.rSp hfits
    exact congrArg (fun u : Vm N => { u with rSp := u.rSp - 2 })
      (map_vmRamWrite hφ (s := { s with rPc := addr16 (word c.b1) (word c.b2) }) hlt)
  case rts =>
    have hread := map_vmRamRead hφ (s := s) (n := 2) ((Nat.le_succ _).trans (inRange_pull s.rSp))
    simp only [Case.run]
    rw [show (s.map φ).rSp = s.rSp from rfl, hread]
    rfl
  case rti =>
    have hread := map_vmRamRead hφ (s := s) (inRange_pull s.rSp)
    simp only [Case.run]
    rw [show (s.map φ).rSp = s.rSp from rfl, hread]
    rfl
  case brk =>
    -- what is pushed, and the state with the new stack pointer
    let bs : List Byte :=
      [s.rS ||| sbit 5 ||| sbit Bf, (s.rPc + 2).setWidth 8, ((s.rPc + 2) >>> 8).setWidth 8]
    let u : Vm M := { { s with rPc := s.rPc + 2 }.vmRamWrite (addr16 (word s.rSp - 2) 1) bs with
      rSp := s.rSp - 3 }
    have hwrite : u.map φ = { { s.map φ with rPc := s.rPc + 2 }.vmRamWrite
        (addr16 (word s.rSp - 2) 1) bs with rSp := s.rSp - 3 } :=
      congrArg (fun v : Vm N => { v with rSp := v.rSp - 3 })
        (map_vmRamWrite hφ (s := { s with rPc := s.rPc + 2 }) (inRange_push_three s.rSp hfits))
    have hread : (u.map φ).vmRamRead 0xfffe 2 = _ := map_vmRamRead hφ (by decide)
    rw [hwrite] at hread
    exact (congrArg (fun r : List Byte × Vm N => { r.2 with
      rPc := addr16 (word (at_ r.1 0)) (word (at_ r.1 1))
      rS := r.2.rS ||| sbit If }) hread).symm
  case pha =>
    exact congrArg (fun v : Vm N => { v with rSp := v.rSp - 1 }.next 1) (map_write_one hφ s _ s.rA)
  case php =>
    exact congrArg (fun v : Vm N => { v with rSp := v.rSp - 1 }.next 1) (map_write_one hφ s _ _)
  case pla =>
    have hread := map_read_one hφ { s with rSp := s.rSp + 1 } (addr16 (word (s.rSp + 1)) 1)
    exact (congrArg (fun r : List Byte × Vm N =>
      ({ r.2 with rA := at_ r.1 0 }.setNZ (at_ r.1 0)).next 1) hread).symm
  case plp =>
    have hread := map_read_one hφ { s with rSp := s.rSp + 1 } (addr16 (word (s.rSp + 1)) 1)
    exact (congrArg (fun r : List Byte × Vm N => { r.2 with rS := at_ r.1 0 }.next 1) hread).symm

/-- **Step.**  One `vm_exec` is carried over, also when it halts. -/
theorem map_vmExec {sysM : Byte → Vm M → Vm M} {sysN : Byte → Vm N → Vm N} {s : Vm M}
    (hsys : (sysM s.fetch.2.rA s.fetch.2).map φ = sysN s.fetch.2.rA (s.fetch.2.map φ))
    (hfits : s.Fits) : vmExec sysN (s.map φ) = (vmExec sysM s).map (Vm.map φ) := by
  obtain ⟨hpc, hcase⟩ := hfits
  rw [vmExec, vmExec, map_fetch hφ hpc]
  rcases h : vmSwitch s.fetch.1.op with - | k
  · rfl
  · exact congrArg some (Case.map_run hφ hsys (hcase k h)).symm

/-- Whether the accesses fit is seen on either side. -/
theorem map_fits {s : Vm M} : (s.map φ).Fits ↔ s.Fits := by
  refine and_congr_right fun hpc => ?_
  rw [map_fetch hφ hpc]
  rfl

end Carried

/-! ### What an instruction keeps of the memory -/

section Keeps

variable [BlockMem 16 Byte M] {I : M → Prop}
  (hread : ∀ (m : M) (a : Word) (n : ℕ), I m → I (BlockMem.read m a n).2)
  (hwrite : ∀ (m : M) (a : Word) (bs : List Byte), I m → I (BlockMem.write m a bs))

omit [BlockMem 16 Byte M] in
theorem Vm.ram_adc (t : Byte) (s : Vm M) : (s.adc t).ram = s.ram := by
  rw [Vm.adc]
  split
  · rfl
  · rfl

omit [BlockMem 16 Byte M] in
theorem Vm.ram_sbc (t : Byte) (s : Vm M) : (s.sbc t).ram = s.ram := by
  rw [Vm.sbc]
  split
  · rfl
  · rfl

omit [BlockMem 16 Byte M] in
theorem Vm.ram_branch (b : Bool) (c : OpCache) (s : Vm M) : (s.branch b c).ram = s.ram := by
  cases b <;> rfl

include hread

theorem Addressing.keeps_addr (m : Addressing) (c : OpCache) (s : Vm M) (h : I s.ram) :
    I (m.addr c s).2.ram := by
  cases m with
  | zp | zpX | zpY | abs | absX | absY => exact h
  | indX | indY => exact hread _ _ _ h

theorem Src.keeps_value (o : Src) (c : OpCache) (s : Vm M) (h : I s.ram) :
    I (o.value c s).2.ram := by
  rcases o with - | m
  · exact h
  · exact hread _ _ _ (m.keeps_addr hread c s h)

include hwrite

theorem Tgt.keeps_modify (o : Tgt) (f : Byte → Byte) (c : OpCache) (s : Vm M) (h : I s.ram) :
    I (o.modify f c s).2.ram := by
  rcases o with - | m
  · exact h
  · exact hwrite _ _ _ (hread _ _ _ (m.keeps_addr hread c s h))

/-- **What every access keeps, every instruction keeps.** -/
theorem Case.keeps_run {sys : Byte → Vm M → Vm M} {k : Case} {c : OpCache} {s : Vm M}
    (hsys : k = .sys → I (sys s.rA s).ram) (h : I s.ram) : I (k.run sys c s).ram := by
  cases k
  case sys => exact hsys rfl
  case bpl | bmi | bvc | bvs | bcc | bcs | bne | beq => exact Vm.ram_branch _ c s ▸ h
  case cpx o | cpy o | cmp o | eor o | and o | ora o | lda o | ldx o | ldy o =>
    exact o.keeps_value hread c s h
  case adc o => exact (Vm.ram_adc _ _).symm ▸ o.keeps_value hread c s h
  case sbc o => exact (Vm.ram_sbc _ _).symm ▸ o.keeps_value hread c s h
  case bit m => exact Src.keeps_value hread (.at m) c s h
  case sta m | stx m | sty m => exact hwrite _ _ _ (m.keeps_addr hread c s h)
  case inc m => exact Tgt.keeps_modify hread hwrite (.at m) (· + 1) c s h
  case dec m => exact Tgt.keeps_modify hread hwrite (.at m) (· - 1) c s h
  case rol o | ror o | asl o | lsr o => exact o.keeps_modify hread hwrite _ c s h
  case jmpInd | rts | rti | pla | plp => exact hread _ _ _ h
  case jsr | pha | php => exact hwrite _ _ _ h
  case brk => exact hread _ _ _ (hwrite _ _ _ h)
  all_goals exact h

theorem keeps_vmExec {sys : Byte → Vm M → Vm M} {s t : Vm M}
    (hsys : I s.fetch.2.ram → I (sys s.fetch.2.rA s.fetch.2).ram) (h : I s.ram)
    (hexec : vmExec sys s = some t) : I t.ram := by
  obtain ⟨k, -, rfl⟩ := Option.map_eq_some_iff.mp hexec
  have hfetch : I s.fetch.2.ram := hread _ _ _ h
  exact Case.keeps_run hread hwrite (fun _ => hsys hfetch) hfetch

end Keeps

/-! ### Runs -/

theorem run_iff_steps [BlockMem 16 Byte M] {sys : Byte → Vm M → Vm M} {s t : Vm M}
    {us : List (Vm M)} : Run sys s us t ↔ Steps (fun s t => vmExec sys s = some t) s us t := by
  constructor
  · intro h
    induction h with
    | nil s => exact .nil s
    | cons hstep _ ih => exact .cons hstep ih
  · intro h
    induction h with
    | nil s => exact .nil s
    | cons hstep _ ih => exact .cons hstep ih

/-- The firmware's memory is carried to the flat memory. -/
theorem carries_flat : Carries Firmware.flat InRange where
  read h := Prod.ext (sim_inRange h _).1.symm rfl
  write h := (sim_inRange (o := .write _ _) h _).2.symm

/-- The machine of the test harness, with the same registers and the memory a program
sees. -/
def Vm.flat (s : Vm Firmware) : Vm (Word → Byte) := s.map Firmware.flat

/-- **The board runs what the test harness runs**: from corresponding states, the runs over
the split memory are the runs over the flat memory, as long as the accesses fit. -/
theorem run_flat_iff {sys : Byte → Vm Firmware → Vm Firmware}
    {sys' : Byte → Vm (Word → Byte) → Vm (Word → Byte)}
    (hsys : ∀ (func : Byte) (s : Vm Firmware), (sys func s).flat = sys' func s.flat)
    (s : Vm Firmware) {us' : List (Vm (Word → Byte))} (hfits : ∀ u ∈ us', u.Fits)
    (t' : Vm (Word → Byte)) :
    Run sys' s.flat us' t' ↔ ∃ us t, Run sys s us t ∧ us.map Vm.flat = us' ∧ t.flat = t' := by
  have hstep : ∀ u : Vm Firmware, u.flat.Fits →
      vmExec sys' u.flat = (vmExec sys u).map Vm.flat := fun u hu =>
    map_vmExec carries_flat (hsys _ _) ((map_fits carries_flat).mp hu)
  constructor
  · intro h
    obtain ⟨us, t, hrun, hus, ht⟩ := Steps.lift (f := Vm.flat) (G := Vm.Fits)
      (r := fun s t => vmExec sys s = some t) (fun u v hu huv => by
        have huv' : vmExec sys' u.flat = some v := huv
        rw [hstep u hu] at huv'
        exact Option.map_eq_some_iff.mp huv') (run_iff_steps.mp h) hfits
    exact ⟨us, t, run_iff_steps.mpr hrun, hus, ht⟩
  · rintro ⟨us, t, hrun, rfl, rfl⟩
    refine run_iff_steps.mpr ((run_iff_steps.mp hrun).map (G := fun u => u.flat.Fits) ?_ ?_)
    · intro u v hu huv
      show vmExec sys' u.flat = some v.flat
      rw [hstep u hu, huv]
      rfl
    · exact fun u hu => hfits _ (List.mem_map_of_mem hu)

/-- `NOP` as the last byte of the local memory; the fetch crosses into the serial memory. -/
theorem run_flat_iff_nop :
    let s : Vm Firmware := ⟨0, 0, 0, 0xff, 0, 0x01ff, ⟨fun _ => 0xea, fun _ => 0x20⟩⟩
    Run (fun _ => id) s.flat [s.flat] (s.flat.next 1) ↔
      ∃ us t, Run (fun _ => id) s us t ∧ us.map Vm.flat = [s.flat] ∧ t.flat = s.flat.next 1 :=
  run_flat_iff (fun _ _ => rfl) ⟨0, 0, 0, 0xff, 0, 0x01ff, ⟨fun _ => 0xea, fun _ => 0x20⟩⟩
    (by
      intro u hu
      obtain rfl := List.mem_singleton.mp hu
      refine ⟨by decide, fun k hk => ?_⟩
      obtain rfl := Option.some.inj (show some Case.nop = some k from hk)
      trivial) _

end Dan64
