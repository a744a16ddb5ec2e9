/-
Dan64/VmTest.lean

The test program of the virtual machine, `vm/test/test.c`.

The functional test it runs ends in a jump to itself, and the program notices by
comparing the program counter, the stack pointer and the status after an
instruction with those after the one before.  That is enough: an instruction that
leaves these two pointers alone leaves the machine alone (`Case.run_fixed`), so that
a trap is a state that the machine never leaves, and the first comparison, with 0,
cannot succeed by accident (`signature_ne_zero`).
-/
import Dan64.DasmStep
import Dan64.VmMap
import Dan64.VmNesting

namespace Dan64

open BlockMem
open Mos6502 (Flags Mnemonic Mode)

namespace VmTest

/-! ### The program -/

/-- `vm_syscall` of the test program does nothing. -/
def vmSyscall (_func : Byte) (s : FlatVm) : FlatVm := s

/-- `r_pc | (r_sp << 16) | (r_s << 24)` -/
def signature (s : FlatVm) : BitVec 32 :=
  s.rPc.setWidth 32 ||| s.rSp.setWidth 32 <<< 16 ||| s.rS.setWidth 32 <<< 24

/-- How `while(vm_exec())` ends. -/
inductive End
  | trap (s : FlatVm)
  | invalidOp (s : FlatVm)

/-- `while(vm_exec())`, from a state and `old`, for at most so many instructions. -/
def loop : ℕ → BitVec 32 → FlatVm → Option End
  | 0, _, _ => none
  | fuel + 1, old, s =>
    match vmExec vmSyscall s with
    | none => some (.invalidOp s)
    | some t => if old = signature t then some (.trap t) else loop fuel (signature t) t

/-- `vm_init(); r_pc = 0x400;` with the image in `ram`. -/
def start (s : FlatVm) (image : List Byte) : FlatVm :=
  { vmInit s with rPc := 0x400, ram := fun a => image.getD a.toNat 0 }

/-- What the program prints. -/
inductive Verdict
  | ok
  | failed
  | error
  deriving DecidableEq

/-- `results[i]` -/
def result : Word := 0x3399

def verdict : End → Verdict
  | .trap s => if s.rPc = result then .ok else .failed
  | .invalidOp _ => .error

/-- `main`, for at most so many instructions. -/
def main (s : FlatVm) (image : List Byte) (fuel : ℕ) : Option Verdict :=
  (loop fuel 0 (start s image)).map verdict

/-! ### Instructions that stay where they are -/

/-- The signature is three fields. -/
theorem extract_rPc (s : FlatVm) : (signature s).extractLsb' 0 16 = s.rPc := by
  ext i hi
  simp [signature, hi, show i < 32 by omega, show i < 24 by omega, BitVec.getLsbD_eq_getElem]

theorem extract_rSp (s : FlatVm) : (signature s).extractLsb' 16 8 = s.rSp := by
  ext i hi
  simp [signature, hi, show 16 + i < 32 by omega, show 16 + i < 24 by omega,
    BitVec.getLsbD_eq_getElem]

theorem extract_rS (s : FlatVm) : (signature s).extractLsb' 24 8 = s.rS := by
  ext i hi
  have hpc : s.rPc.getLsbD (24 + i) = false := BitVec.getLsbD_of_ge _ _ (by omega)
  have hsp : s.rSp.getLsbD (24 + i - 16) = false := BitVec.getLsbD_of_ge _ _ (by omega)
  simp [signature, hi, hpc, hsp, show 24 + i < 32 by omega,
    BitVec.getLsbD_eq_getElem]

theorem signature_eq_iff {s t : FlatVm} :
    signature s = signature t ↔ s.rPc = t.rPc ∧ s.rSp = t.rSp ∧ s.rS = t.rS := by
  constructor
  · intro h
    have hpc : (signature s).extractLsb' 0 16 = (signature t).extractLsb' 0 16 := by rw [h]
    have hsp : (signature s).extractLsb' 16 8 = (signature t).extractLsb' 16 8 := by rw [h]
    have hs : (signature s).extractLsb' 24 8 = (signature t).extractLsb' 24 8 := by rw [h]
    simp only [extract_rPc, extract_rSp, extract_rS] at hpc hsp hs
    exact ⟨hpc, hsp, hs⟩
  · rintro ⟨hpc, hsp, hs⟩
    rw [signature, signature, hpc, hsp, hs]

theorem add_length_ne (m : Mode) (a : Word) : a + BitVec.ofNat 16 m.length ≠ a := by
  cases m <;> simp only [Mode.length] <;> bv_omega

theorem add_length_ne_zero (m : Mode) : (0x400 : Word) + BitVec.ofNat 16 m.length ≠ 0 := by
  cases m <;> decide

theorem eq_of_rPc {s : FlatVm} {a : Word} (h : a = s.rPc) : { s with rPc := a } = s := by
  rw [h]

theorem branch_fixed {b : Bool} {c : OpCache} {s : FlatVm} (h : (s.branch b c).rPc = s.rPc) :
    s.branch b c = s := by
  rcases b with - | -
  · exact eq_of_rPc h
  · exact eq_of_rPc h

/-- **An instruction that leaves the program counter and the stack pointer alone leaves
everything alone.** -/
theorem Case.run_fixed {k : Case} {c : OpCache} {s : FlatVm}
    (hpc : (k.run vmSyscall c s).rPc = s.rPc) (hsp : (k.run vmSyscall c s).rSp = s.rSp) :
    k.run vmSyscall c s = s := by
  cases k
  case bpl | bmi | bvc | bvs | bcc | bcs | bne | beq => exact branch_fixed hpc
  case jmp | jmpInd => exact eq_of_rPc hpc
  case sys =>
    have hnext : s.rPc + 1 = s.rPc := hpc
    bv_omega
  case jsr =>
    have hpush : s.rSp - 2 = s.rSp := hsp
    bv_omega
  case brk =>
    have hpush : s.rSp - 3 = s.rSp := hsp
    bv_omega
  case rts =>
    have hpull : s.rSp + 2 = s.rSp := hsp
    bv_omega
  case rti =>
    have hpull : s.rSp + 3 = s.rSp := hsp
    bv_omega
  all_goals
    exact absurd ((Case.rPc_run vmSyscall rfl (by decide) c rfl).symm.trans hpc) (add_length_ne _ _)

/-- A step to the same signature goes nowhere. -/
theorem vmExec_fixed {s t : FlatVm} (h : vmExec vmSyscall s = some t)
    (hsig : signature s = signature t) : t = s := by
  obtain ⟨hpc, hsp, -⟩ := signature_eq_iff.mp hsig
  rw [vmExec_flat] at h
  obtain ⟨k, -, rfl⟩ := Option.map_eq_some_iff.mp h
  exact Case.run_fixed hpc.symm hsp.symm

/-! ### The loop -/

/-- The comparison succeeds only where the instruction changed nothing. -/
def Sound (old : BitVec 32) (s : FlatVm) : Prop :=
  ∀ t, vmExec vmSyscall s = some t → old = signature t → t = s

theorem sound_signature (s : FlatVm) : Sound (signature s) s := fun _ h hsig => vmExec_fixed h hsig

/-- A machine that stays where it is has no other run. -/
theorem eq_of_fixed {s t : FlatVm} {us : List FlatVm} (h : vmExec vmSyscall s = some s)
    (hrun : Run vmSyscall s us t) : t = s := by
  induction us generalizing s with
  | nil =>
    cases hrun
    rfl
  | cons u us ih =>
    cases hrun with
    | cons hstep hrun =>
      obtain rfl := Option.some.inj (h.symm.trans hstep)
      exact ih h hrun

/-- The state of the last `vm_exec`. -/
def End.state : End → FlatVm
  | .trap t => t
  | .invalidOp t => t

/-- The machine stays there for ever, or halts. -/
def End.Final : End → Prop
  | .trap t => vmExec vmSyscall t = some t
  | .invalidOp t => vmExec vmSyscall t = none

/-- From a state the machine gets there. -/
def Ends (s : FlatVm) (e : End) : Prop := (∃ us, Run vmSyscall s us e.state) ∧ e.Final

theorem Ends.cons {s t : FlatVm} {e : End} (hstep : vmExec vmSyscall s = some t) (h : Ends t e) :
    Ends s e := by
  obtain ⟨⟨us, hrun⟩, hfinal⟩ := h
  exact ⟨⟨s :: us, .cons hstep hrun⟩, hfinal⟩

/-- A machine that stays where it is ends there. -/
theorem Ends.of_fixed {s : FlatVm} {e : End} (hstep : vmExec vmSyscall s = some s)
    (h : Ends s e) : e = .trap s := by
  obtain ⟨⟨us, hrun⟩, hfinal⟩ := h
  have hstate := eq_of_fixed hstep hrun
  cases e with
  | trap v => exact congrArg End.trap hstate
  | invalidOp v =>
    obtain rfl : v = s := hstate
    exact absurd (hstep.symm.trans hfinal) (Option.some_ne_none _)

theorem loop_sound {fuel : ℕ} {old : BitVec 32} {s : FlatVm} (hs : Sound old s) {e : End}
    (h : loop fuel old s = some e) : Ends s e := by
  induction fuel generalizing old s with
  | zero => cases h
  | succ fuel ih =>
    rw [loop] at h
    rcases hstep : vmExec vmSyscall s with - | t
    · rw [hstep] at h
      obtain rfl := Option.some.inj h
      exact ⟨⟨[], .nil s⟩, hstep⟩
    · rw [hstep] at h
      by_cases hold : old = signature t
      · obtain rfl := hs t hstep hold
        obtain rfl := Option.some.inj ((if_pos hold).symm.trans h)
        exact ⟨⟨[], .nil t⟩, hstep⟩
      · exact .cons hstep (ih (sound_signature t) ((if_neg hold).symm.trans h))

/-- One turn of the loop. -/
theorem loop_succ {fuel : ℕ} {old : BitVec 32} {s t : FlatVm}
    (hstep : vmExec vmSyscall s = some t) :
    loop (fuel + 1) old s
      = if old = signature t then some (.trap t) else loop fuel (signature t) t := by
  rw [loop, hstep]

theorem loop_complete {old : BitVec 32} {s : FlatVm} (hs : Sound old s) {e : End}
    (h : Ends s e) : ∃ fuel, loop fuel old s = some e := by
  obtain ⟨⟨us, hrun⟩, hfinal⟩ := h
  induction us generalizing old s with
  | nil =>
    cases e with
    | trap t =>
      obtain rfl : t = s := by
        cases hrun
        rfl
      -- the second time at the latest the signatures agree
      have htwice : loop 1 (signature t) t = some (.trap t) := by
        rw [loop_succ hfinal, if_pos rfl]
      by_cases hold : old = signature t
      · exact ⟨1, hold ▸ htwice⟩
      · exact ⟨2, by rw [loop_succ hfinal, if_neg hold, htwice]⟩
    | invalidOp t =>
      obtain rfl : t = s := by
        cases hrun
        rfl
      have hhalt : vmExec vmSyscall t = none := hfinal
      exact ⟨1, by rw [loop, hhalt]⟩
  | cons u us ih =>
    cases hrun with
    | @cons _ t _ _ hstep hrun =>
      by_cases hold : old = signature t
      · obtain rfl := hs t hstep hold
        have hend := Ends.of_fixed hstep ⟨⟨us, hrun⟩, hfinal⟩
        exact ⟨1, by rw [loop_succ hstep, if_pos hold, hend]⟩
      · obtain ⟨fuel, hfuel⟩ := ih (sound_signature t) hrun
        exact ⟨fuel + 1, by rw [loop_succ hstep, if_neg hold, hfuel]⟩

/-- The first comparison is with 0: either the program counter is not 0 after the first
instruction, or the stack pointer is not. -/
theorem signature_ne_zero {s t : FlatVm} (hpc : s.rPc = 0x400) (hsp : s.rSp = 0xff)
    (h : vmExec vmSyscall s = some t) : (0 : BitVec 32) ≠ signature t := by
  intro hzero
  have hpc' : t.rPc = 0 := by rw [← extract_rPc, ← hzero]; rfl
  have hsp' : t.rSp = 0 := by rw [← extract_rSp, ← hzero]; rfl
  rw [vmExec_flat] at h
  obtain ⟨k, -, rfl⟩ := Option.map_eq_some_iff.mp h
  cases k
  case bpl | bmi | bvc | bvs | bcc | bcs | bne | beq =>
    have hkeep : s.rSp = 0 := (branch_rSp _ _ s).symm.trans hsp'
    exact absurd (hsp ▸ hkeep) (by decide)
  case jmp | jmpInd =>
    have hkeep : s.rSp = 0 := hsp'
    exact absurd (hsp ▸ hkeep) (by decide)
  case sys =>
    have hnext : s.rPc + 1 = 0 := hpc'
    exact absurd (hpc ▸ hnext) (by decide)
  case jsr =>
    have hpush : s.rSp - 2 = 0 := hsp'
    exact absurd (hsp ▸ hpush) (by decide)
  case brk =>
    have hpush : s.rSp - 3 = 0 := hsp'
    exact absurd (hsp ▸ hpush) (by decide)
  case rts =>
    have hpull : s.rSp + 2 = 0 := hsp'
    exact absurd (hsp ▸ hpull) (by decide)
  case rti =>
    have hpull : s.rSp + 3 = 0 := hsp'
    exact absurd (hsp ▸ hpull) (by decide)
  all_goals
    have hnext := (Case.rPc_run vmSyscall rfl (by decide) _ rfl).symm.trans hpc'
    rw [hpc] at hnext
    exact absurd hnext (add_length_ne_zero _)

/-- **The loop finds the end of every run**, and reports nothing else. -/
theorem loop_iff (s : FlatVm) (image : List Byte) (e : End) :
    (∃ fuel, loop fuel 0 (start s image) = some e) ↔ Ends (start s image) e := by
  have hs : Sound 0 (start s image) := fun t h hzero =>
    absurd hzero (signature_ne_zero rfl rfl h)
  constructor
  · rintro ⟨fuel, h⟩
    exact loop_sound hs h
  · exact loop_complete hs

theorem exists_main_iff (s : FlatVm) (image : List Byte) (v : Verdict) :
    (∃ fuel, main s image fuel = some v) ↔ ∃ e, Ends (start s image) e ∧ verdict e = v := by
  constructor
  · rintro ⟨fuel, h⟩
    obtain ⟨e, he, hv⟩ := Option.map_eq_some_iff.mp h
    exact ⟨e, (loop_iff s image e).mp ⟨fuel, he⟩, hv⟩
  · rintro ⟨e, he, hv⟩
    obtain ⟨fuel, hfuel⟩ := (loop_iff s image e).mpr he
    exact ⟨fuel, Option.map_eq_some_iff.mpr ⟨e, hfuel, hv⟩⟩

theorem verdict_eq_ok {e : End} : verdict e = .ok ↔ ∃ t, e = .trap t ∧ t.rPc = result := by
  cases e with
  | trap t => simp [verdict]
  | invalidOp t => simp [verdict]

theorem verdict_eq_failed {e : End} :
    verdict e = .failed ↔ ∃ t, e = .trap t ∧ t.rPc ≠ result := by
  cases e with
  | trap t => simp [verdict]
  | invalidOp t => simp [verdict]

theorem verdict_eq_error {e : End} : verdict e = .error ↔ ∃ t, e = .invalidOp t := by
  cases e with
  | trap t =>
    simp only [verdict]
    split <;> simp
  | invalidOp t => simp [verdict]

theorem vmExec_eq_none_iff (t : FlatVm) :
    vmExec vmSyscall t = none ↔ vmSwitch (t.ram t.rPc) = none := by
  rw [vmExec_flat, Option.map_eq_none_iff]

/-- The machine gets from the start of the test to a state that it never leaves. -/
def Stops (s : FlatVm) (image : List Byte) (t : FlatVm) : Prop :=
  (∃ us, Run vmSyscall (start s image) us t) ∧
    ∀ vs v, Run vmSyscall t vs v → v = t ∧ vmExec vmSyscall v ≠ none

theorem stops_iff (s : FlatVm) (image : List Byte) (t : FlatVm) :
    Stops s image t ↔ Ends (start s image) (.trap t) := by
  refine and_congr_right fun _ => ⟨fun h => ?_, fun h vs v hrun => ?_⟩
  · obtain ⟨u, hu⟩ := Option.ne_none_iff_exists'.mp (h [] t (.nil t)).2
    obtain ⟨rfl, -⟩ := h [t] u (.cons hu (.nil u))
    exact hu
  · obtain rfl := eq_of_fixed h hrun
    exact ⟨rfl, by rw [h]; exact Option.some_ne_none _⟩

/-- **The verdict of the test program**, for every image: `** Ok` if and only if the machine
gets to `$3399` and stays there for ever, `** Failed` if and only if it stays anywhere
else, and `** Error` if and only if it gets to an opcode without a case. -/
theorem main_iff (s : FlatVm) (image : List Byte) :
    ((∃ fuel, main s image fuel = some .ok) ↔ ∃ t, Stops s image t ∧ t.rPc = result) ∧
    ((∃ fuel, main s image fuel = some .failed) ↔ ∃ t, Stops s image t ∧ t.rPc ≠ result) ∧
    ((∃ fuel, main s image fuel = some .error) ↔
      ∃ us t, Run vmSyscall (start s image) us t ∧ vmSwitch (t.ram t.rPc) = none) := by
  simp only [exists_main_iff, stops_iff, verdict_eq_ok, verdict_eq_failed, verdict_eq_error]
  refine ⟨⟨?_, ?_⟩, ⟨?_, ?_⟩, ⟨?_, ?_⟩⟩
  · rintro ⟨-, he, t, rfl, ht⟩
    exact ⟨t, he, ht⟩
  · rintro ⟨t, he, ht⟩
    exact ⟨_, he, t, rfl, ht⟩
  · rintro ⟨-, he, t, rfl, ht⟩
    exact ⟨t, he, ht⟩
  · rintro ⟨t, he, ht⟩
    exact ⟨_, he, t, rfl, ht⟩
  · rintro ⟨-, ⟨⟨us, hrun⟩, hhalt⟩, t, rfl⟩
    exact ⟨us, t, hrun, (vmExec_eq_none_iff t).mp hhalt⟩
  · rintro ⟨us, t, hrun, hhalt⟩
    exact ⟨.invalidOp t, ⟨⟨us, hrun⟩, (vmExec_eq_none_iff t).mpr hhalt⟩, t, rfl⟩

end VmTest

end Dan64
