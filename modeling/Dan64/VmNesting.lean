/-
Dan64/VmNesting.lean

Nested calls return.

A well-nested run is made of pairs of a push and the pull that belongs to it
(`Bracket`), with a well-nested run in between, and of instructions that have
nothing to do with the stack; `Nested` also says how many bytes of the stack the
run uses at most.  A pair pushes a block at the top of what is in use and pulls
the same block, provided that the run in between has not written it
(`open_spec`, `close_spec`); and it has not, down to the last byte of the page,
where `r_sp` wraps and nothing more can be pushed (`Nested.sound`).
-/
import Dan64.VmStack

namespace Dan64

open BlockMem

/-! ### Well-nested runs -/

/-- A pair of a push and a pull, named after the push. -/
inductive Bracket
  | pha
  | php
  | jsr
  | brk
  deriving DecidableEq

namespace Bracket

def opens : Bracket → Case
  | pha => .pha
  | php => .php
  | jsr => .jsr
  | brk => .brk

def closes : Bracket → Case
  | pha => .pla
  | php => .plp
  | jsr => .rts
  | brk => .rti

/-- How many bytes it takes on the stack. -/
def bytes : Bracket → ℕ
  | pha | php => 1
  | jsr => 2
  | brk => 3

end Bracket

/-- The instruction about to be executed. -/
def FlatVm.case (s : FlatVm) : Option Case := vmSwitch (s.ram s.rPc)

/-- An instruction that neither pushes nor pulls, nor sets `r_sp`. -/
def Case.Stackless (k : Case) : Prop :=
  k ∉ [.pha, .php, .jsr, .brk, .pla, .plp, .rts, .rti, .txs]

/-- Such a step, if it does not write page one. -/
structure Leaf (s s' : FlatVm) : Prop where
  stackless : ∃ k, FlatVm.case s = some k ∧ k.Stackless
  page : ∀ a, InStackPage a → s'.ram a = s.ram a

/-- A pair of a run: the state in which its push is executed, and the state that its
pull leaves. -/
structure Pair where
  bracket : Bracket
  before : FlatVm
  after : FlatVm

/-- N, V, D, I, Z and C. -/
def nvdizc : Byte := sbit Nf ||| sbit Vf ||| sbit Df ||| sbit If ||| sbit Zf ||| sbit Cf

/-- The pull restores what the push saved. -/
def Pair.Returns (p : Pair) : Prop :=
  match p.bracket with
  | .pha => p.after.rA = p.before.rA
  | .php => p.after.rS &&& nvdizc = p.before.rS &&& nvdizc
  | .jsr => p.after.rPc = p.before.rPc + 3
  | .brk =>
    p.after.rPc = p.before.rPc + 2 ∧ p.after.rS &&& nvdizc = p.before.rS &&& nvdizc

/-- A well-nested run from a state to a state, with its pairs, that uses at most `d`
bytes of the stack. -/
inductive Nested (sys : Byte → FlatVm → FlatVm) : ℕ → FlatVm → List Pair → FlatVm → Prop
  | nil (s : FlatVm) : Nested sys 0 s [] s
  | leaf {d : ℕ} {s s' t : FlatVm} {ps : List Pair} :
      vmExec sys s = some s' → Leaf s s' → Nested sys d s' ps t → Nested sys d s ps t
  | pair {b : Bracket} {d d' : ℕ} {s s₁ s₂ s₃ t : FlatVm} {ps qs : List Pair} :
      FlatVm.case s = some b.opens → vmExec sys s = some s₁ → Nested sys d s₁ ps s₂ →
      FlatVm.case s₂ = some b.closes → vmExec sys s₂ = some s₃ → Nested sys d' s₃ qs t →
      Nested sys (max (b.bytes + d) d') s (⟨b, s, s₃⟩ :: (ps ++ qs)) t

/-- It is a run. -/
theorem Nested.run {sys : Byte → FlatVm → FlatVm} {d : ℕ} {s t : FlatVm} {ps : List Pair}
    (h : Nested sys d s ps t) : ∃ us, Run sys s us t := by
  have happend : ∀ {s t v : FlatVm} {us vs : List FlatVm}, Run sys s us t → Run sys t vs v →
      Run sys s (us ++ vs) v := by
    intro s t v us vs hst htv
    induction hst with
    | nil s => exact htv
    | cons hstep _ ih => exact .cons hstep (ih htv)
  induction h with
  | nil s => exact ⟨[], .nil s⟩
  | leaf hstep _ _ ih =>
    obtain ⟨us, hrun⟩ := ih
    exact ⟨_, .cons hstep hrun⟩
  | pair _ hopen _ _ hclose _ ih ih' =>
    obtain ⟨us, hrun⟩ := ih
    obtain ⟨vs, hrun'⟩ := ih'
    exact ⟨_, .cons hopen (happend hrun (.cons hclose hrun'))⟩

theorem vmExec_of_case {sys : Byte → FlatVm → FlatVm} {s : FlatVm} {k : Case}
    (hk : FlatVm.case s = some k) : vmExec sys s = some (k.run sys (FlatVm.cache s) s) := by
  rw [vmExec_flat, ← FlatVm.case, hk]
  rfl

theorem vmExec_case {sys : Byte → FlatVm → FlatVm} {s t : FlatVm} {k : Case}
    (hk : FlatVm.case s = some k) (ht : vmExec sys s = some t) :
    t = k.run sys (FlatVm.cache s) s :=
  (Option.some.inj ((vmExec_of_case hk).symm.trans ht)).symm

/-! ### Instructions outside the stack -/

section Stackless

variable {sys : Byte → FlatVm → FlatVm}

theorem addr_rSp (m : Addressing) (c : OpCache) (s : FlatVm) : (m.addr c s).2.rSp = s.rSp := by
  cases m <;> rfl

theorem value_rSp (o : Src) (c : OpCache) (s : FlatVm) : (o.value c s).2.rSp = s.rSp := by
  cases o with
  | imm => rfl
  | «at» m => exact addr_rSp m c s

theorem modify_rSp (o : Tgt) (f : Byte → Byte) (c : OpCache) (s : FlatVm) :
    (o.modify f c s).2.rSp = s.rSp := by
  cases o with
  | acc => rfl
  | «at» m => exact addr_rSp m c s

theorem adc_rSp (t : Byte) (s : FlatVm) : (s.adc t).rSp = s.rSp := by
  rw [Vm.adc]
  split
  · rfl
  · rfl

theorem sbc_rSp (t : Byte) (s : FlatVm) : (s.sbc t).rSp = s.rSp := by
  rw [Vm.sbc]
  split
  · rfl
  · rfl

theorem branch_rSp (taken : Bool) (c : OpCache) (s : FlatVm) : (s.branch taken c).rSp = s.rSp := by
  rw [Vm.branch]
  split
  · rfl
  · rfl

/-- `r_sp` stays, also over a system call. -/
theorem Case.Stackless.rSp (hsys : ∀ f s, (sys f s).rSp = s.rSp) {k : Case} (h : k.Stackless)
    (c : OpCache) (s : FlatVm) : (k.run sys c s).rSp = s.rSp := by
  cases k
  case sys => exact hsys s.rA s
  case pha | php | jsr | brk | pla | plp | rts | rti | txs => exact (h (by simp)).elim
  case bpl | bmi | bvc | bvs | bcc | bcs | bne | beq => exact branch_rSp _ _ _
  case adc o => exact (adc_rSp _ _).trans (value_rSp o c s)
  case sbc o => exact (sbc_rSp _ _).trans (value_rSp o c s)
  case cpx o | cpy o | cmp o | eor o | and o | ora o | lda o | ldx o | ldy o =>
    exact value_rSp o c s
  case bit m => exact value_rSp (.at m) c s
  case sta m | stx m | sty m => exact addr_rSp m c s
  case inc m => exact modify_rSp (.at m) (· + 1) c s
  case dec m => exact modify_rSp (.at m) (· - 1) c s
  case rol o | ror o | asl o | lsr o => exact modify_rSp o _ c s
  all_goals rfl

end Stackless

/-! ### Pushing and pulling a block -/

/-- A cell of page one. -/
def slot (i : ℕ) : Word := 0x0100 + BitVec.ofNat 16 i

theorem toNat_slot {i : ℕ} (hi : i < 256) : (slot i).toNat = 256 + i := by
  rw [slot]
  bv_omega

theorem inStackPage_slot {i : ℕ} (hi : i < 256) : InStackPage (slot i) := by
  rw [InStackPage, toNat_slot hi]
  omega

theorem slot_add (i k : ℕ) : slot i + BitVec.ofNat 16 k = slot (i + k) := by
  rw [slot, slot, BitVec.add_assoc, ← BitVec.ofNat_add]

/-- The bytes of a bracket, from the lowest address on. -/
def Bracket.pushed (b : Bracket) (s : FlatVm) : List Byte :=
  let ret := s.rPc + 2
  match b with
  | pha => [s.rA]
  | php => [s.rS ||| sbit 5 ||| sbit Bf]
  | jsr => [ret.setWidth 8, (ret >>> 8).setWidth 8]
  | brk => [s.rS ||| sbit 5 ||| sbit Bf, ret.setWidth 8, (ret >>> 8).setWidth 8]

@[simp] theorem Bracket.length_pushed (b : Bracket) (s : FlatVm) :
    (b.pushed s).length = b.bytes := by
  cases b <;> rfl

/-- What the pull makes of the bytes. -/
def Bracket.Pulled (b : Bracket) (bs : List Byte) (s : FlatVm) : Prop :=
  match b with
  | pha => s.rA = at_ bs 0
  | php => s.rS = at_ bs 0
  | jsr => s.rPc = addr16 (word (at_ bs 0)) (word (at_ bs 1)) + 1
  | brk => s.rPc = addr16 (word (at_ bs 1)) (word (at_ bs 2)) ∧ s.rS = at_ bs 0

/-- The four addresses that the pushes start at are the same formula. -/
theorem push_slot : ∀ sp : Byte, addr16 (word sp) 1 = slot sp.toNat ∧
    (1 ≤ sp.toNat → addr16 (word sp - 1) 1 = slot (sp.toNat - 1)) ∧
    (2 ≤ sp.toNat → addr16 (word sp - 2) 1 = slot (sp.toNat - 2)) := by
  decide +kernel

/-- So are those of the pulls; behind the last byte of the page `r_sp` has wrapped. -/
theorem pull_slot : ∀ sp : Byte, addr16 (word (sp - 1 + 1)) 1 = slot sp.toNat ∧
    (1 ≤ sp.toNat → addr16 (word (sp - 2) + 1) 1 = slot (sp.toNat - 1)) ∧
    (2 ≤ sp.toNat → addr16 (word (sp - 3) + 1) 1 = slot (sp.toNat - 2)) := by
  decide +kernel

/-- A push stores its block below what is in use. -/
theorem open_spec {sys : Byte → FlatVm → FlatVm} {b : Bracket} {s s₁ : FlatVm}
    (hopen : FlatVm.case s = some b.opens) (hstep : vmExec sys s = some s₁)
    (hn : b.bytes ≤ s.rSp.toNat + 1) :
    s₁.rSp = s.rSp - BitVec.ofNat 8 b.bytes ∧
      s₁.ram = writeBlock s.ram (slot (s.rSp.toNat + 1 - b.bytes)) (b.pushed s) := by
  obtain ⟨hone, htwo, hthree⟩ := push_slot s.rSp
  rw [vmExec_case hopen hstep]
  cases b
  case pha => exact ⟨rfl, congrArg (writeBlock s.ram · [s.rA]) hone⟩
  case php => exact ⟨rfl, congrArg (writeBlock s.ram · _) hone⟩
  case jsr => exact ⟨rfl, congrArg (writeBlock s.ram · _) (htwo (Nat.le_of_succ_le_succ hn))⟩
  case brk => exact ⟨rfl, congrArg (writeBlock s.ram · _) (hthree (Nat.le_of_succ_le_succ hn))⟩

/-- A pull reads the block from where it was stored. -/
theorem close_spec {sys : Byte → FlatVm → FlatVm} {b : Bracket} {sp : Byte} {s₂ s₃ : FlatVm}
    (hclose : FlatVm.case s₂ = some b.closes) (hstep : vmExec sys s₂ = some s₃)
    (hsp : s₂.rSp = sp - BitVec.ofNat 8 b.bytes) (hn : b.bytes ≤ sp.toNat + 1) :
    s₃.rSp = sp ∧ s₃.ram = s₂.ram ∧
      b.Pulled (readBlock s₂.ram (slot (sp.toNat + 1 - b.bytes)) b.bytes) s₃ := by
  obtain ⟨hone, htwo, hthree⟩ := pull_slot sp
  have hback : ∀ n : Byte, s₂.rSp = sp - n → s₂.rSp + n = sp := by
    intro n h
    rw [h, BitVec.sub_add_cancel]
  rw [vmExec_case hclose hstep]
  -- each pull computes its address in its own way
  cases b
  case pha | php =>
    have haddr : addr16 (word (s₂.rSp + 1)) 1 = slot (sp.toNat + 1 - 1) := by
      rw [hsp]
      exact hone
    exact ⟨hback 1 hsp, rfl, congrArg (fun a => at_ (readBlock s₂.ram a 1) 0) haddr⟩
  case jsr =>
    have haddr : addr16 (word s₂.rSp + 1) 1 = slot (sp.toNat + 1 - 2) := by
      rw [hsp]
      exact htwo (Nat.le_of_succ_le_succ hn)
    refine ⟨hback 2 hsp, rfl, ?_⟩
    show Bracket.Pulled .jsr (readBlock s₂.ram (slot (sp.toNat + 1 - 2)) 2) _
    rw [← haddr]
    rfl
  case brk =>
    have haddr : addr16 (word s₂.rSp + 1) 1 = slot (sp.toNat + 1 - 3) := by
      rw [hsp]
      exact hthree (Nat.le_of_succ_le_succ hn)
    refine ⟨hback 3 hsp, rfl, ?_⟩
    show Bracket.Pulled .brk (readBlock s₂.ram (slot (sp.toNat + 1 - 3)) 3) _
    rw [← haddr]
    exact ⟨rfl, rfl⟩

/-- What was pushed is what is restored. -/
theorem returns_of_pulled {b : Bracket} {s s₃ : FlatVm} (h : b.Pulled (b.pushed s) s₃) :
    Pair.Returns ⟨b, s, s₃⟩ := by
  -- bits 4 and 5 are set by the push and belong to no flag
  have hflags : ∀ p : Byte, (p ||| sbit 5 ||| sbit Bf) &&& nvdizc = p &&& nvdizc := by
    decide +kernel
  -- the two bytes of an address are the address
  have hret : ∀ w : Word, addr16 (word (w.setWidth 8)) (word ((w >>> 8).setWidth 8)) = w := by
    intro w
    rw [addr16_word, append_bytes]
  cases b
  case pha => exact h
  case php =>
    have hs : s₃.rS = s.rS ||| sbit 5 ||| sbit Bf := h
    show s₃.rS &&& nvdizc = s.rS &&& nvdizc
    rw [hs, hflags]
  case jsr =>
    have hpc : s₃.rPc = addr16 (word ((s.rPc + 2).setWidth 8))
      (word (((s.rPc + 2) >>> 8).setWidth 8)) + 1 := h
    show s₃.rPc = s.rPc + 3
    rw [hpc, hret, BitVec.add_assoc]
    rfl
  case brk =>
    obtain ⟨hpc, hs⟩ := h
    have hpc' : s₃.rPc = addr16 (word ((s.rPc + 2).setWidth 8))
      (word (((s.rPc + 2) >>> 8).setWidth 8)) := hpc
    have hs' : s₃.rS = s.rS ||| sbit 5 ||| sbit Bf := hs
    refine ⟨hpc'.trans (hret _), ?_⟩
    show s₃.rS &&& nvdizc = s.rS &&& nvdizc
    rw [hs', hflags]

/-! ### Soundness -/

/-- The cells of the page that a run with `d` bytes of stack below `sp` leaves alone. -/
def Spared (sp : Byte) (d i : ℕ) : Prop := i < 256 ∧ (sp.toNat < i ∨ i + d ≤ sp.toNat)

/-- What holds of a well-nested run that has room: every pair returns, `r_sp` is where
it was, and the cells that it does not use are what they were. -/
structure Sound (d : ℕ) (s t : FlatVm) (ps : List Pair) : Prop where
  returns : ∀ p ∈ ps, p.Returns
  rSp : t.rSp = s.rSp
  spared : ∀ i, Spared s.rSp d i → t.ram (slot i) = s.ram (slot i)

/-- `r_sp` below a push, which may have wrapped. -/
theorem toNat_below (sp : Byte) {n : ℕ} (hn : n ≤ sp.toNat + 1) :
    (sp - BitVec.ofNat 8 n).toNat = if n ≤ sp.toNat then sp.toNat - n else 255 := by
  have hsp := sp.isLt
  rw [BitVec.toNat_sub, BitVec.toNat_ofNat]
  split <;> omega

/-- There is room for the run inside a pair. -/
theorem room_inside {sp : Byte} {n d : ℕ} (hroom : n + d ≤ sp.toNat + 1) :
    d ≤ (sp - BitVec.ofNat 8 n).toNat + 1 := by
  rw [toNat_below sp (by omega)]
  split <;> omega

/-- What a pair pushes, the run inside it spares: if the push reached the last byte of
the page, nothing more can be pushed. -/
theorem spared_pushed {sp : Byte} {n d k : ℕ} (hroom : n + d ≤ sp.toNat + 1) (hk : k < n) :
    Spared (sp - BitVec.ofNat 8 n) d (sp.toNat + 1 - n + k) := by
  have hsp := sp.isLt
  rw [Spared, toNat_below sp (by omega)]
  split <;> omega

/-- And so it does what the pair spares. -/
theorem spared_inside {sp : Byte} {n d i : ℕ} (hroom : n + d ≤ sp.toNat + 1) (hn : 1 ≤ n)
    (hi : Spared sp (n + d) i) : Spared (sp - BitVec.ofNat 8 n) d i := by
  have hsp := sp.isLt
  rw [Spared] at hi
  rw [Spared, toNat_below sp (by omega)]
  split <;> omega

/-- A push spares what its pair spares. -/
theorem spared_push {m : Word → Byte} {sp : Byte} {n d i : ℕ} {bs : List Byte}
    (hlen : bs.length = n) (hn : n ≤ sp.toNat + 1) (hi : Spared sp (n + d) i) :
    writeBlock m (slot (sp.toNat + 1 - n)) bs (slot i) = m (slot i) := by
  have hsp := sp.isLt
  obtain ⟨hi, hspared⟩ := hi
  apply writeBlock_of_forall_ne
  intro k hk heq
  have heq' := congrArg BitVec.toNat heq
  rw [slot_add, toNat_slot hi, toNat_slot (by omega)] at heq'
  omega

theorem Spared.mono {sp : Byte} {d d' i : ℕ} (h : Spared sp d i) (hd : d' ≤ d) : Spared sp d' i :=
  ⟨h.1, h.2.imp_right fun hle => (Nat.add_le_add_left hd i).trans hle⟩

/-- **Induction over the nesting.** -/
theorem Nested.sound {sys : Byte → FlatVm → FlatVm} (hsys : ∀ f s, (sys f s).rSp = s.rSp) {d : ℕ}
    {s t : FlatVm} {ps : List Pair} (h : Nested sys d s ps t) (hroom : d ≤ s.rSp.toNat + 1) :
    Sound d s t ps := by
  induction h with
  | nil s => exact ⟨nofun, rfl, fun _ _ => rfl⟩
  | @leaf d s s' t ps hstep hleaf _ ih =>
    obtain ⟨k, hk, hstackless⟩ := hleaf.stackless
    have hsp : s'.rSp = s.rSp := by
      rw [vmExec_case hk hstep]
      exact hstackless.rSp hsys _ s
    have hrest := ih (by rw [hsp]; exact hroom)
    refine ⟨hrest.returns, hrest.rSp.trans hsp, ?_⟩
    intro i hi
    rw [hrest.spared i (by rw [hsp]; exact hi)]
    exact hleaf.page _ (inStackPage_slot hi.1)
  | @pair b d d' s s₁ s₂ s₃ t ps qs hopen hstep _ hclose hstep' _ ih ih' =>
    have hpos : 1 ≤ b.bytes := by cases b <;> exact Nat.succ_pos _
    have hin : b.bytes + d ≤ s.rSp.toNat + 1 := (le_max_left _ _).trans hroom
    have hn : b.bytes ≤ s.rSp.toNat + 1 := (Nat.le_add_right _ _).trans hin
    -- the push, the run inside, the pull, and the run behind
    obtain ⟨hsp₁, hram₁⟩ := open_spec hopen hstep hn
    have hinside := ih (by rw [hsp₁]; exact room_inside hin)
    obtain ⟨hsp₃, hram₃, hpulled⟩ := close_spec hclose hstep' (hinside.rSp.trans hsp₁) hn
    have hrest := ih' (by rw [hsp₃]; exact (le_max_right _ _).trans hroom)
    have hblock : readBlock s₂.ram (slot (s.rSp.toNat + 1 - b.bytes)) b.bytes = b.pushed s := by
      have hkept : readBlock s₂.ram (slot (s.rSp.toNat + 1 - b.bytes)) b.bytes
          = readBlock s₁.ram (slot (s.rSp.toNat + 1 - b.bytes)) b.bytes := by
        rw [readBlock_eq_iff]
        intro k hk
        rw [slot_add]
        apply hinside.spared
        rw [hsp₁]
        exact spared_pushed hin hk
      have hback := @readBlock_writeBlock 16 Byte s.ram (slot (s.rSp.toNat + 1 - b.bytes))
        (b.pushed s) (by rw [b.length_pushed]; cases b <;> decide)
      rw [b.length_pushed] at hback
      rw [hkept, hram₁, hback]
    refine ⟨?_, hrest.rSp.trans hsp₃, ?_⟩
    · intro p hp
      rcases List.mem_cons.mp hp with rfl | hp
      · apply returns_of_pulled
        rw [← hblock]
        exact hpulled
      · rcases List.mem_append.mp hp with hp | hp
        · exact hinside.returns p hp
        · exact hrest.returns p hp
    · intro i hi
      have hpair := hi.mono (le_max_left (b.bytes + d) d')
      have hbehind := hi.mono (le_max_right (b.bytes + d) d')
      rw [hrest.spared i (by rw [hsp₃]; exact hbehind), hram₃,
        hinside.spared i (by rw [hsp₁]; exact spared_inside hin hpos hpair), hram₁]
      exact spared_push (b.length_pushed s) hn hpair

/-- **Nested calls return**: in a well-nested run with room on the stack, every `RTS`
resumes behind its `JSR`, every `RTI` two bytes behind its `BRK` with its flags, every
`PLA` and `PLP` restores what was pushed, and `r_sp` ends where it started. -/
theorem nested_returns (sys : Byte → FlatVm → FlatVm) (hsys : ∀ f s, (sys f s).rSp = s.rSp)
    {d : ℕ} {s t : FlatVm} {ps : List Pair} (h : Nested sys d s ps t)
    (hroom : d ≤ s.rSp.toNat + 1) : (∀ p ∈ ps, p.Returns) ∧ t.rSp = s.rSp :=
  have hsound := h.sound hsys hroom
  ⟨hsound.returns, hsound.rSp⟩

/-- `JSR $1a10` with `PHA`, `PLA`, `RTS` there, down to the last byte of the page. -/
theorem nested_returns_jsr_pha :
    let program : Word → Byte := fun a =>
      if a = 0x1a00 then 0x20 else if a = 0x1a01 then 0x10 else if a = 0x1a02 then 0x1a
      else if a = 0x1a10 then 0x48 else if a = 0x1a11 then 0x68
      else if a = 0x1a12 then 0x60 else 0
    let s : FlatVm := ⟨7, 0, 0, 2, 0, 0x1a00, program⟩
    ∃ s₁ s₂ s₃ t, vmExec (fun _ => id) s = some s₁ ∧ vmExec (fun _ => id) s₁ = some s₂ ∧
      vmExec (fun _ => id) s₂ = some s₃ ∧ vmExec (fun _ => id) s₃ = some t ∧
      (∀ p ∈ [⟨.jsr, s, t⟩, ⟨.pha, s₁, s₃⟩], Pair.Returns p) ∧ t.rSp = s.rSp := by
  intro program s
  have hjsr : FlatVm.case s = some .jsr := by decide
  have h₁ := @vmExec_of_case (fun _ => id) _ _ hjsr
  generalize hs₁ : Case.jsr.run (fun _ => id) (FlatVm.cache s) s = s₁ at h₁
  have hpha : FlatVm.case s₁ = some .pha := by
    rw [← hs₁]
    decide +kernel
  have h₂ := @vmExec_of_case (fun _ => id) _ _ hpha
  generalize hs₂ : Case.pha.run (fun _ => id) (FlatVm.cache s₁) s₁ = s₂ at h₂
  have hpla : FlatVm.case s₂ = some .pla := by
    rw [← hs₂, ← hs₁]
    decide +kernel
  have h₃ := @vmExec_of_case (fun _ => id) _ _ hpla
  generalize hs₃ : Case.pla.run (fun _ => id) (FlatVm.cache s₂) s₂ = s₃ at h₃
  have hrts : FlatVm.case s₃ = some .rts := by
    rw [← hs₃, ← hs₂, ← hs₁]
    decide +kernel
  have h₄ := @vmExec_of_case (fun _ => id) _ _ hrts
  refine ⟨s₁, s₂, s₃, _, h₁, h₂, h₃, h₄, ?_⟩
  -- the inner pair, and it inside the outer one
  have hinner : Nested (fun _ => id) _ s₁ _ s₃ :=
    @Nested.pair _ .pha _ _ _ _ _ _ _ _ _ hpha h₂ (.nil _) hpla h₃ (.nil _)
  exact nested_returns (fun _ => id) (fun _ _ => rfl)
    (@Nested.pair _ .jsr _ _ _ _ _ _ _ _ _ hjsr h₁ hinner hrts h₄ (.nil _)) (by decide)

end Dan64
