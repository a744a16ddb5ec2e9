/-
Dan64/BlockMem.lean

Memories seen through block accesses: a block read takes an address and a
length and returns the cells one after the other, a block write stores a list
of cells, and both advance the address modulo `2 ^ w`.  Nothing here knows
what the memory is used for.

* `BlockMem` is the interface; a read may change the memory, so that a
  memory that records its accesses is one too (`Traced`).
* A total function from addresses to cells is the flat memory.  Its laws are
  the usual ones: `readBlock_eq_map`, `writeBlock_of_forall_ne` (frame) and
  `writeBlock_apply_add` (what a write stores).
* `glue` puts two memories side by side; a block that stays in one of the parts
  is an access to that part.
* `runOps` performs a list of accesses, and `runOps_sim` is the simulation
  rule: two memories related by an invariant that every access of a kind
  preserves return the same cells on every list of such accesses.
-/
import Mathlib.Data.BitVec
import Mathlib.Logic.Function.Basic

/-- Memories with `w`-bit addresses and cells in `β`, accessed in blocks. -/
class BlockMem (w : outParam ℕ) (β : outParam Type) (M : Type) where
  /-- Read the given number of cells from an address on. -/
  read : M → BitVec w → ℕ → List β × M
  /-- Store the cells from an address on. -/
  write : M → BitVec w → List β → M

namespace BlockMem

variable {w : ℕ} {β : Type}

/-! ### The flat memory -/

/-- Read `n` cells of a flat memory, advancing the address after each. -/
def readBlock (m : BitVec w → β) : BitVec w → ℕ → List β
  | _, 0 => []
  | a, n + 1 => m a :: readBlock m (a + 1) n

/-- Store cells into a flat memory, advancing the address after each. -/
def writeBlock (m : BitVec w → β) : BitVec w → List β → BitVec w → β
  | _, [] => m
  | a, b :: bs => writeBlock (Function.update m a b) (a + 1) bs

instance flat : BlockMem w β (BitVec w → β) where
  read m a n := (readBlock m a n, m)
  write := writeBlock

@[simp] theorem read_flat (m : BitVec w → β) (a : BitVec w) (n : ℕ) :
    BlockMem.read m a n = (readBlock m a n, m) := rfl

@[simp] theorem write_flat (m : BitVec w → β) (a : BitVec w) (bs : List β) :
    BlockMem.write m a bs = writeBlock m a bs := rfl

@[simp] theorem readBlock_zero (m : BitVec w → β) (a : BitVec w) :
    readBlock m a 0 = [] := rfl

@[simp] theorem writeBlock_nil (m : BitVec w → β) (a : BitVec w) :
    writeBlock m a [] = m := rfl

theorem readBlock_succ (m : BitVec w → β) (a : BitVec w) (n : ℕ) :
    readBlock m a (n + 1) = m a :: readBlock m (a + 1) n := rfl

theorem writeBlock_cons (m : BitVec w → β) (a : BitVec w) (b : β) (bs : List β) :
    writeBlock m a (b :: bs) = writeBlock (Function.update m a b) (a + 1) bs := rfl

/-- The address `i` cells after `a`, reached one step later from `a + 1`. -/
theorem add_one_add_ofNat (a : BitVec w) (i : ℕ) :
    a + 1 + BitVec.ofNat w i = a + BitVec.ofNat w (i + 1) := by
  have h : (1 : BitVec w) = BitVec.ofNat w 1 := rfl
  rw [h, BitVec.add_assoc, ← BitVec.ofNat_add, Nat.add_comm 1 i]

@[simp] theorem length_readBlock (m : BitVec w → β) (a : BitVec w) (n : ℕ) :
    (readBlock m a n).length = n := by
  induction n generalizing a with
  | zero => rfl
  | succ n ih => rw [readBlock_succ, List.length_cons, ih]

theorem readBlock_eq_map (m : BitVec w → β) (a : BitVec w) (n : ℕ) :
    readBlock m a n = (List.range n).map fun i => m (a + BitVec.ofNat w i) := by
  induction n generalizing a with
  | zero => rfl
  | succ n ih =>
    rw [readBlock_succ, ih, List.range_succ_eq_map, List.map_cons, List.map_map]
    refine congrArg₂ _ (by simp) (List.map_congr_left fun i _ => ?_)
    rw [add_one_add_ofNat]
    rfl

/-- A read splits at any point. -/
theorem readBlock_add (m : BitVec w → β) (a : BitVec w) (n k : ℕ) :
    readBlock m a (n + k) = readBlock m a n ++ readBlock m (a + BitVec.ofNat w n) k := by
  induction n generalizing a with
  | zero => simp
  | succ n ih =>
    rw [Nat.succ_add, readBlock_succ, ih, readBlock_succ, List.cons_append,
      add_one_add_ofNat]

/-- A write splits at any point. -/
theorem writeBlock_append (m : BitVec w → β) (a : BitVec w) (bs cs : List β) :
    writeBlock m a (bs ++ cs)
      = writeBlock (writeBlock m a bs) (a + BitVec.ofNat w bs.length) cs := by
  induction bs generalizing m a with
  | nil => simp
  | cons b bs ih =>
    rw [List.cons_append, writeBlock_cons, ih, writeBlock_cons, add_one_add_ofNat]
    rfl

/-- **Frame.**  A block write leaves every address outside the block alone. -/
theorem writeBlock_of_forall_ne {m : BitVec w → β} {a x : BitVec w} {bs : List β}
    (h : ∀ i < bs.length, x ≠ a + BitVec.ofNat w i) : writeBlock m a bs x = m x := by
  induction bs generalizing m a with
  | nil => rfl
  | cons b bs ih =>
    rw [writeBlock_cons, ih, Function.update_of_ne]
    · simpa using h 0 (by simp)
    · intro i hi
      rw [add_one_add_ofNat]
      exact h (i + 1) (by simpa using hi)

/-- What a cell holds behind a block write depends on no other cell. -/
theorem writeBlock_congr {m m' : BitVec w → β} {x : BitVec w} (h : m x = m' x) (a : BitVec w)
    (bs : List β) : writeBlock m a bs x = writeBlock m' a bs x := by
  induction bs generalizing m m' a with
  | nil => exact h
  | cons b bs ih =>
    rw [writeBlock_cons, writeBlock_cons]
    apply ih
    by_cases hx : x = a
    · rw [hx, Function.update_self, Function.update_self]
    · rw [Function.update_of_ne hx, Function.update_of_ne hx, h]

/-- What a block write stores, as long as the block does not meet itself. -/
theorem writeBlock_apply_add {m : BitVec w → β} {a : BitVec w} {bs : List β}
    (hlen : bs.length ≤ 2 ^ w) {i : ℕ} (hi : i < bs.length) :
    writeBlock m a bs (a + BitVec.ofNat w i) = bs[i] := by
  induction bs generalizing m a i with
  | nil => simp at hi
  | cons b bs ih =>
    rw [writeBlock_cons]
    rcases i with - | i
    · rw [writeBlock_of_forall_ne]
      · simp
      · intro j hj heq
        rw [add_one_add_ofNat, BitVec.add_right_inj] at heq
        have h := congrArg BitVec.toNat heq
        rw [List.length_cons] at hlen
        rw [BitVec.toNat_ofNat, BitVec.toNat_ofNat, Nat.zero_mod,
          Nat.mod_eq_of_lt (by omega)] at h
        omega
    · rw [← add_one_add_ofNat]
      rw [List.length_cons] at hlen hi
      exact ih (by omega) (by omega)

/-- Reading back what was just written. -/
theorem readBlock_writeBlock {m : BitVec w → β} {a : BitVec w} {bs : List β}
    (hlen : bs.length ≤ 2 ^ w) : readBlock (writeBlock m a bs) a bs.length = bs := by
  refine List.ext_getElem (by simp) fun i h₁ h₂ => ?_
  simp only [readBlock_eq_map, List.getElem_map, List.getElem_range]
  exact writeBlock_apply_add hlen h₂

/-! ### Two memories side by side -/

/-- The memory that is `m₁` on the addresses in `p` and `m₂` on the others. -/
def glue (p : BitVec w → Prop) [DecidablePred p] (m₁ m₂ : BitVec w → β) : BitVec w → β :=
  fun a => if p a then m₁ a else m₂ a

section Glue

variable {p : BitVec w → Prop} [DecidablePred p] {m₁ m₂ : BitVec w → β} {a : BitVec w}

/-- Reading the same is agreeing on the block. -/
theorem readBlock_eq_iff {m m' : BitVec w → β} {n : ℕ} :
    readBlock m a n = readBlock m' a n ↔
      ∀ i < n, m (a + BitVec.ofNat w i) = m' (a + BitVec.ofNat w i) := by
  rw [readBlock_eq_map, readBlock_eq_map, List.map_inj_left]
  simp only [List.mem_range]

/-- A block inside the first part is read from the first memory. -/
theorem readBlock_glue_left {n : ℕ} (h : ∀ i < n, p (a + BitVec.ofNat w i)) :
    readBlock (glue p m₁ m₂) a n = readBlock m₁ a n :=
  readBlock_eq_iff.mpr fun i hi => if_pos (h i hi)

theorem readBlock_glue_right {n : ℕ} (h : ∀ i < n, ¬ p (a + BitVec.ofNat w i)) :
    readBlock (glue p m₁ m₂) a n = readBlock m₂ a n :=
  readBlock_eq_iff.mpr fun i hi => if_neg (h i hi)

theorem update_glue_left (b : β) (h : p a) :
    Function.update (glue p m₁ m₂) a b = glue p (Function.update m₁ a b) m₂ := by
  funext x
  by_cases hx : x = a
  · subst hx
    simp [glue, h]
  · simp [glue, hx]

theorem update_glue_right (b : β) (h : ¬ p a) :
    Function.update (glue p m₁ m₂) a b = glue p m₁ (Function.update m₂ a b) := by
  funext x
  by_cases hx : x = a
  · subst hx
    simp [glue, h]
  · simp [glue, hx]

/-- A block inside the first part is written to the first memory. -/
theorem writeBlock_glue_left {bs : List β} (h : ∀ i < bs.length, p (a + BitVec.ofNat w i)) :
    writeBlock (glue p m₁ m₂) a bs = glue p (writeBlock m₁ a bs) m₂ := by
  induction bs generalizing m₁ a with
  | nil => rfl
  | cons b bs ih =>
    have hhead : p a := by simpa using h 0 (by simp)
    rw [writeBlock_cons, writeBlock_cons, update_glue_left b hhead]
    refine ih fun i hi => ?_
    rw [add_one_add_ofNat]
    exact h (i + 1) (by simpa using hi)

theorem writeBlock_glue_right {bs : List β} (h : ∀ i < bs.length, ¬ p (a + BitVec.ofNat w i)) :
    writeBlock (glue p m₁ m₂) a bs = glue p m₁ (writeBlock m₂ a bs) := by
  induction bs generalizing m₂ a with
  | nil => rfl
  | cons b bs ih =>
    have hhead : ¬ p a := by simpa using h 0 (by simp)
    rw [writeBlock_cons, writeBlock_cons, update_glue_right b hhead]
    refine ih fun i hi => ?_
    rw [add_one_add_ofNat]
    exact h (i + 1) (by simpa using hi)

end Glue

/-! ### Accesses and runs -/

/-- One block access. -/
inductive Access (w : ℕ) (β : Type)
  | read (a : BitVec w) (n : ℕ)
  | write (a : BitVec w) (bs : List β)

/-- The addresses of a block, in the order in which it is accessed. -/
def blockCells (a : BitVec w) (n : ℕ) : List (BitVec w) :=
  (List.range n).map fun i => a + BitVec.ofNat w i

/-- The cells an access reads. -/
def Access.cellsRead : Access w β → List (BitVec w)
  | .read a n => blockCells a n
  | .write _ _ => []

/-- The cells an access writes, with what it stores in them. -/
def Access.stores : Access w β → List (BitVec w × β)
  | .read _ _ => []
  | .write a bs => (blockCells a bs.length).zip bs

@[simp] theorem length_blockCells (a : BitVec w) (n : ℕ) : (blockCells a n).length = n := by
  simp [blockCells]

theorem blockCells_succ (a : BitVec w) (n : ℕ) :
    blockCells a (n + 1) = a :: blockCells (a + 1) n := by
  simp only [blockCells, List.range_succ_eq_map, List.map_cons, List.map_map]
  refine congrArg₂ _ (by simp) (List.map_congr_left fun i _ => ?_)
  rw [add_one_add_ofNat]
  rfl

variable {M N : Type} [BlockMem w β M] [BlockMem w β N]

/-- Perform one access; a write returns no cells. -/
def perform (m : M) : Access w β → List β × M
  | .read a n => BlockMem.read m a n
  | .write a bs => ([], BlockMem.write m a bs)

/-- Perform accesses in order, collecting what each of them returns. -/
def runOps : M → List (Access w β) → List (List β) × M
  | m, [] => ([], m)
  | m, o :: os =>
    let (out, m) := perform m o
    let (outs, m) := runOps m os
    (out :: outs, m)

/-- **Simulation rule.**  If every access of the kind `ok` keeps `R` and
returns the same cells on both sides, so does every list of such accesses. -/
theorem runOps_sim {R : M → N → Prop} {ok : Access w β → Prop}
    (hstep : ∀ m n o, R m n → ok o →
      (perform m o).1 = (perform n o).1 ∧ R (perform m o).2 (perform n o).2)
    {m : M} {n : N} (hR : R m n) {os : List (Access w β)} (hok : ∀ o ∈ os, ok o) :
    (runOps m os).1 = (runOps n os).1 ∧ R (runOps m os).2 (runOps n os).2 := by
  induction os generalizing m n with
  | nil => exact ⟨rfl, hR⟩
  | cons o os ih =>
    obtain ⟨hout, hR'⟩ := hstep m n o hR (hok o (by simp))
    obtain ⟨houts, hR''⟩ := ih hR' fun o' ho' => hok o' (by simp [ho'])
    exact ⟨congrArg₂ _ hout houts, hR''⟩

/-! ### Recording the accesses -/

/-- A memory together with the accesses made to it so far. -/
structure Traced (w : ℕ) (β M : Type) where
  mem : M
  trace : List (Access w β) := []

instance traced : BlockMem w β (Traced w β M) where
  read t a n :=
    ((BlockMem.read t.mem a n).1,
      ⟨(BlockMem.read t.mem a n).2, t.trace ++ [.read a n]⟩)
  write t a bs := ⟨BlockMem.write t.mem a bs, t.trace ++ [.write a bs]⟩

@[simp] theorem read_traced (t : Traced w β M) (a : BitVec w) (n : ℕ) :
    BlockMem.read t a n = ((BlockMem.read t.mem a n).1,
      ⟨(BlockMem.read t.mem a n).2, t.trace ++ [.read a n]⟩) := rfl

@[simp] theorem write_traced (t : Traced w β M) (a : BitVec w) (bs : List β) :
    BlockMem.write t a bs = ⟨BlockMem.write t.mem a bs, t.trace ++ [.write a bs]⟩ :=
  rfl

end BlockMem
