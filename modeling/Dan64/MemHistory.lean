/-
Dan64/MemHistory.lean

Histories of a memory that several parties use: an event for every cell that
is read or stored, with the party that does it.

`Replays x v es v'` follows one address: a cell that holds `v` goes through the
events `es`, shows its value to every read of them and holds `v'` at the end.
Block reads and block writes of a flat memory are replays
(`replays_blockReads`, `replays_blockStores`), and replays compose
(`Replays.append`).  What comes out is `Replays.readsLast`: a read returns what
was stored last, whoever stored it.
-/
import Dan64.BlockMem

namespace MemHistory

open BlockMem

/-- A party `p` reads, or stores, the value `v` at the address `a`. -/
inductive Event (P A V : Type)
  | read (p : P) (a : A) (v : V)
  | stored (p : P) (a : A) (v : V)
  deriving DecidableEq

section Replay

variable {P A V : Type} [DecidableEq A]

/-- The last store at an address, and whose it is. -/
def lastStored (x : A) : List (Event P A V) → Option (P × V)
  | [] => none
  | .read _ _ _ :: es => lastStored x es
  | .stored p a v :: es => (lastStored x es).or (if a = x then some (p, v) else none)

/-- The cell at `x` holds `v`, goes through the events and holds `v'`. -/
def Replays (x : A) : V → List (Event P A V) → V → Prop
  | v, [], v' => v' = v
  | v, .read _ a b :: es, v' => (a = x → b = v) ∧ Replays x v es v'
  | v, .stored _ a b :: es, v' => Replays x (if a = x then b else v) es v'

/-- Whenever `q` was the last to store at `x`, and `R q p` holds, a read of `x` by
`p` returns what `q` stored. -/
def ReadsLast (R : P → P → Prop) (x : A) (es : List (Event P A V)) : Prop :=
  ∀ pre p v post, es = pre ++ .read p x v :: post →
    ∀ q c, lastStored x pre = some (q, c) → R q p → v = c

theorem replays_append {x : A} {v v' : V} {es fs : List (Event P A V)} :
    Replays x v (es ++ fs) v' ↔ ∃ u, Replays x v es u ∧ Replays x u fs v' := by
  induction es generalizing v with
  | nil => simp [Replays]
  | cons e es ih =>
    cases e with
    | read p a b =>
      rw [List.cons_append, Replays, ih]
      constructor
      · rintro ⟨hb, u, hes, hfs⟩
        exact ⟨u, ⟨hb, hes⟩, hfs⟩
      · rintro ⟨u, ⟨hb, hes⟩, hfs⟩
        exact ⟨hb, u, hes, hfs⟩
    | stored p a b =>
      rw [List.cons_append, Replays, ih]
      rfl

theorem Replays.append {x : A} {v u v' : V} {es fs : List (Event P A V)}
    (hes : Replays x v es u) (hfs : Replays x u fs v') : Replays x v (es ++ fs) v' :=
  replays_append.mpr ⟨u, hes, hfs⟩

/-- A cell nothing is stored in stays as it is. -/
theorem Replays.of_not_stored {x : A} {v v' : V} {es : List (Event P A V)}
    (h : Replays x v es v') (hnone : lastStored x es = none) : v' = v := by
  induction es with
  | nil => exact h
  | cons e es ih =>
    cases e with
    | read p a b => exact ih h.2 hnone
    | stored p a b =>
      rw [lastStored, Option.or_eq_none_iff] at hnone
      have hne : a ≠ x := by
        rintro rfl
        simp at hnone
      rw [Replays, if_neg hne] at h
      exact ih h hnone.1

/-- The cell ends with what was stored in it last. -/
theorem Replays.of_lastStored {x : A} {v v' : V} {es : List (Event P A V)}
    (h : Replays x v es v') {q : P} {c : V} (hlast : lastStored x es = some (q, c)) :
    v' = c := by
  induction es generalizing v with
  | nil => cases hlast
  | cons e es ih =>
    cases e with
    | read p a b => exact ih h.2 hlast
    | stored p a b =>
      rw [lastStored, Option.or_eq_some_iff] at hlast
      rcases hlast with hlast | ⟨hnone, hhead⟩
      · exact ih h hlast
      · -- no store at `x` after this one
        split at hhead
        · next hax =>
          cases hhead
          rw [Replays, if_pos hax] at h
          exact h.of_not_stored hnone
        · cases hhead

/-- **A read returns what was stored last.** -/
theorem Replays.readsLast {x : A} {v v' : V} {es : List (Event P A V)} (h : Replays x v es v')
    (R : P → P → Prop) : ReadsLast R x es := by
  rintro pre p b post rfl q c hlast -
  obtain ⟨u, hpre, hpost⟩ := replays_append.mp h
  exact (hpost.1 rfl).trans (hpre.of_lastStored hlast)

end Replay

/-! ### Blocks -/

section Blocks

variable {P V : Type} {w : ℕ}

/-- A party reads the cells from an address on. -/
def blockReads (p : P) : BitVec w → List V → List (Event P (BitVec w) V)
  | _, [] => []
  | a, v :: vs => .read p a v :: blockReads p (a + 1) vs

/-- A party stores the cells from an address on. -/
def blockStores (p : P) : BitVec w → List V → List (Event P (BitVec w) V)
  | _, [] => []
  | a, v :: vs => .stored p a v :: blockStores p (a + 1) vs

/-- A block read of a flat memory. -/
theorem replays_blockReads (m : BitVec w → V) (x : BitVec w) (p : P) (a : BitVec w) (n : ℕ) :
    Replays x (m x) (blockReads p a (readBlock m a n)) (m x) := by
  induction n generalizing a with
  | zero => rfl
  | succ n ih => exact ⟨congrArg m, ih (a + 1)⟩

/-- A block write to it. -/
theorem replays_blockStores (m : BitVec w → V) (x : BitVec w) (p : P) (a : BitVec w)
    (vs : List V) : Replays x (m x) (blockStores p a vs) (writeBlock m a vs x) := by
  induction vs generalizing m a with
  | nil => rfl
  | cons v vs ih =>
    have hcell : (if a = x then v else m x) = Function.update m a v x := by
      rw [Function.update_apply]
      exact if_congr eq_comm rfl rfl
    rw [blockStores, Replays, writeBlock_cons, hcell]
    exact ih (Function.update m a v) (a + 1)

/-- Reads elsewhere. -/
theorem replays_blockReads_of_ne {x a : BitVec w} {vs : List V}
    (h : ∀ i < vs.length, a + BitVec.ofNat w i ≠ x) (v : V) (p : P) :
    Replays x v (blockReads p a vs) v := by
  induction vs generalizing a with
  | nil => rfl
  | cons b vs ih =>
    have hhead : a ≠ x := by simpa using h 0 (by simp)
    refine ⟨fun hax => absurd hax hhead, ih fun i hi => ?_⟩
    rw [add_one_add_ofNat]
    exact h (i + 1) (by simpa using hi)

/-- Stores elsewhere. -/
theorem replays_blockStores_of_ne {x a : BitVec w} {vs : List V}
    (h : ∀ i < vs.length, a + BitVec.ofNat w i ≠ x) (v : V) (p : P) :
    Replays x v (blockStores p a vs) v := by
  induction vs generalizing a with
  | nil => rfl
  | cons b vs ih =>
    have hhead : a ≠ x := by simpa using h 0 (by simp)
    rw [blockStores, Replays, if_neg hhead]
    refine ih fun i hi => ?_
    rw [add_one_add_ofNat]
    exact h (i + 1) (by simpa using hi)

theorem blockReads_append (p : P) (a : BitVec w) (vs ws : List V) :
    blockReads p a (vs ++ ws)
      = blockReads p a vs ++ blockReads p (a + BitVec.ofNat w vs.length) ws := by
  induction vs generalizing a with
  | nil => simp [blockReads]
  | cons v vs ih =>
    rw [List.cons_append, blockReads, ih, add_one_add_ofNat]
    rfl

theorem blockStores_append (p : P) (a : BitVec w) (vs ws : List V) :
    blockStores p a (vs ++ ws)
      = blockStores p a vs ++ blockStores p (a + BitVec.ofNat w vs.length) ws := by
  induction vs generalizing a with
  | nil => simp [blockStores]
  | cons v vs ih =>
    rw [List.cons_append, blockStores, ih, add_one_add_ofNat]
    rfl

end Blocks

end MemHistory
