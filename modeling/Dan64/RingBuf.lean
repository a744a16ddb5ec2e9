/-
Dan64/RingBuf.lean

Ring buffers: `n` cells, the index of the oldest entry and the index of the next
free cell.  The ring is empty when the two meet, so that it holds at most
`n - 1` entries; a push into a full ring drops the oldest one.

`contents` is what a ring holds, oldest first.  A push appends to it
(`contents_push`), or appends and drops (`contents_push_full`); a pop takes its
head (`contents_pop`).
-/
import Mathlib.Data.Nat.ModEq
import Mathlib.Logic.Function.Basic

/-- A ring of `n` cells. -/
structure RingBuf (α : Type) (n : ℕ) where
  cells : ℕ → α
  start : ℕ
  stop : ℕ
  start_lt : start < n
  stop_lt : stop < n

namespace RingBuf

variable {α : Type} {n : ℕ}

/-! ### Operations -/

def Empty (r : RingBuf α n) : Prop := r.stop = r.start

def Full (r : RingBuf α n) : Prop := (r.stop + 1) % n = r.start

instance (r : RingBuf α n) : Decidable r.Empty := inferInstanceAs (Decidable (_ = _))
instance (r : RingBuf α n) : Decidable r.Full := inferInstanceAs (Decidable (_ = _))

/-- Forget the entries. -/
def clear (r : RingBuf α n) : RingBuf α n :=
  { r with
    start := 0
    stop := 0
    start_lt := Nat.zero_lt_of_lt r.start_lt
    stop_lt := Nat.zero_lt_of_lt r.start_lt }

/-- Store an entry; if the end meets the start, the oldest one is dropped. -/
def push (r : RingBuf α n) (b : α) : RingBuf α n where
  cells := Function.update r.cells r.stop b
  start := if (r.stop + 1) % n = r.start then (r.start + 1) % n else r.start
  stop := (r.stop + 1) % n
  start_lt := by
    split
    · exact Nat.mod_lt _ (Nat.zero_lt_of_lt r.start_lt)
    · exact r.start_lt
  stop_lt := Nat.mod_lt _ (Nat.zero_lt_of_lt r.start_lt)

/-- The oldest entry. -/
def head (r : RingBuf α n) : α := r.cells r.start

/-- Drop the oldest entry. -/
def pop (r : RingBuf α n) : RingBuf α n :=
  { r with
    start := (r.start + 1) % n
    start_lt := Nat.mod_lt _ (Nat.zero_lt_of_lt r.start_lt) }

/-- How many entries there are. -/
def length (r : RingBuf α n) : ℕ := (r.stop + n - r.start) % n

/-- `k` cells from one on. -/
def segment (n : ℕ) (cells : ℕ → α) (start k : ℕ) : List α :=
  (List.range k).map fun i => cells ((start + i) % n)

/-- The entries, oldest first. -/
def contents (r : RingBuf α n) : List α := segment n r.cells r.start r.length

/-! ### Indices -/

theorem length_lt (r : RingBuf α n) : r.length < n := Nat.mod_lt _ (Nat.zero_lt_of_lt r.start_lt)

/-- The end is as far from the start as there are entries. -/
theorem stop_eq (r : RingBuf α n) : (r.start + r.length) % n = r.stop := by
  have hstart := r.start_lt
  have hsum : r.start + (r.stop + n - r.start) = r.stop + n := by omega
  rw [length, Nat.add_mod_mod, hsum, Nat.add_mod_right]
  exact Nat.mod_eq_of_lt r.stop_lt

/-- The distance of the two indices determines the length. -/
theorem length_eq (r : RingBuf α n) {k : ℕ} (hk : k < n) (h : (r.start + k) % n = r.stop) :
    r.length = k := by
  have hmod : r.start + r.length ≡ r.start + k [MOD n] := r.stop_eq.trans h.symm
  have hcancel : r.length ≡ k [MOD n] := Nat.ModEq.add_left_cancel' r.start hmod
  exact hcancel.eq_of_lt_of_lt r.length_lt hk

theorem empty_iff (r : RingBuf α n) : r.Empty ↔ r.length = 0 := by
  constructor
  · intro hempty
    apply length_eq r (Nat.zero_lt_of_lt r.start_lt)
    rw [Nat.add_zero, Nat.mod_eq_of_lt r.start_lt]
    exact hempty.symm
  · intro hlength
    have hstop := r.stop_eq
    rw [hlength, Nat.add_zero, Nat.mod_eq_of_lt r.start_lt] at hstop
    exact hstop.symm

theorem full_iff (r : RingBuf α n) : r.Full ↔ r.length + 1 = n := by
  have hstop := r.stop_eq
  have hnext : (r.stop + 1) % n = (r.start + (r.length + 1)) % n := by
    rw [← hstop, Nat.mod_add_mod, Nat.add_assoc]
  rw [Full, hnext]
  constructor
  · intro hfull
    by_contra hne
    have hlt : r.length + 1 < n := by
      have hlt := r.length_lt
      omega
    have hmod : r.start + (r.length + 1) ≡ r.start + 0 [MOD n] := by
      rw [Nat.ModEq, hfull, Nat.add_zero, Nat.mod_eq_of_lt r.start_lt]
    have hzero := (Nat.ModEq.add_left_cancel' r.start hmod).eq_of_lt_of_lt hlt
      (Nat.zero_lt_of_lt hlt)
    exact absurd hzero (Nat.succ_ne_zero r.length)
  · intro hlength
    rw [hlength, Nat.add_mod_right, Nat.mod_eq_of_lt r.start_lt]

/-! ### Segments -/

@[simp] theorem length_segment (cells : ℕ → α) (start k : ℕ) :
    (segment n cells start k).length = k := by
  simp [segment]

@[simp] theorem length_contents (r : RingBuf α n) : r.contents.length = r.length :=
  length_segment _ _ _

theorem segment_succ (cells : ℕ → α) (start k : ℕ) :
    segment n cells start (k + 1) = segment n cells start k ++ [cells ((start + k) % n)] := by
  rw [segment, List.range_succ, List.map_append]
  rfl

theorem segment_cons (cells : ℕ → α) {start : ℕ} (hstart : start < n) (k : ℕ) :
    segment n cells start (k + 1) = cells start :: segment n cells ((start + 1) % n) k := by
  rw [segment, List.range_succ_eq_map, List.map_cons, List.map_map, Nat.add_zero,
    Nat.mod_eq_of_lt hstart]
  congr 1
  apply List.map_congr_left
  intro i _
  show cells ((start + (i + 1)) % n) = cells (((start + 1) % n + i) % n)
  rw [Nat.mod_add_mod, Nat.add_right_comm, Nat.add_assoc]

/-- A cell behind the segment can be overwritten. -/
theorem segment_update (cells : ℕ → α) (start : ℕ) {k : ℕ} (hk : k < n) (b : α) :
    segment n (Function.update cells ((start + k) % n) b) start k = segment n cells start k := by
  apply List.map_congr_left
  intro i hi
  apply Function.update_of_ne
  intro heq
  have hi' : i < k := List.mem_range.mp hi
  have hmod := Nat.ModEq.add_left_cancel' start (heq : start + i ≡ start + k [MOD n])
  exact hi'.ne (hmod.eq_of_lt_of_lt (hi'.trans hk) hk)

/-! ### What the operations do to the contents -/

theorem contents_eq_nil_iff (r : RingBuf α n) : r.contents = [] ↔ r.Empty := by
  rw [empty_iff, ← List.length_eq_zero_iff, length_contents]

@[simp] theorem contents_clear (r : RingBuf α n) : r.clear.contents = [] :=
  r.clear.contents_eq_nil_iff.mpr rfl

/-- A pop takes the oldest entry. -/
theorem contents_pop {r : RingBuf α n} (h : ¬ r.Empty) : r.contents = r.head :: r.pop.contents := by
  rw [empty_iff] at h
  obtain ⟨k, hk⟩ := Nat.exists_eq_succ_of_ne_zero h
  have hlt := r.length_lt
  have hpop : r.pop.length = k := by
    apply length_eq r.pop (by omega)
    show ((r.start + 1) % n + k) % n = r.stop
    rw [Nat.mod_add_mod, Nat.add_right_comm, Nat.add_assoc, ← Nat.succ_eq_add_one k, ← hk]
    exact r.stop_eq
  rw [contents, contents, hpop, hk, segment_cons r.cells r.start_lt]
  rfl

/-- Behind a pop there is space. -/
theorem not_full_pop {r : RingBuf α n} (h : ¬ r.Empty) : ¬ r.pop.Full := by
  have hlength := congrArg List.length (contents_pop h)
  rw [length_contents, List.length_cons, length_contents] at hlength
  rw [full_iff, ← hlength]
  exact r.length_lt.ne

/-- A push appends. -/
theorem contents_push {r : RingBuf α n} (h : ¬ r.Full) (b : α) :
    (r.push b).contents = r.contents ++ [b] := by
  have hlt : r.length + 1 < n := by
    have hne := mt r.full_iff.mpr h
    have hlt := r.length_lt
    omega
  have hstart : (r.push b).start = r.start := if_neg h
  have hlength : (r.push b).length = r.length + 1 := by
    apply length_eq _ hlt
    rw [hstart, ← Nat.add_assoc, ← Nat.mod_add_mod, r.stop_eq]
    rfl
  have hcells : (r.push b).cells = Function.update r.cells ((r.start + r.length) % n) b := by
    rw [r.stop_eq]
    rfl
  rw [contents, contents, hlength, hstart, segment_succ, hcells, segment_update _ _ r.length_lt,
    Function.update_self]

/-- A push into a full ring drops the oldest entry. -/
theorem contents_push_full {r : RingBuf α n} (h : r.Full) (b : α) :
    (r.push b).contents = (r.contents ++ [b]).tail := by
  have hlen : r.length + 1 = n := r.full_iff.mp h
  have hstart : (r.push b).start = (r.start + 1) % n := if_pos h
  have hlength : (r.push b).length = r.length := by
    apply length_eq _ r.length_lt
    show ((r.push b).start + r.length) % n = (r.stop + 1) % n
    rw [hstart, Nat.mod_add_mod, Nat.add_right_comm, ← Nat.mod_add_mod, r.stop_eq]
  have hcells : (r.push b).cells = Function.update r.cells ((r.start + r.length) % n) b := by
    rw [r.stop_eq]
    rfl
  have happend : r.contents ++ [b] = segment n (r.push b).cells r.start (r.length + 1) := by
    rw [segment_succ, hcells, segment_update _ _ r.length_lt, Function.update_self]
    rfl
  rw [happend, segment_cons _ r.start_lt, List.tail_cons, contents, hlength, hstart]

theorem length_push {r : RingBuf α n} (h : ¬ r.Full) (b : α) :
    (r.push b).length = r.length + 1 := by
  rw [← length_contents, contents_push h, List.length_append, length_contents]
  rfl

theorem length_push_full {r : RingBuf α n} (h : r.Full) (b : α) :
    (r.push b).length = r.length := by
  rw [← length_contents, contents_push_full h, List.length_tail, List.length_append,
    length_contents]
  rfl

theorem not_empty_push (hn : 1 < n) (r : RingBuf α n) (b : α) : ¬ (r.push b).Empty := by
  rw [empty_iff]
  by_cases hfull : r.Full
  · rw [length_push_full hfull]
    have hlength := r.full_iff.mp hfull
    omega
  · rw [length_push hfull]
    exact Nat.succ_ne_zero _

/-- A ring keeps the end of what is pushed. -/
theorem contents_push_suffix (r : RingBuf α n) (b : α) :
    (r.push b).contents <:+ r.contents ++ [b] := by
  by_cases h : r.Full
  · rw [contents_push_full h]
    exact List.tail_suffix _
  · exact ⟨[], contents_push h b⟩

/-! ### An end that was read before -/

/-- `e` is `k` cells before the end, and inside the ring. -/
structure Inside (r : RingBuf α n) (e k : ℕ) : Prop where
  stop : (e + k) % n = r.stop
  lt : k < r.length

theorem inside_stop {r : RingBuf α n} (h : ¬ r.Empty) : r.Inside r.stop 0 where
  stop := by rw [Nat.add_zero, Nat.mod_eq_of_lt r.stop_lt]
  lt := Nat.pos_of_ne_zero (mt r.empty_iff.mpr h)

/-- It stays inside until the ring has gone round. -/
theorem Inside.push {r : RingBuf α n} {e k : ℕ} (h : r.Inside e k) (hk : k + 2 < n) (b : α) :
    (r.push b).Inside e (k + 1) where
  stop := by
    show _ = (r.stop + 1) % n
    rw [← h.stop, Nat.mod_add_mod, Nat.add_assoc]
  lt := by
    by_cases hfull : r.Full
    · have hlength := r.full_iff.mp hfull
      rw [length_push_full hfull]
      omega
    · rw [length_push hfull]
      exact Nat.succ_lt_succ h.lt

/-- The start does not reach it. -/
theorem Inside.ne_start {r : RingBuf α n} {e k : ℕ} (h : r.Inside e k) : e ≠ r.start := by
  rintro rfl
  have hlength := r.length_eq (h.lt.trans r.length_lt) h.stop
  exact h.lt.ne' hlength

end RingBuf
