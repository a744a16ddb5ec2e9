/-
Dan64/LineEdit.lean

A line of characters with a cursor, as two lists, and what editing it does.
Nothing here knows what the characters are or who edits them.

`ofArray` reads a line off an array, the index of the cursor and the length: every
edit of the line is an edit of the three (`ofArray_toLeft`, `ofArray_toRight`,
`ofArray_erase`, `ofArray_insert`, `ofArray_insertBefore`), which is how an editor
that shifts an array refines one that does not.
-/
import Mathlib.Data.List.Basic

/-- What is left of the cursor, the nearest character first, and the rest. -/
@[ext] structure Line (α : Type*) where
  left : List α
  right : List α
  deriving DecidableEq

namespace Line

variable {α : Type*}

def empty : Line α := ⟨[], []⟩

def text (l : Line α) : List α := l.left.reverse ++ l.right

/-! ### Edits -/

def toLeft : Line α → Line α
  | ⟨c :: left, right⟩ => ⟨left, c :: right⟩
  | ⟨[], right⟩ => ⟨[], right⟩

def toRight : Line α → Line α
  | ⟨left, c :: right⟩ => ⟨c :: left, right⟩
  | ⟨left, []⟩ => ⟨left, []⟩

/-- Without the character left of the cursor. -/
def erase (l : Line α) : Line α := ⟨l.left.tail, l.right⟩

/-- A character at the cursor, which moves past it. -/
def insert (l : Line α) (c : α) : Line α := ⟨c :: l.left, l.right⟩

/-- A character at the cursor, which stays before it. -/
def insertBefore (l : Line α) (c : α) : Line α := ⟨l.left, c :: l.right⟩

inductive Edit (α : Type*)
  | toLeft | toRight | erase | insert (c : α)

/-- One edit of a line of at most `room` characters. -/
def edit (room : ℕ) (l : Line α) : Edit α → Line α
  | .toLeft => l.toLeft
  | .toRight => l.toRight
  | .erase => l.erase
  | .insert c => if l.text.length < room then l.insert c else l

/-- The two insertions differ by the place of the cursor. -/
theorem insert_ne_insertBefore (l : Line α) (c : α) : l.insert c ≠ l.insertBefore c := by
  intro h
  have hleft := congrArg (fun l => l.left.length) h
  exact absurd hleft (Nat.succ_ne_self _)

/-! ### Lines in an array -/

/-- The first `n` characters of an array, with the cursor at `p`. -/
def ofArray (a : ℕ → α) (p n : ℕ) : Line α :=
  ⟨(List.range p).reverse.map a, (List.range' p (n - p)).map a⟩

variable {a a' : ℕ → α} {p n : ℕ}

theorem text_ofArray (a : ℕ → α) (h : p ≤ n) : (ofArray a p n).text = (List.range n).map a := by
  obtain ⟨k, rfl⟩ := Nat.exists_eq_add_of_le h
  have hrange : List.range (p + k) = List.range p ++ List.range' p k := by
    have happend := @List.range'_append_1 0 p k
    rw [Nat.zero_add] at happend
    rw [List.range_eq_range', List.range_eq_range', happend]
  rw [text, ofArray, hrange, List.map_append, List.map_reverse, List.reverse_reverse,
    Nat.add_sub_cancel_left]

@[simp] theorem length_text_ofArray (a : ℕ → α) (h : p ≤ n) : (ofArray a p n).text.length = n := by
  rw [text_ofArray a h, List.length_map, List.length_range]

@[simp] theorem right_ofArray_eq_nil (a : ℕ → α) : (ofArray a p n).right = [] ↔ n ≤ p := by
  rw [ofArray, List.map_eq_nil_iff, List.range'_eq_nil_iff, Nat.sub_eq_zero_iff_le]

/-- The character left of the cursor. -/
theorem left_ofArray_succ (a : ℕ → α) (p : ℕ) :
    (List.range (p + 1)).reverse.map a = a p :: (List.range p).reverse.map a := by
  rw [List.range_succ, List.reverse_append, List.reverse_singleton, List.singleton_append,
    List.map_cons]

/-- The character right of it. -/
theorem right_ofArray_cons (a : ℕ → α) (h : p < n) :
    (List.range' p (n - p)).map a = a p :: (List.range' (p + 1) (n - (p + 1))).map a := by
  obtain ⟨k, hk⟩ : ∃ k, n - p = k + 1 := ⟨n - (p + 1), by omega⟩
  have hk' : n - (p + 1) = k := by omega
  rw [hk, hk', List.range'_succ, List.map_cons]

/-- Characters moved by one. -/
theorem map_range'_shift {k q : ℕ} (h : ∀ i, p ≤ i → i < p + k → a' (q + (i - p)) = a i) :
    (List.range' q k).map a' = (List.range' p k).map a := by
  rw [List.range'_eq_map_range, List.range'_eq_map_range, List.map_map, List.map_map]
  apply List.map_congr_left
  intro i hi
  rw [List.mem_range] at hi
  have hshift := h (p + i) (Nat.le_add_right p i) (Nat.add_lt_add_left hi p)
  rwa [Nat.add_sub_cancel_left] at hshift

theorem ofArray_toLeft (a : ℕ → α) (hp : p < n) :
    (ofArray a (p + 1) n).toLeft = ofArray a p n := by
  rw [ofArray, left_ofArray_succ, toLeft, ofArray, right_ofArray_cons a hp]

theorem ofArray_toLeft_zero (a : ℕ → α) : (ofArray a 0 n).toLeft = ofArray a 0 n := rfl

theorem ofArray_toRight (a : ℕ → α) (hp : p < n) :
    (ofArray a p n).toRight = ofArray a (p + 1) n := by
  rw [ofArray, right_ofArray_cons a hp, toRight, ofArray, left_ofArray_succ]

theorem ofArray_toRight_end (a : ℕ → α) : (ofArray a n n).toRight = ofArray a n n := by
  rw [ofArray, Nat.sub_self]
  rfl

/-- Erasing moves the rest of the line down. -/
theorem ofArray_erase (hp : p < n) (hbelow : ∀ i < p, a' i = a i)
    (hshift : ∀ i, p ≤ i → i + 1 < n → a' i = a (i + 1)) :
    (ofArray a (p + 1) n).erase = ofArray a' p (n - 1) := by
  rw [ofArray, left_ofArray_succ, erase, ofArray, List.tail_cons]
  refine Line.ext (List.map_congr_left ?_) ?_
  · intro i hi
    rw [List.mem_reverse, List.mem_range] at hi
    exact (hbelow i hi).symm
  · have hlen : n - (p + 1) = n - 1 - p := by omega
    rw [hlen]
    symm
    apply map_range'_shift
    intro i hi hi'
    rw [hshift _ (by omega) (by omega)]
    congr 1
    omega

theorem ofArray_erase_zero (a : ℕ → α) : (ofArray a 0 n).erase = ofArray a 0 n := rfl

/-- An insertion at the end is a store behind it. -/
theorem ofArray_insert {c : α} (hbelow : ∀ i < n, a' i = a i) (hc : a' n = c) :
    (ofArray a n n).insert c = ofArray a' (n + 1) (n + 1) := by
  rw [insert, ofArray, ofArray, left_ofArray_succ, Nat.sub_self, Nat.sub_self, hc]
  have hleft : (List.range n).reverse.map a = (List.range n).reverse.map a' := by
    apply List.map_congr_left
    intro i hi
    rw [List.mem_reverse, List.mem_range] at hi
    exact (hbelow i hi).symm
  exact Line.ext (congrArg (c :: ·) hleft) rfl

/-- An insertion moves the rest of the line up. -/
theorem ofArray_insertBefore {c : α} (hp : p ≤ n) (hbelow : ∀ i < p, a' i = a i) (hc : a' p = c)
    (hshift : ∀ i, p ≤ i → i < n → a' (i + 1) = a i) :
    (ofArray a p n).insertBefore c = ofArray a' p (n + 1) := by
  rw [insertBefore, ofArray, ofArray, right_ofArray_cons a' (by omega), hc]
  refine Line.ext (List.map_congr_left ?_) (congrArg (c :: ·) ?_)
  · intro i hi
    rw [List.mem_reverse, List.mem_range] at hi
    exact (hbelow i hi).symm
  · have hlen : n + 1 - (p + 1) = n - p := by omega
    rw [hlen]
    symm
    apply map_range'_shift
    intro i hi hi'
    have hnext : p + 1 + (i - p) = i + 1 := by omega
    rw [hnext]
    exact hshift i hi (by omega)

end Line
