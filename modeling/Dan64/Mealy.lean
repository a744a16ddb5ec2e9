/-
Dan64/Mealy.lean

Machines that answer every input: a step takes a state and an input to an
output and a state, and `feed` runs it over a list of inputs.  Nothing here
knows what the machine is.

The rules: a run over a concatenation is two runs (`feed_append`).  `Along` says
something of every step of a run: what the steps that meet a condition keep, a
run of such steps keeps (`Along.invariant`), and where a property is lost by the
other steps, it holds along a run exactly if the condition does (`along_iff`).  A rank
that some inputs lower and none raises bounds how many of them a run takes until it is
done (`done_of_rank`).
-/
import Mathlib.Data.List.Basic

namespace Mealy

variable {σ ι ο : Type*}

/-- Run a machine over its inputs, collecting the outputs. -/
def feed (step : σ → ι → ο × σ) : σ → List ι → List ο × σ
  | s, [] => ([], s)
  | s, i :: is =>
    let (o, s) := step s i
    let (os, s) := feed step s is
    (o :: os, s)

variable (step : σ → ι → ο × σ)

@[simp] theorem feed_nil (s : σ) : feed step s [] = ([], s) := rfl

theorem feed_cons (s : σ) (i : ι) (is : List ι) :
    feed step s (i :: is)
      = ((step s i).1 :: (feed step (step s i).2 is).1, (feed step (step s i).2 is).2) := rfl

/-- A run over a concatenation is two runs. -/
theorem feed_append (s : σ) (is js : List ι) :
    feed step s (is ++ js)
      = ((feed step s is).1 ++ (feed step (feed step s is).2 js).1,
          (feed step (feed step s is).2 js).2) := by
  induction is generalizing s with
  | nil => rfl
  | cons i is ih => rw [List.cons_append, feed_cons, feed_cons, ih, List.cons_append]

/-! ### Conditions on the steps of a run -/

variable (next : σ → ι → σ)

/-- Every step of a run, from a state with an input, satisfies `Q`. -/
def Along (Q : σ → ι → Prop) : σ → List ι → Prop
  | _, [] => True
  | s, i :: is => Q s i ∧ Along Q (next s i) is

instance decidableAlong {Q : σ → ι → Prop} [∀ s i, Decidable (Q s i)] :
    ∀ s is, Decidable (Along next Q s is)
  | _, [] => inferInstanceAs (Decidable True)
  | s, i :: is =>
    have : Decidable (Along next Q (next s i) is) := decidableAlong (next s i) is
    inferInstanceAs (Decidable (Q s i ∧ Along next Q (next s i) is))

theorem along_append (Q : σ → ι → Prop) (s : σ) (is js : List ι) :
    Along next Q s (is ++ js) ↔ Along next Q s is ∧ Along next Q (is.foldl next s) js := by
  induction is generalizing s with
  | nil => exact (and_iff_right trivial).symm
  | cons i is ih => rw [List.cons_append, Along, Along, ih, List.foldl_cons, and_assoc]

/-- **Run rule.**  `ok` is a condition under which a step keeps the invariant. -/
theorem Along.invariant {next : σ → ι → σ} {I : σ → Prop} {ok : σ → ι → Prop}
    (hstep : ∀ s i, I s → ok s i → I (next s i)) {s : σ} (hs : I s) {is : List ι}
    (hok : Along next ok s is) : I (is.foldl next s) := by
  induction is generalizing s with
  | nil => exact hs
  | cons i is ih => exact ih (hstep s i hs hok.1) hok.2

/-- **Condition rule.**  `ok` is the condition under which a step keeps the
invariant, and with it the property `P`. -/
theorem along_iff {I : σ → Prop} {dom : ι → Prop} {ok : σ → ι → Prop} {P : σ → Prop}
    (hI : ∀ s, I s → P s) (hkeep : ∀ s i, I s → dom i → ok s i → I (next s i))
    (hlose : ∀ s i, I s → dom i → ¬ ok s i → ¬ P (next s i)) {s : σ} (hs : I s) {is : List ι}
    (hdom : ∀ i ∈ is, dom i) :
    Along next (fun s i => P (next s i)) s is ↔ Along next ok s is := by
  induction is generalizing s with
  | nil => exact Iff.rfl
  | cons i is ih =>
    have hi : dom i := hdom i (by simp)
    have hrest : ∀ j ∈ is, dom j := fun j hj => hdom j (by simp [hj])
    constructor
    · rintro ⟨hP, hPs⟩
      have hok : ok s i := by
        by_contra hbad
        exact hlose s i hs hi hbad hP
      exact ⟨hok, (ih (hkeep s i hs hi hok) hrest).mp hPs⟩
    · rintro ⟨hok, hoks⟩
      have hs' := hkeep s i hs hi hok
      exact ⟨hI _ hs', (ih hs' hrest).mpr hoks⟩

/-- **Rank rule.**  Unless the machine is done, the inputs in `p` lower the rank, and the
others do not raise it. -/
theorem done_of_rank {next : σ → ι → σ} {I done : σ → Prop} {p : ι → Bool} {rank : σ → ℕ}
    (hI : ∀ s i, I s → I (next s i)) (hdone : ∀ s i, done s → done (next s i))
    (hrank : ∀ s i, I s → ¬ done s → ¬ done (next s i) →
      rank (next s i) + (if p i then 1 else 0) ≤ rank s)
    (hpos : ∀ s, I s → ¬ done s → 0 < rank s) {s : σ} (hs : I s) {is : List ι}
    (hcount : rank s ≤ is.countP p) : done (is.foldl next s) := by
  by_contra hnot
  -- a run that is not done lowers the rank with each input in `p`
  have hrun : I (is.foldl next s) ∧ rank (is.foldl next s) + is.countP p ≤ rank s := by
    clear hcount
    induction is generalizing s with
    | nil => exact ⟨hs, Nat.le_refl _⟩
    | cons i is ih =>
      have hkeep : ∀ t, done t → done (is.foldl next t) := fun t ht =>
        List.foldlRecOn is next ht fun u hu j _ => hdone u j hu
      have hnext : ¬ done (next s i) := fun h => hnot (hkeep _ h)
      have hlow := hrank s i hs (fun h => hnext (hdone s i h)) hnext
      obtain ⟨hinv, hle⟩ := ih (hI s i hs) hnot
      refine ⟨hinv, ?_⟩
      rw [List.foldl_cons, List.countP_cons]
      omega
  have hlow := hpos _ hrun.1 hnot
  omega

end Mealy
