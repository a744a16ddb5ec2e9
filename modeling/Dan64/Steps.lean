/-
Dan64/Steps.lean

Runs of a step relation, with the states in which the steps are taken.

`Steps r s us t` is a run from `s` to `t`; `us` are the states that a step was
taken from, in order, so that a condition on every step of a run is a condition
on the members of `us`.  Nothing here knows what the steps are.

* `Steps.invariant` is the invariant rule: what a step from a good state keeps
  holds in every state of a run through good states.
* `Steps.map` is the simulation rule for a function, and `Steps.lift` goes the other
  way: a run of the image comes from a run.
-/
import Mathlib.Data.List.Basic

/-- A run of `r`. -/
inductive Steps {σ : Type*} (r : σ → σ → Prop) : σ → List σ → σ → Prop
  | nil (s : σ) : Steps r s [] s
  | cons {s t v : σ} {us : List σ} : r s t → Steps r t us v → Steps r s (s :: us) v

namespace Steps

variable {σ τ : Type*} {r : σ → σ → Prop} {q : τ → τ → Prop} {s t v : σ} {us vs : List σ}

theorem one (h : r s t) : Steps r s [s] t := .cons h (.nil t)

/-- A run can be cut between any two of its steps. -/
theorem split (h : Steps r s (us ++ vs) v) : ∃ t, Steps r s us t ∧ Steps r t vs v := by
  induction us generalizing s with
  | nil => exact ⟨s, .nil s, h⟩
  | cons u us ih =>
    rw [List.cons_append] at h
    rcases h with - | ⟨hstep, hrun⟩
    obtain ⟨t, hleft, hright⟩ := ih hrun
    exact ⟨t, .cons hstep hleft, hright⟩

/-- The last step of a run. -/
theorem eq_or_last (h : Steps r s us v) :
    us = [] ∧ v = s ∨ ∃ vs u, us = vs ++ [u] ∧ Steps r s vs u ∧ r u v := by
  rcases List.eq_nil_or_concat' us with rfl | ⟨vs, u, rfl⟩
  · cases h
    exact .inl ⟨rfl, rfl⟩
  · obtain ⟨t, hleft, hright⟩ := h.split
    cases hright with
    | cons hstep hrun =>
      cases hrun
      exact .inr ⟨vs, u, rfl, hleft, hstep⟩

/-- A step was taken from every state that is listed. -/
theorem exists_step (h : Steps r s us v) {u : σ} (hu : u ∈ us) : ∃ t, r u t := by
  induction h with
  | nil => simp at hu
  | cons hstep _ ih =>
    rcases List.mem_cons.mp hu with rfl | hu
    · exact ⟨_, hstep⟩
    · exact ih hu

/-- **Invariant rule.** -/
theorem invariant {I G : σ → Prop} (hstep : ∀ s t, I s → G s → r s t → I t)
    (h : Steps r s us v) (hok : ∀ u ∈ us, G u) (hs : I s) : I v ∧ ∀ u ∈ us, I u := by
  induction h with
  | nil => exact ⟨hs, by simp⟩
  | @cons s t v us hst _ ih =>
    have ht : I t := hstep s t hs (hok s (by simp)) hst
    obtain ⟨hv, hall⟩ := ih (fun u hu => hok u (List.mem_cons_of_mem _ hu)) ht
    refine ⟨hv, fun u hu => ?_⟩
    rcases List.mem_cons.mp hu with rfl | hu
    · exact hs
    · exact hall u hu

/-- **Simulation rule.**  Every step from a good state is a step of its image. -/
theorem map {f : σ → τ} {G : σ → Prop} (hstep : ∀ s t, G s → r s t → q (f s) (f t))
    (h : Steps r s us v) (hok : ∀ u ∈ us, G u) : Steps q (f s) (us.map f) (f v) := by
  induction h with
  | nil s => exact .nil (f s)
  | @cons s t v us hst _ ih =>
    refine .cons (hstep s t (hok s (by simp)) hst) (ih fun u hu => hok u ?_)
    exact List.mem_cons_of_mem _ hu

/-- A run of the image is the image of a run. -/
theorem lift {f : σ → τ} {G : τ → Prop}
    (hstep : ∀ s b, G (f s) → q (f s) b → ∃ t, r s t ∧ f t = b) {as : List τ} {b : τ}
    (h : Steps q (f s) as b) (hok : ∀ a ∈ as, G a) :
    ∃ us v, Steps r s us v ∧ us.map f = as ∧ f v = b := by
  induction as generalizing s with
  | nil =>
    cases h
    exact ⟨[], s, .nil s, rfl, rfl⟩
  | cons a as ih =>
    cases h with
    | cons hab hrun =>
      obtain ⟨t, hst, rfl⟩ := hstep s _ (hok _ (by simp)) hab
      obtain ⟨us, v, hus, hmap, hv⟩ := ih hrun fun a ha => hok a (List.mem_cons_of_mem _ ha)
      exact ⟨s :: us, v, .cons hst hus, by rw [List.map_cons, hmap], hv⟩

end Steps
