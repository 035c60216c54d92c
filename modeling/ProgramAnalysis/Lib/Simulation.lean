import Mathlib.Data.List.Induction

/-!
# Runs of a labelled relation

* `Trace`: the runs of a relation between states, with the labels of their steps;
* `Guarded`: in every run with these labels, every step meets a condition on its label and the state
  before it;
* **`Trace.image`**, **`trace_image_iff`**: where the steps that meet the condition are, under a map of
  the states, the steps of another relation, so are the runs.
-/

namespace Lib

variable {σ τ α : Type}

/-- A run from a state to another one, and the labels of its steps. -/
inductive Trace (R : σ → α → σ → Prop) (s : σ) : List α → σ → Prop
  | nil : Trace R s [] s
  | concat {t u : σ} {as : List α} {a : α} : Trace R s as t → R t a u → Trace R s (as ++ [a]) u

/-- Every step of a run from `s` with the labels `as` meets the condition `C`. -/
def Guarded (R : σ → α → σ → Prop) (C : α → σ → Prop) (s : σ) (as : List α) : Prop :=
  ∀ done a rest t, as = done ++ a :: rest → Trace R s done t → C a t

section Trace

variable {R : σ → α → σ → Prop} {S : τ → α → τ → Prop} {C : α → σ → Prop} {I : σ → Prop}
  {f : σ → τ} {s t : σ} {as : List α} {a : α}

theorem Trace.nil_cases (h : Trace R s [] t) : t = s := by
  generalize hbs : ([] : List α) = bs at h
  cases h with
  | nil => rfl
  | concat => simp at hbs

theorem Trace.concat_cases (h : Trace R s (as ++ [a]) t) : ∃ u, Trace R s as u ∧ R u a t := by
  generalize hbs : as ++ [a] = bs at h
  cases h with
  | nil => simp at hbs
  | @concat u _ cs b hcs hb =>
    obtain ⟨rfl, hab⟩ := List.append_inj' hbs rfl
    cases hab
    exact ⟨u, hcs, hb⟩

/-- What every step keeps holds at the end of a run. -/
theorem Trace.keeps (hstep : ∀ s a t, R s a t → I s → I t) (h : Trace R s as t) (hs : I s) : I t := by
  induction h with
  | nil => exact hs
  | concat _ hlast ih => exact hstep _ _ _ hlast ih

theorem Guarded.prefix (h : Guarded R C s (as ++ [a])) : Guarded R C s as := by
  intro done b rest t has
  exact h done b (rest ++ [a]) t (by rw [has, List.append_assoc, List.cons_append])

theorem Guarded.and {D : α → σ → Prop} (hC : Guarded R C s as) (hD : Guarded R D s as) :
    Guarded R (fun a t => C a t ∧ D a t) s as := fun done a rest t has ht =>
  ⟨hC done a rest t has ht, hD done a rest t has ht⟩

theorem Guarded.last (h : Guarded R C s (as ++ [a])) (ht : Trace R s as t) : C a t :=
  h as a [] t rfl ht

/-- **A run whose steps meet the condition is a run of the other relation.** -/
theorem Trace.image (hstep : ∀ s a t, I s → C a s → R s a t → S (f s) a (f t) ∧ I t) (hs : I s)
    (h : Trace R s as t) (hC : Guarded R C s as) : Trace S (f s) as (f t) ∧ I t := by
  induction h with
  | nil => exact ⟨.nil, hs⟩
  | concat hdone hlast ih =>
    obtain ⟨htrace, hI⟩ := ih hC.prefix
    obtain ⟨hS, hI'⟩ := hstep _ _ _ hI (hC.last hdone) hlast
    exact ⟨htrace.concat hS, hI'⟩

/-- **The runs with these labels are those of the other relation.** -/
theorem trace_image_iff (hstep : ∀ s a t, I s → C a s → R s a t → S (f s) a (f t) ∧ I t)
    (hback : ∀ s a u, I s → C a s → S (f s) a u → ∃ t, R s a t ∧ f t = u) (hs : I s)
    (hC : Guarded R C s as) (u : τ) :
    (∃ t, Trace R s as t ∧ f t = u) ↔ Trace S (f s) as u := by
  constructor
  · rintro ⟨t, h, rfl⟩
    exact (h.image hstep hs hC).1
  · intro h
    induction as using List.reverseRecOn generalizing u with
    | nil => exact ⟨s, .nil, h.nil_cases.symm⟩
    | append_singleton as a ih =>
      obtain ⟨v, hv, hlast⟩ := h.concat_cases
      obtain ⟨t, ht, rfl⟩ := ih hC.prefix v hv
      obtain ⟨w, hw, rfl⟩ := hback t a u (ht.image hstep hs hC.prefix).2 (hC.last ht) hlast
      exact ⟨w, ht.concat hw, rfl⟩

end Trace

end Lib
