import Mathlib.Data.List.Induction

/-!
# Runs of a labelled step

* `run`: the state after a list of actions;
* `Always`, `EachStep`: a property of every state reached; a condition on every step taken;
* **`always_iff_eachStep`**: where a step from a good state keeps it good exactly under a condition,
  a run stays good exactly when each of its steps meets the condition;
* **`always_and_eachStep_iff`**: the same where a step also has to be good itself.
-/

namespace Lib

variable {σ α : Type}

/-- The state after a run. -/
def run (step : α → σ → σ) (s : σ) (as : List α) : σ := as.foldl (fun s a => step a s) s

/-- `P` holds in every state of the run, the first one included. -/
def Always (step : α → σ → σ) (P : σ → Prop) (s : σ) (as : List α) : Prop :=
  ∀ done rest, as = done ++ rest → P (run step s done)

/-- `C` holds at every step of the run, of the action and the state before it. -/
def EachStep (step : α → σ → σ) (C : α → σ → Prop) (s : σ) (as : List α) : Prop :=
  ∀ done a rest, as = done ++ a :: rest → C a (run step s done)

section Run

variable {step : α → σ → σ} {P J : σ → Prop} {C : α → σ → Prop} {s : σ} {as : List α}

@[simp] theorem run_nil (step : α → σ → σ) (s : σ) : run step s [] = s := rfl

theorem run_concat (step : α → σ → σ) (s : σ) (as : List α) (a : α) :
    run step s (as ++ [a]) = step a (run step s as) := by
  rw [run, List.foldl_append]
  rfl

theorem Always.last (h : Always step P s as) : P (run step s as) :=
  h as [] (List.append_nil as).symm

theorem Always.next {done rest : List α} {a : α} (h : Always step P s as)
    (has : as = done ++ a :: rest) : P (run step s (done ++ [a])) :=
  h (done ++ [a]) rest (by rw [has, List.append_assoc, List.singleton_append])

/-- What a good run preserves holds all along it. -/
theorem Always.invariant (h : Always step P s as) (hs : J s)
    (hstep : ∀ a s, J s → P s → P (step a s) → J (step a s)) : Always step J s as := by
  intro done
  induction done using List.reverseRecOn with
  | nil => exact fun _ _ => hs
  | append_singleton done a ih =>
    intro rest has
    have has' : as = done ++ a :: rest := by rw [has, List.append_assoc, List.singleton_append]
    have hnext := h.next has'
    rw [run_concat] at hnext ⊢
    exact hstep a _ (ih (a :: rest) has') (h done (a :: rest) has') hnext

/-- **A run stays good, by steps that are good, exactly when each of its steps meets the condition.**
`J` is what good runs preserve beside `P`. -/
theorem always_and_eachStep_iff {Q : α → σ → Prop} (hs : J s) (hp : P s)
    (hinv : ∀ a s, J s → P s → P (step a s) → J (step a s))
    (hstep : ∀ a s, J s → P s → (P (step a s) ∧ Q a s ↔ C a s)) :
    Always step P s as ∧ EachStep step Q s as ↔ EachStep step C s as := by
  constructor
  · rintro ⟨h, hQ⟩ done a rest has
    have hJ := h.invariant hs hinv done (a :: rest) has
    have hnext := h.next has
    rw [run_concat] at hnext
    exact (hstep a _ hJ (h done (a :: rest) has)).mp ⟨hnext, hQ done a rest has⟩
  · intro h
    -- `J` goes along in the induction, as `hstep` needs it
    have hboth : Always step (fun s => J s ∧ P s) s as := by
      intro done
      induction done using List.reverseRecOn with
      | nil => exact fun _ _ => ⟨hs, hp⟩
      | append_singleton done a ih =>
        intro rest has
        have has' : as = done ++ a :: rest := by rw [has, List.append_assoc, List.singleton_append]
        obtain ⟨hJ, hP⟩ := ih (a :: rest) has'
        have hnext := ((hstep a _ hJ hP).mpr (h done a rest has')).1
        rw [run_concat]
        exact ⟨hinv a _ hJ hP hnext, hnext⟩
    refine ⟨fun done rest has => (hboth done rest has).2, fun done a rest has => ?_⟩
    obtain ⟨hJ, hP⟩ := hboth done (a :: rest) has
    exact ((hstep a _ hJ hP).mpr (h done a rest has)).2

/-- **A run stays good exactly when each of its steps meets the condition.** -/
theorem always_iff_eachStep (hs : J s) (hp : P s)
    (hinv : ∀ a s, J s → P s → P (step a s) → J (step a s))
    (hstep : ∀ a s, J s → P s → (P (step a s) ↔ C a s)) :
    Always step P s as ↔ EachStep step C s as := by
  have h : Always step P s as ∧ EachStep step (fun _ _ => True) s as ↔ EachStep step C s as :=
    always_and_eachStep_iff hs hp hinv
      fun a s hJ hP => (iff_of_eq (and_true _)).trans (hstep a s hJ hP)
  exact ⟨fun hP => h.mp ⟨hP, fun _ _ _ _ => trivial⟩, fun hC => (h.mpr hC).1⟩

end Run

end Lib
