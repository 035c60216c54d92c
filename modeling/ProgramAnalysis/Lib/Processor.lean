import Mathlib.Data.Set.Defs
import Mathlib.Logic.Relation

/-!
# Processors and planted traps

A processor executes instruction after instruction, out of a memory that it does not write.

* `Executed`, `Processor`: what becomes of an instruction; how a processor executes, and what it reads
  for that;
* `Goes`, `Comes`, `Rests`: it goes on after an instruction; where a run comes to, and how it rests;
* `Before`, `First`, `RestsBefore`: runs that go no further than a set of states;
* **`rests_iff_of_traps`**: on a memory that was patched to trap in these states, a run rests where the
  run on the memory itself first comes to one of them, or where that one rests before.
-/

namespace Lib

open Relation

/-- What becomes of an instruction: the processor goes on from a state, stops in a state with a report,
or ends with a report. -/
inductive Executed (σ ω ε : Type)
  | goes (s : σ)
  | stops (s : σ) (report : ω)
  | ends (report : ε)
  deriving DecidableEq

namespace Executed

variable {σ ω ε : Type}

/-- The state afterwards, unless the processor has ended. -/
def state : Executed σ ω ε → Option σ
  | goes s => some s
  | stops s _ => some s
  | ends _ => none

/-- The processor does not go on. -/
def AtRest (o : Executed σ ω ε) : Prop := ∀ s, o ≠ goes s

theorem atRest_stops (s : σ) (report : ω) : AtRest (stops s report : Executed σ ω ε) := by
  intro t h
  cases h

theorem of_state {o : Executed σ ω ε} {s : σ} (h : o.state = some s) :
    o = goes s ∨ ∃ report, o = stops s report := by
  cases o with
  | goes t =>
    cases h
    exact .inl rfl
  | stops t report =>
    cases h
    exact .inr ⟨report, rfl⟩
  | ends report => cases h

theorem of_no_state {o : Executed σ ω ε} (h : o.state = none) : ∃ report, o = ends report := by
  cases o with
  | goes t => cases h
  | stops t report => cases h
  | ends report => exact ⟨report, rfl⟩

end Executed

/-- A processor, with the addresses it reads for an instruction: execution depends on nothing else of
the memory. -/
structure Processor (A V σ ω ε : Type) where
  exec : (A → V) → σ → Executed σ ω ε
  reads : (A → V) → σ → Set A
  exec_congr : ∀ {m m' : A → V} {s : σ}, (∀ a ∈ reads m s, m' a = m a) → exec m' s = exec m s

namespace Processor

variable {A V σ ω ε : Type} (P : Processor A V σ ω ε) (B : σ → Prop) (m : A → V)

/-- One instruction, after which the processor goes on. -/
def Goes (s t : σ) : Prop := P.exec m s = .goes t

/-- One instruction, after which the processor is in a state, stopped or not. -/
def Moves (s t : σ) : Prop := (P.exec m s).state = some t

/-- The processor comes to a state: it goes on up to there, and may be stopped there with a report. -/
def Comes (s t : σ) : Prop :=
  ∃ u, ReflTransGen (P.Goes m) s u ∧ (u = t ∨ ∃ report, P.exec m u = .stops t report)

/-- The run from a state rests with an instruction that does `o`. -/
def Rests (s : σ) (o : Executed σ ω ε) : Prop :=
  ∃ t, ReflTransGen (P.Goes m) s t ∧ P.exec m t = o ∧ o.AtRest

/-- One instruction outside of `B`, after which the processor goes on. -/
def Before (s t : σ) : Prop := ¬ B s ∧ P.Goes m s t

/-- The run from `s` comes to `B`, for the first time in `t`. -/
def First (s t : σ) : Prop := ReflTransGen (P.Before B m) s t ∧ B t

/-- The run from a state rests before it comes to `B`. -/
def RestsBefore (s : σ) (o : Executed σ ω ε) : Prop :=
  ∃ t, ReflTransGen (P.Before B m) s t ∧ ¬ B t ∧ P.exec m t = o ∧ o.AtRest

/-- Up to `B`, the run from a state reads nothing that `m'` has another value for. -/
def Intact (m' : A → V) (s : σ) : Prop :=
  ∀ t, ReflTransGen (P.Before B m) s t → ¬ B t → ∀ a ∈ P.reads m t, m' a = m a

section Runs

variable {P B m} {s t u : σ} {o : Executed σ ω ε}

theorem goes_of_before (h : ReflTransGen (P.Before B m) s t) : ReflTransGen (P.Goes m) s t :=
  ReflTransGen.mono (fun _ _ hstep => hstep.2) _ _ h

theorem Comes.of_goes (h : ReflTransGen (P.Goes m) s t) : P.Comes m s t := ⟨t, h, .inl rfl⟩

/-- One more instruction, which may stop the processor. -/
theorem Comes.of_state (h : ReflTransGen (P.Goes m) s u) (ht : (P.exec m u).state = some t) :
    P.Comes m s t := by
  rcases Executed.of_state ht with hgoes | ⟨report, hstops⟩
  · exact .of_goes (h.tail hgoes)
  · exact ⟨u, h, .inr ⟨report, hstops⟩⟩

end Runs

/-! ## Traps -/

section Traps

variable {P B m} {m' : A → V} {s t : σ} {o : Executed σ ω ε} {trap : σ → Executed σ ω ε}

/-- **A run that goes on** does so on the patched memory as on the memory itself, outside of `B`. -/
theorem goes_iff_before (hrest : ∀ t, (trap t).AtRest) (htrap : ∀ t, B t → P.exec m' t = trap t)
    (h : P.Intact B m m' s) : ReflTransGen (P.Goes m') s t ↔ ReflTransGen (P.Before B m) s t := by
  constructor
  · intro hrun
    induction hrun with
    | refl => exact .refl
    | @tail t u _ hstep ih =>
      have hB : ¬ B t := fun hB => hrest t u ((htrap t hB).symm.trans hstep)
      exact ih.tail ⟨hB, (P.exec_congr (h t ih hB)).symm.trans hstep⟩
  · intro hrun
    induction hrun with
    | refl => exact .refl
    | @tail t u hbefore hstep ih =>
      exact ih.tail ((P.exec_congr (h t hbefore hstep.1)).trans hstep.2)

/-- **Planted traps.** -/
theorem rests_iff_of_traps (hrest : ∀ t, (trap t).AtRest) (htrap : ∀ t, B t → P.exec m' t = trap t)
    (h : P.Intact B m m' s) :
    P.Rests m' s o ↔ (∃ t, P.First B m s t ∧ o = trap t) ∨ P.RestsBefore B m s o := by
  constructor
  · rintro ⟨t, hrun, hexec, ho⟩
    have hbefore := (goes_iff_before hrest htrap h).mp hrun
    by_cases hB : B t
    · exact .inl ⟨t, ⟨hbefore, hB⟩, hexec.symm.trans (htrap t hB)⟩
    · exact .inr ⟨t, hbefore, hB, (P.exec_congr (h t hbefore hB)).symm.trans hexec, ho⟩
  · rintro (⟨t, ⟨hbefore, hB⟩, rfl⟩ | ⟨t, hbefore, hB, hexec, ho⟩)
    · exact ⟨t, (goes_iff_before hrest htrap h).mpr hbefore, htrap t hB, hrest t⟩
    · have hsame := P.exec_congr (h t hbefore hB)
      exact ⟨t, (goes_iff_before hrest htrap h).mpr hbefore, hsame.trans hexec, ho⟩

end Traps

end Processor

end Lib
