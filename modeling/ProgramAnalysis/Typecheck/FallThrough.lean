import ProgramAnalysis.Typecheck.Returns

/-!
# Falling through

A statement that goes on without a return should have `NIL` among its types. Loops and empty sequences
go on without contributing one.

* `Statement.mayComplete`: the statement may complete without returning;
* `NilCovers`: then `NIL` is among its types;
* `Statement.FallsSilently`, **`nilCovers_iff`**: it is, unless nothing in the statement contributes a
  `NIL`;
* `hasStep_of_mayComplete`, `nilCovers_of_passesOn`: without loops and empty sequences, something does.
-/

namespace ProgramAnalysis.Typecheck

open Lib

mutual

/-- The statement may complete without returning. -/
def Statement.mayComplete : Statement → Bool
  | .skip => true
  | .assignment _ _ => true
  | .branch _ thenStatement elseStatement => thenStatement.mayComplete || elseStatement.mayComplete
  | .loop _ _ => true
  | .sequence statements => allMayComplete statements
  | .block _ statement => statement.mayComplete
  | .ret _ => false

def allMayComplete : List Statement → Bool
  | [] => true
  | s :: ss => s.mayComplete && allMayComplete ss

end

/-- If the statement may complete without returning and its check returns, `NIL` is among its types. -/
def NilCovers (σ : Typechecker) (s : Statement) : Prop :=
  s.mayComplete = true → ∀ types, (typecheckStatement s σ).result = .ok types → .NIL ∈ types

/-- The statement is well typed and may complete without returning, and it has in it no assignment, no
skip and no return of a `NIL`. -/
structure Statement.FallsSilently (Γ : Context) (s : Statement) : Prop where
  completes : s.mayComplete = true
  constraints : s.ConstraintsHold Γ
  noStep : ¬ s.HasStep
  noReturn : ¬ s.HasReturn Γ .NIL

/-- **Falling through.** `NIL` covers the ways through a statement exactly when something in it
contributes a `NIL`, on whatever path. -/
theorem nilCovers_iff (σ : Typechecker) (s : Statement) :
    NilCovers σ s ↔ ¬ s.FallsSilently σ.context := by
  constructor
  · rintro hcovers ⟨hcompletes, hconstraints, hstep, hreturn⟩
    obtain ⟨types, htypes⟩ := (typecheckStatement_accepts_iff σ s).mpr hconstraints
    rcases (mem_types_iff htypes .NIL).mp (hcovers hcompletes types htypes) with hnil | ⟨-, hnil⟩
    · exact hreturn hnil
    · exact hstep hnil
  · intro hsilent hcompletes types htypes
    rw [mem_types_iff htypes]
    by_contra hnil
    rw [not_or] at hnil
    refine hsilent ⟨hcompletes, (typecheckStatement_accepts_iff σ s).mp ⟨types, htypes⟩, ?_, hnil.1⟩
    exact fun hstep => hnil.2 ⟨rfl, hstep⟩

/-! ## Where no `NIL` is missed -/

/-- Neither a loop nor an empty sequence. -/
def Statement.passesOn : Statement → Bool
  | .loop _ _ => false
  | .sequence [] => false
  | _ => true

theorem Statement.HasStep.of_occurs {s t : Statement} (ht : t.HasStep)
    (h : ∀ B u, t.Occurs B u → ∃ B', s.Occurs B' u) : s.HasStep := by
  obtain ⟨B, u, ho, hu⟩ := ht
  obtain ⟨B', ho'⟩ := h B u ho
  exact ⟨B', u, ho', hu⟩

/-- **Without loops and empty sequences**, what may complete has an assignment or a skip in it. -/
theorem hasStep_of_mayComplete {s : Statement} (h : s.mayComplete = true)
    (hpasses : ∀ B t, s.Occurs B t → t.passesOn = true) : s.HasStep := by
  induction s using Statement.ind with
  | skip => exact ⟨[], _, .refl _, .inl rfl⟩
  | assignment x e => exact ⟨[], _, .refl _, .inr ⟨x, e, rfl⟩⟩
  | branch c t e iht ihe =>
    rw [Statement.mayComplete, Bool.or_eq_true] at h
    rcases h with h | h
    · have hstep := iht h fun B u ho => hpasses B u (.thenStatement ho)
      exact hstep.of_occurs fun B u ho => ⟨B, .thenStatement ho⟩
    · have hstep := ihe h fun B u ho => hpasses B u (.elseStatement ho)
      exact hstep.of_occurs fun B u ho => ⟨B, .elseStatement ho⟩
  | loop c b ih => cases hpasses _ _ (.refl _)
  | sequence ss ih =>
    cases ss with
    | nil => cases hpasses _ _ (.refl _)
    | cons s ss =>
      have hfirst : s ∈ s :: ss := List.mem_cons_self
      rw [Statement.mayComplete, allMayComplete, Bool.and_eq_true] at h
      have hstep := ih s hfirst h.1 fun B u ho => hpasses B u (.element hfirst ho)
      exact hstep.of_occurs fun B u ho => ⟨B, .element hfirst ho⟩
  | block ds s ih =>
    have hstep := ih h fun B u ho => hpasses _ u (.inside ho)
    exact hstep.of_occurs fun B u ho => ⟨_, .inside ho⟩
  | ret e => cases h

/-- Only loops and empty sequences go on without a `NIL`. -/
theorem nilCovers_of_passesOn (σ : Typechecker) {s : Statement}
    (hpasses : ∀ B t, s.Occurs B t → t.passesOn = true) : NilCovers σ s :=
  (nilCovers_iff σ s).mpr fun h => h.noStep (hasStep_of_mayComplete h.completes hpasses)

/-- `INT f(BOOL b) { while (b) return 1; }` is accepted, although the loop may run no round; and an empty
sequence has no types at all. -/
theorem zero_rounds_not_covered :
    let body : BlockStatement := ⟨[], .loop (.var "b") (.ret (.num 1))⟩
    let f : FunctionDefinition := ⟨"f", .INT, [⟨"b", .BOOL⟩], body⟩
    let σ : Typechecker := ⟨[Declarations.into f.parameters ∅, ∅], ∅⟩
    (typecheckFunctionDef f Typechecker.new).result = .ok () ∧
      body.toStatement.mayComplete = true ∧
      (typecheckStatement body.toStatement σ).result = .ok {.INT} ∧ ¬ NilCovers σ body.toStatement ∧
      (typecheckStatement (.sequence []) Typechecker.new).result = .ok ∅ ∧
      ¬ NilCovers Typechecker.new (.sequence []) := by
  refine ⟨rfl, rfl, rfl, fun h => ?_, rfl, fun h => ?_⟩
  · exact absurd (h rfl _ rfl) (by decide)
  · exact absurd (h rfl _ rfl) (by decide)

end ProgramAnalysis.Typecheck
