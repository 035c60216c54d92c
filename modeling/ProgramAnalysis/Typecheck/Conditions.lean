import ProgramAnalysis.Typecheck.Booleans

/-!
# Conditions of branches and loops

A branch looks at the operands of its condition, a loop at the type of it.

* `JudgedAlike`: a branch with two equal arms and a loop are accepted alike;
* `Expression.Decides`: what one of the two accepts as its condition;
* `accepts_branch_iff`, `accepts_loop_iff`, `not_accepts_both`: no condition is accepted by both;
* **`judgedAlike_iff`**: they agree only on conditions that both reject.
-/

namespace ProgramAnalysis.Typecheck

open Lib

/-- The branch on `c` with both arms `s` and the loop on `c` around `s` are accepted alike, with the same
types. -/
def JudgedAlike (σ : Typechecker) (c : Expression) (s : Statement) : Prop :=
  ∀ types, (typecheckStatement (.branch c s s) σ).result = .ok types ↔
    (typecheckStatement (.loop c s) σ).result = .ok types

/-- A binary expression with operands of one type, or a variable or call of type `BOOL`. -/
def Expression.Decides (σ : Typechecker) : Expression → Prop
  | .binary _ left right =>
    ∃ T, typecheckExpression σ left = .ok T ∧ typecheckExpression σ right = .ok T
  | .var x => σ.valueEnv.get x = .ok .BOOL
  | .functionCall f args => ∃ sig, σ.functionEnv.lookup f = some sig ∧ sig.returnType = .BOOL ∧
      ArgumentsFit σ args sig.parameterTypes
  | _ => False

section Conditions

variable {σ : Typechecker} {c : Expression} {s : Statement}

/-- The argument checks of a call. -/
theorem argumentsFit_iff {args : List Expression} {ps : List Ty} :
    ArgumentsFit σ args ps ↔ argTypes σ.context args = ps.map some := by
  rw [argTypes_eq_map, map_eq_map_some_iff]
  exact forall₂_congr_mem fun a _ T => typecheckExpression_ok_iff

theorem accepts_branch_iff (h : Accepts σ s) :
    Accepts σ (.branch c s s) ↔ branchCondition σ.context c = true := by
  rw [accepts_iff] at h ⊢
  obtain ⟨types, htypes⟩ := Option.isSome_iff_exists.mp h
  rw [stmtTypes, htypes]
  split_ifs with hc
  · exact iff_of_true rfl hc
  · exact iff_of_false Bool.false_ne_true hc

theorem accepts_loop_iff (h : Accepts σ s) :
    Accepts σ (.loop c s) ↔ exprType σ.context c = some .BOOL := by
  rw [accepts_iff] at h ⊢
  rw [stmtTypes]
  split_ifs with hc
  · exact iff_of_true h hc
  · exact iff_of_false Bool.false_ne_true hc

/-- No binary expression is a `BOOL`. -/
theorem exprType_ne_bool_of_branchCondition (h : branchCondition σ.context c = true) :
    exprType σ.context c ≠ some .BOOL := by
  obtain ⟨cls, l, r, T, rfl, -, -⟩ := branchCondition_iff.mp h
  intro hbool
  cases (exprType_eq_some_iff.mp hbool).2

/-- **No condition is accepted by both.** -/
theorem not_accepts_both (h : Accepts σ s) :
    ¬ (Accepts σ (.branch c s s) ∧ Accepts σ (.loop c s)) := by
  rw [accepts_branch_iff h, accepts_loop_iff h]
  exact fun hboth => exprType_ne_bool_of_branchCondition hboth.1 hboth.2

theorem decides_iff :
    c.Decides σ ↔ branchCondition σ.context c = true ∨ exprType σ.context c = some .BOOL := by
  cases c with
  | empty => exact iff_of_false id (by simp [branchCondition, exprType])
  | num n => exact iff_of_false id (by simp [branchCondition, exprType])
  | var x =>
    have hbranch : ¬ branchCondition σ.context (.var x) = true := by simp [branchCondition]
    rw [or_iff_right hbranch]
    exact typecheckExpression_ok_iff (e := .var x)
  | binary cls l r =>
    have hbool : exprType σ.context (.binary cls l r) ≠ some .BOOL := fun h => by
      cases (exprType_eq_some_iff.mp h).2
    rw [or_iff_left hbool, branchCondition_iff]
    simp only [Expression.Decides, typecheckExpression_ok_iff]
    constructor
    · rintro ⟨T, hl, hr⟩
      exact ⟨cls, l, r, T, rfl, hl, hr⟩
    · rintro ⟨_, _, _, T, hc, hl, hr⟩
      cases hc
      exact ⟨T, hl, hr⟩
  | functionCall f args =>
    have hbranch : ¬ branchCondition σ.context (.functionCall f args) = true := by
      simp [branchCondition]
    rw [or_iff_right hbranch, exprType, Option.bind_eq_some_iff]
    refine exists_congr fun sig => and_congr_right fun _ => ?_
    rw [Option.ite_none_right_eq_some, argumentsFit_iff, Option.some.injEq]
    exact And.comm

end Conditions

/-- **Branch and loop conditions.** Around an accepted statement, the branch and the loop are judged
alike exactly when the condition is for neither of them. -/
theorem judgedAlike_iff {σ : Typechecker} {s : Statement} (h : Accepts σ s) (c : Expression) :
    JudgedAlike σ c s ↔ ¬ c.Decides σ := by
  rw [decides_iff, ← accepts_branch_iff h, ← accepts_loop_iff h]
  constructor
  · rintro halike (⟨types, hbranch⟩ | ⟨types, hloop⟩)
    · exact not_accepts_both h ⟨⟨types, hbranch⟩, types, (halike types).mp hbranch⟩
    · exact not_accepts_both h ⟨⟨types, (halike types).mpr hloop⟩, types, hloop⟩
  · intro hneither types
    exact iff_of_false (fun hbranch => hneither (.inl ⟨types, hbranch⟩))
      fun hloop => hneither (.inr ⟨types, hloop⟩)

/-- A number is a condition for neither. -/
theorem judgedAlike_number :
    JudgedAlike Typechecker.new (.num 1) .skip ↔ ¬ Expression.Decides Typechecker.new (.num 1) :=
  judgedAlike_iff ⟨{.NIL}, rfl⟩ (.num 1)

/-- `1 == 1` is a condition of branches only, a `BOOL` variable one of loops only. -/
theorem conditions_judged_apart :
    let c : Expression := .binary .EqualExpression (.num 1) (.num 1)
    let σ : Typechecker := ⟨[Declarations.into [⟨"b", .BOOL⟩] ∅], ∅⟩
    (typecheckStatement .skip σ).result = .ok {.NIL} ∧
      (typecheckStatement (.branch c .skip .skip) σ).result = .ok {.NIL} ∧
      (typecheckStatement (.loop c .skip) σ).result =
        .error (.cstring "Typechecker::typecheckLoop: Condition is not of type BOOL!") ∧
      (typecheckStatement (.branch (.var "b") .skip .skip) σ).result = .error .badCast ∧
      (typecheckStatement (.loop (.var "b") .skip) σ).result = .ok {.NIL} ∧
      ¬ JudgedAlike σ c .skip ∧ ¬ JudgedAlike σ (.var "b") .skip := by
  refine ⟨rfl, rfl, rfl, rfl, rfl, fun h => ?_, fun h => ?_⟩
  · cases (h {.NIL}).mp rfl
  · cases (h {.NIL}).mpr rfl

end ProgramAnalysis.Typecheck
