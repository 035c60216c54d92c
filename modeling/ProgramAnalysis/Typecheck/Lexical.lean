import ProgramAnalysis.Lib.Chain
import ProgramAnalysis.Typecheck.Model

/-!
# Typing by lexical scope

What the typechecker decides, without a state: the types of expressions and statements in a
context, where a block extends the context for its own statement.

* `Context`: the meaning of the names at a point; `declare`, `define`, `within`;
* `exprType`, `stmtTypes`: the verdicts;
* `typecheckExpression_toOption`: **the expression checker computes `exprType`** in the context of
  its state.
-/

namespace ProgramAnalysis.Typecheck

open Lib

/-- What the names mean at a point of a program. -/
@[ext] structure Context where
  var : String → Option Ty
  fn : String → Option FunctionTypeSig

namespace Context

/-- The context inside a scope with the given declarations. -/
def declare (Γ : Context) (ds : Declarations) : Context :=
  { Γ with var := fun x => (Declarations.typeOf ds x).or (Γ.var x) }

/-- The context after a function definition. -/
def define (Γ : Context) (f : FunctionDefinition) : Context :=
  { Γ with fn := fun g => if g = f.name then some f.signature else Γ.fn g }

/-- The context inside nested blocks, given by their declarations, innermost first. -/
def within (Γ : Context) (B : List Declarations) : Context := B.foldr (fun ds Δ => Δ.declare ds) Γ

@[simp] theorem declare_var (Γ : Context) (ds : Declarations) (x : String) :
    (Γ.declare ds).var x = (Declarations.typeOf ds x).or (Γ.var x) := rfl

@[simp] theorem declare_fn (Γ : Context) (ds : Declarations) : (Γ.declare ds).fn = Γ.fn := rfl

@[simp] theorem declare_nil (Γ : Context) : Γ.declare [] = Γ := rfl

@[simp] theorem define_var (Γ : Context) (f : FunctionDefinition) : (Γ.define f).var = Γ.var := rfl

@[simp] theorem within_nil (Γ : Context) : Γ.within [] = Γ := rfl

@[simp] theorem within_concat (Γ : Context) (B : List Declarations) (ds : Declarations) :
    Γ.within (B ++ [ds]) = (Γ.declare ds).within B := by
  simp [within]

end Context

/-- The context a state stands for. -/
def Typechecker.context (tc : Typechecker) : Context :=
  ⟨resolve tc.valueEnv, fun f => tc.functionEnv.lookup f⟩

/-! ## Verdicts -/

mutual

/-- The type of an expression, if all of it is well typed. -/
def exprType (Γ : Context) : Expression → Option Ty
  | .empty => some .VOID
  | .num _ => some .INT
  | .var x => Γ.var x
  | .binary _ l r =>
    if exprType Γ l = some .INT ∧ exprType Γ r = some .INT then some .INT else none
  | .functionCall f args =>
    (Γ.fn f).bind fun sig =>
      if argTypes Γ args = sig.parameterTypes.map some then some sig.returnType else none

/-- The types of a list of arguments. -/
def argTypes (Γ : Context) : List Expression → List (Option Ty)
  | [] => []
  | a :: args => exprType Γ a :: argTypes Γ args

end

/-- The condition of a branch: a binary expression with operands of one type. -/
def branchCondition (Γ : Context) : Expression → Bool
  | .binary _ l r => (exprType Γ l).isSome && exprType Γ l == exprType Γ r
  | _ => false

mutual

/-- The types a statement may return, with `NIL` for going on, if all of it is well typed. -/
def stmtTypes (Γ : Context) : Statement → Option (Finset Ty)
  | .skip => some {.NIL}
  | .assignment x e =>
    if (Γ.var x).isSome ∧ Γ.var x = exprType Γ e then some {.NIL} else none
  | .branch c t e =>
    if branchCondition Γ c then
      (stmtTypes Γ t).bind fun T => (stmtTypes Γ e).map fun E => T ∪ E
    else none
  | .loop c b => if exprType Γ c = some .BOOL then stmtTypes Γ b else none
  | .sequence ss => seqTypes Γ ss
  | .block ds s => if (Declarations.names ds).Nodup then stmtTypes (Γ.declare ds) s else none
  | .ret e => (exprType Γ e).map fun T => {T}

/-- The types of a sequence. -/
def seqTypes (Γ : Context) : List Statement → Option (Finset Ty)
  | [] => some ∅
  | s :: ss => (stmtTypes Γ s).bind fun T => (seqTypes Γ ss).map fun U => T ∪ U

end

theorem argTypes_eq_map (Γ : Context) (args : List Expression) :
    argTypes Γ args = args.map (exprType Γ) := by
  induction args with
  | nil => rfl
  | cons a args ih => rw [argTypes, ih, List.map_cons]

theorem branchCondition_iff {Γ : Context} {c : Expression} : branchCondition Γ c = true ↔
    ∃ cls l r T, c = .binary cls l r ∧ exprType Γ l = some T ∧ exprType Γ r = some T := by
  cases c with
  | binary cls l r =>
    simp only [branchCondition, Bool.and_eq_true, beq_iff_eq, Option.isSome_iff_exists]
    constructor
    · rintro ⟨⟨T, hT⟩, h⟩
      exact ⟨cls, l, r, T, rfl, hT, h ▸ hT⟩
    · rintro ⟨_, _, _, T, h, hl, hr⟩
      cases h
      exact ⟨⟨T, hl⟩, hl.trans hr.symm⟩
  | _ => simp [branchCondition]

/-! ## The expression checker -/

theorem toOption_bind {ε α β : Type} (x : Except ε α) (f : α → Except ε β) :
    (x >>= f).toOption = x.toOption.bind fun a => (f a).toOption := by
  cases x <;> rfl

theorem Env.get_toOption {T : Type} (env : Env T) (x : String) :
    (env.get x).toOption = resolve env x := by
  induction env with
  | nil => rfl
  | cons table parent ih =>
    rw [Env.get, resolve_cons]
    cases table.lookup x with
    | some v => rfl
    | none =>
      by_cases hp : parent = []
      · subst hp; rfl
      · simp only [ne_eq, hp, not_false_eq_true, if_true, ih, Option.none_or]

theorem typecheckBinaryExpression_toOption (l r : Except Exn Ty) :
    (typecheckBinaryExpression l r).toOption =
      if l.toOption = some .INT ∧ r.toOption = some .INT then some .INT else none := by
  rcases l with e | T
  · rfl
  · rcases r with e | U
    · cases T <;> rfl
    · cases T <;> cases U <;> rfl

theorem checkArguments_toOption (f : String) {args : List (Except Exn Ty)} {ps : List Ty}
    (h : ps.length = args.length) : (checkArguments f args ps).toOption =
      if args.map Except.toOption = ps.map some then some () else none := by
  induction args generalizing ps with
  | nil =>
    obtain rfl := List.length_eq_zero_iff.mp h
    rfl
  | cons a args ih =>
    cases ps with
    | nil => simp at h
    | cons p ps =>
      rcases a with e | T
      · simp [checkArguments, Except.toOption, bind, Except.bind]
      · by_cases hT : T = p
        · subst hT
          have hlen : ps.length = args.length := by simpa using h
          simpa [checkArguments, Except.toOption, bind, Except.bind, pure, Except.pure] using ih hlen
        · simp [checkArguments, Except.toOption, bind, Except.bind, hT, throw, throwThe,
            MonadExceptOf.throw]

theorem typecheckFunctionCall_toOption (tc : Typechecker) (f : String)
    (args : List (Except Exn Ty)) : (typecheckFunctionCall tc f args).toOption =
      (tc.functionEnv.lookup f).bind fun sig =>
        if args.map Except.toOption = sig.parameterTypes.map some then some sig.returnType
        else none := by
  have htry : (typecheckFunctionCall tc f args).toOption = (tryFunctionCall tc f args).toOption := by
    rw [typecheckFunctionCall]
    split <;> simp_all [Except.toOption]
  rw [htry, tryFunctionCall, toOption_bind, Env.get_toOption, resolve_cons, resolve_nil,
    Option.or_none]
  congr 1
  funext sig
  by_cases hlen : sig.parameterTypes.length = args.length
  · have h := checkArguments_toOption f hlen
    simp only [ne_eq, hlen, not_true_eq_false, if_false]
    rw [toOption_bind, h]
    split_ifs <;> rfl
  · have hne : args.map Except.toOption ≠ sig.parameterTypes.map some := fun he => hlen (by
      simpa using (congrArg List.length he).symm)
    rw [if_neg hne]
    simp [hlen, Except.toOption, bind, Except.bind, throw, throwThe, MonadExceptOf.throw]

theorem argumentChecks_eq_map (tc : Typechecker) (args : List Expression) :
    argumentChecks tc args = args.map (typecheckExpression tc) := by
  induction args with
  | nil => rfl
  | cons a args ih => rw [argumentChecks, ih, List.map_cons]

/-- **The expression checker computes `exprType`.** -/
theorem typecheckExpression_toOption (tc : Typechecker) (e : Expression) :
    (typecheckExpression tc e).toOption = exprType tc.context e := by
  induction e using Expression.ind with
  | empty => rfl
  | num n => rfl
  | var x => exact Env.get_toOption tc.valueEnv x
  | binary c l r ihl ihr =>
    rw [typecheckExpression, typecheckBinaryExpression_toOption, exprType, ihl, ihr]
  | functionCall f args ih =>
    have hargs : args.map (Except.toOption ∘ typecheckExpression tc) =
        args.map (exprType tc.context) := List.map_congr_left ih
    rw [typecheckExpression, typecheckFunctionCall_toOption, exprType, argumentChecks_eq_map,
      argTypes_eq_map, List.map_map, hargs]
    rfl

theorem typecheckExpression_ok_iff {tc : Typechecker} {e : Expression} {T : Ty} :
    typecheckExpression tc e = .ok T ↔ exprType tc.context e = some T := by
  rw [← typecheckExpression_toOption, toOption_eq_some_iff]

end ProgramAnalysis.Typecheck
