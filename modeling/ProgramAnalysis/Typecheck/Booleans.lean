import ProgramAnalysis.Typecheck.Returns

/-!
# Where a `BOOL` is wanted

The positions of an expression that ask for a `BOOL`, and what the classes of binary expressions make
of them.

* `AcceptedAsBool`, `RejectedAsBool`: an expression has type `BOOL` and is accepted in each of these
  positions; it has type `INT` and is accepted in none;
* `BinaryClass.Relational`, `BinaryClass.Arithmetic`, `RelationalAreBoolean`: what the two kinds of
  operators are for;
* `rejectedAsBool_of_type`, **`relational_never_boolean`**: all classes are checked alike, as integers.
-/

namespace ProgramAnalysis.Typecheck

open Lib

/-- The statement is accepted. -/
def Accepts (σ : Typechecker) (s : Statement) : Prop :=
  ∃ types, (typecheckStatement s σ).result = .ok types

/-- The arguments have the types of the parameters. -/
def ArgumentsFit (σ : Typechecker) (args : List Expression) (ps : List Ty) : Prop :=
  List.Forall₂ (fun a T => typecheckExpression σ a = .ok T) args ps

/-- `f` is a `BOOL` function of a new name that returns `e` in the scope of `σ`, called where `τ` is. -/
structure ReturnsIn (σ τ : Typechecker) (f : FunctionDefinition) (e : Expression) : Prop where
  bool : f.returnType = .BOOL
  body : f.body.statement = .ret e
  new : f.name ∉ τ.functionEnv
  parameters : (Declarations.names f.parameters).Nodup
  declarations : (Declarations.names f.body.declarations).Nodup
  scope : (f.inside τ.context).declare f.body.declarations = σ.context

/-- The expression is a `BOOL`: the condition of a loop with any accepted body, what a `BOOL` variable
may be assigned, what a `BOOL` parameter may be passed, what a `BOOL` function may return. -/
structure AcceptedAsBool (σ : Typechecker) (e : Expression) : Prop where
  type : typecheckExpression σ e = .ok .BOOL
  loop : ∀ body, Accepts σ body → Accepts σ (.loop e body)
  assignment : ∀ x, σ.valueEnv.get x = .ok .BOOL → Accepts σ (.assignment x e)
  argument : ∀ f sig before after ps qs, σ.functionEnv.lookup f = some sig →
    sig.parameterTypes = ps ++ .BOOL :: qs → ArgumentsFit σ before ps → ArgumentsFit σ after qs →
      typecheckExpression σ (.functionCall f (before ++ e :: after)) = .ok sig.returnType
  ret : ∀ τ f, ReturnsIn σ τ f e → (typecheckFunctionDef f τ).result = .ok ()

/-- The expression is an `INT`, and accepted in no such position. -/
structure RejectedAsBool (σ : Typechecker) (e : Expression) : Prop where
  type : typecheckExpression σ e = .ok .INT
  loop : ∀ body, ¬ Accepts σ (.loop e body)
  assignment : ∀ x, σ.valueEnv.get x = .ok .BOOL → ¬ Accepts σ (.assignment x e)
  argument : ∀ f sig before after ps qs, σ.functionEnv.lookup f = some sig →
    sig.parameterTypes = ps ++ .BOOL :: qs → before.length = ps.length →
      ∀ T, typecheckExpression σ (.functionCall f (before ++ e :: after)) ≠ .ok T
  ret : ∀ τ f, ReturnsIn σ τ f e → (typecheckFunctionDef f τ).result ≠ .ok ()

/-- The relational operators. -/
def BinaryClass.Relational (cls : BinaryClass) : Prop :=
  cls = .LessThenExpression ∨ cls = .MoreThenExpression ∨ cls = .EqualExpression

/-- The arithmetic operators. -/
def BinaryClass.Arithmetic (cls : BinaryClass) : Prop :=
  cls = .AddExpression ∨ cls = .SubExpression ∨ cls = .MulExpression ∨ cls = .DivExpression

/-- Relational expressions of `l` and `r` are `BOOL`s, and arithmetic ones are not. -/
def RelationalAreBoolean (σ : Typechecker) (l r : Expression) : Prop :=
  (∀ cls : BinaryClass, cls.Relational → AcceptedAsBool σ (.binary cls l r)) ∧
    ∀ cls : BinaryClass, cls.Arithmetic → RejectedAsBool σ (.binary cls l r)

section Rejected

variable {σ : Typechecker} {e : Expression}

theorem accepts_iff {s : Statement} : Accepts σ s ↔ (stmtTypes σ.context s).isSome := by
  rw [Option.isSome_iff_exists]
  exact exists_congr fun types => typecheckStatement_ok_iff

/-- A list does not change its length before a given element. -/
theorem eq_of_append_cons {α : Type} {as bs cs ds : List α} {a b : α}
    (h : as ++ a :: bs = cs ++ b :: ds) (hlen : as.length = cs.length) : a = b :=
  (List.cons.inj (List.append_inj h hlen).2).1

/-- **An `INT` is accepted in no position for a `BOOL`.** -/
theorem rejectedAsBool_of_type (h : typecheckExpression σ e = .ok .INT) : RejectedAsBool σ e := by
  have htype := typecheckExpression_ok_iff.mp h
  refine ⟨h, fun body hacc => ?_, fun x hx hacc => ?_,
    fun f sig before after ps qs hf hps hlen T hT => ?_, fun τ f hf hacc => ?_⟩
  · rw [accepts_iff, stmtTypes, htype, if_neg (by decide)] at hacc
    cases hacc
  · have hvar : σ.context.var x = some .BOOL := by
      rw [show σ.context.var x = (σ.valueEnv.get x).toOption from (Env.get_toOption _ x).symm, hx]
      rfl
    rw [accepts_iff, stmtTypes, htype, hvar, if_neg (by decide)] at hacc
    cases hacc
  · have hcall := typecheckExpression_ok_iff.mp hT
    have hfn : σ.context.fn f = some sig := hf
    rw [exprType, hfn, Option.bind_some, Option.ite_none_right_eq_some, argTypes_eq_map, hps,
      List.map_append, List.map_append, List.map_cons, List.map_cons] at hcall
    have heq := eq_of_append_cons hcall.1 (by simpa using hlen)
    rw [htype] at heq
    cases heq
  · obtain ⟨types, hbody, -, hmem⟩ := ((typecheckFunctionDef_returns f τ).iff.mp hacc).2
    have hstmt := (bodyTypes_eq_some_iff.mp hbody).2
    rw [BlockStatement.toStatement, stmtTypes, Option.ite_none_right_eq_some, hf.scope, hf.body,
      stmtTypes, htype] at hstmt
    obtain rfl := Option.some.inj hstmt.2
    rw [hf.bool, Finset.mem_singleton] at hmem
    cases hmem

theorem typecheckExpression_binary {cls : BinaryClass} {l r : Expression}
    (hl : typecheckExpression σ l = .ok .INT) (hr : typecheckExpression σ r = .ok .INT) :
    typecheckExpression σ (.binary cls l r) = .ok .INT := by
  rw [typecheckExpression, hl, hr]
  rfl

end Rejected

/-- **Relational expressions are no booleans.** Whatever the state and the integer operands, none of
the relational classes gives a `BOOL`: all classes give an `INT` that no such position accepts. -/
theorem relational_never_boolean {σ : Typechecker} {l r : Expression}
    (hl : typecheckExpression σ l = .ok .INT) (hr : typecheckExpression σ r = .ok .INT) :
    ¬ RelationalAreBoolean σ l r ∧ ∀ cls, RejectedAsBool σ (.binary cls l r) := by
  refine ⟨fun h => ?_, fun cls => rejectedAsBool_of_type (typecheckExpression_binary hl hr)⟩
  have hbool := (h.1 .LessThenExpression (.inl rfl)).type
  rw [typecheckExpression_binary hl hr] at hbool
  cases hbool

/-- Two numbers. -/
theorem relational_never_boolean_numbers :
    ¬ RelationalAreBoolean Typechecker.new (.num 1) (.num 2) ∧
      ∀ cls, RejectedAsBool Typechecker.new (.binary cls (.num 1) (.num 2)) :=
  relational_never_boolean rfl rfl

/-- `while (1 < 2) skip;` is rejected. -/
theorem less_than_no_loop_condition :
    let e : Expression := .binary .LessThenExpression (.num 1) (.num 2)
    typecheckExpression Typechecker.new (.num 1) = .ok .INT ∧
      typecheckExpression Typechecker.new (.num 2) = .ok .INT ∧
      typecheckExpression Typechecker.new e = .ok .INT ∧
      (typecheckStatement .skip Typechecker.new).result = .ok {.NIL} ∧
      (typecheckStatement (.loop e .skip) Typechecker.new).result =
        .error (.cstring "Typechecker::typecheckLoop: Condition is not of type BOOL!") :=
  ⟨rfl, rfl, rfl, rfl, rfl⟩

end ProgramAnalysis.Typecheck
