import Mathlib.Data.List.Nodup
import Mathlib.Data.List.Sigma

/-!
# The syntax checked by the typechecker

The node classes of `typechecker/ast.hh`. A tag and a class always go together in the constructors
of the source, so one constructor stands for both; child pointers are never null.

* `Ty`, `Declaration`, `Expression`, `Statement`, `BlockStatement`, `FunctionDefinition`, `Program`;
* `Declarations`: what a declaration list declares (`names`, `typeOf`).
-/

namespace ProgramAnalysis.Typecheck

/-- The types of the language. -/
inductive Ty
  | INT | BOOL | VOID | NIL | CHAR
  deriving DecidableEq, Repr

/-- A declared variable, with the accessors of the source as its fields. -/
structure Declaration where
  getVariable : String
  getType : Ty
  deriving DecidableEq, Repr

/-- The classes of binary expressions; the base class is used as it is by the tests. -/
inductive BinaryClass
  | BinaryExpression | AddExpression | SubExpression | LessThenExpression | MoreThenExpression
  | EqualExpression | MulExpression | DivExpression
  deriving DecidableEq, Repr

/-- Expressions. -/
inductive Expression
  | empty
  | num (value : Int32)
  | var (name : String)
  | binary (cls : BinaryClass) (left right : Expression)
  | functionCall (name : String) (arguments : List Expression)

/-- Statements. -/
inductive Statement
  | skip
  | assignment (target : String) (expression : Expression)
  | branch (condition : Expression) (thenStatement elseStatement : Statement)
  | loop (condition : Expression) (body : Statement)
  | sequence (statements : List Statement)
  | block (declarations : List Declaration) (statement : Statement)
  | ret (expression : Expression)

/-- A block used as a function body. -/
structure BlockStatement where
  declarations : List Declaration
  statement : Statement

/-- The body as a statement. -/
def BlockStatement.toStatement (b : BlockStatement) : Statement := .block b.declarations b.statement

structure FunctionDefinition where
  name : String
  returnType : Ty
  parameters : List Declaration
  body : BlockStatement

structure Program where
  name : String
  declarations : List Declaration
  functionDefs : List FunctionDefinition
  statement : Statement

/-! ## Induction on syntax with lists of children -/

/-- Induction on expressions, with the hypothesis for every argument of a call. -/
@[elab_as_elim]
theorem Expression.ind {P : Expression → Prop} (empty : P .empty) (num : ∀ n, P (.num n))
    (var : ∀ x, P (.var x)) (binary : ∀ c l r, P l → P r → P (.binary c l r))
    (functionCall : ∀ f args, (∀ a ∈ args, P a) → P (.functionCall f args)) : ∀ e, P e
  | .empty => empty
  | .num n => num n
  | .var x => var x
  | .binary c l r => binary c l r (ind empty num var binary functionCall l)
      (ind empty num var binary functionCall r)
  | .functionCall f args => functionCall f args fun a _ =>
      ind empty num var binary functionCall a

/-- Induction on statements, with the hypothesis for every element of a sequence. -/
@[elab_as_elim]
theorem Statement.ind {P : Statement → Prop} (skip : P .skip)
    (assignment : ∀ x e, P (.assignment x e))
    (branch : ∀ c t e, P t → P e → P (.branch c t e)) (loop : ∀ c b, P b → P (.loop c b))
    (sequence : ∀ ss, (∀ s ∈ ss, P s) → P (.sequence ss))
    (block : ∀ ds s, P s → P (.block ds s)) (ret : ∀ e, P (.ret e)) : ∀ s, P s
  | .skip => skip
  | .assignment x e => assignment x e
  | .branch c t e => branch c t e (ind skip assignment branch loop sequence block ret t)
      (ind skip assignment branch loop sequence block ret e)
  | .loop c b => loop c b (ind skip assignment branch loop sequence block ret b)
  | .sequence ss => sequence ss fun s _ => ind skip assignment branch loop sequence block ret s
  | .block ds s => block ds s (ind skip assignment branch loop sequence block ret s)
  | .ret e => ret e

/-! ## Declaration lists -/

/-- A declaration list. -/
abbrev Declarations : Type := List Declaration

namespace Declarations

/-- The declared names, in order. -/
def names (ds : Declarations) : List String := ds.map Declaration.getVariable

/-- The type a list declares for a name. -/
def typeOf (ds : Declarations) (x : String) : Option Ty :=
  (ds.find? fun d => d.getVariable = x).map Declaration.getType

@[simp] theorem names_nil : names [] = [] := rfl

@[simp] theorem names_cons (d : Declaration) (ds : Declarations) :
    names (d :: ds) = d.getVariable :: names ds := rfl

@[simp] theorem typeOf_nil (x : String) : typeOf [] x = none := rfl

theorem typeOf_cons (d : Declaration) (ds : Declarations) (x : String) :
    typeOf (d :: ds) x = if d.getVariable = x then some d.getType else typeOf ds x := by
  unfold typeOf
  by_cases h : d.getVariable = x <;> simp [h]

theorem typeOf_eq_none_iff {ds : Declarations} {x : String} :
    typeOf ds x = none ↔ x ∉ names ds := by
  induction ds with
  | nil => simp
  | cons d ds ih =>
    rw [typeOf_cons, names_cons, List.mem_cons, not_or, ← ih]
    by_cases h : d.getVariable = x
    · simp [h]
    · simp [h, Ne.symm h]

end Declarations

end ProgramAnalysis.Typecheck
